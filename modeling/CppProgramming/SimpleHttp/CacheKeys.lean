import CppProgramming.SimpleHttp.Terminal
import CppProgramming.SimpleHttp.EndOfFile

/-! # The keys of the `WriteCache`

`WriteCache::Get` leaves an empty string under the id, and `ReleaseConnection` erases the connection from the
`ConnectionMap` only. So nothing takes a key out of the `WriteCache`, and ids are not reused: a key that has lost its
connection stays. -/

namespace SimpleHttp
open Interleaving

variable {R : RequestHandler}

/-- `WriteCache` has an entry for the id. -/
def Shared.hasKey (s : Shared R) (c : ConnId) : Bool := (s.writeCache c).isSome

@[simp] theorem Act.apply_hasKey (a : Act R) (s : Shared R) (c : ConnId) : (a.apply s).hasKey c =
    match a with
    | .addCache c' _ => if c' = c then true else s.hasKey c
    | _ => s.hasKey c := by
  cases a with
  | addCache c' content => by_cases h : c' = c <;> simp_all [Act.apply, Shared.hasKey, eq_comm]
  | getCache c' => by_cases h : c' = c <;> simp_all [Act.apply, Shared.hasKey, eq_comm]
  | _ => rfl

/-- Every key of the `WriteCache` is the id of a connection in the `ConnectionMap`. -/
def CacheLive (s : State R) : Prop := ∀ c, s.shared.hasKey c = true → s.shared.connectionMap c = true

/-- A worker has a connection, for which `NeedReInQueueRead` or `NeedReInQueueWrite` is to be called. -/
def Frame.hasConnection : Frame R → Bool
  | .recheck _ _ _ => true
  | _ => false

/-- No worker holds a connection, and both queues are empty. -/
def State.idle (s : State R) : Bool :=
  (s.shared.queue .read).isEmpty && (s.shared.queue .write).isEmpty &&
    s.threads.all fun t => t.frames.all fun f => !f.hasConnection

/-- The runs in which no connection is released under whose id the `WriteCache` has an entry, and nothing is added for a
    connection that is not in the `ConnectionMap`. -/
def withoutKeys (R : RequestHandler) : Rule (Shared R) (Thread R) (Act R) Call where
  step s _ a := (∀ c, a = .release c → s.shared.hasKey c = false) ∧
    ∀ c content, a = .addCache c content → s.shared.connectionMap c = true
  call _ := True

theorem CacheLive.apply {s : Shared R} {a : Act R} (h : ∀ c, s.hasKey c = true → s.connectionMap c = true)
    (hrelease : ∀ c, a = .release c → s.hasKey c = false)
    (hadd : ∀ c content, a = .addCache c content → s.connectionMap c = true) (c : ConnId)
    (hkey : (a.apply s).hasKey c = true) : (a.apply s).connectionMap c = true := by
  cases a with
  | addCache c' content =>
    by_cases hc : c' = c
    · subst hc
      simpa using hadd c' content rfl
    · simpa using h c (by simpa [hc] using hkey)
  | release c' =>
    have hkey : s.hasKey c = true := by simpa using hkey
    have hc : c' ≠ c := by
      rintro rfl
      rw [hrelease c' rfl] at hkey
      cases hkey
    simpa [hc] using h c hkey
  | register =>
    have hmap := h c (by simpa using hkey)
    simp [hmap]
  | _ => simpa using h c (by simpa using hkey)

section Run
variable {rule : Rule (Shared R) (Thread R) (Act R) Call} {closed : Bool} {readers writers : Nat} {s : State R}

theorem cacheLive (h : Reach (manager R) (withoutKeys R) (start R closed readers writers) s) : CacheLive s := by
  refine reach_invariant (P := CacheLive) (fun _ hno => Bool.noConfusion hno) ?_ (fun ih => ih) (fun _ ih _ _ => ih)
    (fun ih _ _ => ih) h
  intro s i t f rest fs a v _ ih _ _ _ hok
  exact CacheLive.apply ih hok.1 hok.2

end Run

/-! ### Keys stay -/

theorem companion_add : Companion (R := httpRequestHandler) fun f g =>
    ∃ c content, f = .addCache c (.add content) ∧ g = .callback c HttpRequestHandler.Pc.setWrite where
  rank_lt := by
    rintro f g ⟨c, content, rfl, rfl⟩
    simp [Frame.rank]
  step := by
    rintro s result f a fs h f' hf' g ⟨c, content, rfl, rfl⟩
    cases f with
    | callback c' p =>
      obtain ⟨h', r, w, rfl, -, -, hstep⟩ := callback_http h
      cases hstep <;> simp at hf'
      obtain ⟨rfl, -⟩ := hf'
      exact .inr (by simp)
    | _ => cases h <;> simp at hf'
  report := by
    rintro r c g ⟨c', content, hno, -⟩
    cases hno
  write hno := by cases hno

section Run
variable {rule : Rule (Shared httpRequestHandler) (Thread httpRequestHandler) (Act httpRequestHandler) Call}
  {closed : Bool} {readers writers : Nat} {s s' : State httpRequestHandler}

/-- The keys are ids that have been given out. -/
theorem key_known (h : Reach (manager httpRequestHandler) rule (start httpRequestHandler closed readers writers) s) :
    ∀ c, s.shared.hasKey c = true → c ≤ s.shared.nextConnId := by
  refine reach_invariant (P := fun s => ∀ c, s.shared.hasKey c = true → c ≤ s.shared.nextConnId)
    (fun _ hno => Bool.noConfusion hno) ?_ (fun ih => ih) (fun _ ih _ _ => ih) (fun ih _ _ => ih) h
  intro s i t f rest fs a v hr ih hi ht hf _ c hkey
  refine Nat.le_trans ?_ (nextConnId_le a s.shared)
  cases a with
  | addCache c' content =>
    by_cases hc : c' = c
    · subst hc
      cases hf
      have hat := companion_add.at_of_at hr (State.at_head hi ht) ⟨c', content, rfl, rfl⟩
      exact (known hr).frames i _ c' hat rfl
    · exact ih c (by simpa [hc] using hkey)
  | _ => exact ih c (by simpa using hkey)

/-- A key without its connection. -/
def Shared.stale (s : Shared R) (c : ConnId) : Prop :=
  s.hasKey c = true ∧ s.connectionMap c = false ∧ c ≤ s.nextConnId

theorem stale_kept {s : Shared R} {a : Act R} {c : ConnId} (h : s.stale c) : (a.apply s).stale c := by
  obtain ⟨hkey, hmap, hid⟩ := h
  refine ⟨?_, released_kept hmap hid, Nat.le_trans hid (nextConnId_le a s)⟩
  rw [Act.apply_hasKey]
  cases a <;> simp [hkey]

theorem stale_of_not_cacheLive
    (h : Reach (manager httpRequestHandler) rule (start httpRequestHandler closed readers writers) s)
    (hno : ¬CacheLive s) : ∃ c, s.shared.stale c := by
  simp only [CacheLive, not_forall, exists_prop, Bool.not_eq_true] at hno
  obtain ⟨c, hkey, hmap⟩ := hno
  exact ⟨c, hkey, hmap, key_known h c hkey⟩

theorem Shared.stale.not_cacheLive {c : ConnId} (h : s.shared.stale c) : ¬CacheLive s := by
  intro hlive
  obtain ⟨hkey, hmap, -⟩ := h
  rw [hlive c hkey] at hmap
  cases hmap

end Run

/-- In the states that the handler's server reaches, the keys of the `WriteCache` are live exactly if on the way there no
    connection was released that had a key, and none was written to that had been released. -/
theorem cache_keys_live_iff (closed : Bool) (readers writers : Nat) (s : State httpRequestHandler)
    (h : Reachable httpRequestHandler closed readers writers s) : CacheLive s ↔
      Reach (manager httpRequestHandler) (withoutKeys httpRequestHandler) (start httpRequestHandler closed readers writers)
        s := by
  refine ⟨fun hlive => ?_, cacheLive⟩
  induction h with
  | start => exact .start
  | @run s i o t t' a hr hh hi hs _ ih =>
    have hbefore : CacheLive s := by
      by_contra hno
      obtain ⟨c, hstale⟩ := stale_of_not_cacheLive hr hno
      exact (stale_kept hstale : Shared.stale (a.apply s.shared) c).not_cacheLive
        (s := ⟨a.apply s.shared, s.threads.set i t'⟩) hlive
    have hlive : ∀ c, (a.apply s.shared).hasKey c = true → (a.apply s.shared).connectionMap c = true := hlive
    refine .run (ih hbefore) hh hi hs ⟨?_, ?_⟩
    · rintro c rfl
      cases hkey : s.shared.hasKey c with
      | false => rfl
      | true => simpa using hlive c (by simpa using hkey)
    · rintro c content rfl
      simpa using hlive c (by simp)
  | enter hr hk _ ih => exact .enter (ih hlive) hk trivial

/-- A request has been answered, its connection is open, and the workers wait. -/
theorem cache_keys_live_iff_answered : ∃ s : State httpRequestHandler, Reachable httpRequestHandler false 1 1 s ∧
    s.idle = true ∧ s.shared.hasKey 1 = true ∧ s.shared.connectionMap 1 = true ∧ (CacheLive s ↔
      Reach (manager httpRequestHandler) (withoutKeys httpRequestHandler) (start httpRequestHandler false 1 1) s) := by
  have hrun : ((manager httpRequestHandler).exec (fun _ _ _ => true) (fun _ => true)
      (start httpRequestHandler false 1 1)
      [readerReads, [.run 0 (.data [97, 13, 10, 13, 10] []), .run 0 .again], go 0 28, go 1 16].flatten).any
      (fun s : State httpRequestHandler =>
        s.idle = true ∧ s.shared.hasKey 1 = true ∧ s.shared.connectionMap 1 = true) = true := by decide
  obtain ⟨s, hs, hp⟩ := Reach.exists_of_exec Rule.any (fun _ _ _ _ => trivial) (fun _ _ => trivial) hrun
  obtain ⟨hidle, hkey, hmap⟩ := of_decide_eq_true hp
  exact ⟨s, hs, hidle, hkey, hmap, cache_keys_live_iff false 1 1 s hs⟩

/-- The response has been sent and the connection has been closed: its key is left. -/
theorem cache_key_left : ¬∀ (closed : Bool) (readers writers : Nat) (s : State httpRequestHandler),
    Reachable httpRequestHandler closed readers writers s → s.idle = true → CacheLive s := by
  intro hall
  have hrun : ((manager httpRequestHandler).exec (fun _ _ _ => true) (fun _ => true)
      (start httpRequestHandler false 1 1)
      [responseLoaded, [.run 1 (.accepted 45)], go 1 20, go 0 3].flatten).any
      (fun s : State httpRequestHandler =>
        s.idle = true ∧ s.shared.hasKey 1 = true ∧ s.shared.connectionMap 1 = false) = true := by decide
  obtain ⟨s, hs, hp⟩ := Reach.exists_of_exec Rule.any (fun _ _ _ _ => trivial) (fun _ _ => trivial) hrun
  obtain ⟨hidle, hkey, hmap⟩ := of_decide_eq_true hp
  rw [hall false 1 1 s hs hidle 1 hkey] at hmap
  cases hmap

end SimpleHttp
