import CppProgramming.Iocp.Echo

/-! # No client is forgotten

Every early return of `acceptConnection` and `process` passes the context on or takes it out of the map, with two
exceptions: when `CreateIoCompletionPort` fails for a client, and when `GetQueuedCompletionStatus` returns `FALSE`. A
run without these leaves no context in the map that nobody will come back to. -/

namespace Iocp
open Interleaving Holdings

/-- The threads that are working on the context at `p`. -/
def Thread.handles (p : ContextPtr) (t : Thread) : Nat := (t.hand.map Prod.fst).toList.count p

/-- A context of the map has exactly one outstanding operation, or one thread that is working on it. -/
def Served (s : Config Shared Thread) : Prop :=
  ∀ (id : UInt32) (p : ContextPtr), s.shared.clientContexts[id]? = some p →
    s.shared.outstanding p + s.weight (Thread.handles p) = 1

/-- `CreateIoCompletionPort` fails for a client, or `GetQueuedCompletionStatus` returns `FALSE`. -/
def Act.isFailure : Act → Bool
  | .associateFailed | .dequeueFailed => true
  | _ => false

/-- The runs in which `CreateIoCompletionPort` does not fail for a client and `GetQueuedCompletionStatus` does not
    return `FALSE`. -/
def noFailure : Rule Shared Thread Act Nat where
  step _ _ a := a.isFailure = false
  call _ := True

/-- Every context of the map is in a hand, under its own id. -/
structure Covered (s : Config Shared Thread) : Prop where
  named : ∀ (id : UInt32) (p : ContextPtr), s.shared.clientContexts[id]? = some p →
    ∃ c, s.shared.contexts[p]? = some c ∧ c.id = id
  held : ∀ (id : UInt32) (p : ContextPtr), s.shared.clientContexts[id]? = some p → p ∈ (hands s).map Prod.fst

section Step
variable {s : Config Shared Thread} {i : Nat} {t t' : Thread} {a : Act}

/-- No step changes the id of a context. -/
theorem Step.context_id (h : Step s.shared t a t') {p : ContextPtr} {c : ClientContext}
    (hc : s.shared.contexts[p]? = some c) : ∃ c', (a.apply s.shared).contexts[p]? = some c' ∧ c'.id = c.id := by
  have hassign : ∀ {q : ContextPtr} {d d' : ClientContext}, s.shared.contexts[q]? = some d → d'.id = d.id →
      ∃ c', (s.shared.contexts.set q d')[p]? = some c' ∧ c'.id = c.id := by
    intro q d d' hd hid
    obtain ⟨hlt, -⟩ := List.getElem?_eq_some_iff.mp hd
    by_cases hq : q = p
    · subst hq
      obtain rfl := Option.some.inj (hd.symm.trans hc)
      exact ⟨d', by simp [hlt], hid⟩
    · exact ⟨c, by simpa [hq] using hc, rfl⟩
  have hmodify : ∀ {q : ContextPtr} {f : ClientContext → ClientContext}, (∀ d, (f d).id = d.id) →
      ∃ c', (s.shared.contexts.modify q f)[p]? = some c' ∧ c'.id = c.id := by
    intro q f hid
    rw [List.getElem?_modify, hc]
    refine ⟨_, rfl, ?_⟩
    split
    · exact hid c
    · rfl
  cases h with
  | create hid =>
    obtain ⟨hlt, -⟩ := List.getElem?_eq_some_iff.mp hc
    exact ⟨c, by simpa [Act.apply, List.getElem?_append_left hlt] using hc, rfl⟩
  | prepare hd => exact hassign hd rfl
  | received hd hlast => exact hassign hd rfl
  | sentPart hd hlast hlt => exact hassign hd rfl
  | sentAll hd hlast hlt => exact hassign hd rfl
  | completeRecv ho hop hle => exact hmodify fun _ => rfl
  | completeSend ho hop hle => exact hmodify fun _ => rfl
  | _ => exact ⟨c, hc, rfl⟩

/-- A step without a failure passes every context on that it takes, or takes it out of the map. -/
theorem Step.passes_or_erases (hI : Inv s) (ht : t ∈ s.threads) (h : Step s.shared t a t')
    (hok : a.isFailure = false) :
    ((a.apply s.shared).clientContexts = s.shared.clientContexts ∧
        (t.hand.toList ++ a.takes s.shared).map Prod.fst = (t'.hand.toList ++ a.gives).map Prod.fst) ∨
      (∃ id, a = .create id ∧ t.hand = none ∧ (t'.hand.toList ++ a.gives).map Prod.fst = [s.shared.contexts.length]) ∨
      ∃ key p, a = .erase key ∧ s.shared.clientContexts[key]? = some p ∧
        (t.hand.toList ++ a.takes s.shared).map Prod.fst = [p] := by
  cases h with
  | create hid => exact .inr (.inl ⟨_, rfl, rfl, rfl⟩)
  | associateFailed => cases hok
  | failed hport hresult => cases hok
  | @acceptRemove id p => exact .inr (.inr ⟨id, p, rfl, (hI.knows_thread ht rfl).lookup, rfl⟩)
  | @poolRemove key q =>
    cases q with
    | none => exact absurd rfl (hI.threads _ ht)
    | some p => exact .inr (.inr ⟨key, p, rfl, (hI.knows_thread ht rfl).lookup, rfl⟩)
  | acceptLoop hpc => rcases hpc with rfl | rfl <;> exact .inl ⟨rfl, rfl⟩
  | acceptWait hpc => rcases hpc with rfl | rfl <;> exact .inl ⟨rfl, rfl⟩
  | poolLoop hpc => rcases hpc with rfl | rfl <;> exact .inl ⟨rfl, rfl⟩
  | @woken packet port hport hresult hkey =>
    refine .inl ⟨rfl, ?_⟩
    cases hover : packet.overlapped with
    | none => simp [Act.takes, Act.gives, hport, Packet.hand, hover, Thread.hand, PoolPc.hand]
    | some p =>
      -- The key of a client is not the one that wakes the threads.
      have hhand : packet.hand = some (p, some packet.key, .done packet.numberOfBytes) := by
        simp [Packet.hand, hover, hresult]
      obtain ⟨c, -, -, hne, hk, -⟩ := hI.knows_port (by simp [hport]) hhand
      exact absurd (hkey ▸ (hk packet.key rfl).symm) hne
  | @ended packet port hport hresult hkey hn =>
    refine .inl ⟨rfl, ?_⟩
    cases hover : packet.overlapped <;>
      simp [Act.takes, Act.gives, hport, Packet.hand, hover, Thread.hand, PoolPc.hand]
  | @transferred packet port hport hresult hkey hn =>
    refine .inl ⟨rfl, ?_⟩
    cases hover : packet.overlapped <;>
      simp [Act.takes, Act.gives, hport, Packet.hand, hover, Thread.hand, PoolPc.hand]
  | @found key n q p hp =>
    cases q with
    | none => exact absurd rfl (hI.threads _ ht)
    | some q =>
      have hknows := hI.knows_thread (x := (some key, .done n)) ht rfl
      obtain rfl := Option.some.inj (hp.symm.trans hknows.lookup)
      exact .inl ⟨rfl, rfl⟩
  | @missing key n q hp =>
    cases q with
    | none => exact absurd rfl (hI.threads _ ht)
    | some q =>
      have hknows := hI.knows_thread (x := (some key, .done n)) ht rfl
      rw [hknows.lookup] at hp
      cases hp
  | @unknown p n c hc hlast =>
    obtain ⟨-, ⟨hrecv, -⟩ | ⟨hsend, -⟩⟩ := ((hI.knows_thread (x := (none, .done n)) ht rfl).context hc).1
    · rw [hlast] at hrecv
      cases hrecv
    · rw [hlast] at hsend
      cases hsend
  | completeRecv ho hop hle =>
    refine .inl ⟨rfl, ?_⟩
    simp [Act.takes, Act.gives, Overlapped.hand_fst, Thread.hand]
  | completeSend ho hop hle =>
    refine .inl ⟨rfl, ?_⟩
    simp [Act.takes, Act.gives, Overlapped.hand_fst, Thread.hand]
  | _ => exact .inl ⟨rfl, rfl⟩

/-- What the map has after a context was made. -/
theorem lookup_create {x : Shared} {id id' : UInt32} {p : ContextPtr}
    (hp : (Act.apply (.create id) x).clientContexts[id']? = some p) :
    id' = id ∧ p = x.contexts.length ∨ x.clientContexts[id']? = some p := by
  change (x.clientContexts.insert id x.contexts.length)[id']? = some p at hp
  rw [Std.TreeMap.getElem?_insert] at hp
  split at hp
  · next heq => exact .inl ⟨(Std.compare_eq_iff_eq.mp heq).symm, (Option.some.inj hp).symm⟩
  · exact .inr hp

/-- What the map has after an entry was taken out. -/
theorem lookup_erase {x : Shared} {key id : UInt32} {p : ContextPtr}
    (hp : (Act.apply (.erase key) x).clientContexts[id]? = some p) : id ≠ key ∧ x.clientContexts[id]? = some p := by
  change (x.clientContexts.erase key)[id]? = some p at hp
  rw [Std.TreeMap.getElem?_erase] at hp
  split at hp
  · cases hp
  · next hne => exact ⟨fun heq => hne (Std.compare_eq_iff_eq.mpr heq.symm), hp⟩

theorem Covered.run (hI : Inv s) (hC : Covered s) (hi : s.threads[i]? = some t) (h : Step s.shared t a t')
    (hok : a.isFailure = false) : Covered ⟨a.apply s.shared, s.threads.set i t'⟩ := by
  obtain ⟨rest, hbefore, hafter⟩ := h.hands hi
  have hin : ∀ {p}, p ∈ (hands s).map Prod.fst →
      p ∈ (t.hand.toList ++ a.takes s.shared).map Prod.fst ∨ p ∈ rest.map Prod.fst := by
    intro p hp
    have hp' := (hbefore.map Prod.fst).mem_iff.mp hp
    rwa [List.map_append, List.mem_append] at hp'
  have hout : ∀ {p}, p ∈ (t'.hand.toList ++ a.gives).map Prod.fst ∨ p ∈ rest.map Prod.fst →
      p ∈ (hands ⟨a.apply s.shared, s.threads.set i t'⟩).map Prod.fst := by
    intro p hp
    refine (hafter.map Prod.fst).mem_iff.mpr ?_
    rwa [List.map_append, List.mem_append]
  have hnamed : ∀ {id : UInt32} {p : ContextPtr}, s.shared.clientContexts[id]? = some p →
      ∃ c, (a.apply s.shared).contexts[p]? = some c ∧ c.id = id := by
    intro id p hp
    obtain ⟨c, hc, hid⟩ := hC.named id p hp
    obtain ⟨c', hc', hid'⟩ := h.context_id hc
    exact ⟨c', hc', hid'.trans hid⟩
  rcases h.passes_or_erases hI (List.mem_of_getElem? hi) hok with
    ⟨hmap, hsame⟩ | ⟨id, rfl, hnone, hleft⟩ | ⟨key, q, rfl, hkey, htaken⟩
  · constructor
    · intro id p (hp : (a.apply s.shared).clientContexts[id]? = some p)
      exact hnamed (hmap ▸ hp)
    · intro id p (hp : (a.apply s.shared).clientContexts[id]? = some p)
      exact hout (hsame ▸ hin (hC.held id p (hmap ▸ hp)))
  · constructor
    · intro id' p hp
      rcases lookup_create hp with ⟨rfl, rfl⟩ | hold
      · exact ⟨{ id := id' }, by simp [Act.apply], rfl⟩
      · exact hnamed hold
    · intro id' p hp
      rcases lookup_create hp with ⟨-, rfl⟩ | hold
      · exact hout (.inl (by rw [hleft]; exact List.mem_singleton_self _))
      · refine hout (.inr ((hin (hC.held id' p hold)).resolve_left ?_))
        simp [hnone, Act.takes]
  · constructor
    · intro id p hp
      exact hnamed (lookup_erase hp).2
    · intro id p hp
      obtain ⟨hne, hold⟩ := lookup_erase hp
      refine hout (.inr ((hin (hC.held id p hold)).resolve_left ?_))
      -- Two ids of the map have two contexts.
      rw [htaken, List.mem_singleton]
      rintro rfl
      obtain ⟨c, hc, hid⟩ := hC.named id p hold
      obtain ⟨d, hd, hkey'⟩ := hC.named key p hkey
      obtain rfl := Option.some.inj (hc.symm.trans hd)
      exact hne (hid.symm.trans hkey')

end Step

theorem covered_of_reach {threadPoolSize : Nat} {s : Config Shared Thread}
    (h : Reach machine noFailure (start threadPoolSize) s) : Covered s := by
  induction h with
  | start => exact ⟨fun id p hp => by simp [start] at hp, fun id p hp => by simp [start] at hp⟩
  | run hreach _ hi hs hok ih => exact ih.run (reach_inv hreach) hi (Thread.step_cases hs) hok
  | @enter s n t _ hk _ ih =>
    cases hk
    refine ⟨ih.named, fun id p hp => ?_⟩
    have hmem := ih.held id p hp
    rw [hands, List.map_append, List.mem_append] at hmem ⊢
    rw [Config.gather_enter]
    simpa [Thread.hand] using hmem

theorem count_gather (s : Config Shared Thread) (p : ContextPtr) :
    ((s.gather Thread.hand).map Prod.fst).count p = s.weight (Thread.handles p) := by
  unfold Config.gather Config.weight
  induction s.threads with
  | nil => rfl
  | cons t l ih =>
    have hcons : (t :: l).filterMap Thread.hand = t.hand.toList ++ l.filterMap Thread.hand := by
      cases ht : t.hand <;> simp [ht]
    rw [hcons, List.map_append, List.count_append, ih, List.map_cons, List.sum_cons, Thread.handles, Option.toList_map]

/-- In a run without such a failure, every context of the map has exactly one outstanding operation, or one thread
    that is working on it. -/
theorem served_of_noFailure (threadPoolSize : Nat) {s : Config Shared Thread}
    (h : Reach machine noFailure (start threadPoolSize) s) : Served s := by
  intro id p hp
  have hnodup := (reach_inv h).held.nodup
  have hcount := List.count_eq_one_of_mem hnodup ((covered_of_reach h).held id p hp)
  rw [count_hands, count_gather] at hcount
  omega

/-- A client with its first receive outstanding. -/
theorem served_of_noFailure_first : ∃ s, Reach machine noFailure (start 1) s ∧
    s.shared.clientContexts[(0 : UInt32)]? = some 0 ∧ s.shared.outstanding 0 + s.weight (Thread.handles 0) = 1 := by
  have hrun : (machine.exec (fun _ _ a => !a.isFailure) (fun _ => true) (start 1)
      [.run 1 .go, .run 1 (.result true), .run 1 .go, .run 1 (.result true), .run 1 .go, .run 1 (.result true)]).any
      (fun s => s.shared.clientContexts[(0 : UInt32)]? == some 0) = true := by
    decide +kernel
  have hrule : ∀ (s : Config Shared Thread) (t : Thread) (a : Act), (!a.isFailure) = true → noFailure.step s t a := by
    intro s t a ha
    exact Bool.not_eq_true' _ |>.mp ha
  obtain ⟨s, hs, hp⟩ := Reach.exists_of_exec noFailure hrule (fun _ _ => trivial) hrun
  have hp : s.shared.clientContexts[(0 : UInt32)]? = some 0 := by simpa using hp
  exact ⟨s, hs, hp, served_of_noFailure 1 hs 0 0 hp⟩

/-- The first receive of a client fails. -/
theorem forgotten_client : ∃ s, Reach machine .any (start 1) s ∧ ¬Served s := by
  have hrun : (machine.exec (fun _ _ _ => true) (fun _ => true) (start 1)
      [.run 1 .go, .run 1 (.result true), .run 1 .go, .run 1 (.result true), .run 1 .go, .run 1 (.result true),
        .run 0 (.complete 0 false [] 0), .run 2 .go, .run 2 .go]).any
      (fun s => s.shared.clientContexts[(0 : UInt32)]? == some 0 &&
        s.shared.outstanding 0 + s.weight (Thread.handles 0) == 0) = true := by
    decide +kernel
  obtain ⟨s, hs, hp⟩ := Reach.exists_of_exec Rule.any (fun _ _ _ _ => trivial) (fun _ _ => trivial) hrun
  simp only [Bool.and_eq_true, beq_iff_eq] at hp
  refine ⟨s, hs, fun hserved => ?_⟩
  have hone := hserved 0 0 hp.1
  omega

end Iocp
