import CppProgramming.SimpleHttp.Queues

/-! # Response bytes

What was passed to `AddToWriteCache` for a connection is what `write()` accepted, followed by what is still
held for it: `response`, the content that a worker has taken from the `WriteCache` and not appended yet, and
the entry of the `WriteCache`. While a worker is in `SocketHandler::Write`, the string that it has left to
send stands for `response`, which changes only when that function has returned. -/

namespace SimpleHttp
open Interleaving

variable {R : RequestHandler}

namespace Frame

/-- The string that `SocketHandler::Write` has left to send for `c`, or has returned. -/
def sending (c : ConnId) : Frame R → Option ByteString
  | .write c' (.socket rest) | .write c' (.store rest) => if c' = c then some rest else none
  | _ => none

/-- The content that a worker holds for `c` between `WriteCache::Get` and `SetResponse`. -/
def carrying (c : ConnId) : Frame R → Option ByteString
  | .load c' (.setResponse content) => if c' = c then some content else none
  | _ => none

/-- The function moves bytes of `c`. -/
def moves (c : ConnId) : Frame R → Bool
  | .load c' _ | .write c' _ => c' = c
  | _ => false

theorem not_moves {c : ConnId} {f : Frame R} (h : f.moves c = false) : f.sending c = none ∧ f.carrying c = none := by
  cases f with
  | load c' p => cases p <;> simp_all [moves, sending, carrying]
  | write c' p => cases p <;> simp_all [moves, sending, carrying]
  | _ => exact ⟨rfl, rfl⟩

theorem moves_of_sending {c : ConnId} {f : Frame R} {r : ByteString} (h : f.sending c = some r) : f.moves c = true := by
  by_contra hno
  rw [(not_moves (by simpa using hno)).1] at h
  cases h

theorem moves_of_carrying {c : ConnId} {f : Frame R} {r : ByteString} (h : f.carrying c = some r) :
    f.moves c = true := by
  by_contra hno
  rw [(not_moves (by simpa using hno)).2] at h
  cases h

theorem part_of_moves {c : ConnId} {f : Frame R} (h : f.moves c = true) :
    f.part = some (.write, c) ∧ f.rank = 2 := by
  cases f <;> simp_all [moves, part, rank]

end Frame

/-- The string that `SocketHandler::Write` has left to send for `c`. -/
def State.sending (s : State R) (c : ConnId) : Option ByteString :=
  (s.threads.flatMap Thread.frames).findSome? (Frame.sending c)

/-- The content between `WriteCache::Get` and `SetResponse`. -/
def State.carrying (s : State R) (c : ConnId) : ByteString :=
  ((s.threads.flatMap Thread.frames).findSome? (Frame.carrying c)).getD []

/-- The bytes of `c`, by what its worker is doing. -/
structure Conserved (s : State R) (c : ConnId) : Prop where
  sending : ∀ j f r, s.At j f → f.sending c = some r →
    s.shared.added c = s.shared.accepted c ++ r ++ s.shared.cached c
  carrying : ∀ j f r, s.At j f → f.carrying c = some r →
    s.shared.added c = s.shared.accepted c ++ (s.shared.conn c).response ++ r ++ s.shared.cached c
  neither : (∀ j f, s.At j f → f.sending c = none ∧ f.carrying c = none) →
    s.shared.added c = s.shared.accepted c ++ (s.shared.conn c).response ++ s.shared.cached c

section Step
variable {s : Shared R} {result : Bool} {f : Frame R} {a : Act R} {fs : List (Frame R)}

/-- A function that moves no bytes of `c` only adds to its entry. -/
theorem FrameStep.adds (h : FrameStep s result f a fs) {c : ConnId} (hf : f.moves c = false) :
    ∃ x, (a.apply s).added c = s.added c ++ x ∧ (a.apply s).cached c = s.cached c ++ x ∧
      (a.apply s).accepted c = s.accepted c ∧ ((a.apply s).conn c).response = (s.conn c).response := by
  cases a with
  | addCache c' content =>
    by_cases hc : c' = c
    · exact ⟨content, by simp [hc]⟩
    · exact ⟨[], by simp [hc]⟩
  | getCache c' =>
    cases h
    exact ⟨[], by simp_all [Frame.moves]⟩
  | setResponse c' content =>
    cases h
    exact ⟨[], by simp_all [Frame.moves]⟩
  | writeSocket c' bytes => cases h <;> exact ⟨[], by simp_all [Frame.moves]⟩
  | store c' rest => cases h <;> exact ⟨[], by simp_all [Frame.moves]⟩
  | _ => exact ⟨[], by simp⟩

theorem FrameStep.moves (h : FrameStep s result f a fs) {c : ConnId} (hf : f.moves c = false) :
    ∀ g ∈ fs, g.sending c = none ∧ g.carrying c = none := by
  cases h <;> simp_all [Frame.sending, Frame.carrying, Frame.moves]

/-- A function that moves bytes of `c` keeps them, alone on the stacks. -/
theorem FrameStep.conserve (h : FrameStep s result f a fs) {c : ConnId} (hf : f.moves c = true)
    (hb : s.added c = s.accepted c ++ (f.sending c).getD (s.conn c).response ++ (f.carrying c).getD [] ++ s.cached c) :
    (∀ g ∈ fs, ∀ r, g.sending c = some r → (a.apply s).added c = (a.apply s).accepted c ++ r ++ (a.apply s).cached c) ∧
    (∀ g ∈ fs, ∀ r, g.carrying c = some r →
      (a.apply s).added c = (a.apply s).accepted c ++ ((a.apply s).conn c).response ++ r ++ (a.apply s).cached c) ∧
    ((∀ g ∈ fs, g.sending c = none ∧ g.carrying c = none) →
      (a.apply s).added c = (a.apply s).accepted c ++ ((a.apply s).conn c).response ++ (a.apply s).cached c) := by
  cases h with
  | @writeAccept c' rest n hne hn =>
    have hsplit : rest ++ s.cached c = rest.take n ++ (rest.drop n ++ s.cached c) := by
      rw [← List.append_assoc, List.take_append_drop]
    simp_all [Frame.moves, Frame.sending, Frame.carrying]
  | _ => simp_all [Frame.moves, Frame.sending, Frame.carrying]

end Step

section Run
variable {rule : Rule (Shared R) (Thread R) (Act R) Call} {closed : Bool} {readers writers : Nat} {s : State R} {c : ConnId}

theorem moves_unique (h : Reach (manager R) rule (start R closed readers writers) s) {i j : Nat}
    {f g : Frame R} (hi : s.At i f) (hj : s.At j g) (hf : f.moves c = true) (hg : g.moves c = true) :
    i = j ∧ f = g := by
  obtain ⟨hfp, hfr⟩ := Frame.part_of_moves hf
  obtain ⟨hgp, hgr⟩ := Frame.part_of_moves hg
  exact part_unique h hi hj hfp hgp (hfr.trans hgr.symm)

theorem Conserved.balance (hc : Conserved s c) (h : Reach (manager R) rule (start R closed readers writers) s)
    {i : Nat} {f : Frame R} (hi : s.At i f) (hf : f.moves c = true) :
    s.shared.added c = s.shared.accepted c ++ (f.sending c).getD (s.shared.conn c).response ++
      (f.carrying c).getD [] ++ s.shared.cached c := by
  cases hs : f.sending c with
  | some r =>
    have hnone : f.carrying c = none := by
      cases f <;> first | rfl | simp [Frame.sending] at hs
    simpa [hnone] using hc.sending i f r hi hs
  | none =>
    cases hk : f.carrying c with
    | some r => simpa using hc.carrying i f r hi hk
    | none =>
      have hneither := hc.neither fun j g hj => by
        cases hg : g.moves c with
        | true =>
          obtain ⟨-, rfl⟩ := moves_unique h hi hj hf hg
          exact ⟨hs, hk⟩
        | false => exact Frame.not_moves hg
      simpa using hneither

theorem Conserved.step (ih : Conserved s c) (hr : Reach (manager R) rule (start R closed readers writers) s)
    {i : Nat} {t : Thread R} {f : Frame R} {rest fs : List (Frame R)} {a : Act R} {v : Bool}
    (hi : s.threads[i]? = some t) (ht : t.frames = f :: rest) (hf : FrameStep s.shared t.result f a fs) :
    Conserved ⟨a.apply s.shared, s.threads.set i ⟨fs ++ rest, v⟩⟩ c := by
  have hhead := State.at_head hi ht
  cases hm : f.moves c with
  | true =>
    -- No other function on the stacks moves bytes of `c`.
    obtain ⟨hsend, hcarry, hnone⟩ := hf.conserve hm (ih.balance hr hhead hm)
    have hrest : ∀ {j g}, s.At j g → (j = i → g ∈ rest) → g.moves c = false := by
      intro j g hj hjrest
      by_contra hg
      obtain ⟨rfl, rfl⟩ := moves_unique hr hhead hj hm (by simpa using hg)
      have hlt := (ht ▸ sorted hr t (List.mem_of_getElem? hi) : Sorted (f :: rest)).rank_lt (hjrest rfl)
      exact absurd hlt (Nat.lt_irrefl _)
    refine ⟨?_, ?_, ?_⟩
    · intro j g r hj hg
      rcases State.at_frame hi ht hj with ⟨hmem, -⟩ | ⟨hj, hjrest⟩
      · exact hsend g hmem r hg
      · exact absurd (Frame.moves_of_sending hg) (by simp [hrest hj hjrest])
    · intro j g r hj hg
      rcases State.at_frame hi ht hj with ⟨hmem, -⟩ | ⟨hj, hjrest⟩
      · exact hcarry g hmem r hg
      · exact absurd (Frame.moves_of_carrying hg) (by simp [hrest hj hjrest])
    · intro hno
      exact hnone fun g hg => hno i g (State.at_frame_new hi hg)
  | false =>
    obtain ⟨x, hadded, hcached, haccepted, hresponse⟩ := hf.adds hm
    have hnew := hf.moves hm
    refine ⟨?_, ?_, ?_⟩
    · intro j g r hj hg
      rcases State.at_frame hi ht hj with ⟨hmem, -⟩ | ⟨hj, -⟩
      · exact absurd ((hnew g hmem).1.symm.trans hg) (by simp)
      · show (a.apply s.shared).added c = (a.apply s.shared).accepted c ++ r ++ (a.apply s.shared).cached c
        rw [hadded, haccepted, hcached, ih.sending j g r hj hg, List.append_assoc]
    · intro j g r hj hg
      rcases State.at_frame hi ht hj with ⟨hmem, -⟩ | ⟨hj, -⟩
      · exact absurd ((hnew g hmem).2.symm.trans hg) (by simp)
      · show (a.apply s.shared).added c = (a.apply s.shared).accepted c ++ ((a.apply s.shared).conn c).response ++ r ++
          (a.apply s.shared).cached c
        rw [hadded, haccepted, hcached, hresponse, ih.carrying j g r hj hg, List.append_assoc]
    · intro hno
      have hbefore := ih.neither fun j g hj => by
        by_cases hjf : j = i ∧ g = f
        · obtain ⟨-, rfl⟩ := hjf
          exact Frame.not_moves hm
        · exact hno j g (State.at_frame_old hi ht hj fun hji hgf => hjf ⟨hji, hgf⟩)
      show (a.apply s.shared).added c = (a.apply s.shared).accepted c ++ ((a.apply s.shared).conn c).response ++
        (a.apply s.shared).cached c
      rw [hadded, haccepted, hcached, hresponse, hbefore, List.append_assoc]

theorem conserved (h : Reach (manager R) rule (start R closed readers writers) s) (c : ConnId) : Conserved s c := by
  refine reach_invariant (P := fun s => Conserved s c) ?_ (fun hr ih hi ht hf _ => ih.step hr hi ht hf)
    (fun ih => ⟨ih.sending, ih.carrying, ih.neither⟩) ?_ ?_ h
  · have hnone : ∀ j f, (start R closed readers writers).At j f → f.sending c = none ∧ f.carrying c = none := by
      intro j f hj
      obtain ⟨d, rfl⟩ := State.at_start hj
      exact ⟨rfl, rfl⟩
    refine ⟨?_, ?_, fun _ => rfl⟩
    · intro j f r hj hf
      exact absurd ((hnone j f hj).1.symm.trans hf) (by simp)
    · intro j f r hj hf
      exact absurd ((hnone j f hj).2.symm.trans hf) (by simp)
  · intro s i t c' v _ ih hi ht
    refine ⟨fun j f r hj => ih.sending j f r (State.at_caught hj), fun j f r hj => ih.carrying j f r (State.at_caught hj),
      fun hno => ih.neither fun j f hj => ?_⟩
    -- The two functions that are left out move no bytes.
    by_cases hji : j = i
    · obtain ⟨u, hu, hf⟩ := hj
      cases (hji ▸ hi).symm.trans hu
      rw [ht] at hf
      rcases List.mem_cons.mp hf with rfl | hf
      · exact ⟨rfl, rfl⟩
      · rw [List.mem_singleton.mp hf]
        exact ⟨rfl, rfl⟩
    · obtain ⟨u, hu, hf⟩ := hj
      exact hno j f ⟨u, by simpa [List.getElem?_set, Ne.symm hji] using hu, hf⟩
  · intro s k t ih hk _
    have hnew : ∀ f ∈ t.frames, f.sending c = none ∧ f.carrying c = none := by
      rcases Call.enter_cases hk with ⟨-, rfl⟩ | ⟨r, c, -, rfl⟩ | ⟨c, content, -, -, rfl⟩ | ⟨-, rfl⟩ <;>
        simp [Frame.sending, Frame.carrying]
    refine ⟨?_, ?_, fun hno => ih.neither fun j f hj => hno j f (State.at_enter_old hj)⟩
    · intro j f r hj hf
      rcases State.at_enter hj with hj | hmem
      · exact ih.sending j f r hj hf
      · exact absurd ((hnew f hmem).1.symm.trans hf) (by simp)
    · intro j f r hj hf
      rcases State.at_enter hj with hj | hmem
      · exact ih.carrying j f r hj hf
      · exact absurd ((hnew f hmem).2.symm.trans hf) (by simp)

theorem at_of_mem_frames {f : Frame R} (hf : f ∈ s.threads.flatMap Thread.frames) : ∃ j, s.At j f := by
  obtain ⟨t, ht, hft⟩ := List.mem_flatMap.mp hf
  obtain ⟨j, hj⟩ := List.getElem?_of_mem ht
  exact ⟨j, t, hj, hft⟩

theorem mem_frames_of_at {j : Nat} {f : Frame R} (h : s.At j f) : f ∈ s.threads.flatMap Thread.frames := by
  obtain ⟨t, ht, hf⟩ := h
  exact List.mem_flatMap.mpr ⟨t, List.mem_of_getElem? ht, hf⟩

theorem bytes_conserved_any (h : Reach (manager R) rule (start R closed readers writers) s) (c : ConnId) :
    s.shared.added c =
      s.shared.accepted c ++ (s.sending c).getD (s.shared.conn c).response ++ s.carrying c ++ s.shared.cached c := by
  have hc := conserved h c
  cases hs : s.sending c with
  | some r =>
    obtain ⟨f, hf, hr⟩ := List.exists_of_findSome?_eq_some hs
    obtain ⟨i, hi⟩ := at_of_mem_frames hf
    -- The worker in `SocketHandler::Write` carries nothing, and no other worker has the connection.
    have hcarry : (s.threads.flatMap Thread.frames).findSome? (Frame.carrying c) = none := by
      refine List.findSome?_eq_none_iff.mpr fun g hg => ?_
      obtain ⟨j, hj⟩ := at_of_mem_frames hg
      cases hm : g.moves c with
      | true =>
        obtain ⟨-, rfl⟩ := moves_unique h hi hj (Frame.moves_of_sending hr) hm
        cases f <;> first | rfl | simp [Frame.sending] at hr
      | false => exact (Frame.not_moves hm).2
    simpa [State.carrying, hcarry] using hc.sending i f r hi hr
  | none =>
    have hnone := List.findSome?_eq_none_iff.mp hs
    cases hk : (s.threads.flatMap Thread.frames).findSome? (Frame.carrying c) with
    | some r =>
      obtain ⟨f, hf, hr⟩ := List.exists_of_findSome?_eq_some hk
      obtain ⟨i, hi⟩ := at_of_mem_frames hf
      simpa [State.carrying, hk] using hc.carrying i f r hi hr
    | none =>
      have hnone' := List.findSome?_eq_none_iff.mp hk
      have hneither := hc.neither fun j g hj => ⟨hnone g (mem_frames_of_at hj), hnone' g (mem_frames_of_at hj)⟩
      simpa [State.carrying, hk] using hneither

end Run

/-- No byte of a response is lost, duplicated, reordered or filed under another connection: what was passed to
    `AddToWriteCache` is what `write()` accepted, then `response` or, while a worker is in
    `SocketHandler::Write`, what that has left to send, then the content that a worker carries from the
    `WriteCache` to `SetResponse`, then the entry of the `WriteCache`. -/
theorem bytes_conserved (closed : Bool) (readers writers : Nat) (s : State R)
    (h : Reachable R closed readers writers s) (c : ConnId) :
    s.shared.added c =
      s.shared.accepted c ++ (s.sending c).getD (s.shared.conn c).response ++ s.carrying c ++ s.shared.cached c :=
  bytes_conserved_any h c

/-- A worker in `SocketHandler::Write`, after a `write()` of three bytes. -/
theorem bytes_conserved_sending : ∃ s : State httpRequestHandler, Reachable httpRequestHandler false 1 1 s ∧
    (s.shared.accepted 1).length = 3 ∧ (s.sending 1).isSome = true ∧
    s.shared.added 1 =
      s.shared.accepted 1 ++ (s.sending 1).getD (s.shared.conn 1).response ++ s.carrying 1 ++ s.shared.cached 1 := by
  have hrun : ((manager httpRequestHandler).exec (fun _ _ _ => true) (fun _ => true)
      (start httpRequestHandler false 1 1) [responseLoaded, [.run 1 (.accepted 3)]].flatten).any
      (fun s : State httpRequestHandler => (s.shared.accepted 1).length = 3 ∧ (s.sending 1).isSome = true) = true := by decide
  obtain ⟨s, hs, hp⟩ := Reach.exists_of_exec Rule.any (fun _ _ _ _ => trivial) (fun _ _ => trivial) hrun
  obtain ⟨hlen, hsome⟩ := of_decide_eq_true hp
  exact ⟨s, hs, hlen, hsome, bytes_conserved false 1 1 s hs 1⟩

/-- In that state `response` still holds the three bytes that were accepted. -/
theorem response_repeats_accepted : ¬∀ (R : RequestHandler) (closed : Bool) (readers writers : Nat) (s : State R)
    (c : ConnId), Reachable R closed readers writers s →
    s.shared.added c = s.shared.accepted c ++ (s.shared.conn c).response ++ s.carrying c ++ s.shared.cached c := by
  intro hall
  have hrun : ((manager httpRequestHandler).exec (fun _ _ _ => true) (fun _ => true)
      (start httpRequestHandler false 1 1) [responseLoaded, [.run 1 (.accepted 3)]].flatten).any
      (fun s : State httpRequestHandler => s.shared.added 1 ≠
        s.shared.accepted 1 ++ (s.shared.conn 1).response ++ s.carrying 1 ++ s.shared.cached 1) = true := by decide
  obtain ⟨s, hs, hp⟩ := Reach.exists_of_exec Rule.any (fun _ _ _ _ => trivial) (fun _ _ => trivial) hrun
  exact of_decide_eq_true hp (hall httpRequestHandler false 1 1 s 1 hs)

end SimpleHttp
