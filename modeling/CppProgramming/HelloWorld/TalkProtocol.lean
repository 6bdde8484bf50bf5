import CppProgramming.HelloWorld.Session

/-! # The protocol of a talk call on the server

Between `RECEIVE` and `FINISH` the handler of a talk call reads and writes in turns. Which operation is outstanding
follows from the results so far (`Phase`), and the handler keeps the protocol up to the first `Write` that is not ok:
there `Finish` is posted with the token of a `Write`. -/

namespace HelloWorld.Server

/-- The operation that a talk call waits for. At `broken` a `Write` has failed. -/
inductive Phase where
  | await (opt : ServerEventOpt)
  | complete
  | broken
  deriving DecidableEq

namespace Phase

/-- The phase after the next result. -/
def next : Phase → Bool → Phase
  | .await .receive, true => .await .read
  | .await .receive, false => .complete
  | .await .read, true => .await .write
  | .await .read, false => .await .finish
  | .await .write, true => .await .read
  | .await .write, false => .broken
  | .await .finish, _ => .complete
  | .complete, _ => .complete
  | .broken, _ => .broken

/-- The phase after the results `oks`. -/
def after (oks : List Bool) : Phase := oks.foldl next (.await .receive)

theorem after_concat (oks : List Bool) (ok : Bool) : after (oks ++ [ok]) = (after oks).next ok := by
  simp [after]

theorem after_replicate (k : Nat) :
    after (List.replicate (2 * k + 1) true) = .await .read ∧
      after (List.replicate (2 * k + 2) true) = .await .write := by
  induction k with
  | zero => decide
  | succ k ih =>
    have hread : after (List.replicate (2 * (k + 1) + 1) true) = .await .read := by
      rw [show 2 * (k + 1) + 1 = 2 * k + 2 + 1 by omega, List.replicate_succ', after_concat, ih.2]
      rfl
    refine ⟨hread, ?_⟩
    rw [show 2 * (k + 1) + 2 = 2 * (k + 1) + 1 + 1 by omega, List.replicate_succ', after_concat, hread]
    rfl

/-- What the results so far are when the call reads or writes. -/
theorem replicate_of_after (oks : List Bool) :
    (after oks = .await .receive → oks = []) ∧
    (after oks = .await .read → ∃ k, oks = List.replicate (2 * k + 1) true) ∧
    (after oks = .await .write → ∃ k, oks = List.replicate (2 * k + 2) true) := by
  induction oks using List.reverseRecOn with
  | nil => simp [after]
  | append_singleton oks ok ih =>
    obtain ⟨hreceive, hread, hwrite⟩ := ih
    rw [after_concat]
    cases hphase : after oks with
    | await opt =>
      cases opt <;> cases ok <;> simp only [next, reduceCtorEq, false_implies, true_and, and_true, true_implies,
        Phase.await.injEq]
      · rw [hreceive hphase]
        exact ⟨0, rfl⟩
      · obtain ⟨k, rfl⟩ := hwrite hphase
        exact ⟨k + 1, List.replicate_succ'.symm⟩
      · obtain ⟨k, rfl⟩ := hread hphase
        exact ⟨k, List.replicate_succ'.symm⟩
    | complete | broken => simp [next]

/-- A call is broken when the first result that is not ok is the one of a `Write`. -/
theorem after_eq_broken (oks : List Bool) :
    after oks = .broken ↔ ∃ k > 0, List.replicate (2 * k) true ++ [false] <+: oks := by
  constructor
  · induction oks using List.reverseRecOn with
    | nil =>
      intro h
      cases h
    | append_singleton oks ok ih =>
      intro h
      rw [after_concat] at h
      by_cases hbroken : after oks = .broken
      · obtain ⟨k, hk, hbegin⟩ := ih hbroken
        exact ⟨k, hk, hbegin.trans (List.prefix_append ..)⟩
      · have hwrite : after oks = .await .write ∧ ok = false := by
          cases hphase : after oks with
          | await opt => rw [hphase] at h; cases opt <;> cases ok <;> first | exact ⟨rfl, rfl⟩ | cases h
          | complete => rw [hphase] at h; cases h
          | broken => exact absurd hphase hbroken
        obtain ⟨k, rfl⟩ := (replicate_of_after oks).2.2 hwrite.1
        refine ⟨k + 1, Nat.succ_pos k, ?_⟩
        rw [hwrite.2, show 2 * (k + 1) = 2 * k + 2 by omega]
  · rintro ⟨k, hk, rest, rfl⟩
    obtain ⟨k, rfl⟩ : ∃ k', k = k' + 1 := ⟨k - 1, by omega⟩
    have hbroken : after (List.replicate (2 * (k + 1)) true ++ [false]) = .broken := by
      rw [after_concat, show 2 * (k + 1) = 2 * k + 2 by omega, (after_replicate k).2]
      rfl
    unfold after at hbroken ⊢
    rw [List.foldl_append, hbroken]
    induction rest with
    | nil => rfl
    | cons ok rest ih => exact ih

end Phase

/-! ### Runs -/

/-- The session is in the phase. -/
def Session.In (s : Session) : Phase → Prop
  | .await opt => ∃ operation, s.Awaits .talk operation ∧ operation.opt = opt
  | .complete => s.Ended
  | .broken => True

section Talk
variable {cq : Nat} {key : EventKey} {results : List Result} {s s' : Session} {r : Result} {operation : Operation}

theorem Session.In.followsProtocol {phase : Phase} (h : s.In phase) (hphase : phase ≠ .broken) : s.FollowsProtocol := by
  cases phase with
  | await opt =>
    obtain ⟨operation, hawaits, -⟩ := h
    exact hawaits.followsProtocol
  | complete => exact Session.Ended.followsProtocol h
  | broken => exact absurd rfl hphase

/-- A step of a talk call. -/
theorem Session.In.deliver {phase : Phase} (h : s.In phase) (hd : s.deliver r = some s') :
    s'.In (phase.next r.ok) := by
  cases phase with
  | broken => exact trivial
  | complete =>
    unfold Session.deliver at hd
    rw [h.outstanding] at hd
    cases hd
  | await opt =>
    obtain ⟨operation, h, rfl⟩ := h
    obtain ⟨index, ok, message⟩ := r
    cases operation with
    | request =>
      cases ok with
      | true =>
        rw [h.deliver_post hd h.process_eq (fun _ => rfl) h.finish]
        exact ⟨.read, h.afterPost rfl h.finish rfl (by simp), rfl⟩
      | false =>
        rw [h.deliver_finish hd h.process_eq (fun _ => rfl) rfl]
        exact h.afterFinish rfl (Or.inr rfl)
    | read =>
      cases ok with
      | true =>
        rw [h.deliver_post hd h.process_eq (fun _ => rfl) h.finish]
        exact ⟨.write _, h.afterPost rfl h.finish rfl (by simp), rfl⟩
      | false =>
        rw [h.deliver_post hd h.process_eq (fun _ => rfl) h.finish]
        exact ⟨.finish _ _, h.afterPost rfl h.finish rfl (by simp), rfl⟩
    | write content =>
      cases ok with
      | true =>
        rw [h.deliver_post hd h.process_eq (fun _ => rfl) h.finish]
        exact ⟨.read, h.afterPost rfl h.finish rfl (by simp), rfl⟩
      | false => exact trivial
    | finish response status =>
      have hs' : s' = s.afterFinish _ _ _ := h.deliver_finish hd h.process_eq (fun _ => rfl) rfl
      rw [hs']
      exact h.afterFinish rfl (Or.inl rfl)

theorem Session.in_run (h : (Session.start .talk cq key).run results = some s) :
    s.In (.after (results.map Result.ok)) := by
  induction results using List.reverseRecOn generalizing s with
  | nil =>
    cases h
    exact ⟨.request, Session.awaits_start .talk cq key, rfl⟩
  | append_singleton results r ih =>
    rw [Session.run_concat] at h
    obtain ⟨s', hrun, hdeliver⟩ := Option.bind_eq_some_iff.mp h
    rw [List.map_append, List.map_singleton, Phase.after_concat]
    exact (ih hrun).deliver hdeliver

theorem Session.isSome_run {start : Session} {before : List Result} (hbegin : before <+: results)
    (h : (start.run results).isSome = true) : (start.run before).isSome = true := by
  obtain ⟨rest, rfl⟩ := hbegin
  unfold Session.run at h ⊢
  rw [List.foldlM_append] at h
  obtain ⟨s, hs⟩ := Option.isSome_iff_exists.mp h
  obtain ⟨s', hs', -⟩ := Option.bind_eq_some_iff.mp hs
  rw [hs']
  rfl

/-- A `Write` that is not ok gives `Finish` the token of a `Write`. -/
theorem Session.Awaits.cancelled (h : s.Awaits .talk operation) (hwrite : operation.opt = .write)
    (hd : s.deliver r = some s') (hr : r.ok = false) : ¬s'.FollowsProtocol := by
  intro hfollows
  obtain ⟨index, ok, message⟩ := r
  subst hr
  have hp : (s.rpc.complete operation false message).handler.process false ⟨s.rpc.key, operation.opt.code⟩ =
      ({ (s.rpc.complete operation false message).handler with method := .talk },
        [.post (.finish none .cancelled) ⟨s.rpc.key, ServerEventOpt.write.code⟩]) := by
    rw [h.process_eq, hwrite]
    rfl
  have hs' := h.deliver_post hd hp (fun _ => rfl) h.finish
  have hnamed := hfollows.named ⟨.finish none .cancelled, (Event.mk s.rpc.key ServerEventOpt.write.code).getToken⟩
    (by rw [hs']; exact List.mem_singleton_self _)
  rw [Event.ofToken_getToken] at hnamed
  have hcode : ServerEventOpt.write.code = ServerEventOpt.finish.code := hnamed
  cases ServerEventOpt.code_inj hcode

end Talk

/-- The handler of a talk call keeps the protocol through all of a sequence of results if and only if the first result
    that is not ok is not the one of a `Write`; the results are `RECEIVE`, `READ`, `WRITE`, `READ`, … -/
theorem talk_follows_protocol_iff (cq : Nat) (key : EventKey) (results : List Result)
    (h : ((Session.start .talk cq key).run results).isSome = true) :
    (∀ before, before <+: results → ∀ s, (Session.start .talk cq key).run before = some s → s.FollowsProtocol) ↔
      ∀ k > 0, ¬List.replicate (2 * k) true ++ [false] <+: results.map Result.ok := by
  constructor
  · rintro hfollows k hk ⟨rest, hrest⟩
    obtain ⟨upto, rest, rfl, hupto, -⟩ := List.map_eq_append_iff.mp hrest.symm
    obtain ⟨before, lasts, rfl, hbefore, hlasts⟩ := List.map_eq_append_iff.mp hupto
    obtain ⟨r, rfl, hr⟩ := List.map_eq_singleton_iff.mp hlasts
    have hbegin : before ++ [r] <+: before ++ [r] ++ rest := List.prefix_append ..
    obtain ⟨s', hs'⟩ := Option.isSome_iff_exists.mp (Session.isSome_run hbegin h)
    have hrun := hs'
    rw [Session.run_concat] at hrun
    obtain ⟨s, hs, hdeliver⟩ := Option.bind_eq_some_iff.mp hrun
    have hin := Session.in_run hs
    obtain ⟨k, rfl⟩ : ∃ k', k = k' + 1 := ⟨k - 1, by omega⟩
    rw [hbefore, show 2 * (k + 1) = 2 * k + 2 by omega, (Phase.after_replicate k).2] at hin
    obtain ⟨operation, hawaits, hwrite⟩ := hin
    exact hawaits.cancelled hwrite hdeliver hr (hfollows _ hbegin s' hs')
  · intro hno before hbefore s hs
    refine (Session.in_run hs).followsProtocol ?_
    intro hbroken
    obtain ⟨k, hk, hbegin⟩ := (Phase.after_eq_broken _).mp hbroken
    exact hno k hk (hbegin.trans (hbefore.map Result.ok))

/-- A message is echoed, and the client ends its stream. -/
theorem talk_follows_protocol_iff_echo :
    ((Session.start .talk 0 1).run
      [⟨0, true, {}⟩, ⟨0, true, {}⟩, ⟨0, true, {}⟩, ⟨0, false, {}⟩, ⟨0, true, {}⟩]).isSome = true ∧
    ∀ before, before <+: [⟨0, true, {}⟩, ⟨0, true, {}⟩, ⟨0, true, {}⟩, ⟨0, false, {}⟩, ⟨0, true, {}⟩] →
      ∀ s, (Session.start .talk 0 1).run before = some s → s.FollowsProtocol := by
  refine ⟨rfl, (talk_follows_protocol_iff 0 1 _ rfl).mpr ?_⟩
  intro k hk hbegin
  have hlength := hbegin.length_le
  simp only [List.length_append, List.length_replicate, List.length_map, List.length_cons, List.length_nil] at hlength
  rcases by omega with rfl | rfl : k = 1 ∨ k = 2
  · exact absurd hbegin (by decide)
  · exact absurd hbegin (by decide)

/-- After a `Write` that is not ok `Finish` is posted, and after its completion a `Read`. -/
theorem talk_read_after_finish : ∃ results s, (Session.start .talk 0 1).run results = some s ∧
    s.rpc.posted = [.request, .read, .write "", .finish none .cancelled, .read] ∧ ¬s.FollowsProtocol := by
  refine ⟨[⟨0, true, {}⟩, ⟨0, true, {}⟩, ⟨0, false, {}⟩, ⟨0, true, {}⟩], _, rfl, rfl, ?_⟩
  intro h
  have hpairs : [Operation.request, .read, .write "", .finish none .cancelled, .read].Pairwise fun o o' =>
      o.isFinish = true → o'.opt ≠ .read ∧ o'.opt ≠ .write := h.finishLast
  exact absurd hpairs (by decide)

end HelloWorld.Server
