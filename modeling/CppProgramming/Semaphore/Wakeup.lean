import CppProgramming.Semaphore.StressTest

/-! # Wakeups

`release` reads `waited` without the mutex and notifies only if it is positive. A permit that is left while a thread
is blocked is still in good hands: some `release` is about to notify, a notified thread has not looked yet, or another
thread is on its way through `acquire`. -/

namespace Semaphore
open Interleaving

/-! ### Places -/

/-- The thread holds the mutex. -/
def Pc.holds : Pc → Nat
  | .waitedInc | .predicate | .block | .waitedDec | .acquireUnlock | .notifyOne | .releaseUnlock => 1
  | _ => 0

/-- The thread counts in `waited`. -/
def Pc.waits : Pc → Nat
  | .predicate | .block | .waiting _ | .relock | .waitedDec => 1
  | _ => 0

/-- The thread has found nothing left and is about to block. -/
def Pc.blocks : Pc → Nat
  | .block => 1
  | _ => 0

/-- The ticket of a thread inside the wait. -/
def Pc.ticket : Pc → Option Nat
  | .waiting k => some k
  | _ => none

/-- The thread looks at `remaining` or notifies before it leaves or blocks. A thread inside the wait counts too; the
    tickets on the list are subtracted again. -/
def Pc.covers : Pc → Nat
  | .block | .acquireReturns | .releaseLoad | .releaseCas _ | .releaseUnlock | .releaseReturns _ => 0
  | _ => 1

theorem Pc.blocks_le_holds (p : Pc) : p.blocks ≤ p.holds := by cases p <;> simp [Pc.blocks, Pc.holds]

theorem Pc.blocks_le_waits (p : Pc) : p.blocks ≤ p.waits := by cases p <;> simp [Pc.blocks, Pc.waits]

theorem Pc.ticket_le_waits (p : Pc) : p.ticket.toList.length ≤ p.waits := by cases p <;> simp [Pc.ticket, Pc.waits]

theorem Pc.ticket_le_covers (p : Pc) : p.ticket.toList.length ≤ p.covers := by cases p <;> simp [Pc.ticket, Pc.covers]

/-- The ticket that a caller waits with. -/
def Caller.ticket (t : Caller) : Option Nat := t.pc.bind Pc.ticket

theorem Caller.count_le {f g : Pc → Nat} (h : ∀ p, f p ≤ g p) (t : Caller) : t.count f ≤ t.count g := by
  obtain ⟨pc, log⟩ := t
  cases pc with
  | none => exact le_refl _
  | some p => exact h p

theorem Caller.ticket_le {g : Pc → Nat} (h : ∀ p, p.ticket.toList.length ≤ g p) (t : Caller) :
    t.ticket.toList.length ≤ t.count g := by
  obtain ⟨pc, log⟩ := t
  cases pc with
  | none => exact Nat.zero_le _
  | some p => exact h p

/-! ### Steps -/

section Step
variable {capacity : Int} {s : Shared} {p p' : Pc} {a : Act}

/-- A thread that reads in a loop is at no place that is counted below, except `covers`. -/
theorem Step.holds (h : Step capacity s p a p') (hm : p.holds ≤ s.mtx.toNat) :
    (a.apply s).mtx.toNat + p.holds = s.mtx.toNat + p'.holds := by
  cases h with
  | acquireRetry hp => obtain rfl | ⟨e, rfl⟩ := Pc.acquireReads_cases hp <;> rfl
  | acquireEmpty hp => obtain rfl | ⟨e, rfl⟩ := Pc.acquireReads_cases hp <;> rfl
  | releaseRetry hp => obtain rfl | ⟨e, rfl⟩ := Pc.releaseReads_cases hp <;> rfl
  | releaseFull hp => obtain rfl | ⟨e, rfl⟩ := Pc.releaseReads_cases hp <;> rfl
  | acquireLock hfree => simp [Act.apply, hfree, Pc.holds]
  | relock hfree => simp [Act.apply, hfree, Pc.holds]
  | releaseLock hfree => simp [Act.apply, hfree, Pc.holds]
  | block | acquireUnlock | releaseUnlock =>
    have hle := Bool.toNat_le s.mtx
    simp only [Pc.holds] at hm
    simp only [Act.apply, Pc.holds, Bool.toNat_false]
    omega
  | _ => rfl

theorem Step.waits (h : Step capacity s p a p') : (a.apply s).waited + p.waits = s.waited + p'.waits := by
  cases h with
  | acquireRetry hp => obtain rfl | ⟨e, rfl⟩ := Pc.acquireReads_cases hp <;> rfl
  | acquireEmpty hp => obtain rfl | ⟨e, rfl⟩ := Pc.acquireReads_cases hp <;> rfl
  | releaseRetry hp => obtain rfl | ⟨e, rfl⟩ := Pc.releaseReads_cases hp <;> rfl
  | releaseFull hp => obtain rfl | ⟨e, rfl⟩ := Pc.releaseReads_cases hp <;> rfl
  | waitedInc | waitedDec => simp [Act.apply, Pc.waits]
  | _ => rfl

theorem Step.tracks {ts ts' : List Nat} (h : Step capacity s p a p') (ht : s.cv.Tracks ts)
    (hp : (p.ticket.toList ++ ts').Perm (p'.ticket.toList ++ ts)) : (a.apply s).cv.Tracks ts' := by
  cases h with
  | acquireRetry hr =>
    obtain rfl | ⟨e, rfl⟩ := Pc.acquireReads_cases hr <;> exact ht.perm hp.symm
  | acquireEmpty hr =>
    obtain rfl | ⟨e, rfl⟩ := Pc.acquireReads_cases hr <;> exact ht.perm hp.symm
  | releaseRetry hr =>
    obtain rfl | ⟨e, rfl⟩ := Pc.releaseReads_cases hr <;> exact ht.perm hp.symm
  | releaseFull hr =>
    obtain rfl | ⟨e, rfl⟩ := Pc.releaseReads_cases hr <;> exact ht.perm hp.symm
  | block => exact ht.block.perm hp.symm
  | wake => exact (ht.perm hp.symm).wake
  | notifyOne => exact (ht.perm hp.symm).notify _
  | _ => exact ht.perm hp.symm

end Step

/-! ### Runs -/

/-- The mutex is locked by the one thread that holds it. -/
def Locked (s : State) : Prop := s.weight (Caller.count Pc.holds) = s.shared.sem.mtx.toNat

/-- `waited` is the number of the threads that count in it. -/
def Waited (s : State) : Prop := s.shared.sem.waited = s.weight (Caller.count Pc.waits)

/-- The tickets are those of the threads inside the wait. -/
def Tracked (s : State) : Prop := s.shared.sem.cv.Tracks (s.gather Caller.ticket)

/-- The permits `r` are covered, with `n` blocked threads, `b` threads about to block and `c` threads that look or
    notify (with the blocked ones). -/
def Covered (r : Int) (n b c : Nat) : Prop := 0 < n + b → r + n ≤ c

/-- As long as a thread is blocked or about to block, there are enough threads that look or notify for the permits
    that are left. -/
def PermitsCovered (s : State) : Prop :=
  Covered s.shared.sem.remaining s.shared.sem.cv.waiting.length (s.weight (Caller.count Pc.blocks))
    (s.weight (Caller.count Pc.covers))

/-- What holds in every state that is reached. -/
structure Guarded (s : State) : Prop where
  locked : Locked s
  waited : Waited s
  tracked : Tracked s
  covered : PermitsCovered s

section Run
variable {capacity : Int} {s : State} {i : Nat} {t t' : Caller} {a : RunAct}

theorem returned_count {f : Pc → Nat} {p : Pc} (log : List Act) (hp : p.returned = true)
    (hf : f .acquireReturns = 0 ∧ ∀ b, f (.releaseReturns b) = 0) : Caller.count f ⟨some p, log⟩ = 0 := by
  cases p with
  | acquireReturns => exact hf.1
  | releaseReturns b => exact hf.2 b
  | _ => cases hp

theorem locked_step (h : Locked s) (hi : s.threads[i]? = some t) (hs : CallerStep capacity s.shared t a t') :
    Locked ⟨a.apply s.shared, s.threads.set i t'⟩ := by
  have hw := Config.weight_run (Caller.count Pc.holds) (a.apply s.shared) t' hi
  have hle := Config.le_weight (f := Caller.count Pc.holds) (List.mem_of_getElem? hi)
  unfold Locked at h ⊢
  cases hs with
  | acquire | release => exact (Nat.add_right_cancel hw).trans h
  | @returns p log hr =>
    rw [returned_count log hr ⟨rfl, fun _ => rfl⟩] at hw
    exact hw.trans h
  | @step p p' a log hp =>
    have hp := hp.holds (h ▸ hle)
    change _ + p.holds = _ + p'.holds at hw
    change _ = (a.apply s.shared.sem).mtx.toNat
    omega

theorem waited_step (h : Waited s) (hi : s.threads[i]? = some t) (hs : CallerStep capacity s.shared t a t') :
    Waited ⟨a.apply s.shared, s.threads.set i t'⟩ := by
  have hw := Config.weight_run (Caller.count Pc.waits) (a.apply s.shared) t' hi
  unfold Waited at h ⊢
  cases hs with
  | acquire | release =>
    rw [Nat.add_right_cancel hw]
    exact h
  | @returns p log hr =>
    rw [returned_count log hr ⟨rfl, fun _ => rfl⟩] at hw
    rw [← Nat.add_zero (Config.weight _ _), hw]
    exact h
  | @step p p' a log hp =>
    have hp := hp.waits
    change _ + p.waits = _ + p'.waits at hw
    change (a.apply s.shared.sem).waited = _
    omega

theorem tracked_step (h : Tracked s) (hi : s.threads[i]? = some t) (hs : CallerStep capacity s.shared t a t') :
    Tracked ⟨a.apply s.shared, s.threads.set i t'⟩ := by
  have hg := Config.gather_run Caller.ticket (a.apply s.shared) t' hi
  cases hs with
  | acquire | release => exact CondVar.Tracks.perm h hg.symm
  | @returns p log hr =>
    have hz : Caller.ticket ⟨some p, log⟩ = none := by
      cases p with
      | acquireReturns => rfl
      | releaseReturns b => rfl
      | _ => cases hr
    rw [hz] at hg
    exact CondVar.Tracks.perm h hg.symm
  | step hp => exact hp.tracks h hg

/-- The threads inside the wait, and with them the blocked ones, count in `waited` and in `covers`. -/
theorem waiting_le {g : Pc → Nat} (h : Tracked s) (hg : ∀ p, p.ticket.toList.length ≤ g p) :
    s.shared.sem.cv.waiting.length ≤ s.weight (Caller.count g) :=
  calc s.shared.sem.cv.waiting.length
    _ ≤ (s.gather Caller.ticket).length := h.waiting_length_le
    _ = s.weight (fun t => t.ticket.toList.length) := Config.length_gather ..
    _ ≤ s.weight (Caller.count g) := Config.weight_le_weight (Caller.ticket_le hg)

/-- Nobody is blocked or about to block when `waited` is not positive. -/
theorem Guarded.none_waited (h : Guarded s) (hw : s.shared.sem.waited ≤ 0) :
    s.shared.sem.cv.waiting.length = 0 ∧ s.weight (Caller.count Pc.blocks) = 0 := by
  have hwaits : s.shared.sem.waited = _ := h.waited
  have hle := waiting_le h.tracked Pc.ticket_le_waits
  have hblocks := Config.weight_le_weight (s := s) (Caller.count_le Pc.blocks_le_waits)
  omega

/-- Nobody is about to block while `notify_one` is called: both hold the mutex. -/
theorem Guarded.none_blocks (h : Guarded s) {log : List Act} (ht : ⟨some .notifyOne, log⟩ ∈ s.threads) :
    s.weight (Caller.count Pc.blocks) = 0 := by
  have hlt := Config.weight_lt_weight (Caller.count_le Pc.blocks_le_holds) ht Nat.zero_lt_one
  have hholds : s.weight (Caller.count Pc.holds) = _ := h.locked
  have hle := Bool.toNat_le s.shared.sem.mtx
  omega

/-- An operation of the semaphore keeps the permits covered; the numbers change by what the moving thread contributes. -/
theorem Step.covered {sem : Shared} {p p' : Pc} {a : Act} {b b' c c' : Nat} (hs : Step capacity sem p a p')
    (h : Covered sem.remaining sem.cv.waiting.length b c) (hb : b' + p.blocks = b + p'.blocks)
    (hc : c' + p.covers = c + p'.covers) (hle : (a.apply sem).cv.waiting.length ≤ c')
    (hnone : sem.waited ≤ 0 → sem.cv.waiting.length = 0 ∧ b = 0) (hnotify : p = .notifyOne → b = 0)
    (hblock : p.blocks ≤ b) : Covered (a.apply sem).remaining (a.apply sem).cv.waiting.length b' c' := by
  unfold Covered at h ⊢
  cases hs with
  | acquireRetry hp | acquireEmpty hp =>
    obtain rfl | ⟨e, rfl⟩ := Pc.acquireReads_cases hp <;> simp only [Pc.blocks, Pc.covers, Act.apply] at * <;> omega
  | releaseRetry hp | releaseFull hp =>
    obtain rfl | ⟨e, rfl⟩ := Pc.releaseReads_cases hp <;> simp only [Pc.blocks, Pc.covers, Act.apply] at * <;> omega
  | unready hz =>
    simp only [Act.apply, hz] at *
    omega
  | block =>
    simp only [Pc.blocks, Pc.covers, Act.apply, CondVar.block, List.length_append, List.length_singleton] at *
    omega
  | @wake k =>
    have := CondVar.wake_length_le (c := sem.cv) (k := k)
    simp only [Pc.blocks, Pc.covers, Act.apply] at *
    omega
  | noneWaited hw =>
    obtain ⟨hn, hb⟩ := hnone hw
    simp only [Pc.blocks, Pc.covers, Act.apply] at *
    omega
  | @notifyOne ks hks =>
    have hz := hnotify rfl
    simp only [Pc.blocks, Pc.covers, Act.apply] at *
    by_cases hne : sem.cv.waiting = []
    · simp [CondVar.notify, hne] at *
      omega
    · have := CondVar.notify_length_lt hks hne
      omega
  | _ =>
    simp only [Pc.blocks, Pc.covers, Act.apply] at *
    omega

theorem covered_step (h : Guarded s) (hi : s.threads[i]? = some t) (hs : CallerStep capacity s.shared t a t')
    (ht' : Tracked ⟨a.apply s.shared, s.threads.set i t'⟩) :
    PermitsCovered ⟨a.apply s.shared, s.threads.set i t'⟩ := by
  have hc := Config.weight_run (Caller.count Pc.covers) (a.apply s.shared) t' hi
  have hb := Config.weight_run (Caller.count Pc.blocks) (a.apply s.shared) t' hi
  have hle' := waiting_le ht' Pc.ticket_le_covers
  have ht := List.mem_of_getElem? hi
  have hcov := h.covered
  cases hs with
  | acquire =>
    unfold PermitsCovered Covered at hcov ⊢
    change _ + 0 = _ + 1 at hc
    change _ + 0 = _ + 0 at hb
    rw [Nat.add_right_cancel hb]
    exact fun hpos => (hcov hpos).trans (by omega)
  | release =>
    unfold PermitsCovered at hcov ⊢
    rw [Nat.add_right_cancel hb, Nat.add_right_cancel hc]
    exact hcov
  | @returns p log hr =>
    rw [returned_count log hr ⟨rfl, fun _ => rfl⟩] at hb hc
    unfold PermitsCovered at hcov ⊢
    rw [Nat.add_right_cancel hb, Nat.add_right_cancel hc]
    exact hcov
  | @step p p' a log hp =>
    refine hp.covered hcov hb hc hle' h.none_waited ?_ (Config.le_weight (f := Caller.count Pc.blocks) ht)
    rintro rfl
    exact h.none_blocks ht

theorem Guarded.run (h : Guarded s) (hi : s.threads[i]? = some t) (hs : CallerStep capacity s.shared t a t') :
    Guarded ⟨a.apply s.shared, s.threads.set i t'⟩ := by
  have ht := tracked_step h.tracked hi hs
  exact ⟨locked_step h.locked hi hs, waited_step h.waited hi hs, ht, covered_step h hi hs ht⟩

theorem Guarded.enter (h : Guarded s) : Guarded ⟨s.shared, s.threads ++ [⟨none, []⟩]⟩ := by
  have hw : ∀ f : Pc → Nat, Config.weight (Caller.count f) (⟨s.shared, s.threads ++ [⟨none, []⟩]⟩ : State) =
      s.weight (Caller.count f) := fun f => Config.weight_enter (Caller.count f) s ⟨none, []⟩
  refine ⟨(hw _).trans h.locked, h.waited.trans (congrArg _ (hw _).symm), ?_, ?_⟩
  · unfold Tracked
    rw [Config.gather_enter]
    exact h.tracked.perm (List.append_nil _ ▸ List.Perm.refl _)
  · unfold PermitsCovered
    rw [hw, hw]
    exact h.covered

theorem guarded (hc : 0 ≤ capacity) (h : Reachable capacity s) : Guarded s := by
  induction h with
  | start => exact ⟨rfl, rfl, CondVar.init_tracks, fun hpos => absurd hpos (Nat.lt_irrefl 0)⟩
  | run hr _ hi hs _ ih =>
    have hl := ledger hc hr
    exact ih.run hi (Caller.step_cases hl.bounded (hl.fits _ (List.mem_of_getElem? hi)) hs)
  | enter _ hk _ ih =>
    cases hk
    exact ih.enter

/-- The thread is blocked inside `acquire` and has not been notified. -/
def Caller.Blocked (sem : Shared) (t : Caller) : Prop := ∃ k ∈ sem.cv.waiting, t.pc = some (.waiting k)

/-- No permit is left while a thread is blocked un-notified and every other thread is outside or blocked, too. -/
theorem semaphore_no_lost_wakeup (capacity : Int) (hc : 1 ≤ capacity) (s : State) (h : Reachable capacity s) :
    ¬(0 < s.shared.sem.remaining ∧ (∃ t ∈ s.threads, t.Blocked s.shared.sem) ∧
      ∀ t ∈ s.threads, t.pc = none ∨ t.Blocked s.shared.sem) := by
  rintro ⟨hpos, ⟨t, ht, k, hk, hpc⟩, hall⟩
  have hg := guarded (by omega) h
  -- every thread that counts is a blocked one, and each blocked one has its own ticket on the list
  have hcount : ∀ t ∈ s.threads, t.count Pc.covers = t.ticket.toList.length := by
    intro t ht
    obtain ⟨pc, log⟩ := t
    rcases hall _ ht with hpc | ⟨k, -, hpc⟩ <;> cases hpc <;> rfl
  have hsub : s.gather Caller.ticket ⊆ s.shared.sem.cv.waiting := by
    intro k hk
    obtain ⟨u, hu, huk⟩ := List.mem_filterMap.mp hk
    obtain ⟨pc, log⟩ := u
    rcases hall _ hu with hpc | ⟨k', hk', hpc⟩
    · cases hpc
      cases huk
    · cases hpc
      cases huk
      exact hk'
  have hcovers : s.weight (Caller.count Pc.covers) = (s.gather Caller.ticket).length := by
    rw [Config.length_gather]
    exact congrArg List.sum (List.map_congr_left hcount)
  have hle := CondVar.Tracks.length_le_waiting hg.tracked hsub
  have hcov := hg.covered (Nat.add_pos_left (List.length_pos_of_mem hk) _)
  omega

end Run

/-- One thread has the permit, the other one is blocked. -/
theorem semaphore_no_lost_wakeup_of_blocked : ∃ s, Reachable 1 s ∧ s.shared.sem.cv.waiting = [0] ∧
    ¬(0 < s.shared.sem.remaining ∧ (∃ t ∈ s.threads, t.Blocked s.shared.sem) ∧
      ∀ t ∈ s.threads, t.pc = none ∨ t.Blocked s.shared.sem) := by
  have hrun : ((machine 1).exec (fun _ _ _ => true) (fun _ => true) ⟨.init 1, []⟩
      [[.enter (), .enter (), .run 0 .acquire, .run 1 .acquire], goOn 0 3, goOn 1 5].flatten).any
      (fun s => s.shared.sem.cv.waiting = [0]) = true := by
    decide
  obtain ⟨s, hs, hp⟩ := Reach.exists_of_exec Rule.any (fun _ _ _ _ => trivial) (fun _ _ => trivial) hrun
  exact ⟨s, hs, of_decide_eq_true hp, semaphore_no_lost_wakeup 1 (by decide) s hs⟩

end Semaphore
