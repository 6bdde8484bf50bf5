import CppProgramming.Semaphore.Wakeup

/-! # Progress

A thread in `acquire` or `release` that is not held up by the mutex or in the wait gets ahead with its next operation:
it takes or gives a permit or notifies, or it comes closer to that and is no one else's business. -/

namespace Semaphore

/-- The thread is not held up: it has not to wait for a notification or for the mutex. -/
def Pc.Free (s : Shared) : Pc → Prop
  | .waiting k => k ∉ s.cv.waiting
  | .acquireLock | .relock | .releaseLock => s.mtx = false
  | _ => True

/-- What a call has to do that other threads take notice of: `acquire` takes a permit, `release` gives one, notifies
    and returns. -/
def Pc.due : Pc → Nat
  | .acquireReturns => 0
  | .releaseLoad | .releaseCas _ | .releaseReturns false => 3
  | .readWaited | .releaseLock | .notifyOne => 2
  | _ => 1

/-- How far a call is from there. A thread that is in the wait rests. -/
def Pc.work (s : Shared) : Pc → Nat
  | .acquireLoad => if 0 < s.remaining then 5 else 12
  | .acquireCas expected => if expected = s.remaining then 4 else 13
  | .waiting k => if k ∈ s.cv.waiting then 0 else 11
  | .waitedDec => if 0 < s.remaining then 7 else 14
  | .acquireUnlock => if 0 < s.remaining then 6 else 13
  | .acquireLock => 11
  | .waitedInc | .relock => 10
  | .predicate => 9
  | .block => 8
  | .acquireReturns => 3
  | .releaseCas expected => if expected = s.remaining then 6 else 8
  | .releaseReturns false => 9
  | .releaseLoad => 7
  | .readWaited => 4
  | .releaseLock => 3
  | .notifyOne => 2
  | .releaseUnlock => 1
  | .releaseReturns true => 0

/-- The operation leaves the permits and the blocked threads as they are; a thread that blocks comes with a ticket of
    its own. -/
structure Act.Quiet (a : Act) (s : Shared) : Prop where
  remaining : (a.apply s).remaining = s.remaining
  waiting : ∀ k, k < s.cv.issued → (k ∈ (a.apply s).cv.waiting ↔ k ∈ s.cv.waiting)

/-- The step brings the call ahead. -/
def Ahead (s : Shared) (p : Pc) (a : Act) (p' : Pc) : Prop :=
  p'.due < p.due ∨ p'.due = p.due ∧ a.Quiet s ∧ p'.work (a.apply s) < p.work s

section Steps
variable {capacity : Int} {s : Shared} {p p' : Pc}

theorem quiet_of_same {a : Act} (hr : (a.apply s).remaining = s.remaining) (hcv : (a.apply s).cv = s.cv) : a.Quiet s :=
  ⟨hr, fun k _ => by rw [hcv]⟩

/-- An operation that does not touch what the others look at. -/
theorem ahead_of_lt {a : Act} (hr : (a.apply s).remaining = s.remaining) (hcv : (a.apply s).cv = s.cv)
    (hdue : p'.due = p.due) (hlt : p'.work (a.apply s) < p.work s) : Ahead s p a p' :=
  .inr ⟨hdue, quiet_of_same hr hcv, hlt⟩

theorem block_quiet (s : Shared) : Act.block.Quiet s := by
  refine ⟨rfl, fun k hk => ?_⟩
  show k ∈ s.cv.waiting ++ [s.cv.issued] ↔ _
  rw [List.mem_append, List.mem_singleton]
  exact or_iff_left (Nat.ne_of_lt hk)

theorem wake_quiet {k : Nat} (hk : k ∉ s.cv.waiting) : (Act.wake k).Quiet s := by
  refine ⟨rfl, fun k' _ => ?_⟩
  show k' ∈ s.cv.waiting.filter (· ≠ k) ↔ _
  rw [List.mem_filter]
  refine and_iff_left_of_imp fun hk' => decide_eq_true ?_
  rintro rfl
  exact hk hk'

theorem acquireLoop_ahead (hb : s.Bounded capacity) (hp : p = .acquireLoad ∨ ∃ e, p = .acquireCas e ∧ e ≠ s.remaining) :
    Ahead s p .look (acquireLoop s.remaining) := by
  have hlo := hb.1
  have hwork : (acquireLoop s.remaining).work s < p.work s ∧ (acquireLoop s.remaining).due = 1 := by
    unfold acquireLoop acquireTest
    by_cases hpos : 0 < s.remaining
    · rw [if_pos hpos]
      rcases hp with rfl | ⟨e, rfl, hne⟩ <;> simp [Pc.work, Pc.due, *]
    · rw [if_neg hpos, if_pos (by omega)]
      rcases hp with rfl | ⟨e, rfl, hne⟩ <;> simp [Pc.work, Pc.due, *]
  refine ahead_of_lt rfl rfl ?_ hwork.1
  rw [hwork.2]
  rcases hp with rfl | ⟨e, rfl, -⟩ <;> rfl

theorem releaseLoop_ahead (hlt : s.remaining < capacity)
    (hp : p = .releaseLoad ∨ ∃ e, p = .releaseCas e ∧ e ≠ s.remaining) :
    Ahead s p .look (releaseLoop capacity s.remaining) := by
  rw [releaseLoop, if_pos hlt]
  rcases hp with rfl | ⟨e, rfl, hne⟩
  · exact ahead_of_lt rfl rfl rfl (by simp [Pc.work, Act.apply])
  · exact ahead_of_lt rfl rfl rfl (by simp [Pc.work, Act.apply, hne])

/-- A call that is not held up gets ahead, but for a `release` that finds no room. -/
theorem Pc.exists_ahead (hb : s.Bounded capacity) (hf : p.Fits capacity) (hfree : p.Free s) (hret : p.returned = false)
    (hroom : p.releaseReads = true → s.remaining < capacity) :
    ∃ x a p', p.step capacity s x = some (a, p') ∧ Ahead s p a p' := by
  cases p with
  | acquireLoad => exact ⟨.go, _, _, rfl, acquireLoop_ahead hb (.inl rfl)⟩
  | acquireCas e =>
    by_cases he : s.remaining = e
    · have hpos : 0 < e := hf
      refine ⟨.go, .take, acquireTest e, if_pos he, .inl ?_⟩
      rw [acquireTest, if_neg (ne_of_gt hpos)]
      exact Nat.zero_lt_one
    · exact ⟨.go, .look, _, if_neg he, acquireLoop_ahead hb (.inr ⟨e, rfl, Ne.symm he⟩)⟩
  | acquireLock =>
    have hfree : s.mtx = false := hfree
    exact ⟨.go, .lock, .waitedInc, by simp [Pc.step, Pc.inRelease, acquireStep, hfree],
      ahead_of_lt rfl rfl rfl (Nat.lt_succ_self _)⟩
  | waitedInc => exact ⟨.go, .waitedInc, .predicate, rfl, ahead_of_lt rfl rfl rfl (Nat.lt_succ_self _)⟩
  | predicate =>
    refine ⟨.go, .look, _, rfl, ?_⟩
    by_cases hpos : 0 < s.remaining
    · rw [if_pos hpos]
      exact ahead_of_lt rfl rfl rfl (by simp [Pc.work, Act.apply, hpos])
    · rw [if_neg hpos]
      exact ahead_of_lt rfl rfl rfl (Nat.lt_succ_self _)
  | block =>
    refine ⟨.go, .block, .waiting s.cv.ticket, rfl, .inr ⟨rfl, block_quiet s, ?_⟩⟩
    simp [Pc.work, Act.apply, CondVar.block, CondVar.ticket]
  | waiting k =>
    have hfree : k ∉ s.cv.waiting := hfree
    refine ⟨.go, .wake k, .relock, if_neg hfree, .inr ⟨rfl, wake_quiet hfree, ?_⟩⟩
    simp [Pc.work, hfree]
  | relock =>
    have hfree : s.mtx = false := hfree
    exact ⟨.go, .lock, .predicate, by simp [Pc.step, Pc.inRelease, acquireStep, hfree],
      ahead_of_lt rfl rfl rfl (Nat.lt_succ_self _)⟩
  | waitedDec =>
    refine ⟨.go, .waitedDec, .acquireUnlock, rfl, ahead_of_lt rfl rfl rfl ?_⟩
    by_cases hpos : 0 < s.remaining <;> simp [Pc.work, Act.apply, hpos]
  | acquireUnlock =>
    refine ⟨.go, .unlock, .acquireLoad, rfl, ahead_of_lt rfl rfl rfl ?_⟩
    by_cases hpos : 0 < s.remaining <;> simp [Pc.work, Act.apply, hpos]
  | releaseLoad => exact ⟨.go, _, _, rfl, releaseLoop_ahead (hroom rfl) (.inl rfl)⟩
  | releaseCas e =>
    by_cases he : s.remaining = e
    · have hlt : e < capacity := hf
      refine ⟨.go, .give, releaseTest capacity e, if_pos he, .inl ?_⟩
      rw [releaseTest, if_neg (ne_of_lt hlt)]
      exact Nat.lt_succ_self 2
    · exact ⟨.go, .look, _, if_neg he, releaseLoop_ahead (hroom rfl) (.inr ⟨e, rfl, Ne.symm he⟩)⟩
  | readWaited =>
    refine ⟨.go, .look, _, rfl, ?_⟩
    by_cases hw : 0 < s.waited
    · rw [if_pos hw]
      exact ahead_of_lt rfl rfl rfl (Nat.lt_succ_self _)
    · rw [if_neg hw]
      exact .inl (Nat.lt_succ_self 1)
  | releaseLock =>
    have hfree : s.mtx = false := hfree
    exact ⟨.go, .lock, .notifyOne, by simp [Pc.step, Pc.inRelease, releaseStep, hfree],
      ahead_of_lt rfl rfl rfl (Nat.lt_succ_self _)⟩
  | notifyOne =>
    have hnotifies : s.cv.notifiesOne s.cv.waiting = true := by
      unfold CondVar.notifiesOne
      cases s.cv.waiting <;> simp
    exact ⟨.notify s.cv.waiting, .notify s.cv.waiting, .releaseUnlock, if_pos hnotifies, .inl (Nat.lt_succ_self 1)⟩
  | releaseUnlock => exact ⟨.go, .unlock, .releaseReturns true, rfl, ahead_of_lt rfl rfl rfl Nat.zero_lt_one⟩
  | acquireReturns | releaseReturns _ => cases hret

/-- A quiet operation leaves the others where they are. -/
theorem Act.Quiet.work_eq {a : Act} (h : a.Quiet s) (hp : ∀ k, p.ticket = some k → k < s.cv.issued) :
    p.work (a.apply s) = p.work s := by
  cases p with
  | waiting k =>
    have hk := h.waiting k (hp k rfl)
    simp only [Pc.work, hk]
  | releaseReturns result => cases result <;> rfl
  | _ => simp only [Pc.work, h.remaining]

/-- A thread that has the mutex is not held up. -/
theorem Pc.free_of_holds (h : 0 < p.holds) : p.Free s ∧ p.returned = false ∧ p.releaseReads = false := by
  cases p with
  | waitedInc | predicate | block | waitedDec | acquireUnlock | notifyOne | releaseUnlock => exact ⟨trivial, rfl, rfl⟩
  | _ => cases h

/-- A call remains one of `acquire` or of `release`. -/
theorem Step.inRelease {a : Act} (h : Step capacity s p a p') : p'.inRelease = p.inRelease := by
  cases h with
  | acquireRetry hp | acquireEmpty hp => obtain rfl | ⟨e, rfl⟩ := Pc.acquireReads_cases hp <;> rfl
  | releaseRetry hp | releaseFull hp => obtain rfl | ⟨e, rfl⟩ := Pc.releaseReads_cases hp <;> rfl
  | _ => rfl

theorem Step.given {a : Act} (h : Step capacity s p a p') : p'.given = p.given + if a = .give then 1 else 0 := by
  cases h with
  | acquireRetry hp | acquireEmpty hp => obtain rfl | ⟨e, rfl⟩ := Pc.acquireReads_cases hp <;> rfl
  | releaseRetry hp | releaseFull hp => obtain rfl | ⟨e, rfl⟩ := Pc.releaseReads_cases hp <;> rfl
  | _ => rfl

theorem Pc.given_le_one (p : Pc) : p.given ≤ 1 := by
  cases p with
  | releaseReturns result => cases result <;> simp [Pc.given]
  | _ => simp [Pc.given]

theorem Caller.given_le_one (c : Caller) : c.count Pc.given ≤ 1 := by
  obtain ⟨pc, log⟩ := c
  cases pc with
  | none => exact Nat.zero_le 1
  | some p => exact p.given_le_one

end Steps
end Semaphore
