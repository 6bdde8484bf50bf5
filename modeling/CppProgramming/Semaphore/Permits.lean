import CppProgramming.Semaphore.Semaphore

/-! # Permits

Every step of `acquire` and `release` keeps the permits: those that are left in the semaphore, and the one in the
hands of the thread, which it gets when `acquire` succeeds and gives back when `release` does. -/

namespace Semaphore
open Interleaving

/-- The permit in the hands of the thread: taken by `acquire`, or not yet given back by `release`. -/
def Pc.permits : Pc → Nat
  | .acquireReturns | .releaseLoad | .releaseCas _ | .releaseReturns false => 1
  | _ => 0

/-- The decrements of `remaining` that the call has made. -/
def Pc.taken : Pc → Nat
  | .acquireReturns => 1
  | _ => 0

/-- The increments of `remaining` that the call has made. -/
def Pc.given : Pc → Nat
  | .readWaited | .releaseLock | .notifyOne | .releaseUnlock | .releaseReturns true => 1
  | _ => 0

/-- The call is one of `release` that has not changed anything. -/
def Pc.unchanged : Pc → Bool
  | .releaseLoad | .releaseCas _ | .releaseReturns false => true
  | _ => false

section Step
variable {capacity : Int} {s : Shared} {p p' : Pc} {a : Act}

theorem Step.fits (h : Step capacity s p a p') : p'.Fits capacity := by
  cases h with
  | acquireRetry _ hpos => exact hpos
  | releaseRetry _ hlt => exact hlt
  | _ => exact trivial

theorem Step.bounded (h : Step capacity s p a p') (hb : s.Bounded capacity) : (a.apply s).Bounded capacity := by
  obtain ⟨hlo, hhi⟩ := hb
  cases h with
  | take hpos => exact ⟨by simp only [Act.apply]; omega, by simp only [Act.apply]; omega⟩
  | give hlt => exact ⟨by simp only [Act.apply]; omega, by simp only [Act.apply]; omega⟩
  | _ => exact ⟨hlo, hhi⟩

theorem Step.permits (h : Step capacity s p a p') :
    (a.apply s).remaining + p'.permits = s.remaining + p.permits := by
  cases h with
  | acquireRetry hp => obtain rfl | ⟨e, rfl⟩ := Pc.acquireReads_cases hp <;> rfl
  | acquireEmpty hp => obtain rfl | ⟨e, rfl⟩ := Pc.acquireReads_cases hp <;> rfl
  | releaseRetry hp => obtain rfl | ⟨e, rfl⟩ := Pc.releaseReads_cases hp <;> rfl
  | releaseFull hp => obtain rfl | ⟨e, rfl⟩ := Pc.releaseReads_cases hp <;> rfl
  | take | give => simp [Act.apply, Pc.permits]
  | _ => rfl

/-- A step of `acquire` takes the permit and returns, or it leaves the permits as they are. -/
theorem Step.acquiring (h : Step capacity s p a p') (hp : p.inRelease = false) :
    p'.inRelease = false ∧ (a = .take ∧ p' = .acquireReturns ∧ 0 < s.remaining ∨
      (a.apply s).remaining = s.remaining ∧ p' ≠ .acquireReturns) := by
  cases h with
  | take hpos => exact ⟨rfl, Or.inl ⟨rfl, rfl, hpos⟩⟩
  | releaseRetry hr | releaseFull hr => obtain rfl | ⟨e, rfl⟩ := Pc.releaseReads_cases hr <;> cases hp
  | give | someWaited | noneWaited | releaseLock | notifyOne | releaseUnlock => cases hp
  | _ => exact ⟨rfl, Or.inr ⟨rfl, by simp⟩⟩

/-- A step of `release` gives the permit, or it leaves the permits as they are. -/
theorem Step.releasing (h : Step capacity s p a p') (hp : p.inRelease = true) :
    p'.inRelease = true ∧ (a = .give ∧ p.permits = 1 ∧ p'.permits = 0 ∧ s.remaining < capacity ∨
      (a.apply s).remaining = s.remaining ∧ p'.permits = p.permits) := by
  cases h with
  | give hlt => exact ⟨rfl, Or.inl ⟨rfl, rfl, rfl, hlt⟩⟩
  | acquireRetry hr | acquireEmpty hr => obtain rfl | ⟨e, rfl⟩ := Pc.acquireReads_cases hr <;> cases hp
  | releaseRetry hr | releaseFull hr =>
    obtain rfl | ⟨e, rfl⟩ := Pc.releaseReads_cases hr <;> exact ⟨rfl, Or.inr ⟨rfl, rfl⟩⟩
  | take | acquireLock | waitedInc | ready | unready | block | wake | relock | waitedDec | acquireUnlock => cases hp
  | _ => exact ⟨rfl, Or.inr ⟨rfl, rfl⟩⟩

/-- What the log of a call shows. -/
structure Logged (p : Pc) (log : List Act) : Prop where
  taken : log.count .take = p.taken
  given : log.count .give = p.given
  unchanged : p.unchanged = true → log = []

theorem logged_start (h : p.taken = 0 ∧ p.given = 0) : Logged p [] := by
  constructor <;> simp [h]

theorem append_look (log : List Act) : log ++ Act.look.effect = log := List.append_nil log

theorem Step.logged {log : List Act} (h : Step capacity s p a p') (hl : Logged p log) :
    Logged p' (log ++ a.effect) := by
  obtain ⟨ht, hg, hu⟩ := hl
  cases h with
  | acquireRetry hp =>
    rw [append_look]
    obtain rfl | ⟨e, rfl⟩ := Pc.acquireReads_cases hp <;> exact ⟨ht, hg, hu⟩
  | acquireEmpty hp =>
    rw [append_look]
    obtain rfl | ⟨e, rfl⟩ := Pc.acquireReads_cases hp <;> exact ⟨ht, hg, hu⟩
  | releaseRetry hp =>
    rw [append_look]
    obtain rfl | ⟨e, rfl⟩ := Pc.releaseReads_cases hp <;> exact ⟨ht, hg, hu⟩
  | releaseFull hp =>
    rw [append_look]
    obtain rfl | ⟨e, rfl⟩ := Pc.releaseReads_cases hp <;> exact ⟨ht, hg, hu⟩
  | _ => exact ⟨by simp [Act.effect, ht, Pc.taken], by simp [Act.effect, hg, Pc.given], by simp [Pc.unchanged]⟩

theorem Step.taken (h : Step capacity s p a p') : p'.taken = p.taken + if a = .take then 1 else 0 := by
  cases h with
  | acquireRetry hp => obtain rfl | ⟨e, rfl⟩ := Pc.acquireReads_cases hp <;> rfl
  | acquireEmpty hp => obtain rfl | ⟨e, rfl⟩ := Pc.acquireReads_cases hp <;> rfl
  | releaseRetry hp => obtain rfl | ⟨e, rfl⟩ := Pc.releaseReads_cases hp <;> rfl
  | releaseFull hp => obtain rfl | ⟨e, rfl⟩ := Pc.releaseReads_cases hp <;> rfl
  | _ => rfl

end Step

/-! ### Runs -/

/-- The books of the semaphore: what is left is what the successful operations have left, and each thread has done
    what its place shows. -/
structure Ledger (capacity : Int) (s : State) : Prop where
  bounded : s.shared.sem.Bounded capacity
  counted : s.shared.sem.remaining = capacity - s.shared.takes + s.shared.gives
  fits : ∀ t ∈ s.threads, ∀ p, t.pc = some p → p.Fits capacity
  logged : ∀ t ∈ s.threads, ∀ p, t.pc = some p → Logged p t.log
  acquired : s.shared.acquired + s.weight (Caller.count Pc.taken) = s.shared.takes

section Run
variable {capacity : Int} {s : State}

theorem CallerStep.bounded {r : Run} {t t' : Caller} {a : RunAct} (h : CallerStep capacity r t a t')
    (hb : r.sem.Bounded capacity) : (a.apply r).sem.Bounded capacity := by
  cases h with
  | step hs => exact hs.bounded hb
  | _ => exact hb

theorem CallerStep.counted {r : Run} {t t' : Caller} {a : RunAct} (h : CallerStep capacity r t a t')
    (hc : r.sem.remaining = capacity - r.takes + r.gives) :
    (a.apply r).sem.remaining = capacity - (a.apply r).takes + (a.apply r).gives := by
  cases h with
  | @step p p' a log hs =>
    cases a with
    | take =>
      simp only [RunAct.apply, Act.apply, if_true, reduceCtorEq, if_false, hc]
      omega
    | give =>
      simp only [RunAct.apply, Act.apply, if_true, reduceCtorEq, if_false, hc]
      omega
    | _ => exact hc
  | _ => exact hc

theorem CallerStep.fits {r : Run} {t t' : Caller} {a : RunAct} (h : CallerStep capacity r t a t') :
    ∀ p, t'.pc = some p → p.Fits capacity := by
  intro p hp
  cases h with
  | acquire | release =>
    cases hp
    trivial
  | returns => cases hp
  | step hs =>
    cases hp
    exact hs.fits

theorem CallerStep.logged {r : Run} {t t' : Caller} {a : RunAct} (h : CallerStep capacity r t a t')
    (hl : ∀ p, t.pc = some p → Logged p t.log) : ∀ p, t'.pc = some p → Logged p t'.log := by
  intro p hp
  cases h with
  | acquire | release =>
    cases hp
    exact logged_start ⟨rfl, rfl⟩
  | returns => cases hp
  | step hs =>
    cases hp
    exact hs.logged (hl _ rfl)

theorem CallerStep.acquired {r : Run} {t t' : Caller} {a : RunAct} (h : CallerStep capacity r t a t') :
    (a.apply r).acquired + t'.count Pc.taken + r.takes = r.acquired + t.count Pc.taken + (a.apply r).takes := by
  cases h with
  | acquire | release => simp [RunAct.apply, Caller.count, Pc.taken]
  | @returns p log hret =>
    cases p with
    | acquireReturns => simp [RunAct.apply, Caller.count, Pc.taken]
    | releaseReturns b => simp [RunAct.apply, Caller.count, Pc.taken]
    | _ => cases hret
  | step hs =>
    simp only [RunAct.apply, Caller.count, Option.elim_some, hs.taken]
    omega

theorem Ledger.run {i : Nat} {t t' : Caller} {x : Input} {a : RunAct} (h : Ledger capacity s)
    (hi : s.threads[i]? = some t) (hs : t.step capacity s.shared x = some (a, t')) :
    Ledger capacity ⟨a.apply s.shared, s.threads.set i t'⟩ := by
  have ht := List.mem_of_getElem? hi
  have hstep := Caller.step_cases h.bounded (h.fits t ht) hs
  refine ⟨hstep.bounded h.bounded, hstep.counted h.counted, ?_, ?_, ?_⟩
  · intro u hu
    rcases eq_or_of_mem_set hu with rfl | ⟨j, -, hj⟩
    · exact hstep.fits
    · exact h.fits u (List.mem_of_getElem? hj)
  · intro u hu
    rcases eq_or_of_mem_set hu with rfl | ⟨j, -, hj⟩
    · exact hstep.logged (h.logged t ht)
    · exact h.logged u (List.mem_of_getElem? hj)
  · have hw := Config.weight_run (Caller.count Pc.taken) (a.apply s.shared) t' hi
    have ha := hstep.acquired
    have := h.acquired
    simp only
    omega

theorem ledger (hc : 0 ≤ capacity) (h : Reachable capacity s) : Ledger capacity s := by
  induction h with
  | start => exact ⟨⟨hc, le_refl _⟩, by simp [Run.init, Shared.init], by simp, by simp, rfl⟩
  | run _ _ hi hs _ ih => exact ih.run hi hs
  | @enter s k t _ hk _ ih =>
    cases hk
    refine ⟨ih.bounded, ih.counted, ?_, ?_, ?_⟩
    · intro u hu
      rcases List.mem_append.mp hu with hu | hu
      · exact ih.fits u hu
      · cases List.mem_singleton.mp hu
        simp
    · intro u hu
      rcases List.mem_append.mp hu with hu | hu
      · exact ih.logged u hu
      · cases List.mem_singleton.mp hu
        simp
    · rw [Config.weight_enter]
      exact ih.acquired

end Run

end Semaphore
