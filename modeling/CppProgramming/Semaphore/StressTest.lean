import CppProgramming.Semaphore.Permits

/-! # The stress test of the semaphore

`TestA` counts in `number` the threads that hold a permit: `aq` threads take permits and add one, `rl` threads
subtract one and give permits back. A thread that finds `sn` or more holders throws. -/

namespace Semaphore
open Interleaving

namespace TestA

/-- The variables of `TestA` that the threads share. -/
structure Shared where
  sem : Semaphore.Shared
  number : Int
  acquireCount : Int
  releaseCount : Int

/-- Where a thread of `TestA` is. At `acquire` and `release` it is inside the call of the semaphore. -/
inductive Thread where
  | aqLoad
  | aqCas (ac : Int)
  | acquire (p : Pc)
  | error (x : Int)
  | rlLoadAcquire
  | rlLoadRelease (ac : Int)
  | rlCas (ac rc : Int)
  | decrement
  | release (p : Pc)
  | finished
  deriving DecidableEq

/-- What a step does to the shared state. -/
inductive Act where
  | sem (a : Semaphore.Act)
  | acquireCountInc
  | releaseCountInc
  | numberInc
  | numberDec
  deriving DecidableEq

/-- The shared state after the action. -/
def Act.apply : Act → Shared → Shared
  | .sem a, s => { s with sem := a.apply s.sem }
  | .acquireCountInc, s => { s with acquireCount := s.acquireCount + 1 }
  | .releaseCountInc, s => { s with releaseCount := s.releaseCount + 1 }
  | .numberInc, s => { s with number := s.number + 1 }
  | .numberDec, s => { s with number := s.number - 1 }

/-- `if (ac == count)` in `aq`. -/
def aqTest (count ac : Int) : Thread := if ac = count then .finished else .acquire .acquireLoad

/-- The condition of the inner loop of `aq`. -/
def aqLoop (count ac : Int) : Thread := if ac < count then .aqCas ac else aqTest count ac

/-- The two tests after the inner loop of `rl`. -/
def rlTest (sn count ac rc : Int) : Thread :=
  if rc = count - sn then .finished else if ac - sn ≤ rc then .rlLoadAcquire else .decrement

/-- The condition of the inner loop of `rl`. -/
def rlLoop (sn count ac rc : Int) : Thread := if rc < ac - sn then .rlCas ac rc else rlTest sn count ac rc

/-- The next operation of a thread; the first one after a call of the semaphore follows its return. -/
def Thread.step (sn count : Int) (s : Shared) : Thread → Choice → Option (Act × Thread)
  | .aqLoad, .go => some (.sem .look, aqLoop count s.acquireCount)
  | .aqCas ac, .go =>
    if s.acquireCount = ac then some (.acquireCountInc, aqTest count ac)
    else some (.sem .look, aqLoop count s.acquireCount)
  | .aqCas _, .spurious => some (.sem .look, aqLoop count s.acquireCount)
  | .acquire .acquireReturns, .go =>
    some (.numberInc, if sn ≤ s.number then .error s.number else .aqLoad)
  | .acquire p, x => (p.step sn s.sem x).map fun (a, p') => (.sem a, .acquire p')
  | .rlLoadAcquire, .go => some (.sem .look, .rlLoadRelease s.acquireCount)
  | .rlLoadRelease ac, .go => some (.sem .look, rlLoop sn count ac s.releaseCount)
  | .rlCas ac rc, .go =>
    if s.releaseCount = rc then some (.releaseCountInc, rlTest sn count ac rc)
    else some (.sem .look, rlLoop sn count ac s.releaseCount)
  | .rlCas ac _, .spurious => some (.sem .look, rlLoop sn count ac s.releaseCount)
  | .decrement, .go => some (.numberDec, .release .releaseLoad)
  | .release (.releaseReturns true), .go => some (.sem .look, .rlLoadAcquire)
  | .release (.releaseReturns false), .go => some (.sem .look, .release .releaseLoad)
  | .release p, x => (p.step sn s.sem x).map fun (a, p') => (.sem a, .release p')
  | _, _ => none

/-- A semaphore of capacity `sn`, and counters of zero. -/
def Shared.init (sn : Int) : Shared := ⟨.init sn, 0, 0, 0⟩

/-- The shared state and the threads of the test. -/
abbrev State := Config Shared Thread

/-- The test as a system of threads. -/
def machine (sn count : Int) : Machine Shared Thread Choice Act Empty where
  step := fun s t x => t.step sn count s x
  apply := Act.apply
  enter := fun k => k.elim
  halted := fun _ => false

/-- The threads that `TestA` starts. -/
def threads (atn rtn : Nat) : List Thread := .replicate atn .aqLoad ++ .replicate rtn .rlLoadAcquire

/-- The runs of `TestA(sn, atn, rtn, count)`. -/
def Reachable (sn : Int) (atn rtn : Nat) (count : Int) : State → Prop :=
  Reach (machine sn count) .any ⟨.init sn, threads atn rtn⟩

/-! ### Holders -/

/-- The permit in the hands of a thread that `number` does not count: taken and not yet counted, or no longer
    counted and not yet given back. -/
def Thread.permits : Thread → Nat
  | .acquire p | .release p => p.permits
  | _ => 0

/-- The `expected` of a `compare_exchange_weak` has passed the condition of its loop. -/
def Thread.Fits (sn : Int) : Thread → Prop
  | .acquire p | .release p => p.Fits sn
  | _ => True

/-- A thread that throws has found `sn` holders. -/
def Thread.isError : Thread → Bool
  | .error _ => true
  | _ => false

/-- What a thread may do. -/
inductive Step (sn : Int) (s : Shared) : Thread → Act → Thread → Prop
  | move {t t' : Thread} {a : Act} : t.permits = 0 → t'.permits = 0 → t'.Fits sn → t'.isError = false →
      a = .sem .look ∨ a = .acquireCountInc ∨ a = .releaseCountInc → Step sn s t a t'
  | acquire {p p' : Pc} {a : Semaphore.Act} : Semaphore.Step sn s.sem p a p' →
      Step sn s (.acquire p) (.sem a) (.acquire p')
  | numberInc {t' : Thread} : t'.permits = 0 → t'.Fits sn → (s.number < sn → t'.isError = false) →
      Step sn s (.acquire .acquireReturns) .numberInc t'
  | numberDec : Step sn s .decrement .numberDec (.release .releaseLoad)
  | release {p p' : Pc} {a : Semaphore.Act} : Semaphore.Step sn s.sem p a p' →
      Step sn s (.release p) (.sem a) (.release p')
  | again : Step sn s (.release (.releaseReturns false)) (.sem .look) (.release .releaseLoad)

section Steps
variable {sn count : Int} {s : Shared} {t t' : Thread} {x : Choice} {a : Act}

theorem move_aqTest (ac : Int) (ht : t.permits = 0) (ha : a = .sem .look ∨ a = .acquireCountInc ∨ a = .releaseCountInc) :
    Step sn s t a (aqTest count ac) := by
  unfold aqTest
  split
  · exact .move ht rfl trivial rfl ha
  · exact .move ht rfl trivial rfl ha

theorem move_aqLoop (ac : Int) (ht : t.permits = 0) : Step sn s t (.sem .look) (aqLoop count ac) := by
  unfold aqLoop
  split
  · exact .move ht rfl trivial rfl (Or.inl rfl)
  · exact move_aqTest ac ht (Or.inl rfl)

theorem move_rlTest (ac rc : Int) (ht : t.permits = 0)
    (ha : a = .sem .look ∨ a = .acquireCountInc ∨ a = .releaseCountInc) : Step sn s t a (rlTest sn count ac rc) := by
  unfold rlTest
  split
  · exact .move ht rfl trivial rfl ha
  · split
    · exact .move ht rfl trivial rfl ha
    · exact .move ht rfl trivial rfl ha

theorem move_rlLoop (ac rc : Int) (ht : t.permits = 0) : Step sn s t (.sem .look) (rlLoop sn count ac rc) := by
  unfold rlLoop
  split
  · exact .move ht rfl trivial rfl (Or.inl rfl)
  · exact move_rlTest ac rc ht (Or.inl rfl)

theorem Thread.step_cases (hb : s.sem.Bounded sn) (hf : t.Fits sn) (h : t.step sn count s x = some (a, t')) :
    Step sn s t a t' := by
  unfold Thread.step at h
  split at h
  · cases h
    exact move_aqLoop _ rfl
  · split at h
    · cases h
      exact move_aqTest _ rfl (Or.inr (Or.inl rfl))
    · cases h
      exact move_aqLoop _ rfl
  · cases h
    exact move_aqLoop _ rfl
  · cases h
    refine .numberInc ?_ ?_ ?_
    · split <;> rfl
    · split <;> trivial
    · intro hlt
      rw [if_neg (not_le.mpr hlt)]
      rfl
  · obtain ⟨⟨a, p'⟩, hp, heq⟩ := Option.map_eq_some_iff.mp h
    cases heq
    exact .acquire (Pc.step_cases hb hf hp)
  · cases h
    exact .move rfl rfl trivial rfl (Or.inl rfl)
  · cases h
    exact move_rlLoop _ _ rfl
  · split at h
    · cases h
      exact move_rlTest _ _ rfl (Or.inr (Or.inr rfl))
    · cases h
      exact move_rlLoop _ _ rfl
  · cases h
    exact move_rlLoop _ _ rfl
  · cases h
    exact .numberDec
  · cases h
    exact .move rfl rfl trivial rfl (Or.inl rfl)
  · cases h
    exact .again
  · obtain ⟨⟨a, p'⟩, hp, heq⟩ := Option.map_eq_some_iff.mp h
    cases heq
    exact .release (Pc.step_cases hb hf hp)
  · cases h

theorem Step.fits (h : Step sn s t a t') : t'.Fits sn := by
  cases h with
  | move _ _ hf | numberInc _ hf => exact hf
  | acquire hs | release hs => exact Semaphore.Step.fits hs
  | numberDec | again => exact trivial

theorem Step.bounded (h : Step sn s t a t') (hb : s.sem.Bounded sn) : (a.apply s).sem.Bounded sn := by
  cases h with
  | move _ _ _ _ ha => rcases ha with rfl | rfl | rfl <;> exact hb
  | acquire hs | release hs => exact Semaphore.Step.bounded hs hb
  | numberInc | numberDec | again => exact hb

/-- The permits: those in the semaphore, those that `number` counts and those on the way between the two. -/
theorem Step.permits (h : Step sn s t a t') :
    (a.apply s).number + (a.apply s).sem.remaining + t'.permits = s.number + s.sem.remaining + t.permits := by
  cases h with
  | move ht ht' _ _ ha =>
    rw [ht, ht']
    rcases ha with rfl | rfl | rfl <;> rfl
  | acquire hs | release hs =>
    have := Semaphore.Step.permits hs
    simp only [Act.apply, Thread.permits]
    omega
  | numberInc ht' =>
    rw [ht']
    simp only [Act.apply, Thread.permits, Pc.permits]
    omega
  | numberDec =>
    simp only [Act.apply, Thread.permits, Pc.permits]
    omega
  | again => rfl

end Steps

/-- What holds in every state that is reached. -/
structure Inv (sn : Int) (s : State) : Prop where
  bounded : s.shared.sem.Bounded sn
  fits : ∀ t ∈ s.threads, t.Fits sn
  permits : s.shared.number + s.shared.sem.remaining + s.weight Thread.permits = sn
  noError : ∀ t ∈ s.threads, t.isError = false

variable {sn count : Int} {atn rtn : Nat} {s : State}

theorem inv_init (hsn : 0 ≤ sn) : Inv sn ⟨.init sn, threads atn rtn⟩ := by
  have hstart : ∀ t ∈ threads atn rtn, t = .aqLoad ∨ t = .rlLoadAcquire := by
    intro t ht
    rcases List.mem_append.mp ht with ht | ht
    · exact Or.inl (List.eq_of_mem_replicate ht)
    · exact Or.inr (List.eq_of_mem_replicate ht)
  refine ⟨⟨hsn, le_refl _⟩, ?_, ?_, ?_⟩
  · intro t ht
    rcases hstart t ht with rfl | rfl <;> trivial
  · have hz : Config.weight Thread.permits (⟨.init sn, threads atn rtn⟩ : State) = 0 := by
      refine Nat.eq_zero_of_not_pos fun hpos => ?_
      obtain ⟨t, ht, hp⟩ := Config.weight_pos.mp hpos
      rcases hstart t ht with rfl | rfl <;> exact Nat.lt_irrefl 0 hp
    rw [hz]
    simp [Shared.init, Semaphore.Shared.init]
  · intro t ht
    rcases hstart t ht with rfl | rfl <;> rfl

theorem Inv.run {i : Nat} {t t' : Thread} {x : Choice} {a : Act} (h : Inv sn s) (hi : s.threads[i]? = some t)
    (hs : t.step sn count s.shared x = some (a, t')) : Inv sn ⟨a.apply s.shared, s.threads.set i t'⟩ := by
  have ht := List.mem_of_getElem? hi
  have hstep := Thread.step_cases h.bounded (h.fits t ht) hs
  refine ⟨hstep.bounded h.bounded, ?_, ?_, ?_⟩
  · intro u hu
    rcases eq_or_of_mem_set hu with rfl | ⟨j, -, hj⟩
    · exact hstep.fits
    · exact h.fits u (List.mem_of_getElem? hj)
  · have hw := Config.weight_run Thread.permits (a.apply s.shared) t' hi
    have hp := hstep.permits
    have := h.permits
    simp only
    omega
  · intro u hu
    rcases eq_or_of_mem_set hu with rfl | ⟨j, -, hj⟩
    · cases hstep with
      | move _ _ _ he => exact he
      | numberInc _ _ he =>
        -- the permit of the thread itself is not in `number`
        have hone := Config.le_weight (f := Thread.permits) ht
        have hsum := h.permits
        have hrem := h.bounded.1
        simp only [Thread.permits, Pc.permits] at hone
        exact he (by omega)
      | _ => rfl
    · exact h.noError u (List.mem_of_getElem? hj)

theorem inv (hsn : 0 ≤ sn) (h : Reachable sn atn rtn count s) : Inv sn s := by
  induction h with
  | start => exact inv_init hsn
  | run _ _ hi hs _ ih => exact ih.run hi hs
  | @enter _ k _ _ _ _ _ => exact k.elim

end TestA

/-- The semaphore keeps its books: `remaining` stays between 0 and `capacity` and is what the successful
    `compare_exchange_weak` have left, `acquire` returns after one decrement of its own, `release` returns true after
    one increment and false after no change, no more calls of `acquire` have returned than permits were there or
    given back, and no thread of the stress test finds `sn` holders. -/
theorem semaphore_bounds_holders (capacity : Int) (hc : 0 ≤ capacity) :
    (∀ s, Reachable capacity s →
      0 ≤ s.shared.sem.remaining ∧ s.shared.sem.remaining ≤ capacity ∧
      s.shared.sem.remaining = capacity - s.shared.takes + s.shared.gives ∧
      (∀ t ∈ s.threads, t.pc = some .acquireReturns → t.log.count .take = 1 ∧ t.log.count .give = 0) ∧
      (∀ t ∈ s.threads, ∀ b, t.pc = some (.releaseReturns b) →
        (b = true ↔ t.log.count .give = 1) ∧ t.log.count .take = 0 ∧ (b = false → t.log = [])) ∧
      (s.shared.acquired : Int) ≤ capacity + s.shared.gives) ∧
    (1 ≤ capacity → ∀ atn rtn count s, TestA.Reachable capacity atn rtn count s →
      ∀ t ∈ s.threads, t.isError = false) := by
  refine ⟨fun s h => ?_, fun _ atn rtn count s h => (TestA.inv hc h).noError⟩
  have hl := ledger hc h
  obtain ⟨hlo, hhi⟩ := hl.bounded
  refine ⟨hlo, hhi, hl.counted, ?_, ?_, ?_⟩
  · intro t ht hp
    have hlog := hl.logged t ht _ hp
    exact ⟨hlog.taken, hlog.given⟩
  · intro t ht b hp
    have hlog := hl.logged t ht _ hp
    refine ⟨?_, ?_, ?_⟩
    · rw [hlog.given]
      cases b <;> simp [Pc.given]
    · exact hlog.taken
    · rintro rfl
      exact hlog.unchanged rfl
  · have hc := hl.counted
    have ha := hl.acquired
    omega

/-- The steps of a thread that does not choose. -/
def goOn (i n : Nat) : List (Move Input Unit) := List.replicate n (.run i (.step .go))

/-- Two threads, one of which waits for the permit of the other one. -/
def handOver : List (Move Input Unit) :=
  [[.enter (), .enter (), .run 0 .acquire, .run 1 .acquire], goOn 0 3, goOn 1 5, [.run 0 .release], goOn 0 4,
    [.run 0 (.step (.notify [0]))], goOn 0 1, goOn 1 8].flatten

theorem semaphore_bounds_holders_of_one : ∃ s, Reachable 1 s ∧ s.shared.acquired = 2 ∧ s.shared.gives = 1 ∧
    (s.shared.acquired : Int) ≤ 1 + s.shared.gives ∧
    ∃ s', TestA.Reachable 1 1 1 2 s' ∧ s'.shared.number = 1 ∧ ∀ t ∈ s'.threads, t.isError = false := by
  have hrun : ((machine 1).exec (fun _ _ _ => true) (fun _ => true) ⟨.init 1, []⟩ handOver).any
      (fun s => s.shared.acquired = 2 ∧ s.shared.gives = 1) = true := by
    decide
  have hrun' : ((TestA.machine 1 2).exec (fun _ _ _ => true) (fun k => k.elim) ⟨.init 1, TestA.threads 1 1⟩
      (.replicate 5 (.run 0 .go))).any (fun s => s.shared.number = 1) = true := by
    decide
  obtain ⟨s, hs, hp⟩ := Reach.exists_of_exec Rule.any (fun _ _ _ _ => trivial) (fun _ _ => trivial) hrun
  obtain ⟨s', hs', hp'⟩ := Reach.exists_of_exec Rule.any (fun _ _ _ _ => trivial) (fun _ _ => trivial) hrun'
  obtain ⟨ha, hg⟩ := of_decide_eq_true hp
  obtain ⟨hrun, htest⟩ := semaphore_bounds_holders 1 (by decide)
  obtain ⟨-, -, -, -, -, hle⟩ := hrun s hs
  exact ⟨s, hs, ha, hg, hle, s', hs', of_decide_eq_true hp', htest (by decide) 1 1 2 s' hs'⟩

end Semaphore
