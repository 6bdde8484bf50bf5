import CppProgramming.Lib.CondVar

/-! # The semaphore

`acquire` and `release` of `utils::Semaphore` (and of its copy in the thread tests), one atomic, mutex or
condition variable operation at a time. The operations are sequentially consistent, `compare_exchange_weak` may
fail for no reason, a blocked thread may wake up for no reason, and `notify_one` wakes at least one blocked thread
if there is one. -/

namespace Semaphore
open Interleaving

/-- The members of a `Semaphore`; `mtx` is whether the mutex is locked. -/
structure Shared where
  remaining : Int
  waited : Int
  mtx : Bool
  cv : CondVar
  deriving DecidableEq

/-- The constructor. -/
def Shared.init (capacity : Int) : Shared := ⟨capacity, 0, false, .init⟩

/-- Where a thread is in `acquire` or `release`: the operation that it does next. -/
inductive Pc where
  | acquireLoad
  | acquireCas (expected : Int)
  | acquireLock
  | waitedInc
  | predicate
  | block
  | waiting (ticket : Nat)
  | relock
  | waitedDec
  | acquireUnlock
  | acquireReturns
  | releaseLoad
  | releaseCas (expected : Int)
  | readWaited
  | releaseLock
  | notifyOne
  | releaseUnlock
  | releaseReturns (result : Bool)
  deriving DecidableEq

/-- What an operation does to the members. -/
inductive Act where
  | look
  | take
  | give
  | lock
  | unlock
  | waitedInc
  | waitedDec
  | block
  | wake (ticket : Nat)
  | notify (tickets : List Nat)
  deriving DecidableEq

/-- The members after the operation. -/
def Act.apply : Act → Shared → Shared
  | .look, s => s
  | .take, s => { s with remaining := s.remaining - 1 }
  | .give, s => { s with remaining := s.remaining + 1 }
  | .lock, s => { s with mtx := true }
  | .unlock, s => { s with mtx := false }
  | .waitedInc, s => { s with waited := s.waited + 1 }
  | .waitedDec, s => { s with waited := s.waited - 1 }
  | .block, s => { s with mtx := false, cv := s.cv.block }
  | .wake k, s => { s with cv := s.cv.wake k }
  | .notify ks, s => { s with cv := s.cv.notify ks }

/-- What a step gets from outside: nothing, that it fails or wakes up for no reason, or whom it notifies. -/
inductive Choice where
  | go
  | spurious
  | notify (tickets : List Nat)
  deriving DecidableEq

/-- `if (expected == 0)` after the loop of `acquire`. -/
def acquireTest (expected : Int) : Pc := if expected = 0 then .acquireLock else .acquireReturns

/-- The condition of the loop of `acquire`. -/
def acquireLoop (expected : Int) : Pc := if 0 < expected then .acquireCas expected else acquireTest expected

/-- `if (expected == capacity)` after the loop of `release`. -/
def releaseTest (capacity expected : Int) : Pc :=
  if expected = capacity then .releaseReturns false else .readWaited

/-- The condition of the loop of `release`. -/
def releaseLoop (capacity expected : Int) : Pc :=
  if expected < capacity then .releaseCas expected else releaseTest capacity expected

/-- The next operation of a thread that is in `acquire`. -/
def acquireStep (s : Shared) : Pc → Choice → Option (Act × Pc)
  | .acquireLoad, .go => some (.look, acquireLoop s.remaining)
  | .acquireCas expected, .go =>
    if s.remaining = expected then some (.take, acquireTest expected) else some (.look, acquireLoop s.remaining)
  | .acquireCas _, .spurious => some (.look, acquireLoop s.remaining)
  | .acquireLock, .go => if s.mtx then none else some (.lock, .waitedInc)
  | .waitedInc, .go => some (.waitedInc, .predicate)
  | .predicate, .go => some (.look, if 0 < s.remaining then .waitedDec else .block)
  | .block, .go => some (.block, .waiting s.cv.ticket)
  | .waiting k, .go => if k ∈ s.cv.waiting then none else some (.wake k, .relock)
  | .waiting k, .spurious => some (.wake k, .relock)
  | .relock, .go => if s.mtx then none else some (.lock, .predicate)
  | .waitedDec, .go => some (.waitedDec, .acquireUnlock)
  | .acquireUnlock, .go => some (.unlock, .acquireLoad)
  | _, _ => none

/-- The next operation of a thread that is in `release`. -/
def releaseStep (capacity : Int) (s : Shared) : Pc → Choice → Option (Act × Pc)
  | .releaseLoad, .go => some (.look, releaseLoop capacity s.remaining)
  | .releaseCas expected, .go =>
    if s.remaining = expected then some (.give, releaseTest capacity expected)
    else some (.look, releaseLoop capacity s.remaining)
  | .releaseCas _, .spurious => some (.look, releaseLoop capacity s.remaining)
  | .readWaited, .go => some (.look, if 0 < s.waited then .releaseLock else .releaseReturns true)
  | .releaseLock, .go => if s.mtx then none else some (.lock, .notifyOne)
  | .notifyOne, .notify ks => if s.cv.notifiesOne ks then some (.notify ks, .releaseUnlock) else none
  | .releaseUnlock, .go => some (.unlock, .releaseReturns true)
  | _, _ => none

/-- The call is one of `release`. -/
def Pc.inRelease : Pc → Bool
  | .releaseLoad | .releaseCas _ | .readWaited | .releaseLock | .notifyOne | .releaseUnlock | .releaseReturns _ => true
  | _ => false

/-- The next operation of a thread in one of the two. -/
def Pc.step (capacity : Int) (s : Shared) (p : Pc) (x : Choice) : Option (Act × Pc) :=
  if p.inRelease then releaseStep capacity s p x else acquireStep s p x

/-- The call is over. -/
def Pc.returned : Pc → Bool
  | .acquireReturns | .releaseReturns _ => true
  | _ => false

/-! ### Steps -/

/-- The thread reads `remaining` and tests it in the loop of `acquire`. -/
def Pc.acquireReads : Pc → Bool
  | .acquireLoad | .acquireCas _ => true
  | _ => false

/-- The thread reads `remaining` and tests it in the loop of `release`. -/
def Pc.releaseReads : Pc → Bool
  | .releaseLoad | .releaseCas _ => true
  | _ => false

theorem Pc.acquireReads_cases {p : Pc} (h : p.acquireReads = true) : p = .acquireLoad ∨ ∃ e, p = .acquireCas e := by
  cases p with
  | acquireLoad => exact Or.inl rfl
  | acquireCas e => exact Or.inr ⟨e, rfl⟩
  | _ => cases h

theorem Pc.releaseReads_cases {p : Pc} (h : p.releaseReads = true) : p = .releaseLoad ∨ ∃ e, p = .releaseCas e := by
  cases p with
  | releaseLoad => exact Or.inl rfl
  | releaseCas e => exact Or.inr ⟨e, rfl⟩
  | _ => cases h

/-- The `expected` of a `compare_exchange_weak` has passed the condition of its loop. -/
def Pc.Fits (capacity : Int) : Pc → Prop
  | .acquireCas expected => 0 < expected
  | .releaseCas expected => expected < capacity
  | _ => True

/-- The semaphore holds between none and `capacity` permits. -/
def Shared.Bounded (capacity : Int) (s : Shared) : Prop := 0 ≤ s.remaining ∧ s.remaining ≤ capacity

/-- What a thread may do, with what it found. -/
inductive Step (capacity : Int) (s : Shared) : Pc → Act → Pc → Prop
  | acquireRetry {p : Pc} : p.acquireReads = true → 0 < s.remaining →
      Step capacity s p .look (.acquireCas s.remaining)
  | acquireEmpty {p : Pc} : p.acquireReads = true → s.remaining = 0 → Step capacity s p .look .acquireLock
  | take {e : Int} : 0 < s.remaining → Step capacity s (.acquireCas e) .take .acquireReturns
  | acquireLock : s.mtx = false → Step capacity s .acquireLock .lock .waitedInc
  | waitedInc : Step capacity s .waitedInc .waitedInc .predicate
  | ready : 0 < s.remaining → Step capacity s .predicate .look .waitedDec
  | unready : s.remaining = 0 → Step capacity s .predicate .look .block
  | block : Step capacity s .block .block (.waiting s.cv.ticket)
  | wake {k : Nat} : Step capacity s (.waiting k) (.wake k) .relock
  | relock : s.mtx = false → Step capacity s .relock .lock .predicate
  | waitedDec : Step capacity s .waitedDec .waitedDec .acquireUnlock
  | acquireUnlock : Step capacity s .acquireUnlock .unlock .acquireLoad
  | releaseRetry {p : Pc} : p.releaseReads = true → s.remaining < capacity →
      Step capacity s p .look (.releaseCas s.remaining)
  | releaseFull {p : Pc} : p.releaseReads = true → s.remaining = capacity →
      Step capacity s p .look (.releaseReturns false)
  | give {e : Int} : s.remaining < capacity → Step capacity s (.releaseCas e) .give .readWaited
  | someWaited : 0 < s.waited → Step capacity s .readWaited .look .releaseLock
  | noneWaited : s.waited ≤ 0 → Step capacity s .readWaited .look (.releaseReturns true)
  | releaseLock : s.mtx = false → Step capacity s .releaseLock .lock .notifyOne
  | notifyOne {ks : List Nat} : s.cv.notifiesOne ks = true → Step capacity s .notifyOne (.notify ks) .releaseUnlock
  | releaseUnlock : Step capacity s .releaseUnlock .unlock (.releaseReturns true)

section Inversion
variable {capacity : Int} {s : Shared} {p p' : Pc} {x : Choice} {a : Act}

theorem acquireLoop_cases (hb : s.Bounded capacity) (hp : p.acquireReads = true) :
    Step capacity s p .look (acquireLoop s.remaining) := by
  have hle := hb.1
  unfold acquireLoop acquireTest
  split
  · next hpos => exact .acquireRetry hp hpos
  · next hno =>
    have hz : s.remaining = 0 := by omega
    rw [if_pos hz]
    exact .acquireEmpty hp hz

theorem releaseLoop_cases (hb : s.Bounded capacity) (hp : p.releaseReads = true) :
    Step capacity s p .look (releaseLoop capacity s.remaining) := by
  have hle := hb.2
  unfold releaseLoop releaseTest
  split
  · next hlt => exact .releaseRetry hp hlt
  · next hno =>
    have heq : s.remaining = capacity := by omega
    rw [if_pos heq]
    exact .releaseFull hp heq

theorem acquireStep_cases (hb : s.Bounded capacity) (hf : p.Fits capacity) (h : acquireStep s p x = some (a, p')) :
    Step capacity s p a p' := by
  unfold acquireStep at h
  split at h
  · cases h
    exact acquireLoop_cases hb rfl
  · next e =>
    split at h
    · next heq =>
      cases h
      have hpos : 0 < e := hf
      rw [acquireTest, if_neg (ne_of_gt hpos)]
      exact .take (heq ▸ hpos)
    · cases h
      exact acquireLoop_cases hb rfl
  · cases h
    exact acquireLoop_cases hb rfl
  · split at h
    · cases h
    · next hm =>
      cases h
      exact .acquireLock (Bool.eq_false_of_not_eq_true hm)
  · cases h
    exact .waitedInc
  · split at h
    · next hpos =>
      cases h
      exact .ready hpos
    · next hno =>
      cases h
      exact .unready (le_antisymm (not_lt.mp hno) hb.1)
  · cases h
    exact .block
  · split at h
    · cases h
    · cases h
      exact .wake
  · cases h
    exact .wake
  · split at h
    · cases h
    · next hm =>
      cases h
      exact .relock (Bool.eq_false_of_not_eq_true hm)
  · cases h
    exact .waitedDec
  · cases h
    exact .acquireUnlock
  · cases h

theorem releaseStep_cases (hb : s.Bounded capacity) (hf : p.Fits capacity)
    (h : releaseStep capacity s p x = some (a, p')) : Step capacity s p a p' := by
  unfold releaseStep at h
  split at h
  · cases h
    exact releaseLoop_cases hb rfl
  · next e =>
    split at h
    · next heq =>
      cases h
      have hlt : e < capacity := hf
      rw [releaseTest, if_neg (ne_of_lt hlt)]
      exact .give (heq ▸ hlt)
    · cases h
      exact releaseLoop_cases hb rfl
  · cases h
    exact releaseLoop_cases hb rfl
  · split at h
    · next hpos =>
      cases h
      exact .someWaited hpos
    · next hno =>
      cases h
      exact .noneWaited (not_lt.mp hno)
  · split at h
    · cases h
    · next hm =>
      cases h
      exact .releaseLock (Bool.eq_false_of_not_eq_true hm)
  · split at h
    · next hks =>
      cases h
      exact .notifyOne hks
    · cases h
  · cases h
    exact .releaseUnlock
  · cases h

theorem Pc.step_cases (hb : s.Bounded capacity) (hf : p.Fits capacity) (h : p.step capacity s x = some (a, p')) :
    Step capacity s p a p' := by
  unfold Pc.step at h
  split at h
  · exact releaseStep_cases hb hf h
  · exact acquireStep_cases hb hf h

end Inversion

/-! ### Callers -/

/-- A thread that uses the semaphore: where it is, if it is in a call, and what its last call has done to the
    members so far. -/
structure Caller where
  pc : Option Pc
  log : List Act
  deriving DecidableEq

/-- A weight of the places in `acquire` and `release`, as one of the callers. -/
def Caller.count (f : Pc → Nat) (t : Caller) : Nat := t.pc.elim 0 f

/-- The semaphore and the history of a run: the `compare_exchange_weak` of `acquire` and of `release` that have
    succeeded, and the calls of `acquire` that have returned. -/
structure Run where
  sem : Shared
  takes : Nat
  gives : Nat
  acquired : Nat

/-- A step of a run: an operation, or the return of a call. -/
inductive RunAct where
  | sem (a : Act)
  | returns (p : Pc)
  deriving DecidableEq

/-- What a caller does next. -/
inductive Input where
  | acquire
  | release
  | step (x : Choice)
  deriving DecidableEq

/-- What an operation adds to the log of its call. -/
def Act.effect (a : Act) : List Act := if a = .look then [] else [a]

/-- A step of a caller. -/
def Caller.step (capacity : Int) (r : Run) (t : Caller) (x : Input) : Option (RunAct × Caller) :=
  match t.pc, x with
  | none, .acquire => some (.sem .look, ⟨some .acquireLoad, []⟩)
  | none, .release => some (.sem .look, ⟨some .releaseLoad, []⟩)
  | some p, .step y =>
    if p.returned then some (.returns p, ⟨none, t.log⟩)
    else (p.step capacity r.sem y).map fun (a, p') => (.sem a, ⟨some p', t.log ++ a.effect⟩)
  | _, _ => none

/-- The run after the step. -/
def RunAct.apply : RunAct → Run → Run
  | .sem a, r =>
    { r with
      sem := a.apply r.sem
      takes := r.takes + if a = .take then 1 else 0
      gives := r.gives + if a = .give then 1 else 0 }
  | .returns p, r => { r with acquired := r.acquired + if p = .acquireReturns then 1 else 0 }

/-- A new semaphore. -/
def Run.init (capacity : Int) : Run := ⟨.init capacity, 0, 0, 0⟩

/-- The semaphore and its callers. -/
abbrev State := Config Run Caller

/-- Any number of threads call `acquire` and `release`, any number of times. -/
def machine (capacity : Int) : Machine Run Caller Input RunAct Unit where
  step := fun r t x => t.step capacity r x
  apply := RunAct.apply
  enter := fun _ => some ⟨none, []⟩
  halted := fun _ => false

/-- The runs of a semaphore that is created with `capacity`. -/
def Reachable (capacity : Int) : State → Prop := Reach (machine capacity) .any ⟨.init capacity, []⟩

/-- What a step of a caller is. -/
inductive CallerStep (capacity : Int) (r : Run) : Caller → RunAct → Caller → Prop
  | acquire {log : List Act} : CallerStep capacity r ⟨none, log⟩ (.sem .look) ⟨some .acquireLoad, []⟩
  | release {log : List Act} : CallerStep capacity r ⟨none, log⟩ (.sem .look) ⟨some .releaseLoad, []⟩
  | returns {p : Pc} {log : List Act} : p.returned = true → CallerStep capacity r ⟨some p, log⟩ (.returns p) ⟨none, log⟩
  | step {p p' : Pc} {a : Act} {log : List Act} : Step capacity r.sem p a p' →
      CallerStep capacity r ⟨some p, log⟩ (.sem a) ⟨some p', log ++ a.effect⟩

theorem Caller.step_cases {capacity : Int} {r : Run} {t t' : Caller} {x : Input} {a : RunAct}
    (hb : r.sem.Bounded capacity) (hf : ∀ p, t.pc = some p → p.Fits capacity)
    (h : t.step capacity r x = some (a, t')) : CallerStep capacity r t a t' := by
  obtain ⟨pc, log⟩ := t
  unfold Caller.step at h
  split at h
  · next heq =>
    cases heq
    cases h
    exact .acquire
  · next heq =>
    cases heq
    cases h
    exact .release
  · next p y heq =>
    cases heq
    split at h
    · next hret =>
      cases h
      exact .returns hret
    · obtain ⟨⟨a, p'⟩, hp, heq⟩ := Option.map_eq_some_iff.mp h
      cases heq
      exact .step (Pc.step_cases hb (hf p rfl) hp)
  · cases h

end Semaphore
