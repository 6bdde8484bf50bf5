import CppProgramming.Lib.Progress
import CppProgramming.Lib.Simulation
import CppProgramming.Semaphore.Progress

/-! # The test with blocked threads

`TestB` starts `atn` threads that call `acquire` once, waits until all of them have counted in `ac`, calls `release` until
it has returned true `atn - sn` times, and joins the threads. The time that it leaves them to block is not modelled, so
that they may not have blocked yet. `ac` is declared without a value; the model takes any int. -/

namespace Semaphore
open Interleaving

namespace TestB

/-- The variables of `TestB`, and how many threads have ended. -/
structure Shared where
  run : Run
  ac : Int32
  ended : Nat

/-- Where a thread is: one of those that are started, and below them the one that has called `TestB`. -/
inductive Place where
  | count
  | acquire
  | leave
  | ended
  | await
  | loop (i : Nat)
  | release (i : Nat)
  | join
  | done
  deriving DecidableEq

/-- A thread of the test: where it is, and where it is in the semaphore. -/
structure Thread where
  place : Place
  caller : Caller := ⟨none, []⟩
  deriving DecidableEq

/-- What a step does to the shared state. -/
inductive Act where
  | look
  | count
  | ends
  | run (a : RunAct)
  deriving DecidableEq

/-- The shared state after the action. -/
def Act.apply : Act → Shared → Shared
  | .look, s => s
  | .count, s => { s with ac := s.ac + 1 }
  | .ends, s => { s with ended := s.ended + 1 }
  | .run a, s => { s with run := a.apply s.run }

/-- A step inside a call of the semaphore, or into it; `after` is where the thread is when the call returns. -/
def Thread.call (sn : Int) (s : Shared) (t : Thread) (enter : Input) (x : Choice) (after : Pc → Place) :
    Option (Act × Thread) :=
  match t.caller.pc with
  | none => (t.caller.step sn s.run enter).map fun (a, c) => (.run a, ⟨t.place, c⟩)
  | some p => (t.caller.step sn s.run (.step x)).map fun (a, c) => (.run a, ⟨if p.returned then after p else t.place, c⟩)

/-- The next operation of a thread. -/
def Thread.step (sn : Int) (atn : Nat) (s : Shared) (t : Thread) (x : Choice) : Option (Act × Thread) :=
  match t.place with
  | .count => some (.count, ⟨.acquire, t.caller⟩)
  | .acquire => t.call sn s .acquire x fun _ => .leave
  | .leave => some (.ends, ⟨.ended, t.caller⟩)
  | .await => some (.look, ⟨if s.ac.toInt < atn then .await else .loop 0, t.caller⟩)
  | .loop i => some (.look, ⟨if (i : Int) < atn - sn then .release i else .join, t.caller⟩)
  -- `while (!s.release())`
  | .release i => t.call sn s .release x fun p => if p = .releaseReturns true then .loop (i + 1) else .release i
  -- All threads have been joined.
  | .join => if s.ended = atn then some (.look, ⟨.done, t.caller⟩) else none
  | .ended | .done => none

/-- A semaphore of capacity `sn`, and `ac`. -/
def Shared.init (sn : Int) (ac : Int32) : Shared := ⟨.init sn, ac, 0⟩

/-- The shared state and the threads of the test. -/
abbrev State := Config Shared Thread

/-- The test as a system of threads. -/
def machine (sn : Int) (atn : Nat) : Machine Shared Thread Choice Act Empty where
  step := fun s t x => t.step sn atn s x
  apply := Act.apply
  enter := fun k => k.elim
  halted := fun _ => false

/-- The thread that waits for the others, and `atn` that count. -/
def threads (atn : Nat) : List Thread := { place := .await } :: .replicate atn { place := .count }

/-- The runs of `TestB(sn, atn)` with `ac` from the beginning. -/
def Reachable (sn : Int) (atn : Nat) (ac : Int32) : State → Prop :=
  Reach (machine sn atn) .any ⟨.init sn ac, threads atn⟩

/-- All threads are through. -/
def Over (s : State) : Prop := ∀ t ∈ s.threads, t.place = .ended ∨ t.place = .done

/-! ### Steps -/

/-- What a thread may do. -/
inductive Step (sn : Int) (atn : Nat) (s : Shared) : Thread → Act → Thread → Prop
  | count {c : Caller} : Step sn atn s ⟨.count, c⟩ .count ⟨.acquire, c⟩
  | leave {c : Caller} : Step sn atn s ⟨.leave, c⟩ .ends ⟨.ended, c⟩
  | awaitOn {c : Caller} : s.ac.toInt < atn → Step sn atn s ⟨.await, c⟩ .look ⟨.await, c⟩
  | awaitOver {c : Caller} : ¬s.ac.toInt < atn → Step sn atn s ⟨.await, c⟩ .look ⟨.loop 0, c⟩
  | loopOn {i : Nat} {c : Caller} : (i : Int) < atn - sn → Step sn atn s ⟨.loop i, c⟩ .look ⟨.release i, c⟩
  | loopOver {i : Nat} {c : Caller} : ¬(i : Int) < atn - sn → Step sn atn s ⟨.loop i, c⟩ .look ⟨.join, c⟩
  | join {c : Caller} : s.ended = atn → Step sn atn s ⟨.join, c⟩ .look ⟨.done, c⟩
  | acquireCall {log : List Semaphore.Act} :
      Step sn atn s ⟨.acquire, ⟨none, log⟩⟩ (.run (.sem .look)) ⟨.acquire, ⟨some .acquireLoad, []⟩⟩
  | acquire {p p' : Pc} {a : Semaphore.Act} {log : List Semaphore.Act} : Semaphore.Step sn s.run.sem p a p' →
      Step sn atn s ⟨.acquire, ⟨some p, log⟩⟩ (.run (.sem a)) ⟨.acquire, ⟨some p', log ++ a.effect⟩⟩
  | acquireReturns {p : Pc} {log : List Semaphore.Act} : p.returned = true →
      Step sn atn s ⟨.acquire, ⟨some p, log⟩⟩ (.run (.returns p)) ⟨.leave, ⟨none, log⟩⟩
  | releaseCall {i : Nat} {log : List Semaphore.Act} :
      Step sn atn s ⟨.release i, ⟨none, log⟩⟩ (.run (.sem .look)) ⟨.release i, ⟨some .releaseLoad, []⟩⟩
  | release {i : Nat} {p p' : Pc} {a : Semaphore.Act} {log : List Semaphore.Act} :
      Semaphore.Step sn s.run.sem p a p' →
      Step sn atn s ⟨.release i, ⟨some p, log⟩⟩ (.run (.sem a)) ⟨.release i, ⟨some p', log ++ a.effect⟩⟩
  | releaseDone {i : Nat} {log : List Semaphore.Act} :
      Step sn atn s ⟨.release i, ⟨some (.releaseReturns true), log⟩⟩ (.run (.returns (.releaseReturns true)))
        ⟨.loop (i + 1), ⟨none, log⟩⟩
  | releaseAgain {i : Nat} {p : Pc} {log : List Semaphore.Act} : p.returned = true → p ≠ .releaseReturns true →
      Step sn atn s ⟨.release i, ⟨some p, log⟩⟩ (.run (.returns p)) ⟨.release i, ⟨none, log⟩⟩

section Steps
variable {sn : Int} {atn : Nat} {s : Shared} {t t' : Thread} {x : Choice} {a : Act}

/-- A step of a caller that is in a call. -/
theorem call_cases {r : Run} {p : Pc} {log : List Semaphore.Act} {a : RunAct} {c : Caller}
    (h : Caller.step sn r ⟨some p, log⟩ (.step x) = some (a, c)) :
    p.returned = true ∧ a = .returns p ∧ c = ⟨none, log⟩ ∨
      p.returned = false ∧ ∃ b p', p.step sn r.sem x = some (b, p') ∧ a = .sem b ∧ c = ⟨some p', log ++ b.effect⟩ := by
  simp only [Caller.step] at h
  by_cases hret : p.returned = true
  · rw [if_pos hret] at h
    cases h
    exact .inl ⟨hret, rfl, rfl⟩
  · rw [if_neg hret] at h
    obtain ⟨⟨b, p'⟩, hp, h⟩ := Option.map_eq_some_iff.mp h
    cases h
    exact .inr ⟨Bool.eq_false_of_not_eq_true hret, b, p', hp, rfl, rfl⟩

theorem Thread.step_cases (hb : s.run.sem.Bounded sn) (hf : ∀ p, t.caller.pc = some p → p.Fits sn)
    (h : t.step sn atn s x = some (a, t')) : Step sn atn s t a t' := by
  obtain ⟨place, pc, log⟩ := t
  cases place with
  | count =>
    cases h
    exact .count
  | leave =>
    cases h
    exact .leave
  | ended | done => cases h
  | await =>
    cases h
    by_cases hac : s.ac.toInt < atn
    · rw [if_pos hac]
      exact .awaitOn hac
    · rw [if_neg hac]
      exact .awaitOver hac
  | loop i =>
    cases h
    by_cases hi : (i : Int) < atn - sn
    · rw [if_pos hi]
      exact .loopOn hi
    · rw [if_neg hi]
      exact .loopOver hi
  | join =>
    obtain ⟨hended, h⟩ := Option.ite_none_right_eq_some.mp h
    cases h
    exact .join hended
  | acquire =>
    cases pc with
    | none =>
      cases h
      exact .acquireCall
    | some p =>
      obtain ⟨⟨a, c⟩, hc, h⟩ := Option.map_eq_some_iff.mp h
      cases h
      rcases call_cases hc with ⟨hret, rfl, rfl⟩ | ⟨hret, b, p', hp, rfl, rfl⟩
      · rw [if_pos hret]
        exact .acquireReturns hret
      · rw [if_neg (by rw [hret]; exact Bool.false_ne_true)]
        exact .acquire (Pc.step_cases hb (hf p rfl) hp)
  | release i =>
    cases pc with
    | none =>
      cases h
      exact .releaseCall
    | some p =>
      obtain ⟨⟨a, c⟩, hc, h⟩ := Option.map_eq_some_iff.mp h
      cases h
      rcases call_cases hc with ⟨hret, rfl, rfl⟩ | ⟨hret, b, p', hp, rfl, rfl⟩
      · rw [if_pos hret]
        by_cases hp : p = .releaseReturns true
        · subst hp
          exact .releaseDone
        · simp only [if_neg hp]
          exact .releaseAgain hret hp
      · rw [if_neg (by rw [hret]; exact Bool.false_ne_true)]
        exact .release (Pc.step_cases hb (hf p rfl) hp)

end Steps

/-! ### The semaphore under the test -/

/-- What the semaphore sees of the test. -/
def view (s : State) : Semaphore.State := s.view Shared.run Thread.caller

section View
variable {sn : Int} {atn : Nat} {ac : Int32} {s : State}

theorem reachable_replicate (capacity : Int) (k : Nat) :
    Semaphore.Reachable capacity ⟨.init capacity, .replicate k ⟨none, []⟩⟩ := by
  induction k with
  | zero => exact .start
  | succ k ih =>
    rw [List.replicate_succ']
    exact .enter (k := ()) ih rfl trivial

theorem Thread.step_follows {s : Shared} {t t' : Thread} {x : Choice} {a : Act} (h : t.step sn atn s x = some (a, t')) :
    Follows (machine sn atn) (Semaphore.machine sn) Shared.run Thread.caller s t a t' := by
  have hcall : ∀ {enter : Input} {after : Pc → Place}, t.call sn s enter x after = some (a, t') →
      Follows (machine sn atn) (Semaphore.machine sn) Shared.run Thread.caller s t a t' := by
    intro enter after h
    unfold Thread.call at h
    cases hpc : t.caller.pc with
    | none =>
      rw [hpc] at h
      obtain ⟨⟨b, c⟩, hc, h⟩ := Option.map_eq_some_iff.mp h
      cases h
      exact .inr ⟨enter, b, rfl, hc, rfl⟩
    | some p =>
      rw [hpc] at h
      obtain ⟨⟨b, c⟩, hc, h⟩ := Option.map_eq_some_iff.mp h
      cases h
      exact .inr ⟨.step x, b, rfl, hc, rfl⟩
  unfold Thread.step at h
  cases hplace : t.place with
  | acquire | release i =>
    rw [hplace] at h
    exact hcall h
  | count | leave | await | loop i =>
    rw [hplace] at h
    cases h
    exact .inl ⟨rfl, rfl⟩
  | join =>
    rw [hplace] at h
    obtain ⟨-, h⟩ := Option.ite_none_right_eq_some.mp h
    cases h
    exact .inl ⟨rfl, rfl⟩
  | ended | done =>
    rw [hplace] at h
    cases h

/-- The threads of the test use the semaphore as any callers may. -/
theorem view_reachable (h : Reachable sn atn ac s) : Semaphore.Reachable sn (view s) := by
  refine Reach.view ?_ (fun s t x a t' hs => Thread.step_follows hs) (fun k _ _ => k.elim) h
  have hstart : (⟨.init sn ac, threads atn⟩ : State).view Shared.run Thread.caller =
      ⟨.init sn, .replicate (atn + 1) ⟨none, []⟩⟩ := by
    simp [Config.view, threads, Shared.init, List.replicate_succ]
  rw [hstart]
  exact reachable_replicate sn (atn + 1)

theorem view_weight (f : Caller → Nat) (s : State) : (view s).weight f = s.weight fun t => f t.caller := by
  simp [view, Config.view, Config.weight, List.map_map, Function.comp_def]

theorem mem_view {t : Thread} (h : t ∈ s.threads) : t.caller ∈ (view s).threads := List.mem_map_of_mem h

end View

/-! ### The books of the test -/

/-- The permits that are to be given back. -/
def releases (sn : Int) (atn : Nat) : Nat := (atn - sn).toNat

namespace Thread

/-- The thread is where its caller can be. -/
def Sound (sn : Int) (atn : Nat) (t : Thread) : Prop :=
  match t.place with
  | .acquire => ∀ p, t.caller.pc = some p → p.inRelease = false
  | .loop i => t.caller.pc = none ∧ i ≤ releases sn atn
  | .release i => i < releases sn atn ∧ ∀ p, t.caller.pc = some p → p.inRelease = true
  | _ => t.caller.pc = none

/-- The thread is about to count. -/
def isCounting (t : Thread) : Nat := if t.place = .count then 1 else 0

/-- The thread has come to its end. -/
def isEnded (t : Thread) : Nat := if t.place = .ended then 1 else 0

/-- The thread has returned from `acquire`. -/
def hasAcquired (t : Thread) : Nat := if t.place = .leave ∨ t.place = .ended then 1 else 0

/-- The thread has been started and has not ended. -/
def isUnderWay (t : Thread) : Nat := if t.place = .count ∨ t.place = .acquire ∨ t.place = .leave then 1 else 0

/-- The thread is the one that has called `TestB`. -/
def isMain (t : Thread) : Nat := if t.isUnderWay + t.isEnded = 0 then 1 else 0

/-- How many permits the thread has given. -/
def given (sn : Int) (atn : Nat) (t : Thread) : Nat :=
  match t.place with
  | .loop i => i
  | .release i => i + t.caller.count Pc.given
  | .join | .done => releases sn atn
  | _ => 0

end Thread

/-- What holds of the test in every state. -/
structure Inv (sn : Int) (atn : Nat) (ac : Int32) (s : State) : Prop where
  sound : ∀ t ∈ s.threads, t.Sound sn atn
  main : s.weight Thread.isMain = 1
  started : s.weight Thread.isUnderWay + s.weight Thread.isEnded = atn
  ended : s.shared.ended = s.weight Thread.isEnded
  acquired : s.shared.run.acquired = s.weight Thread.hasAcquired
  gives : s.shared.run.gives = s.weight (Thread.given sn atn)
  counted : s.shared.ac.toInt = (ac.toInt + atn - s.weight Thread.isCounting).bmod (2 ^ 32)

section Inv
variable {sn : Int} {atn i : Nat} {ac : Int32} {s : State} {t t' : Thread} {a : Act}

theorem Step.sound (h : t.Sound sn atn) (hs : Step sn atn s.shared t a t') : t'.Sound sn atn := by
  cases hs with
  | count =>
    intro p hp
    cases (h : _ = none).symm.trans hp
  | leave | awaitOn _ | join _ => exact h
  | awaitOver _ => exact ⟨h, Nat.zero_le _⟩
  | @loopOn i c hi =>
    refine ⟨?_, fun p hp => by cases h.1.symm.trans hp⟩
    unfold releases
    omega
  | loopOver _ => exact h.1
  | acquireCall =>
    intro p hp
    cases hp
    rfl
  | acquire hp =>
    intro p' hp'
    cases hp'
    exact hp.inRelease.trans (h _ rfl)
  | acquireReturns _ => rfl
  | releaseCall =>
    refine ⟨h.1, fun p hp => ?_⟩
    cases hp
    rfl
  | release hp =>
    refine ⟨h.1, fun p' hp' => ?_⟩
    cases hp'
    exact hp.inRelease.trans (h.2 _ rfl)
  | releaseDone => exact ⟨rfl, h.1⟩
  | releaseAgain _ _ =>
    refine ⟨h.1, fun p hp => ?_⟩
    cases hp

/-- What a step changes of the books. -/
theorem Step.books (h : t.Sound sn atn) (hs : Step sn atn s.shared t a t') :
    t'.isUnderWay + t'.isEnded = t.isUnderWay + t.isEnded ∧
      (a.apply s.shared).ended + t.isEnded = s.shared.ended + t'.isEnded ∧
      (a.apply s.shared).run.acquired + t.hasAcquired = s.shared.run.acquired + t'.hasAcquired ∧
      (a.apply s.shared).run.gives + t.given sn atn = s.shared.run.gives + t'.given sn atn := by
  cases hs with
  | count | leave | awaitOn _ | awaitOver _ | join _ | acquireCall | releaseCall | releaseDone =>
    exact ⟨rfl, rfl, rfl, rfl⟩
  | @loopOn i c _ =>
    have hpc : c.pc = none := h.1
    refine ⟨rfl, rfl, rfl, ?_⟩
    simp [Act.apply, Thread.given, Caller.count, hpc]
  | @loopOver i c hi =>
    have hn : i = releases sn atn := by
      have := h.2
      unfold releases at this ⊢
      omega
    refine ⟨rfl, rfl, rfl, ?_⟩
    show s.shared.run.gives + i = s.shared.run.gives + releases sn atn
    rw [hn]
  | @acquire p p' a log hp =>
    have hgive : a ≠ .give := by
      rintro rfl
      cases hp with
      | give _ => cases h _ rfl
    refine ⟨rfl, rfl, rfl, ?_⟩
    simp [Act.apply, RunAct.apply, hgive, Thread.given]
  | @acquireReturns p log hret =>
    have hp : p = .acquireReturns := by
      cases p with
      | acquireReturns => rfl
      | releaseReturns _ => cases h _ rfl
      | _ => cases hret
    subst hp
    exact ⟨rfl, rfl, rfl, rfl⟩
  | @release i p p' a log hp =>
    refine ⟨rfl, rfl, rfl, ?_⟩
    have hgiven := hp.given
    simp only [Act.apply, RunAct.apply, Thread.given, Caller.count, Option.elim_some]
    omega
  | @releaseAgain i p log hret hp =>
    have hp : p = .releaseReturns false := by
      cases p with
      | acquireReturns => cases h.2 _ rfl
      | releaseReturns result =>
        cases result with
        | true => exact absurd rfl hp
        | false => rfl
      | _ => cases hret
    subst hp
    exact ⟨rfl, rfl, rfl, rfl⟩

/-- The first thing a thread does is to count in `ac`. -/
theorem Step.counts (hs : Step sn atn s.shared t a t') :
    (a.apply s.shared).ac = s.shared.ac ∧ t'.isCounting = t.isCounting ∨
      (a.apply s.shared).ac = s.shared.ac + 1 ∧ t'.isCounting + 1 = t.isCounting := by
  cases hs with
  | count => exact .inr ⟨rfl, rfl⟩
  | _ => exact .inl ⟨rfl, rfl⟩

theorem Inv.start (sn : Int) (atn : Nat) (ac : Int32) : Inv sn atn ac ⟨.init sn ac, threads atn⟩ := by
  have hweight : ∀ f : Thread → Nat, Config.weight f (⟨.init sn ac, threads atn⟩ : State) =
      f { place := .await } + atn * f { place := .count } := by
    intro f
    simp [Config.weight, threads, List.map_replicate, List.sum_replicate]
  refine ⟨?_, ?_, ?_, ?_, ?_, ?_, ?_⟩
  · intro t ht
    rcases List.mem_cons.mp ht with rfl | ht
    · rfl
    · rw [List.eq_of_mem_replicate ht]
      rfl
  all_goals rw [hweight]
  · simp [Thread.isMain, Thread.isUnderWay, Thread.isEnded]
  · rw [hweight]
    simp [Thread.isUnderWay, Thread.isEnded]
  · simp [Thread.isEnded, Shared.init]
  · simp [Thread.hasAcquired, Shared.init, Run.init]
  · simp [Thread.given, Shared.init, Run.init]
  · simp [Thread.isCounting, Shared.init]

theorem Inv.run (h : Inv sn atn ac s) (hi : s.threads[i]? = some t) (hs : Step sn atn s.shared t a t') :
    Inv sn atn ac ⟨a.apply s.shared, s.threads.set i t'⟩ := by
  have ht := h.sound t (List.mem_of_getElem? hi)
  have hrun := fun f => Config.weight_run (s := s) f (a.apply s.shared) t' hi
  obtain ⟨hplace, hended, hacquired, hgives⟩ := hs.books ht
  obtain ⟨hsound, hmain, hstarted, hended', hacquired', hgives', hcounted⟩ := h
  have hmain' : t'.isMain = t.isMain := by rw [Thread.isMain, hplace, ← Thread.isMain]
  refine ⟨?_, ?_, ?_, ?_, ?_, ?_, ?_⟩
  · intro u hu
    rcases eq_or_of_mem_set hu with rfl | ⟨j, -, hj⟩
    · exact hs.sound ht
    · exact hsound u (List.mem_of_getElem? hj)
  · have := hrun Thread.isMain
    omega
  · have := hrun Thread.isUnderWay
    have := hrun Thread.isEnded
    omega
  · have := hrun Thread.isEnded
    simp only
    omega
  · have := hrun Thread.hasAcquired
    simp only
    omega
  · have := hrun (Thread.given sn atn)
    simp only
    omega
  · have hweight := hrun Thread.isCounting
    rcases hs.counts with ⟨hac, ht⟩ | ⟨hac, ht⟩
    · rw [ht] at hweight
      rw [hac, hcounted, Nat.add_right_cancel hweight]
    · have hone : (1 : Int32).toInt = 1 := rfl
      rw [hac, Int32.toInt_add, hcounted, hone, Int.bmod_add_bmod]
      congr 1
      omega

theorem Inv.exists_main (h : Inv sn atn ac s) : ∃ t ∈ s.threads, t.isMain = 1 := by
  have hmain := h.main
  obtain ⟨t, ht, hpos⟩ := Config.weight_pos.mp (Nat.lt_of_lt_of_eq Nat.zero_lt_one hmain.symm)
  have hle := Config.le_weight (f := Thread.isMain) ht
  exact ⟨t, ht, by omega⟩

/-- No more permits are given back than are to be. -/
theorem Inv.gives_le (h : Inv sn atn ac s) : s.shared.run.gives ≤ releases sn atn := by
  have hle : ∀ t ∈ s.threads, t.given sn atn ≤ releases sn atn * t.isMain := by
    intro t ht
    have hsound := h.sound t ht
    obtain ⟨place, c⟩ := t
    cases place with
    | loop i => exact (Nat.mul_one _).symm ▸ hsound.2
    | release i =>
      have hlt : i < releases sn atn := hsound.1
      have hone := c.given_le_one
      show i + c.count Pc.given ≤ releases sn atn * 1
      omega
    | join | done => exact (Nat.mul_one _).symm ▸ le_refl _
    | _ => exact Nat.zero_le _
  calc s.shared.run.gives
    _ = s.weight (Thread.given sn atn) := h.gives
    _ ≤ (s.threads.map fun t => releases sn atn * t.isMain).sum := List.sum_le_sum hle
    _ = releases sn atn * s.weight Thread.isMain := List.sum_map_mul_left ..
    _ = releases sn atn := by rw [h.main, Nat.mul_one]

theorem inv (hsn : 0 ≤ sn) (h : Reachable sn atn ac s) : Inv sn atn ac s := by
  induction h with
  | start => exact .start sn atn ac
  | run hr _ hi hs _ ih =>
    have hledger := ledger hsn (view_reachable hr)
    have ht := mem_view (List.mem_of_getElem? hi)
    exact ih.run hi (Thread.step_cases hledger.bounded (hledger.fits _ ht) hs)
  | @enter _ k _ _ _ _ _ => exact k.elim

end Inv
end TestB
end Semaphore
