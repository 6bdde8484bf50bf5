import CppProgramming.Lib.Inevitable

/-! # Critical sections

Threads that do jobs one after the other. A job that passes takes the mutex, does its actions one at a time and gives
the mutex back; one that does not pass is left out. Whatever the threads do first, the actions come out as if the jobs
had been done in one go, in the order in which they took the mutex, and that order has the jobs of each thread in turn
(`Serial`). No thread waits for ever (`inevitable_complete`). -/

namespace CriticalSection

variable {ι J A : Type}

/-- What the jobs are. -/
structure Program (J A : Type) where
  passes : J → Bool
  actions : J → List A

/-- Where a thread is: between two jobs, before the mutex, or behind it with the actions that are left. -/
inductive Stage (A : Type) where
  | outside
  | waits
  | inside (rest : List A)

/-- The jobs of a thread, the one that it waits with included. -/
structure Thread (J A : Type) where
  jobs : List J
  stage : Stage A := .outside

/-- The threads and the owner of the mutex. The actions that have been done and the jobs that have taken the mutex are
    history. -/
structure State (ι J A : Type) where
  thread : ι → Thread J A
  owner : Option ι := none
  done : List A := []
  order : List (ι × J) := []

/-- Before anything is done. -/
def start (jobs : ι → List J) : State ι J A where
  thread i := ⟨jobs i, .outside⟩

variable [DecidableEq ι]

/-- The thread `i` is now `t`. -/
def State.set (s : State ι J A) (i : ι) (t : Thread J A) : State ι J A := { s with thread := Function.update s.thread i t }

/-- A step of one of the threads. -/
inductive Step (P : Program J A) : State ι J A → State ι J A → Prop
  | skip {s : State ι J A} {i : ι} {j : J} {jobs : List J} : s.thread i = ⟨j :: jobs, .outside⟩ → P.passes j = false →
      Step P s (s.set i ⟨jobs, .outside⟩)
  | pass {s : State ι J A} {i : ι} {j : J} {jobs : List J} : s.thread i = ⟨j :: jobs, .outside⟩ → P.passes j = true →
      Step P s (s.set i ⟨j :: jobs, .waits⟩)
  | lock {s : State ι J A} {i : ι} {j : J} {jobs : List J} : s.thread i = ⟨j :: jobs, .waits⟩ → s.owner = none →
      Step P s { s.set i ⟨jobs, .inside (P.actions j)⟩ with owner := some i, order := s.order ++ [(i, j)] }
  | act {s : State ι J A} {i : ι} {jobs : List J} {a : A} {rest : List A} :
      s.thread i = ⟨jobs, .inside (a :: rest)⟩ → Step P s { s.set i ⟨jobs, .inside rest⟩ with done := s.done ++ [a] }
  | unlock {s : State ι J A} {i : ι} {jobs : List J} : s.thread i = ⟨jobs, .inside []⟩ →
      Step P s { s.set i ⟨jobs, .outside⟩ with owner := none }

/-- The states that are reached from `jobs`. -/
inductive Reach (P : Program J A) (jobs : ι → List J) : State ι J A → Prop
  | start : Reach P jobs (start jobs)
  | step {s s' : State ι J A} : Reach P jobs s → Step P s s' → Reach P jobs s'

/-- The jobs of a thread that have taken the mutex. -/
def jobsOf (i : ι) (order : List (ι × J)) : List J := (order.filter (·.1 = i)).map Prod.snd

/-- The actions of the jobs, each in one go. -/
def serially (P : Program J A) (order : List (ι × J)) : List A := order.flatMap fun job => P.actions job.2

/-- What holds of the thread `i`, whose jobs are `all`. -/
structure Own (P : Program J A) (all : List J) (owner : Option ι) (order : List (ι × J)) (i : ι) (t : Thread J A) :
    Prop where
  inside : ∀ rest, t.stage = .inside rest → owner = some i
  waits : t.stage = .waits → ∃ j rest, t.jobs = j :: rest ∧ P.passes j = true
  jobs : jobsOf i order ++ t.jobs.filter P.passes = all.filter P.passes

/-- The job that has taken the mutex has done the last ones of the actions. -/
def Held (P : Program J A) (s : State ι J A) (i : ι) : Prop :=
  ∃ before j did rest, s.order = before ++ [(i, j)] ∧ (s.thread i).stage = .inside rest ∧ P.actions j = did ++ rest ∧
    s.done = serially P before ++ did

/-- What holds at every step. -/
structure Serial (P : Program J A) (jobs : ι → List J) (s : State ι J A) : Prop where
  free : s.owner = none → s.done = serially P s.order
  held : ∀ i, s.owner = some i → Held P s i
  own : ∀ i, Own P (jobs i) s.owner s.order i (s.thread i)

section Serial
variable {P : Program J A} {jobs : ι → List J} {s s' : State ι J A} {i k : ι} {t : Thread J A}

theorem set_thread_self (s : State ι J A) (i : ι) (t : Thread J A) : (s.set i t).thread i = t :=
  Function.update_self ..

theorem set_thread_of_ne (h : k ≠ i) (s : State ι J A) (t : Thread J A) : (s.set i t).thread k = s.thread k :=
  Function.update_of_ne h ..

theorem forall_set {p : ι → Thread J A → Prop} (hi : p i t) (hothers : ∀ k, k ≠ i → p k (s.thread k)) (k : ι) :
    p k ((s.set i t).thread k) := by
  by_cases hk : k = i
  · subst hk
    rw [set_thread_self]
    exact hi
  · rw [set_thread_of_ne hk]
    exact hothers k hk

theorem jobsOf_concat (k i : ι) (order : List (ι × J)) (j : J) :
    jobsOf k (order ++ [(i, j)]) = jobsOf k order ++ if i = k then [j] else [] := by
  rw [jobsOf, List.filter_append, List.map_append]
  by_cases h : i = k <;> simp [jobsOf, h]

omit [DecidableEq ι] in
theorem serially_concat (P : Program J A) (order : List (ι × J)) (i : ι) (j : J) :
    serially P (order ++ [(i, j)]) = serially P order ++ P.actions j := by
  simp [serially]

theorem own_outside {all left : List J} {owner : Option ι} {order : List (ι × J)}
    (h : jobsOf i order ++ left.filter P.passes = all.filter P.passes) : Own P all owner order i ⟨left, .outside⟩ :=
  ⟨fun _ hin => (by cases hin), fun hw => (by cases hw), h⟩

theorem own_inside {all left : List J} {rest : List A} {owner : Option ι} {order : List (ι × J)} (howner : owner = some i)
    (h : jobsOf i order ++ left.filter P.passes = all.filter P.passes) :
    Own P all owner order i ⟨left, .inside rest⟩ :=
  ⟨fun _ _ => howner, fun hw => (by cases hw), h⟩

/-- Only the owner of the mutex is behind it. -/
theorem Serial.not_inside (h : Serial P jobs s) (howner : s.owner = some i) (hk : k ≠ i) (rest : List A) :
    (s.thread k).stage ≠ .inside rest := fun hin =>
  hk (Option.some.inj (((h.own k).inside rest hin).symm.trans howner))

/-- A step of a thread that does not have the mutex and does not take it. -/
theorem Serial.set_outside (h : Serial P jobs s) (hold : ∀ rest, (s.thread i).stage ≠ .inside rest)
    (ht : Own P (jobs i) s.owner s.order i t) : Serial P jobs (s.set i t) := by
  refine ⟨h.free, fun k hk => ?_, forall_set ht fun k _ => h.own k⟩
  obtain ⟨before, j, did, rest, horder, hin, hrest⟩ := h.held k hk
  have hne : k ≠ i := fun heq => hold rest (heq ▸ hin)
  refine ⟨before, j, did, rest, horder, ?_, hrest⟩
  rw [set_thread_of_ne hne]
  exact hin

theorem Serial.step (h : Serial P jobs s) (hs : Step P s s') : Serial P jobs s' := by
  cases hs with
  | @skip i j rest hi hpass =>
    have hown := h.own i
    rw [hi] at hown
    refine h.set_outside (fun rest hin => ?_) (own_outside ?_)
    · rw [hi] at hin
      cases hin
    · have hjobs := hown.jobs
      rwa [List.filter_cons_of_neg (by simp [hpass])] at hjobs
  | @pass i j rest hi hpass =>
    have hown := h.own i
    rw [hi] at hown
    refine h.set_outside (fun rest hin => ?_) ⟨fun _ hin => ?_, fun _ => ⟨j, rest, rfl, hpass⟩, hown.jobs⟩
    · rw [hi] at hin
      cases hin
    · cases hin
  | @lock i j rest hi hfree =>
    have hown := h.own i
    rw [hi] at hown
    obtain ⟨j', rest', hjobs, hpass⟩ := hown.waits rfl
    cases hjobs
    refine ⟨fun hnone => (by cases hnone), fun k hk => ?_, forall_set (own_inside rfl ?_)
      fun k hk => ⟨fun rest hin => ?_, (h.own k).waits, ?_⟩⟩
    · cases hk
      exact ⟨s.order, j, [], P.actions j, rfl, congrArg Thread.stage (set_thread_self ..), rfl, by
        rw [List.append_nil]
        exact h.free hfree⟩
    · have hjobs := hown.jobs
      rw [List.filter_cons_of_pos hpass] at hjobs
      rw [jobsOf_concat, if_pos rfl, List.append_assoc]
      exact hjobs
    · cases hfree.symm.trans ((h.own k).inside rest hin)
    · rw [jobsOf_concat, if_neg (Ne.symm hk), List.append_nil]
      exact (h.own k).jobs
  | @act i left a rest hi =>
    have hown := h.own i
    rw [hi] at hown
    have howner := hown.inside _ rfl
    refine ⟨fun hnone => ?_, fun k hk => ?_, forall_set (own_inside howner hown.jobs) fun k _ => h.own k⟩
    · cases hnone.symm.trans howner
    · cases howner.symm.trans hk
      obtain ⟨before, j, did, rest', horder, hin, hactions, hdone⟩ := h.held i howner
      rw [hi] at hin
      cases hin
      refine ⟨before, j, did ++ [a], rest, horder, congrArg Thread.stage (set_thread_self ..), ?_, ?_⟩
      · rw [hactions, List.append_assoc]
        rfl
      · rw [← List.append_assoc, ← hdone]
  | @unlock i left hi =>
    have hown := h.own i
    rw [hi] at hown
    have howner := hown.inside _ rfl
    refine ⟨fun _ => ?_, fun k hk => (by cases hk), forall_set (own_outside hown.jobs)
      fun k hk => ⟨fun rest hin => ?_, (h.own k).waits, (h.own k).jobs⟩⟩
    · obtain ⟨before, j, did, rest, horder, hin, hactions, hdone⟩ := h.held i howner
      rw [hi] at hin
      cases hin
      show s.done = serially P s.order
      rw [hdone, horder, serially_concat, hactions, List.append_nil]
    · exact absurd hin (h.not_inside howner hk rest)

theorem Serial.start (P : Program J A) (jobs : ι → List J) : Serial P jobs (start jobs) :=
  ⟨fun _ => rfl, fun _ hi => (by cases hi), fun _ => own_outside rfl⟩

theorem Reach.serial (h : Reach P jobs s) : Serial P jobs s := by
  induction h with
  | start => exact .start P jobs
  | step _ hs ih => exact ih.step hs

end Serial

/-! ### The end -/

/-- All jobs have been done, and the mutex is free. -/
structure Complete (P : Program J A) (jobs : ι → List J) (s : State ι J A) : Prop where
  thread : ∀ i, s.thread i = ⟨[], .outside⟩
  free : s.owner = none
  done : s.done = serially P s.order
  jobs : ∀ i, jobsOf i s.order = (jobs i).filter P.passes

section Complete
variable {P : Program J A} {jobs : ι → List J} {s s' : State ι J A} {i : ι}

/-- What a thread has to do. -/
def Thread.work (P : Program J A) (t : Thread J A) : Nat :=
  (t.jobs.map fun j => (P.actions j).length + 4).sum + match t.stage with
    | .outside => 1
    | .waits => 0
    | .inside rest => rest.length + 2

/-- What all threads have to do. -/
def work [Fintype ι] (P : Program J A) (s : State ι J A) : Nat := ∑ i, (s.thread i).work P

theorem work_set [Fintype ι] {t : Thread J A} (hlt : t.work P < (s.thread i).work P) : work P (s.set i t) < work P s := by
  refine Finset.sum_lt_sum (fun k _ => ?_) ⟨i, Finset.mem_univ i, ?_⟩
  · exact forall_set (p := fun k t => t.work P ≤ (s.thread k).work P) hlt.le (fun k _ => Nat.le_refl _) k
  · rw [set_thread_self]
    exact hlt

theorem work_step [Fintype ι] (hs : Step P s s') : work P s' < work P s := by
  cases hs with
  | skip hi _ | pass hi _ | lock hi _ | act hi | unlock hi =>
    refine work_set ?_
    rw [hi]
    simp only [Thread.work, List.map_cons, List.sum_cons, List.length_cons, List.length_nil]
    omega

/-- When no thread can go on, all of them have got to their end. -/
theorem complete_of_stuck (h : Reach P jobs s) (hstuck : ∀ s', ¬Step P s s') : Complete P jobs s := by
  have hserial := h.serial
  have hfree : s.owner = none := by
    by_contra howned
    obtain ⟨i, howner⟩ := Option.ne_none_iff_exists'.mp howned
    obtain ⟨-, -, -, rest, -, hin, -⟩ := hserial.held i howner
    have hi : s.thread i = ⟨(s.thread i).jobs, .inside rest⟩ := by rw [← hin]
    cases rest with
    | nil => exact hstuck _ (.unlock hi)
    | cons a rest => exact hstuck _ (.act hi)
  have hthread : ∀ i, s.thread i = ⟨[], .outside⟩ := by
    intro i
    have hown := hserial.own i
    generalize hi : s.thread i = t at hown
    obtain ⟨left, stage⟩ := t
    cases stage with
    | inside rest => cases hfree.symm.trans (hown.inside rest rfl)
    | waits =>
      obtain ⟨j, rest, hjobs, -⟩ := hown.waits rfl
      cases hjobs
      exact absurd (.lock hi hfree) (hstuck _)
    | outside =>
      cases left with
      | nil => rfl
      | cons j rest =>
        cases hpass : P.passes j with
        | true => exact absurd (.pass hi hpass) (hstuck _)
        | false => exact absurd (.skip hi hpass) (hstuck _)
  refine ⟨hthread, hfree, hserial.free hfree, fun i => ?_⟩
  have hjobs := (hserial.own i).jobs
  rw [hthread i] at hjobs
  simpa using hjobs

/-- Every run gets to the end. -/
theorem inevitable_complete [Fintype ι] (P : Program J A) (jobs : ι → List J) :
    Inevitable (Step P) (Step P) (Complete P jobs) (start jobs) :=
  Inevitable.of_measure (work P) (fun _ _ h hs => ⟨Reach.step h hs, work_step hs⟩)
    (fun _ h hstuck => complete_of_stuck h hstuck) Reach.start

end Complete
end CriticalSection
