import Mathlib

/-! # Sequences of calls

A component that is called again and again, one call at a time: `step s a` is the state after the call `a`, `none`
when the component does not survive the call. What holds along a whole sequence is said call by call, in the state
in which the call is made (`Each`), so that a property of the calls of a sequence and a condition on them can be
compared where they occur (`each_iff_each`). -/

namespace Execution

variable {σ α : Type} {step : σ → α → Option σ}

/-- The state after a sequence of calls. -/
def run (step : σ → α → Option σ) : σ → List α → Option σ
  | s, [] => some s
  | s, a :: as => (step s a).bind (run step · as)

/-- Every call of the sequence that is made, in the state it is made in. -/
def Each (step : σ → α → Option σ) (R : σ → α → Prop) (s : σ) (as : List α) : Prop :=
  ∀ pre a post t, as = pre ++ a :: post → run step s pre = some t → R t a

theorem run_append {s : σ} {as bs : List α} : run step s (as ++ bs) = (run step s as).bind (run step · bs) := by
  induction as generalizing s with
  | nil => rfl
  | cons a as ih =>
    cases hu : step s a with
    | none => simp [run, hu]
    | some u => simp [run, hu, ih]

/-- What every call keeps holds after every sequence of calls. -/
theorem run_inv {I : σ → Prop} (hstep : ∀ s a t, I s → step s a = some t → I t) {s t : σ} {as : List α} (hs : I s)
    (h : run step s as = some t) : I t := by
  induction as generalizing s with
  | nil =>
    cases h
    exact hs
  | cons a as ih =>
    obtain ⟨u, hu, hr⟩ := Option.bind_eq_some_iff.mp h
    exact ih (hstep s a u hs hu) hr

theorem each_nil {R : σ → α → Prop} {s : σ} : Each step R s [] := by
  intro pre a post t h
  simp at h

theorem each_cons {R : σ → α → Prop} {s : σ} {a : α} {as : List α} :
    Each step R s (a :: as) ↔ R s a ∧ ∀ t, step s a = some t → Each step R t as := by
  constructor
  · intro h
    refine ⟨h [] a as s rfl rfl, fun t ht pre b post u has hu => ?_⟩
    refine h (a :: pre) b post u (by rw [has, List.cons_append]) ?_
    rw [run, ht, Option.bind_some, hu]
  · rintro ⟨ha, has⟩ pre b post u h hu
    cases pre with
    | nil =>
      obtain ⟨rfl, -⟩ := List.cons_eq_cons.mp h
      cases hu
      exact ha
    | cons c pre =>
      obtain ⟨rfl, rfl⟩ := List.cons_eq_cons.mp h
      obtain ⟨t, ht, hr⟩ := Option.bind_eq_some_iff.mp hu
      exact has t ht pre b post u rfl hr

theorem each_append {R : σ → α → Prop} {s : σ} {as bs : List α} :
    Each step R s (as ++ bs) ↔ Each step R s as ∧ ∀ t, run step s as = some t → Each step R t bs := by
  induction as generalizing s with
  | nil => simp [each_nil, run]
  | cons a as ih =>
    rw [List.cons_append, each_cons, each_cons, and_assoc]
    refine and_congr_right fun _ => ?_
    cases hu : step s a with
    | none => simp [run, hu]
    | some u => simp [run, hu, ih]

theorem Each.mono {R R' : σ → α → Prop} {s : σ} {as : List α} (h : Each step R s as)
    (hmono : ∀ s a, R s a → R' s a) : Each step R' s as :=
  fun pre a post t has hrun => hmono t a (h pre a post t has hrun)

instance {R : σ → α → Prop} [∀ s a, Decidable (R s a)] : ∀ (s : σ) (as : List α), Decidable (Each step R s as)
  | _, [] => isTrue each_nil
  | s, a :: as =>
    have : ∀ t, Decidable (Each step R t as) := fun t => instDecidableEach t as
    decidable_of_iff (R s a ∧ ∀ t ∈ step s a, Each step R t as) each_cons.symm

/-- What every call of a sequence leads to holds after the last one. -/
theorem Each.last {P : σ → Prop} {s t : σ} {as : List α} (h : Each step (fun s a => ∀ t, step s a = some t → P t) s as)
    (hne : as ≠ []) (hrun : run step s as = some t) : P t := by
  rw [← List.dropLast_concat_getLast hne, run_append] at hrun
  obtain ⟨u, hu, hrun⟩ := Option.bind_eq_some_iff.mp hrun
  obtain ⟨v, hv, hlast⟩ := Option.bind_eq_some_iff.mp hrun
  cases hlast
  exact h _ _ [] u (List.dropLast_concat_getLast hne).symm hu t hv

/-- A property of calls and a condition on them hold along the same sequences, when they agree in the states that
    calls under the condition lead to. -/
theorem each_iff_each {I : σ → Prop} {A R C : σ → α → Prop}
    (hkeep : ∀ s a t, I s → A s a → C s a → step s a = some t → I t) (hiff : ∀ s a, I s → A s a → (R s a ↔ C s a))
    {s : σ} {as : List α} (hs : I s) (hA : Each step A s as) : Each step R s as ↔ Each step C s as := by
  induction as generalizing s with
  | nil => exact ⟨fun _ => each_nil, fun _ => each_nil⟩
  | cons a as ih =>
    obtain ⟨ha, hrest⟩ := each_cons.mp hA
    rw [each_cons, each_cons, hiff s a hs ha]
    refine and_congr_right fun hc => ?_
    exact forall₂_congr fun t ht => ih (hkeep s a t hs ha hc ht) (hrest t ht)

end Execution
