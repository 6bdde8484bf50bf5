import Mathlib

/-! # What cannot be avoided

A system with a choice at each step. Of the steps that it may take there are some that it takes if it takes no other
(`must`); the rest, such as what comes from outside, may fail to come. `Inevitable must step Q s` says that `Q` comes
about from `s` whatever is chosen: no run goes on for ever without it, and none gets stuck before it. The rule for it
takes an invariant, a measure that each step lowers, and that a state in which nothing has to be done is one of `Q`. -/

/-- From here every run gets to `Q`. -/
inductive Inevitable {σ : Type} (must step : σ → σ → Prop) (Q : σ → Prop) : σ → Prop
  | now {s : σ} : Q s → Inevitable must step Q s
  | later {s : σ} : (∃ s', must s s') → (∀ s', step s s' → Inevitable must step Q s') → Inevitable must step Q s

namespace Inevitable
variable {σ : Type} {must step : σ → σ → Prop} {Q I : σ → Prop} {s : σ}

theorem of_measure (μ : σ → Nat) (hstep : ∀ s s', I s → step s s' → I s' ∧ μ s' < μ s)
    (hstuck : ∀ s, I s → (∀ s', ¬must s s') → Q s) (hs : I s) : Inevitable must step Q s := by
  induction hn : μ s using Nat.strong_induction_on generalizing s with
  | _ n ih =>
    subst hn
    by_cases hgo : ∃ s', must s s'
    · refine .later hgo fun s' hs' => ?_
      obtain ⟨hI, hlt⟩ := hstep s s' hs hs'
      exact ih (μ s') hlt hI rfl
    · exact .now (hstuck s hs (not_exists.mp hgo))

theorem mono {Q' : σ → Prop} (h : Inevitable must step Q s) (hQ : ∀ s, Q s → Q' s) : Inevitable must step Q' s := by
  induction h with
  | now hq => exact .now (hQ _ hq)
  | later hgo _ ih => exact .later hgo ih

/-- There is a state of `Q` with what the steps keep. -/
theorem exists_of_inv (h : Inevitable must step Q s) (hmust : ∀ s s', must s s' → step s s')
    (hstep : ∀ s s', I s → step s s' → I s') (hs : I s) : ∃ s', I s' ∧ Q s' := by
  induction h with
  | now hq => exact ⟨_, hs, hq⟩
  | later hgo _ ih =>
    obtain ⟨s', hs'⟩ := hgo
    have hs' := hmust _ s' hs'
    exact ih s' hs' (hstep _ s' hs hs')

end Inevitable
