import CppProgramming.Lib.Interleaving

/-! # Getting ahead

A system that is free to go on for ever may still be able, from wherever it is, to get to its end: there is always a run
that brings a measure down. -/

namespace Interleaving

variable {σ τ χ α κ β : Type}

/-- If as long as `Q` does not hold some run lowers the measure, then a run gets to `Q`. -/
theorem Reach.exists_of_measure [LT β] [WellFoundedLT β] {M : Machine σ τ χ α κ} {rule : Rule σ τ α κ}
    {I Q : Config σ τ → Prop} {s : Config σ τ} (μ : Config σ τ → β)
    (hlower : ∀ s, I s → ¬Q s → ∃ s', Reach M rule s s' ∧ I s' ∧ μ s' < μ s) (hs : I s) :
    ∃ s', Reach M rule s s' ∧ I s' ∧ Q s' := by
  induction hn : μ s using WellFoundedLT.induction generalizing s with
  | _ n ih =>
    subst hn
    by_cases hQ : Q s
    · exact ⟨s, .start, hs, hQ⟩
    · obtain ⟨s', hreach, hI, hlt⟩ := hlower s hs hQ
      obtain ⟨t, hreach', ht⟩ := ih (μ s') hlt hI rfl
      exact ⟨t, hreach.trans hreach', ht⟩

/-- A weight that depends on the shared state, after a step that is none of the others' business. -/
theorem Config.weight_lt_of_others {f f' : τ → Nat} {s : Config σ τ} {i : Nat} {t t' : τ} (x : σ)
    (hi : s.threads[i]? = some t) (hothers : ∀ u ∈ s.threads, f' u = f u) (hlt : f' t' < f t) :
    Config.weight f' (⟨x, s.threads.set i t'⟩ : Config σ τ) < s.weight f := by
  have hrun := Config.weight_run f' x t' hi
  have hsame : s.weight f' = s.weight f := congrArg List.sum (List.map_congr_left hothers)
  have ht := hothers t (List.mem_of_getElem? hi)
  omega

end Interleaving
