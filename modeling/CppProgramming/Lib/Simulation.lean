import CppProgramming.Lib.Interleaving

/-! # Parts of a system

A system of threads often uses a component that other systems use too. `Config.view` is what the component sees: its
own part of the shared state, and where each thread is in it. If every step of the system is a step of the component
or does not concern it, then the views of the system's runs are runs of the component (`Reach.view`), and what has been
proved about the component holds in the system. -/

namespace Interleaving

variable {σ σ' τ τ' χ χ' α α' κ κ' : Type}

/-- What a component sees of a configuration. -/
def Config.view (f : σ → σ') (g : τ → τ') (s : Config σ τ) : Config σ' τ' := ⟨f s.shared, s.threads.map g⟩

theorem Config.view_run (f : σ → σ') (g : τ → τ') (s : Config σ τ) (x : σ) (i : Nat) (t : τ) :
    Config.view f g ⟨x, s.threads.set i t⟩ = ⟨f x, (s.view f g).threads.set i (g t)⟩ := by
  simp [Config.view, List.map_set]

theorem Config.view_enter (f : σ → σ') (g : τ → τ') (s : Config σ τ) (t : τ) :
    Config.view f g ⟨s.shared, s.threads ++ [t]⟩ = ⟨f s.shared, (s.view f g).threads ++ [g t]⟩ := by
  simp [Config.view]

theorem set_eq_self {l : List τ} {i : Nat} {t : τ} (h : l[i]? = some t) : l.set i t = l := by
  obtain ⟨hlt, rfl⟩ := List.getElem?_eq_some_iff.mp h
  exact List.set_getElem_self hlt

/-- A step of a thread does what the component allows, or does not concern it. -/
def Follows (M : Machine σ τ χ α κ) (M' : Machine σ' τ' χ' α' κ') (f : σ → σ') (g : τ → τ') (s : σ) (t : τ) (a : α)
    (t' : τ) : Prop :=
  f (M.apply a s) = f s ∧ g t' = g t ∨
    ∃ x' a', M'.halted (f s) = false ∧ M'.step (f s) (g t) x' = some (a', g t') ∧ f (M.apply a s) = M'.apply a' (f s)

theorem Reach.view {M : Machine σ τ χ α κ} {M' : Machine σ' τ' χ' α' κ'} {rule : Rule σ τ α κ} {start s : Config σ τ}
    {start' : Config σ' τ'} {f : σ → σ'} {g : τ → τ'} (hstart : Reach M' .any start' (start.view f g))
    (hrun : ∀ s t x a t', M.step s t x = some (a, t') → Follows M M' f g s t a t')
    (henter : ∀ k t, M.enter k = some t → ∃ k', M'.enter k' = some (g t)) (h : Reach M rule start s) :
    Reach M' .any start' (s.view f g) := by
  induction h with
  | start => exact hstart
  | @run s i x t t' a _ _ hi hs _ ih =>
    have hi' : (s.view f g).threads[i]? = some (g t) := by simp [Config.view, hi]
    rw [Config.view_run]
    rcases hrun s.shared t x a t' hs with ⟨hf, hg⟩ | ⟨x', a', hh, hs', hf⟩
    · rw [hf, hg, set_eq_self hi']
      exact ih
    · rw [hf]
      exact .run ih hh hi' hs' trivial
  | enter _ hk _ ih =>
    rw [Config.view_enter]
    obtain ⟨k', hk'⟩ := henter _ _ hk
    exact .enter ih hk' trivial

end Interleaving
