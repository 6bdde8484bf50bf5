import CppProgramming.Lib.Interleaving

/-! # Runs with what they show

`Interleaving.Reach` forgets how a configuration was reached. A `Trace` keeps what the steps of the run show, so
that a result can speak of everything that has gone into a component, which no part of its state holds any more. -/

namespace Interleaving

variable {σ τ χ α κ ω : Type} {M : Machine σ τ χ α κ} {rule : Rule σ τ α κ}
  {shows : Config σ τ → τ → α → List ω} {start s : Config σ τ} {l : List ω}

/-- The runs of a rule from `start`, each with what its steps have shown and the configuration that it reaches. -/
inductive Trace (M : Machine σ τ χ α κ) (rule : Rule σ τ α κ) (shows : Config σ τ → τ → α → List ω)
    (start : Config σ τ) : List ω → Config σ τ → Prop
  | start : Trace M rule shows start [] start
  | run {l : List ω} {s : Config σ τ} {i : Nat} {x : χ} {t t' : τ} {a : α} : Trace M rule shows start l s →
      M.halted s.shared = false → s.threads[i]? = some t → M.step s.shared t x = some (a, t') → rule.step s t a →
      Trace M rule shows start (l ++ shows s t a) ⟨M.apply a s.shared, s.threads.set i t'⟩
  | enter {l : List ω} {s : Config σ τ} {k : κ} {t : τ} : Trace M rule shows start l s → M.enter k = some t →
      rule.call k → Trace M rule shows start l ⟨s.shared, s.threads ++ [t]⟩

theorem Trace.reach (h : Trace M rule shows start l s) : Reach M rule start s := by
  induction h with
  | start => exact .start
  | run _ hh hi hs hr ih => exact .run ih hh hi hs hr
  | enter _ hk hr ih => exact .enter ih hk hr

/-- What the moves of a run show. -/
def Machine.shown (M : Machine σ τ χ α κ) (shows : Config σ τ → τ → α → List ω) :
    Config σ τ → List (Move χ κ) → List ω
  | _, [] => []
  | s, .run i x :: rest =>
    match s.threads[i]? with
    | none => []
    | some t =>
      match M.step s.shared t x with
      | none => []
      | some (a, t') => shows s t a ++ M.shown shows ⟨M.apply a s.shared, s.threads.set i t'⟩ rest
  | s, .enter k :: rest =>
    match M.enter k with
    | none => []
    | some t => M.shown shows ⟨s.shared, s.threads ++ [t]⟩ rest

theorem Trace.of_exec {step : Config σ τ → τ → α → Bool} {call : κ → Bool} {s' : Config σ τ}
    {moves : List (Move χ κ)} (hstep : ∀ s t a, step s t a = true → rule.step s t a)
    (hcall : ∀ k, call k = true → rule.call k) (h : Trace M rule shows start l s)
    (he : M.exec step call s moves = some s') : Trace M rule shows start (l ++ M.shown shows s moves) s' := by
  induction moves generalizing s l with
  | nil =>
    cases he
    simpa [Machine.shown] using h
  | cons m rest ih =>
    cases m with
    | run i x =>
      simp only [Machine.exec] at he
      split at he
      · cases he
      · next hh =>
        split at he
        · cases he
        · next t hi =>
          split at he
          · cases he
          · next a t' hs =>
            split at he
            · next hr =>
              have := ih (.run h (by simpa using hh) hi hs (hstep _ _ _ hr)) he
              simpa only [Machine.shown, hi, hs, List.append_assoc] using this
            · cases he
    | enter k =>
      simp only [Machine.exec] at he
      split at he
      · cases he
      · next t hk =>
        split at he
        · next hr =>
          have := ih (.enter h hk (hcall _ hr)) he
          simpa only [Machine.shown, hk] using this
        · cases he

end Interleaving
