import Mathlib

/-! # Interleaved threads

Threads that share a state and take turns, one atomic step at a time. A `Machine` gives the step of one
thread: what it does to the shared state, as an action, and where the thread stands afterwards. Which
thread is next, and what a step gets from outside, is free. Facts about all interleavings are proved from
the step of one thread by counting: `Config.weight f` adds up `f` over the threads, a step changes it by
what the moving thread contributes before and after (`weight_run`), and a thread that carries a weight
excludes another one wherever the total is bounded (`weight_lt_weight`). -/

namespace Interleaving

variable {σ τ χ α κ : Type}

/-- A program for threads `τ` over a shared state `σ`: with `x : χ` from outside a thread does an action
    and moves on, and a call `k : κ` from outside starts a thread. A halted system does no step. -/
structure Machine (σ τ χ α κ : Type) where
  step : σ → τ → χ → Option (α × τ)
  apply : α → σ → σ
  enter : κ → Option τ
  halted : σ → Bool

/-- The shared state and the threads. -/
structure Config (σ τ : Type) where
  shared : σ
  threads : List τ

/-- What happens next: thread `i` takes a step, or a call comes in. -/
inductive Move (χ κ : Type) where
  | run (i : Nat) (x : χ)
  | enter (k : κ)

/-- The runs that are looked at: the steps and the calls that may occur in them. -/
structure Rule (σ τ α κ : Type) where
  step : Config σ τ → τ → α → Prop
  call : κ → Prop

/-- Every run. -/
def Rule.any : Rule σ τ α κ := ⟨fun _ _ _ => True, fun _ => True⟩

/-- The configurations that the runs of a rule reach from `start`. -/
inductive Reach (M : Machine σ τ χ α κ) (rule : Rule σ τ α κ) (start : Config σ τ) : Config σ τ → Prop
  | start : Reach M rule start start
  | run {s : Config σ τ} {i : Nat} {x : χ} {t t' : τ} {a : α} : Reach M rule start s →
      M.halted s.shared = false → s.threads[i]? = some t → M.step s.shared t x = some (a, t') → rule.step s t a →
      Reach M rule start ⟨M.apply a s.shared, s.threads.set i t'⟩
  | enter {s : Config σ τ} {k : κ} {t : τ} : Reach M rule start s → M.enter k = some t → rule.call k →
      Reach M rule start ⟨s.shared, s.threads ++ [t]⟩

theorem Reach.mono {M : Machine σ τ χ α κ} {rule rule' : Rule σ τ α κ} {start s : Config σ τ}
    (hstep : ∀ s t a, rule.step s t a → rule'.step s t a) (hcall : ∀ k, rule.call k → rule'.call k)
    (h : Reach M rule start s) : Reach M rule' start s := by
  induction h with
  | start => exact .start
  | run _ hh hi hs hr ih => exact .run ih hh hi hs (hstep _ _ _ hr)
  | enter _ hk hr ih => exact .enter ih hk (hcall _ hr)

theorem Reach.any {M : Machine σ τ χ α κ} {rule : Rule σ τ α κ} {start s : Config σ τ} (h : Reach M rule start s) :
    Reach M .any start s :=
  h.mono (fun _ _ _ _ => trivial) fun _ _ => trivial

theorem Reach.trans {M : Machine σ τ χ α κ} {rule : Rule σ τ α κ} {start s s' : Config σ τ}
    (h : Reach M rule start s) (h' : Reach M rule s s') : Reach M rule start s' := by
  induction h' with
  | start => exact h
  | run _ hh hi hs hr ih => exact .run ih hh hi hs hr
  | enter _ hk hr ih => exact .enter ih hk hr

/-- A run, move by move; `none` when a move is not possible or not allowed. -/
def Machine.exec (M : Machine σ τ χ α κ) (step : Config σ τ → τ → α → Bool) (call : κ → Bool) :
    Config σ τ → List (Move χ κ) → Option (Config σ τ)
  | s, [] => some s
  | s, .run i x :: rest =>
    if M.halted s.shared then none
    else
      match s.threads[i]? with
      | none => none
      | some t =>
        match M.step s.shared t x with
        | none => none
        | some (a, t') =>
          if step s t a then M.exec step call ⟨M.apply a s.shared, s.threads.set i t'⟩ rest else none
  | s, .enter k :: rest =>
    match M.enter k with
    | none => none
    | some t => if call k then M.exec step call ⟨s.shared, s.threads ++ [t]⟩ rest else none

theorem Reach.of_exec {M : Machine σ τ χ α κ} {step : Config σ τ → τ → α → Bool} {call : κ → Bool}
    {rule : Rule σ τ α κ} {start s s' : Config σ τ} {moves : List (Move χ κ)}
    (hstep : ∀ s t a, step s t a = true → rule.step s t a) (hcall : ∀ k, call k = true → rule.call k)
    (h : Reach M rule start s) (he : M.exec step call s moves = some s') : Reach M rule start s' := by
  induction moves generalizing s with
  | nil =>
    cases he
    exact h
  | cons m rest ih =>
    cases m with
    | run i x =>
      simp only [Machine.exec] at he
      split at he
      · cases he
      · next hh =>
        split at he
        · cases he
        · next t hi =>
          split at he
          · cases he
          · next a t' hs =>
            split at he
            · next hr => exact ih (.run h (by simpa using hh) hi hs (hstep _ _ _ hr)) he
            · cases he
    | enter k =>
      simp only [Machine.exec] at he
      split at he
      · cases he
      · next t hk =>
        split at he
        · next hr => exact ih (.enter h hk (hcall _ hr)) he
        · cases he

/-- A run that ends in a state with a decidable property shows that such a state is reached. -/
theorem Reach.exists_of_exec (rule : Rule σ τ α κ) {M : Machine σ τ χ α κ} {step : Config σ τ → τ → α → Bool}
    {call : κ → Bool} {start : Config σ τ} {moves : List (Move χ κ)} {p : Config σ τ → Bool}
    (hstep : ∀ s t a, step s t a = true → rule.step s t a) (hcall : ∀ k, call k = true → rule.call k)
    (he : (M.exec step call start moves).any p = true) : ∃ s, Reach M rule start s ∧ p s = true := by
  obtain ⟨s, hs, hp⟩ := Option.any_eq_true _ _ |>.mp he
  exact ⟨s, .of_exec hstep hcall .start hs, hp⟩

/-- A thread after a step is the one that moved or another one from before. -/
theorem eq_or_of_mem_set {l : List τ} {i : Nat} {t u : τ} (h : u ∈ l.set i t) : u = t ∨ ∃ j, j ≠ i ∧ l[j]? = some u := by
  obtain ⟨j, hj⟩ := List.getElem?_of_mem h
  rw [List.getElem?_set] at hj
  split at hj
  · split at hj
    · cases hj
      exact Or.inl rfl
    · cases hj
  · next hne => exact Or.inr ⟨j, Ne.symm hne, hj⟩

/-! ### Weights -/

namespace Config

/-- The sum of a weight over the threads. -/
def weight (f : τ → Nat) (s : Config σ τ) : Nat := (s.threads.map f).sum

variable {f g : τ → Nat} {s : Config σ τ}

theorem weight_enter (f : τ → Nat) (s : Config σ τ) (t : τ) :
    weight f (⟨s.shared, s.threads ++ [t]⟩ : Config σ τ) = s.weight f + f t := by
  simp [weight]

theorem sum_map_set {l : List τ} {i : Nat} {t : τ} (t' : τ) (h : l[i]? = some t) :
    ((l.set i t').map f).sum + f t = (l.map f).sum + f t' := by
  induction l generalizing i with
  | nil => simp at h
  | cons u l ih =>
    cases i with
    | zero =>
      simp only [List.getElem?_cons_zero, Option.some.injEq] at h
      subst h
      simp only [List.set_cons_zero, List.map_cons, List.sum_cons]
      omega
    | succ i =>
      have := ih (i := i) (by simpa using h)
      simp only [List.set_cons_succ, List.map_cons, List.sum_cons]
      omega

theorem weight_run (f : τ → Nat) {i : Nat} {t : τ} (x : σ) (t' : τ) (h : s.threads[i]? = some t) :
    weight f (⟨x, s.threads.set i t'⟩ : Config σ τ) + f t = s.weight f + f t' :=
  sum_map_set t' h

theorem le_weight {t : τ} (h : t ∈ s.threads) : f t ≤ s.weight f :=
  List.single_le_sum (fun _ _ => Nat.zero_le _) _ (List.mem_map_of_mem h)

theorem add_le_sum_map {l : List τ} {i j : Nat} {t u : τ} (hi : l[i]? = some t) (hj : l[j]? = some u) (hne : i ≠ j) :
    f t + f u ≤ (l.map f).sum := by
  have hsingle : ∀ {l : List τ} {t : τ}, t ∈ l → f t ≤ (l.map f).sum := fun h =>
    List.single_le_sum (fun _ _ => Nat.zero_le _) _ (List.mem_map_of_mem h)
  induction l generalizing i j with
  | nil => simp at hi
  | cons v l ih =>
    cases i with
    | zero =>
      cases j with
      | zero => exact absurd rfl hne
      | succ j =>
        simp only [List.getElem?_cons_zero, Option.some.injEq] at hi
        subst hi
        have := hsingle (List.mem_of_getElem? (by simpa using hj : l[j]? = some u))
        simp only [List.map_cons, List.sum_cons]
        omega
    | succ i =>
      have hi' : l[i]? = some t := by simpa using hi
      cases j with
      | zero =>
        simp only [List.getElem?_cons_zero, Option.some.injEq] at hj
        subst hj
        have := hsingle (List.mem_of_getElem? hi')
        simp only [List.map_cons, List.sum_cons]
        omega
      | succ j =>
        have := ih hi' (by simpa using hj) (by omega)
        simp only [List.map_cons, List.sum_cons]
        omega

theorem add_le_weight {i j : Nat} {t u : τ} (hi : s.threads[i]? = some t) (hj : s.threads[j]? = some u)
    (hne : i ≠ j) : f t + f u ≤ s.weight f :=
  add_le_sum_map hi hj hne

theorem weight_pos : 0 < s.weight f ↔ ∃ t ∈ s.threads, 0 < f t := by
  constructor
  · intro h
    by_contra hno
    have hzero : ∀ n ∈ s.threads.map f, n = 0 := by
      intro n hn
      obtain ⟨t, ht, rfl⟩ := List.mem_map.mp hn
      by_contra hpos
      exact hno ⟨t, ht, Nat.pos_of_ne_zero hpos⟩
    have : s.weight f = 0 := List.sum_eq_zero hzero
    omega
  · rintro ⟨t, ht, hpos⟩
    exact Nat.lt_of_lt_of_le hpos (le_weight ht)

theorem weight_le_weight (h : ∀ t, f t ≤ g t) : s.weight f ≤ s.weight g :=
  List.sum_le_sum fun t _ => h t

theorem weight_lt_weight (h : ∀ t, f t ≤ g t) {t : τ} (ht : t ∈ s.threads) (hlt : f t < g t) :
    s.weight f < s.weight g :=
  List.sum_lt_sum _ _ (fun t _ => h t) ⟨t, ht, hlt⟩

theorem weight_eq_of_sole (h : ∀ t, f t ≤ g t) {t : τ} (ht : t ∈ s.threads) (hg : g t = 1) (hsole : s.weight g = 1) :
    s.weight f = f t := by
  have hle := weight_le_weight (s := s) h
  have hpos := le_weight (f := f) ht
  rcases Nat.lt_or_ge (f t) 1 with hlt | hge
  · have := weight_lt_weight h ht (by omega)
    omega
  · have := h t
    omega

theorem sum_map_eq_of_only {l : List τ} {i : Nat} {t : τ} (hi : l[i]? = some t)
    (h : ∀ j u, l[j]? = some u → j ≠ i → f u = 0) : (l.map f).sum = f t := by
  induction l generalizing i with
  | nil => simp at hi
  | cons v l ih =>
    rw [List.map_cons, List.sum_cons]
    cases i with
    | zero =>
      simp only [List.getElem?_cons_zero, Option.some.injEq] at hi
      subst hi
      have hzero : (l.map f).sum = 0 := by
        refine List.sum_eq_zero fun n hn => ?_
        obtain ⟨u, hu, rfl⟩ := List.mem_map.mp hn
        obtain ⟨j, hj⟩ := List.getElem?_of_mem hu
        exact h (j + 1) u (by simpa using hj) (Nat.succ_ne_zero j)
      rw [hzero, Nat.add_zero]
    | succ i =>
      rw [h 0 v rfl (Nat.succ_ne_zero i).symm, Nat.zero_add]
      refine ih (by simpa using hi) fun j u hj hne => ?_
      exact h (j + 1) u (by simpa using hj) fun heq => hne (Nat.succ.inj heq)

theorem weight_eq_of_only {i : Nat} {t : τ} (hi : s.threads[i]? = some t)
    (h : ∀ j u, s.threads[j]? = some u → j ≠ i → f u = 0) : s.weight f = f t :=
  sum_map_eq_of_only hi h

theorem weight_add (f g : τ → Nat) (s : Config σ τ) : s.weight (fun t => f t + g t) = s.weight f + s.weight g :=
  List.sum_map_add

/-! ### What the threads hold -/

/-- What the threads hold, one each at most. -/
def gather {β : Type} (f : τ → Option β) (s : Config σ τ) : List β := s.threads.filterMap f

theorem filterMap_set_perm {β : Type} (f : τ → Option β) {l : List τ} {i : Nat} {t : τ} (t' : τ) (h : l[i]? = some t) :
    ((f t).toList ++ (l.set i t').filterMap f).Perm ((f t').toList ++ l.filterMap f) := by
  have hcons : ∀ (u : τ) (l : List τ), (u :: l).filterMap f = (f u).toList ++ l.filterMap f := by
    intro u l
    cases hu : f u <;> simp [hu]
  induction l generalizing i with
  | nil => simp at h
  | cons u l ih =>
    cases i with
    | zero =>
      simp only [List.getElem?_cons_zero, Option.some.injEq] at h
      subst h
      rw [List.set_cons_zero, hcons, hcons, ← List.append_assoc, ← List.append_assoc]
      exact List.perm_append_comm.append_right _
    | succ i =>
      rw [List.set_cons_succ, hcons, hcons]
      have hih := (ih (by simpa using h)).append_left (f u).toList
      have hswap : ∀ x y z : List β, (x ++ (y ++ z)).Perm (y ++ (x ++ z)) := fun x y z => by
        rw [← List.append_assoc, ← List.append_assoc]
        exact List.perm_append_comm.append_right z
      exact ((hswap _ _ _).trans hih).trans (hswap _ _ _)

theorem gather_run {β : Type} (f : τ → Option β) {i : Nat} {t : τ} (x : σ) (t' : τ) (h : s.threads[i]? = some t) :
    ((f t).toList ++ gather f (⟨x, s.threads.set i t'⟩ : Config σ τ)).Perm ((f t').toList ++ s.gather f) :=
  filterMap_set_perm f t' h

theorem gather_enter {β : Type} (f : τ → Option β) (s : Config σ τ) (t : τ) :
    gather f (⟨s.shared, s.threads ++ [t]⟩ : Config σ τ) = s.gather f ++ (f t).toList := by
  cases ht : f t <;> simp [gather, ht]

theorem length_gather {β : Type} (f : τ → Option β) (s : Config σ τ) :
    (s.gather f).length = s.weight (fun t => (f t).toList.length) := by
  unfold gather weight
  induction s.threads with
  | nil => rfl
  | cons t l ih =>
    cases ht : f t with
    | none => simp [ht, ih]
    | some b =>
      simp only [List.filterMap_cons, ht, List.length_cons, ih, List.map_cons, List.sum_cons, Option.toList_some,
        List.length_nil]
      omega

end Config
end Interleaving
