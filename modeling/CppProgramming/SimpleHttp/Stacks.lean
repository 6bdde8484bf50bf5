import CppProgramming.SimpleHttp.Steps

/-! # Call stacks

Functions call each other in one order only, so a call stack is sorted by `Frame.rank`. A function of `Read()`
or `Write()` stands in front of the `NeedReInQueueRead` or `NeedReInQueueWrite` that its worker calls next. -/

namespace SimpleHttp
open Interleaving

variable {R : RequestHandler}

namespace Frame

/-- The level of a function: it calls functions of higher levels. -/
def rank : Frame R → Nat
  | .worker _ _ | .newConnection | .shut _ | .foreign => 0
  | .recheck _ _ _ => 1
  | .read _ _ | .load _ _ | .write _ _ | .finish _ _ _ | .report _ _ _ => 2
  | .onError _ _ _ => 3
  | .close _ _ => 4
  | .callback _ _ => 5
  | .addCache _ _ => 6
  | .check _ _ _ _ => 7

/-- The side and the connection for which a function is a part of `Read()`, or of `SetResponse` and
    `Write()`. -/
def part : Frame R → Option (Side × ConnId)
  | .read c _ => some (.read, c)
  | .load c _ | .write c _ => some (.write, c)
  | .onError d c _ | .finish d c _ => some (d, c)
  | _ => none

theorem rank_of_part {f : Frame R} {x : Side × ConnId} (h : f.part = some x) : 2 ≤ f.rank := by
  cases f <;> simp_all [part, rank]

end Frame

section Step
variable {s : Shared R} {result : Bool} {f : Frame R} {a : Act R} {fs : List (Frame R)}

theorem FrameStep.rank_le (h : FrameStep s result f a fs) : ∀ g ∈ fs, f.rank ≤ g.rank := by
  cases h <;> simp [Frame.rank]

theorem FrameStep.sorted (h : FrameStep s result f a fs) : fs.Pairwise fun g g' => g'.rank < g.rank := by
  cases h <;> first
    | exact List.pairwise_singleton _ _
    | simp [Frame.rank]

/-- A function of `Read()` or `Write()` comes from one, or its worker has just taken the connection. -/
theorem FrameStep.part (h : FrameStep s result f a fs) {d : Side} {c : ConnId} :
    ∀ g ∈ fs, g.part = some (d, c) → f.part = some (d, c) ∨ .recheck d c .lock ∈ fs := by
  cases h <;> simp_all [Frame.part]

end Step

/-- A call stack is sorted. -/
def Sorted (frames : List (Frame R)) : Prop := frames.Pairwise fun f g => g.rank < f.rank

namespace Sorted
variable {s : Shared R} {result : Bool} {f : Frame R} {a : Act R} {rest fs : List (Frame R)}

theorem rank_lt (h : Sorted (f :: rest)) {g : Frame R} (hg : g ∈ rest) : g.rank < f.rank :=
  (List.pairwise_cons.mp h).1 g hg

theorem eq_of_rank {frames : List (Frame R)} (h : Sorted frames) {f g : Frame R} (hf : f ∈ frames) (hg : g ∈ frames)
    (hrank : f.rank = g.rank) : f = g := by
  obtain ⟨i, hi, rfl⟩ := List.getElem_of_mem hf
  obtain ⟨j, hj, rfl⟩ := List.getElem_of_mem hg
  have hsorted := List.pairwise_iff_getElem.mp h
  rcases Nat.lt_trichotomy i j with hlt | rfl | hlt
  · have := hsorted i j hi hj hlt
    omega
  · rfl
  · have := hsorted j i hj hi hlt
    omega

theorem step (h : Sorted (f :: rest)) (hf : FrameStep s result f a fs) : Sorted (fs ++ rest) := by
  refine List.pairwise_append.mpr ⟨hf.sorted, (List.pairwise_cons.mp h).2, ?_⟩
  intro g hg g' hg'
  exact Nat.lt_of_lt_of_le (h.rank_lt hg') (hf.rank_le g hg)

theorem enter {k : Call} {t : Thread R} (hk : k.enter R = some t) : Sorted t.frames := by
  rcases Call.enter_cases hk with ⟨rfl, rfl⟩ | ⟨r, c, rfl, rfl⟩ | ⟨c, content, -, rfl, rfl⟩ | ⟨rfl, rfl⟩ <;>
    simp [Sorted, Frame.rank]

end Sorted

/-- A function that is only on a stack together with another one behind it. -/
structure Companion (needs : Frame R → Frame R → Prop) : Prop where
  rank_lt : ∀ {f g}, needs f g → g.rank < f.rank
  step : ∀ {s result f a fs}, FrameStep s result f a fs → ∀ f' ∈ fs, ∀ {g}, needs f' g → needs f g ∨ g ∈ fs
  report : ∀ r c g, ¬needs (.report r c .getValue) g
  write : R.spontaneous = true → ∀ c content g, ¬needs (.addCache c (.add content)) g

section Run
variable {rule : Rule (Shared R) (Thread R) (Act R) Call} {closed : Bool} {readers writers : Nat} {s : State R}

theorem sorted (h : Reach (manager R) rule (start R closed readers writers) s) : ∀ t ∈ s.threads, Sorted t.frames := by
  refine reach_invariant (P := fun s => ∀ t ∈ s.threads, Sorted t.frames) ?_ ?_ (fun h => h) ?_ ?_ h
  · intro t ht
    obtain ⟨d, rfl⟩ := eq_of_mem_start ht
    exact List.pairwise_singleton _ _
  · intro s i t f rest fs a v hr ih hi ht hf hok u hu
    rcases List.mem_or_eq_of_mem_set hu with hu | rfl
    · exact ih u hu
    · exact (ht ▸ ih t (List.mem_of_getElem? hi) : Sorted (f :: rest)).step hf
  · intro s i t c v _ ih hi ht u hu
    rcases List.mem_or_eq_of_mem_set hu with hu | rfl
    · exact ih u hu
    · exact List.Pairwise.nil
  · intro s k t ih hk hok u hu
    rcases List.mem_append.mp hu with hu | hu
    · exact ih u hu
    · rw [List.mem_singleton.mp hu]
      exact Sorted.enter hk

variable {needs : Frame R → Frame R → Prop}

theorem Companion.mem_frames (hc : Companion needs) (h : Reach (manager R) rule (start R closed readers writers) s) :
    ∀ t ∈ s.threads, ∀ f ∈ t.frames, ∀ g, needs f g → g ∈ t.frames := by
  refine reach_invariant (P := fun s => ∀ t ∈ s.threads, ∀ f ∈ t.frames, ∀ g, needs f g → g ∈ t.frames)
    ?_ ?_ (fun h => h) ?_ ?_ h
  · intro t ht f hf g hg
    have hlt := hc.rank_lt hg
    obtain ⟨d, rfl⟩ := eq_of_mem_start ht
    rw [List.mem_singleton.mp hf] at hlt
    exact absurd hlt (Nat.not_lt_zero _)
  · intro s i t f rest fs a v hr ih hi ht hf hok u hu f' hf' g hg
    rcases List.mem_or_eq_of_mem_set hu with hu | rfl
    · exact ih u hu f' hf' g hg
    · have hmem := List.mem_of_getElem? hi
      have hsorted : Sorted (f :: rest) := ht ▸ sorted hr t hmem
      -- A function of a lower level than the innermost one is behind it, and stays.
      have hrest : ∀ {f'}, f' ∈ t.frames → f'.rank ≤ f.rank → needs f' g → g ∈ fs ++ rest := by
        intro f' hf' hle hg
        have hgt := ih t hmem f' hf' g hg
        rw [ht] at hgt
        rcases List.mem_cons.mp hgt with rfl | hgt
        · exact absurd (hc.rank_lt hg) (Nat.not_lt_of_le hle)
        · exact List.mem_append_right fs hgt
      rcases List.mem_append.mp hf' with hf' | hf'
      · rcases hc.step hf f' hf' hg with hneed | hgs
        · exact hrest (ht ▸ List.mem_cons_self) (Nat.le_refl _) hneed
        · exact List.mem_append_left rest hgs
      · exact hrest (ht ▸ List.mem_cons_of_mem f hf') (Nat.le_of_lt (hsorted.rank_lt hf')) hg
  · intro s i t c v _ ih hi ht u hu f' hf' g hg
    rcases List.mem_or_eq_of_mem_set hu with hu | rfl
    · exact ih u hu f' hf' g hg
    · cases hf'
  · intro s k t ih hk hok u hu f' hf' g hg
    rcases List.mem_append.mp hu with hu | hu
    · exact ih u hu f' hf' g hg
    · rw [List.mem_singleton.mp hu] at hf' ⊢
      have hlt := hc.rank_lt hg
      rcases Call.enter_cases hk with ⟨rfl, rfl⟩ | ⟨r, c, rfl, rfl⟩ | ⟨c, content, hR, rfl, rfl⟩ | ⟨rfl, rfl⟩
      · rw [List.mem_singleton.mp hf'] at hlt
        exact absurd hlt (Nat.not_lt_zero _)
      · rw [List.mem_singleton.mp hf'] at hg
        exact absurd hg (hc.report r c g)
      · rcases List.mem_cons.mp hf' with rfl | hf'
        · exact absurd hg (hc.write hR c content g)
        · rw [List.mem_singleton.mp hf'] at hlt
          exact absurd hlt (Nat.not_lt_zero _)
      · rw [List.mem_singleton.mp hf'] at hlt
        exact absurd hlt (Nat.not_lt_zero _)

theorem Companion.at_of_at (hc : Companion needs) (h : Reach (manager R) rule (start R closed readers writers) s)
    {i : Nat} {f g : Frame R} (hi : s.At i f) (hg : needs f g) : s.At i g := by
  obtain ⟨t, ht, hf⟩ := hi
  exact ⟨t, ht, hc.mem_frames h t (List.mem_of_getElem? ht) f hf g hg⟩

theorem at_unique (h : Reach (manager R) rule (start R closed readers writers) s) {i : Nat} {f g : Frame R}
    (hf : s.At i f) (hg : s.At i g) (hrank : f.rank = g.rank) : f = g := by
  obtain ⟨t, ht, hf⟩ := hf
  obtain ⟨u, hu, hg⟩ := hg
  cases ht.symm.trans hu
  exact (sorted h t (List.mem_of_getElem? ht)).eq_of_rank hf hg hrank

theorem rank_le_head (h : Reach (manager R) rule (start R closed readers writers) s) {i : Nat} {t : Thread R}
    {f g : Frame R} {rest : List (Frame R)} (hi : s.threads[i]? = some t) (ht : t.frames = f :: rest)
    (hg : s.At i g) : g.rank ≤ f.rank := by
  obtain ⟨u, hu, hg⟩ := hg
  cases hi.symm.trans hu
  have hsorted : Sorted (f :: rest) := ht ▸ sorted h t (List.mem_of_getElem? hi)
  rw [ht] at hg
  rcases List.mem_cons.mp hg with rfl | hg
  · exact Nat.le_refl _
  · exact Nat.le_of_lt (hsorted.rank_lt hg)

end Run

theorem companion_part : Companion (R := R) fun f g => ∃ d c, f.part = some (d, c) ∧ g = .recheck d c .lock where
  rank_lt := by
    rintro f g ⟨d, c, hp, rfl⟩
    exact Frame.rank_of_part hp
  step := by
    rintro s result f a fs h f' hf' g ⟨d, c, hp, rfl⟩
    rcases h.part f' hf' hp with hpart | hmem
    · exact Or.inl ⟨d, c, hpart, rfl⟩
    · exact Or.inr hmem
  report := by
    rintro r c g ⟨d, c', hp, -⟩
    cases hp
  write := by
    rintro - c content g ⟨d, c', hp, -⟩
    cases hp

/-- A handler without threads of its own only calls `write` in its callbacks. -/
theorem not_foreign {rule : Rule (Shared R) (Thread R) (Act R) Call} {closed : Bool} {readers writers : Nat}
    {s : State R} (hR : R.spontaneous = false) (h : Reach (manager R) rule (start R closed readers writers) s) :
    ∀ t ∈ s.threads, .foreign ∉ t.frames := by
  refine reach_invariant (P := fun s => ∀ t ∈ s.threads, .foreign ∉ t.frames) ?_ ?_ (fun h => h) ?_ ?_ h
  · intro t ht
    obtain ⟨d, rfl⟩ := eq_of_mem_start ht
    simp
  · intro s i t f rest fs a v hr ih hi ht hf hok u hu
    rcases List.mem_or_eq_of_mem_set hu with hu | rfl
    · exact ih u hu
    · have hno := ih t (List.mem_of_getElem? hi)
      rw [ht, List.mem_cons, not_or] at hno
      rw [List.mem_append, not_or]
      refine ⟨?_, hno.2⟩
      cases hf <;> simp
  · intro s i t c v _ ih hi ht u hu
    rcases List.mem_or_eq_of_mem_set hu with hu | rfl
    · exact ih u hu
    · simp
  · intro s k t ih hk hok u hu
    rcases List.mem_append.mp hu with hu | hu
    · exact ih u hu
    · rw [List.mem_singleton.mp hu]
      rcases Call.enter_cases hk with ⟨rfl, rfl⟩ | ⟨r, c, rfl, rfl⟩ | ⟨c, content, hyes, rfl, rfl⟩ | ⟨rfl, rfl⟩
      · simp
      · simp
      · rw [hR] at hyes
        cases hyes
      · simp

theorem not_caught {rule : Rule (Shared R) (Thread R) (Act R) Call} {closed : Bool} {readers writers : Nat}
    {s : State R} {i : Nat} {t : Thread R} {c : ConnId} (hR : R.spontaneous = false)
    (h : Reach (manager R) rule (start R closed readers writers) s) (hi : s.threads[i]? = some t) :
    t.frames ≠ [.addCache c .getValue, .foreign] := by
  intro ht
  have hno := not_foreign hR h t (List.mem_of_getElem? hi)
  rw [ht] at hno
  exact hno (List.mem_cons_of_mem _ List.mem_cons_self)

/-! ### One stack, one connection -/

/-- The connection that a function is called for. -/
def Frame.conn : Frame R → Option ConnId
  | .check _ _ c _ | .recheck _ c _ | .addCache c _ | .callback c _ | .close c _ | .onError _ c _ | .finish _ c _
  | .read c _ | .load c _ | .write c _ | .report _ c _ => some c
  | .worker _ _ | .newConnection | .shut _ | .foreign => none

theorem FrameStep.conn {s : Shared R} {result : Bool} {f : Frame R} {a : Act R} {fs : List (Frame R)}
    (h : FrameStep s result f a fs) :
    (∀ g ∈ fs, ∀ c, g.conn = some c → f.conn = some c) ∨
      f.rank = 0 ∧ ∀ g ∈ fs, ∀ g' ∈ fs, ∀ c c', g.conn = some c → g'.conn = some c' → c = c' := by
  cases h with
  | workerRead _ | workerWrite _ => exact Or.inr ⟨rfl, by simp [Frame.conn]⟩
  | _ =>
    left
    simp only [List.mem_cons, List.not_mem_nil, or_false, forall_eq_or_imp, forall_eq, IsEmpty.forall_iff, implies_true,
      Frame.conn, reduceCtorEq, imp_self, and_self]

/-- The functions on one stack are called for one connection. -/
theorem conn_unique {rule : Rule (Shared R) (Thread R) (Act R) Call} {closed : Bool} {readers writers : Nat}
    {s : State R} (h : Reach (manager R) rule (start R closed readers writers) s) : ∀ t ∈ s.threads,
    ∀ f ∈ t.frames, ∀ g ∈ t.frames, ∀ c c', f.conn = some c → g.conn = some c' → c = c' := by
  refine reach_invariant (P := fun s => ∀ t ∈ s.threads, ∀ f ∈ t.frames, ∀ g ∈ t.frames, ∀ c c',
    f.conn = some c → g.conn = some c' → c = c') ?_ ?_ (fun h => h) ?_ ?_ h
  · intro t ht f hf g hg c c' hc
    obtain ⟨d, rfl⟩ := eq_of_mem_start ht
    rw [List.mem_singleton.mp hf] at hc
    cases hc
  · intro s i t f rest fs a v hr ih hi ht hf _ u hu
    rcases List.mem_or_eq_of_mem_set hu with hu | rfl
    · exact ih u hu
    · have hsame := ih t (List.mem_of_getElem? hi)
      have hsorted : Sorted (f :: rest) := ht ▸ sorted hr t (List.mem_of_getElem? hi)
      rw [ht] at hsame
      rcases hf.conn with hfs | ⟨hrank, hfs⟩
      · -- The new functions are for the connection of the one that took the step.
        have hold : ∀ g ∈ fs ++ rest, ∀ c, g.conn = some c → ∃ g' ∈ f :: rest, g'.conn = some c := by
          intro g hg c hc
          rcases List.mem_append.mp hg with hg | hg
          · exact ⟨f, List.mem_cons_self, hfs g hg c hc⟩
          · exact ⟨g, List.mem_cons_of_mem f hg, hc⟩
        intro g hg g' hg' c c' hc hc'
        obtain ⟨k, hk, hkc⟩ := hold g hg c hc
        obtain ⟨k', hk', hkc'⟩ := hold g' hg' c' hc'
        exact hsame k hk k' hk' c c' hkc hkc'
      · -- A worker or a call from outside is at the bottom of its stack.
        have hrest : rest = [] := by
          refine List.eq_nil_iff_forall_not_mem.mpr fun g hg => ?_
          have := hsorted.rank_lt hg
          omega
        simpa [hrest] using hfs
  · intro s i t c v _ ih hi ht u hu
    rcases List.mem_or_eq_of_mem_set hu with hu | rfl
    · exact ih u hu
    · intro f hf
      cases hf
  · intro s k t ih hk _ u hu
    rcases List.mem_append.mp hu with hu | hu
    · exact ih u hu
    · rw [List.mem_singleton.mp hu]
      rcases Call.enter_cases hk with ⟨-, rfl⟩ | ⟨r, c, -, rfl⟩ | ⟨c, content, -, -, rfl⟩ | ⟨-, rfl⟩ <;>
        simp [Frame.conn]

/-! ### What is behind a function -/

section Run
variable {rule : Rule (Shared R) (Thread R) (Act R) Call} {closed : Bool} {readers writers : Nat}

theorem FrameStep.recheck_behind {s : Shared R} {result : Bool} {f : Frame R} {a : Act R} {fs : List (Frame R)}
    (h : FrameStep s result f a fs) : ∀ d c p, .recheck d c p ∈ fs.tail → p = .lock := by
  cases h <;> simp

/-- `NeedReInQueueRead` and `NeedReInQueueWrite` have not begun as long as another function is to return to them. -/
theorem recheck_behind {s : State R} (h : Reach (manager R) rule (start R closed readers writers) s) :
    ∀ t ∈ s.threads, ∀ d c p, .recheck d c p ∈ t.frames.tail → p = .lock := by
  refine reach_invariant (P := fun s => ∀ t ∈ s.threads, ∀ d c p, (.recheck d c p : Frame R) ∈ t.frames.tail → p = .lock)
    ?_ ?_ (fun h => h) ?_ ?_ h
  · intro t ht d c p hp
    obtain ⟨d', rfl⟩ := eq_of_mem_start ht
    cases hp
  · intro s i t f rest fs a v hr ih hi ht hf _ u hu d c p hp
    rcases List.mem_or_eq_of_mem_set hu with hu | rfl
    · exact ih u hu d c p hp
    · have hrest : .recheck d c p ∈ rest → p = .lock := fun hmem =>
        ih t (List.mem_of_getElem? hi) d c p (by rw [ht]; exact hmem)
      cases fs with
      | nil => exact hrest (List.mem_of_mem_tail hp)
      | cons g fs =>
        rcases List.mem_append.mp hp with hp | hp
        · exact hf.recheck_behind d c p hp
        · exact hrest hp
  · intro s i t c v _ ih hi ht u hu d c' p hp
    rcases List.mem_or_eq_of_mem_set hu with hu | rfl
    · exact ih u hu d c' p hp
    · cases hp
  · intro s k t ih hk _ u hu d c p hp
    rcases List.mem_append.mp hu with hu | hu
    · exact ih u hu d c p hp
    · rw [List.mem_singleton.mp hu] at hp
      rcases Call.enter_cases hk with ⟨-, rfl⟩ | ⟨r, c', -, rfl⟩ | ⟨c', content, -, -, rfl⟩ | ⟨-, rfl⟩ <;> simp at hp

end Run

end SimpleHttp
