import Mathlib.Data.List.TakeWhile
import Mathlib.Algebra.Order.BigOperators.Group.List
import Mathlib.Algebra.Order.Ring.Nat
import Mathlib.Tactic.Common

/-! # C strings

A pointer to characters is read up to the first zero that follows it, wherever that is. The memory behind the pointer
is a buffer and what lies behind the buffer. -/

namespace CString

section
variable {α β : Type} {f g : β → List α} {l : List β}

theorem length_flatten_map_le (h : ∀ x ∈ l, f x <+: g x) :
    (l.map f).flatten.length ≤ (l.map g).flatten.length := by
  rw [List.length_flatten, List.length_flatten, List.map_map, List.map_map]
  exact List.sum_le_sum fun x hx => (h x hx).length_le

/-- Strings that are cut short do not add up to the whole. -/
theorem flatten_map_eq_iff (h : ∀ x ∈ l, f x <+: g x) :
    (l.map f).flatten = (l.map g).flatten ↔ ∀ x ∈ l, f x = g x := by
  constructor
  · intro heq
    induction l with
    | nil =>
      intro x hx
      cases hx
    | cons x l ih =>
      have hx := h x (List.mem_cons_self ..)
      have hrest : ∀ y ∈ l, f y <+: g y := fun y hy => h y (List.mem_cons_of_mem _ hy)
      rw [List.map_cons, List.map_cons, List.flatten_cons, List.flatten_cons] at heq
      have htotal := congrArg List.length heq
      rw [List.length_append, List.length_append] at htotal
      have hshort := length_flatten_map_le hrest
      have hfront := hx.eq_of_length (Nat.le_antisymm hx.length_le (by omega))
      rw [hfront] at heq
      intro y hy
      rcases List.mem_cons.mp hy with rfl | hy
      · exact hfront
      · exact ih hrest (List.append_cancel_left heq) y hy
  · intro heq
    rw [List.map_congr_left heq]

end

variable {α : Type} [Zero α] [DecidableEq α] {bytes buf rest : List α}

/-- The string at the begin of `memory`. -/
def content (memory : List α) : List α := memory.takeWhile fun b => b ≠ 0

/-- How many characters are read to find the end of the string. -/
def reads (memory : List α) : Nat := (content memory).length + 1

theorem content_begin : content bytes <+: bytes := List.takeWhile_prefix _

theorem not_mem_content : 0 ∉ content bytes := by
  intro h
  have hne := List.mem_takeWhile_imp (p := fun b : α => b ≠ 0) h
  simp at hne

theorem content_eq_self_iff : content bytes = bytes ↔ 0 ∉ bytes := by
  rw [content, List.takeWhile_eq_self_iff]
  constructor
  · intro h hzero
    exact absurd rfl (of_decide_eq_true (h 0 hzero))
  · intro h b hb
    rw [decide_eq_true_iff]
    rintro rfl
    exact h hb

theorem content_append_of_not_mem (h : 0 ∉ buf) : content (buf ++ rest) = buf ++ content rest := by
  rw [content, List.takeWhile_append_of_pos]
  · rfl
  · intro b hb
    rw [decide_eq_true_iff]
    rintro rfl
    exact h hb

/-- A string that ends in the buffer does not depend on what lies behind. -/
theorem content_append_of_mem (h : 0 ∈ buf) : content (buf ++ rest) = content buf := by
  induction buf with
  | nil => cases h
  | cons b buf ih =>
    by_cases hb : b = 0
    · simp [content, hb]
    · have hbuf : 0 ∈ buf := (List.mem_cons.mp h).resolve_left fun h0 => hb h0.symm
      simpa [content, hb] using ih hbuf

/-- The search for the end stays in the buffer if and only if there is a zero in it. -/
theorem reads_le_iff : reads (buf ++ rest) ≤ buf.length ↔ 0 ∈ buf := by
  by_cases h : 0 ∈ buf
  · refine iff_of_true ?_ h
    rw [reads, content_append_of_mem h]
    refine Nat.lt_of_le_of_ne content_begin.length_le fun hlength => ?_
    exact absurd h (content_eq_self_iff.mp (content_begin.eq_of_length hlength))
  · refine iff_of_false ?_ h
    rw [reads, content_append_of_not_mem h, List.length_append]
    omega

/-- A terminator ends the string. -/
theorem content_append_zero : content (bytes ++ 0 :: rest) = content bytes := by
  by_cases h : 0 ∈ bytes
  · exact content_append_of_mem h
  · rw [content_append_of_not_mem h, content_eq_self_iff.mpr h]
    simp [content]

end CString
