import Mathlib

/-! # The Bernstein form

The curve of degree `n` in a module with given control points, each weighted by its Bernstein polynomial. It has the
recursion of de Casteljau, goes from its first control point to its last, and over a domain of characteristic zero its
values determine the control points. -/

namespace Bernstein
open Finset Polynomial

section Module
variable {R M N : Type*} [CommRing R] [AddCommMonoid M] [Module R M] [AddCommMonoid N] [Module R N] {n : Nat}

/-- The point at `t` of the curve with the control points `P 0, …, P n`. -/
def form (n : Nat) (P : Nat → M) (t : R) : M :=
  ∑ i ∈ range (n + 1), ((n.choose i : R) * (1 - t) ^ (n - i) * t ^ i) • P i

theorem form_order_zero (P : Nat → M) (t : R) : form 0 P t = P 0 := by
  simp [form]

theorem form_eq_sum_antidiagonal (n : Nat) (P : Nat → M) (t : R) :
    form n P t = ∑ ij ∈ antidiagonal n, n.choose ij.1 • ((1 - t) ^ ij.2 * t ^ ij.1) • P ij.1 := by
  rw [Nat.sum_antidiagonal_eq_sum_range_succ fun i j => n.choose i • ((1 - t) ^ j * t ^ i) • P i]
  refine sum_congr rfl fun i _ => ?_
  rw [mul_assoc, mul_smul, Nat.cast_smul_eq_nsmul]

/-- The recursion of de Casteljau: both curves of one degree less, of all points but the last and of all but the
    first. -/
theorem form_succ (n : Nat) (P : Nat → M) (t : R) :
    form (n + 1) P t = (1 - t) • form n P t + t • form n (fun i => P (i + 1)) t := by
  rw [form_eq_sum_antidiagonal, sum_antidiagonal_choose_succ_nsmul fun i j => ((1 - t) ^ j * t ^ i) • P i,
    form_eq_sum_antidiagonal, form_eq_sum_antidiagonal, smul_sum, smul_sum]
  congr 1
  · refine sum_congr rfl fun ij _ => ?_
    rw [smul_comm (1 - t), smul_smul (1 - t)]
    congr 2
    ring
  · refine sum_congr rfl fun ij hij => ?_
    -- The other half of Pascal's rule comes with the mirrored coefficient.
    have hchoose : n.choose ij.2 = n.choose ij.1 :=
      (Nat.choose_symm_of_eq_add (mem_antidiagonal.mp hij).symm).symm
    rw [hchoose, smul_comm t, smul_smul t]
    congr 2
    ring

theorem map_form (f : M →ₗ[R] N) (n : Nat) (P : Nat → M) (t : R) : f (form n P t) = form n (fun i => f (P i)) t := by
  simp only [form, map_sum, map_smul]

theorem form_at_zero (n : Nat) (P : Nat → M) : form n P (0 : R) = P 0 := by
  induction n with
  | zero => exact form_order_zero P 0
  | succ n ih => rw [form_succ, ih, sub_zero, one_smul, zero_smul, add_zero]

theorem form_at_one (n : Nat) (P : Nat → M) : form n P (1 : R) = P n := by
  induction n generalizing P with
  | zero => exact form_order_zero P 1
  | succ n ih => rw [form_succ, ih (fun i => P (i + 1)), sub_self, zero_smul, one_smul, zero_add]

theorem form_const (n : Nat) (p : M) (t : R) : form n (fun _ => p) t = p := by
  induction n with
  | zero => exact form_order_zero _ t
  | succ n ih => rw [form_succ, ih, ← add_smul, sub_add_cancel, one_smul]

theorem form_add (n : Nat) (P Q : Nat → M) (t : R) : form n (fun i => P i + Q i) t = form n P t + form n Q t := by
  simp only [form, smul_add, sum_add_distrib]

theorem form_congr {P Q : Nat → M} (h : ∀ i ≤ n, P i = Q i) (t : R) : form n P t = form n Q t :=
  sum_congr rfl fun i hi => by rw [h i (Nat.le_of_lt_succ (mem_range.mp hi))]

/-- The points the other way round. -/
theorem form_reflect (n : Nat) (P : Nat → M) (t : R) : form n (fun i => P (n - i)) t = form n P (1 - t) := by
  unfold form
  rw [← sum_range_reflect]
  refine sum_congr rfl fun i hi => ?_
  have hle : i ≤ n := Nat.le_of_lt_succ (mem_range.mp hi)
  have hpoint : (fun i => P (n - i)) (n - i) = P i := congrArg P (Nat.sub_sub_self hle)
  rw [Nat.add_sub_cancel, Nat.sub_sub_self hle, Nat.choose_symm hle, sub_sub_cancel, mul_right_comm, hpoint]

end Module

section Convex
variable {K M : Type*} [CommRing K] [PartialOrder K] [IsOrderedRing K] [AddCommMonoid M] [Module K M] {n : Nat}

/-- A convex set has the curve with its points. -/
theorem form_mem {s : Set M} (hs : Convex K s) {P : Nat → M} {t : K} (h0 : 0 ≤ t) (h1 : t ≤ 1)
    (hP : ∀ i ≤ n, P i ∈ s) : form n P t ∈ s := by
  induction n generalizing P with
  | zero =>
    rw [form_order_zero]
    exact hP 0 (Nat.le_refl 0)
  | succ n ih =>
    rw [form_succ]
    refine hs (ih fun i hi => hP i (Nat.le_succ_of_le hi)) (ih fun i hi => hP (i + 1) (Nat.succ_le_succ hi))
      (sub_nonneg.mpr h1) h0 (sub_add_cancel 1 t)

end Convex

section Domain
variable {R : Type*} [CommRing R] {n i m : Nat} {P : Nat → R}

theorem eval_sum_bernsteinPolynomial (n : Nat) (P : Nat → R) (t : R) :
    (∑ i ∈ range (n + 1), C (P i) * bernsteinPolynomial R n i).eval t = form n P t := by
  rw [eval_finsetSum, form]
  refine sum_congr rfl fun i _ => ?_
  simp only [bernsteinPolynomial, eval_mul, eval_C, eval_natCast, eval_pow, eval_X, eval_sub, eval_one, smul_eq_mul]
  ring

theorem coeff_bernsteinPolynomial_of_lt (h : m < i) : (bernsteinPolynomial R n i).coeff m = 0 := by
  rw [bernsteinPolynomial, mul_assoc, coeff_natCast_mul, coeff_X_pow_mul', if_neg (Nat.not_le_of_lt h), mul_zero]

theorem coeff_bernsteinPolynomial_self (n m : Nat) : (bernsteinPolynomial R n m).coeff m = n.choose m := by
  rw [bernsteinPolynomial, mul_assoc, coeff_natCast_mul, coeff_X_pow_mul', if_pos (le_refl m), Nat.sub_self,
    coeff_zero_eq_eval_zero]
  simp

/-- A curve that is zero everywhere has no other control points than zero: the coefficient of `X ^ m` sees `P m`, and
    otherwise only points in front of it. -/
theorem eq_zero_of_form [IsDomain R] [CharZero R] (h : ∀ t : R, form n P t = 0) : ∀ m ≤ n, P m = 0 := by
  have hzero : ∑ i ∈ range (n + 1), C (P i) * bernsteinPolynomial R n i = 0 :=
    Polynomial.funext fun t => by rw [eval_sum_bernsteinPolynomial, h t, eval_zero]
  intro m
  induction m using Nat.strong_induction_on with
  | h m ih =>
    intro hm
    have hcoeff := congrArg (fun p => p.coeff m) hzero
    simp only [finsetSum_coeff, coeff_C_mul, coeff_zero] at hcoeff
    rw [sum_eq_single_of_mem m (mem_range.mpr (Nat.lt_succ_of_le hm)) ?_, coeff_bernsteinPolynomial_self] at hcoeff
    · exact (mul_eq_zero.mp hcoeff).resolve_right (Nat.cast_ne_zero.mpr (Nat.choose_pos hm).ne')
    · intro i _ hne
      rcases Nat.lt_or_gt_of_ne hne with hlt | hgt
      · rw [ih i hlt (hlt.le.trans hm), zero_mul]
      · rw [coeff_bernsteinPolynomial_of_lt hgt, mul_zero]

end Domain

end Bernstein
