import CppProgramming.Lib.Bernstein

/-! # Bézier curves

`BezierCurveRecursiveDefine` and the exported `BezierCurve`, which dispatches on the number of its control points, over
a commutative ring in the place of `double`. -/

namespace Crv
open Finset

/-- `Point2D`. -/
@[ext]
structure Point2D (R : Type*) where
  x : R
  y : R
  deriving DecidableEq

/-! ### Points as a module -/

section Operators
variable {R : Type*} [CommRing R]

/-- `operator*` of a number and a point. -/
instance : SMul R (Point2D R) := ⟨fun v p => ⟨p.x * v, p.y * v⟩⟩

/-- `operator+`. -/
instance : Add (Point2D R) := ⟨fun pA pB => ⟨pA.x + pB.x, pA.y + pB.y⟩⟩

instance : Zero (Point2D R) := ⟨⟨0, 0⟩⟩

@[simp] theorem smul_x (v : R) (p : Point2D R) : (v • p).x = p.x * v := rfl
@[simp] theorem smul_y (v : R) (p : Point2D R) : (v • p).y = p.y * v := rfl
@[simp] theorem add_x (p q : Point2D R) : (p + q).x = p.x + q.x := rfl
@[simp] theorem add_y (p q : Point2D R) : (p + q).y = p.y + q.y := rfl
@[simp] theorem zero_x : (0 : Point2D R).x = 0 := rfl
@[simp] theorem zero_y : (0 : Point2D R).y = 0 := rfl

instance : AddCommMonoid (Point2D R) where
  add_assoc _ _ _ := Point2D.ext (add_assoc ..) (add_assoc ..)
  zero_add _ := Point2D.ext (zero_add _) (zero_add _)
  add_zero _ := Point2D.ext (add_zero _) (add_zero _)
  add_comm _ _ := Point2D.ext (add_comm ..) (add_comm ..)
  nsmul := nsmulRec

instance : Module R (Point2D R) where
  one_smul _ := Point2D.ext (mul_one _) (mul_one _)
  mul_smul v w p := Point2D.ext (by simp; ring) (by simp; ring)
  smul_zero v := Point2D.ext (zero_mul v) (zero_mul v)
  smul_add v p q := Point2D.ext (add_mul ..) (add_mul ..)
  add_smul v w p := Point2D.ext (mul_add ..) (mul_add ..)
  zero_smul p := Point2D.ext (mul_zero _) (mul_zero _)

/-- The first coordinate, as a linear map. -/
def Point2D.xLinear : Point2D R →ₗ[R] R where
  toFun := Point2D.x
  map_add' _ _ := rfl
  map_smul' _ _ := mul_comm ..

/-- The second coordinate, as a linear map. -/
def Point2D.yLinear : Point2D R →ₗ[R] R where
  toFun := Point2D.y
  map_add' _ _ := rfl
  map_smul' _ _ := mul_comm ..

end Operators

/-! ### The recursive definition -/

/-- The objects of the template. -/
inductive BezierCurveRecursiveDefine (R : Type*) : Nat → Type _
  | point (p : Point2D R) : BezierCurveRecursiveDefine R 0
  | blend {order : Nat} (cA cB : BezierCurveRecursiveDefine R order) : BezierCurveRecursiveDefine R (order + 1)

namespace BezierCurveRecursiveDefine
variable {R : Type*} {memory : Nat → Point2D R} {order p q : Nat}

/-- The constructor with the pointer `p`, and the addresses that it reads in this order. -/
def construct (memory : Nat → Point2D R) : (order p : Nat) → BezierCurveRecursiveDefine R order × List Nat
  | 0, p => (.point (memory p), [p])
  | order + 1, p =>
    let (cA, readsA) := construct memory order p
    let (cB, readsB) := construct memory order (p + 1)
    (.blend cA cB, readsA ++ readsB)

/-- `calc`, which reads no memory: the leaves hold copies of the points. -/
def calcAt [CommRing R] : {order : Nat} → BezierCurveRecursiveDefine R order → R → Point2D R
  | _, .point p, _ => p
  | _, .blend cA cB, t => (1 - t) • cA.calcAt t + t • cB.calcAt t

theorem calcAt_construct [CommRing R] (memory : Nat → Point2D R) (order p : Nat) (t : R) :
    (construct memory order p).1.calcAt t = Bernstein.form order (fun i => memory (p + i)) t := by
  induction order generalizing p with
  | zero => exact (Bernstein.form_order_zero (fun i => memory (p + i)) t).symm
  | succ order ih =>
    have hshift : (fun i => memory (p + 1 + i)) = fun i => memory (p + (i + 1)) :=
      funext fun i => by rw [Nat.add_assoc, Nat.add_comm 1]
    rw [Bernstein.form_succ, ← ih p, ← hshift, ← ih (p + 1)]
    rfl

theorem mem_reads : q ∈ (construct memory order p).2 ↔ p ≤ q ∧ q ≤ p + order := by
  induction order generalizing p with
  | zero =>
    have hmem : q ∈ [p] ↔ p ≤ q ∧ q ≤ p + 0 := by
      rw [List.mem_singleton]
      omega
    exact hmem
  | succ order ih =>
    have hmem : q ∈ (construct memory order p).2 ++ (construct memory order (p + 1)).2 ↔
        p ≤ q ∧ q ≤ p + (order + 1) := by
      rw [List.mem_append, ih, ih]
      omega
    exact hmem

end BezierCurveRecursiveDefine

/-- The curve is its Bernstein form, and the constructor reads the points of the form and no others. -/
theorem recursiveDefine_eq_bernstein {R : Type*} [CommRing R] (memory : Nat → Point2D R) (order p : Nat) (t : R) :
    (BezierCurveRecursiveDefine.construct memory order p).1.calcAt t =
        ∑ i ∈ range (order + 1), ((order.choose i : R) * (1 - t) ^ (order - i) * t ^ i) • memory (p + i) ∧
      ∀ q, q ∈ (BezierCurveRecursiveDefine.construct memory order p).2 ↔ p ≤ q ∧ q ≤ p + order :=
  ⟨BezierCurveRecursiveDefine.calcAt_construct memory order p t, fun _ => BezierCurveRecursiveDefine.mem_reads⟩

end Crv
