import CppProgramming.Curve.BezierCurve

/-! # The exported curve

`BezierCurve` of the Python module: the number of the control points is known at run time, and the orders 0 to 10 are
instantiated. -/

namespace Crv
open BezierCurveRecursiveDefine

/-- `curve` is null until the constructor sets it. -/
structure BezierCurve (R : Type*) where
  curve : Option (Σ order, BezierCurveRecursiveDefine R order) := none

section Model
variable {R : Type*} [CommRing R]

/-- The memory from `&control_points[0]` on. -/
def elements (controlPoints : List (Point2D R)) (i : Nat) : Point2D R := controlPoints.getD i 0

/-- `BEZIER_CURVE_ORDER_CASE`. -/
def orderCase (controlPoints : List (Point2D R)) (order : Nat) : BezierCurve R :=
  { curve := some ⟨order, (construct (elements controlPoints) order 0).1⟩ }

/-- The constructor of `BezierCurve`. -/
def BezierCurve.ofControlPoints (controlPoints : List (Point2D R)) : BezierCurve R :=
  if controlPoints.isEmpty then {}
  else
    match controlPoints.length - 1 with
    | 0 => orderCase controlPoints 0
    | 1 => orderCase controlPoints 1
    | 2 => orderCase controlPoints 2
    | 3 => orderCase controlPoints 3
    | 4 => orderCase controlPoints 4
    | 5 => orderCase controlPoints 5
    | 6 => orderCase controlPoints 6
    | 7 => orderCase controlPoints 7
    | 8 => orderCase controlPoints 8
    | 9 => orderCase controlPoints 9
    | 10 => orderCase controlPoints 10
    | _ => {}

/-- `Create`, which Python calls. -/
def BezierCurve.create (controlPoints : List (Point2D R)) : BezierCurve R := .ofControlPoints controlPoints

/-- `BezierCurve::calc`. -/
def BezierCurve.calcAt (c : BezierCurve R) (t : R) : Point2D R :=
  match c.curve with
  | some curve => curve.2.calcAt t
  | none => ⟨0, 0⟩

end Model

/-! ### The curve of a list -/

section Curve
variable {R : Type*} [CommRing R] {points : List (Point2D R)}

/-- The recursive definition of the order that the list has. -/
def curveOf (points : List (Point2D R)) (t : R) : Point2D R :=
  (construct (elements points) (points.length - 1) 0).1.calcAt t

theorem curveOf_eq_form (points : List (Point2D R)) (t : R) :
    curveOf points t = Bernstein.form (points.length - 1) (elements points) t := by
  rw [curveOf, calcAt_construct]
  simp only [Nat.zero_add]

theorem elements_of_lt {i : Nat} (h : i < points.length) : elements points i = points[i] := by
  rw [elements, List.getD_eq_getElem _ _ h]

/-- The constructor of the recursive definition stays in the list. -/
theorem reads_lt (h : points ≠ []) :
    ∀ q ∈ (construct (elements points) (points.length - 1) 0).2, q < points.length := by
  intro q hq
  have hpos := List.length_pos_of_ne_nil h
  have hle := (mem_reads.mp hq).2
  omega

theorem curveOf_zero (h : points ≠ []) : points.head? = some (curveOf points 0) := by
  have hpos := List.length_pos_of_ne_nil h
  rw [curveOf_eq_form, Bernstein.form_at_zero, elements_of_lt hpos, List.head?_eq_getElem?,
    List.getElem?_eq_getElem hpos]

theorem curveOf_one (h : points ≠ []) : points.getLast? = some (curveOf points 1) := by
  have hlast : points.length - 1 < points.length := Nat.sub_one_lt (List.length_pos_of_ne_nil h).ne'
  rw [curveOf_eq_form, Bernstein.form_at_one, elements_of_lt hlast, List.getLast?_eq_getElem?,
    List.getElem?_eq_getElem hlast]

theorem curveOf_of_zero_points (h : ∀ p ∈ points, p = 0) (t : R) : curveOf points t = 0 := by
  rw [curveOf_eq_form, Bernstein.form]
  refine Finset.sum_eq_zero fun i _ => ?_
  have hzero : elements points i = 0 := by
    rcases Nat.lt_or_ge i points.length with hlt | hge
    · rw [elements_of_lt hlt]
      exact h _ (List.getElem_mem hlt)
    · exact List.getD_eq_default _ _ hge
  rw [hzero, smul_zero]

/-- A curve that is zero everywhere has zero points only. -/
theorem zero_points_of_curveOf [IsDomain R] [CharZero R] (h : ∀ t, curveOf points t = 0) : ∀ p ∈ points, p = 0 := by
  have hform : ∀ t : R, Bernstein.form (points.length - 1) (elements points) t = 0 := fun t =>
    (curveOf_eq_form points t).symm.trans (h t)
  intro p hp
  obtain ⟨i, hi, rfl⟩ := List.mem_iff_getElem.mp hp
  have hle : i ≤ points.length - 1 := Nat.le_sub_one_of_lt hi
  rw [← elements_of_lt hi]
  refine Point2D.ext ?_ ?_
  · refine Bernstein.eq_zero_of_form (P := fun i => (elements points i).x) (fun t => ?_) i hle
    exact (Bernstein.map_form Point2D.xLinear _ _ t).symm.trans (congrArg Point2D.x (hform t))
  · refine Bernstein.eq_zero_of_form (P := fun i => (elements points i).y) (fun t => ?_) i hle
    exact (Bernstein.map_form Point2D.yLinear _ _ t).symm.trans (congrArg Point2D.y (hform t))

end Curve

/-! ### The dispatch -/

section Dispatch
variable {R : Type*} [CommRing R] {points : List (Point2D R)}

theorem create_eq (h : points ≠ []) : BezierCurve.create points =
    if points.length - 1 ≤ 10 then orderCase points (points.length - 1) else {} := by
  rw [BezierCurve.create, BezierCurve.ofControlPoints, if_neg (by simpa using h)]
  generalize points.length - 1 = order
  rcases Nat.lt_or_ge 10 order with hlt | hle
  · rw [if_neg (Nat.not_le_of_lt hlt)]
    split
    iterate 11 exact absurd hlt (by decide)
    rfl
  · interval_cases order <;> rfl

theorem create_of_le (h : points ≠ []) (hle : points.length ≤ 11) (t : R) :
    (BezierCurve.create points).calcAt t = curveOf points t := by
  rw [create_eq h, if_pos (Nat.sub_le_of_le_add hle)]
  rfl

/-- There is no case for more points. -/
theorem create_of_lt (hlt : 11 < points.length) (t : R) : (BezierCurve.create points).calcAt t = 0 := by
  have hne : points ≠ [] := List.ne_nil_of_length_pos (Nat.zero_lt_of_lt hlt)
  have hmore : ¬points.length - 1 ≤ 10 := Nat.not_le_of_lt (Nat.lt_sub_of_add_lt hlt)
  rw [create_eq hne, if_neg hmore]
  rfl

end Dispatch

/-- `calc` is the curve of all the points, from the first to the last. -/
structure EvaluatesCurve {R : Type*} [CommRing R] (points : List (Point2D R)) : Prop where
  curve : ∀ t, (BezierCurve.create points).calcAt t = curveOf points t
  first : points.head? = some ((BezierCurve.create points).calcAt 0)
  last : points.getLast? = some ((BezierCurve.create points).calcAt 1)

theorem create_evaluatesCurve_iff {R : Type*} [CommRing R] [IsDomain R] [CharZero R] (points : List (Point2D R))
    (hne : points ≠ []) : EvaluatesCurve points ↔ points.length ≤ 11 ∨ ∀ p ∈ points, p = 0 := by
  constructor
  · intro h
    rcases Nat.lt_or_ge 11 points.length with hlt | hle
    · exact .inr (zero_points_of_curveOf fun t => (h.curve t).symm.trans (create_of_lt hlt t))
    · exact .inl hle
  · intro h
    have hcurve : ∀ t, (BezierCurve.create points).calcAt t = curveOf points t := by
      intro t
      rcases Nat.lt_or_ge 11 points.length with hlt | hle
      · rw [create_of_lt hlt, curveOf_of_zero_points (h.resolve_left (Nat.not_le_of_lt hlt))]
      · exact create_of_le hne hle t
    exact ⟨hcurve, (curveOf_zero hne).trans (congrArg some (hcurve 0).symm),
      (curveOf_one hne).trans (congrArg some (hcurve 1).symm)⟩

theorem create_evaluatesCurve_line : EvaluatesCurve ([⟨1, 2⟩, ⟨3, 5⟩] : List (Point2D ℚ)) :=
  (create_evaluatesCurve_iff _ (List.cons_ne_nil _ _)).mpr (.inl (by decide))

/-- Twelve points at `(1, 1)` make no curve. -/
theorem not_evaluatesCurve_twelve : ¬∀ points : List (Point2D ℚ), points ≠ [] → EvaluatesCurve points := by
  intro h
  have hfirst := (h (List.replicate 12 ⟨1, 1⟩) (List.cons_ne_nil _ _)).first
  rw [create_of_lt (by decide)] at hfirst
  have hx : (1 : ℚ) = 0 := congrArg Point2D.x (Option.some.inj hfirst)
  exact one_ne_zero hx

end Crv
