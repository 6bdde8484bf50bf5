import CppProgramming.Curve.CurvePy

/-! # The shape of a curve

What a user of the exported curve sees of it without its formula: it stays between its control points, it does not
depend on the direction in which these are given, and it moves with them. -/

namespace Crv

/-- The curve of `points`, as a shape. -/
structure Shape {K : Type*} [CommRing K] [PartialOrder K] (points : List (Point2D K)) : Prop where
  hull : ∀ t, 0 ≤ t → t ≤ 1 → (BezierCurve.create points).calcAt t ∈ convexHull K {p | p ∈ points}
  backwards : ∀ t, (BezierCurve.create points.reverse).calcAt t = (BezierCurve.create points).calcAt (1 - t)
  moved : ∀ (f : Point2D K →ₗ[K] Point2D K) (c : Point2D K) (t : K),
    (BezierCurve.create (points.map fun p => f p + c)).calcAt t = f ((BezierCurve.create points).calcAt t) + c

section Shape
variable {K : Type*} [CommRing K] {points : List (Point2D K)}

theorem elements_reverse {i : Nat} (h : i ≤ points.length - 1) (hne : points ≠ []) :
    elements points.reverse i = elements points (points.length - 1 - i) := by
  have hpos := List.length_pos_of_ne_nil hne
  have hlt : i < points.reverse.length := by
    rw [List.length_reverse]
    omega
  rw [elements_of_lt hlt, List.getElem_reverse, elements_of_lt (by omega)]

theorem curveOf_reverse (hne : points ≠ []) (t : K) : curveOf points.reverse t = curveOf points (1 - t) := by
  rw [curveOf_eq_form, curveOf_eq_form, List.length_reverse, ← Bernstein.form_reflect]
  exact Bernstein.form_congr (fun i hi => elements_reverse hi hne) t

theorem curveOf_map (hne : points ≠ []) (f : Point2D K →ₗ[K] Point2D K) (c : Point2D K) (t : K) :
    curveOf (points.map fun p => f p + c) t = f (curveOf points t) + c := by
  have hpos := List.length_pos_of_ne_nil hne
  have hpoints : ∀ i ≤ points.length - 1,
      elements (points.map fun p => f p + c) i = f (elements points i) + c := by
    intro i hi
    have hlt : i < points.length := by omega
    rw [elements_of_lt (by rwa [List.length_map]), List.getElem_map, elements_of_lt hlt]
  rw [curveOf_eq_form, curveOf_eq_form, List.length_map, Bernstein.form_congr hpoints, Bernstein.form_add,
    Bernstein.form_const, Bernstein.map_form]

theorem curveOf_mem [PartialOrder K] [IsOrderedRing K] (hne : points ≠ []) {t : K} (h0 : 0 ≤ t) (h1 : t ≤ 1) :
    curveOf points t ∈ convexHull K {p | p ∈ points} := by
  have hpos := List.length_pos_of_ne_nil hne
  rw [curveOf_eq_form]
  refine Bernstein.form_mem (convex_convexHull K _) h0 h1 fun i hi => subset_convexHull K _ ?_
  rw [elements_of_lt (by omega)]
  exact List.getElem_mem _

end Shape

/-- Up to eleven points the exported curve has the shape of a Bézier curve. -/
theorem create_shape {K : Type*} [CommRing K] [PartialOrder K] [IsOrderedRing K] (points : List (Point2D K))
    (hne : points ≠ []) (hle : points.length ≤ 11) : Shape points := by
  refine ⟨fun t h0 h1 => ?_, fun t => ?_, fun f c t => ?_⟩
  · rw [create_of_le hne hle]
    exact curveOf_mem hne h0 h1
  · have hne' : points.reverse ≠ [] := List.reverse_ne_nil_iff.mpr hne
    rw [create_of_le hne' (by rwa [List.length_reverse]), create_of_le hne hle]
    exact curveOf_reverse hne t
  · have hne' : points.map (fun p => f p + c) ≠ [] := List.map_eq_nil_iff.not.mpr hne
    rw [create_of_le hne' (by rwa [List.length_map]), create_of_le hne hle]
    exact curveOf_map hne f c t

theorem create_shape_arc : Shape ([⟨0, 0⟩, ⟨1, 2⟩, ⟨2, 0⟩] : List (Point2D ℚ)) :=
  create_shape _ (List.cons_ne_nil _ _) (by decide)

end Crv
