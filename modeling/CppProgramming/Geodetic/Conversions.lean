import Mathlib

/-! # Geodetic coordinates

The conversions between geodetic, ECEF and ENU coordinates over a field in the place of `double`. The functions of
`<cmath>` are a parameter. -/

namespace Geodetic

/-- `std::sin`, `std::cos` and `sqrt`. -/
structure Cmath (K : Type*) where
  sin : K → K
  cos : K → K
  sqrt : K → K

/-! ### The program -/

section Model
variable {K : Type*} [Field K]

/-- `PI`. -/
def PI : K := 3.14159265358979323846

/-- `degreeToRadian`. -/
def degreeToRadian (degrees : K) : K := PI / 180 * degrees

/-- WGS 84 equatorial radius. -/
def a : K := 6378137.0

/-- WGS 84 flattening. -/
def f : K := 1.0 / 298.257223563

/-- Square of the first numerical eccentricity. -/
def e2 : K := f * (2 - f)

/-- Distance from the surface to the Z-axis along the ellipsoid normal. -/
def N (m : Cmath K) (phi : K) : K :=
  let sinPhi := m.sin phi
  a / m.sqrt (1 - e2 * (sinPhi * sinPhi))

/-- `GeoditicCoord`: latitude, longitude and height. -/
@[ext]
structure GeoditicCoord (K : Type*) where
  latitude : K
  longitude : K
  height : K

/-- `EcefCoord`: earth-centred, earth-fixed. -/
@[ext]
structure EcefCoord (K : Type*) where
  x : K
  y : K
  z : K

/-- `EnuCoord`: east, north and up of a reference point. -/
@[ext]
structure EnuCoord (K : Type*) where
  e : K
  n : K
  u : K

/-- `geodetic_to_ecef` of the sines and cosines. -/
def anglesToEcef (sinPhi cosPhi sinLambda cosLambda NPhi h : K) : EcefCoord K where
  x := (NPhi + h) * cosPhi * cosLambda
  y := (NPhi + h) * cosPhi * sinLambda
  z := ((1 - e2) * NPhi + h) * sinPhi

/-- `geodetic_to_ecef` of a `GeoditicCoord`. -/
def geodeticToEcef (m : Cmath K) (geo : GeoditicCoord K) : EcefCoord K :=
  let lambda := degreeToRadian geo.longitude
  let phi := degreeToRadian geo.latitude
  anglesToEcef (m.sin phi) (m.cos phi) (m.sin lambda) (m.cos lambda) (N m phi) geo.height

/-- `ecefToEnu`, with the sines and cosines of the reference point. -/
def ecefToEnu (sinPhi0 cosPhi0 sinLambda0 cosLambda0 : K) (ecef0 ecef : EcefCoord K) : EnuCoord K :=
  let dx := ecef.x - ecef0.x
  let dy := ecef.y - ecef0.y
  let dz := ecef.z - ecef0.z
  { e := -sinLambda0 * dx + cosLambda0 * dy
    n := -sinPhi0 * cosLambda0 * dx + -sinPhi0 * sinLambda0 * dy + cosPhi0 * dz
    u := cosPhi0 * cosLambda0 * dx + cosPhi0 * sinLambda0 * dy + sinPhi0 * dz }

/-- `geodeticToEnu`, by way of ECEF. -/
def geodeticToEnu (m : Cmath K) (geo0 geo : GeoditicCoord K) : EnuCoord K :=
  let lambda0 := degreeToRadian geo0.longitude
  let phi0 := degreeToRadian geo0.latitude
  let ecef0 := anglesToEcef (m.sin phi0) (m.cos phi0) (m.sin lambda0) (m.cos lambda0) (N m phi0) geo0.height
  ecefToEnu (m.sin phi0) (m.cos phi0) (m.sin lambda0) (m.cos lambda0) ecef0 (geodeticToEcef m geo)

/-- `enuToEcef`, with the sines and cosines of the reference point. -/
def enuToEcef (sinPhi0 cosPhi0 sinLambda0 cosLambda0 : K) (ecef0 : EcefCoord K) (enu : EnuCoord K) :
    EcefCoord K where
  x := -sinLambda0 * enu.e + -sinPhi0 * cosLambda0 * enu.n + cosPhi0 * cosLambda0 * enu.u + ecef0.x
  y := cosLambda0 * enu.e + -sinPhi0 * sinLambda0 * enu.n + cosPhi0 * sinLambda0 * enu.u + ecef0.y
  z := cosPhi0 * enu.n + sinPhi0 * enu.u + ecef0.z

/-- The square of the Euclidean distance. -/
def EcefCoord.distSq (p q : EcefCoord K) : K := (p.x - q.x) ^ 2 + (p.y - q.y) ^ 2 + (p.z - q.z) ^ 2

/-- The square of the distance. -/
def EnuCoord.distSq (p q : EnuCoord K) : K := (p.e - q.e) ^ 2 + (p.n - q.n) ^ 2 + (p.u - q.u) ^ 2

end Model

/-! ### ECEF and ENU -/

section Rotation
variable {K : Type*} [Field K] {sp cp sl cl : K}

theorem enuToEcef_ecefToEnu (hphi : sp ^ 2 + cp ^ 2 = 1) (hlambda : sl ^ 2 + cl ^ 2 = 1) (ecef0 p : EcefCoord K) :
    enuToEcef sp cp sl cl ecef0 (ecefToEnu sp cp sl cl ecef0 p) = p := by
  refine EcefCoord.ext ?_ ?_ ?_ <;> simp only [enuToEcef, ecefToEnu]
  · linear_combination
      (cl ^ 2 * (p.x - ecef0.x) + cl * sl * (p.y - ecef0.y)) * hphi + (p.x - ecef0.x) * hlambda
  · linear_combination
      (cl * sl * (p.x - ecef0.x) + sl ^ 2 * (p.y - ecef0.y)) * hphi + (p.y - ecef0.y) * hlambda
  · linear_combination (p.z - ecef0.z) * hphi

theorem ecefToEnu_enuToEcef (hphi : sp ^ 2 + cp ^ 2 = 1) (hlambda : sl ^ 2 + cl ^ 2 = 1) (ecef0 : EcefCoord K)
    (q : EnuCoord K) : ecefToEnu sp cp sl cl ecef0 (enuToEcef sp cp sl cl ecef0 q) = q := by
  refine EnuCoord.ext ?_ ?_ ?_ <;> simp only [enuToEcef, ecefToEnu]
  · linear_combination q.e * hlambda
  · linear_combination q.n * hphi + (sp ^ 2 * q.n - sp * cp * q.u) * hlambda
  · linear_combination q.u * hphi + (cp ^ 2 * q.u - sp * cp * q.n) * hlambda

theorem ecefToEnu_distSq (hphi : sp ^ 2 + cp ^ 2 = 1) (hlambda : sl ^ 2 + cl ^ 2 = 1) (ecef0 p q : EcefCoord K) :
    (ecefToEnu sp cp sl cl ecef0 p).distSq (ecefToEnu sp cp sl cl ecef0 q) = p.distSq q := by
  simp only [EnuCoord.distSq, EcefCoord.distSq, ecefToEnu]
  linear_combination
    ((cl * (p.x - q.x) + sl * (p.y - q.y)) ^ 2 + (p.z - q.z) ^ 2) * hphi +
      ((p.x - q.x) ^ 2 + (p.y - q.y) ^ 2) * hlambda

end Rotation

/-- The two conversions are inverse to each other and keep distances. -/
theorem ecef_enu_isometry {K : Type*} [Field K] (sinPhi0 cosPhi0 sinLambda0 cosLambda0 : K)
    (hphi : sinPhi0 ^ 2 + cosPhi0 ^ 2 = 1) (hlambda : sinLambda0 ^ 2 + cosLambda0 ^ 2 = 1) (ecef0 : EcefCoord K) :
    (∀ p, enuToEcef sinPhi0 cosPhi0 sinLambda0 cosLambda0 ecef0
        (ecefToEnu sinPhi0 cosPhi0 sinLambda0 cosLambda0 ecef0 p) = p) ∧
      (∀ q, ecefToEnu sinPhi0 cosPhi0 sinLambda0 cosLambda0 ecef0
        (enuToEcef sinPhi0 cosPhi0 sinLambda0 cosLambda0 ecef0 q) = q) ∧
      ∀ p p', (ecefToEnu sinPhi0 cosPhi0 sinLambda0 cosLambda0 ecef0 p).distSq
        (ecefToEnu sinPhi0 cosPhi0 sinLambda0 cosLambda0 ecef0 p') = p.distSq p' :=
  ⟨enuToEcef_ecefToEnu hphi hlambda ecef0, ecefToEnu_enuToEcef hphi hlambda ecef0,
    ecefToEnu_distSq hphi hlambda ecef0⟩

/-- At the angles of the triangles 3, 4, 5 and 5, 12, 13. -/
theorem ecef_enu_isometry_triangles :
    enuToEcef (3 / 5) (4 / 5) (5 / 13) (12 / 13) (⟨1, 2, 3⟩ : EcefCoord ℚ)
      (ecefToEnu (3 / 5) (4 / 5) (5 / 13) (12 / 13) ⟨1, 2, 3⟩ ⟨5, 7, 11⟩) = ⟨5, 7, 11⟩ :=
  (ecef_enu_isometry (3 / 5) (4 / 5) (5 / 13) (12 / 13) (by norm_num) (by norm_num) ⟨1, 2, 3⟩).1 ⟨5, 7, 11⟩

/-! ### The ellipsoid -/

section Ellipsoid
variable {K : Type*} [Field K] {sp cp sl cl n : K}

theorem a_ne_zero [CharZero K] : (a : K) ≠ 0 := by
  norm_num [a]

theorem one_sub_e2_ne_zero [CharZero K] : (1 - e2 : K) ≠ 0 := by
  norm_num [e2, f]

/-- At height 0 the point is on the ellipsoid with the axes `a`, `a` and `a * sqrt (1 - e2)`. -/
theorem anglesToEcef_on_ellipsoid [CharZero K] (hphi : sp ^ 2 + cp ^ 2 = 1) (hlambda : sl ^ 2 + cl ^ 2 = 1)
    (hn : n ^ 2 * (1 - e2 * sp ^ 2) = a ^ 2) :
    ((anglesToEcef sp cp sl cl n 0).x ^ 2 + (anglesToEcef sp cp sl cl n 0).y ^ 2) / a ^ 2 +
      (anglesToEcef sp cp sl cl n 0).z ^ 2 / (a ^ 2 * (1 - e2)) = 1 := by
  have ha : (a : K) ≠ 0 := a_ne_zero
  have he : (1 - e2 : K) ≠ 0 := one_sub_e2_ne_zero
  have hplane : (anglesToEcef sp cp sl cl n 0).x ^ 2 + (anglesToEcef sp cp sl cl n 0).y ^ 2 = n ^ 2 * cp ^ 2 := by
    simp only [anglesToEcef]
    linear_combination n ^ 2 * cp ^ 2 * hlambda
  have haxis : (anglesToEcef sp cp sl cl n 0).z ^ 2 = (1 - e2) * ((1 - e2) * n ^ 2 * sp ^ 2) := by
    simp only [anglesToEcef]
    ring
  rw [hplane, haxis, mul_comm (a ^ 2), mul_div_mul_left _ _ he, ← add_div, div_eq_one_iff_eq (pow_ne_zero 2 ha)]
  linear_combination n ^ 2 * hphi + hn

/-- On one normal of the ellipsoid only the height changes. -/
theorem ecefToEnu_same_angles (hphi : sp ^ 2 + cp ^ 2 = 1) (hlambda : sl ^ 2 + cl ^ 2 = 1) (n h h0 : K) :
    ecefToEnu sp cp sl cl (anglesToEcef sp cp sl cl n h0) (anglesToEcef sp cp sl cl n h) = ⟨0, 0, h - h0⟩ := by
  refine EnuCoord.ext ?_ ?_ ?_ <;> simp only [ecefToEnu, anglesToEcef]
  · ring
  · linear_combination -(sp * cp * (h - h0)) * hlambda
  · linear_combination (h - h0) * hphi + cp ^ 2 * (h - h0) * hlambda

end Ellipsoid

/-! ### Real numbers -/

/-- The functions without rounding. -/
noncomputable def Cmath.real : Cmath ℝ := ⟨Real.sin, Real.cos, Real.sqrt⟩

/-- The root in `N` is defined: no sine is large enough for the eccentricity. -/
theorem one_sub_e2_sin_sq_pos (phi : ℝ) : 0 < 1 - e2 * Real.sin phi ^ 2 := by
  have he : (0 : ℝ) < e2 := by norm_num [e2, f]
  have he1 : (e2 : ℝ) < 1 := by norm_num [e2, f]
  have hsin : e2 * Real.sin phi ^ 2 ≤ e2 := mul_le_of_le_one_right he.le (Real.sin_sq_le_one phi)
  linarith

theorem real_N_sq (phi : ℝ) : N .real phi ^ 2 * (1 - e2 * Real.sin phi ^ 2) = a ^ 2 := by
  have hpos := one_sub_e2_sin_sq_pos phi
  have hN : N .real phi = a / Real.sqrt (1 - e2 * Real.sin phi ^ 2) := by
    rw [sq]
    rfl
  rw [hN, div_pow, Real.sq_sqrt hpos.le, div_mul_cancel₀ _ hpos.ne']

/-- At height 0 the position is on the ellipsoid, and from one height to another it moves along the `u` axis. -/
theorem geodetic_consistent {K : Type*} [Field K] [CharZero K] (m : Cmath K) (latitude longitude h h0 : K)
    (hphi : m.sin (degreeToRadian latitude) ^ 2 + m.cos (degreeToRadian latitude) ^ 2 = 1)
    (hlambda : m.sin (degreeToRadian longitude) ^ 2 + m.cos (degreeToRadian longitude) ^ 2 = 1)
    (hN : N m (degreeToRadian latitude) ^ 2 * (1 - e2 * m.sin (degreeToRadian latitude) ^ 2) = a ^ 2) :
    ((geodeticToEcef m ⟨latitude, longitude, 0⟩).x ^ 2 + (geodeticToEcef m ⟨latitude, longitude, 0⟩).y ^ 2) / a ^ 2 +
        (geodeticToEcef m ⟨latitude, longitude, 0⟩).z ^ 2 / (a ^ 2 * (1 - e2)) = 1 ∧
      geodeticToEnu m ⟨latitude, longitude, h0⟩ ⟨latitude, longitude, h⟩ = ⟨0, 0, h - h0⟩ :=
  ⟨anglesToEcef_on_ellipsoid hphi hlambda hN, ecefToEnu_same_angles hphi hlambda _ h h0⟩

theorem geodetic_consistent_real :
    ((geodeticToEcef .real ⟨46.017, 7.750, 0⟩).x ^ 2 + (geodeticToEcef .real ⟨46.017, 7.750, 0⟩).y ^ 2) / a ^ 2 +
        (geodeticToEcef .real ⟨46.017, 7.750, 0⟩).z ^ 2 / (a ^ 2 * (1 - e2)) = 1 ∧
      geodeticToEnu .real ⟨46.017, 7.750, 1673⟩ ⟨46.017, 7.750, 4531⟩ = ⟨0, 0, 4531 - 1673⟩ :=
  geodetic_consistent .real 46.017 7.750 4531 1673 (Real.sin_sq_add_cos_sq _) (Real.sin_sq_add_cos_sq _) (real_N_sq _)

end Geodetic
