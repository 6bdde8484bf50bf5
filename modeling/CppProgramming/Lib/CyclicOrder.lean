import Mathlib.Data.BitVec
import Mathlib.Tactic.Ring

/-! # Cyclic order of machine integers

A counter of `w` bits that is incremented again and again comes to every value before it is back at its start.
`distance s x` says how many values it passes before it is at `x`. -/

namespace CyclicOrder
variable {w : Nat} {s x y : BitVec w} {n : Nat}

/-- The number of values strictly between `s` and `x` on the way up from `s`; `s` itself is the last one
    to be reached. -/
def distance (s x : BitVec w) : Nat := (x - (s + 1)).toNat

theorem distance_lt : distance s x < 2 ^ w := BitVec.isLt _

theorem add_distance : s + BitVec.ofNat w (distance s x) + 1 = x := by
  rw [distance, BitVec.ofNat_toNat, BitVec.setWidth_eq]
  ring

theorem distance_inj (h : distance s x = distance s y) : x = y := by
  rw [← add_distance (s := s) (x := x), h, add_distance]

/-- After `n` increments the next value is at distance `n`. -/
theorem distance_add (h : n < 2 ^ w) : distance s (s + BitVec.ofNat w n + 1) = n := by
  have hdiff : s + BitVec.ofNat w n + 1 - (s + 1) = BitVec.ofNat w n := by ring
  rw [distance, hdiff, BitVec.toNat_ofNat, Nat.mod_eq_of_lt h]

/-- The start is the last value that the counter comes to. -/
theorem distance_self : distance s s + 1 = 2 ^ w := by
  have hpos : 0 < 2 ^ w := Nat.two_pow_pos w
  rw [distance, sub_add_cancel_left]
  have hneg : -(1 : BitVec w) = BitVec.allOnes w := BitVec.neg_one_eq_allOnes
  rw [hneg, BitVec.toNat_allOnes]
  omega

theorem add_eq_start (h : n < 2 ^ w) : s + BitVec.ofNat w n + 1 = s ↔ n + 1 = 2 ^ w := by
  constructor
  · intro heq
    rw [← distance_self (s := s), ← distance_add (s := s) h, heq]
  · intro heq
    apply distance_inj (s := s)
    rw [distance_add h]
    have hself := distance_self (s := s)
    omega

end CyclicOrder
