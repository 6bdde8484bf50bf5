import Mathlib

/-! # Byte strings

The operations of the C++ standard library on `std::string` that the programs use, over lists of
bytes: `find`, trimming by `std::isspace` in the C locale, and `std::stoi` (`strtol` in base 10 with a
range check). `substr(0, n)`, `substr(n)` and `erase(0, n)` are `List.take` and `List.drop`. -/

/-- The content of a `std::string`. -/
abbrev ByteString := List UInt8

namespace ByteString

/-- `s.find(pat)`: the first position at which `pat` starts, `none` for `npos`. -/
def find (pat : ByteString) : ByteString → Option Nat
  | [] => if pat = [] then some 0 else none
  | b :: s => if pat <+: b :: s then some 0 else (find pat s).map (· + 1)

/-- `std::isspace` in the C locale. -/
def isspace (b : UInt8) : Bool := b == 32 || (9 ≤ b && b ≤ 13)

/-- `std::isdigit`. -/
def isdigit (b : UInt8) : Bool := 48 ≤ b && b ≤ 57

/-- What `std::stoi` throws. -/
inductive StoiError where
  | invalidArgument
  | outOfRange
  deriving DecidableEq, Repr

/-- The number that a string of decimal digits denotes. -/
def digits (s : ByteString) : Nat := s.foldl (fun n b => 10 * n + (b.toNat - 48)) 0

/-- The sign that `strtol` reads, true for minus, and what follows it. -/
def sign : ByteString → Bool × ByteString
  | 45 :: s => (true, s)
  | 43 :: s => (false, s)
  | s => (false, s)

/-- `std::stoi(s)` with a 32-bit `int`: leading whitespace and one sign are skipped, and what follows
    the longest run of digits is ignored. -/
def stoi (s : ByteString) : Except StoiError Int :=
  let (negative, rest) := sign (s.dropWhile isspace)
  let ds := rest.takeWhile isdigit
  if ds = [] then .error .invalidArgument
  else
    let v : Int := if negative then -(digits ds : Int) else digits ds
    if v < -2 ^ 31 ∨ 2 ^ 31 - 1 < v then .error .outOfRange else .ok v

/-! ### Finding -/

theorem find_eq_none_iff {pat s : ByteString} : find pat s = none ↔ ¬pat <:+: s := by
  induction s with
  | nil =>
    unfold find
    by_cases h : pat = []
    · simp [h]
    · simp [h]
  | cons b s ih =>
    unfold find
    by_cases h : pat <+: b :: s
    · simp [h, h.isInfix]
    · simp [h, ih, List.infix_cons_iff]

theorem find_zero_iff {pat s : ByteString} : find pat s = some 0 ↔ pat <+: s := by
  cases s with
  | nil =>
    unfold find
    by_cases h : pat = []
    · simp [h]
    · simp [h]
  | cons b s =>
    unfold find
    by_cases h : pat <+: b :: s
    · simp [h]
    · simp [h]

theorem find_cons_of_not_start {pat s : ByteString} {b : UInt8} (h : ¬pat <+: b :: s) :
    find pat (b :: s) = (find pat s).map (· + 1) := by
  rw [find, if_neg h]

theorem find_append_of_some {pat s : ByteString} {n : Nat} (h : find pat s = some n) (t : ByteString) :
    find pat (s ++ t) = some n := by
  induction s generalizing n with
  | nil =>
    unfold find at h
    split at h
    · next hp =>
      cases h
      subst hp
      exact find_zero_iff.mpr List.nil_prefix
    · cases h
  | cons b s ih =>
    by_cases hp : pat <+: b :: s
    · rw [find, if_pos hp] at h
      cases h
      exact find_zero_iff.mpr (hp.trans (List.prefix_append _ _))
    · rw [find_cons_of_not_start hp] at h
      obtain ⟨m, hm, rfl⟩ := Option.map_eq_some_iff.mp h
      have hm' := ih hm
      have hp' : ¬pat <+: b :: (s ++ t) := by
        intro hp'
        -- `pat` lies inside `b :: s` because an occurrence in `s` is not longer than `s`.
        have hlen : pat.length ≤ (b :: s).length := by
          have : pat <:+: s := by
            by_contra hno
            rw [find_eq_none_iff.mpr hno] at hm
            cases hm
          exact Nat.le_succ_of_le this.length_le
        exact hp (List.prefix_of_prefix_length_le hp' (List.prefix_append (b :: s) t) hlen)
      rw [List.cons_append, find_cons_of_not_start hp', hm']
      rfl

theorem find_add_length_le {pat s : ByteString} {n : Nat} (h : find pat s = some n) :
    n + pat.length ≤ s.length := by
  induction s generalizing n with
  | nil =>
    unfold find at h
    split at h
    · next hp =>
      cases h
      simp [hp]
    · cases h
  | cons b s ih =>
    by_cases hp : pat <+: b :: s
    · rw [find, if_pos hp] at h
      cases h
      simpa using hp.length_le
    · rw [find_cons_of_not_start hp] at h
      obtain ⟨m, hm, rfl⟩ := Option.map_eq_some_iff.mp h
      have := ih hm
      simp only [List.length_cons]
      omega

theorem prefix_drop_of_find {pat s : ByteString} {n : Nat} (h : find pat s = some n) : pat <+: s.drop n := by
  induction s generalizing n with
  | nil =>
    unfold find at h
    split at h
    · next hp =>
      cases h
      rw [hp]
      exact List.nil_prefix
    · cases h
  | cons b s ih =>
    by_cases hp : pat <+: b :: s
    · rw [find, if_pos hp] at h
      cases h
      exact hp
    · rw [find_cons_of_not_start hp] at h
      obtain ⟨m, hm, rfl⟩ := Option.map_eq_some_iff.mp h
      exact ih hm

section Pair
variable {a b : UInt8}

/-- A pattern of two different bytes does not overlap itself: after a string without it, it is found at
    the end of that string. -/
theorem find_pair_append (hab : a ≠ b) {line : ByteString} (hline : ¬[a, b] <:+: line) (rest : ByteString) :
    find [a, b] (line ++ [a, b] ++ rest) = some line.length := by
  induction line with
  | nil => exact find_zero_iff.mpr (by simp)
  | cons x line ih =>
    rw [List.infix_cons_iff, not_or] at hline
    have hp : ¬[a, b] <+: x :: (line ++ [a, b] ++ rest) := by
      intro hp
      cases line with
      | nil =>
        simp only [List.nil_append, List.cons_append, List.cons_prefix_cons] at hp
        exact hab hp.2.1.symm
      | cons y line =>
        simp only [List.cons_append, List.cons_prefix_cons] at hp
        exact hline.1 (by simp [hp.1, hp.2.1])
    rw [List.cons_append, List.cons_append, find_cons_of_not_start hp, ih hline.2]
    rfl

/-- A proper prefix of a line and its end does not contain the end. -/
theorem not_infix_of_prefix_line (hab : a ≠ b) {line p : ByteString} (hline : ¬[a, b] <:+: line)
    (hp : p <+: line ++ [a, b]) (hlen : p.length < line.length + 2) : ¬[a, b] <:+: p := by
  intro hin
  have hsome : find [a, b] p ≠ none := fun h => find_eq_none_iff.mp h hin
  obtain ⟨n, hn⟩ := Option.ne_none_iff_exists'.mp hsome
  obtain ⟨t, ht⟩ := hp
  have h1 := find_append_of_some hn t
  have h2 := find_pair_append hab hline []
  rw [List.append_nil, ← ht, h1] at h2
  have h3 := find_add_length_le hn
  simp only [Option.some.injEq] at h2
  simp only [List.length_cons, List.length_nil] at h3
  omega

end Pair

/-! ### Numbers -/

/-- `v` is a decimal numeral for `n`. -/
def IsNumeral (v : ByteString) (n : Nat) : Prop := v ≠ [] ∧ (∀ b ∈ v, isdigit b = true) ∧ digits v = n

instance (v : ByteString) (n : Nat) : Decidable (IsNumeral v n) :=
  haveI : Decidable (∀ b ∈ v, isdigit b = true) := List.decidableBAll _ v
  inferInstanceAs (Decidable (_ ∧ _ ∧ _))

theorem isdigit_not_isspace {b : UInt8} (h : isdigit b = true) : isspace b = false := by
  simp only [isdigit, Bool.and_eq_true, decide_eq_true_eq, UInt8.le_iff_toNat_le] at h
  simp only [isspace, Bool.or_eq_false_iff, beq_eq_false_iff_ne, ne_eq, ← UInt8.toNat_inj, Bool.and_eq_false_iff,
    decide_eq_false_iff_not, UInt8.le_iff_toNat_le]
  simp at *
  omega

/-- A numeral is converted unless it is too large for an `int`. -/
theorem stoi_isNumeral {v : ByteString} {n : Nat} (h : IsNumeral v n) :
    stoi v = if 2 ^ 31 - 1 < n then .error .outOfRange else .ok n := by
  obtain ⟨hne, hdig, hval⟩ := h
  obtain ⟨b, s, rfl⟩ := List.exists_cons_of_ne_nil hne
  have hb := hdig b List.mem_cons_self
  have hdrop : (b :: s).dropWhile isspace = b :: s := by
    rw [List.dropWhile_cons_of_neg]
    simp [isdigit_not_isspace hb]
  have hsign : sign (b :: s) = (false, b :: s) := by
    unfold sign
    split
    · next heq =>
      cases heq
      exact absurd hb (by decide)
    · next heq =>
      cases heq
      exact absurd hb (by decide)
    · rfl
  have htake : (b :: s).takeWhile isdigit = b :: s := List.takeWhile_eq_self_iff.mpr hdig
  unfold stoi
  rw [hdrop, hsign]
  simp only [htake, reduceCtorEq, if_false, Bool.false_eq_true, hval]
  refine if_congr ?_ rfl rfl
  omega

theorem stoi_of_isNumeral {v : ByteString} {n : Nat} (h : IsNumeral v n) (hn : n ≤ 2 ^ 31 - 1) :
    stoi v = .ok n := by
  rw [stoi_isNumeral h, if_neg (Nat.not_lt.mpr hn)]

end ByteString
