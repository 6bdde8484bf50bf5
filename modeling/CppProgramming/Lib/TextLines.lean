import CppProgramming.Lib.ByteString

/-! # Text files

What a loop over `std::getline` sees of a file, what line ends of two bytes change in it, and numbers in decimal. -/

namespace TextLines

/-- The line feed. -/
def lf : UInt8 := 10

/-- The carriage return. -/
def cr : UInt8 := 13

/-! ### Lines -/

/-- The lines of a file, without their line feeds. -/
def lines (file : ByteString) : List ByteString := file.splitOn lf

/-- A file with two bytes for each line feed. -/
def crlf (file : ByteString) : ByteString := file.flatMap fun b => if b = lf then [cr, lf] else [b]

theorem crlf_cons (b : UInt8) (file : ByteString) :
    crlf (b :: file) = (if b = lf then [cr, lf] else [b]) ++ crlf file := List.flatMap_cons

/-- Its lines are those of the file, some of them with a carriage return at their end. -/
theorem lines_crlf (file : ByteString) :
    List.Forall₂ (fun line line' => line' = line ∨ line' = line ++ [cr]) (lines file) (lines (crlf file)) := by
  induction file with
  | nil => exact .cons (.inl rfl) .nil
  | cons b file ih =>
    unfold lines at ih ⊢
    rw [crlf_cons, List.splitOn_cons_eq_if_modifyHead]
    by_cases hb : b = lf
    · subst hb
      have hline : lf ∉ [cr] := by decide
      rw [if_pos rfl, if_pos (beq_self_eq_true _)]
      show List.Forall₂ _ _ (([cr] ++ lf :: crlf file).splitOn lf)
      rw [List.splitOn_append_cons_self_of_not_mem hline]
      exact .cons (.inr rfl) ih
    · have hne : (b == lf) = false := beq_eq_false_iff_ne.mpr hb
      rw [if_neg hb, List.singleton_append, List.splitOn_cons_eq_if_modifyHead, hne]
      obtain ⟨line, rest, hline⟩ := List.exists_cons_of_ne_nil (List.splitOn_ne_nil lf file)
      rw [hline] at ih ⊢
      obtain ⟨line', rest', hhead, hrest, hline'⟩ := List.forall₂_cons_left_iff.mp ih
      rw [hline']
      exact .cons (hhead.imp (congrArg (b :: ·)) (congrArg (b :: ·))) hrest

/-! ### Separators -/

theorem find_separator {front : ByteString} {sep : UInt8} (h : sep ∉ front) (behind : ByteString) :
    ByteString.find [sep] (front ++ sep :: behind) = some front.length := by
  induction front with
  | nil => exact ByteString.find_zero_iff.mpr (by simp)
  | cons b front ih =>
    obtain ⟨hb, hfront⟩ := not_or.mp (List.mem_cons.not.mp h)
    have hstart : ¬[sep] <+: b :: (front ++ sep :: behind) := by simp [List.cons_prefix_cons, hb]
    rw [List.cons_append, ByteString.find_cons_of_not_start hstart, ih hfront]
    rfl

/-! ### Reading -/

/-- A `std::ifstream`: what has not been read, and `eof()`. -/
structure InputFile where
  rest : ByteString
  eof : Bool := false

namespace InputFile

/-- `std::getline(fs, s)`. -/
def getline (fs : InputFile) : ByteString × InputFile :=
  match fs.rest.dropWhile (· ≠ lf) with
  | [] => (fs.rest, ⟨[], true⟩)
  | _ :: rest => (fs.rest.takeWhile (· ≠ lf), ⟨rest, false⟩)

/-- The lines that are left for `while (!fs.eof())`. -/
def lines (fs : InputFile) : List ByteString := if fs.eof then [] else TextLines.lines fs.rest

theorem lines_getline {fs : InputFile} (h : fs.eof = false) :
    fs.lines = fs.getline.1 :: fs.getline.2.lines := by
  have hsplit := List.takeWhile_append_dropWhile (p := (· ≠ lf)) (l := fs.rest)
  have hline : lf ∉ fs.rest.takeWhile (· ≠ lf) := fun hmem => by
    have := List.mem_takeWhile_imp hmem
    simp at this
  rw [lines, h, getline]
  cases hrest : fs.rest.dropWhile (· ≠ lf) with
  | nil =>
    rw [hrest, List.append_nil] at hsplit
    rw [hsplit] at hline
    exact List.splitOn_eq_singleton hline
  | cons b rest =>
    have hb : b = lf := by
      have := List.head?_dropWhile_not (· ≠ lf) fs.rest
      rw [hrest] at this
      simpa using this
    rw [hrest, hb] at hsplit
    have hall : TextLines.lines fs.rest = fs.rest.takeWhile (· ≠ lf) :: TextLines.lines rest := by
      conv_lhs => rw [← hsplit]
      exact List.splitOn_append_cons_self_of_not_mem hline rest
    exact hall

end InputFile

/-! ### Numbers -/

/-- The digits of `n`, without a leading zero. -/
def decimal (n : Nat) : ByteString :=
  if n < 10 then [UInt8.ofNat (48 + n)] else decimal (n / 10) ++ [UInt8.ofNat (48 + n % 10)]

theorem digit_spec {d : Nat} (h : d < 10) :
    ByteString.isdigit (UInt8.ofNat (48 + d)) = true ∧ (UInt8.ofNat (48 + d)).toNat - 48 = d := by
  interval_cases d <;> decide

theorem digits_concat (s : ByteString) (b : UInt8) :
    ByteString.digits (s ++ [b]) = 10 * ByteString.digits s + (b.toNat - 48) := by
  rw [ByteString.digits, List.foldl_append]
  rfl

theorem decimal_isNumeral (n : Nat) : ByteString.IsNumeral (decimal n) n := by
  induction n using Nat.strong_induction_on with
  | _ n ih =>
    rw [decimal]
    split
    · next hlt =>
      obtain ⟨hdigit, hvalue⟩ := digit_spec hlt
      refine ⟨List.cons_ne_nil _ _, fun b hb => ?_, ?_⟩
      · rw [List.mem_singleton.mp hb]
        exact hdigit
      · rw [← List.nil_append [_], digits_concat, hvalue]
        exact Nat.zero_add n
    · next hle =>
      obtain ⟨-, hdigits, hvalue⟩ := ih (n / 10) (by omega)
      obtain ⟨hdigit, hlast⟩ := digit_spec (Nat.mod_lt n (by decide : 10 > 0))
      refine ⟨by simp, fun b hb => ?_, ?_⟩
      · rcases List.mem_append.mp hb with hb | hb
        · exact hdigits b hb
        · rw [List.mem_singleton.mp hb]
          exact hdigit
      · rw [digits_concat, hvalue, hlast]
        omega

end TextLines
