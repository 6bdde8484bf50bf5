import CppProgramming.Lib.Assignments
import CppProgramming.Lib.TextLines
import CppProgramming.SimpleHttp.HttpRequest

/-! # The configuration of the server

`Config` reads `./config` line by line. A line with a `=` gives a value to a name; other lines and unknown names are
passed over, and an exception of `std::stoi` leaves the constructor. -/

namespace SimpleHttp.ConfigFile
open Assignments (lastOr lastOr_cons lastOr_concat)
open ByteString (StoiError stoi)
open HttpRequest (trim)
open TextLines (lf cr InputFile)

/-- `Config`, with `DEFAULT_PORT` and `EP_EVENT_COUNT`. -/
structure Config where
  logLevel : ByteString := []
  port : UInt16 := 5666
  epEventCount : UInt64 := 10
  deriving DecidableEq

/-- Why there is no `Config`: `exit(1)`, or an exception. -/
inductive ConfigError where
  | exit
  | stoi (e : StoiError)
  deriving DecidableEq

namespace Config

/-- `"port"`. -/
def portName : ByteString := [112, 111, 114, 116]

/-- `"log_level"`. -/
def logLevelName : ByteString := [108, 111, 103, 95, 108, 101, 118, 101, 108]

/-- `'='`. -/
def sep : UInt8 := 61

/-- `ParseLine`. -/
def parseLine (c : Config) (s : ByteString) : Except StoiError Config :=
  let s := trim s
  match ByteString.find [sep] s with
  | none => .ok c
  | some pos =>
    let name := trim (s.take pos)
    let value := trim (s.drop (pos + 1))
    if name = portName then
      match stoi value with
      | .ok v => .ok { c with port := UInt16.ofInt v }
      | .error e => .error e
    else if name = logLevelName then .ok { c with logLevel := value }
    else .ok c

/-- The loop of the constructor. -/
def readLines (c : Config) (fs : InputFile) : Except StoiError Config :=
  if fs.eof then .ok c
  else
    match c.parseLine fs.getline.1 with
    | .ok c' => c'.readLines fs.getline.2
    | .error e => .error e
termination_by fs.lines.length
decreasing_by
  next heof =>
    rw [TextLines.InputFile.lines_getline (Bool.eq_false_of_not_eq_true heof)]
    exact Nat.lt_succ_self _

/-- `Config::Config`, where `none` is a file that cannot be opened. -/
def construct : Option ByteString → Except ConfigError Config
  | none => .error .exit
  | some file => (readLines {} ⟨file, false⟩).mapError .stoi

theorem readLines_eq (c : Config) (fs : InputFile) : c.readLines fs = fs.lines.foldlM parseLine c := by
  induction hn : fs.lines.length generalizing c fs with
  | zero =>
    have heof : fs.eof = true := by
      by_contra heof
      rw [TextLines.InputFile.lines_getline (Bool.eq_false_of_not_eq_true heof)] at hn
      cases hn
    rw [readLines, if_pos heof, InputFile.lines, if_pos heof]
    rfl
  | succ n ih =>
    cases heof : fs.eof with
    | true =>
      rw [InputFile.lines, heof] at hn
      cases hn
    | false =>
      have hlines := TextLines.InputFile.lines_getline heof
      rw [hlines] at hn
      rw [readLines, heof, hlines, List.foldlM_cons]
      cases c.parseLine fs.getline.1 with
      | ok c' => exact ih c' fs.getline.2 (Nat.succ.inj hn)
      | error e => rfl

/-! ### Blanks -/

section Trim
variable {s x y p : ByteString}

theorem rdropWhile_blank (h : ∀ b ∈ p, ByteString.isspace b = true) :
    (s ++ p).rdropWhile ByteString.isspace = s.rdropWhile ByteString.isspace := by
  rw [List.rdropWhile, List.reverse_append, List.dropWhile_append_of_pos fun b hb => h b (List.mem_reverse.mp hb)]
  rfl

theorem trim_blank_right (h : ∀ b ∈ p, ByteString.isspace b = true) : trim (s ++ p) = trim s := by
  rw [trim, List.dropWhile_append]
  split
  · next hnil =>
    have hp : p.dropWhile ByteString.isspace = [] := List.dropWhile_eq_nil_iff.mpr h
    rw [hp, trim, List.isEmpty_iff.mp hnil]
  · exact rdropWhile_blank h

theorem trim_dropWhile (s : ByteString) : trim (s.dropWhile ByteString.isspace) = trim s := by
  rw [trim, List.dropWhile_idempotent]
  rfl

theorem trim_rdropWhile (s : ByteString) : trim (s.rdropWhile ByteString.isspace) = trim s := by
  have hsplit := List.rdropWhile_append_rtakeWhile (l := s) (p := ByteString.isspace)
  conv_rhs => rw [← hsplit]
  exact (trim_blank_right fun b hb => List.mem_rtakeWhile_imp hb).symm

/-- What stands on both sides of a byte that is not blank is trimmed at one end. -/
theorem trim_around {b : UInt8} (hb : ByteString.isspace b = false) :
    trim (x ++ b :: y) = x.dropWhile ByteString.isspace ++ b :: y.rdropWhile ByteString.isspace := by
  have hdrop : (x ++ b :: y).dropWhile ByteString.isspace = x.dropWhile ByteString.isspace ++ b :: y := by
    rw [List.dropWhile_append, List.dropWhile_cons_of_neg (by simp [hb])]
    split
    · next hnil => rw [List.isEmpty_iff.mp hnil, List.nil_append]
    · rfl
  have hsplit := List.rdropWhile_append_rtakeWhile (l := y) (p := ByteString.isspace)
  rw [trim, hdrop]
  conv_lhs => rw [← hsplit, ← List.cons_append, ← List.append_assoc]
  rw [rdropWhile_blank fun c hc => List.mem_rtakeWhile_imp hc, List.rdropWhile_eq_self_iff]
  intro hne
  rcases List.eq_nil_or_concat (y.rdropWhile ByteString.isspace) with hy | ⟨z, c, hy⟩
  · simp [hy, hb]
  · have hlast := List.rdropWhile_last_not ByteString.isspace y (by simp [hy])
    simpa [hy] using hlast

end Trim

/-! ### Lines -/

/-- The name and the value of a line that has both. -/
def entry (line : ByteString) : Option (ByteString × ByteString) :=
  (ByteString.find [sep] (trim line)).map fun pos => (trim ((trim line).take pos), trim ((trim line).drop (pos + 1)))

/-- The values that the lines give to a name. -/
def valuesIn (name : ByteString) (lines : List ByteString) : List ByteString :=
  lines.filterMap fun line => (entry line).bind fun e => if e.1 = name then some e.2 else none

/-- The values that a file gives to a name. -/
def values (name file : ByteString) : List ByteString := valuesIn name (TextLines.lines file)

/-- Blanks at the ends of a name or of a value, and of the line, do not belong to them. -/
theorem entry_sep {x : ByteString} (h : sep ∉ x) (y : ByteString) : entry (x ++ sep :: y) = some (trim x, trim y) := by
  have hx : sep ∉ x.dropWhile ByteString.isspace := fun hmem => h ((List.dropWhile_suffix _).subset hmem)
  have hdrop : (x.dropWhile ByteString.isspace ++ sep :: y.rdropWhile ByteString.isspace).drop
      ((x.dropWhile ByteString.isspace).length + 1) = y.rdropWhile ByteString.isspace := by
    rw [← List.drop_drop, List.drop_left]
    rfl
  rw [entry, trim_around (by decide), TextLines.find_separator hx, Option.map_some, List.take_left, hdrop,
    trim_dropWhile, trim_rdropWhile]

theorem entry_cr (line : ByteString) : entry (line ++ [cr]) = entry line := by
  have hblank : ∀ b ∈ [cr], ByteString.isspace b = true := fun b hb => by
    rw [List.mem_singleton.mp hb]
    rfl
  rw [entry, entry, trim_blank_right hblank]

/-- `ParseLine` of a name and a value. -/
def set (c : Config) (name value : ByteString) : Except StoiError Config :=
  if name = portName then
    match stoi value with
    | .ok v => .ok { c with port := UInt16.ofInt v }
    | .error e => .error e
  else if name = logLevelName then .ok { c with logLevel := value }
  else .ok c

theorem parseLine_eq (c : Config) (line : ByteString) :
    c.parseLine line = (entry line).elim (.ok c) fun e => c.set e.1 e.2 := by
  rw [parseLine, entry]
  cases ByteString.find [sep] (trim line) with
  | none => rfl
  | some pos => rfl

theorem parseLine_cr (c : Config) (line : ByteString) : c.parseLine (line ++ [cr]) = c.parseLine line := by
  rw [parseLine_eq, parseLine_eq, entry_cr]

/-! ### Files -/

section Files
variable {lines : List ByteString} {c : Config} {ports : List Int} {before after : List ByteString} {v : ByteString}
  {e : StoiError}

theorem valuesIn_cons (name line : ByteString) (lines : List ByteString) : valuesIn name (line :: lines) =
    ((entry line).bind fun e => if e.1 = name then some e.2 else none).toList ++ valuesIn name lines := by
  rw [valuesIn, List.filterMap_cons]
  cases (entry line).bind fun e => if e.1 = name then some e.2 else none with
  | none => rfl
  | some v => rfl

theorem valuesIn_append (name : ByteString) (lines lines' : List ByteString) :
    valuesIn name (lines ++ lines') = valuesIn name lines ++ valuesIn name lines' := List.filterMap_append

/-- What a line does to the values of the names. -/
inductive Line (c : Config) (line : ByteString) : Prop
  | other (hparse : c.parseLine line = .ok c)
      (hport : ∀ lines, valuesIn portName (line :: lines) = valuesIn portName lines)
      (hlevel : ∀ lines, valuesIn logLevelName (line :: lines) = valuesIn logLevelName lines)
  | port (v : ByteString)
      (hparse : c.parseLine line = (stoi v).map fun n => { c with port := UInt16.ofInt n })
      (hport : ∀ lines, valuesIn portName (line :: lines) = v :: valuesIn portName lines)
      (hlevel : ∀ lines, valuesIn logLevelName (line :: lines) = valuesIn logLevelName lines)
  | logLevel (v : ByteString) (hparse : c.parseLine line = .ok { c with logLevel := v })
      (hport : ∀ lines, valuesIn portName (line :: lines) = valuesIn portName lines)
      (hlevel : ∀ lines, valuesIn logLevelName (line :: lines) = v :: valuesIn logLevelName lines)

theorem line_cases (c : Config) (line : ByteString) : Line c line := by
  have hne : portName ≠ logLevelName := by decide
  have hparse := parseLine_eq c line
  have hvalues := fun name lines => valuesIn_cons name line lines
  cases hentry : entry line with
  | none =>
    rw [hentry] at hparse hvalues
    exact .other hparse (hvalues portName) (hvalues logLevelName)
  | some e =>
    obtain ⟨name, v⟩ := e
    rw [hentry] at hparse hvalues
    simp only [Option.elim_some, set] at hparse
    simp only [Option.bind_some] at hvalues
    by_cases hport : name = portName
    · subst hport
      refine .port v ?_ (fun lines => ?_) fun lines => ?_
      · rw [hparse, if_pos rfl]
        cases stoi v <;> rfl
      · rw [hvalues, if_pos rfl]
        rfl
      · rw [hvalues, if_neg hne]
        rfl
    · by_cases hlevel : name = logLevelName
      · subst hlevel
        refine .logLevel v ?_ (fun lines => ?_) fun lines => ?_
        · rw [hparse, if_neg hport, if_pos rfl]
        · rw [hvalues, if_neg hport]
          rfl
        · rw [hvalues, if_pos rfl]
          rfl
      · refine .other ?_ (fun lines => ?_) fun lines => ?_
        · rw [hparse, if_neg hport, if_neg hlevel]
        · rw [hvalues, if_neg hport]
          rfl
        · rw [hvalues, if_neg hlevel]
          rfl

/-- The last values stay. -/
theorem foldlM_ok (h : (valuesIn portName lines).map stoi = ports.map .ok) (c : Config) :
    lines.foldlM parseLine c = .ok { c with
      logLevel := lastOr c.logLevel (valuesIn logLevelName lines)
      port := lastOr c.port (ports.map UInt16.ofInt) } := by
  induction lines generalizing c ports with
  | nil =>
    cases ports with
    | nil => rfl
    | cons port ports => cases h
  | cons line lines ih =>
    rw [List.foldlM_cons]
    cases line_cases c line with
    | other hparse hport hlevel =>
      rw [hport] at h
      rw [hparse, hlevel]
      exact ih h c
    | port v hparse hport hlevel =>
      rw [hport] at h
      cases ports with
      | nil => cases h
      | cons port ports =>
        obtain ⟨hv, h⟩ := List.cons.inj h
        rw [hparse, hv, hlevel, List.map_cons, lastOr_cons]
        exact ih h { c with port := UInt16.ofInt port }
    | logLevel v hparse hport hlevel =>
      rw [hport] at h
      rw [hparse, hlevel, lastOr_cons]
      exact ih h { c with logLevel := v }

/-- The first port that is no number ends the reading. -/
theorem foldlM_error (hvalues : valuesIn portName lines = before ++ v :: after)
    (hbefore : ∀ u ∈ before, (stoi u).isOk = true) (he : stoi v = .error e) (c : Config) :
    lines.foldlM parseLine c = .error e := by
  induction lines generalizing c before with
  | nil => simp [valuesIn] at hvalues
  | cons line lines ih =>
    rw [List.foldlM_cons]
    cases line_cases c line with
    | other hparse hport _ =>
      rw [hport] at hvalues
      rw [hparse]
      exact ih hvalues hbefore c
    | port u hparse hport _ =>
      rw [hport] at hvalues
      cases before with
      | nil =>
        obtain ⟨rfl, -⟩ := List.cons.inj hvalues
        rw [hparse, he]
        rfl
      | cons u' before =>
        obtain ⟨rfl, htail⟩ := List.cons.inj hvalues
        have hu := hbefore u List.mem_cons_self
        cases hstoi : stoi u with
        | ok n =>
          rw [hparse, hstoi]
          exact ih htail (fun w hw => hbefore w (List.mem_cons_of_mem _ hw)) { c with port := UInt16.ofInt n }
        | error e' =>
          rw [hstoi] at hu
          cases hu
    | logLevel u hparse hport _ =>
      rw [hport] at hvalues
      rw [hparse]
      exact ih hvalues hbefore { c with logLevel := u }

/-- Either all of the values are numbers, or there is a first one that is not. -/
theorem stoi_all_or_first (vs : List ByteString) : (∃ ports : List Int, vs.map stoi = ports.map .ok) ∨
    ∃ before v after e, vs = before ++ v :: after ∧ (∀ u ∈ before, (stoi u).isOk = true) ∧ stoi v = .error e := by
  induction vs with
  | nil => exact .inl ⟨[], rfl⟩
  | cons v vs ih =>
    cases hv : stoi v with
    | error e => exact .inr ⟨[], v, vs, e, rfl, fun u hu => (by cases hu), hv⟩
    | ok n =>
      rcases ih with ⟨ports, hports⟩ | ⟨before, u, after, e, rfl, hbefore, he⟩
      · exact .inl ⟨n :: ports, congrArg₂ List.cons hv hports⟩
      · refine .inr ⟨v :: before, u, after, e, rfl, fun w hw => ?_, he⟩
        rcases List.mem_cons.mp hw with rfl | hw
        · rw [hv]
          rfl
        · exact hbefore w hw

/-- What the constructor makes of a file: the last value of each name, a port modulo 2 ^ 16, or the exception of the
    first port that is no `int`. -/
inductive Reads (file : ByteString) : Except ConfigError Config → Prop
  | ok (ports : List Int) : (values portName file).map stoi = ports.map .ok →
      Reads file (.ok { logLevel := lastOr [] (values logLevelName file)
                        port := lastOr 5666 (ports.map UInt16.ofInt)
                        epEventCount := 10 })
  | throws {before after : List ByteString} {v : ByteString} {e : StoiError} :
      values portName file = before ++ v :: after → (∀ u ∈ before, (stoi u).isOk = true) → stoi v = .error e →
      Reads file (.error (.stoi e))

theorem construct_eq (file : ByteString) :
    construct (some file) = ((TextLines.lines file).foldlM parseLine {}).mapError .stoi := by
  rw [construct, readLines_eq]
  rfl

theorem reads_construct (file : ByteString) : Reads file (construct (some file)) := by
  rw [construct_eq]
  rcases stoi_all_or_first (values portName file) with ⟨ports, hports⟩ | ⟨before, v, after, e, hvalues, hbefore, he⟩
  · rw [foldlM_ok hports]
    exact .ok ports hports
  · rw [foldlM_error hvalues hbefore he]
    exact .throws hvalues hbefore he

/-- Line ends of two bytes make no difference. -/
theorem foldlM_crlf {lines' : List ByteString}
    (h : List.Forall₂ (fun line line' => line' = line ∨ line' = line ++ [cr]) lines lines') (c : Config) :
    lines'.foldlM parseLine c = lines.foldlM parseLine c := by
  induction h generalizing c with
  | nil => rfl
  | @cons line line' lines lines' hline _ ih =>
    have hparse : c.parseLine line' = c.parseLine line := by
      rcases hline with rfl | rfl
      · rfl
      · exact parseLine_cr c line
    rw [List.foldlM_cons, List.foldlM_cons, hparse]
    cases c.parseLine line with
    | ok c' => exact ih c'
    | error e => rfl

end Files

/-- The constructor reads every file, whichever line ends it has. -/
theorem construct_reads (file : ByteString) : Reads file (construct (some file)) ∧
    construct (some (TextLines.crlf file)) = construct (some file) := by
  refine ⟨reads_construct file, ?_⟩
  rw [construct_eq, construct_eq, foldlM_crlf (TextLines.lines_crlf file)]

/-! ### Writing -/

/-- A line that gives a value to a name, with blanks around them. -/
inductive Written (name value : ByteString) : ByteString → Prop
  | line (x y : ByteString) : sep ∉ x → trim x = name → trim y = value → lf ∉ x ++ sep :: y →
      Written name value (x ++ sep :: y)

section Writing
variable {port : UInt16} {level front portLine levelLine name value line : ByteString}

theorem Written.entry_eq (h : Written name value line) : entry line = some (name, value) := by
  obtain ⟨x, y, hx, rfl, rfl, -⟩ := h
  exact entry_sep hx y

theorem Written.lines_eq (h : Written name value line) : TextLines.lines line = [line] := by
  obtain ⟨x, y, -, -, -, hline⟩ := h
  exact List.splitOn_eq_singleton hline

theorem Written.valuesIn_eq (h : Written name value line) (name' : ByteString) :
    valuesIn name' [line] = if name = name' then [value] else [] := by
  rw [valuesIn_cons, h.entry_eq]
  simp only [Option.bind_some]
  split <;> rfl

theorem stoi_decimal (port : UInt16) : stoi (TextLines.decimal port.toNat) = .ok port.toNat := by
  have hlt := port.toNat_lt
  exact ByteString.stoi_of_isNumeral (TextLines.decimal_isNumeral _) (by omega)

theorem ofInt_toNat (port : UInt16) : UInt16.ofInt port.toNat = port := by
  have hlt := port.toNat_lt
  have hmod : ((port.toNat : Int) % 2 ^ 16).toNat = port.toNat := by omega
  rw [UInt16.ofInt, hmod, UInt16.ofNat_toNat]

/-- A file that ends with two lines: there may be others before them, and a line feed behind them. -/
def fileWith (front : Option ByteString) (first second : ByteString) (final : Bool) : ByteString :=
  (front.elim [] fun front => front ++ [lf]) ++ (first ++ lf :: (second ++ if final then [lf] else []))

theorem lines_fileWith (front : Option ByteString) (final : Bool) {first second : ByteString}
    (hfirst : TextLines.lines first = [first]) (hsecond : TextLines.lines second = [second]) :
    TextLines.lines (fileWith front first second final) =
      front.elim [] TextLines.lines ++ ([first, second] ++ if final then [[]] else []) := by
  have hend : TextLines.lines (second ++ if final then [lf] else []) = second :: if final then [[]] else [] := by
    cases final with
    | false => simpa using hsecond
    | true =>
      have hlines : second.splitOn lf = [second] := hsecond
      have hsplit : (second ++ [lf]).splitOn lf = _ := List.splitOn_append_cons_self second []
      rw [hlines] at hsplit
      exact hsplit
  have hboth : TextLines.lines (first ++ lf :: (second ++ if final then [lf] else [])) =
      [first, second] ++ if final then [[]] else [] := by
    have hlines : first.splitOn lf = [first] := hfirst
    unfold TextLines.lines at hend ⊢
    rw [List.splitOn_append_cons_self, hlines, hend]
    rfl
  cases front with
  | none => exact hboth
  | some front =>
    unfold TextLines.lines at hboth ⊢
    rw [fileWith, Option.elim_some, List.append_assoc, List.singleton_append, List.splitOn_append_cons_self, hboth]
    rfl

/-- The two lines in either order. -/
inductive InOrder (portLine levelLine : ByteString) : ByteString → ByteString → Prop
  | portFirst : InOrder portLine levelLine portLine levelLine
  | levelFirst : InOrder portLine levelLine levelLine portLine

theorem valuesIn_written {first second : ByteString} (final : Bool)
    (hport : Written portName (TextLines.decimal port.toNat) portLine) (hlevel : Written logLevelName level levelLine)
    (horder : InOrder portLine levelLine first second) :
    valuesIn portName ([first, second] ++ if final then [[]] else []) = [TextLines.decimal port.toNat] ∧
      valuesIn logLevelName ([first, second] ++ if final then [[]] else []) = [level] := by
  have hne : portName ≠ logLevelName := by decide
  have hblank : ∀ name, valuesIn name (if final then [[]] else []) = [] := fun name => by
    cases final <;> rfl
  have hpair : [first, second] = [first] ++ [second] := rfl
  rw [valuesIn_append, valuesIn_append, hblank, hblank, hpair, valuesIn_append, valuesIn_append]
  cases horder with
  | portFirst | levelFirst =>
    rw [hport.valuesIn_eq, hlevel.valuesIn_eq, hport.valuesIn_eq, hlevel.valuesIn_eq, if_pos rfl, if_pos rfl, if_neg hne,
      if_neg (Ne.symm hne)]
    exact ⟨rfl, rfl⟩

/-- What is written at the end of a file is what the constructor takes from it. -/
theorem construct_written (front : Option ByteString) (final : Bool) {first second : ByteString}
    (hfront : ∀ v ∈ front.elim [] (values portName), (stoi v).isOk = true)
    (hport : Written portName (TextLines.decimal port.toNat) portLine) (hlevel : Written logLevelName level levelLine)
    (horder : InOrder portLine levelLine first second) :
    construct (some (fileWith front first second final)) = .ok { logLevel := level, port, epEventCount := 10 } := by
  have hlines : TextLines.lines (fileWith front first second final) =
      front.elim [] TextLines.lines ++ ([first, second] ++ if final then [[]] else []) := by
    cases horder with
    | portFirst => exact lines_fileWith front final hport.lines_eq hlevel.lines_eq
    | levelFirst => exact lines_fileWith front final hlevel.lines_eq hport.lines_eq
  have hbefore : valuesIn portName (front.elim [] TextLines.lines) = front.elim [] (values portName) := by
    cases front <;> rfl
  obtain ⟨hports, hlevels⟩ := valuesIn_written final hport hlevel horder
  obtain ⟨ports, hstoi⟩ : ∃ ports : List Int, (front.elim [] (values portName)).map stoi = ports.map .ok := by
    rcases stoi_all_or_first (front.elim [] (values portName)) with hall | ⟨before, v, after, e, hvalues, -, he⟩
    · exact hall
    · have hv := hfront v (by rw [hvalues]; simp)
      rw [he] at hv
      cases hv
  have hall : (valuesIn portName (TextLines.lines (fileWith front first second final))).map stoi =
      (ports ++ [(port.toNat : Int)]).map .ok := by
    rw [hlines, valuesIn_append, hbefore, hports, List.map_append, List.map_append]
    exact congrArg₂ _ hstoi (congrArg (fun r => [r]) (stoi_decimal port))
  rw [construct_eq, foldlM_ok hall, hlines, valuesIn_append, hlevels, List.map_append, lastOr_concat]
  simp only [List.map_cons, List.map_nil, lastOr_concat, ofInt_toNat]
  rfl

end Writing

/-- `"log_level=warn"` and `" port = 8080\r\n"` behind `"port=80\n"`. -/
theorem construct_written_warn :
    construct (some (fileWith (some [112, 111, 114, 116, 61, 56, 48])
      [108, 111, 103, 95, 108, 101, 118, 101, 108, 61, 119, 97, 114, 110]
      [32, 112, 111, 114, 116, 32, 61, 32, 56, 48, 56, 48, 13] true)) =
      .ok { logLevel := [119, 97, 114, 110], port := 8080, epEventCount := 10 } := by
  have hdecimal : TextLines.decimal (8080 : UInt16).toNat = [56, 48, 56, 48] := by simp [TextLines.decimal]
  refine construct_written _ true (by decide) ?_ ?_ .levelFirst
  · rw [hdecimal]
    exact .line [32, 112, 111, 114, 116, 32] [32, 56, 48, 56, 48, 13] (by decide) (by decide) (by decide) (by decide)
  · exact .line [108, 111, 103, 95, 108, 101, 118, 101, 108] [119, 97, 114, 110] (by decide) (by decide) (by decide)
      (by decide)

end Config
end SimpleHttp.ConfigFile
