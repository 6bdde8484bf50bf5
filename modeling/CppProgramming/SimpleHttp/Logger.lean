import CppProgramming.Lib.CriticalSection
import CppProgramming.SimpleHttp.Config

/-! # The log of the server

A thread that logs puts the arguments of a record one after the other into `./log.txt` and into the standard output,
under the mutex of the `Logger`. The level is the one of the configuration, set before there are other threads. -/

namespace SimpleHttp.Logger
open CriticalSection (Program State Reach Serial Complete jobsOf serially)
open ConfigFile (Config)
open TextLines (lf)

/-- `LEVEL_ERROR` to `LEVEL_ALWAYS`. -/
inductive Level where
  | error
  | warn
  | info
  | debug
  | always
  deriving DecidableEq

namespace Level

/-- The value of the macro. -/
def code : Level → Nat
  | .error => 0
  | .warn => 1
  | .info => 2
  | .debug => 3
  | .always => 4

/-- `"[Error]"`, `"[Warn]"`, `"[Info]"` and `"[Debug]"`; `LogAlways` puts nothing in front. -/
def tag : Level → List ByteString
  | .error => [[91, 69, 114, 114, 111, 114, 93]]
  | .warn => [[91, 87, 97, 114, 110, 93]]
  | .info => [[91, 73, 110, 102, 111, 93]]
  | .debug => [[91, 68, 101, 98, 117, 103, 93]]
  | .always => []

end Level

/-- `SetLogLevel`, of `"error"`, `"warn"`, `"info"` and `"debug"`. What it logs itself is a record of the caller. -/
def setLogLevel (level : Level) (s : ByteString) : Level :=
  if s = [101, 114, 114, 111, 114] then .error
  else if s = [119, 97, 114, 110] then .warn
  else if s = [105, 110, 102, 111] then .info
  else if s = [100, 101, 98, 117, 103] then .debug
  else level

/-- A call of `LogError` to `LogAlways`, with the arguments as the streams print them; the macros put the name of the
    function in front of them. -/
structure Record where
  level : Level
  function : ByteString
  args : List ByteString

/-- An insertion into `fs` or into `std::cout`. -/
inductive Put where
  | file (text : ByteString)
  | out (text : ByteString)

/-- The insertions of `Log`, the template for one argument and the one for more. -/
def log : List ByteString → List Put
  | [] => []
  | [t] => [.file t, .file [lf], .out t, .out [lf]]
  | t :: args => .file t :: .out t :: log args

/-- All arguments of `Log`. -/
def Record.parts (r : Record) : List ByteString := r.level.tag ++ r.function :: r.args

/-- The first lines of `LogError` to `LogDebug`. -/
def passes (level : Level) (r : Record) : Bool := r.level = .always || !(level.code < r.level.code)

/-- The calls of the `Logger` behind `SetLogLevel(Config::GetInstance().logLevel)`. -/
def program (c : Config) : Program Record Put where
  passes := passes (setLogLevel .always c.logLevel)
  actions r := log r.parts

/-! ### Texts -/

/-- What the insertion puts into the file. -/
def Put.fileText : Put → ByteString
  | .file text => text
  | .out _ => []

/-- What the insertion puts into the standard output. -/
def Put.outText : Put → ByteString
  | .file _ => []
  | .out text => text

/-- What has been put into the stream of `./log.txt`. -/
def fileText (puts : List Put) : ByteString := puts.flatMap Put.fileText

/-- What the insertions put into the standard output. -/
def outText (puts : List Put) : ByteString := puts.flatMap Put.outText

/-- The line of a record. -/
def Record.line (r : Record) : ByteString := r.parts.flatten ++ [lf]

variable {ι : Type}

/-- The records, line by line. -/
def text (order : List (ι × Record)) : ByteString := order.flatMap fun job => job.2.line

section Texts
variable {did rest : List Put} {args : List ByteString}

theorem fileText_append (puts puts' : List Put) : fileText (puts ++ puts') = fileText puts ++ fileText puts' :=
  List.flatMap_append

theorem outText_append (puts puts' : List Put) : outText (puts ++ puts') = outText puts ++ outText puts' :=
  List.flatMap_append

/-- `Log` puts the same line into both. -/
theorem log_text (h : args ≠ []) :
    fileText (log args) = args.flatten ++ [lf] ∧ outText (log args) = args.flatten ++ [lf] := by
  induction args using log.induct with
  | case1 => exact absurd rfl h
  | case2 t => simp [log, fileText, outText, Put.fileText, Put.outText]
  | case3 t args hmore ih =>
    obtain ⟨hfile, hout⟩ := ih hmore
    rw [log, List.flatten_cons, List.append_assoc, ← hfile]
    · refine ⟨rfl, ?_⟩
      rw [hfile, ← hout]
      rfl
    · exact hmore

/-- The output is not ahead of the file. -/
theorem outText_begins (h : log args = did ++ rest) : outText did <+: fileText did := by
  induction args using log.induct generalizing did with
  | case1 =>
    obtain ⟨rfl, -⟩ := List.append_eq_nil_iff.mp h.symm
    exact List.prefix_refl _
  | case2 t =>
    have hbegin : did <+: [.file t, .file [lf], .out t, .out [lf]] := ⟨rest, h.symm⟩
    rcases did with _ | ⟨p, _ | ⟨q, did⟩⟩
    · exact List.prefix_refl _
    · obtain ⟨rfl, -⟩ := List.cons_prefix_cons.mp hbegin
      exact List.nil_prefix
    · obtain ⟨rfl, htail⟩ := List.cons_prefix_cons.mp hbegin
      -- The file has the whole line, and the output a part of it.
      obtain ⟨rfl, more, hmore⟩ := List.cons_prefix_cons.mp htail
      have hfile : fileText did = [] := by
        have hnone : fileText [.out t, .out [lf]] = [] := rfl
        rw [← hmore, fileText_append] at hnone
        exact (List.append_eq_nil_iff.mp hnone).1
      have hout : outText did ++ outText more = t ++ [lf] := by
        rw [← outText_append, hmore]
        simp [outText, Put.outText]
      refine ⟨outText more, ?_⟩
      show outText did ++ outText more = t ++ ([lf] ++ fileText did)
      rw [hout, hfile, List.append_nil]
  | case3 t args hmore ih =>
    rw [log] at h
    · rcases did with _ | ⟨p, _ | ⟨q, did⟩⟩
      · exact List.prefix_refl _
      · obtain ⟨rfl, -⟩ := List.cons.inj h
        exact List.nil_prefix
      · obtain ⟨rfl, htail⟩ := List.cons.inj h
        obtain ⟨rfl, hargs⟩ := List.cons.inj htail
        exact (List.prefix_append_right_inj t).mpr (ih hargs)
    · exact hmore

theorem Record.parts_ne_nil (r : Record) : r.parts ≠ [] := by simp [Record.parts]

theorem fileText_log (r : Record) : fileText (log r.parts) = r.line := (log_text r.parts_ne_nil).1

theorem outText_log (r : Record) : outText (log r.parts) = r.line := (log_text r.parts_ne_nil).2

theorem serially_text (c : Config) (order : List (ι × Record)) :
    fileText (serially (program c) order) = text order ∧ outText (serially (program c) order) = text order := by
  induction order with
  | nil => exact ⟨rfl, rfl⟩
  | cons job order ih =>
    have hcons : serially (program c) (job :: order) = log job.2.parts ++ serially (program c) order := rfl
    have htext : text (job :: order) = job.2.line ++ text order := rfl
    rw [hcons, htext, fileText_append, outText_append, fileText_log, outText_log, ih.1, ih.2]
    exact ⟨rfl, rfl⟩

end Texts

/-! ### The threads -/

section Threads
variable [DecidableEq ι] {c : Config} {calls : ι → List Record} {s : State ι Record Put}

/-- The log in a state that is reached. What has been put into the stream of `./log.txt` consists of whole lines, in the
    order in which the records have taken the mutex, and of what has been put of the last one; the standard output follows
    it. The records of a thread come in the order of its calls, and only those of the level. -/
structure Serialized (c : Config) (calls : ι → List Record) (s : State ι Record Put) : Prop where
  free : s.owner = none → fileText s.done = text s.order ∧ outText s.done = text s.order
  held : ∀ i, s.owner = some i → ∃ (before : List (ι × Record)) (r : Record), s.order = before ++ [(i, r)] ∧
    text before <+: outText s.done ∧ fileText s.done <+: text before ++ r.line
  follows : outText s.done <+: fileText s.done
  calls : ∀ i, jobsOf i s.order <+: (calls i).filter (program c).passes

theorem Serialized.of_serial (h : Serial (program c) calls s) : Serialized c calls s := by
  have hfree : s.owner = none → fileText s.done = text s.order ∧ outText s.done = text s.order := fun hnone => by
    rw [h.free hnone]
    exact serially_text c s.order
  refine ⟨hfree, fun i hi => ?_, ?_, fun i => ⟨_, (h.own i).jobs⟩⟩
  · obtain ⟨before, r, did, rest, horder, -, hactions, hdone⟩ := h.held i hi
    obtain ⟨hfile, hout⟩ := serially_text c before
    have hline : fileText did ++ fileText rest = r.line := by
      rw [← fileText_append, ← hactions]
      exact fileText_log r
    refine ⟨before, r, horder, ?_, ?_⟩
    · rw [hdone, outText_append, hout]
      exact List.prefix_append _ _
    · rw [hdone, fileText_append, hfile, ← hline]
      exact (List.prefix_append_right_inj _).mpr (List.prefix_append _ _)
  · cases howner : s.owner with
    | none =>
      rw [(hfree howner).1, (hfree howner).2]
    | some i =>
      obtain ⟨before, r, did, rest, -, -, hactions, hdone⟩ := h.held i howner
      obtain ⟨hfile, hout⟩ := serially_text c before
      rw [hdone, fileText_append, outText_append, hfile, hout]
      exact (List.prefix_append_right_inj _).mpr (outText_begins hactions)

/-- Whatever the threads do first, the records are put into the streams one by one. -/
theorem log_serializes (h : Reach (program c) calls s) : Serialized c calls s := .of_serial h.serial

/-- Two threads, one of them behind the mutex with `"[Error]"` in the file. -/
theorem log_serializes_error : ∃ s, fileText s.done = [91, 69, 114, 114, 111, 114, 93] ∧ s.owner = some true ∧
    Serialized {} (fun _ : Bool => [⟨.error, [102], [[120]]⟩]) s := by
  have hwaits := Reach.step Reach.start (.pass (P := program {}) (s := CriticalSection.start fun _ : Bool =>
    [⟨.error, [102], [[120]]⟩]) (i := true) rfl (by decide))
  have hlocked := hwaits.step (.lock (i := true) rfl rfl)
  exact ⟨_, rfl, rfl, log_serializes (hlocked.step (.act (i := true) rfl))⟩

/-- The log at the end, when every thread has made its calls and the mutex is free. -/
structure Logged (c : Config) (calls : ι → List Record) (s : State ι Record Put) : Prop where
  threads : ∀ i, s.thread i = ⟨[], .outside⟩
  mutex : s.owner = none
  file : fileText s.done = text s.order
  out : outText s.done = text s.order
  calls : ∀ i, jobsOf i s.order = (calls i).filter (program c).passes

/-- Whatever the threads do first, all of them come to their end, and all records of the level get into the log, each
    thread's in its order. -/
theorem log_completes [Fintype ι] (c : Config) (calls : ι → List Record) :
    Inevitable (CriticalSection.Step (program c)) (CriticalSection.Step (program c)) (Logged c calls)
      (CriticalSection.start calls) := by
  refine (CriticalSection.inevitable_complete (program c) calls).mono fun s h => ?_
  obtain ⟨hfile, hout⟩ := serially_text c s.order
  rw [← h.done] at hfile hout
  exact ⟨h.thread, h.free, hfile, hout, h.jobs⟩

end Threads

end SimpleHttp.Logger
