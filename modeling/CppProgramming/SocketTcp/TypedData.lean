import CppProgramming.SocketTcp.Process

/-! # Typed data

What is typed goes to the socket, in order and nothing of it twice, except for the commands and for what is typed after
writing has been shut down. The two variants of `Process` differ in how they wait and read the same lines, so what they
have sent are beginnings of one string. -/

namespace SocketTcp
open Std.Do
open EdgeTriggered (WriteCalls WriteStop)

variable {ι : Type}

/-! ### What is to be sent -/

/-- The line is one of the five commands. -/
def isCommand (line : ByteString) : Bool :=
  [Command.exit, .shutdownRead, .shutdownWrite, .shutdownBoth, .unwrittenLength].any fun k => line = k.text

/-- The line shuts writing down. -/
def shutsWrite (line : ByteString) : Bool :=
  line = Command.shutdownWrite.text || line = Command.shutdownBoth.text

/-- The strings read from stdin. -/
def State.lines (s : State ι) : List ByteString := s.typed.map Typed.line

/-- The strings read from stdin that are no commands and were read while `writeShutdown` was false, one behind the
    other. -/
def State.kept (s : State ι) : ByteString :=
  ((s.typed.filter fun x => !isCommand x.line && !x.writeShutdown).map Typed.line).flatten

/-- What is to be sent of some lines: those up to the command that shuts writing down, without the other commands. -/
def toSend (config : Config) (lines : List ByteString) : ByteString :=
  if config.write then ((lines.takeWhile fun line => !shutsWrite line).filter fun line => !isCommand line).flatten
  else []

theorem isCommand_text (k : Command) : isCommand k.text = true := by
  cases k <;> decide

theorem isCommand_of_shutsWrite {line : ByteString} (h : shutsWrite line = true) : isCommand line = true := by
  rcases Bool.or_eq_true _ _ ▸ h with h | h <;> rw [of_decide_eq_true h] <;> exact isCommand_text _

theorem toSend_append {config : Config} {lines more : List ByteString} :
    toSend config (lines ++ more) = toSend config lines ++
      if config.write && !lines.any shutsWrite then toSend config more else [] := by
  unfold toSend
  cases hwrite : config.write with
  | false => simp
  | true =>
    induction lines with
    | nil => simp
    | cons line lines ih =>
      cases hline : shutsWrite line with
      | true => simp [hline]
      | false =>
        cases hcommand : isCommand line <;> simpa [hline, hcommand] using ih

theorem toSend_begin {config : Config} {lines lines' : List ByteString} (h : lines <+: lines') :
    toSend config lines <+: toSend config lines' := by
  obtain ⟨more, rfl⟩ := h
  rw [toSend_append]
  exact List.prefix_append _ _

theorem toSend_line {config : Config} {line : ByteString} (hwrite : config.write = true) :
    toSend config [line] = if isCommand line then [] else line := by
  unfold toSend
  cases hline : shutsWrite line with
  | true => simp [hwrite, hline, isCommand_of_shutsWrite hline]
  | false => cases hcommand : isCommand line <;> simp [hwrite, hline, hcommand]

/-! ### What the parts of a round keep -/

/-- What has been typed and not been accepted by the socket is in `w`. -/
structure Conserved (config : Config) (s : State ι) : Prop where
  bytes : s.accepted ++ s.w = s.kept
  kept : s.kept = toSend config s.lines
  writeShutdown : s.writeShutdown = (!config.write || s.lines.any shutsWrite)

/-- What the socket has accepted is the begin of what is to be sent. -/
def Sent (config : Config) (s : State ι) : Prop := s.accepted <+: toSend config s.lines

section Parts
variable {config : Config} {s s' : State ι} {line : ByteString}

theorem Conserved.sent (h : Conserved config s) : Sent config s := by
  rw [Sent, ← h.kept, ← h.bytes]
  exact List.prefix_append _ _

/-- A round only looks at what it waits for and prints. -/
theorem Conserved.congr (h : Conserved config s) (hdown : s'.writeShutdown = s.writeShutdown) (hw : s'.w = s.w)
    (haccepted : s'.accepted = s.accepted) (htyped : s'.typed = s.typed) : Conserved config s' := by
  obtain ⟨hbytes, hkept, hwrite⟩ := h
  refine ⟨?_, ?_, ?_⟩
  · rw [haccepted, hw, hbytes, State.kept, State.kept, htyped]
  · rw [State.kept, State.lines, htyped]
    exact hkept
  · rw [hdown, State.lines, htyped]
    exact hwrite

theorem lines_type (h : s'.typed = s.typed ++ [⟨line, s.writeShutdown⟩]) : s'.lines = s.lines ++ [line] := by
  rw [State.lines, h, List.map_append]
  rfl

theorem kept_type (h : s'.typed = s.typed ++ [⟨line, s.writeShutdown⟩]) :
    s'.kept = s.kept ++ if isCommand line || s.writeShutdown then [] else line := by
  unfold State.kept
  cases hcommand : isCommand line <;> cases hdown : s.writeShutdown <;> simp [h, hcommand, hdown]

/-- A line has been read. -/
theorem Conserved.type (h : Conserved config s) (htyped : s'.typed = s.typed ++ [⟨line, s.writeShutdown⟩])
    (haccepted : s'.accepted = s.accepted) (hw : s'.w = s.w ++ if isCommand line || s.writeShutdown then [] else line)
    (hdown : s'.writeShutdown = (s.writeShutdown || shutsWrite line)) : Conserved config s' := by
  refine ⟨?_, ?_, ?_⟩
  · rw [haccepted, hw, ← List.append_assoc, h.bytes, kept_type htyped]
  · rw [kept_type htyped, lines_type htyped, toSend_append, h.kept, h.writeShutdown]
    congr 1
    cases hwrite : config.write with
    | false => simp
    | true => cases hany : s.lines.any shutsWrite <;> simp [toSend_line hwrite]
  · rw [hdown, lines_type htyped, h.writeShutdown, List.any_append, List.any_cons, List.any_nil, Bool.or_false,
      Bool.or_assoc]

theorem Conserved.command (h : Conserved config s) {k : Command} (hline : line = k.text)
    (htyped : s'.typed = s.typed ++ [⟨line, s.writeShutdown⟩]) (haccepted : s'.accepted = s.accepted)
    (hw : s'.w = s.w) (hdown : s'.writeShutdown = (s.writeShutdown || shutsWrite k.text)) : Conserved config s' := by
  subst hline
  exact h.type htyped haccepted (by simp [hw, isCommand_text]) hdown

theorem Conserved.text (h : Conserved config s) (hline : ∀ k : Command, line ≠ k.text)
    (htyped : s'.typed = s.typed ++ [⟨line, s.writeShutdown⟩]) (haccepted : s'.accepted = s.accepted)
    (hw : s'.w = if s.writeShutdown then s.w else s.w ++ line) (hdown : s'.writeShutdown = s.writeShutdown) :
    Conserved config s' := by
  have hno : isCommand line = false := by simp [isCommand, hline]
  have hkeep : shutsWrite line = false := by simp [shutsWrite, hline]
  refine h.type htyped haccepted ?_ (by rw [hdown, hkeep, Bool.or_false])
  rw [hw, hno]
  cases s.writeShutdown <;> simp

theorem Conserved.sent_type (h : Conserved config s) (htyped : s'.typed = s.typed ++ [⟨line, s.writeShutdown⟩])
    (haccepted : s'.accepted = s.accepted) : Sent config s' := by
  rw [Sent, haccepted, lines_type htyped]
  exact h.sent.trans (toSend_begin (List.prefix_append _ _))

/-- The function conserves what has been typed; if it ends the loop, what was sent is still right. -/
abbrev Keeps {α : Type} (config : Config) (x : Exec ι α) : Prop :=
  ⦃fun s => ⌜Conserved config s⌝⦄ x ⦃post⟨fun _ s => ⌜Conserved config s⌝, fun _ s => ⌜Sent config s⌝⟩⦄

theorem typeIn_keeps (calls : ReadCalls) (result : Option Int) :
    Keeps config (typeIn calls result : Exec ι Unit) := by
  unfold typeIn
  mvcgen [readFd, shutdown, print, check]
  case vc1 => exact ‹Conserved config _›.sent_type rfl rfl
  -- The commands, each with and without an error of `shutdown`.
  case vc2 => exact ‹Conserved config _›.command ‹_› rfl rfl rfl (Bool.or_false _).symm
  case vc3 => exact ‹Conserved config _›.sent_type rfl rfl
  case vc4 => exact ‹Conserved config _›.command ‹_› rfl rfl rfl (Bool.or_true _).symm
  case vc5 => exact ‹Conserved config _›.sent_type rfl rfl
  case vc6 => exact ‹Conserved config _›.command ‹_› rfl rfl rfl (Bool.or_true _).symm
  case vc7 => exact ‹Conserved config _›.sent_type rfl rfl
  case vc8 => exact ‹Conserved config _›.command ‹_› rfl rfl rfl (Bool.or_false _).symm
  case vc9 => exact ‹Conserved config _›.text (fun k => by cases k <;> assumption) rfl rfl (if_pos ‹_›).symm rfl
  case vc10 => exact ‹Conserved config _›.text (fun k => by cases k <;> assumption) rfl rfl (if_neg ‹_›).symm rfl
  case vc11 => exact ‹Conserved config _›.sent

theorem Conserved.accept {rest : ByteString} (h : Conserved config { s with w := rest }) (n : Nat) :
    Conserved config { s with w := rest.drop n, accepted := s.accepted ++ rest.take n } where
  bytes := by
    rw [List.append_assoc, List.take_append_drop]
    exact h.bytes
  kept := h.kept
  writeShutdown := h.writeShutdown

theorem Conserved.sent_rest {rest : ByteString} (h : Conserved config { s with w := rest }) : Sent config s := h.sent

/-- In the loop of `Write` the string that is left stands for `w`. -/
theorem writeLoop_spec (stop : WriteStop) (room : List Nat) (rest : ByteString) :
    ⦃fun s : State ι => ⌜Conserved config { s with w := rest }⌝⦄ writeLoop stop room rest
    ⦃post⟨fun rest s => ⌜Conserved config { s with w := rest }⌝, fun _ s => ⌜Sent config s⌝⟩⦄ := by
  induction room generalizing rest with
  | nil =>
    cases rest with
    | nil =>
      unfold writeLoop
      mvcgen
    | cons b rest =>
      unfold writeLoop
      mvcgen
      exact Conserved.sent_rest ‹_›
  | cons n room ih =>
    cases rest with
    | nil =>
      unfold writeLoop
      mvcgen
    | cons b rest =>
      unfold writeLoop
      mvcgen [ih]
      exact Conserved.accept ‹_› n

theorem send_keeps (calls : WriteCalls) :
    Keeps config (send calls : Exec ι Unit) := by
  unfold send write
  mvcgen [writeLoop_spec]
  case vc1 s h hw _ => exact h.congr rfl hw.symm rfl rfl

theorem print_keeps (o : Output) : Keeps config (print o : Exec ι Unit) := by
  unfold print
  mvcgen
  case vc1 s h _ => exact h.congr rfl rfl rfl rfl

/-- What is waited for is not part of what has been typed. -/
theorem wait_keeps (f : ι → ι) : Keeps config (modify fun s => { s with wait := f s.wait } : Exec ι Unit) := by
  mvcgen
  case vc1 s h _ => exact h.congr rfl rfl rfl rfl

theorem receive_keeps (calls : ReadCalls) :
    Keeps config (receive calls : Exec ι Bool) := by
  unfold receive
  mvcgen [readFd, print_keeps]
  case vc3 => exact ‹Conserved config _›.sent

/-- Nothing has been typed yet. -/
structure Fresh (writeShutdown : Bool) (s : State ι) : Prop where
  writeShutdown : s.writeShutdown = writeShutdown
  w : s.w = []
  accepted : s.accepted = []
  typed : s.typed = []

theorem Fresh.conserved (h : Fresh (!config.write) s) : Conserved config s := by
  obtain ⟨hdown, hw, haccepted, htyped⟩ := h
  refine ⟨?_, ?_, ?_⟩
  · simp [State.kept, hw, haccepted, htyped]
  · simp [State.kept, State.lines, toSend, htyped]
  · simp [State.lines, htyped, hdown]

theorem Fresh.sent {b : Bool} (h : Fresh b s) : Sent config s := by
  rw [Sent, h.accepted]
  exact List.nil_prefix

/-- The function is run in front of the loop, and sets `writeShutdown`. -/
abbrev Starts (config : Config) (b : Bool) (x : Exec ι Unit) : Prop :=
  ⦃fun s => ⌜Fresh false s⌝⦄ x ⦃post⟨fun _ s => ⌜Fresh b s⌝, fun _ s => ⌜Sent config s⌝⟩⦄

theorem wait_starts (f : ι → ι) : Starts config false (modify fun s => { s with wait := f s.wait }) := by
  mvcgen
  case vc1 s h _ => exact ⟨h.writeShutdown, h.w, h.accepted, h.typed⟩

theorem check_starts (result : Option Int) : Starts config false (check result : Exec ι Unit) := by
  unfold check
  mvcgen
  case vc2 => exact ‹Fresh false _›.sent

theorem shutdown_starts (how : How) (result : Option Int) :
    Starts config false (shutdown how result : Exec ι Unit) := by
  unfold shutdown print
  mvcgen [check_starts]
  case vc1 s h _ => exact ⟨h.writeShutdown, h.w, h.accepted, h.typed⟩

theorem writeShutdown_starts :
    Starts config true (modify fun s => { s with writeShutdown := true } : Exec ι Unit) := by
  mvcgen
  case vc1 s h _ => exact ⟨rfl, h.w, h.accepted, h.typed⟩

end Parts

/-! ### Rounds -/

/-- What one variant of `Process` has to do with the parts: start with nothing typed, and wait for the socket to be
    writable when there is something to write. -/
structure Loop.Lawful {ρ : Type} (loop : Loop ι ρ) : Prop where
  start : ∀ (config : Config) (setup : Setup),
    ⦃fun s : State ι => ⌜s = { wait := loop.wait }⌝⦄ loop.start config setup
    ⦃post⟨fun _ s => ⌜Conserved config s⌝, fun _ s => ⌜Sent config s⌝⟩⦄
  round : ∀ (config : Config) (ready : Except Int ρ) (calls : Calls),
    ⦃fun s : State ι => ⌜Conserved config s⌝⦄ loop.round ready calls
    ⦃post⟨fun _ s => ⌜Conserved config s ∧ (loop.writeInterest s.wait = true ↔ s.w ≠ [])⌝, fun _ s => ⌜Sent config s⌝⟩⦄

namespace Poll
variable {config : Config} {calls : Calls}

theorem pollOut_set (events : BitVec 16) : (events ||| pollOut) &&& pollOut ≠ 0 := by
  intro h
  have hbit := congrArg (fun x => x.getLsbD 2) h
  simp [pollOut] at hbit

theorem pollOut_clear (events : BitVec 16) : events &&& ~~~pollOut &&& pollOut = 0 := by
  rw [BitVec.and_assoc, BitVec.not_and_self]
  exact BitVec.and_zero

theorem setEvents_keeps (f : BitVec 16 → BitVec 16) : Keeps config (setEvents f) :=
  wait_keeps fun wait : Fds => { wait with socket.events := f wait.socket.events }

theorem poll_keeps (revents : Except Int (BitVec 16 × BitVec 16)) : Keeps config (poll revents) := by
  unfold poll
  mvcgen
  case vc1 => exact ‹Conserved config _›.sent
  case vc2 s h _ => exact h.congr rfl rfl rfl rfl

theorem socketReadable_keeps : Keeps config (socketReadable calls) := by
  unfold socketReadable
  mvcgen [receive_keeps, setEvents_keeps, print_keeps]

theorem stdinReadable_keeps : Keeps config (stdinReadable calls) := by
  unfold stdinReadable
  mvcgen [typeIn_keeps]

theorem socketWritable_keeps : Keeps config (socketWritable calls) := by
  unfold socketWritable
  mvcgen [send_keeps]

theorem waitForWrite_spec : ⦃fun s => ⌜Conserved config s⌝⦄ waitForWrite
    ⦃post⟨fun _ s => ⌜Conserved config s ∧ (loop.writeInterest s.wait = true ↔ s.w ≠ [])⌝,
      fun _ s => ⌜Sent config s⌝⟩⦄ := by
  unfold waitForWrite
  mvcgen [setEvents]
  case vc1 s h hw _ =>
    exact ⟨h.congr rfl rfl rfl rfl, iff_of_true (decide_eq_true (pollOut_set s.wait.socket.events)) hw⟩
  case vc2 s h hw _ =>
    refine ⟨h.congr rfl rfl rfl rfl, iff_of_false (fun hset => ?_) hw⟩
    exact of_decide_eq_true hset (pollOut_clear s.wait.socket.events)

theorem setEvents_starts (f : BitVec 16 → BitVec 16) : Starts config false (setEvents f) :=
  wait_starts fun wait : Fds => { wait with socket.events := f wait.socket.events }

theorem startReading_starts {setup : Setup} : Starts config false (startReading config setup) := by
  unfold startReading
  mvcgen [shutdown_starts, setEvents_starts]

theorem startWriting_starts {setup : Setup} : Starts config (!config.write) (startWriting config setup) := by
  unfold startWriting
  mvcgen [shutdown_starts, setEvents_starts, writeShutdown_starts]
  case vc4 =>
    rw [‹(!config.write) = true›]
    exact id
  case vc5 hwrite _ h => rwa [Bool.eq_false_of_not_eq_true hwrite]

theorem start_fresh (config : Config) (setup : Setup) :
    ⦃fun s => ⌜s = { wait := loop.wait }⌝⦄ loop.start config setup
    ⦃post⟨fun _ s => ⌜Fresh (!config.write) s⌝, fun _ s => ⌜Sent config s⌝⟩⦄ := by
  unfold loop start
  mvcgen [check_starts, startReading_starts, startWriting_starts]
  case vc1 hs =>
    subst hs
    exact ⟨rfl, rfl, rfl, rfl⟩
  case vc3 s h _ => exact ⟨h.writeShutdown, h.w, h.accepted, h.typed⟩

theorem lawful : loop.Lawful where
  start config setup := by
    have hstart := start_fresh config setup
    mvcgen [hstart]
    exact Fresh.conserved
  round := by
    intro config ready calls
    unfold loop round
    mvcgen [poll_keeps, socketReadable_keeps, stdinReadable_keeps, socketWritable_keeps, waitForWrite_spec]

end Poll

namespace Select
variable {config : Config} {calls : Calls} {fd : Nat}

theorem setRead_keeps (fd : Nat) (b : Bool) : Keeps config (setRead fd b) :=
  wait_keeps fun wait : Sets => { wait with rSet := Function.update wait.rSet fd b }

theorem select_keeps (ready : Except Int (FdSet × FdSet)) : Keeps config (select ready) := by
  unfold select
  mvcgen
  case vc1 => exact ‹Conserved config _›.sent
  case vc2 s h _ => exact h.congr rfl rfl rfl rfl

theorem socketReadable_keeps : Keeps config (socketReadable fd calls) := by
  unfold socketReadable
  mvcgen [receive_keeps, setRead_keeps, print_keeps]
  case vc2 s h _ _ => exact h.congr rfl rfl rfl rfl
  case vc4 s h _ _ => exact h.congr rfl rfl rfl rfl

theorem waitForRead_keeps : Keeps config (waitForRead fd) := by
  unfold waitForRead
  mvcgen [setRead_keeps]

theorem stdinReadable_keeps : Keeps config (stdinReadable calls) := by
  unfold stdinReadable
  mvcgen [typeIn_keeps, setRead_keeps]

theorem socketWritable_keeps : Keeps config (socketWritable fd calls) := by
  unfold socketWritable
  mvcgen [send_keeps]

theorem waitForWrite_spec : ⦃fun s => ⌜Conserved config s⌝⦄ waitForWrite fd
    ⦃post⟨fun _ s => ⌜Conserved config s ∧ ((loop fd).writeInterest s.wait = true ↔ s.w ≠ [])⌝,
      fun _ s => ⌜Sent config s⌝⟩⦄ := by
  unfold waitForWrite
  mvcgen [setWrite]
  case vc1 s h hw _ => exact ⟨h.congr rfl rfl rfl rfl, iff_of_true (Function.update_self ..) hw⟩
  case vc2 s h hw _ =>
    refine ⟨h.congr rfl rfl rfl rfl, iff_of_false (fun hset => ?_) hw⟩
    have hclear : Function.update s.wait.wSet fd false fd = true := hset
    rw [Function.update_self] at hclear
    cases hclear

theorem setRead_starts (fd : Nat) (b : Bool) : Starts config false (setRead fd b) :=
  wait_starts fun wait : Sets => { wait with rSet := Function.update wait.rSet fd b }

theorem startReading_starts {setup : Setup} : Starts config false (startReading config setup) := by
  unfold startReading
  mvcgen [shutdown_starts, setRead_starts]

theorem startWriting_starts {setup : Setup} : Starts config (!config.write) (startWriting config setup) := by
  unfold startWriting
  mvcgen [shutdown_starts, writeShutdown_starts]
  case vc3 =>
    rw [‹(!config.write) = true›]
    exact id
  case vc4 hwrite _ h => rwa [Bool.eq_false_of_not_eq_true hwrite]

theorem start_fresh (fd : Nat) (config : Config) (setup : Setup) :
    ⦃fun s => ⌜s = { wait := (loop fd).wait }⌝⦄ (loop fd).start config setup
    ⦃post⟨fun _ s => ⌜Fresh (!config.write) s⌝, fun _ s => ⌜Sent config s⌝⟩⦄ := by
  unfold loop start
  mvcgen [check_starts, setRead_starts, startReading_starts, startWriting_starts]
  case vc1 hs =>
    subst hs
    exact ⟨rfl, rfl, rfl, rfl⟩

theorem lawful (fd : Nat) : (loop fd).Lawful where
  start config setup := by
    have hstart := start_fresh fd config setup
    mvcgen [hstart]
    exact Fresh.conserved
  round := by
    intro config ready calls
    unfold loop round
    mvcgen [select_keeps, socketReadable_keeps, waitForRead_keeps, stdinReadable_keeps, socketWritable_keeps,
      waitForWrite_spec]

end Select

/-! ### `Process` -/

section Process
variable {ρ : Type} {loop : Loop ι ρ} {config : Config} {setup : Setup}

theorem rounds_keep (config : Config) (hloop : loop.Lawful) (rounds : List (Except Int ρ × Calls)) :
    Keeps config (forM rounds fun x => loop.round x.1 x.2) := by
  induction rounds with
  | nil =>
    rw [List.forM_nil]
    mvcgen
  | cons x rounds ih =>
    rw [List.forM_cons]
    have hround := hloop.round
    mvcgen [hround, ih]
    case vc2 h => exact h.1

theorem process_spec (config : Config) (setup : Setup) (hloop : loop.Lawful) (rounds : List (Except Int ρ × Calls)) :
    ⦃fun s : State ι => ⌜s = { wait := loop.wait }⌝⦄ loop.process config setup rounds
    ⦃post⟨fun _ s => ⌜Conserved config s⌝, fun _ s => ⌜Sent config s⌝⟩⦄ := by
  unfold Loop.process
  have hstart := hloop.start
  have hrounds := rounds_keep config hloop
  mvcgen [hstart, hrounds]

/-- The last round leaves the socket waited for as `w` demands. -/
theorem process_last (config : Config) (setup : Setup) (hloop : loop.Lawful) (rounds : List (Except Int ρ × Calls))
    (last : Except Int ρ × Calls) :
    ⦃fun s : State ι => ⌜s = { wait := loop.wait }⌝⦄ loop.process config setup (rounds ++ [last])
    ⦃post⟨fun _ s => ⌜Conserved config s ∧ (loop.writeInterest s.wait = true ↔ s.w ≠ [])⌝,
      fun _ s => ⌜Sent config s⌝⟩⦄ := by
  unfold Loop.process
  have hstart := hloop.start
  have hrounds := rounds_keep config hloop
  have hround := hloop.round
  rw [List.forM_append, List.forM_cons, List.forM_nil]
  mvcgen [hstart, hrounds, hround]

theorem run_of_triple {x : Exec ι Unit} {s₀ : State ι} {Q E : State ι → Prop}
    (h : ⦃fun s => ⌜s = s₀⌝⦄ x ⦃post⟨fun _ s => ⌜Q s⌝, fun _ s => ⌜E s⌝⟩⦄) :
    (∀ s, x.run s₀ = .ok () s → Q s) ∧ ∀ e s, x.run s₀ = .error e s → E s := by
  have hrun := h s₀ rfl
  refine ⟨?_, ?_⟩
  · intro s hs
    simp only [wp, PredTrans.apply, hs] at hrun
    exact hrun
  · intro e s hs
    simp only [wp, PredTrans.apply, hs] at hrun
    exact hrun

/-- Whether or not the call has ended, what it has sent is right. -/
theorem run_sent (hloop : loop.Lawful) (rounds : List (Except Int ρ × Calls)) :
    Sent config (lastState (loop.run config setup rounds)) := by
  obtain ⟨hok, herror⟩ := run_of_triple (process_spec config setup hloop rounds)
  cases hrun : loop.run config setup rounds with
  | ok _ s => exact (hok s hrun).sent
  | error e s => exact herror e s hrun

end Process

/-- At the end of every round the accepted bytes and `w` are what was typed to be sent, and the socket is waited for to
    be writable exactly if `w` is not empty. -/
def ConservesTyped {ρ : Type} (loop : Loop ι ρ) (config : Config) : Prop :=
  ∀ (setup : Setup) (rounds : List (Except Int ρ × Calls)) (last : Except Int ρ × Calls) (s : State ι),
    loop.run config setup (rounds ++ [last]) = .ok () s →
    s.accepted ++ s.w = s.kept ∧ (loop.writeInterest s.wait = true ↔ s.w ≠ [])

theorem conservesTyped {ρ : Type} {loop : Loop ι ρ} (hloop : loop.Lawful) (config : Config) :
    ConservesTyped loop config := by
  intro setup rounds last s hrun
  obtain ⟨hconserved, hinterest⟩ := (run_of_triple (process_last config setup hloop rounds last)).1 s hrun
  exact ⟨hconserved.bytes, hinterest⟩

/-- Both variants of `Process` conserve what is typed, and of the same lines they send beginnings of the same string. -/
theorem process_conserves_typed (fd : Nat) (config : Config) :
    ConservesTyped Poll.loop config ∧ ConservesTyped (Select.loop fd) config ∧
    ∀ (setup setup' : Setup) (rounds : List (Except Int (BitVec 16 × BitVec 16) × Calls))
      (rounds' : List (Except Int (Select.FdSet × Select.FdSet) × Calls)) (lines : List ByteString),
      (lastState (Poll.loop.run config setup rounds)).lines <+: lines →
      (lastState ((Select.loop fd).run config setup' rounds')).lines <+: lines →
      (lastState (Poll.loop.run config setup rounds)).accepted <+: toSend config lines ∧
        (lastState ((Select.loop fd).run config setup' rounds')).accepted <+: toSend config lines := by
  refine ⟨conservesTyped Poll.lawful config, conservesTyped (Select.lawful fd) config, ?_⟩
  intro setup setup' rounds rounds' lines hpoll hselect
  exact ⟨(run_sent Poll.lawful rounds).trans (toSend_begin hpoll),
    (run_sent (Select.lawful fd) rounds').trans (toSend_begin hselect)⟩

/-- `"hi\n"` is typed, and there is room for some bytes of it. -/
def typesHi (room : List Nat) : Calls where
  socket := ⟨[], .again⟩
  stdin := ⟨[⟨[104, 105, 10], []⟩], .again⟩
  write := ⟨room, .again⟩

/-- The rounds of `poll` in which a line is read and written. -/
def pollRounds : List (Except Int (BitVec 16 × BitVec 16) × Calls) :=
  [(.ok (Poll.pollIn, Poll.pollOut), typesHi [2])]

/-- The rounds of `select` in which a line is read and written. -/
def selectRounds : List (Except Int (Select.FdSet × Select.FdSet) × Calls) :=
  [(.ok (fun fd => fd = 0, fun _ => false), typesHi []), (.ok (fun _ => false, fun fd => fd = 3), typesHi [1])]

/-- With `poll` the line is written in the round in which it is read, with `select` in the next one. -/
theorem process_conserves_typed_hi : ∃ s s',
    Poll.loop.run ⟨true, true⟩ {} pollRounds = .ok () s ∧
    (Select.loop 3).run ⟨true, true⟩ {} selectRounds = .ok () s' ∧
    s.accepted = [104, 105] ∧ s'.accepted = [104] ∧
    (s.accepted ++ s.w = s.kept ∧ (Poll.loop.writeInterest s.wait = true ↔ s.w ≠ [])) ∧
    (s'.accepted ++ s'.w = s'.kept ∧ ((Select.loop 3).writeInterest s'.wait = true ↔ s'.w ≠ [])) ∧
    s.accepted <+: toSend ⟨true, true⟩ [[104, 105, 10]] ∧ s'.accepted <+: toSend ⟨true, true⟩ [[104, 105, 10]] := by
  obtain ⟨hpoll, hselect, hsent⟩ := process_conserves_typed 3 ⟨true, true⟩
  refine ⟨_, _, rfl, rfl, rfl, rfl, ?_, ?_, ?_⟩
  · exact hpoll {} [] (.ok (Poll.pollIn, Poll.pollOut), typesHi [2]) _ rfl
  · exact hselect {} [(.ok (fun fd => fd = 0, fun _ => false), typesHi [])]
      (.ok (fun _ => false, fun fd => fd = 3), typesHi [1]) _ rfl
  · exact hsent {} {} pollRounds selectRounds [[104, 105, 10]] (List.prefix_refl _) (List.prefix_refl _)

end SocketTcp
