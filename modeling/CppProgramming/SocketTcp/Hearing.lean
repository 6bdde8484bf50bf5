import CppProgramming.SocketTcp.AfterShutdown

/-! # What a round prints of the socket

A round of either variant reads the socket before everything else, if it was reported readable, and prints what it has
read and whether the other side has ended. The rest of the round is about what is typed and what is written, and prints
nothing of the kind. -/

namespace SocketTcp
open Std.Do
open Drain (Chunk Drained)
open EdgeTriggered (WriteCalls WriteStop)

variable {ι ρ : Type}

/-! ### What is printed -/

/-- What of it came from the socket. -/
def Output.bytes : Output → ByteString
  | received s => s
  | _ => []

/-- It is about what came from the socket. -/
def Output.isNews : Output → Bool
  | received _ => true
  | readStop => true
  | _ => false

/-- `shutdown` is called, and reading is shut. -/
def Output.shutsRead : Output → Bool
  | shut .read => true
  | shut .both => true
  | _ => false

/-- The text that was printed of what came from the socket. -/
def State.received (s : State ι) : ByteString := (s.printed.map Output.bytes).flatten

/-- Reading has been shut, or tried to. -/
def State.readShut (s : State ι) : Bool := s.printed.any Output.shutsRead

/-- A "read stop" was printed before reading was shut at this end; the one that follows the shutdown says nothing of the
    other end. -/
def State.readStopped (s : State ι) : Bool := (s.printed.takeWhile fun o => !o.shutsRead).contains .readStop

/-- What is printed of a reading of the socket. -/
def heard (d : Drained) : List Output :=
  (if d.s = [] then [] else [.received d.s]) ++ if d.eof then [.readStop] else []

theorem bytes_heard (d : Drained) : ((heard d).map Output.bytes).flatten = d.s := by
  unfold heard
  by_cases hs : d.s = [] <;> cases d.eof <;> simp [hs, Output.bytes]

section Printed
variable {s s' : State ι} {more : List Output} {d : Drained}

theorem received_append (h : s'.printed = s.printed ++ more) :
    s'.received = s.received ++ (more.map Output.bytes).flatten := by
  rw [State.received, h, List.map_append, List.flatten_append, State.received]

theorem bytes_quiet (hmore : ∀ o ∈ more, o.isNews = false) : (more.map Output.bytes).flatten = [] := by
  rw [List.flatten_eq_nil_iff, List.forall_mem_map]
  intro o ho
  cases o with
  | received t => cases hmore _ ho
  | readStop | shut _ | unwrittenLength _ | writeIsShutdown => rfl

/-- "read stop" is new only if it is among what is printed now, and reading was not shut before. -/
theorem readStopped_append (h : s'.printed = s.printed ++ more) (hstop : s'.readStopped = true) :
    s.readStopped = true ∨ .readStop ∈ more ∧ s.readShut = false := by
  rw [State.readStopped, List.contains_iff_mem, h] at hstop
  cases hshut : s.readShut with
  | false =>
    have hall : ∀ o ∈ s.printed, (!o.shutsRead) = true := by
      intro o ho
      rw [Bool.not_eq_true']
      exact Bool.eq_false_iff.mpr fun hs => List.any_eq_false.mp hshut o ho hs
    rw [List.takeWhile_append_of_pos hall] at hstop
    rcases List.mem_append.mp hstop with hold | hnew
    · refine .inl (List.contains_iff_mem.mpr ?_)
      rwa [List.takeWhile_eq_self_iff.mpr hall]
    · exact .inr ⟨(List.takeWhile_prefix _).subset hnew, rfl⟩
  | true =>
    -- The first call of `shutdown` ends what is looked at.
    refine .inl (List.contains_iff_mem.mpr ?_)
    obtain ⟨o, ho, hs⟩ := List.any_eq_true.mp hshut
    have hne : ¬∀ o ∈ s.printed, (!o.shutsRead) = true := by
      intro hall
      have := hall o ho
      rw [hs] at this
      cases this
    rw [List.takeWhile_append, if_neg] at hstop
    · exact hstop
    · intro hlength
      exact hne (List.takeWhile_eq_self_iff.mp ((List.takeWhile_prefix _).eq_of_length hlength))

end Printed

/-! ### The begin of a round -/

/-- How the part of a round in front of stdin ends: it may fail before it reads anything, read nothing, read something
    and print it, or fail in reading. -/
inductive Heard (reads : Bool) (calls : ReadCalls) (s : State ι) : EStateM.Result Ending (State ι) Unit → Prop
  | failed {code : Int} : reads = false → Heard reads calls s (.error (.exception code) s)
  | silent {wait : ι} : reads = false → Heard reads calls s (.ok () { s with wait := wait })
  | data {d : Drained} {wait : ι} : reads = true → read calls.chunks calls.stop = .ok d →
      Heard reads calls s (.ok () { s with wait := wait, printed := s.printed ++ heard d })
  | broken {code : Int} {wait : ι} : reads = true → read calls.chunks calls.stop = .error code →
      Heard reads calls s (.error (.exception code) { s with wait := wait })

theorem receive_ok {calls : ReadCalls} {d : Drained} (h : read calls.chunks calls.stop = .ok d) (s : State ι) :
    (receive calls).run s =
      .ok d.eof { s with printed := s.printed ++ if d.s = [] then [] else [.received d.s] } := by
  by_cases hs : d.s = []
  · simp [receive, readFd, h, hs]
  · simp [receive, readFd, h, hs, print]

theorem receive_error {calls : ReadCalls} {code : Int} (h : read calls.chunks calls.stop = .error code) (s : State ι) :
    (receive calls).run s = .error (.exception code) s := by
  simp [receive, readFd, h]
  rfl

/-- What is done behind `Read`, up to stdin: "read stop" is printed if it has to be. -/
structure Stops (next : Bool → Exec ι Unit) : Prop where
  again : ∀ s, ∃ wait, (next false).run s = .ok () { s with wait := wait }
  eof : ∀ s, ∃ wait, (next true).run s = .ok () { s with wait := wait, printed := s.printed ++ [.readStop] }

/-- The socket is read, whatever was waited for. -/
theorem receive_heard {next : Bool → Exec ι Unit} (hnext : Stops next) (calls : ReadCalls) (s : State ι) (wait : ι) :
    Heard true calls s ((do let readStop ← receive calls; next readStop).run { s with wait := wait }) := by
  cases hread : read calls.chunks calls.stop with
  | error code =>
    have hrun : (do let readStop ← receive calls; next readStop).run { s with wait := wait } =
        .error (.exception code) { s with wait := wait } := by
      rw [EStateM.run_bind, receive_error hread]
    rw [hrun]
    exact .broken rfl hread
  | ok d =>
    have hrun := bind_of_ok (f := next) (receive_ok hread { s with wait := wait })
    cases heof : d.eof with
    | false =>
      obtain ⟨wait', hlast⟩ := hnext.again { s with
        wait := wait, printed := s.printed ++ if d.s = [] then [] else [.received d.s] }
      rw [hrun, heof, hlast]
      have hheard : heard d = if d.s = [] then [] else [.received d.s] := by simp [heard, heof]
      rw [← hheard]
      exact .data rfl hread
    | true =>
      obtain ⟨wait', hlast⟩ := hnext.eof { s with
        wait := wait, printed := s.printed ++ if d.s = [] then [] else [.received d.s] }
      rw [hrun, heof, hlast]
      have hheard : heard d = (if d.s = [] then [] else [.received d.s]) ++ [.readStop] := by simp [heard, heof]
      rw [List.append_assoc, ← hheard]
      exact .data rfl hread

namespace Poll

/-- `fds[1].revents & POLLIN` after the call of `poll`. -/
def readable : Except Int (BitVec 16 × BitVec 16) → Bool
  | .error _ => false
  | .ok (_, socket) => socket &&& pollIn ≠ 0

theorem early_heard (ready : Except Int (BitVec 16 × BitVec 16)) (calls : Calls) (s : State Fds) :
    Heard (readable ready) calls.socket s ((parts.early ready calls).run s) := by
  cases ready with
  | error code => exact .failed rfl
  | ok revents =>
    obtain ⟨stdin, socket⟩ := revents
    have hpoll : (parts.early (.ok (stdin, socket)) calls).run s = (socketReadable calls).run { s with
        wait := { stdin := { s.wait.stdin with revents := stdin },
                  socket := { s.wait.socket with revents := socket } } } := rfl
    rw [hpoll]
    by_cases hin : socket &&& pollIn ≠ 0
    · have hreads : readable (.ok (stdin, socket)) = true := decide_eq_true hin
      rw [hreads]
      unfold socketReadable
      rw [EStateM.run_bind, EStateM.run_get]
      simp only [if_pos hin]
      refine receive_heard ⟨fun s => ⟨s.wait, rfl⟩, fun s => ⟨_, rfl⟩⟩ calls.socket s _
    · have hreads : readable (.ok (stdin, socket)) = false := decide_eq_false hin
      rw [hreads]
      unfold socketReadable
      rw [EStateM.run_bind, EStateM.run_get]
      simp only [if_neg hin]
      exact .silent rfl

end Poll

namespace Select

/-- `FD_ISSET(fd, &rSet)` after the call of `select`. -/
def readable (fd : Nat) (s : State Sets) : Except Int (FdSet × FdSet) → Bool
  | .error _ => false
  | .ok (ready, _) => s.wait.rSet fd && ready fd

theorem waitForRead_run (fd : Nat) (s : State Sets) : ∃ wait, (waitForRead fd).run s = .ok () { s with wait := wait } := by
  cases hstop : s.wait.readStop with
  | true => exact ⟨s.wait, by simp [waitForRead, hstop]⟩
  | false => exact ⟨{ s.wait with rSet := Function.update s.wait.rSet fd true }, by simp [waitForRead, hstop, setRead]⟩

theorem early_heard (fd : Nat) (ready : Except Int (FdSet × FdSet)) (calls : Calls) (s : State Sets) :
    Heard (readable fd s ready) calls.socket s (((parts fd).early ready calls).run s) := by
  cases ready with
  | error code => exact .failed rfl
  | ok sets =>
    obtain ⟨ready, writable⟩ := sets
    have hselect : ((parts fd).early (.ok (ready, writable)) calls).run s =
        (do socketReadable fd calls; waitForRead fd).run { s with
          wait := { s.wait with
            rSet := fun fd => s.wait.rSet fd && ready fd
            wSet := fun fd => s.wait.wSet fd && writable fd } } := rfl
    rw [hselect]
    by_cases hin : (s.wait.rSet fd && ready fd) = true
    · have hreads : readable fd s (.ok (ready, writable)) = true := hin
      rw [hreads]
      unfold socketReadable
      rw [EStateM.run_bind, EStateM.run_bind, EStateM.run_get]
      simp only [if_pos hin]
      rw [← EStateM.run_bind, bind_assoc]
      exact receive_heard ⟨fun s => ⟨_, rfl⟩, fun s => ⟨_, rfl⟩⟩ calls.socket s _
    · have hreads : readable fd s (.ok (ready, writable)) = false := Bool.eq_false_iff.mpr hin
      rw [hreads]
      unfold socketReadable
      rw [EStateM.run_bind, EStateM.run_bind, EStateM.run_get]
      simp only [if_neg hin]
      obtain ⟨wait, hwait⟩ := waitForRead_run fd { s with
        wait := { s.wait with
          rSet := fun fd => s.wait.rSet fd && ready fd
          wSet := fun fd => s.wait.wSet fd && writable fd } }
      rw [EStateM.run_pure]
      show Heard false calls.socket s ((waitForRead fd).run _)
      rw [hwait]
      exact .silent rfl

end Select

/-! ### The rest of a round -/

/-- What is typed has no zero in it. -/
def State.Plain (s : State ι) : Prop := ∀ x ∈ s.typed, 0 ∉ x.line

/-- The socket accepts more and nothing is taken back; nothing that came from the socket is printed. -/
structure Quietly (s₀ s : State ι) : Prop where
  accepted : s₀.accepted <+: s.accepted
  writeShutdown : s₀.writeShutdown = true → s.writeShutdown = true
  plain : s₀.Plain → s.Plain
  printed : ∃ more, s.printed = s₀.printed ++ more ∧ ∀ o ∈ more, o.isNews = false

/-- What the function does is done quietly, whether or not it ends the loop. -/
abbrev KeepsQuiet {α : Type} (s₀ : State ι) (x : Exec ι α) : Prop :=
  ⦃fun s => ⌜Quietly s₀ s⌝⦄ x ⦃post⟨fun _ s => ⌜Quietly s₀ s⌝, fun _ s => ⌜Quietly s₀ s⌝⟩⦄

section Quiet
variable {s₀ s s' : State ι}

theorem Quietly.refl (s : State ι) : Quietly s s := ⟨List.prefix_refl _, id, id, [], by simp⟩

/-- Changes of what is waited for and of `w`. -/
theorem Quietly.congr (h : Quietly s₀ s) (hdown : s'.writeShutdown = s.writeShutdown) (haccepted : s'.accepted = s.accepted)
    (htyped : s'.typed = s.typed) (hprinted : s'.printed = s.printed) : Quietly s₀ s' := by
  obtain ⟨hmore, hkeep, hplain, hquiet⟩ := h
  refine ⟨haccepted ▸ hmore, hdown ▸ hkeep, fun h => ?_, hprinted ▸ hquiet⟩
  rw [State.Plain, htyped]
  exact hplain h

theorem Quietly.print (h : Quietly s₀ s) {o : Output} (ho : o.isNews = false) (hdown : s'.writeShutdown = s.writeShutdown)
    (haccepted : s'.accepted = s.accepted) (htyped : s'.typed = s.typed) (hprinted : s'.printed = s.printed ++ [o]) :
    Quietly s₀ s' := by
  obtain ⟨hmore, hkeep, hplain, more, heq, hquiet⟩ := h
  refine ⟨haccepted ▸ hmore, hdown ▸ hkeep, fun h => ?_, more ++ [o], ?_, ?_⟩
  · rw [State.Plain, htyped]
    exact hplain h
  · rw [hprinted, heq, List.append_assoc]
  · intro o' ho'
    rcases List.mem_append.mp ho' with hold | hnew
    · exact hquiet o' hold
    · rw [List.mem_singleton.mp hnew]
      exact ho

/-- What `Read` returns, and when it says that the other side has ended. -/
theorem read_ok {calls : ReadCalls} {d : Drained} (hfits : ∀ chunk ∈ calls.chunks, chunk.bytes.length ≤ bufSize)
    (h : read calls.chunks calls.stop = .ok d) :
    d.s = (calls.chunks.map fun chunk => CString.content chunk.bytes).flatten ∧ (d.eof = true ↔ calls.stop = .eof) := by
  rw [read, readLoop_eq hfits List.length_replicate] at h
  cases hstop : calls.stop with
  | eof | again =>
    rw [hstop] at h
    cases h
    simp
  | error code =>
    rw [hstop] at h
    cases h

theorem read_plain {calls : ReadCalls} {d : Drained} (hfits : ∀ chunk ∈ calls.chunks, chunk.bytes.length ≤ bufSize)
    (h : read calls.chunks calls.stop = .ok d) : 0 ∉ d.s := by
  rw [(read_ok hfits h).1]
  intro hzero
  obtain ⟨l, hl, hmem⟩ := List.mem_flatten.mp hzero
  obtain ⟨chunk, -, rfl⟩ := List.mem_map.mp hl
  exact CString.not_mem_content hmem

/-- A line has been read, and nothing else has changed but `w`. -/
theorem Quietly.type (h : Quietly s₀ s) {calls : ReadCalls} {d : Drained}
    (hfits : ∀ chunk ∈ calls.chunks, chunk.bytes.length ≤ bufSize) (hread : read calls.chunks calls.stop = .ok d)
    (hdown : s'.writeShutdown = s.writeShutdown) (haccepted : s'.accepted = s.accepted)
    (htyped : s'.typed = s.typed ++ [⟨d.s, s.writeShutdown⟩]) (hprinted : s'.printed = s.printed) : Quietly s₀ s' := by
  obtain ⟨hmore, hkeep, hplain, hquiet⟩ := h
  refine ⟨haccepted ▸ hmore, hdown ▸ hkeep, fun h => ?_, hprinted ▸ hquiet⟩
  intro x hx
  rw [htyped] at hx
  rcases List.mem_append.mp hx with hold | hnew
  · exact hplain h x hold
  · rw [List.mem_singleton.mp hnew]
    exact read_plain hfits hread

theorem print_quiet (s₀ : State ι) {o : Output} (ho : o.isNews = false) : KeepsQuiet s₀ (print o) := by
  unfold print
  mvcgen
  case vc1 s h _ => exact h.print ho rfl rfl rfl rfl

theorem wait_quiet (s₀ : State ι) (f : ι → ι) : KeepsQuiet s₀ (modify fun s => { s with wait := f s.wait }) := by
  mvcgen
  case vc1 s h _ => exact h.congr rfl rfl rfl rfl

theorem shutdown_quiet (s₀ : State ι) (how : How) (result : Option Int) : KeepsQuiet s₀ (shutdown how result) := by
  have hprint := print_quiet s₀ (o := .shut how) rfl
  unfold shutdown check
  mvcgen [hprint]

theorem writeShutdown_quiet (s₀ : State ι) :
    KeepsQuiet s₀ (modify fun s => { s with writeShutdown := true } : Exec ι Unit) := by
  mvcgen
  case vc1 s h _ => exact ⟨h.accepted, fun _ => rfl, h.plain, h.printed⟩

theorem typeIn_keepsQuiet (s₀ : State ι) {calls : ReadCalls}
    (hfits : ∀ chunk ∈ calls.chunks, chunk.bytes.length ≤ bufSize) (result : Option Int) :
    KeepsQuiet s₀ (typeIn calls result) := by
  have hshutdown := shutdown_quiet s₀
  have hdown := writeShutdown_quiet s₀
  unfold typeIn
  mvcgen [readFd, hshutdown, hdown, print]
  -- The line is recorded, whatever it is.
  case vc1 s h d hread _ _ => exact h.type hfits hread rfl rfl rfl rfl
  case vc2 s h d hread _ _ _ => exact h.type hfits hread rfl rfl rfl rfl
  case vc3 s h d hread _ _ _ _ => exact h.type hfits hread rfl rfl rfl rfl
  case vc5 s h d hread _ _ _ _ _ => exact h.type hfits hread rfl rfl rfl rfl
  case vc7 s h d hread _ _ _ _ _ _ _ =>
    have htype : Quietly s₀ { s with typed := s.typed ++ [⟨d.s, s.writeShutdown⟩] } :=
      h.type hfits hread rfl rfl rfl rfl
    exact htype.print rfl rfl rfl rfl rfl
  case vc8 s h d hread _ _ _ _ _ _ _ _ =>
    have htype : Quietly s₀ { s with typed := s.typed ++ [⟨d.s, s.writeShutdown⟩] } :=
      h.type hfits hread rfl rfl rfl rfl
    exact htype.print rfl rfl rfl rfl rfl
  case vc9 s h d hread _ _ _ _ _ _ _ _ => exact h.type hfits hread rfl rfl rfl rfl

theorem writeLoop_quiet (s₀ : State ι) (stop : WriteStop) (room : List Nat) (rest : ByteString) :
    KeepsQuiet s₀ (writeLoop stop room rest) := by
  induction room generalizing rest with
  | nil =>
    cases rest with
    | nil =>
      unfold writeLoop
      mvcgen
    | cons b rest =>
      unfold writeLoop
      mvcgen
  | cons n room ih =>
    cases rest with
    | nil =>
      unfold writeLoop
      mvcgen
    | cons b rest =>
      unfold writeLoop
      mvcgen [ih]
      case vc1 s h _ => exact ⟨h.accepted.trans (List.prefix_append _ _), h.writeShutdown, h.plain, h.printed⟩

theorem send_quiet (s₀ : State ι) (calls : WriteCalls) : KeepsQuiet s₀ (send calls) := by
  have hloop := writeLoop_quiet s₀
  unfold send write
  mvcgen [hloop]
  case vc1 h _ _ => exact h.congr rfl rfl rfl rfl
  case vc3 h _ => exact h.congr rfl rfl rfl rfl

end Quiet

namespace Poll

theorem waitForWrite_quiet (s₀ : State Fds) : KeepsQuiet s₀ waitForWrite := by
  unfold waitForWrite setEvents
  mvcgen
  case vc1 h _ _ => exact h.congr rfl rfl rfl rfl
  case vc2 h _ _ => exact h.congr rfl rfl rfl rfl

end Poll

namespace Select

theorem setRead_quiet (s₀ : State Sets) (fd : Nat) (b : Bool) : KeepsQuiet s₀ (setRead fd b) :=
  wait_quiet s₀ fun wait => { wait with rSet := Function.update wait.rSet fd b }

theorem waitForWrite_quiet (s₀ : State Sets) (fd : Nat) : KeepsQuiet s₀ (waitForWrite fd) := by
  unfold waitForWrite setWrite
  mvcgen
  case vc1 h _ _ => exact h.congr rfl rfl rfl rfl
  case vc2 h _ _ => exact h.congr rfl rfl rfl rfl

end Select

/-- A round reads the socket first if it is reported readable, and is quiet behind that. -/
structure Loop.Parts.Hears {loop : Loop ι ρ} (parts : loop.Parts) (readable : State ι → Except Int ρ → Bool) : Prop where
  early : ∀ ready calls s, Heard (readable s ready) calls.socket s ((parts.early ready calls).run s)
  stdinIdle : ∀ s₀, KeepsQuiet s₀ parts.stdinIdle
  late : ∀ s₀, KeepsQuiet s₀ parts.late

theorem Poll.hears : Poll.parts.Hears fun _ => Poll.readable where
  early := Poll.early_heard
  stdinIdle s₀ := by
    show KeepsQuiet s₀ (pure ())
    mvcgen
  late := Poll.waitForWrite_quiet

theorem Select.hears (fd : Nat) : (Select.parts fd).Hears (Select.readable fd) where
  early ready calls s := Select.early_heard fd ready calls s
  stdinIdle s₀ := Select.setRead_quiet s₀ _ _
  late s₀ := Select.waitForWrite_quiet s₀ fd

section Round
variable {loop : Loop ι ρ} {parts : loop.Parts} {readable : State ι → Except Int ρ → Bool} {s : State ι}
  {x : Except Int ρ × Calls}

/-- What is done behind the early part. -/
def Loop.Parts.rest (parts : loop.Parts) (calls : Calls) : Exec ι Unit := do
  parts.readStdin calls
  parts.sendWritable calls
  parts.late

theorem Loop.Parts.Hears.rest_quiet (h : parts.Hears readable) (s₀ : State ι) {calls : Calls}
    (hfits : ∀ chunk ∈ calls.stdin.chunks, chunk.bytes.length ≤ bufSize) : KeepsQuiet s₀ (parts.rest calls) := by
  have htypeIn := typeIn_keepsQuiet s₀ hfits
  have hidle := h.stdinIdle s₀
  have hsend := send_quiet s₀
  have hlate := h.late s₀
  unfold Loop.Parts.rest Loop.Parts.readStdin Loop.Parts.sendWritable
  mvcgen [htypeIn, hidle, hsend, hlate]

/-- The state in which a function has ended, or is after it. -/
theorem KeepsQuiet.lastState {y : Exec ι Unit} {s₀ : State ι} (h : KeepsQuiet s₀ y) (hs : Quietly s₀ s) :
    Quietly s₀ (lastState (y.run s)) := by
  have hrun := h s hs
  cases hy : y.run s with
  | ok _ s' =>
    simp only [wp, PredTrans.apply, hy] at hrun
    exact hrun
  | error e s' =>
    simp only [wp, PredTrans.apply, hy] at hrun
    exact hrun

theorem Loop.Parts.round_eq_rest (parts : loop.Parts) (x : Except Int ρ × Calls) :
    loop.round x.1 x.2 = (do parts.early x.1 x.2; parts.rest x.2) := by
  rw [parts.round_eq', upToSend, bind_assoc]
  rfl

theorem bind_of_error {α β : Type} {y : Exec ι α} {f : α → Exec ι β} {e : Ending} {s₁ : State ι}
    (h : y.run s = .error e s₁) : (y >>= f).run s = .error e s₁ := by
  rw [EStateM.run_bind, h]

/-- A round that does not read the socket is quiet, one that does prints what it has read and is quiet behind that, and
    one that fails in reading ends `Process`. -/
theorem Loop.Parts.Hears.round_cases (h : parts.Hears readable) (s : State ι)
    (hfits : ∀ chunk ∈ x.2.stdin.chunks, chunk.bytes.length ≤ bufSize) :
    (readable s x.1 = false ∧ ∃ wait, Quietly { s with wait := wait } (lastState ((loop.round x.1 x.2).run s))) ∨
    (readable s x.1 = true ∧ ∃ d wait, read x.2.socket.chunks x.2.socket.stop = .ok d ∧
      Quietly { s with wait := wait, printed := s.printed ++ heard d } (lastState ((loop.round x.1 x.2).run s))) ∨
    (readable s x.1 = true ∧ ∃ code wait,
      (loop.round x.1 x.2).run s = .error (.exception code) { s with wait := wait }) := by
  rw [parts.round_eq_rest]
  have hearly := h.early x.1 x.2 s
  generalize hr : (parts.early x.1 x.2).run s = r at hearly
  cases hearly with
  | failed hreads =>
    rw [bind_of_error hr]
    exact .inl ⟨hreads, s.wait, .refl s⟩
  | @silent wait hreads =>
    rw [bind_of_ok hr]
    exact .inl ⟨hreads, wait, (h.rest_quiet _ hfits).lastState (.refl _)⟩
  | @data d wait hreads hread =>
    rw [bind_of_ok hr]
    exact .inr (.inl ⟨hreads, d, wait, hread, (h.rest_quiet _ hfits).lastState (.refl _)⟩)
  | @broken code wait hreads =>
    exact .inr (.inr ⟨hreads, code, wait, bind_of_error hr⟩)

end Round

/-! ### In front of the loop -/

/-- Nothing has been typed or sent, and nothing was printed of the socket. -/
structure Silent (s : State ι) : Prop where
  typed : s.typed = []
  accepted : s.accepted = []
  printed : ∀ o ∈ s.printed, o.isNews = false

/-- Whether or not the function fails, the tool is silent behind it. -/
abbrev KeepsSilent (x : Exec ι Unit) : Prop :=
  ⦃fun s => ⌜Silent s⌝⦄ x ⦃post⟨fun _ s => ⌜Silent s⌝, fun _ s => ⌜Silent s⌝⟩⦄

theorem KeepsSilent.lastState {y : Exec ι Unit} {s : State ι} (h : KeepsSilent y) (hs : Silent s) :
    Silent (lastState (y.run s)) := by
  have hrun := h s hs
  cases hy : y.run s with
  | ok _ s' =>
    simp only [wp, PredTrans.apply, hy] at hrun
    exact hrun
  | error e s' =>
    simp only [wp, PredTrans.apply, hy] at hrun
    exact hrun

theorem check_silent (result : Option Int) : KeepsSilent (check result : Exec ι Unit) := by
  unfold check
  mvcgen

theorem wait_silent (f : ι → ι) : KeepsSilent (modify fun s => { s with wait := f s.wait }) := by
  mvcgen
  case vc1 s h _ => exact ⟨h.typed, h.accepted, h.printed⟩

theorem writeShutdown_silent : KeepsSilent (modify fun s => { s with writeShutdown := true } : Exec ι Unit) := by
  mvcgen
  case vc1 s h _ => exact ⟨h.typed, h.accepted, h.printed⟩

theorem shutdown_silent (how : How) (result : Option Int) : KeepsSilent (shutdown how result : Exec ι Unit) := by
  unfold shutdown print
  mvcgen [check_silent]
  case vc1 s h _ =>
    refine ⟨h.typed, h.accepted, fun o ho => ?_⟩
    rcases List.mem_append.mp ho with hold | hnew
    · exact h.printed o hold
    · rw [List.mem_singleton.mp hnew]
      rfl

namespace Poll

theorem setEvents_silent (f : BitVec 16 → BitVec 16) : KeepsSilent (setEvents f) :=
  wait_silent fun wait : Fds => { wait with socket.events := f wait.socket.events }

theorem startReading_silent (config : Config) (setup : Setup) : KeepsSilent (startReading config setup) := by
  unfold startReading
  mvcgen [shutdown_silent, setEvents_silent]

theorem startWriting_silent (config : Config) (setup : Setup) : KeepsSilent (startWriting config setup) := by
  unfold startWriting
  mvcgen [shutdown_silent, setEvents_silent, writeShutdown_silent]

theorem start_silent (config : Config) (setup : Setup) : KeepsSilent (start config setup) := by
  unfold start
  mvcgen [check_silent, startReading_silent, startWriting_silent]
  case vc3 s h _ => exact ⟨h.typed, h.accepted, h.printed⟩

end Poll

namespace Select

theorem setRead_silent (fd : Nat) (b : Bool) : KeepsSilent (setRead fd b) :=
  wait_silent fun wait : Sets => { wait with rSet := Function.update wait.rSet fd b }

theorem startReading_silent (config : Config) (setup : Setup) : KeepsSilent (startReading config setup) := by
  unfold startReading
  mvcgen [shutdown_silent, setRead_silent]

theorem startWriting_silent (config : Config) (setup : Setup) : KeepsSilent (startWriting config setup) := by
  unfold startWriting
  mvcgen [shutdown_silent, writeShutdown_silent]

theorem start_silent (fd : Nat) (config : Config) (setup : Setup) : KeepsSilent (start fd config setup) := by
  unfold start
  mvcgen [check_silent, setRead_silent, startReading_silent, startWriting_silent]

end Select
end SocketTcp
