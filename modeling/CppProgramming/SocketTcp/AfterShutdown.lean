import CppProgramming.SocketTcp.TypedData

/-! # Writing after the shutdown

A round tests whether the socket is writable behind what it reads from stdin, and `w` is not cleared when writing is
shut down: what was pending then is written as soon as the socket is reported writable. The rounds of both variants are
taken apart where that is decided. -/

namespace SocketTcp
open Std.Do
open EdgeTriggered (WriteCalls WriteStop)

variable {ι ρ : Type}

/-- Neither `writeShutdown` nor `w` is changed. -/
abbrev Untouched (x : Exec ι Unit) : Prop :=
  ∀ b w, ⦃fun s => ⌜s.writeShutdown = b ∧ s.w = w⌝⦄ x
    ⦃post⟨fun _ s => ⌜s.writeShutdown = b ∧ s.w = w⌝, fun _ _ => ⌜True⌝⟩⦄

/-- The rounds of one variant: what is done in front of the test of stdin, what is done when stdin is not ready, and what
    is done behind the test of the socket. -/
structure Loop.Parts (loop : Loop ι ρ) where
  early : Except Int ρ → Calls → Exec ι Unit
  stdinReady : ι → Bool
  stdinIdle : Exec ι Unit
  writable : ι → Bool
  late : Exec ι Unit
  round_eq : ∀ ready calls, loop.round ready calls = do
    early ready calls
    (do if stdinReady (← get).wait then typeIn calls.stdin calls.shutdown else stdinIdle)
    (do if writable (← get).wait then send calls.write)
    late
  start_fresh : ∀ config setup,
    ⦃fun s => ⌜s = { wait := loop.wait }⌝⦄ loop.start config setup
    ⦃post⟨fun _ s => ⌜Fresh (!config.write) s⌝, fun _ s => ⌜Sent config s⌝⟩⦄
  early_untouched : ∀ ready calls, Untouched (early ready calls)
  stdinIdle_untouched : Untouched stdinIdle
  late_untouched : Untouched late

/-- A command that shuts writing down is on stdin, and `shutdown` succeeds. -/
def Calls.ShutWrite (calls : Calls) : Prop :=
  calls.shutdown = none ∧ ∃ d, read calls.stdin.chunks calls.stdin.stop = .ok d ∧ shutsWrite d.s = true

namespace Loop.Parts
variable {loop : Loop ι ρ} (parts : loop.Parts)

/-- `Read` of stdin, and what is done with it. -/
def readStdin (calls : Calls) : Exec ι Unit := do
  if parts.stdinReady (← get).wait then typeIn calls.stdin calls.shutdown else parts.stdinIdle

/-- The round up to the test of the socket. -/
def upToSend (x : Except Int ρ × Calls) : Exec ι Unit := do
  parts.early x.1 x.2
  parts.readStdin x.2

/-- `write` is called in the round when `writeShutdown` is true. -/
def WritesAfterShutdown (s : State ι) (x : Except Int ρ × Calls) : Prop :=
  ∃ s', (parts.upToSend x).run s = .ok () s' ∧ parts.writable s'.wait = true ∧ s'.writeShutdown = true ∧ s'.w ≠ []

/-- Writing is shut down in the round while something is pending. -/
def ShutsPending (s : State ι) (x : Except Int ρ × Calls) : Prop :=
  ∃ s', (parts.early x.1 x.2).run s = .ok () s' ∧ parts.stdinReady s'.wait = true ∧ x.2.ShutWrite ∧ s'.w ≠ []

end Loop.Parts

/-- Every round that is begun, in the state it is begun in. -/
def Loop.EachRound (loop : Loop ι ρ) (config : Config) (setup : Setup) (rounds : List (Except Int ρ × Calls))
    (R : State ι → Except Int ρ × Calls → Prop) : Prop :=
  ∀ pre x post s, rounds = pre ++ x :: post → loop.run config setup pre = .ok () s → R s x

/-- Once writing has been shut down, `write` is not called. -/
def Loop.Parts.NeverWritesAfterShutdown {loop : Loop ι ρ} (parts : loop.Parts) (config : Config) (setup : Setup)
    (rounds : List (Except Int ρ × Calls)) : Prop :=
  loop.EachRound config setup rounds fun s x => ¬parts.WritesAfterShutdown s x

/-- Whenever writing is shut down by a command, nothing is pending. -/
def Loop.Parts.NeverShutsPending {loop : Loop ι ρ} (parts : loop.Parts) (config : Config) (setup : Setup)
    (rounds : List (Except Int ρ × Calls)) : Prop :=
  loop.EachRound config setup rounds fun s x => ¬parts.ShutsPending s x

/-! ### Runs -/

section Runs
variable {α β : Type} {x : Exec ι α} {f : α → Exec ι β} {s s' : State ι}

theorem exists_of_bind {b : β} (h : (x >>= f).run s = .ok b s') :
    ∃ a s₁, x.run s = .ok a s₁ ∧ (f a).run s₁ = .ok b s' := by
  simp only [EStateM.run, bind, EStateM.bind] at h ⊢
  split at h
  · next a s₁ hx => exact ⟨a, s₁, hx, h⟩
  · cases h

theorem bind_of_ok {a : α} {s₁ : State ι} (h : x.run s = .ok a s₁) : (x >>= f).run s = (f a).run s₁ := by
  simp only [EStateM.run, bind, EStateM.bind] at h ⊢
  rw [h]

theorem Untouched.of_ok {x : Exec ι Unit} (hx : Untouched x) (h : x.run s = .ok () s') :
    s'.writeShutdown = s.writeShutdown ∧ s'.w = s.w := by
  have hkeep := hx s.writeShutdown s.w s ⟨rfl, rfl⟩
  simp only [wp, PredTrans.apply, h] at hkeep
  exact hkeep

end Runs

/-! ### Nothing is pending -/

/-- When writing is shut down, nothing is pending. -/
def State.Settled (s : State ι) : Prop := s.writeShutdown = true → s.w = []

theorem State.Settled.congr {s s' : State ι} (h : s.Settled) (hsame : s'.writeShutdown = s.writeShutdown ∧ s'.w = s.w) :
    s'.Settled := by
  rw [State.Settled, hsame.1, hsame.2]
  exact h

section Settled
variable {s s' : State ι} {calls : Calls}

theorem typeIn_settled (calls : Calls) :
    ⦃fun s : State ι => ⌜s.Settled ∧ (calls.ShutWrite → s.w = [])⌝⦄ typeIn calls.stdin calls.shutdown
    ⦃post⟨fun _ s => ⌜s.Settled⌝, fun _ _ => ⌜True⌝⟩⦄ := by
  unfold typeIn
  mvcgen [readFd, shutdown, print, check]
  case vc1 => exact ‹State.Settled _ ∧ _›.1.congr ⟨rfl, rfl⟩
  -- The two commands that set `writeShutdown`.
  case vc2 d hread _ _ _ hline _ _ _ =>
    have hshut : calls.ShutWrite := ⟨‹_ = none›, d, hread, Bool.or_eq_true_iff.mpr (.inl (decide_eq_true hline))⟩
    exact fun _ => ‹State.Settled _ ∧ (calls.ShutWrite → State.w _ = [])›.2 hshut
  case vc3 d hread _ _ _ _ hline _ _ _ =>
    have hshut : calls.ShutWrite := ⟨‹_ = none›, d, hread, Bool.or_eq_true_iff.mpr (.inr (decide_eq_true hline))⟩
    exact fun _ => ‹State.Settled _ ∧ (calls.ShutWrite → State.w _ = [])›.2 hshut
  case vc4 => exact ‹State.Settled _ ∧ _›.1.congr ⟨rfl, rfl⟩
  case vc5 => exact ‹State.Settled _ ∧ _›.1.congr ⟨rfl, rfl⟩
  case vc6 => exact fun hdown => absurd hdown ‹_›

theorem writeLoop_shutdown (ι : Type) (b : Bool) (stop : WriteStop) (room : List Nat) (rest : ByteString) :
    ⦃fun s : State ι => ⌜s.writeShutdown = b⌝⦄ writeLoop stop room rest
    ⦃post⟨fun _ s => ⌜s.writeShutdown = b⌝, fun _ _ => ⌜True⌝⟩⦄ := by
  induction room generalizing rest with
  | nil =>
    cases rest with
    | nil =>
      unfold writeLoop
      mvcgen
    | cons c rest =>
      unfold writeLoop
      mvcgen
  | cons n room ih =>
    cases rest with
    | nil =>
      unfold writeLoop
      mvcgen
    | cons c rest =>
      unfold writeLoop
      mvcgen [ih]

theorem write_settled (w : ByteString) (calls : WriteCalls) :
    ⦃fun s : State ι => ⌜s.Settled ∧ s.w = w⌝⦄ write w calls
    ⦃post⟨fun rest s => ⌜State.Settled { s with w := rest }⌝, fun _ _ => ⌜True⌝⟩⦄ := by
  unfold write
  cases w with
  | nil =>
    mvcgen
    case vc1 => exact fun _ => rfl
  | cons c w =>
    have hloop := writeLoop_shutdown ι false
    mvcgen [hloop]
    case vc2 s h => exact Bool.eq_false_iff.mpr fun hdown => List.cons_ne_nil c w (h.2.symm.trans (h.1 hdown))
    case vc3 => exact fun hno hdown => by cases hno.symm.trans hdown

theorem send_settled (calls : WriteCalls) :
    ⦃fun s : State ι => ⌜s.Settled⌝⦄ send calls ⦃post⟨fun _ s => ⌜s.Settled⌝, fun _ _ => ⌜True⌝⟩⦄ := by
  unfold send
  mvcgen [write_settled]

end Settled

/-! ### Rounds -/

section Rounds
variable {loop : Loop ι ρ} {config : Config} {setup : Setup} {s s' : State ι} {x : Except Int ρ × Calls}
  {rounds : List (Except Int ρ × Calls)} (parts : loop.Parts)

namespace Loop.Parts

/-- `if (fds[1].revents & POLLOUT)` and its like. -/
def sendWritable (calls : Calls) : Exec ι Unit := do
  if parts.writable (← get).wait then send calls.write

theorem round_eq' (x : Except Int ρ × Calls) :
    loop.round x.1 x.2 = (do parts.upToSend x; parts.sendWritable x.2; parts.late) := by
  rw [parts.round_eq]
  simp only [upToSend, readStdin, sendWritable, bind_assoc]

theorem exists_of_round (h : (loop.round x.1 x.2).run s = .ok () s') :
    ∃ s₁ s₂, (parts.upToSend x).run s = .ok () s₁ ∧ (parts.sendWritable x.2).run s₁ = .ok () s₂ ∧
      parts.late.run s₂ = .ok () s' := by
  rw [parts.round_eq'] at h
  obtain ⟨⟨⟩, s₁, hup, h⟩ := exists_of_bind h
  obtain ⟨⟨⟩, s₂, hsend, hlate⟩ := exists_of_bind h
  exact ⟨s₁, s₂, hup, hsend, hlate⟩

theorem readStdin_settled (hs : s.Settled)
    (hno : parts.stdinReady s.wait = true → x.2.ShutWrite → s.w = []) (h : (parts.readStdin x.2).run s = .ok () s') :
    s'.Settled := by
  cases hready : parts.stdinReady s.wait with
  | true =>
    have hrun : (parts.readStdin x.2).run s = (typeIn x.2.stdin x.2.shutdown).run s := by
      simp [readStdin, hready]
    have hkeep := typeIn_settled x.2 s ⟨hs, hno hready⟩
    rw [hrun] at h
    simp only [wp, PredTrans.apply, h] at hkeep
    exact hkeep
  | false =>
    have hrun : (parts.readStdin x.2).run s = parts.stdinIdle.run s := by
      simp [readStdin, hready]
    rw [hrun] at h
    exact hs.congr (parts.stdinIdle_untouched.of_ok h)

theorem upToSend_settled (hs : s.Settled) (hno : ¬parts.ShutsPending s x) (h : (parts.upToSend x).run s = .ok () s') :
    s'.Settled := by
  obtain ⟨⟨⟩, s₁, hearly, hstdin⟩ := exists_of_bind h
  refine parts.readStdin_settled (hs.congr ((parts.early_untouched x.1 x.2).of_ok hearly)) ?_ hstdin
  intro hready hshut
  by_contra hw
  exact hno ⟨s₁, hearly, hready, hshut, hw⟩

theorem not_writesAfterShutdown (hs : s.Settled) (hno : ¬parts.ShutsPending s x) : ¬parts.WritesAfterShutdown s x := by
  rintro ⟨s', hrun, -, hdown, hw⟩
  exact hw (parts.upToSend_settled hs hno hrun hdown)

theorem round_settled (hs : s.Settled) (hno : ¬parts.ShutsPending s x) (h : (loop.round x.1 x.2).run s = .ok () s') :
    s'.Settled := by
  obtain ⟨s₁, s₂, hup, hsend, hlate⟩ := parts.exists_of_round h
  have hs₁ := parts.upToSend_settled hs hno hup
  have hs₂ : s₂.Settled := by
    cases hwritable : parts.writable s₁.wait with
    | true =>
      have hrun : (parts.sendWritable x.2).run s₁ = (send x.2.write).run s₁ := by
        simp [sendWritable, hwritable]
      have hkeep := send_settled x.2.write s₁ hs₁
      rw [hrun] at hsend
      simp only [wp, PredTrans.apply, hsend] at hkeep
      exact hkeep
    | false =>
      have hrun : (parts.sendWritable x.2).run s₁ = .ok () s₁ := by
        simp [sendWritable, hwritable]
      cases hrun.symm.trans hsend
      exact hs₁
  exact hs₂.congr (parts.late_untouched.of_ok hlate)

end Loop.Parts

theorem run_concat (config : Config) (setup : Setup) (rounds : List (Except Int ρ × Calls)) (x : Except Int ρ × Calls) :
    loop.run config setup (rounds ++ [x]) =
      (do loop.process config setup rounds; loop.round x.1 x.2).run { wait := loop.wait } := by
  have hprocess : loop.process config setup (rounds ++ [x]) =
      (do loop.process config setup rounds; loop.round x.1 x.2) := by
    simp [Loop.process, List.forM_append]
  rw [Loop.run, hprocess]

theorem exists_of_run_concat (h : loop.run config setup (rounds ++ [x]) = .ok () s') :
    ∃ s, loop.run config setup rounds = .ok () s ∧ (loop.round x.1 x.2).run s = .ok () s' := by
  rw [run_concat] at h
  obtain ⟨⟨⟩, s, hrounds, hlast⟩ := exists_of_bind h
  exact ⟨s, hrounds, hlast⟩

theorem run_settled (hrounds : parts.NeverShutsPending config setup rounds)
    (h : loop.run config setup rounds = .ok () s) : s.Settled := by
  induction rounds using List.reverseRecOn generalizing s with
  | nil =>
    have hstart : (loop.start config setup).run { wait := loop.wait } = .ok () s := by
      rw [← h, Loop.run, Loop.process]
      simp
    have hfresh := (run_of_triple (parts.start_fresh config setup)).1 s hstart
    exact fun _ => hfresh.w
  | append_singleton rounds x ih =>
    obtain ⟨s₁, hpre, hround⟩ := exists_of_run_concat h
    have hs₁ := ih (fun pre y post s heq hrun => hrounds pre y (post ++ [x]) s (by rw [heq]; simp) hrun) hpre
    exact parts.round_settled hs₁ (hrounds rounds x [] s₁ rfl hpre) hround

theorem neverWrites_of_neverShutsPending (hrounds : parts.NeverShutsPending config setup rounds) :
    parts.NeverWritesAfterShutdown config setup rounds := by
  intro pre x post s heq hrun
  refine parts.not_writesAfterShutdown (run_settled parts ?_ hrun) (hrounds pre x post s heq hrun)
  intro pre' y post' s' heq' hrun'
  exact hrounds pre' y (post' ++ x :: post) s' (by rw [heq, heq']; simp) hrun'

end Rounds

/-! ### Something is pending -/

/-- A variant ends its rounds, and there are results with which the socket is reported writable while it is waited
    for. -/
structure Loop.Parts.Reports {loop : Loop ι ρ} (parts : loop.Parts) : Prop where
  lawful : loop.Lawful
  late_run : ∀ s, ∃ s', parts.late.run s = .ok () s'
  report : ∃ y, ∀ s, loop.writeInterest s.wait = true → s.writeShutdown = true →
    ∃ s', (parts.upToSend y).run s = .ok () s' ∧ parts.writable s'.wait = true ∧ s'.writeShutdown = true ∧ s'.w = s.w

section Pending
variable {loop : Loop ι ρ} {config : Config} {setup : Setup} {s s' : State ι} {x : Except Int ρ × Calls}
  {rounds : List (Except Int ρ × Calls)} {parts : loop.Parts}

/-- The command leaves what is pending in `w`. -/
theorem typeIn_shutWrite {calls : Calls} (h : calls.ShutWrite) (s : State ι) :
    ∃ s', (typeIn calls.stdin calls.shutdown).run s = .ok () s' ∧ s'.writeShutdown = true ∧ s'.w = s.w := by
  obtain ⟨hok, d, hread, hline⟩ := h
  obtain ⟨how, htype⟩ : ∃ how, typeIn calls.stdin calls.shutdown = (do
      modify fun s : State ι => { s with typed := s.typed ++ [⟨d.s, s.writeShutdown⟩] }
      shutdown how none
      modify fun s => { s with writeShutdown := true }) := by
    simp only [typeIn, readFd, hread, hok, pure_bind]
    obtain hd | hd := Bool.or_eq_true_iff.mp hline
    · have hd := of_decide_eq_true hd
      exact ⟨.write, by rw [hd]; rfl⟩
    · have hd := of_decide_eq_true hd
      exact ⟨.both, by rw [hd]; rfl⟩
  rw [htype]
  exact ⟨_, rfl, rfl, rfl⟩

theorem exists_writesAfterShutdown (hreports : parts.Reports) (hrun : loop.run config setup rounds = .ok () s)
    (h : parts.ShutsPending s x) :
    ∃ more, ¬parts.NeverWritesAfterShutdown config setup (rounds ++ x :: more) := by
  obtain ⟨s₁, hearly, hready, hshut, hw⟩ := h
  obtain ⟨s₂, htype, hdown, hkept⟩ := typeIn_shutWrite hshut s₁
  have hstdin : (parts.readStdin x.2).run s₁ = .ok () s₂ := by
    rw [← htype]
    simp [Loop.Parts.readStdin, hready]
  have hup : (parts.upToSend x).run s = .ok () s₂ := (bind_of_ok hearly).trans hstdin
  have hw₂ : s₂.w ≠ [] := hkept ▸ hw
  cases hwritable : parts.writable s₂.wait with
  | true => exact ⟨[], fun heach => heach rounds x [] s rfl hrun ⟨s₂, hup, hwritable, hdown, hw₂⟩⟩
  | false =>
    -- It is pending until the next report.
    obtain ⟨s₃, hlate⟩ := hreports.late_run s₂
    obtain ⟨hdown₃, hw₃⟩ := parts.late_untouched.of_ok hlate
    have hsend : (parts.sendWritable x.2).run s₂ = .ok () s₂ := by
      simp [Loop.Parts.sendWritable, hwritable]
    have hround : (loop.round x.1 x.2).run s = .ok () s₃ := by
      rw [parts.round_eq', bind_of_ok hup, bind_of_ok hsend]
      exact hlate
    have hnext : loop.run config setup (rounds ++ [x]) = .ok () s₃ := by
      rw [run_concat, bind_of_ok hrun]
      exact hround
    have hinterest := (conservesTyped hreports.lawful config setup rounds x s₃ hnext).2.mpr (hw₃ ▸ hw₂)
    obtain ⟨y, hy⟩ := hreports.report
    obtain ⟨s₄, hup₄, hwritable₄, hdown₄, hw₄⟩ := hy s₃ hinterest (hdown₃.trans hdown)
    refine ⟨[y], fun heach => heach (rounds ++ [x]) y [] s₃ (by simp) hnext ⟨s₄, hup₄, hwritable₄, hdown₄, ?_⟩⟩
    rw [hw₄, hw₃]
    exact hw₂

end Pending

/-! ### The variants -/

/-- Nothing comes from the socket or from stdin, and the socket has no room. -/
def quiet : Calls where
  socket := ⟨[], .again⟩
  stdin := ⟨[], .again⟩
  write := ⟨[], .again⟩

theorem typeIn_quiet {s : State ι} (hdown : s.writeShutdown = true) :
    ∃ s', (typeIn quiet.stdin quiet.shutdown).run s = .ok () s' ∧ s'.wait = s.wait ∧ s'.writeShutdown = true ∧
      s'.w = s.w := by
  have hread : read [] .again = .ok { s := [], eof := false } := rfl
  refine ⟨{ s with typed := s.typed ++ [⟨[], true⟩], printed := s.printed ++ [.writeIsShutdown] }, ?_, rfl, hdown, rfl⟩
  simp [typeIn, readFd, quiet, hread, Command.text, print, hdown]

theorem receive_untouched (ι : Type) (calls : ReadCalls) (b : Bool) (w : ByteString) :
    ⦃fun s : State ι => ⌜s.writeShutdown = b ∧ s.w = w⌝⦄ receive calls
    ⦃post⟨fun _ s => ⌜s.writeShutdown = b ∧ s.w = w⌝, fun _ _ => ⌜True⌝⟩⦄ := by
  unfold receive
  mvcgen [readFd, print]

namespace Poll

theorem early_untouched (ready : Except Int (BitVec 16 × BitVec 16)) (calls : Calls) :
    Untouched (do poll ready; socketReadable calls) := by
  intro b w
  unfold poll socketReadable
  have hreceive := receive_untouched Fds calls.socket b w
  mvcgen [hreceive, setEvents, print]

theorem waitForWrite_untouched : Untouched waitForWrite := by
  intro b w
  unfold waitForWrite
  mvcgen [setEvents]

/-- The parts of the loop over `poll`. -/
def parts : loop.Parts where
  early ready calls := do poll ready; socketReadable calls
  stdinReady wait := wait.stdin.revents &&& pollIn ≠ 0
  stdinIdle := pure ()
  writable wait := wait.socket.revents &&& pollOut ≠ 0
  late := waitForWrite
  round_eq ready calls := by
    simp [loop, round, stdinReadable, socketWritable]
  start_fresh := start_fresh
  early_untouched := early_untouched
  stdinIdle_untouched b w := by mvcgen
  late_untouched := waitForWrite_untouched

theorem reports : parts.Reports where
  lawful := lawful
  late_run s := by
    cases hw : s.w with
    | nil => exact ⟨_, by simp [parts, waitForWrite, hw]; rfl⟩
    | cons b w => exact ⟨_, by simp [parts, waitForWrite, hw]; rfl⟩
  report := by
    refine ⟨(.ok (0, pollOut), quiet), fun s _ hdown => ?_⟩
    refine ⟨{ s with wait := ⟨{ s.wait.stdin with revents := 0 }, { s.wait.socket with revents := pollOut }⟩ }, ?_, ?_,
      hdown, rfl⟩
    · simp [Loop.Parts.upToSend, Loop.Parts.readStdin, parts, poll, socketReadable, pollIn, pollOut]
    · simp [parts, pollOut]

end Poll

namespace Select

theorem early_untouched (fd : Nat) (ready : Except Int (FdSet × FdSet)) (calls : Calls) :
    Untouched (do select ready; socketReadable fd calls; waitForRead fd) := by
  intro b w
  unfold select socketReadable waitForRead
  have hreceive := receive_untouched Sets calls.socket b w
  mvcgen [hreceive, setRead, print]

theorem waitForWrite_untouched (fd : Nat) : Untouched (waitForWrite fd) := by
  intro b w
  unfold waitForWrite
  mvcgen [setWrite]

/-- The parts of the loop over `select`. -/
def parts (fd : Nat) : (loop fd).Parts where
  early ready calls := do select ready; socketReadable fd calls; waitForRead fd
  stdinReady wait := wait.rSet stdinFileno
  stdinIdle := setRead stdinFileno true
  writable wait := wait.wSet fd
  late := waitForWrite fd
  round_eq ready calls := by
    simp [loop, round, stdinReadable, socketWritable]
  start_fresh := start_fresh fd
  early_untouched := early_untouched fd
  stdinIdle_untouched b w := by
    unfold setRead
    mvcgen
  late_untouched := waitForWrite_untouched fd

theorem early_quiet {fd : Nat} {s : State Sets} (hwait : s.wait.wSet fd = true) :
    ∃ s', ((parts fd).early (.ok (fun _ => false, fun _ => true)) quiet).run s = .ok () s' ∧
      s'.wait.wSet fd = true := by
  cases hstop : s.wait.readStop with
  | true =>
    refine ⟨{ s with wait := { s.wait with rSet := fun _ => false } }, ?_, hwait⟩
    simp [parts, select, socketReadable, waitForRead, hstop]
  | false =>
    refine ⟨{ s with wait := { s.wait with rSet := Function.update (fun _ => false) fd true } }, ?_, hwait⟩
    simp [parts, select, socketReadable, waitForRead, setRead, hstop]

theorem readStdin_quiet {fd : Nat} {s : State Sets} (hdown : s.writeShutdown = true) :
    ∃ s', ((parts fd).readStdin quiet).run s = .ok () s' ∧ s'.wait.wSet = s.wait.wSet ∧ s'.writeShutdown = true ∧
      s'.w = s.w := by
  cases hready : s.wait.rSet stdinFileno with
  | true =>
    -- It is ready when the socket is stdin.
    obtain ⟨s', htype, hwait, hdown', hw⟩ := typeIn_quiet hdown
    refine ⟨s', ?_, by rw [hwait], hdown', hw⟩
    rw [← htype]
    simp [Loop.Parts.readStdin, parts, hready]
  | false =>
    refine ⟨{ s with wait := { s.wait with rSet := Function.update s.wait.rSet stdinFileno true } }, ?_, rfl, hdown,
      rfl⟩
    simp [Loop.Parts.readStdin, parts, setRead, hready]

theorem reports (fd : Nat) : (parts fd).Reports where
  lawful := lawful fd
  late_run s := by
    cases hw : s.w with
    | nil => exact ⟨_, by simp [parts, waitForWrite, hw]; rfl⟩
    | cons b w => exact ⟨_, by simp [parts, waitForWrite, hw]; rfl⟩
  report := by
    refine ⟨(.ok (fun _ => false, fun _ => true), quiet), fun s hwait hdown => ?_⟩
    obtain ⟨s₁, hearly, hwait₁⟩ := early_quiet hwait
    obtain ⟨hdown₁, hw₁⟩ := ((parts fd).early_untouched _ _).of_ok hearly
    obtain ⟨s₂, hstdin, hwait₂, hdown₂, hw₂⟩ := readStdin_quiet (hdown₁.trans hdown)
    refine ⟨s₂, (bind_of_ok hearly).trans hstdin, ?_, hdown₂, hw₂.trans hw₁⟩
    exact (congrFun hwait₂ fd).trans hwait₁

end Select

/-! ### `Process` -/

/-- `write` is called after the shutdown because something was pending at it, and for no other reason. -/
structure Loop.Parts.WritesOnlyPending {loop : Loop ι ρ} (parts : loop.Parts) (config : Config) (setup : Setup) :
    Prop where
  never : ∀ rounds, parts.NeverShutsPending config setup rounds → parts.NeverWritesAfterShutdown config setup rounds
  pending : ∀ rounds x s, loop.run config setup rounds = .ok () s → parts.ShutsPending s x →
    ∃ more, ¬parts.NeverWritesAfterShutdown config setup (rounds ++ x :: more)

theorem Loop.Parts.Reports.writesOnlyPending {loop : Loop ι ρ} {parts : loop.Parts} (hreports : parts.Reports)
    (config : Config) (setup : Setup) : parts.WritesOnlyPending config setup where
  never _ hrounds := neverWrites_of_neverShutsPending parts hrounds
  pending _ _ _ hrun h := exists_writesAfterShutdown hreports hrun h

/-- A run of either variant whose commands find nothing pending never writes after the shutdown, and every command that
    finds something pending can be followed by rounds in which it is written. -/
theorem process_writesOnlyPending (fd : Nat) (config : Config) (setup : Setup) :
    Poll.parts.WritesOnlyPending config setup ∧ (Select.parts fd).WritesOnlyPending config setup :=
  ⟨Poll.reports.writesOnlyPending config setup, (Select.reports fd).writesOnlyPending config setup⟩

/-- `"shutdown write\n"` is typed, and `write` fails. -/
def typesShutdown : Calls where
  socket := ⟨[], .again⟩
  stdin := ⟨[⟨Command.shutdownWrite.text, []⟩], .again⟩
  -- `EPIPE`
  write := ⟨[], .error 32⟩

/-- The line has been written when the command is typed. -/
theorem process_writesOnlyPending_sent :
    Poll.parts.NeverWritesAfterShutdown ⟨true, true⟩ {}
      [(.ok (Poll.pollIn, Poll.pollOut), typesHi [3]), (.ok (Poll.pollIn, Poll.pollOut), typesShutdown)] := by
  refine (process_writesOnlyPending 3 ⟨true, true⟩ {}).1.never _ ?_
  rintro (- | ⟨y, - | ⟨z, pre⟩⟩) x post s heq hrun ⟨s', hearly, -, ⟨-, d, hread, hline⟩, hw⟩
  · cases heq
    cases hread
    exact absurd hline (by decide)
  · cases heq
    cases hrun
    exact hw ((Poll.early_untouched _ _).of_ok hearly).2
  · cases pre <;> cases heq

/-- The line is pending when the command is typed, and the socket is writable. -/
theorem not_neverWritesAfterShutdown_hi :
    ¬Poll.parts.NeverWritesAfterShutdown ⟨true, true⟩ {}
      [(.ok (Poll.pollIn, 0), typesHi []), (.ok (Poll.pollIn, Poll.pollOut), typesShutdown)] ∧
    ¬(Select.parts 3).NeverWritesAfterShutdown ⟨true, true⟩ {}
      [(.ok (fun fd => fd = 0, fun _ => false), typesHi []),
        (.ok (fun fd => fd = 0, fun fd => fd = 3), typesShutdown)] := by
  refine ⟨fun h => ?_, fun h => ?_⟩
  · refine h [(.ok (Poll.pollIn, 0), typesHi [])] (.ok (Poll.pollIn, Poll.pollOut), typesShutdown) [] _ rfl rfl ?_
    exact ⟨_, rfl, by decide, rfl, by decide⟩
  · refine h [(.ok (fun fd => fd = 0, fun _ => false), typesHi [])]
      (.ok (fun fd => fd = 0, fun fd => fd = 3), typesShutdown) [] _ rfl rfl ?_
    exact ⟨_, rfl, by decide, rfl, by decide⟩

end SocketTcp
