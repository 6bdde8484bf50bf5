import CppProgramming.SocketTcp.Drain

/-! # The loops of the TCP tool

`Process` copies what is typed to a socket and what arrives there to the screen. It is compiled in one of two variants:
`poll` keeps the events that are waited for apart from those that have happened, `select` puts the one in the place of
the other. What is typed but not yet accepted by the socket is kept in `w`.

The statements of a round are definitions of their own, named by their tests; what is done behind the tests is the same
in both variants, the changes of what is waited for apart. A call of `Process` gets the results of its system calls
round by round; when it ends, in a round or before, the state is the one at that moment. -/

namespace SocketTcp
open Drain (Chunk)
open EdgeTriggered (ReadStop WriteCalls WriteStop)

/-- The fields of `Config` that `Process` reads. -/
structure Config where
  read : Bool := false
  write : Bool := false
  deriving DecidableEq, Repr

/-- `SHUT_RD`, `SHUT_WR` and `SHUT_RDWR`. -/
inductive How where
  | read
  | write
  | both
  deriving DecidableEq, Repr

/-- What is printed. -/
inductive Output where
  | received (s : ByteString)
  | readStop
  | shut (how : How)
  | unwrittenLength (n : Nat)
  | writeIsShutdown
  deriving DecidableEq, Repr

/-- How `Process` ends. -/
inductive Ending where
  | exit
  | exception (code : Int)
  deriving DecidableEq, Repr

/-- A string that was read from stdin, and `writeShutdown` at that time. -/
structure Typed where
  line : ByteString
  writeShutdown : Bool
  deriving DecidableEq, Repr

/-- The variables of `Process`; `wait` is what the variant waits for. The last three fields are history, which the code
    does not read: the bytes that `write` has accepted on the socket, the strings read from stdin, and what has been
    printed. -/
structure State (ι : Type) where
  wait : ι
  writeShutdown : Bool := false
  w : ByteString := []
  accepted : ByteString := []
  typed : List Typed := []
  printed : List Output := []

/-- A function of the tool. -/
abbrev Exec (ι : Type) := EStateM Ending (State ι)

/-- The calls of `read` in one `Read`, up to the one that ends the loop. -/
structure ReadCalls where
  chunks : List Chunk
  stop : ReadStop

/-- The results of the system calls in one round. -/
structure Calls where
  socket : ReadCalls
  stdin : ReadCalls
  -- The error of `shutdown`.
  shutdown : Option Int := none
  write : WriteCalls

/-- The results of the system calls in front of the loop. -/
structure Setup where
  setNonBlocking : Option Int := none
  setStdinNonBlocking : Option Int := none
  shutdownRead : Option Int := none
  shutdownWrite : Option Int := none

section Functions
variable {ι : Type}

/-- An output of `std::cout`. -/
def print (o : Output) : Exec ι Unit := modify fun s => { s with printed := s.printed ++ [o] }

/-- A system call that may fail. -/
def check : Option Int → Exec ι Unit
  | none => pure ()
  | some code => throw (.exception code)

/-- `ShutdownRead`, `ShutdownWrite` and `ShutdownBoth`. -/
def shutdown (how : How) (result : Option Int) : Exec ι Unit := do
  print (.shut how)
  check result

/-- `Read(fd, readStop)`. -/
def readFd (calls : ReadCalls) : Exec ι (ByteString × Bool) :=
  match read calls.chunks calls.stop with
  | .ok d => pure (d.s, d.eof)
  | .error code => throw (.exception code)

/-- The loop of `Write`. -/
def writeLoop (stop : WriteStop) : List Nat → ByteString → Exec ι ByteString
  | _, [] => pure []
  | [], s =>
    match stop with
    | .again => pure s
    | .error code => throw (.exception code)
  | n :: room, s => do
    modify fun x => { x with accepted := x.accepted ++ s.take n }
    writeLoop stop room (s.drop n)

/-- `Write`. -/
def write (s : ByteString) (calls : WriteCalls) : Exec ι ByteString :=
  if s = [] then pure [] else writeLoop calls.stop calls.room s

/-- `r == "exit\n"` and the other comparisons. -/
inductive Command where
  | exit
  | shutdownRead
  | shutdownWrite
  | shutdownBoth
  | unwrittenLength
  deriving DecidableEq, Repr

/-- `"exit\n"`, `"shutdown read\n"`, `"shutdown write\n"`, `"shutdown both\n"` and `"unwritten length\n"`. -/
def Command.text : Command → ByteString
  | exit => [101, 120, 105, 116, 10]
  | shutdownRead => [115, 104, 117, 116, 100, 111, 119, 110, 32, 114, 101, 97, 100, 10]
  | shutdownWrite => [115, 104, 117, 116, 100, 111, 119, 110, 32, 119, 114, 105, 116, 101, 10]
  | shutdownBoth => [115, 104, 117, 116, 100, 111, 119, 110, 32, 98, 111, 116, 104, 10]
  | unwrittenLength =>
    [117, 110, 119, 114, 105, 116, 116, 101, 110, 32, 108, 101, 110, 103, 116, 104, 10]

/-- The socket is readable. -/
def receive (calls : ReadCalls) : Exec ι Bool := do
  let (s, readStop) ← readFd calls
  if s ≠ [] then print (.received s)
  return readStop

/-- Stdin is readable. -/
def typeIn (calls : ReadCalls) (result : Option Int) : Exec ι Unit := do
  let (r, _) ← readFd calls
  modify fun s => { s with typed := s.typed ++ [⟨r, s.writeShutdown⟩] }
  if r = Command.exit.text then throw .exit
  else if r = Command.shutdownRead.text then shutdown .read result
  else if r = Command.shutdownWrite.text then
    shutdown .write result
    modify fun s => { s with writeShutdown := true }
  else if r = Command.shutdownBoth.text then
    shutdown .both result
    modify fun s => { s with writeShutdown := true }
  else if r = Command.unwrittenLength.text then print (.unwrittenLength (← get).w.length)
  else if (← get).writeShutdown then print .writeIsShutdown
  else modify fun s => { s with w := s.w ++ r }

/-- The socket is writable. -/
def send (calls : WriteCalls) : Exec ι Unit := do
  let w ← write (← get).w calls
  modify fun s => { s with w := w }

end Functions

/-- One variant of `Process`: what it waits for at first, the statements in front of the loop, the body of the loop, and
    whether the socket is waited for to be writable. `ρ` is what the call that waits returns. -/
structure Loop (ι ρ : Type) where
  wait : ι
  start : Config → Setup → Exec ι Unit
  round : Except Int ρ → Calls → Exec ι Unit
  writeInterest : ι → Bool

/-- `Process`, for as many rounds as there are results. -/
def Loop.process {ι ρ : Type} (loop : Loop ι ρ) (config : Config) (setup : Setup) (rounds : List (Except Int ρ × Calls)) :
    Exec ι Unit := do
  loop.start config setup
  forM rounds fun x => loop.round x.1 x.2

/-- A call of `Process`. -/
def Loop.run {ι ρ : Type} (loop : Loop ι ρ) (config : Config) (setup : Setup) (rounds : List (Except Int ρ × Calls)) :
    EStateM.Result Ending (State ι) Unit :=
  (loop.process config setup rounds).run { wait := loop.wait }

/-- The state in which a call has ended, or is after its rounds. -/
def lastState {ι : Type} : EStateM.Result Ending (State ι) Unit → State ι
  | .ok _ s => s
  | .error _ s => s

/-! ### `poll` -/

namespace Poll

/-- `pollfd`. -/
structure PollFd where
  events : BitVec 16 := 0
  revents : BitVec 16 := 0
  deriving DecidableEq, Repr

/-- `fds[0]` and `fds[1]`; nothing is waited for in `fds[2]`. -/
structure Fds where
  stdin : PollFd := {}
  socket : PollFd := {}
  deriving DecidableEq, Repr

/-- `POLLIN`. -/
def pollIn : BitVec 16 := 0x001

/-- `POLLOUT`. -/
def pollOut : BitVec 16 := 0x004

/-- `fds[1].events` is assigned. -/
def setEvents (f : BitVec 16 → BitVec 16) : Exec Fds Unit :=
  modify fun s => { s with wait := { s.wait with socket := { s.wait.socket with events := f s.wait.socket.events } } }

/-- `Poll`, which stores `fds[0].revents` and `fds[1].revents`. -/
def poll : Except Int (BitVec 16 × BitVec 16) → Exec Fds Unit
  | .error code => throw (.exception code)
  | .ok (stdin, socket) =>
    modify fun s => { s with
      wait := { stdin := { s.wait.stdin with revents := stdin }, socket := { s.wait.socket with revents := socket } } }

/-- `if (!config.read)`. -/
def startReading (config : Config) (setup : Setup) : Exec Fds Unit := do
  if !config.read then
    shutdown .read setup.shutdownRead
    setEvents fun events => events &&& ~~~pollIn

/-- `if (!config.write)`. -/
def startWriting (config : Config) (setup : Setup) : Exec Fds Unit := do
  if !config.write then
    shutdown .write setup.shutdownWrite
    setEvents fun events => events &&& ~~~pollOut
    modify fun s => { s with writeShutdown := true }

/-- `Process` with `poll`, up to its loop. -/
def start (config : Config) (setup : Setup) : Exec Fds Unit := do
  check setup.setNonBlocking
  check setup.setStdinNonBlocking
  modify fun s => { s with wait := { stdin := { events := pollIn }, socket := { events := pollIn ||| pollOut } } }
  startReading config setup
  startWriting config setup

/-- `if (fds[1].revents & POLLIN)`. -/
def socketReadable (calls : Calls) : Exec Fds Unit := do
  if (← get).wait.socket.revents &&& pollIn ≠ 0 then
    if ← receive calls.socket then
      setEvents fun events => events &&& ~~~pollIn
      print .readStop

/-- `if (fds[0].revents & POLLIN)`. -/
def stdinReadable (calls : Calls) : Exec Fds Unit := do
  if (← get).wait.stdin.revents &&& pollIn ≠ 0 then typeIn calls.stdin calls.shutdown

/-- `if (fds[1].revents & POLLOUT)`. -/
def socketWritable (calls : Calls) : Exec Fds Unit := do
  if (← get).wait.socket.revents &&& pollOut ≠ 0 then send calls.write

/-- `if (!w.empty())`. -/
def waitForWrite : Exec Fds Unit := do
  if (← get).w ≠ [] then setEvents fun events => events ||| pollOut
  else setEvents fun events => events &&& ~~~pollOut

/-- The body of the loop with `poll`. -/
def round (revents : Except Int (BitVec 16 × BitVec 16)) (calls : Calls) : Exec Fds Unit := do
  poll revents
  socketReadable calls
  stdinReadable calls
  socketWritable calls
  waitForWrite

/-- `Process` with `USE_POLL`. -/
def loop : Loop Fds (BitVec 16 × BitVec 16) where
  wait := {}
  start := start
  round := round
  writeInterest wait := wait.socket.events &&& pollOut ≠ 0

end Poll

/-! ### `select` -/

namespace Select

/-- `fd_set`. -/
abbrev FdSet := Nat → Bool

/-- `rSet`, `wSet` and `readStop`. -/
structure Sets where
  rSet : FdSet := fun _ => false
  wSet : FdSet := fun _ => false
  readStop : Bool := false

/-- `STDIN_FILENO`. -/
def stdinFileno : Nat := 0

/-- `FD_SET` and `FD_CLR` on `rSet`. -/
def setRead (fd : Nat) (b : Bool) : Exec Sets Unit :=
  modify fun s => { s with wait := { s.wait with rSet := Function.update s.wait.rSet fd b } }

/-- `FD_SET` and `FD_CLR` on `wSet`. -/
def setWrite (fd : Nat) (b : Bool) : Exec Sets Unit :=
  modify fun s => { s with wait := { s.wait with wSet := Function.update s.wait.wSet fd b } }

/-- `Select`, which leaves the descriptors in the sets that are ready. -/
def select : Except Int (FdSet × FdSet) → Exec Sets Unit
  | .error code => throw (.exception code)
  | .ok (readable, writable) =>
    modify fun s => { s with
      wait := { s.wait with
        rSet := fun fd => s.wait.rSet fd && readable fd
        wSet := fun fd => s.wait.wSet fd && writable fd } }

/-- `if (!config.read)`, which takes stdin out of `rSet`. -/
def startReading (config : Config) (setup : Setup) : Exec Sets Unit := do
  if !config.read then
    shutdown .read setup.shutdownRead
    setRead stdinFileno false

/-- `if (!config.write)`. -/
def startWriting (config : Config) (setup : Setup) : Exec Sets Unit := do
  if !config.write then
    shutdown .write setup.shutdownWrite
    modify fun s => { s with writeShutdown := true }

/-- `Process` with `select`, up to its loop. -/
def start (fd : Nat) (config : Config) (setup : Setup) : Exec Sets Unit := do
  check setup.setNonBlocking
  check setup.setStdinNonBlocking
  setRead stdinFileno true
  setRead fd true
  startReading config setup
  startWriting config setup

/-- `if (FD_ISSET(fd, &rSet))`. -/
def socketReadable (fd : Nat) (calls : Calls) : Exec Sets Unit := do
  if (← get).wait.rSet fd then
    let readStop ← receive calls.socket
    modify fun s => { s with wait := { s.wait with readStop := readStop } }
    if readStop then
      setRead fd false
      print .readStop

/-- `if (!readStop)`. -/
def waitForRead (fd : Nat) : Exec Sets Unit := do
  if !(← get).wait.readStop then setRead fd true

/-- `if (FD_ISSET(STDIN_FILENO, &rSet))`. -/
def stdinReadable (calls : Calls) : Exec Sets Unit := do
  if (← get).wait.rSet stdinFileno then typeIn calls.stdin calls.shutdown
  else setRead stdinFileno true

/-- `if (FD_ISSET(fd, &wSet))`. -/
def socketWritable (fd : Nat) (calls : Calls) : Exec Sets Unit := do
  if (← get).wait.wSet fd then send calls.write

/-- `if (!w.empty())`. -/
def waitForWrite (fd : Nat) : Exec Sets Unit := do
  if (← get).w ≠ [] then setWrite fd true
  else setWrite fd false

/-- The body of the loop with `select`. -/
def round (fd : Nat) (ready : Except Int (FdSet × FdSet)) (calls : Calls) : Exec Sets Unit := do
  select ready
  socketReadable fd calls
  waitForRead fd
  stdinReadable calls
  socketWritable fd calls
  waitForWrite fd

/-- `Process` without `USE_POLL`. -/
def loop (fd : Nat) : Loop Sets (FdSet × FdSet) where
  wait := {}
  start := start fd
  round := round fd
  writeInterest wait := wait.wSet fd

end Select
end SocketTcp
