import CppProgramming.Lib.ByteString

/-! # The edge-triggered session server

`Server` maps the descriptors of its connections to ids and `SessionManager` maps the ids to sessions; a `Session`
collects what its `ConnHandler` reads, turns the sentences around and hands them back. The session objects live
behind `shared_ptr`s: they are kept in the order of their creation, and the tables hold their positions. What a
system call returns is an argument of the call that makes it. An exception keeps the state it leaves behind. What
is only printed (the peer's address and port) is left out. -/

namespace EdgeTriggered

/-- A file descriptor. -/
abbrev Fd := Int

/-- `uint64_t`, the ids of connections and sessions. -/
abbrev ConnId := UInt64

/-- A `std::shared_ptr<Session>`: the position of the object among all that were made. -/
abbrev SessionPtr := Nat

/-- `'.'`, `'['` and `']'`. -/
def dot : UInt8 := 46
/-- `'['`. -/
def bracketOpen : UInt8 := 91
/-- `']'`. -/
def bracketClose : UInt8 := 93

/-- `EPOLLIN`, `EPOLLOUT` and `EPOLLERR` of Linux. -/
def epollIn : UInt32 := 0x001
/-- `EPOLLOUT`. -/
def epollOut : UInt32 := 0x004
/-- `EPOLLERR`. -/
def epollErr : UInt32 := 0x008

/-- The exceptions, all of them `std::runtime_error`, with the `errno` of the call that failed. -/
inductive Error where
  -- `"Server::Accept() failed"`.
  | accept (code : Int)
  -- `"Server::Accept() failed, inet_ntop"`.
  | inetNtop (code : Int)
  -- `"Epoll.Add() failed"`.
  | addFd (code : Int)
  -- `"ConnHandler::Read(), read"`.
  | read (code : Int)
  -- `"Write() failed"`.
  | write (code : Int)
  -- `"Epoll.DeleteFd() failed"`.
  | deleteFd
  -- `"Server::CloseFd() failed"`.
  | closeFd
  -- `"Server::ProcessNewConnection(), fd exist"`.
  | fdExist
  -- `"Server::ProcessEvent(), fd not exist"`.
  | fdNotExist
  -- `"Session::Close(), session is closed"`.
  | sessionClosed
  -- `"SessionManager::VerifySessionExist()"`.
  | verifySessionExist
  -- `"SessionManager::VerifySessionNotExist()"`.
  | verifySessionNotExist
  deriving DecidableEq, Repr

/-! ### System calls -/

/-- The call of `read` that ends the loop of `ConnHandler::Read`. -/
inductive ReadStop where
  | eof
  | again
  | error (code : Int)
  deriving DecidableEq, Repr

/-- The calls of `read` in one `ConnHandler::Read`: what `s += &buf[0]` appends after each, up to the one that ends
    the loop. -/
structure ReadCalls where
  chunks : List ByteString
  stop : ReadStop
  deriving DecidableEq, Repr

/-- The call of `write` that fails. -/
inductive WriteStop where
  | again
  | error (code : Int)
  deriving DecidableEq, Repr

/-- The calls of `write` in one `ConnHandler::Write`: how many bytes there is room for in each, up to the one that
    fails. -/
structure WriteCalls where
  room : List Nat
  stop : WriteStop
  deriving DecidableEq, Repr

/-- The system call that fails in `ProcessNewConnection`: `accept`, or one for the descriptor that it returned. -/
inductive AcceptFailure where
  | accept (code : Int)
  | inetNtop (fd : Fd) (code : Int)
  | epollAdd (fd : Fd) (code : Int)
  deriving DecidableEq, Repr

/-! ### State -/

/-- `ConnHandler`. -/
structure ConnHandler where
  fd : Fd
  isEof : Bool := false
  deriving DecidableEq, Repr

/-- History of a connection, which the code does not read: the strings that `ConnHandler::Read` returned, the bytes
    that `write` accepted, and whether `EPOLLOUT` has been reported and no `write` since returned `EAGAIN`. -/
structure Wire where
  received : ByteString := []
  accepted : ByteString := []
  isReady : Bool := false
  deriving DecidableEq, Repr

/-- `Session`. -/
structure Session where
  id : ConnId
  input : ByteString := []
  output : ByteString := []
  isReadable : Bool := false
  isWritable : Bool := false
  isClosed : Bool := false
  connHandler : ConnHandler
  wire : Wire := {}
  deriving DecidableEq, Repr

/-- The members of `Server` and `SessionManager`, the session objects, and the kernel's table of open descriptors
    with the epoll set. -/
structure World where
  nextConnId : ConnId := 0
  conns : Std.TreeMap Fd ConnId := ∅
  sessions : Std.TreeMap ConnId SessionPtr := ∅
  objects : List Session := []
  isOpen : Fd → Bool
  registered : Fd → Bool

/-- Code that may throw. -/
abbrev Exec := EStateM Error World

/-- `*this` of the session at `p`. -/
def Session.this (p : SessionPtr) : Exec Session :=
  return (← get).objects.getD p { id := 0, connHandler := { fd := -1 } }

/-- Sets members of the session at `p`. -/
def Session.assign (p : SessionPtr) (f : Session → Session) : Exec Unit :=
  modify fun w => { w with objects := w.objects.modify p f }

/-! ### ConnHandler -/

/-- The loop of `ConnHandler::Read`: the string and `isEof`. -/
def ConnHandler.readLoop (stop : ReadStop) (isEof : Bool) (s : ByteString) :
    List ByteString → Except Error (ByteString × Bool)
  | [] =>
    match stop with
    | .eof => .ok (s, true)
    | .again => .ok (s, isEof)
    | .error code => .error (.read code)
  | chunk :: chunks => readLoop stop isEof (s ++ chunk) chunks

/-- The loop of `ConnHandler::Write`: the history of the connection and what is left of `s`. -/
def ConnHandler.writeLoop (stop : WriteStop) : List Nat → ByteString → Wire → Wire × Except Error ByteString
  | _, [], wire => (wire, .ok [])
  | [], s, wire =>
    match stop with
    | .again => ({ wire with isReady := false }, .ok s)
    | .error code => (wire, .error (.write code))
  | n :: room, s, wire => writeLoop stop room (s.drop n) { wire with accepted := wire.accepted ++ s.take n }

/-- `ConnHandler::Read()` of the session at `p`. -/
def ConnHandler.read (p : SessionPtr) (calls : ReadCalls) : Exec ByteString := do
  match readLoop calls.stop (← Session.this p).connHandler.isEof [] calls.chunks with
  | .error e => throw e
  | .ok (s, isEof) =>
    Session.assign p fun session =>
      { session with
        connHandler := { session.connHandler with isEof := isEof }
        wire := { session.wire with received := session.wire.received ++ s } }
    return s

/-- `ConnHandler::Write(s)` of the session at `p`. -/
def ConnHandler.write (p : SessionPtr) (s : ByteString) (calls : WriteCalls) : Exec ByteString := do
  let (wire, result) := writeLoop calls.stop calls.room s (← Session.this p).wire
  Session.assign p fun session => { session with wire := wire }
  match result with
  | .error e => throw e
  | .ok s => return s

/-! ### Closing -/

/-- `Epoll::DeleteFd`. -/
def Epoll.deleteFd (fd : Fd) : Exec Unit := do
  if !(← get).registered fd then throw .deleteFd
  modify fun w => { w with registered := Function.update w.registered fd false }

/-- `Server::CloseFd`. -/
def Server.closeFd (fd : Fd) : Exec Unit := do
  if !(← get).isOpen fd then throw .closeFd
  modify fun w => { w with isOpen := Function.update w.isOpen fd false }

/-- The callback that `Server::ProcessNewConnection` gives to a `ConnHandler`. -/
def Server.closeConn (fdv : Fd) : Exec Unit := do
  Epoll.deleteFd fdv
  closeFd fdv
  modify fun w => { w with conns := w.conns.erase fdv }

namespace SessionManager

/-- `VerifySessionExist`. -/
def verifySessionExist (id : ConnId) : Exec Unit := do
  if !(← get).sessions.contains id then throw .verifySessionExist

/-- `VerifySessionNotExist`. -/
def verifySessionNotExist (id : ConnId) : Exec Unit := do
  if (← get).sessions.contains id then throw .verifySessionNotExist

/-- `ReleaseSession`. -/
def releaseSession (id : ConnId) : Exec Unit := do
  verifySessionExist id
  modify fun w => { w with sessions := w.sessions.erase id }

end SessionManager

namespace Session

/-- `Session::Close`. -/
def close (p : SessionPtr) : Exec Unit := do
  if (← this p).isClosed then throw .sessionClosed
  Server.closeConn (← this p).connHandler.fd
  SessionManager.releaseSession (← this p).id
  assign p fun session => { session with isClosed := true }

/-! ### Reading and writing -/

/-- `SetReadable`. -/
def setReadable (p : SessionPtr) : Exec Unit :=
  assign p fun session => { session with isReadable := true }

/-- `SetWritable`. -/
def setWritable (p : SessionPtr) : Exec Unit :=
  assign p fun session => { session with isWritable := true }

/-- The loop of `Session::Read` over `input` and `output`. -/
def sentenceLoop (input output : ByteString) : ByteString × ByteString :=
  match _h : input.idxOf? dot with
  | some pos =>
    let tmp := input.take pos
    sentenceLoop (input.drop (pos + 1)) (output ++ ([bracketOpen] ++ tmp.reverse ++ [bracketClose]))
  | none => (input, output)
termination_by input.length
decreasing_by
  obtain ⟨hlt, -⟩ := List.idxOf?_eq_some_iff.mp _h
  rw [List.length_drop]
  omega

/-- `Session::Write`. -/
def write (p : SessionPtr) (calls : WriteCalls) : Exec Unit := do
  if !(← this p).isWritable then return
  let output ← ConnHandler.write p (← this p).output calls
  assign p fun session => { session with output := output }
  assign p fun session => { session with isWritable := false }
  if (← this p).connHandler.isEof && (← this p).output.isEmpty then close p

/-- `Session::Read`. -/
def read (p : SessionPtr) (calls : ReadCalls) (writeCalls : WriteCalls) : Exec Unit := do
  if !(← this p).isReadable then return
  let s ← ConnHandler.read p calls
  assign p fun session => { session with input := session.input ++ s }
  assign p fun session =>
    let (input, output) := sentenceLoop session.input session.output
    { session with input := input, output := output }
  assign p fun session => { session with isReadable := false }
  write p writeCalls

end Session

/-! ### SessionManager -/

namespace SessionManager

/-- `sessions[id]` of an id that is there. -/
def sessionAt (id : ConnId) : Exec SessionPtr :=
  return (← get).sessions.getD id 0

/-- `SessionManager::NewConnection`. -/
def newConnection (id : ConnId) (connHandler : ConnHandler) : Exec Unit := do
  verifySessionNotExist id
  modify fun w =>
    { w with
      sessions := w.sessions.insert id w.objects.length
      objects := w.objects ++ [{ id := id, connHandler := connHandler }] }

/-- `SessionManager::CanRead`. -/
def canRead (id : ConnId) (calls : ReadCalls) (writeCalls : WriteCalls) : Exec Unit := do
  verifySessionExist id
  let session ← sessionAt id
  Session.setReadable session
  Session.read session calls writeCalls

/-- `SessionManager::CanWrite`. -/
def canWrite (id : ConnId) (calls : WriteCalls) : Exec Unit := do
  verifySessionExist id
  let session ← sessionAt id
  -- `EPOLLOUT` has been reported.
  Session.assign session fun session => { session with wire := { session.wire with isReady := true } }
  Session.setWritable session
  Session.write session calls

/-- `SessionManager::ErrorOccurred`. -/
def errorOccurred (id : ConnId) : Exec Unit := do
  verifySessionExist id
  Session.close (← sessionAt id)

/-- `SessionManager::TimeToExit`. -/
def timeToExit (id : ConnId) : Exec Unit := do
  verifySessionExist id
  Session.close (← sessionAt id)

end SessionManager

/-! ### Server -/

/-- The system calls of one `ProcessEvent`: those of `CanRead`, with what its own `Write` would call, and those of
    `CanWrite`. -/
structure EventCalls where
  read : ReadCalls
  readWrite : WriteCalls
  write : WriteCalls
  deriving DecidableEq, Repr

namespace Server

/-- `Accept`. -/
def accept : Except AcceptFailure Fd → Exec Fd
  | .error (.accept code) => throw (.accept code)
  | .error (.inetNtop fd code) => do
    modify fun w => { w with isOpen := Function.update w.isOpen fd true }
    throw (.inetNtop code)
  | .error (.epollAdd fd _) | .ok fd => do
    modify fun w => { w with isOpen := Function.update w.isOpen fd true }
    return fd

/-- `ep.Add(fd, EPOLLIN | EPOLLOUT | EPOLLET)`. -/
def add (fd : Fd) : Except AcceptFailure Fd → Exec Unit
  | .error (.epollAdd _ code) => throw (.addFd code)
  | _ => modify fun w => { w with registered := Function.update w.registered fd true }

/-- `ProcessNewConnection`. -/
def processNewConnection (calls : Except AcceptFailure Fd) : Exec Unit := do
  let fd ← accept calls
  if (← get).conns.contains fd then throw .fdExist
  modify fun w => { w with nextConnId := w.nextConnId + 1 }
  add fd calls
  SessionManager.newConnection (← get).nextConnId { fd := fd }
  modify fun w => { w with conns := w.conns.insert fd w.nextConnId }

/-- `conns[fd]`, which adds a missing entry. -/
def connAt (fd : Fd) : Exec ConnId := do
  if !(← get).conns.contains fd then modify fun w => { w with conns := w.conns.insert fd 0 }
  return (← get).conns.getD fd 0

/-- `ProcessEvent`. -/
def processEvent (fd : Fd) (eventMask : UInt32) (calls : EventCalls) : Exec Unit := do
  if !(← get).conns.contains fd then throw .fdNotExist
  if eventMask &&& epollIn ≠ 0 then SessionManager.canRead (← connAt fd) calls.read calls.readWrite
  if eventMask &&& epollOut ≠ 0 then SessionManager.canWrite (← connAt fd) calls.write
  if eventMask &&& epollErr ≠ 0 then SessionManager.errorOccurred (← connAt fd)

end Server

end EdgeTriggered
