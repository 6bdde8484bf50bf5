import CppProgramming.SimpleHttp.Connection

/-! # The event loop and the table of its sockets

`Server::Start` waits for events and hands them on one after the other, and the workers of the connections run
the close callback. The two meet in the open descriptors, in the epoll set and in the `SocketMap`, each of which
is used in a step of its own. The descriptors that the process has open besides the listening socket are left
out: `accept` does not return them. -/

namespace SimpleHttp.Server
open Interleaving

/-- A file descriptor. -/
abbrev Fd := Nat

/-- `SocketMap::sockets`. -/
abbrev SocketMap := Std.TreeMap Fd ConnId

/-- `EPOLLIN`, `EPOLLOUT` and `EPOLLERR` of Linux. -/
def epollIn : UInt32 := 0x001
/-- `EPOLLOUT`. -/
def epollOut : UInt32 := 0x004
/-- `EPOLLERR`. -/
def epollErr : UInt32 := 0x008

/-- `epoll_event`. -/
structure Event where
  fd : Fd
  events : UInt32

/-- The reports that `ProcessEvent` makes for a mask, in order. -/
def reports (eventMask : UInt32) : List Report :=
  (if eventMask &&& epollIn ≠ 0 then [Report.canRead] else []) ++
  (if eventMask &&& epollOut ≠ 0 then [Report.canWrite] else []) ++
  (if eventMask &&& epollErr ≠ 0 then [Report.errorOccurred] else [])

/-- What the threads share. `handlers` are the sockets whose `SocketHandler` has been given away. An exception
    that leaves a worker ends the process (`terminated`). `accepted` is history, which no step reads: what
    `accept()` returned, in order. -/
structure Shared where
  isOpen : Fd → Bool
  registered : Fd → Bool
  socketMap : SocketMap := ∅
  nextConnId : ConnId := 0
  handlers : List Fd := []
  terminated : Bool := false
  accepted : List Fd := []

/-- What a step does to the shared state. -/
inductive Act where
  | look
  | accept (fd : Fd)
  | epAdd (fd : Fd)
  | nextConnId
  | mapAdd (fd : Fd) (id : ConnId)
  | newConnection (fd : Fd) (id : ConnId)
  -- `SocketMap::GetValue`, which adds a missing entry.
  | getValue (fd : Fd)
  -- `reportCanRead`, `reportCanWrite`, `reportErrorOccurred` or `reportTimeToExit`.
  | report (r : Report) (id : ConnId)
  | epDelete (fd : Fd)
  | closeFd (fd : Fd)
  | mapDelete (fd : Fd)
  -- An exception leaves a worker.
  | terminate

/-- The effect of a step. A descriptor that is closed leaves the epoll set as well. -/
def Act.apply (a : Act) (s : Shared) : Shared :=
  match a with
  | .look | .report _ _ => s
  | .accept fd => { s with isOpen := Function.update s.isOpen fd true, accepted := s.accepted ++ [fd] }
  | .epAdd fd => { s with registered := Function.update s.registered fd true }
  | .nextConnId => { s with nextConnId := s.nextConnId + 1 }
  | .mapAdd fd id => { s with socketMap := s.socketMap.insert fd id }
  | .newConnection fd _ => { s with handlers := fd :: s.handlers }
  | .getValue fd => { s with socketMap := s.socketMap.insertIfNew fd 0 }
  | .epDelete fd => { s with registered := Function.update s.registered fd false }
  | .closeFd fd =>
    { s with
      isOpen := Function.update s.isOpen fd false
      registered := Function.update s.registered fd false }
  | .mapDelete fd => { s with socketMap := s.socketMap.erase fd }
  | .terminate => { s with terminated := true }

/-! ### Program points -/

/-- What a step gets from outside. -/
inductive Choice where
  | go
  | fail
  -- `epoll_wait` returns these events; none after a timeout or an interrupt.
  | events (es : List Event)
  | accepted (fd : Fd)
  | exit
  -- `SocketHandler::Close` is called for the socket `fd`.
  | close (fd : Fd)

/-- The exceptions that end `Server::Start`. -/
inductive Error where
  | epollWait
  | accept
  | epollCtl
  | close
  -- `ProcessNewConnection`: "fd exist".
  | fdExist (fd : Fd)
  -- `ProcessEvent`: "fd not exist".
  | fdNotExist (fd : Fd)
  deriving DecidableEq

/-- The event loop. `es` are the events that `ProcessEvents` has not begun with yet. -/
inductive LoopPc where
  | wait
  | events (es : List Event)
  | accept (es : List Event)
  | checkNew (fd : Fd) (es : List Event)
  | epAdd (fd : Fd) (es : List Event)
  | nextConnId (fd : Fd) (es : List Event)
  | mapAdd (fd : Fd) (es : List Event)
  | newConnection (fd : Fd) (es : List Event)
  | checkEvent (fd : Fd) (eventMask : UInt32) (es : List Event)
  | getValue (fd : Fd) (rs : List Report) (es : List Event)
  | report (r : Report) (id : ConnId) (fd : Fd) (rs : List Report) (es : List Event)
  | exitTest
  | getValues
  | timeToExit (ids : List ConnId)
  | epDelete
  | closeFd
  | finished
  | raised (e : Error)

/-- The close callback of a connection's socket. -/
inductive ClosePc where
  | idle
  | epDelete (fd : Fd)
  | closeFd (fd : Fd)
  | mapDelete (fd : Fd)

/-- The event loop, and a thread that closes a connection. -/
inductive Thread where
  | loop (p : LoopPc)
  | worker (p : ClosePc)

/-! ### Steps -/

/-- `ProcessNewConnection`. `accept()` on the listening socket returns a descriptor that is not open. -/
def processNewConnection (listenFd : Fd) (s : Shared) (o : Choice) : LoopPc → Option (Act × LoopPc)
  | .accept es =>
    match o with
    | .accepted fd => if s.isOpen listenFd ∧ s.isOpen fd = false then some (.accept fd, .checkNew fd es) else none
    | .fail => some (.look, .raised .accept)
    | _ => none
  | .checkNew fd es =>
    if s.socketMap.contains fd then some (.look, .raised (.fdExist fd)) else some (.look, .epAdd fd es)
  | .epAdd fd es =>
    match o with
    | .go => if s.registered fd then none else some (.epAdd fd, .nextConnId fd es)
    | .fail => some (.look, .raised .epollCtl)
    | _ => none
  | .nextConnId fd es => some (.nextConnId, .mapAdd fd es)
  | .mapAdd fd es => some (.mapAdd fd s.nextConnId, .newConnection fd es)
  | .newConnection fd es => some (.newConnection fd s.nextConnId, .events es)
  | _ => none

/-- `ProcessEvent`: `CheckSocketExist`, then `GetValue` and the report for each flag of the mask. -/
def processEvent (s : Shared) : LoopPc → Option (Act × LoopPc)
  | .checkEvent fd eventMask es =>
    if s.socketMap.contains fd then some (.look, .getValue fd (reports eventMask) es)
    else some (.look, .raised (.fdNotExist fd))
  | .getValue _ [] es => some (.look, .events es)
  | .getValue fd (r :: rs) es => some (.getValue fd, .report r (s.socketMap.getD fd 0) fd rs es)
  | .report r id fd rs es => some (.report r id, .getValue fd rs es)
  | _ => none

/-- `Release`. -/
def release (listenFd : Fd) (s : Shared) (o : Choice) : LoopPc → Option (Act × LoopPc)
  | .getValues => some (.look, .timeToExit s.socketMap.values)
  | .timeToExit [] => some (.look, .epDelete)
  | .timeToExit (id :: ids) => some (.report .timeToExit id, .timeToExit ids)
  | .epDelete =>
    match o with
    | .go => if s.registered listenFd then some (.epDelete listenFd, .closeFd) else none
    | .fail => some (.look, .raised .epollCtl)
    | _ => none
  | .closeFd =>
    match o with
    | .go => if s.isOpen listenFd then some (.closeFd listenFd, .finished) else none
    | .fail => some (.look, .raised .close)
    | _ => none
  | _ => none

/-- `Start` behind `ep->Add(listenFd, EPOLLIN)`, with the loop of `ProcessEvents`. `epoll_wait` reports at most
    `eventCount` events, of descriptors that are in the epoll set. -/
def LoopPc.step (listenFd : Fd) (eventCount : Nat) (s : Shared) (o : Choice) : LoopPc → Option (Act × LoopPc)
  | .wait =>
    match o with
    | .events es =>
      if es.length ≤ eventCount ∧ es.all (fun e => s.registered e.fd) then some (.look, .events es) else none
    | .fail => some (.look, .raised .epollWait)
    | _ => none
  | .events [] => some (.look, .exitTest)
  | .events (e :: es) =>
    if e.fd = listenFd then some (.look, .accept es) else some (.look, .checkEvent e.fd e.events es)
  | .exitTest =>
    match o with
    | .go => some (.look, .wait)
    | .exit => some (.look, .getValues)
    | _ => none
  | .finished | .raised _ => none
  | .accept es => processNewConnection listenFd s o (.accept es)
  | .checkNew fd es => processNewConnection listenFd s o (.checkNew fd es)
  | .epAdd fd es => processNewConnection listenFd s o (.epAdd fd es)
  | .nextConnId fd es => processNewConnection listenFd s o (.nextConnId fd es)
  | .mapAdd fd es => processNewConnection listenFd s o (.mapAdd fd es)
  | .newConnection fd es => processNewConnection listenFd s o (.newConnection fd es)
  | .checkEvent fd eventMask es => processEvent s (.checkEvent fd eventMask es)
  | .getValue fd rs es => processEvent s (.getValue fd rs es)
  | .report r id fd rs es => processEvent s (.report r id fd rs es)
  | .getValues => release listenFd s o .getValues
  | .timeToExit ids => release listenFd s o (.timeToExit ids)
  | .epDelete => release listenFd s o .epDelete
  | .closeFd => release listenFd s o .closeFd

/-- The close callback, which a worker may call for any socket that it was given, at any time and as often as it
    likes. `epoll_ctl` and `close` fail for a descriptor that is not there, and `SocketMap::Delete` throws. -/
def ClosePc.step (s : Shared) (o : Choice) : ClosePc → Option (Act × ClosePc)
  | .idle =>
    match o with
    | .close fd => if fd ∈ s.handlers then some (.look, .epDelete fd) else none
    | _ => none
  | .epDelete fd =>
    match o with
    | .go => if s.registered fd then some (.epDelete fd, .closeFd fd) else none
    | .fail => some (.terminate, .epDelete fd)
    | _ => none
  | .closeFd fd =>
    match o with
    | .go => if s.isOpen fd then some (.closeFd fd, .mapDelete fd) else none
    | .fail => some (.terminate, .closeFd fd)
    | _ => none
  | .mapDelete fd =>
    if s.socketMap.contains fd then some (.mapDelete fd, .idle) else some (.terminate, .mapDelete fd)

/-- A step of a thread. -/
def Thread.step (listenFd : Fd) (eventCount : Nat) (s : Shared) (t : Thread) (o : Choice) : Option (Act × Thread) :=
  match t with
  | .loop p => (p.step listenFd eventCount s o).map fun r => (r.1, .loop r.2)
  | .worker p => (p.step s o).map fun r => (r.1, .worker r.2)

/-- `Server` with the workers of its connections. No thread is started later. -/
def server (listenFd : Fd) (eventCount : Nat) : Machine Shared Thread Choice Act Empty where
  step := Thread.step listenFd eventCount
  apply := Act.apply
  enter := fun _ => none
  halted := Shared.terminated

/-- The state of the server. -/
abbrev State := Config Shared Thread

/-- `Start` has opened the listening socket and added it to the epoll set. -/
def start (listenFd : Fd) (workers : Nat) : State where
  shared :=
    { isOpen := Function.update (fun _ => false) listenFd true
      registered := Function.update (fun _ => false) listenFd true }
  threads := .loop .wait :: List.replicate workers (.worker .idle)

/-- The states that the server reaches. -/
def Reachable (listenFd : Fd) (eventCount workers : Nat) (s : State) : Prop :=
  Reach (server listenFd eventCount) Rule.any (start listenFd workers) s

end SimpleHttp.Server
