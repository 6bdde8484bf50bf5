import CppProgramming.Lib.Interleaving
import CppProgramming.SimpleHttp.RequestHandler

/-! # Connections and their manager

`ConnectionManager` keeps the connections of a server, a queue of connections to be read and one of
connections to be written, and runs `ProcessRead` and `ProcessWrite` workers over them, while the event
thread reports events. Reading and writing are built alike, so a `Side` stands for one of the two.

A thread is its call stack, the innermost function first. A step is one access of an atomic, one
mutex-protected section, one system call or one access of a field of the handler; `NeedInQueueRead` and its
like take several steps while they hold their mutex, because what they read there is changed without it. -/

namespace SimpleHttp
open Interleaving

/-- A connection id. `Server` gives each connection the next number of a 64-bit counter, so an id stands
    for its `Connection` object. -/
abbrev ConnId := Nat

/-- Reading or writing: `readQueue` or `writeQueue`, `isReading` or `isWriting`, and so on. -/
inductive Side where
  | read
  | write
  deriving DecidableEq, Repr

/-- `Connection`. `happened` is `isReadable` and `isWritable`, `busy` is `isReading` and `isWriting`. -/
structure Connection (R : RequestHandler) where
  happened : Side → BitVec 32 := fun _ => 0
  errorCode : ConnectionErrorCode := .noError
  isClosed : Bool := false
  busy : Side → Bool := fun _ => false
  handler : R.State := R.init
  response : ByteString := []

/-- What the threads share. The object of an id that `NewConnection` has not used yet is as its
    constructor makes it. `protect` is `protectIsReading` and `protectIsWriting`, true while held;
    `signaled` is the flag of `readInQueueHappened` and `writeInQueueHappened`. An exception that leaves a
    worker ends the process (`terminated`). The last three fields are history, which no step reads: the
    strings passed to `AddToWriteCache`, the bytes that `write()` accepted, and how often `Close` ran. -/
structure Shared (R : RequestHandler) where
  conn : ConnId → Connection R := fun _ => {}
  connectionMap : ConnId → Bool := fun _ => false
  queue : Side → List ConnId := fun _ => []
  writeCache : ConnId → Option ByteString := fun _ => none
  protect : Side → Bool := fun _ => false
  signaled : Side → Bool := fun _ => false
  closed : Bool := false
  nextConnId : Nat := 0
  terminated : Bool := false
  added : ConnId → ByteString := fun _ => []
  accepted : ConnId → ByteString := fun _ => []
  closes : ConnId → Nat := fun _ => 0

/-- What a step does to the shared state. -/
inductive Act (R : RequestHandler) where
  -- Nothing; the step may have read something.
  | look
  | lock (d : Side)
  | unlock (d : Side)
  -- `SetReading` or `SetWriting`, and the end of the section.
  | enlist (d : Side) (c : ConnId)
  -- `UnSetReading` or `UnSetWriting`, and the end of the section.
  | delist (d : Side) (c : ConnId)
  | inQueue (d : Side) (c : ConnId)
  | deQueue (d : Side) (c : ConnId)
  | notify (d : Side)
  -- `EventNotifier::Wait` returns.
  | wake (d : Side)
  -- `SetReadable` or `SetWritable`.
  | happen (d : Side) (c : ConnId)
  -- `isReadable--` or `isWritable--`.
  | take (d : Side) (c : ConnId)
  -- `SetError` or `SetToClose`.
  | setError (c : ConnId) (e : ConnectionErrorCode)
  | addCache (c : ConnId) (content : ByteString)
  | getCache (c : ConnId)
  | setResponse (c : ConnId) (content : ByteString)
  | readSocket (c : ConnId)
  -- `write()` on the socket, which accepted some bytes.
  | writeSocket (c : ConnId) (bytes : ByteString)
  -- The result of `SocketHandler::Write` is stored in `response`.
  | store (c : ConnId) (rest : ByteString)
  | setHandler (c : ConnId) (h : R.State)
  -- A worker found that its connection is not waited for any more.
  | idle (d : Side) (c : ConnId)
  | close (c : ConnId)
  -- A call of the close callback: `ep->Delete`, `CloseFd`, `socketMap->Delete`.
  | closeCallback (c : ConnId)
  | release (c : ConnId)
  | setClosed (c : ConnId)
  | register
  -- `ConnectionManager::Close` sets `closed`.
  | shut
  -- An exception leaves a worker.
  | terminate

namespace Shared
variable {R : RequestHandler}

/-- A change of one connection object. -/
def modify (s : Shared R) (c : ConnId) (f : Connection R → Connection R) : Shared R :=
  { s with conn := Function.update s.conn c (f (s.conn c)) }

/-- What `WriteCache` holds for an id. -/
def cached (s : Shared R) (c : ConnId) : ByteString := (s.writeCache c).getD []

/-- `WriteCache::HasContentToWrite`. -/
def hasContentToWrite (s : Shared R) (c : ConnId) : Bool := s.cached c ≠ []

end Shared

/-- The effect of a step. -/
def Act.apply {R : RequestHandler} (a : Act R) (s : Shared R) : Shared R :=
  match a with
  | .look | .readSocket _ | .idle _ _ | .closeCallback _ => s
  | .lock d => { s with protect := Function.update s.protect d true }
  | .unlock d => { s with protect := Function.update s.protect d false }
  | .enlist d c =>
    { s.modify c fun x => { x with busy := Function.update x.busy d true } with
      protect := Function.update s.protect d false }
  | .delist d c =>
    { s.modify c fun x => { x with busy := Function.update x.busy d false } with
      protect := Function.update s.protect d false }
  | .inQueue d c => { s with queue := Function.update s.queue d (s.queue d ++ [c]) }
  | .deQueue d _ => { s with queue := Function.update s.queue d (s.queue d).tail }
  | .notify d => { s with signaled := Function.update s.signaled d true }
  | .wake d => { s with signaled := Function.update s.signaled d false }
  | .happen d c => s.modify c fun x => { x with happened := Function.update x.happened d (x.happened d + 1) }
  | .take d c => s.modify c fun x => { x with happened := Function.update x.happened d (x.happened d - 1) }
  | .setError c e => s.modify c fun x => { x with errorCode := e }
  | .addCache c content =>
    { s with
      writeCache := Function.update s.writeCache c (some (s.cached c ++ content))
      added := Function.update s.added c (s.added c ++ content) }
  | .getCache c => { s with writeCache := Function.update s.writeCache c ((s.writeCache c).map fun _ => []) }
  | .setResponse c content => s.modify c fun x => { x with response := x.response ++ content }
  | .writeSocket c bytes => { s with accepted := Function.update s.accepted c (s.accepted c ++ bytes) }
  | .store c rest => s.modify c fun x => { x with response := rest }
  | .setHandler c h => s.modify c fun x => { x with handler := h }
  | .close c => { s with closes := Function.update s.closes c (s.closes c + 1) }
  | .release c => { s with connectionMap := Function.update s.connectionMap c false }
  | .setClosed c => s.modify c fun x => { x with isClosed := true }
  | .register =>
    { s with
      nextConnId := s.nextConnId + 1
      connectionMap := Function.update s.connectionMap (s.nextConnId + 1) true }
  | .shut => { s with closed := true }
  | .terminate => { s with terminated := true }

/-! ### Program points -/

/-- What a step gets from outside: which operand of `|` is read first, and the results of system calls. -/
inductive Choice where
  | go
  | errorFirst
  -- `read()` fills the buffer with `bytes`; `tail` is what the memory behind the buffer holds.
  | data (bytes tail : ByteString)
  | eof
  | again
  | fail
  | accepted (n : Nat)

/-- `ReadEventHappend` or `WriteEventHappend`: the two atomics are read one after the other. -/
inductive EventPc where
  | start
  | counter (a : BitVec 32)
  | error (e : BitVec 32)
  deriving DecidableEq

/-- What was set before a check: an event, an error, or content of the `WriteCache`. -/
inductive Cause where
  | event
  | error
  | content
  deriving DecidableEq

/-- `CheckToInQueueRead` or `CheckToInQueueWrite`, with `NeedInQueueRead` or `NeedInQueueWrite`. -/
inductive CheckPc where
  | lock
  | event (p : EventPc)
  | content
  | readWaiting
  | writeWaiting
  | test (b : Bool)
  | inQueue
  | notify
  deriving DecidableEq

/-- `NeedReInQueueRead` or `NeedReInQueueWrite`, and the worker's `InQueue` behind it. -/
inductive RecheckPc where
  | lock
  | busy
  | event (p : EventPc)
  | content
  | test (b : Bool)
  | inQueue
  deriving DecidableEq

/-- `AddToWriteCache`. -/
inductive AddPc where
  | add (content : ByteString)
  | getValue
  deriving DecidableEq

/-- `Connection::Close`. -/
inductive ClosePc where
  | start
  | epDelete
  | closeFd
  | mapDelete
  | release
  | setClosed
  deriving DecidableEq

/-- The test of `errorCode` in front of `Read` and `Write`. -/
inductive ErrorPc where
  | test
  | argument
  deriving DecidableEq

/-- The test of `IsWaiting` at the end of `Read` and `Write`. -/
inductive FinishPc where
  | readWaiting
  | writeWaiting
  deriving DecidableEq

/-- `Connection::Read`. -/
inductive ReadPc where
  | readable
  | take
  | socket (s : ByteString)
  | integrity
  | complete
  deriving DecidableEq

/-- `SetResponse` of a `ProcessWrite` worker with the content from the `WriteCache`. -/
inductive LoadPc where
  | get
  | setResponse (content : ByteString)
  deriving DecidableEq

/-- `Connection::Write`. -/
inductive WritePc where
  | writable
  | take
  | empty
  | socket (s : ByteString)
  | store (s : ByteString)
  deriving DecidableEq

/-- `ProcessRead` or `ProcessWrite`. -/
inductive WorkerPc where
  | running
  | wait
  | loop
  | deQueue
  | leave
  deriving DecidableEq

/-- The events that are reported for a connection. -/
inductive Report where
  | canRead
  | canWrite
  | errorOccurred
  | timeToExit
  deriving DecidableEq

/-- Where a thread is in the functions that report to the server. -/
inductive ReportPc where
  | getValue
  | set
  | checkWrite
  deriving DecidableEq

/-- `ConnectionManager::Close`. -/
inductive ShutPc where
  | test
  | set
  | notifyWrite
  | notifyRead
  deriving DecidableEq

/-- A function that has been called and not returned yet, or that is to be called when the ones before it
    have returned. -/
inductive Frame (R : RequestHandler) where
  | check (k : Cause) (d : Side) (c : ConnId) (p : CheckPc)
  | recheck (d : Side) (c : ConnId) (p : RecheckPc)
  | addCache (c : ConnId) (p : AddPc)
  | callback (c : ConnId) (p : R.Pc)
  | close (c : ConnId) (p : ClosePc)
  | onError (d : Side) (c : ConnId) (p : ErrorPc)
  | finish (d : Side) (c : ConnId) (p : FinishPc)
  | read (c : ConnId) (p : ReadPc)
  | load (c : ConnId) (p : LoadPc)
  | write (c : ConnId) (p : WritePc)
  | worker (d : Side) (p : WorkerPc)
  | report (r : Report) (c : ConnId) (p : ReportPc)
  | newConnection
  | shut (p : ShutPc)
  -- A thread of the request handler, which called `write`.
  | foreign

/-- What becomes of the function that took a step: it is replaced by others (by none when it returns), a
    callback returns a value, or an exception leaves it. -/
inductive Outcome (R : RequestHandler) where
  | next (fs : List (Frame R))
  | ret (v : Bool)
  | throw

/-! ### Steps -/

section Steps
variable {R : RequestHandler}

/-- `isReadable | errorCode` or `isWritable | errorCode`; the order of the operands is not specified. -/
def eventHappend (x : Connection R) (d : Side) (o : Choice) : EventPc → EventPc ⊕ Bool
  | .start =>
    match o with
    | .errorFirst => .inl (.error x.errorCode.toInt)
    | _ => .inl (.counter (x.happened d))
  | .counter a => .inr (a ||| x.errorCode.toInt != 0)
  | .error e => .inr (x.happened d ||| e != 0)

/-- `NeedInQueueRead` only asks for an event. `NeedInQueueWrite` asks for content as well, and falls back
    on `CanClose` without one of them. -/
def CheckPc.afterEvent (d : Side) (happened : Bool) : CheckPc :=
  match d, happened with
  | .read, b => .test b
  | .write, true => .content
  | .write, false => .readWaiting

/-- `NeedReInQueueWrite` asks for content as well. -/
def RecheckPc.afterEvent (d : Side) (happened : Bool) : RecheckPc :=
  match d, happened with
  | .read, b => .test b
  | .write, true => .content
  | .write, false => .test false

/-- `CheckToInQueueRead(connection)` or `CheckToInQueueWrite(connection)`. -/
def checkToInQueue (s : Shared R) (o : Choice) (k : Cause) (d : Side) (c : ConnId) :
    CheckPc → Option (Act R × Outcome R)
  | .lock => if s.protect d then none else some (.lock d, .next [.check k d c (.event .start)])
  | .event p =>
    match eventHappend (s.conn c) d o p with
    | .inl p' => some (.look, .next [.check k d c (.event p')])
    | .inr b => some (.look, .next [.check k d c (CheckPc.afterEvent d b)])
  | .content => some (.look, .next [.check k d c (if s.hasContentToWrite c then .test true else .readWaiting)])
  | .readWaiting =>
    some (.look, .next [.check k d c (if R.isReadWaiting (s.conn c).handler then .test false else .writeWaiting)])
  | .writeWaiting => some (.look, .next [.check k d c (.test (!R.isWriteWaiting (s.conn c).handler))])
  | .test b =>
    if b && !(s.conn c).busy d then some (.enlist d c, .next [.check k d c .inQueue]) else some (.unlock d, .next [])
  | .inQueue => some (.inQueue d c, .next [.check k d c .notify])
  | .notify => some (.notify d, .next [])

/-- `NeedReInQueueRead(connection)` or `NeedReInQueueWrite(connection)`, and `InQueue` if it returns true. -/
def needReInQueue (s : Shared R) (o : Choice) (d : Side) (c : ConnId) : RecheckPc → Option (Act R × Outcome R)
  | .lock => if s.protect d then none else some (.lock d, .next [.recheck d c .busy])
  | .busy => if (s.conn c).busy d then some (.look, .next [.recheck d c (.event .start)]) else some (.look, .throw)
  | .event p =>
    match eventHappend (s.conn c) d o p with
    | .inl p' => some (.look, .next [.recheck d c (.event p')])
    | .inr b => some (.look, .next [.recheck d c (RecheckPc.afterEvent d b)])
  | .content => some (.look, .next [.recheck d c (.test (s.hasContentToWrite c))])
  | .test true => some (.unlock d, .next [.recheck d c .inQueue])
  | .test false => some (.delist d c, .next [])
  | .inQueue => some (.inQueue d c, .next [])

/-- `AddToWriteCache`. `GetValue` throws if the connection has been released. -/
def addToWriteCache (s : Shared R) (c : ConnId) : AddPc → Option (Act R × Outcome R)
  | .add content => some (.addCache c content, .next [.addCache c .getValue])
  | .getValue =>
    if s.connectionMap c then some (.look, .next [.check .content .write c .lock]) else some (.look, .throw)

/-- One step of a callback of the connection's handler. -/
def callback (s : Shared R) (c : ConnId) (p : R.Pc) : Option (Act R × Outcome R) :=
  match R.exec (s.conn c).handler p with
  | .ret h v => some (.setHandler c h, .ret v)
  | .throw => some (.look, .throw)
  | .goto h p' => some (.setHandler c h, .next [.callback c p'])
  | .write h content p' => some (.setHandler c h, .next [.addCache c (.add content), .callback c p'])

/-- One call of the close callback, which may throw. -/
def closeCallback (o : Choice) (c : ConnId) (p : ClosePc) : Option (Act R × Outcome R) :=
  match o with
  | .go => some (.closeCallback c, .next [.close c p])
  | .fail => some (.look, .throw)
  | _ => none

/-- `Connection::Close`. A connection that is closed already is only warned about. -/
def close (o : Choice) (c : ConnId) : ClosePc → Option (Act R × Outcome R)
  | .start => some (.close c, .next [.close c .epDelete])
  | .epDelete => closeCallback o c .closeFd
  | .closeFd => closeCallback o c .mapDelete
  | .mapDelete => closeCallback o c .release
  | .release => some (.release c, .next [.close c .setClosed])
  | .setClosed => some (.setClosed c, .next [])

/-- `ReadCompleteCallback` or `WriteCompleteCallback`. -/
def completeCallback (d : Side) (e : ConnectionErrorCode) : R.Pc :=
  match d with
  | .read => R.readCompleteCallback e
  | .write => R.writeCompleteCallback e

/-- `if (errorCode != NO_ERROR)` in front of `Read` and `Write`: the callback, then `Close`. -/
def onError (s : Shared R) (d : Side) (c : ConnId) : ErrorPc → Option (Act R × Outcome R)
  | .test =>
    if (s.conn c).errorCode = .noError then some (.look, .next [])
    else some (.look, .next [.onError d c .argument])
  | .argument =>
    some (.look, .next [.callback c (completeCallback d (s.conn c).errorCode), .close c .start])

/-- `if (!requestHandler->IsWaiting()) Close();` at the end of `Read` and `Write`. -/
def finish (s : Shared R) (d : Side) (c : ConnId) : FinishPc → Option (Act R × Outcome R)
  | .readWaiting =>
    if R.isReadWaiting (s.conn c).handler then some (.look, .next [])
    else some (.look, .next [.finish d c .writeWaiting])
  | .writeWaiting =>
    if R.isWriteWaiting (s.conn c).handler then some (.look, .next []) else some (.idle d c, .next [.close c .start])

/-- The buffer of `SocketHandler::Read`. -/
def bufSize : Nat := 1000

/-- What `s += &buf[0]` appends: the bytes up to the first zero, behind the buffer if it has none. -/
def cString (bytes tail : ByteString) : ByteString :=
  (bytes ++ List.replicate (bufSize - bytes.length) 0 ++ tail).takeWhile fun b => b ≠ 0

/-- `Connection::Read` behind the test of `errorCode`; `result` is what the last callback returned. -/
def read (s : Shared R) (o : Choice) (result : Bool) (c : ConnId) : ReadPc → Option (Act R × Outcome R)
  | .readable =>
    if (s.conn c).happened .read = 0 then some (.look, .next []) else some (.look, .next [.read c .take])
  | .take => some (.take .read c, .next [.read c (.socket [])])
  | .socket received =>
    match o with
    | .data bytes tail =>
      if 0 < bytes.length ∧ bytes.length ≤ bufSize then
        some (.readSocket c, .next [.read c (.socket (received ++ cString bytes tail))])
      else none
    | .eof | .again =>
      some (.readSocket c, .next [.callback c (R.appendReceivedData received), .read c .integrity])
    | .fail => some (.look, .throw)
    | _ => none
  | .integrity => some (.look, .next [.callback c R.checkDataIntegrity, .read c .complete])
  | .complete =>
    if result then
      some (.look, .next [.callback c (R.readCompleteCallback .noError), .finish .read c .readWaiting])
    else some (.look, .next [.finish .read c .readWaiting])

/-- `connection->SetResponse(writeCache->Get(id))`, then `connection->Write()`. -/
def load (s : Shared R) (c : ConnId) : LoadPc → Option (Act R × Outcome R)
  | .get => some (.getCache c, .next [.load c (.setResponse (s.cached c))])
  | .setResponse content => some (.setResponse c content, .next [.onError .write c .test, .write c .writable])

/-- `Connection::Write` behind the test of `errorCode`, with the loop of `SocketHandler::Write` over the
    string that is left to send. -/
def write (s : Shared R) (o : Choice) (c : ConnId) : WritePc → Option (Act R × Outcome R)
  | .writable =>
    if (s.conn c).happened .write = 0 then some (.look, .next []) else some (.look, .next [.write c .take])
  | .take => some (.take .write c, .next [.write c .empty])
  | .empty =>
    if (s.conn c).response = [] then some (.look, .next [])
    else some (.look, .next [.write c (.socket (s.conn c).response)])
  | .socket rest =>
    if rest = [] then some (.look, .next [.write c (.store [])])
    else
      match o with
      | .accepted n =>
        if n ≤ rest.length then some (.writeSocket c (rest.take n), .next [.write c (.socket (rest.drop n))])
        else none
      | .again => some (.writeSocket c [], .next [.write c (.store rest)])
      | .fail => some (.look, .throw)
      | _ => none
  | .store rest =>
    if rest = [] then
      some (.store c [], .next [.callback c (R.writeCompleteCallback .noError), .finish .write c .readWaiting])
    else some (.store c rest, .next [.finish .write c .readWaiting])

/-- `ProcessRead` or `ProcessWrite`: the outer loop waits, the inner one takes a connection from the queue,
    reads or writes it and sees whether it has to be queued again. -/
def process (s : Shared R) (d : Side) : WorkerPc → Option (Act R × Outcome R)
  | .running => some (.look, .next [.worker d (if s.closed then .leave else .wait)])
  | .wait => if s.signaled d then some (.wake d, .next [.worker d .loop]) else none
  | .loop => some (.look, .next [.worker d (if s.closed then .running else .deQueue)])
  | .deQueue =>
    match d, s.queue d with
    | d, [] => some (.look, .next [.worker d .running])
    | .read, c :: _ =>
      some (.deQueue .read c,
        .next [.onError .read c .test, .read c .readable, .recheck .read c .lock, .worker .read .loop])
    | .write, c :: _ =>
      some (.deQueue .write c, .next [.load c .get, .recheck .write c .lock, .worker .write .loop])
  | .leave => some (.notify d, .next [])

/-- `CanRead`, `CanWrite`, `ErrorOccurred` and `TimeToExit`, which log the exception of `GetValue`. -/
def report (s : Shared R) (r : Report) (c : ConnId) : ReportPc → Option (Act R × Outcome R)
  | .getValue =>
    if s.connectionMap c then some (.look, .next [.report r c .set]) else some (.look, .next [])
  | .set =>
    match r with
    | .canRead => some (.happen .read c, .next [.check .event .read c .lock])
    | .canWrite => some (.happen .write c, .next [.check .event .write c .lock])
    | .errorOccurred =>
      some (.setError c .socketError, .next [.check .error .read c .lock, .report .errorOccurred c .checkWrite])
    | .timeToExit =>
      some (.setError c .socketClosed, .next [.check .error .read c .lock, .report .timeToExit c .checkWrite])
  | .checkWrite => some (.look, .next [.check .error .write c .lock])

/-- `ConnectionManager::Close`. -/
def shut (s : Shared R) : ShutPc → Option (Act R × Outcome R)
  | .test => if s.closed then some (.look, .next []) else some (.look, .next [.shut .set])
  | .set => some (.shut, .next [.shut .notifyWrite])
  | .notifyWrite => some (.notify .write, .next [.shut .notifyRead])
  | .notifyRead => some (.notify .read, .next [])

/-- One step of the innermost function. -/
def Frame.step (s : Shared R) (o : Choice) (result : Bool) : Frame R → Option (Act R × Outcome R)
  | .check k d c p => checkToInQueue s o k d c p
  | .recheck d c p => needReInQueue s o d c p
  | .addCache c p => addToWriteCache s c p
  | .callback c p => SimpleHttp.callback s c p
  | .close c p => SimpleHttp.close o c p
  | .onError d c p => SimpleHttp.onError s d c p
  | .finish d c p => SimpleHttp.finish s d c p
  | .read c p => SimpleHttp.read s o result c p
  | .load c p => SimpleHttp.load s c p
  | .write c p => SimpleHttp.write s o c p
  | .worker d p => process s d p
  | .report r c p => SimpleHttp.report s r c p
  | .newConnection => some (.register, .next [])
  | .shut p => SimpleHttp.shut s p
  | .foreign => some (.look, .next [])

end Steps

/-- A thread: its call stack, innermost function first, and the value that a callback returned last. -/
structure Thread (R : RequestHandler) where
  frames : List (Frame R)
  result : Bool := false

/-- A step of a thread. No function of a worker catches an exception; a thread of the request handler may
    go on after one that `AddToWriteCache` threw. -/
def Thread.step {R : RequestHandler} (s : Shared R) (t : Thread R) (o : Choice) : Option (Act R × Thread R) :=
  match t.frames with
  | [] => none
  | f :: rest =>
    match f.step s o t.result with
    | none => none
    | some (a, .next fs) => some (a, { t with frames := fs ++ rest })
    | some (a, .ret v) => some (a, ⟨rest, v⟩)
    | some (_, .throw) =>
      match f, rest with
      | .addCache _ .getValue, [.foreign] => some (.look, { t with frames := [] })
      | _, _ => some (.terminate, t)

/-- The calls that start a thread: from the server, and from threads of the request handler. -/
inductive Call where
  | newConnection
  | report (r : Report) (c : ConnId)
  | write (c : ConnId) (content : ByteString)
  | close
  deriving DecidableEq

/-- The thread that a call starts. -/
def Call.enter (R : RequestHandler) : Call → Option (Thread R)
  | .newConnection => some ⟨[.newConnection], false⟩
  | .report r c => some ⟨[.report r c .getValue], false⟩
  | .write c content => if R.spontaneous then some ⟨[.addCache c (.add content), .foreign], false⟩ else none
  | .close => some ⟨[.shut .test], false⟩

/-- `ConnectionManager` with its workers and callers. -/
def manager (R : RequestHandler) : Machine (Shared R) (Thread R) Choice (Act R) Call where
  step := Thread.step
  apply := Act.apply
  enter := Call.enter R
  halted := Shared.terminated

/-- The state of the manager. -/
abbrev State (R : RequestHandler) := Config (Shared R) (Thread R)

/-- The constructor: `readers` threads run `ProcessRead` and `writers` run `ProcessWrite`. It leaves
    `closed` as it is. -/
def start (R : RequestHandler) (closed : Bool) (readers writers : Nat) : State R where
  shared := { closed }
  threads := List.replicate readers ⟨[.worker .read .running], false⟩ ++
    List.replicate writers ⟨[.worker .write .running], false⟩

/-- The states that the manager reaches. -/
def Reachable (R : RequestHandler) (closed : Bool) (readers writers : Nat) (s : State R) : Prop :=
  Reach (manager R) Rule.any (start R closed readers writers) s

/-- The innermost function of a thread, which takes its next step, has the property `p`. -/
def Thread.next {R : RequestHandler} (p : Frame R → Bool) (t : Thread R) : Bool := t.frames.head?.any p

theorem Thread.next_iff {R : RequestHandler} {p : Frame R → Bool} {t : Thread R} :
    t.next p = true ↔ ∃ f rest, t.frames = f :: rest ∧ p f = true := by
  unfold Thread.next
  cases t.frames <;> simp

/-- Thread `i` takes `n` steps that get nothing from outside. -/
def go (i n : Nat) : List (Move Choice Call) := List.replicate n (.run i .go)

/-- With one reader and one writer, threads 0 and 1: a request of one line has been read and its response is in the
    `WriteCache`; `isWriteWaiting` is still to be set. -/
def responseAdded : List (Move Choice Call) :=
  [[.enter .newConnection, .run 2 .go, .enter (.report .canRead 1), .enter (.report .canWrite 1)], go 3 8, go 4 8,
    go 0 7, [.run 0 (.data [97, 13, 10, 13, 10] []), .run 0 .again], go 0 16].flatten

/-- The reader has finished, and the response is with the writer, whose first `write()` is to come. -/
def responseLoaded : List (Move Choice Call) := responseAdded ++ go 0 8 ++ go 1 10

end SimpleHttp
