import CppProgramming.Lib.Interleaving
import CppProgramming.Lib.ByteString

/-! # The echo server on an I/O completion port

A thread accepts connections and posts the first receive of each, the threads of the pool take completion packets
from the port and post the next operation, and the kernel completes what was posted, in any order. The contexts live
behind `shared_ptr`s: they are kept in the order of their creation, the map holds their positions, and the address of
a context's `OVERLAPPED` is the position of the context. A step of a thread is one critical section, one system call,
or the assignments to a context between two of these. A context's socket, which lives as long as the context, is left
out, and so are the listening socket and its event. -/

namespace Iocp
open Interleaving

/-- The position of a `ClientContext` among all that were made. -/
abbrev ContextPtr := Nat

/-- `ClientContext::BUFFER_SIZE`. -/
def bufferSize : Nat := 4096

/-- `IOCP::INVALID_CLIENT_CONTEXT_ID`. -/
def invalidClientContextId : UInt32 := 1

/-- `ClientContext::Option`. -/
inductive LastOption where
  | none
  | send
  | recv
  deriving DecidableEq, Repr

/-- `WSABUF`, where `buf` points into the buffer of a context. -/
structure WsaBuf where
  buf : Nat := 0
  len : UInt32 := 0
  deriving DecidableEq, Repr

/-- `ClientContext`. `received` and `sent` are history, which no step reads: the bytes that the kernel has taken from
    the client and those that it has handed to it. -/
structure ClientContext where
  id : UInt32
  lastOption : LastOption := .none
  wsaBuf : WsaBuf := {}
  buffer : ByteString := List.replicate bufferSize 0
  numberOfBytesToSend : UInt32 := 0
  numberOfBytesSent : UInt32 := 0
  received : ByteString := []
  sent : ByteString := []
  deriving DecidableEq, Repr

/-- What `WSARecv` and `WSASend` post. -/
inductive Operation where
  | recv
  | send
  deriving DecidableEq, Repr

/-- An overlapped operation that the kernel has not completed yet. `key` is the completion key that the socket was
    associated with. -/
structure Overlapped where
  operation : Operation
  overlapped : ContextPtr
  key : UInt32
  buf : WsaBuf
  deriving DecidableEq, Repr

/-- A completion packet, with what `GetQueuedCompletionStatus` returns for it. The packets that `stopThreadPool`
    posts have no `OVERLAPPED`. -/
structure Packet where
  result : Bool
  numberOfBytes : UInt32
  key : UInt32
  overlapped : Option ContextPtr
  deriving DecidableEq, Repr

/-- What the threads and the kernel share. `id` is the static variable of `createClientContext`. `unposted` is history,
    which no step reads: how many packets `stopThreadPool` has failed to post. -/
structure Shared where
  stopped : Bool := false
  id : UInt32 := 0
  clientContexts : Std.TreeMap UInt32 ContextPtr := ∅
  contexts : List ClientContext := []
  posted : List Overlapped := []
  port : List Packet := []
  unposted : Nat := 0

/-- What a step does to the shared state. -/
inductive Act where
  | look
  -- `createClientContext` with the id that it found.
  | create (id : UInt32)
  -- `CreateIoCompletionPort` returns `NULL`.
  | associateFailed
  | assign (p : ContextPtr) (c : ClientContext)
  | post (o : Overlapped)
  | erase (id : UInt32)
  -- `GetQueuedCompletionStatus` takes a packet and returns `TRUE`.
  | dequeue
  -- `GetQueuedCompletionStatus` takes a packet and returns `FALSE`.
  | dequeueFailed
  -- The kernel completes a receive with `data`, or a send of `n` bytes.
  | completeRecv (i : Nat) (o : Overlapped) (result : Bool) (data : ByteString)
  | completeSend (i : Nat) (o : Overlapped) (result : Bool) (n : Nat)
  | stop
  -- `PostQueuedCompletionStatus` of `stopThreadPool`, which returns 0 where it fails.
  | wake
  | wakeFailed

/-- The context after a receive of `data` at `buf`. -/
def ClientContext.receive (c : ClientContext) (buf : Nat) (data : ByteString) : ClientContext :=
  { c with
    buffer := c.buffer.take buf ++ data ++ c.buffer.drop (buf + data.length)
    received := c.received ++ data }

/-- The context after a send of the `n` bytes at `buf`. -/
def ClientContext.transmit (c : ClientContext) (buf n : Nat) : ClientContext :=
  { c with sent := c.sent ++ (c.buffer.drop buf).take n }

/-- The shared state after the action. -/
def Act.apply (a : Act) (s : Shared) : Shared :=
  match a with
  | .look | .associateFailed => s
  | .create id =>
    { s with
      id := id
      clientContexts := s.clientContexts.insert id s.contexts.length
      contexts := s.contexts ++ [{ id := id }] }
  | .assign p c => { s with contexts := s.contexts.set p c }
  | .post o => { s with posted := s.posted ++ [o] }
  | .erase id => { s with clientContexts := s.clientContexts.erase id }
  | .dequeue | .dequeueFailed => { s with port := s.port.tail }
  | .completeRecv i o result data =>
    { s with
      contexts := s.contexts.modify o.overlapped fun c => c.receive o.buf.buf data
      posted := s.posted.eraseIdx i
      port := s.port ++ [⟨result, UInt32.ofNat data.length, o.key, some o.overlapped⟩] }
  | .completeSend i o result n =>
    { s with
      contexts := s.contexts.modify o.overlapped fun c => c.transmit o.buf.buf n
      posted := s.posted.eraseIdx i
      port := s.port ++ [⟨result, UInt32.ofNat n, o.key, some o.overlapped⟩] }
  | .stop => { s with stopped := true }
  | .wake => { s with port := s.port ++ [⟨true, 0, invalidClientContextId, none⟩] }
  | .wakeFailed => { s with unposted := s.unposted + 1 }

/-! ### Threads -/

/-- Where the thread of `createAcceptThread` stands. -/
inductive AcceptPc where
  | loop
  | wait
  -- `acceptConnection`, after `accept`.
  | create
  | associate (p : ContextPtr)
  | prepare (p : ContextPtr)
  | recv (p : ContextPtr)
  | remove (id : UInt32) (p : ContextPtr)
  | finished
  deriving DecidableEq, Repr

/-- Where a thread of the pool stands. In `remove`, `p` is what `overlapped` points to, which the code has and does
    not use. -/
inductive PoolPc where
  | loop
  | getStatus
  | lookup (key : UInt32) (numberOfBytes : UInt32) (p : Option ContextPtr)
  | handle (p : ContextPtr) (numberOfBytes : UInt32)
  | send (p : ContextPtr) (buf : WsaBuf)
  | recv (p : ContextPtr) (buf : WsaBuf)
  | remove (key : UInt32) (p : Option ContextPtr)
  | finished
  deriving DecidableEq, Repr

/-- The accepting thread, a thread of the pool, the kernel, and a thread in `stop`, with the number of packets that
    it still has to post. -/
inductive Thread where
  | accept (pc : AcceptPc)
  | pool (pc : PoolPc)
  | kernel
  | stop (isSet : Bool) (n : Nat)
  deriving DecidableEq, Repr

/-- What a step gets from outside. -/
inductive Choice where
  | go
  -- `accept`, `CreateIoCompletionPort`, `WSARecv`, `WSASend` or `PostQueuedCompletionStatus` succeeds or fails.
  | result (ok : Bool)
  -- The operation at `i` completes.
  | complete (i : Nat) (result : Bool) (data : ByteString) (n : Nat)

/-- The loop of `createClientContext` over the ids; `none` when there is no free one left. -/
def firstFree (clientContexts : Std.TreeMap UInt32 ContextPtr) : Nat → UInt32 → Option UInt32
  | 0, _ => none
  | fuel + 1, id =>
    if clientContexts.contains id || id == invalidClientContextId then firstFree clientContexts fuel (id + 1)
    else some id

/-- A step of the accepting thread. -/
def AcceptPc.step (s : Shared) (o : Choice) : AcceptPc → Option (Act × AcceptPc)
  | .loop => some (.look, if s.stopped then .finished else .wait)
  | .wait =>
    match o with
    | .result true => some (.look, .create)
    -- A timeout, no `FD_ACCEPT`, or a call that fails.
    | .result false => some (.look, .loop)
    | _ => none
  | .create =>
    match firstFree s.clientContexts (2 ^ 32) s.id with
    | some id => some (.create id, .associate s.contexts.length)
    -- Without a free id the loop goes on for ever.
    | none => none
  | .associate p =>
    match o with
    | .result true => some (.look, .prepare p)
    | .result false => some (.associateFailed, .loop)
    | _ => none
  | .prepare p =>
    match s.contexts[p]? with
    | some c =>
      some (.assign p { c with wsaBuf := ⟨0, UInt32.ofNat c.buffer.length⟩, lastOption := .recv }, .recv p)
    | none => none
  | .recv p =>
    match s.contexts[p]?, o with
    | some c, .result true => some (.post ⟨.recv, p, c.id, c.wsaBuf⟩, .loop)
    | some c, .result false => some (.look, .remove c.id p)
    | _, _ => none
  | .remove id _ => some (.erase id, .loop)
  | .finished => none

/-- A step of a thread of the pool. -/
def PoolPc.step (s : Shared) (o : Choice) : PoolPc → Option (Act × PoolPc)
  | .loop => some (.look, if s.stopped then .finished else .getStatus)
  | .getStatus =>
    match s.port with
    | [] => none
    | packet :: _ =>
      if !packet.result then some (.dequeueFailed, .loop)
      else if packet.key == invalidClientContextId then some (.dequeue, .loop)
      else if packet.numberOfBytes == 0 then some (.dequeue, .remove packet.key packet.overlapped)
      else some (.dequeue, .lookup packet.key packet.numberOfBytes packet.overlapped)
  | .lookup key numberOfBytes _ =>
    match s.clientContexts[key]? with
    | some p => some (.look, .handle p numberOfBytes)
    | none => some (.look, .loop)
  | .handle p numberOfBytes =>
    match s.contexts[p]? with
    | none => none
    | some c =>
      match c.lastOption with
      | .recv =>
        some (.assign p
            { c with
              lastOption := .send
              numberOfBytesToSend := numberOfBytes
              numberOfBytesSent := 0
              wsaBuf := { c.wsaBuf with len := numberOfBytes } },
          .send p { c.wsaBuf with len := numberOfBytes })
      | .send =>
        let numberOfBytesSent := c.numberOfBytesSent + numberOfBytes
        if numberOfBytesSent < c.numberOfBytesToSend then
          some (.assign p { c with lastOption := .send, numberOfBytesSent := numberOfBytesSent },
            .send p ⟨numberOfBytesSent.toNat, c.numberOfBytesToSend - numberOfBytesSent⟩)
        else
          some (.assign p { c with lastOption := .recv, numberOfBytesSent := numberOfBytesSent },
            .recv p ⟨0, UInt32.ofNat c.buffer.length⟩)
      | .none => some (.look, .loop)
  | .send p buf =>
    match s.contexts[p]?, o with
    | some c, .result true => some (.post ⟨.send, p, c.id, buf⟩, .loop)
    | some c, .result false => some (.look, .remove c.id (some p))
    | _, _ => none
  | .recv p buf =>
    match s.contexts[p]?, o with
    | some c, .result true => some (.post ⟨.recv, p, c.id, buf⟩, .loop)
    | some c, .result false => some (.look, .remove c.id (some p))
    | _, _ => none
  | .remove key _ => some (.erase key, .loop)
  | .finished => none

/-- The kernel completes an operation: at most the length of its buffer is transferred. -/
def kernelStep (s : Shared) : Choice → Option Act
  | .complete i result data n =>
    match s.posted[i]? with
    | none => none
    | some o =>
      match o.operation with
      | .recv => if data.length ≤ o.buf.len.toNat then some (.completeRecv i o result data) else none
      | .send => if n ≤ o.buf.len.toNat then some (.completeSend i o result n) else none
  | _ => none

/-- A step of a thread, of the kernel or of `stop`. -/
def Thread.step (s : Shared) (t : Thread) (o : Choice) : Option (Act × Thread) :=
  match t with
  | .accept pc => (pc.step s o).map fun x => (x.1, .accept x.2)
  | .pool pc => (pc.step s o).map fun x => (x.1, .pool x.2)
  | .kernel => (kernelStep s o).map fun a => (a, .kernel)
  | .stop false n => some (.stop, .stop true n)
  | .stop true (n + 1) =>
    match o with
    | .result true => some (.wake, .stop true n)
    -- An error is logged, and the loop goes on.
    | .result false => some (.wakeFailed, .stop true n)
    | _ => none
  | .stop true 0 => none

/-- `stop` is called for a pool of `n` threads. It may post its packets before the accepting thread has come to its
    end. -/
def machine : Machine Shared Thread Choice Act Nat where
  step := Thread.step
  apply := Act.apply
  enter n := some (.stop false n)
  halted _ := false

/-- `start` with a pool of `threadPoolSize` threads. -/
def start (threadPoolSize : Nat) : Config Shared Thread :=
  ⟨{}, .kernel :: .accept .loop :: List.replicate threadPoolSize (.pool .loop)⟩

end Iocp
