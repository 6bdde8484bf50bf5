import CppProgramming.HelloWorld.EventHandler

/-! # The asynchronous server

`ServerProactor` with the handlers that it registers, and `AsyncServer::stop`. One thread per completion queue registers
a handler for each method, then takes the completed operations and hands them to the handlers; a handler that has
received a call makes another one for the next call. A step is one access of the handler table or of a flag, one posted
operation or one call of `process` up to its first post. -/

namespace HelloWorld.Server
open Interleaving

/-- An operation on a completion queue. Which handler posted which operation is history. -/
structure Op where
  queue : Nat
  token : BitVec 64
  rpc : Nat
  method : Method
  operation : Operation
  deriving DecidableEq

/-- What the threads share. `drained` says that `grpcServer->Shutdown()` has returned, `shut` which completion queues
    are shut down. `late` is history: the operations that were posted to a queue after its `Shutdown`. -/
structure Shared where
  handlerManager : EventHandlerManager Nat := {}
  cqIdx : Nat := 0
  stopped : Bool := false
  drained : Bool := false
  shut : List Nat := []
  rpc : Nat → Rpc := fun _ => { handler := { method := .sayHello, cq := 0 } }
  created : Nat := 0
  inflight : List Op := []
  late : List Op := []

/-- The constructor of a handler is in `registerHandler`: at the test of `stopped`, at `handlerManager.add`, and at
    `requestFunc` for the handler `c`. -/
inductive RegisterPc where
  | test
  | add
  | request (c : Nat) (key : EventKey)
  deriving DecidableEq

/-- `demultiplex` behind `cqs[cqIdx++]`. At `start` it makes the first handlers, at `run` it is in `process`, which has
    `todo` left, and at `renew` in the constructor of the handler that `process` makes. -/
inductive DemuxPc where
  | start (p : RegisterPc) (method : Method) (rest : List Method)
  | next
  | timeout
  | left
  | shutdown
  | contains (o : Op) (ok : Bool)
  | get (o : Op) (ok : Bool)
  | process (c : Nat) (o : Op) (ok : Bool)
  | run (c : Nat) (o : Op) (todo : List Instr)
  | renew (p : RegisterPc) (c : Nat) (o : Op) (todo : List Instr)
  | remove (c : Nat) (o : Op)
  -- An exception has left `add` or `get`.
  | raised
  deriving DecidableEq

/-- `AsyncServer::stop`: at `queues i` it shuts down the queues from `i` on. -/
inductive StopPc where
  | stop
  | shutdown
  | queues (i : Nat)
  | finished
  deriving DecidableEq

/-- A thread in `demultiplex` before it has its queue, one that serves a queue, and one in `stop`. -/
inductive Thread where
  | waiting
  | demultiplex (cq : Nat) (p : DemuxPc)
  | stop (p : StopPc)
  deriving DecidableEq

/-- What a step gets from outside: the result of `AsyncNext`. -/
inductive Choice where
  | go
  | completed (j : Nat) (ok : Bool) (message : Request)
  | timeout
  | shutdown

/-- What a step does to the shared state; with `full` it throws, because `add` has no key left. -/
inductive Act where
  | look
  | full
  | take
  | register (method : Method) (cq : Nat) (key : EventKey) (manager : EventHandlerManager Nat)
  | post (o : Op)
  | complete (j : Nat) (o : Op) (ok : Bool) (message : Request)
  | process (c : Nat) (handler : EventHandler)
  | remove (key : EventKey)
  | stop
  | drain
  | shutdown (cq : Nat)

/-- A change of one object. -/
def Shared.modify (s : Shared) (c : Nat) (f : Rpc → Rpc) : Shared :=
  { s with rpc := Function.update s.rpc c (f (s.rpc c)) }

/-- The shared state after the action. -/
def Act.apply (a : Act) (s : Shared) : Shared :=
  match a with
  | .look | .full => s
  | .take => { s with cqIdx := s.cqIdx + 1 }
  | .register method cq key manager =>
    { s.modify s.created fun _ => { handler := { method, cq }, key } with
      handlerManager := manager
      created := s.created + 1 }
  | .post o =>
    { s.modify o.rpc fun r => r.post o.operation with
      inflight := s.inflight ++ [o]
      late := if o.queue ∈ s.shut then s.late ++ [o] else s.late }
  | .complete j o ok message =>
    { s.modify o.rpc fun r => r.complete o.operation ok message with inflight := s.inflight.eraseIdx j }
  | .process c handler => s.modify c fun r => { r with handler }
  | .remove key => { s with handlerManager := s.handlerManager.remove key }
  | .stop => { s with stopped := true }
  | .drain => { s with drained := true }
  | .shutdown cq => { s with shut := cq :: s.shut }

/-- The operation of the handler `c`, posted with the token of `event` on the queue of the handler. -/
def Shared.op (s : Shared) (c : Nat) (operation : Operation) (event : Event) : Op :=
  ⟨(s.rpc c).handler.cq, event.getToken, c, (s.rpc c).handler.method, operation⟩

/-- Where a constructor is after a step. -/
inductive Registering where
  | at (p : RegisterPc)
  | returned
  | raised

/-- A step of `registerHandler` for a new handler of the class of `method` on the queue `cq`. -/
def RegisterPc.step (s : Shared) (method : Method) (cq : Nat) : RegisterPc → Act × Registering
  | .test => (.look, if s.stopped then .returned else .at .add)
  | .add =>
    match s.handlerManager.add s.created with
    | some (key, manager) => (.register method cq key manager, .at (.request s.created key))
    | none => (.full, .raised)
  | .request c key => (.post (s.op c .request ((Event.ofKey key).setOpt ServerEventOpt.receive.code)), .returned)

/-- The handlers that `demultiplex` makes at its start, in their order. -/
def Method.all : List Method :=
  [.sayHello, .sayHelloAgain, .sayGoodbye, .sayGoodbyeAgain, .greet, .listen, .speak, .talk]

/-- The next one of the first handlers, or the loop. -/
def DemuxPc.begin : List Method → DemuxPc
  | [] => .next
  | method :: rest => .start .test method rest

/-- Where `demultiplex` goes on while it registers the first handlers. -/
def DemuxPc.afterStart (method : Method) (rest : List Method) : Registering → DemuxPc
  | .at p => .start p method rest
  | .returned => .begin rest
  | .raised => .raised

/-- Where `demultiplex` goes on while `process` registers the next handler. -/
def DemuxPc.afterRenew (c : Nat) (o : Op) (todo : List Instr) : Registering → DemuxPc
  | .at p => .renew p c o todo
  | .returned => .run c o todo
  | .raised => .raised

/-- A step of `demultiplex` on the queue `cq`. A posted operation completes once, at any time, in any order. -/
def DemuxPc.step (cq : Nat) (s : Shared) : DemuxPc → Choice → Option (Act × DemuxPc)
  | .start p method rest, .go =>
    let (a, r) := p.step s method cq
    some (a, .afterStart method rest r)
  | .next, .completed j ok message =>
    match s.inflight[j]? with
    | some o => if o.queue = cq then some (.complete j o ok message, .contains o ok) else none
    | none => none
  | .next, .timeout => some (.look, .timeout)
  | .next, .shutdown =>
    if cq ∈ s.shut ∧ ∀ o ∈ s.inflight, o.queue ≠ cq then some (.look, .shutdown) else none
  | .timeout, .go => some (.look, if s.handlerManager.count = 0 then .left else .next)
  | .contains o ok, .go =>
    some (.look, if s.handlerManager.contains (Event.ofToken o.token).getKey then .get o ok else .next)
  | .get o ok, .go =>
    match s.handlerManager.get (Event.ofToken o.token).getKey with
    | some c => some (.look, .process c o ok)
    | none => some (.look, .raised)
  | .process c o ok, .go =>
    let (handler, todo) := (s.rpc c).handler.process ok (Event.ofToken o.token)
    some (.process c handler, .run c o todo)
  | .run c o (.renew :: todo), .go => some (.look, .renew .test c o todo)
  | .run c o (.post operation event :: todo), .go => some (.post (s.op c operation event), .run c o todo)
  | .run c o (.unexpected :: todo), .go => some (.look, .run c o todo)
  | .run c o [], .go => some (.look, if (s.rpc c).handler.isComplete then .remove c o else .next)
  | .renew p c o todo, .go =>
    let (a, r) := p.step s (s.rpc c).handler.method (s.rpc c).handler.cq
    some (a, .afterRenew c o todo r)
  | .remove _ o, .go => some (.remove (Event.ofToken o.token).getKey, .next)
  | _, _ => none

/-- A step of `stop`; `drain` is the return of `grpcServer->Shutdown()`. -/
def StopPc.step (threadPoolSize : Nat) : StopPc → Choice → Option (Act × StopPc)
  | .stop, .go => some (.stop, .shutdown)
  | .shutdown, .go => some (.drain, .queues 0)
  | .queues i, .go => if i < threadPoolSize then some (.shutdown i, .queues (i + 1)) else some (.look, .finished)
  | _, _ => none

/-- A step of a thread. -/
def Thread.step (threadPoolSize : Nat) (s : Shared) (t : Thread) (x : Choice) : Option (Act × Thread) :=
  match t, x with
  | .waiting, .go => some (.take, .demultiplex s.cqIdx (.begin Method.all))
  | .waiting, _ => none
  | .demultiplex cq p, x => (p.step cq s x).map fun (a, p') => (a, .demultiplex cq p')
  | .stop p, x => (p.step threadPoolSize x).map fun (a, p') => (a, .stop p')

/-- The server: `stop` is called at any time. -/
def serverProactor (threadPoolSize : Nat) : Machine Shared Thread Choice Act Unit where
  step := Thread.step threadPoolSize
  apply := Act.apply
  enter := fun _ => some (.stop .stop)
  halted := fun _ => false

/-- The shared state and the threads of the server. -/
abbrev State := Config Shared Thread

/-- After `startDemuxer`. -/
def start (threadPoolSize : Nat) : State := ⟨{}, List.replicate threadPoolSize .waiting⟩

/-- The states of all runs. -/
def Reachable (threadPoolSize : Nat) : State → Prop := Reach (serverProactor threadPoolSize) .any (start threadPoolSize)

end HelloWorld.Server
