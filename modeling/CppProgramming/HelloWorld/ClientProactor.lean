import CppProgramming.HelloWorld.Event
import CppProgramming.Semaphore.Permits

/-! # The asynchronous client

`ClientProactor` with the calls that `AsyncHelloClient`, `AsyncGoodbyeClient` and `AsyncChatClient` make over it. A
call registers its handler, is bound to one of the completion queues and posts operations there, from the thread of its
user and from `process`; one thread per queue takes the completed operations and hands them to the handlers. A step is
one access of the handler table, of `cqIdx` or of a semaphore, one posted operation or one write of a flag. -/

namespace HelloWorld.Client
open Interleaving

/-- `CLIENT_EVENT_OPT`: what is posted with a token. -/
inductive ClientEventOpt where
  | startCall
  | finish
  | read
  | write
  | writeDone
  deriving DecidableEq, Repr

/-- The value of the enumerator. -/
def ClientEventOpt.code : ClientEventOpt → EventOpt
  | .startCall => 0
  | .finish => 1
  | .read => 2
  | .write => 3
  | .writeDone => 4

/-- The enumerator that a `switch` finds; another value goes to its default branch. -/
def ClientEventOpt.ofCode (opt : EventOpt) : Option ClientEventOpt :=
  [.startCall, .finish, .read, .write, .writeDone].find? fun o => o.code = opt

/-- The classes of calls: `GreetCall` and its like in the other clients, `ListenCall`, `SpeakCall` and `TalkCall`. -/
inductive CallKind where
  | unary
  | listen
  | speak
  | talk
  deriving DecidableEq, Repr

/-- An object of one of the classes; the unary ones have no field but `key`, and `ListenCall` has no `closed` and
    `canWrite`. `key` and `queue` are set by `prepareAsyncCall`. `registered`, the key that the object was added under,
    and `posted`, the operations so far, are history, and so is `finish` for a unary call. -/
structure Call where
  kind : CallKind := .unary
  key : Option EventKey := none
  queue : Option Int := none
  finish : Bool := false
  closed : Bool := false
  canWrite : Semaphore.Shared := .init 1
  registered : EventKey := 0
  posted : List ClientEventOpt := []

/-- An operation on a completion queue. Which object posted which operation is history. -/
structure Op where
  queue : Int
  token : BitVec 64
  call : Nat
  kind : CallKind
  opt : ClientEventOpt
  deriving DecidableEq

/-- What the threads share. The object of a number that is not `created` yet is as its constructor makes it. -/
structure Shared where
  handlerManager : EventHandlerManager Nat := {}
  cqIdx : BitVec 32 := 0
  call : Nat → Call := fun _ => {}
  created : Nat := 0
  inflight : List Op := []

/-! ### Handlers -/

/-- What `process` does, one step after the other. `unexpected` is the default branch. -/
inductive Instr where
  | post (opt : ClientEventOpt) (event : Event)
  | setFinish
  | setClosed
  | release
  | unexpected
  deriving DecidableEq

/-- `ListenCall::process` behind the test of the key. -/
def listenProcess (optOk : Bool) (event : Event) : List Instr :=
  match ClientEventOpt.ofCode event.getOpt with
  | some .startCall =>
    if optOk then [.post .read (event.setOpt ClientEventOpt.read.code)] else [.setFinish]
  | some .read =>
    if optOk then [.post .read event] else [.post .finish (event.setOpt ClientEventOpt.finish.code)]
  | some .finish => [.setFinish]
  | _ => [.unexpected]

/-- `SpeakCall::process` behind the test of the key. -/
def speakProcess (event : Event) : List Instr :=
  match ClientEventOpt.ofCode event.getOpt with
  | some .startCall => [.release]
  | some .write => [.release]
  | some .writeDone => [.setClosed]
  | some .finish => [.setFinish]
  | _ => [.unexpected]

/-- `TalkCall::process` behind the test of the key. -/
def talkProcess (optOk : Bool) (event : Event) : List Instr :=
  match ClientEventOpt.ofCode event.getOpt with
  | some .startCall =>
    if optOk then [.post .read (event.setOpt ClientEventOpt.read.code), .release] else [.setFinish, .release]
  | some .read =>
    if optOk then [.post .read event] else [.post .finish (event.setOpt ClientEventOpt.finish.code)]
  | some .write => [.release]
  | some .writeDone => [.setClosed]
  | some .finish => [.setFinish]
  | none => [.unexpected]

/-- `process`, where `none` is the exception for a wrong key. -/
def Call.process (x : Call) (optOk : Bool) (event : Event) : Option (List Instr) :=
  match x.kind with
  | .unary => some [.setFinish]
  | .listen => if x.key ≠ some event.getKey then none else some (listenProcess optOk event)
  | .speak => if x.key ≠ some event.getKey then none else some (speakProcess event)
  | .talk => if x.key ≠ some event.getKey then none else some (talkProcess optOk event)

/-- `isComplete`. -/
def Call.isComplete (x : Call) : Bool :=
  match x.kind with
  | .unary => true
  | .listen => x.finish
  | .speak | .talk => x.finish && x.closed

/-- What `start` posts, and `greet` and its like after `StartCall`. -/
def startPosts : CallKind → List ClientEventOpt
  | .unary => [.finish]
  | .listen => [.startCall]
  | .speak => [.startCall, .finish]
  | .talk => [.startCall]

/-- `start` waits for `canWrite` first. -/
def CallKind.writes : CallKind → Bool
  | .speak | .talk => true
  | .unary | .listen => false

/-! ### Threads -/

/-- The user of a call: `prepareAsyncCall`, `start`, then any number of `write` and at most one `close`. At `acquire`
    it is in `canWrite.acquire()`, at `post` it posts operations. -/
inductive UserPc where
  | add (kind : CallKind)
  | prepare (c : Nat) (kind : CallKind) (key : EventKey)
  | acquire (c : Nat) (kind : CallKind) (p : Semaphore.Pc) (posts : List ClientEventOpt)
  | post (c : Nat) (kind : CallKind) (posts : List ClientEventOpt)
  | idle (c : Nat) (kind : CallKind)
  | finished
  -- `add` threw.
  | failed
  deriving DecidableEq

/-- `asyncCompleteRpc`. At `run` it is in `process`, which has `todo` left, and at `release` in `canWrite.release()`. -/
inductive PollerPc where
  | next
  | timeout
  | left
  | contains (o : Op) (optOk : Bool)
  | notExist
  | get (o : Op) (optOk : Bool)
  | process (c : Nat) (o : Op) (optOk : Bool)
  | run (c : Nat) (key : EventKey) (todo : List Instr)
  | release (c : Nat) (key : EventKey) (p : Semaphore.Pc) (todo : List Instr)
  | remove (c : Nat) (key : EventKey)
  -- An exception has left `get` or `process`.
  | raised
  deriving DecidableEq

/-- A thread of the client. -/
inductive Thread where
  | user (p : UserPc)
  | poller (queue : Nat) (p : PollerPc)
  deriving DecidableEq

/-- What a step gets from outside: the calls of a user, the result of `AsyncNext`, and the choices of a semaphore. -/
inductive Choice where
  | go
  | write
  | close
  | completed (j : Nat) (ok : Bool)
  | timeout
  | sem (x : Semaphore.Choice)
  deriving DecidableEq

/-- What a step does to the shared state. -/
inductive Act where
  | look
  | register (kind : CallKind) (key : EventKey) (manager : EventHandlerManager Nat)
  | prepare (c : Nat) (key : EventKey) (queue : Int)
  | post (o : Op)
  | complete (j : Nat)
  | sem (c : Nat) (a : Semaphore.Act)
  | setFinish (c : Nat)
  | setClosed (c : Nat)
  | remove (key : EventKey)

/-- A change of one object. -/
def Shared.modify (s : Shared) (c : Nat) (f : Call → Call) : Shared :=
  { s with call := Function.update s.call c (f (s.call c)) }

/-- The shared state after the action. -/
def Act.apply (a : Act) (s : Shared) : Shared :=
  match a with
  | .look => s
  | .register kind key manager =>
    { s.modify s.created fun _ => { kind, registered := key } with
      handlerManager := manager
      created := s.created + 1 }
  | .prepare c key queue =>
    { s.modify c fun x => { x with key := some key, queue := some queue } with cqIdx := s.cqIdx + 1 }
  | .post o =>
    { s.modify o.call fun x => { x with posted := x.posted ++ [o.opt] } with inflight := s.inflight ++ [o] }
  | .complete j => { s with inflight := s.inflight.eraseIdx j }
  | .sem c a => s.modify c fun x => { x with canWrite := a.apply x.canWrite }
  | .setFinish c => s.modify c fun x => { x with finish := true }
  | .setClosed c => s.modify c fun x => { x with closed := true }
  | .remove key => { s with handlerManager := s.handlerManager.remove key }

/-- The operation `opt` of the object `c`, posted with the token of `event` on the queue that the object is bound to. -/
def Shared.op (s : Shared) (c : Nat) (opt : ClientEventOpt) (event : Event) : Op :=
  ⟨(s.call c).queue.getD 0, event.getToken, c, (s.call c).kind, opt⟩

/-- Where a user goes on when the operations are posted. -/
def UserPc.afterPost (c : Nat) (kind : CallKind) (opt : ClientEventOpt) : List ClientEventOpt → UserPc
  | [] => if kind.writes && opt != .writeDone then .idle c kind else .finished
  | posts => .post c kind posts

/-- `acquire` returns to the operation behind it. -/
def UserPc.afterAcquire (c : Nat) (kind : CallKind) (posts : List ClientEventOpt) : Semaphore.Pc → UserPc
  | .acquireReturns => .post c kind posts
  | p => .acquire c kind p posts

/-- A step of a user; `cqs[cqIdx++ % threadPoolSize]` with the remainder of C++, which has the sign of `cqIdx`. -/
def UserPc.step (threadPoolSize : Nat) (s : Shared) : UserPc → Choice → Option (Act × UserPc)
  | .add kind, .go =>
    match s.handlerManager.add s.created with
    | none => some (.look, .failed)
    | some (key, manager) => some (.register kind key manager, .prepare s.created kind key)
  | .prepare c kind key, .go =>
    some (.prepare c key (s.cqIdx.toInt.tmod threadPoolSize),
      if kind.writes then .acquire c kind .acquireLoad (startPosts kind) else .post c kind (startPosts kind))
  | .acquire c kind p posts, .sem x =>
    (p.step 1 (s.call c).canWrite x).map fun (a, p') => (.sem c a, UserPc.afterAcquire c kind posts p')
  | .post c kind (opt :: posts), .go =>
    some (.post (s.op c opt ((Event.ofKey ((s.call c).key.getD 0)).setOpt opt.code)), UserPc.afterPost c kind opt posts)
  | .idle c kind, .write => some (.look, .acquire c kind .acquireLoad [.write])
  | .idle c kind, .close => some (.look, .acquire c kind .acquireLoad [.writeDone])
  | _, _ => none

/-- A step of `asyncCompleteRpc` on the queue `i`. A posted operation completes once, at any time, in any order. -/
def PollerPc.step (i : Nat) (s : Shared) : PollerPc → Choice → Option (Act × PollerPc)
  | .next, .completed j ok =>
    match s.inflight[j]? with
    | some o => if o.queue = i then some (.complete j, .contains o ok) else none
    | none => none
  | .next, .timeout => some (.look, .timeout)
  | .timeout, .go => some (.look, if s.handlerManager.count = 0 then .left else .next)
  | .contains o ok, .go =>
    some (.look, if s.handlerManager.contains (Event.ofToken o.token).getKey then .get o ok else .notExist)
  | .notExist, .go => some (.look, .next)
  | .get o ok, .go =>
    match s.handlerManager.get (Event.ofToken o.token).getKey with
    | some c => some (.look, .process c o ok)
    | none => some (.look, .raised)
  | .process c o ok, .go =>
    match (s.call c).process ok (Event.ofToken o.token) with
    | some todo => some (.look, .run c (Event.ofToken o.token).getKey todo)
    | none => some (.look, .raised)
  | .run c key (.post opt event :: todo), .go => some (.post (s.op c opt event), .run c key todo)
  | .run c key (.setFinish :: todo), .go => some (.setFinish c, .run c key todo)
  | .run c key (.setClosed :: todo), .go => some (.setClosed c, .run c key todo)
  | .run c key (.release :: todo), .go => some (.look, .release c key .releaseLoad todo)
  | .run c key (.unexpected :: todo), .go => some (.look, .run c key todo)
  | .run c key [], .go => some (.look, if (s.call c).isComplete then .remove c key else .next)
  | .release c key (.releaseReturns true) todo, .go => some (.look, .run c key todo)
  | .release c key (.releaseReturns false) todo, .go => some (.look, .release c key .releaseLoad todo)
  | .release c key p todo, .sem x =>
    (p.step 1 (s.call c).canWrite x).map fun (a, p') => (.sem c a, .release c key p' todo)
  | .remove _ key, .go => some (.remove key, .next)
  | _, _ => none

/-- A step of a thread. -/
def Thread.step (threadPoolSize : Nat) (s : Shared) (t : Thread) (x : Choice) : Option (Act × Thread) :=
  match t with
  | .user p => (p.step threadPoolSize s x).map fun (a, p') => (a, .user p')
  | .poller i p => (p.step i s x).map fun (a, p') => (a, .poller i p')

/-- The client: calls of any kind come in at any time. -/
def clientProactor (threadPoolSize : Nat) : Machine Shared Thread Choice Act CallKind where
  step := Thread.step threadPoolSize
  apply := Act.apply
  enter := fun kind => some (.user (.add kind))
  halted := fun _ => false

/-- The shared state and the threads of the client. -/
abbrev State := Config Shared Thread

/-- After `startThreadPool`: one thread per queue. -/
def start (threadPoolSize : Nat) : State := ⟨{}, (List.range threadPoolSize).map fun i => .poller i .next⟩

/-- The states of all runs. -/
def Reachable (threadPoolSize : Nat) : State → Prop := Reach (clientProactor threadPoolSize) .any (start threadPoolSize)

end HelloWorld.Client
