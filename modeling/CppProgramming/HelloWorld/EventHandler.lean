import CppProgramming.HelloWorld.Event

/-! # The handlers of the asynchronous server

A handler of the server serves one call of one method: it is created with a `Request…` operation outstanding, and
`process` gets the result of each of its operations and posts the next one. The state of a call is in the token. -/

namespace HelloWorld.Server

/-- `SERVER_EVENT_OPT`: what is posted with a token. -/
inductive ServerEventOpt where
  | receive
  | finish
  | write
  | read
  deriving DecidableEq, Repr

/-- The value of the enumerator. -/
def ServerEventOpt.code : ServerEventOpt → EventOpt
  | .receive => 1
  | .finish => 2
  | .write => 3
  | .read => 4

/-- The enumerator that a `switch` finds; another value goes to its default branch. -/
def ServerEventOpt.ofCode (opt : EventOpt) : Option ServerEventOpt :=
  [.receive, .finish, .write, .read].find? fun o => o.code = opt

@[simp] theorem ServerEventOpt.ofCode_code (opt : ServerEventOpt) : ofCode opt.code = some opt := by
  cases opt <;> decide

theorem ServerEventOpt.code_inj {opt opt' : ServerEventOpt} (h : opt.code = opt'.code) : opt = opt' := by
  rw [← Option.some_inj, ← ofCode_code, h, ofCode_code]

/-- The methods of the three services, with one class of handlers each. -/
inductive Method where
  | sayHello
  | sayHelloAgain
  | sayGoodbye
  | sayGoodbyeAgain
  | greet
  | listen
  | speak
  | talk
  deriving DecidableEq, Repr

/-- `grpc::Status`. -/
inductive Status where
  | ok
  | cancelled
  deriving DecidableEq, Repr

/-- The messages of the clients: `HelloRequest` and `GoodbyeRequest` have `firstname` and `lastname`, `ClientWords` has
    `content`. Timestamps are left out. -/
structure Request where
  firstname : String := ""
  lastname : String := ""
  content : String := ""
  deriving DecidableEq, Repr

/-- What a handler posts: `Request…`, `Read`, `Write`, or `Finish` with the response of a method that sends one only. -/
inductive Operation where
  | request
  | read
  | write (content : String)
  | finish (response : Option String) (status : Status)
  deriving DecidableEq, Repr

/-- The option that the operation is posted with. -/
def Operation.opt : Operation → ServerEventOpt
  | .request => .receive
  | .read => .read
  | .write _ => .write
  | .finish _ _ => .finish

/-- The operation ends the call. -/
def Operation.isFinish : Operation → Bool
  | .finish _ _ => true
  | _ => false

/-- A handler object; `responses` is a field of `ChatListenEventHandler` only. -/
structure EventHandler where
  method : Method
  cq : Nat
  request : Request := {}
  responses : List String := []
  finish : Bool := false
  deriving DecidableEq, Repr

/-- What `process` does, one step after the other: `new` of a handler of its own class for the next call, the next
    operation, or the message of a default branch. -/
inductive Instr where
  | renew
  | post (operation : Operation) (event : Event)
  | unexpected
  deriving DecidableEq

/-- `process` of a handler that answers with one `Finish`. -/
def unaryProcess (response : String) (h : EventHandler) (optOk : Bool) (event : Event) : EventHandler × List Instr :=
  match ServerEventOpt.ofCode event.getOpt with
  | some .receive =>
    if optOk then (h, [.renew, .post (.finish (some response) .ok) (event.setOpt ServerEventOpt.finish.code)])
    else ({ h with finish := true }, [.renew])
  | some .finish => ({ h with finish := true }, [])
  | _ => (h, [.unexpected])

/-- `HelloEventHandler::process`. -/
def HelloEventHandler.process (h : EventHandler) : Bool → Event → EventHandler × List Instr :=
  unaryProcess ("Hello, " ++ h.request.firstname ++ " " ++ h.request.lastname) h

/-- `HelloAgainEventHandler::process`. -/
def HelloAgainEventHandler.process (h : EventHandler) : Bool → Event → EventHandler × List Instr :=
  unaryProcess ("Hello, " ++ h.request.firstname ++ " " ++ h.request.lastname) h

/-- `GoodbyeEventHandler::process`. -/
def GoodbyeEventHandler.process (h : EventHandler) : Bool → Event → EventHandler × List Instr :=
  unaryProcess ("Goodbye, " ++ h.request.firstname ++ " " ++ h.request.lastname) h

/-- `GoodbyeAgainEventHandler::process`. -/
def GoodbyeAgainEventHandler.process (h : EventHandler) : Bool → Event → EventHandler × List Instr :=
  unaryProcess ("Goodbye, " ++ h.request.firstname ++ " " ++ h.request.lastname) h

/-- `ChatGreetEventHandler::process`. -/
def ChatGreetEventHandler.process (h : EventHandler) : Bool → Event → EventHandler × List Instr :=
  unaryProcess "Me too!" h

/-- `Write(responses.front(), …)` and `responses.pop()`. -/
def writeFront (h : EventHandler) (event : Event) : EventHandler × List Instr :=
  ({ h with responses := h.responses.tail },
    [.post (.write (h.responses.headD "")) (event.setOpt ServerEventOpt.write.code)])

/-- `ChatListenEventHandler::process`. -/
def ChatListenEventHandler.process (h : EventHandler) (optOk : Bool) (event : Event) : EventHandler × List Instr :=
  match ServerEventOpt.ofCode event.getOpt with
  | some .receive =>
    if optOk then
      let (h', todo) := writeFront { h with responses := h.responses ++ ["aaa", "bbb", "ccc"] } event
      (h', .renew :: todo)
    else ({ h with finish := true }, [.renew])
  | some .write =>
    if optOk then
      if h.responses.isEmpty then (h, [.post (.finish none .ok) (event.setOpt ServerEventOpt.finish.code)])
      else writeFront h event
    else ({ h with finish := true }, [])
  | some .finish => ({ h with finish := true }, [])
  | _ => (h, [.unexpected])

/-- `ChatSpeakEventHandler::process`. -/
def ChatSpeakEventHandler.process (h : EventHandler) (optOk : Bool) (event : Event) : EventHandler × List Instr :=
  match ServerEventOpt.ofCode event.getOpt with
  | some .receive =>
    if optOk then (h, [.renew, .post .read (event.setOpt ServerEventOpt.read.code)])
    else ({ h with finish := true }, [.renew])
  | some .read =>
    if optOk then (h, [.post .read event])
    else (h, [.post (.finish (some "OK.") .ok) (event.setOpt ServerEventOpt.finish.code)])
  | some .finish => ({ h with finish := true }, [])
  | _ => (h, [.unexpected])

/-- A `Write` that is not ok leads to `Finish` with the token of the `Write`. -/
def ChatTalkEventHandler.process (h : EventHandler) (optOk : Bool) (event : Event) : EventHandler × List Instr :=
  match ServerEventOpt.ofCode event.getOpt with
  | some .receive =>
    if optOk then (h, [.renew, .post .read (event.setOpt ServerEventOpt.read.code)])
    else ({ h with finish := true }, [.renew])
  | some .read =>
    if optOk then (h, [.post (.write h.request.content) (event.setOpt ServerEventOpt.write.code)])
    else (h, [.post (.finish none .ok) (event.setOpt ServerEventOpt.finish.code)])
  | some .write =>
    if optOk then (h, [.post .read (event.setOpt ServerEventOpt.read.code)])
    else (h, [.post (.finish none .cancelled) event])
  | some .finish => ({ h with finish := true }, [])
  | none => ({ h with finish := true }, [.unexpected])

namespace EventHandler

/-- `process` of the class of the object. -/
def process (h : EventHandler) : Bool → Event → EventHandler × List Instr :=
  match h.method with
  | .sayHello => HelloEventHandler.process h
  | .sayHelloAgain => HelloAgainEventHandler.process h
  | .sayGoodbye => GoodbyeEventHandler.process h
  | .sayGoodbyeAgain => GoodbyeAgainEventHandler.process h
  | .greet => ChatGreetEventHandler.process h
  | .listen => ChatListenEventHandler.process h
  | .speak => ChatSpeakEventHandler.process h
  | .talk => ChatTalkEventHandler.process h

/-- `isComplete`. -/
def isComplete (h : EventHandler) : Bool := h.finish

end EventHandler

/-- A handler with the key it is registered under and the history of its call. -/
structure Rpc where
  handler : EventHandler
  key : EventKey := 0
  posted : List Operation := []
  completed : List (Operation × Bool) := []

/-- `Requestspeak` and `Requesttalk` bring no message. -/
def Method.receives : Method → Bool
  | .speak | .talk => false
  | _ => true

/-- What the handler has in `request` when an operation has completed. -/
def EventHandler.received (h : EventHandler) (operation : Operation) (ok : Bool) (message : Request) : Request :=
  match operation, ok with
  | .request, true => if h.method.receives then message else h.request
  | .read, true => message
  | _, _ => h.request

namespace Rpc

/-- The call after an operation has completed. -/
def complete (r : Rpc) (operation : Operation) (ok : Bool) (message : Request) : Rpc :=
  { r with
    handler := { r.handler with request := r.handler.received operation ok message }
    completed := r.completed ++ [(operation, ok)] }

/-- The call after an operation has been posted. -/
def post (r : Rpc) (operation : Operation) : Rpc := { r with posted := r.posted ++ [operation] }

end Rpc

end HelloWorld.Server
