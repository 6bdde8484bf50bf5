import CppProgramming.HelloWorld.CallLoad
import CppProgramming.HelloWorld.Conversation
import CppProgramming.HelloWorld.TalkProtocol

/-! # The asynchronous ends of a talk call

A `TalkCall` of the asynchronous client with the threads that work on it, its user and the poller of its queue, and the
session of the `ChatTalkEventHandler` at the other end. The functions of the semaphore are one step each here, and so are
a completed operation and its dispatch; `TalkView` finds the call among all threads and calls of `clientProactor`. -/

namespace HelloWorld.Talk
open Client (ClientEventOpt Call Instr)
open Server (Status Session Operation Pending)

/-! ### The client -/

/-- What the user does with a `TalkCall`. -/
inductive UserCall where
  | start
  | write (msg : String)
  | close
  deriving DecidableEq, Repr

namespace UserCall

/-- The operation behind `acquire`. -/
def opt : UserCall → ClientEventOpt
  | .start => .startCall
  | .write _ => .write
  | .close => .writeDone

/-- The content of the request. -/
def content : UserCall → String
  | .write msg => msg
  | _ => ""

end UserCall

/-- `talk`, then a `write` for each message and `close`. -/
def userCalls (messages : List String) : List UserCall := .start :: messages.map UserCall.write ++ [UserCall.close]

/-- An operation that has not completed. `content` is the one of the request of a `Write`. -/
structure Posted where
  opt : ClientEventOpt
  content : String
  token : BitVec 64
  deriving DecidableEq

/-- `asyncCompleteRpc` of the queue that the call is bound to. At `run` it is in `process`, which has `todo` left, and at
    `left` it is behind its loop. -/
inductive Poller where
  | next
  | left
  | run (todo : List Instr)
  -- An exception has left `process`.
  | raised
  deriving DecidableEq

/-- The call with its threads and its end of the connection. `status` is `none` when the library has made it up, `holds`
    says that the user is behind `acquire`, and `trailing` is the status that has come in. What has been logged of the
    responses and of the end, `printed` and `reported`, and what went over the connection, are history. -/
structure TalkCall where
  call : Call
  registered : Bool := true
  response : String := ""
  status : Option Status := some .ok
  outstanding : List Posted := []
  poller : Poller := .next
  user : List UserCall
  holds : Bool := false
  printed : List String := []
  reported : Bool := false
  broken : Bool := false
  shut : Bool := false
  trailing : Option Status := none
  sent : List Frame := []
  got : List Frame := []

namespace TalkCall

/-- After `prepareAsyncCall`; `polling` says whether the poller of the queue is still in its loop. -/
def start (polling : Bool) (key : EventKey) (queue : Int) (messages : List String) : TalkCall where
  call := { kind := .talk, key := some key, queue := some queue, registered := key }
  poller := if polling then .next else .left
  user := userCalls messages

/-- `canWrite.acquire()`, once there is a permit. -/
def acquire (c : TalkCall) : TalkCall :=
  { c with
    call := { c.call with canWrite := { c.call.canWrite with remaining := c.call.canWrite.remaining - 1 } }
    holds := true }

/-- `canWrite.release()` that returns true. -/
def release (c : TalkCall) : TalkCall :=
  { c with call := { c.call with canWrite := { c.call.canWrite with remaining := c.call.canWrite.remaining + 1 } } }

/-- An operation is posted with the token of `event`. -/
def post (c : TalkCall) (opt : ClientEventOpt) (content : String) (event : Event) : TalkCall :=
  { c with
    call := { c.call with posted := c.call.posted ++ [opt] }
    outstanding := c.outstanding ++ [⟨opt, content, event.getToken⟩] }

/-- The operation behind `acquire`. -/
def userPost (c : TalkCall) (u : UserCall) (rest : List UserCall) : TalkCall :=
  { c.post u.opt u.content ((Event.ofKey (c.call.key.getD 0)).setOpt u.opt.code) with user := rest, holds := false }

/-- What `process` logs at the information level. -/
def log (c : TalkCall) (optOk : Bool) (event : Event) : TalkCall :=
  match ClientEventOpt.ofCode event.getOpt with
  | some .read => if optOk then { c with printed := c.printed ++ [c.response] } else c
  | some .finish => if optOk && c.status == some .ok then { c with reported := true } else c
  | _ => c

/-- What the poller does with a token that it has taken. -/
def dispatch (c : TalkCall) (token : BitVec 64) (optOk : Bool) : TalkCall :=
  let event := Event.ofToken token
  if c.registered && event.getKey == c.call.registered then
    match c.call.process optOk event with
    | some todo => { c.log optOk event with poller := .run todo }
    | none => { c with poller := .raised }
  else c

/-- How an operation completes, with what arrives for it. Without a breakdown a `Read` fails only behind the last words,
    when the status has come in. -/
inductive Completes (c : TalkCall) : Posted → List Frame → Bool → TalkCall → Prop
  | startCall {o : Posted} : o.opt = .startCall → c.broken = false → c.shut = false →
      Completes c o [] true { c with sent := c.sent ++ [Frame.call] }
  | write {o : Posted} : o.opt = .write → c.broken = false → c.shut = false →
      Completes c o [] true { c with sent := c.sent ++ [Frame.words o.content] }
  | writeDone {o : Posted} : o.opt = .writeDone → c.broken = false → Completes c o [] true { c with shut := true }
  | read {o : Posted} (content : String) : o.opt = .read → c.broken = false → c.trailing = none →
      Completes c o [.words content] true { c with response := content, got := c.got ++ [Frame.words content] }
  | readEnd {o : Posted} : o.opt = .read → c.trailing.isSome = true → Completes c o [] false c
  | finish {o : Posted} (status : Status) : o.opt = .finish → c.trailing = some status →
      Completes c o [] true { c with status := some status }
  | fails {o : Posted} : c.broken = true → o.opt ≠ .finish → Completes c o [] false c
  | failsFinish {o : Posted} : c.broken = true → o.opt = .finish → Completes c o [] true { c with status := none }

/-- A step of `process`, when the call can do it. -/
def exec (c : TalkCall) (todo : List Instr) : Instr → Option TalkCall
  | .post opt event => some { c.post opt "" event with poller := .run todo }
  | .setFinish => some { c with call := { c.call with finish := true }, poller := .run todo }
  | .setClosed => some { c with call := { c.call with closed := true }, poller := .run todo }
  -- A `release` that returns false is done again.
  | .release => if c.call.canWrite.remaining < 1 then some { c.release with poller := .run todo } else none
  | .unexpected => some { c with poller := .run todo }

/-- A step of the call, with what arrives from the server. -/
inductive Step : TalkCall → List Frame → TalkCall → Prop
  | acquire {c : TalkCall} {u : UserCall} {rest : List UserCall} : c.user = u :: rest → c.holds = false →
      0 < c.call.canWrite.remaining → Step c [] c.acquire
  | post {c : TalkCall} {u : UserCall} {rest : List UserCall} : c.user = u :: rest → c.holds = true →
      Step c [] (c.userPost u rest)
  | complete {c c' : TalkCall} {j : Nat} {o : Posted} {d : List Frame} {ok : Bool} : c.poller = .next →
      c.outstanding[j]? = some o → c.Completes o d ok c' →
      Step c d ({ c' with outstanding := c.outstanding.eraseIdx j }.dispatch o.token ok)
  | exec {c c' : TalkCall} {i : Instr} {todo : List Instr} : c.poller = .run (i :: todo) → c.exec todo i = some c' →
      Step c [] c'
  -- `process` has returned.
  | next {c : TalkCall} : c.poller = .run [] →
      Step c [] { c with poller := .next, registered := c.registered && !c.call.isComplete }
  -- `AsyncNext` times out, and there is no handler in the table.
  | leaves {c : TalkCall} : c.poller = .next → c.registered = false → Step c [] { c with poller := .left }
  | trailing {c : TalkCall} (status : Status) : c.broken = false → c.trailing = none →
      Step c [.status status] { c with trailing := some status, got := c.got ++ [Frame.status status] }
  | breaks {c : TalkCall} : Step c [] { c with broken := true }

/-- The call for a user that writes `messages`; it is done when the user is and the poller has nothing left of it. -/
def clientEnd (polling : Bool) (key : EventKey) (queue : Int) (messages : List String) : ClientEnd where
  State := TalkCall
  start := start polling key queue messages
  Step c d e c' := Step c d c' ∧ e = false
  sent := sent
  got := got
  shut := shut
  ended _ := false
  broken := broken
  printed := printed
  reported := reported
  Finished c := c.user = [] ∧ (c.poller = .next ∨ c.poller = .left) ∧ c.outstanding = [] ∧ c.registered = false

end TalkCall

/-! ### The server -/

/-- The session of a handler with its end of the connection. `ended` says that a `Read` has come to the end of the
    client's words, and `shut` that the status has been sent. -/
structure TalkHandler where
  session : Session
  broken : Bool := false
  ended : Bool := false
  shut : Bool := false
  sent : List Frame := []
  got : List Frame := []

namespace TalkHandler

/-- After `registerHandler`. -/
def start (cq : Nat) (key : EventKey) : TalkHandler where
  session := Session.start .talk cq key

/-- How an operation completes, with what arrives for it, the message that it brings, and whether the client is known to
    have ended its words. -/
inductive Completes (h : TalkHandler) : Operation → List Frame → Bool → Bool → String → TalkHandler → Prop
  | request : h.broken = false → Completes h .request [.call] false true "" { h with got := h.got ++ [Frame.call] }
  | read (content : String) : h.broken = false →
      Completes h .read [.words content] false true content { h with got := h.got ++ [Frame.words content] }
  | readEnd : h.broken = false → Completes h .read [] true false "" { h with ended := true }
  | write (content : String) : h.broken = false → h.shut = false →
      Completes h (.write content) [] false true "" { h with sent := h.sent ++ [Frame.words content] }
  | finish (response : Option String) (status : Status) : h.broken = false → h.shut = false →
      Completes h (.finish response status) [] false true "" { h with sent := h.sent ++ [Frame.status status], shut := true }
  | fails {operation : Operation} : h.broken = true → Completes h operation [] false false "" h

/-- A step of the handler, with what arrives from the client. -/
inductive Step : TalkHandler → List Frame → Bool → TalkHandler → Prop
  | complete {h h' : TalkHandler} {j : Nat} {p : Pending} {d : List Frame} {e ok : Bool} {content : String}
      {session : Session} : h.session.outstanding[j]? = some p → h.Completes p.operation d e ok content h' →
      h.session.deliver ⟨j, ok, { content }⟩ = some session → Step h d e { h' with session }
  | breaks {h : TalkHandler} : Step h [] false { h with broken := true }

/-- The handler of a call; it is done when its session is. -/
def serverEnd (cq : Nat) (key : EventKey) : ServerEnd where
  State := TalkHandler
  start := start cq key
  Step := Step
  sent := sent
  got := got
  shut := shut
  ended := ended
  broken := broken
  Finished h := h.session.Ended ∧ h.session.registered = false

end TalkHandler

end HelloWorld.Talk
