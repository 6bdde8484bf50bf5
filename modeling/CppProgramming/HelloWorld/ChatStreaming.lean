import CppProgramming.HelloWorld.Session

/-! # Chat streaming, blocking and event by event

`ChatServiceImpl` serves a streaming call in one function that blocks in `Read` and `Write`. The handlers of the
asynchronous server do the same from one completion to the next, and a client cannot tell the two apart. -/

namespace HelloWorld.Server

/-- What a call has sent to its client, and what it has left unread. -/
structure Outcome where
  written : List String
  response : Option String
  status : Status
  unread : List Request
  deriving DecidableEq

/-! ### The blocking service -/

namespace ChatServiceImpl

/-- `ChatServiceImpl::listen`. -/
def listen (_request : Request) : Outcome := ⟨["aaa", "bbb", "ccc"], none, .ok, []⟩

/-- The loop of `speak`: `Read` fails at the end of the stream. -/
def speakLoop : List Request → List Request
  | [] => []
  | _ :: incoming => speakLoop incoming

/-- `ChatServiceImpl::speak`. -/
def speak (incoming : List Request) : Outcome := ⟨[], some "OK.", .ok, speakLoop incoming⟩

/-- The loop of `talk`. -/
def talkLoop : List Request → List String → List String × List Request
  | [], written => (written, [])
  | request :: incoming, written => talkLoop incoming (written ++ [request.content])

/-- `ChatServiceImpl::talk`. -/
def talk (incoming : List Request) : Outcome :=
  let (written, unread) := talkLoop incoming []
  ⟨written, none, .ok, unread⟩

/-- A streaming call with the messages of its client; a client of `listen` sends one. -/
def serve : Method → List Request → Option Outcome
  | .listen, [request] => some (listen request)
  | .speak, incoming => some (speak incoming)
  | .talk, incoming => some (talk incoming)
  | _, _ => none

theorem speakLoop_eq (incoming : List Request) : speakLoop incoming = [] := by
  induction incoming with
  | nil => rfl
  | cons request incoming ih => exact ih

theorem talkLoop_eq (incoming : List Request) (written : List String) :
    talkLoop incoming written = (written ++ incoming.map Request.content, []) := by
  induction incoming generalizing written with
  | nil => simp [talkLoop]
  | cons request incoming ih => simp [talkLoop, ih]

end ChatServiceImpl

/-! ### The handlers with a client -/

/-- A handler, and the messages that its client has sent and the handler has not received. -/
structure Exchange where
  session : Session
  incoming : List Request

/-- What a `Write` has sent. -/
def Operation.sent : Operation × Bool → Option String
  | (.write content, true) => some content
  | _ => none

/-- What a `Finish` has sent. -/
def Operation.finished : Operation × Bool → Option (Option String × Status)
  | (.finish response status, true) => some (response, status)
  | _ => none

namespace Exchange

/-- An exchange with a client that sends `messages`. -/
def start (method : Method) (cq : Nat) (key : EventKey) (messages : List Request) : Exchange :=
  ⟨Session.start method cq key, messages⟩

/-- How an operation completes: a `Read` with the next message or, at the end of the stream, not ok, the others ok.
    `Requestlisten` has the request. -/
def result (e : Exchange) (operation : Operation) : Bool × Request × List Request :=
  match operation, e.incoming with
  | .read, message :: rest => (true, message, rest)
  | .read, [] => (false, {}, [])
  | .request, incoming =>
    if e.session.rpc.handler.method.receives then (true, incoming.headD {}, incoming.tail) else (true, {}, incoming)
  | _, incoming => (true, {}, incoming)

/-- One of the outstanding operations completes. -/
def complete (e : Exchange) (j : Nat) : Option Exchange :=
  match e.session.outstanding[j]? with
  | some p =>
    let (ok, message, incoming) := e.result p.operation
    (e.session.deliver ⟨j, ok, message⟩).map fun session => { session, incoming }
  | none => none

/-- The operations complete one after the other. -/
def run (e : Exchange) (moves : List Nat) : Option Exchange := moves.foldlM complete e

/-- What the client has got, once `Finish` has completed. -/
def outcome (e : Exchange) : Option Outcome :=
  (e.session.rpc.completed.findSome? Operation.finished).map fun (response, status) =>
    { written := e.session.rpc.completed.filterMap Operation.sent, response, status, unread := e.incoming }

theorem run_concat (e : Exchange) (moves : List Nat) (j : Nat) :
    e.run (moves ++ [j]) = (e.run moves).bind fun e' => e'.complete j := by
  rw [run, List.foldlM_append]
  cases h : moves.foldlM complete e <;> simp [run, h]

end Exchange

/-- Where a call is that has to give its client what the blocking service gives for `messages`: the operation that it
    waits for, the queued responses, what is still to be received, what has been sent, and how many operations are
    left. -/
inductive Course (messages : List Request) : Method → Operation → List String → List Request → List String → Nat → Prop
  | listenReceive {request : Request} : messages = [request] → Course messages .listen .request [] messages [] 5
  | listenWrite {request : Request} {content : String} {responses written : List String} : messages = [request] →
      written ++ content :: responses = ["aaa", "bbb", "ccc"] →
      Course messages .listen (.write content) responses [] written (responses.length + 2)
  | listenFinish {request : Request} : messages = [request] →
      Course messages .listen (.finish none .ok) [] [] ["aaa", "bbb", "ccc"] 1
  | speakReceive : Course messages .speak .request [] messages [] (messages.length + 3)
  | speakRead {incoming : List Request} : Course messages .speak .read [] incoming [] (incoming.length + 2)
  | speakFinish : Course messages .speak (.finish (some "OK.") .ok) [] [] [] 1
  | talkReceive : Course messages .talk .request [] messages [] (2 * messages.length + 3)
  | talkRead {incoming : List Request} {written : List String} :
      written ++ incoming.map Request.content = messages.map Request.content →
      Course messages .talk .read [] incoming written (2 * incoming.length + 2)
  | talkWrite {content : String} {incoming : List Request} {written : List String} :
      written ++ content :: incoming.map Request.content = messages.map Request.content →
      Course messages .talk (.write content) [] incoming written (2 * incoming.length + 3)
  | talkFinish : Course messages .talk (.finish none .ok) [] [] (messages.map Request.content) 1

/-- The call goes on, with `left` operations to complete. -/
def Exchange.Running (messages : List Request) (method : Method) (left : Nat) (e : Exchange) : Prop :=
  ∃ operation, e.session.Awaits method operation ∧
    Course messages method operation e.session.rpc.handler.responses e.incoming
      (e.session.rpc.completed.filterMap Operation.sent) left

/-- The call is over, and its client has got what the blocking service gives. -/
def Exchange.Over (messages : List Request) (method : Method) (e : Exchange) : Prop :=
  e.session.Ended ∧ e.outcome = ChatServiceImpl.serve method messages

section Step
variable {e e' : Exchange} {j : Nat} {messages : List Request} {method : Method} {left : Nat} {operation : Operation}

theorem Exchange.complete_of_awaits {ok : Bool} {message : Request} {incoming : List Request}
    (h : e.session.Awaits method operation) (hresult : e.result operation = (ok, message, incoming))
    (hc : e.complete j = some e') :
    ∃ session, e.session.deliver ⟨j, ok, message⟩ = some session ∧ e' = ⟨session, incoming⟩ := by
  unfold Exchange.complete at hc
  rw [h.outstanding] at hc
  cases j with
  | zero =>
    simp only [List.getElem?_cons_zero, hresult] at hc
    obtain ⟨session, hsession, heq⟩ := Option.map_eq_some_iff.mp hc
    exact ⟨session, hsession, heq.symm⟩
  | succ j => cases hc

theorem filterMap_sent_concat (completed : List (Operation × Bool)) (r : Operation × Bool) :
    (completed ++ [r]).filterMap Operation.sent = completed.filterMap Operation.sent ++ (Operation.sent r).toList := by
  cases h : Operation.sent r <;> simp [h]

/-- The next operation has been posted, and the call is where `Course` says. -/
theorem Exchange.running_of_post {ok : Bool} {message : Request} {incoming : List Request} {handler : EventHandler}
    {todo : List Instr} {next : Operation} {responses written : List String} (h : e.session.Awaits method operation)
    (hsent : e.session.rpc.completed.filterMap Operation.sent = written)
    (hresult : e.result operation = (ok, message, incoming)) (hc : e.complete j = some e')
    (hp : (e.session.rpc.complete operation ok message).handler.process ok
      ⟨e.session.rpc.key, operation.opt.code⟩ = (handler, todo))
    (htodo : ∀ x : Session, todo.foldl Session.exec x = x.exec (.post next ⟨e.session.rpc.key, next.opt.code⟩))
    (hmethod : handler.method = method) (hfinish : handler.finish = false) (hresponses : handler.responses = responses)
    (hoperation : operation.isFinish = false) (hok : (operation, ok) ≠ (.request, false))
    (hcourse : Course messages method next responses incoming (written ++ (Operation.sent (operation, ok)).toList) left) :
    e'.Running messages method left := by
  obtain ⟨session, hdeliver, rfl⟩ := Exchange.complete_of_awaits h hresult hc
  rw [h.deliver_post hdeliver hp htodo hfinish]
  refine ⟨next, h.afterPost hmethod hfinish hoperation hok, ?_⟩
  change Course messages method next handler.responses incoming
    ((e.session.rpc.completed ++ [(operation, ok)]).filterMap Operation.sent) left
  rw [filterMap_sent_concat, hsent, hresponses]
  exact hcourse

theorem EventHandler.process_finish (handler : EventHandler) (ok : Bool) (key : EventKey) :
    handler.process ok ⟨key, ServerEventOpt.finish.code⟩ = ({ handler with finish := true }, []) := by
  obtain ⟨method, cq, request, responses, finish⟩ := handler
  cases method <;> rfl

/-- `Finish` has completed, and the client has got the rest. -/
theorem Exchange.over_of_finish {response : Option String} {status : Status}
    (h : e.session.Awaits method (.finish response status)) (hc : e.complete j = some e')
    (hserve : ChatServiceImpl.serve method messages =
      some ⟨e.session.rpc.completed.filterMap Operation.sent, response, status, e.incoming⟩) :
    e'.Over messages method := by
  obtain ⟨session, hdeliver, rfl⟩ := Exchange.complete_of_awaits h rfl hc
  rw [h.deliver_finish hdeliver (EventHandler.process_finish ..) (fun _ => rfl) rfl]
  refine ⟨h.afterFinish rfl (Or.inl rfl), ?_⟩
  have hnone : e.session.rpc.completed.findSome? Operation.finished = none := by
    rw [List.findSome?_eq_none_iff]
    intro r hr
    obtain ⟨operation, ok⟩ := r
    cases operation with
    | finish response status => cases (h.completed _ hr).1
    | _ => rfl
  rw [hserve, Exchange.outcome, Session.afterFinish]
  simp [List.findSome?_append, hnone, Operation.finished, Operation.sent]

section Listen
variable {handler : EventHandler} (key : EventKey)

theorem ChatListenEventHandler.process_receive (hmethod : handler.method = .listen) (hresponses : handler.responses = []) :
    handler.process true ⟨key, ServerEventOpt.receive.code⟩ = ({ handler with responses := ["bbb", "ccc"] },
      [.renew, .post (.write "aaa") ⟨key, ServerEventOpt.write.code⟩]) := by
  obtain ⟨method, cq, request, responses, finish⟩ := handler
  subst hmethod hresponses
  rfl

theorem ChatListenEventHandler.process_write_nil (hmethod : handler.method = .listen)
    (hresponses : handler.responses = []) : handler.process true ⟨key, ServerEventOpt.write.code⟩ =
      (handler, [.post (.finish none .ok) ⟨key, ServerEventOpt.finish.code⟩]) := by
  obtain ⟨method, cq, request, responses, finish⟩ := handler
  subst hmethod hresponses
  rfl

theorem ChatListenEventHandler.process_write_cons {content : String} {rest : List String}
    (hmethod : handler.method = .listen) (hresponses : handler.responses = content :: rest) :
    handler.process true ⟨key, ServerEventOpt.write.code⟩ = ({ handler with responses := rest },
      [.post (.write content) ⟨key, ServerEventOpt.write.code⟩]) := by
  obtain ⟨method, cq, request, responses, finish⟩ := handler
  subst hmethod hresponses
  rfl

end Listen

/-- The call is one operation further, on its course or at its end. -/
def Exchange.Advances (messages : List Request) (method : Method) (left : Nat) (e : Exchange) : Prop :=
  ∃ left', left = left' + 1 ∧ (e.Running messages method left' ∨ left' = 0 ∧ e.Over messages method)

section Course
variable {responses written : List String} {incoming : List Request} {content : String}

theorem Exchange.result_read_nil (hincoming : e.incoming = []) : e.result .read = (false, {}, []) := by
  simp [Exchange.result, hincoming]

theorem Exchange.result_read_cons {message : Request} (hincoming : e.incoming = message :: incoming) :
    e.result .read = (true, message, incoming) := by
  simp [Exchange.result, hincoming]

theorem Exchange.result_write (hincoming : e.incoming = incoming) : e.result (.write content) = (true, {}, incoming) := by
  simp [Exchange.result, hincoming]

theorem Exchange.result_request (hmethod : e.session.rpc.handler.method.receives = false)
    (hincoming : e.incoming = incoming) : e.result .request = (true, {}, incoming) := by
  simp [Exchange.result, hmethod, hincoming]

theorem Exchange.advances_listen (h : e.session.Awaits .listen operation) (hc : e.complete j = some e')
    (hresponses : e.session.rpc.handler.responses = responses) (hincoming : e.incoming = incoming)
    (hsent : e.session.rpc.completed.filterMap Operation.sent = written)
    (hcourse : Course messages .listen operation responses incoming written left) :
    e'.Advances messages .listen left := by
  have hmethod : ∀ ok message, (e.session.rpc.complete operation ok message).handler.method = .listen :=
    fun _ _ => h.method
  cases hcourse with
  | listenReceive hmessages =>
    refine ⟨4, rfl, Or.inl ?_⟩
    have hresult : e.result .request = (true, messages.headD {}, []) := by
      simp [Exchange.result, h.method, Method.receives, hincoming, hmessages]
    exact Exchange.running_of_post h hsent hresult hc
      (ChatListenEventHandler.process_receive e.session.rpc.key (hmethod ..) hresponses) (fun _ => rfl) h.method h.finish
      rfl rfl (by simp) (.listenWrite hmessages rfl)
  | @listenWrite request content responses written hmessages hwritten =>
    refine ⟨responses.length + 1, rfl, Or.inl ?_⟩
    cases responses with
    | nil =>
      refine Exchange.running_of_post h hsent (Exchange.result_write hincoming) hc
        (ChatListenEventHandler.process_write_nil e.session.rpc.key (hmethod ..) hresponses) (fun _ => rfl) h.method
        h.finish hresponses rfl (by simp) ?_
      change Course messages .listen _ [] [] (written ++ [content]) 1
      rw [hwritten]
      exact .listenFinish hmessages
    | cons next rest =>
      refine Exchange.running_of_post h hsent (Exchange.result_write hincoming) hc
        (ChatListenEventHandler.process_write_cons e.session.rpc.key (hmethod ..) hresponses) (fun _ => rfl) h.method
        h.finish rfl rfl (by simp) (.listenWrite hmessages ?_)
      rw [List.append_assoc]
      exact hwritten
  | listenFinish hmessages =>
    refine ⟨0, rfl, Or.inr ⟨rfl, Exchange.over_of_finish h hc ?_⟩⟩
    rw [hsent, hincoming, hmessages]
    rfl

theorem Exchange.advances_speak (h : e.session.Awaits .speak operation) (hc : e.complete j = some e')
    (hresponses : e.session.rpc.handler.responses = responses) (hincoming : e.incoming = incoming)
    (hsent : e.session.rpc.completed.filterMap Operation.sent = written)
    (hcourse : Course messages .speak operation responses incoming written left) :
    e'.Advances messages .speak left := by
  cases hcourse with
  | speakReceive =>
    refine ⟨messages.length + 2, rfl, Or.inl ?_⟩
    exact Exchange.running_of_post h hsent (Exchange.result_request (by rw [h.method]; rfl) hincoming) hc h.process_eq
      (fun _ => rfl) rfl h.finish hresponses rfl (by simp) .speakRead
  | speakRead =>
    cases incoming with
    | nil =>
      refine ⟨1, rfl, Or.inl ?_⟩
      exact Exchange.running_of_post h hsent (Exchange.result_read_nil hincoming) hc h.process_eq (fun _ => rfl) rfl
        h.finish hresponses rfl (by simp) .speakFinish
    | cons message rest =>
      refine ⟨rest.length + 2, rfl, Or.inl ?_⟩
      exact Exchange.running_of_post h hsent (Exchange.result_read_cons hincoming) hc h.process_eq (fun _ => rfl) rfl
        h.finish hresponses rfl (by simp) .speakRead
  | speakFinish =>
    refine ⟨0, rfl, Or.inr ⟨rfl, Exchange.over_of_finish h hc ?_⟩⟩
    rw [hsent, hincoming, ChatServiceImpl.serve, ChatServiceImpl.speak, ChatServiceImpl.speakLoop_eq]

theorem Exchange.advances_talk (h : e.session.Awaits .talk operation) (hc : e.complete j = some e')
    (hresponses : e.session.rpc.handler.responses = responses) (hincoming : e.incoming = incoming)
    (hsent : e.session.rpc.completed.filterMap Operation.sent = written)
    (hcourse : Course messages .talk operation responses incoming written left) :
    e'.Advances messages .talk left := by
  cases hcourse with
  | talkReceive =>
    refine ⟨2 * messages.length + 2, rfl, Or.inl ?_⟩
    exact Exchange.running_of_post h hsent (Exchange.result_request (by rw [h.method]; rfl) hincoming) hc h.process_eq
      (fun _ => rfl) rfl h.finish hresponses rfl (by simp) (.talkRead (List.nil_append _))
  | talkRead hwritten =>
    have hsame : written ++ (none : Option String).toList = written := List.append_nil _
    cases incoming with
    | nil =>
      refine ⟨1, rfl, Or.inl ?_⟩
      refine Exchange.running_of_post h hsent (Exchange.result_read_nil hincoming) hc h.process_eq (fun _ => rfl) rfl
        h.finish hresponses rfl (by simp) ?_
      exact hwritten ▸ .talkFinish
    | cons message rest =>
      refine ⟨2 * rest.length + 3, rfl, Or.inl ?_⟩
      refine Exchange.running_of_post h hsent (Exchange.result_read_cons hincoming) hc h.process_eq (fun _ => rfl) rfl
        h.finish hresponses rfl (by simp) (.talkWrite ?_)
      exact hsame.symm ▸ hwritten
  | @talkWrite content incoming written hwritten =>
    refine ⟨2 * incoming.length + 2, rfl, Or.inl ?_⟩
    refine Exchange.running_of_post h hsent (Exchange.result_write hincoming) hc h.process_eq (fun _ => rfl) rfl
      h.finish hresponses rfl (by simp) (.talkRead ?_)
    rw [List.append_assoc]
    exact hwritten
  | talkFinish =>
    refine ⟨0, rfl, Or.inr ⟨rfl, Exchange.over_of_finish h hc ?_⟩⟩
    rw [hsent, hincoming, ChatServiceImpl.serve, ChatServiceImpl.talk, ChatServiceImpl.talkLoop_eq]
    rfl

end Course

/-- A step of a call that goes on. -/
theorem Exchange.Running.complete (hrunning : e.Running messages method left) (hc : e.complete j = some e') :
    e'.Advances messages method left := by
  obtain ⟨operation, h, hcourse⟩ := hrunning
  cases method with
  | listen => exact Exchange.advances_listen h hc rfl rfl rfl hcourse
  | speak => exact Exchange.advances_speak h hc rfl rfl rfl hcourse
  | talk => exact Exchange.advances_talk h hc rfl rfl rfl hcourse
  | _ => cases hcourse

/-- A call that goes on has an operation that can complete. -/
theorem Exchange.Running.progress (h : e.Running messages method left) : ∃ e', e.complete 0 = some e' := by
  obtain ⟨operation, hawaits, -⟩ := h
  simp [Exchange.complete, Session.deliver, hawaits.outstanding]

theorem Exchange.Over.stuck (h : e.Over messages method) (j : Nat) : e.complete j = none := by
  simp [Exchange.complete, h.1.outstanding]

theorem Exchange.Running.finishes (h : e.Running messages method left) :
    ∃ more e', e.run more = some e' ∧ e'.Over messages method := by
  induction left generalizing e with
  | zero =>
    obtain ⟨e', hc⟩ := h.progress
    obtain ⟨left, hleft, -⟩ := h.complete hc
    cases hleft
  | succ left ih =>
    obtain ⟨e', hc⟩ := h.progress
    have hcons : ∀ more, e.run (0 :: more) = e'.run more := fun more => by
      rw [Exchange.run, List.foldlM_cons, hc]
      rfl
    obtain ⟨left', hleft, hrunning | ⟨-, hover⟩⟩ := h.complete hc
    · cases hleft
      obtain ⟨more, e'', hrun, hover⟩ := ih hrunning
      exact ⟨0 :: more, e'', (hcons more).trans hrun, hover⟩
    · exact ⟨[0], e', hcons [], hover⟩

end Step

section Run
variable {method : Method} {messages : List Request} {out : Outcome} {e : Exchange}

theorem Exchange.running_start (cq : Nat) (key : EventKey) (h : ChatServiceImpl.serve method messages = some out) :
    ∃ left ≤ 2 * messages.length + 3, (Exchange.start method cq key messages).Running messages method left := by
  unfold ChatServiceImpl.serve at h
  split at h
  · exact ⟨5, by simp, .request, Session.awaits_start .listen cq key, .listenReceive rfl⟩
  · exact ⟨messages.length + 3, by omega, .request, Session.awaits_start .speak cq key, .speakReceive⟩
  · exact ⟨2 * messages.length + 3, le_refl _, .request, Session.awaits_start .talk cq key, .talkReceive⟩
  · cases h

/-- Every run of a call is on its course, or has come to its end. -/
theorem Exchange.run_cases {e₀ : Exchange} {left : Nat} {moves : List Nat} (h₀ : e₀.Running messages method left)
    (h : e₀.run moves = some e) :
    ∃ left', moves.length + left' = left ∧
      (e.Running messages method left' ∨ left' = 0 ∧ e.Over messages method) := by
  induction moves using List.reverseRecOn generalizing e with
  | nil =>
    cases h
    exact ⟨left, by simp, Or.inl h₀⟩
  | append_singleton moves j ih =>
    rw [Exchange.run_concat] at h
    obtain ⟨e', hrun, hc⟩ := Option.bind_eq_some_iff.mp h
    obtain ⟨left', hleft, hrunning | ⟨-, hover⟩⟩ := ih hrun
    · obtain ⟨left'', rfl, hnext⟩ := hrunning.complete hc
      refine ⟨left'', ?_, hnext⟩
      rw [List.length_append, List.length_singleton]
      omega
    · cases (hover.stuck j).symm.trans hc

theorem serve_unread (h : ChatServiceImpl.serve method messages = some out) : out.unread = [] := by
  unfold ChatServiceImpl.serve at h
  split at h
  · cases h
    rfl
  · cases h
    exact ChatServiceImpl.speakLoop_eq messages
  · cases h
    rw [ChatServiceImpl.talk, ChatServiceImpl.talkLoop_eq]
  · cases h

theorem Exchange.Over.outcome_eq (h : e.Over messages method) (hserve : ChatServiceImpl.serve method messages = some out) :
    e.outcome = some out ∧ e.incoming = [] := by
  have houtcome := h.2.trans hserve
  refine ⟨houtcome, ?_⟩
  obtain ⟨f, -, heq⟩ := Option.map_eq_some_iff.mp houtcome
  have hunread := serve_unread hserve
  rw [← heq] at hunread
  exact hunread

end Run

/-- For every streaming call with the messages of its client, in every run of its handler, whichever of the outstanding
    operations completes next: the run is finite and leads on to the end, the handler is complete when nothing is
    outstanding any more and not before, and then its client has got what the blocking service gives, and all its
    messages have been received. -/
theorem async_chat_agrees (method : Method) (messages : List Request) (out : Outcome)
    (hserve : ChatServiceImpl.serve method messages = some out) (cq : Nat) (key : EventKey) (moves : List Nat)
    (e : Exchange) (h : (Exchange.start method cq key messages).run moves = some e) :
    moves.length ≤ 2 * messages.length + 3 ∧
    (∃ more e', e.run more = some e' ∧ e'.session.rpc.handler.isComplete = true) ∧
    (e.session.rpc.handler.isComplete = true ↔ ∀ j, e.complete j = none) ∧
    (e.session.rpc.handler.isComplete = true → e.outcome = some out ∧ e.incoming = []) := by
  obtain ⟨left, hbound, hstart⟩ := Exchange.running_start cq key hserve
  obtain ⟨left', hleft, hrunning | ⟨-, hover⟩⟩ := Exchange.run_cases hstart h
  · obtain ⟨more, e', hrun, hover⟩ := hrunning.finishes
    have hopen : e.session.rpc.handler.isComplete ≠ true := by
      obtain ⟨operation, hawaits, -⟩ := hrunning
      intro hcomplete
      cases hawaits.finish.symm.trans hcomplete
    refine ⟨by omega, ⟨more, e', hrun, hover.1.finish⟩, ⟨fun hcomplete => absurd hcomplete hopen, fun hstuck => ?_⟩,
      fun hcomplete => absurd hcomplete hopen⟩
    obtain ⟨e', hc⟩ := hrunning.progress
    cases (hstuck 0).symm.trans hc
  · exact ⟨by omega, ⟨[], e, rfl, hover.1.finish⟩, ⟨fun _ => hover.stuck, fun _ => hover.1.finish⟩,
      fun _ => hover.outcome_eq hserve⟩

/-- Two messages that are echoed. -/
theorem async_chat_agrees_echo : ∃ e,
    (Exchange.start .talk 0 1 [{ content := "a" }, { content := "b" }]).run [0, 0, 0, 0, 0, 0, 0] = some e ∧
    e.outcome = some ⟨["a", "b"], none, .ok, []⟩ ∧ e.incoming = [] := by
  have hserve : ChatServiceImpl.serve .talk [{ content := "a" }, { content := "b" }] =
      some ⟨["a", "b"], none, .ok, []⟩ := rfl
  refine ⟨_, rfl, ?_⟩
  exact (async_chat_agrees .talk _ _ hserve 0 1 [0, 0, 0, 0, 0, 0, 0] _ rfl).2.2.2 rfl

end HelloWorld.Server
