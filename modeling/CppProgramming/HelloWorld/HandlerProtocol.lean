import CppProgramming.HelloWorld.ChatStreaming

/-! # The protocol of the handlers other than the one of talk

Each of them posts its operations one by one and sets the operation in the token before it posts, so it is never called
with a token that it does not expect. The handler of a listen call is also over when a `Write` is not ok. -/

namespace HelloWorld.Server

/-- What the handler of a method with one answer makes of a request; `none` for the streaming methods. -/
def Method.reply (method : Method) (request : Request) : Option String :=
  match method with
  | .sayHello | .sayHelloAgain => some ("Hello, " ++ request.firstname ++ " " ++ request.lastname)
  | .sayGoodbye | .sayGoodbyeAgain => some ("Goodbye, " ++ request.firstname ++ " " ++ request.lastname)
  | .greet => some "Me too!"
  | .listen | .speak | .talk => none

/-- The operations that `process` has a branch for. -/
def Method.operations : Method → List ServerEventOpt
  | .listen => [.receive, .write, .finish]
  | .speak => [.receive, .read, .finish]
  | .talk => [.receive, .read, .write, .finish]
  | _ => [.receive, .finish]

/-- What a `Write` sends. -/
def Operation.content : Operation → Option String
  | .write content => some content
  | _ => none

/-- What a handler has written, or is about to. -/
def Rpc.written (r : Rpc) : List String := r.posted.filterMap Operation.content

/-- One operation at a time, up to the end of the call; its token names it and `process` has a branch for it; `Finish`
    comes once and at the end; the responses of a listen call are written in order; and the handler stays registered as
    long as it has an operation outstanding. -/
structure Session.OneByOne (s : Session) : Prop where
  single : s.outstanding.length = if s.rpc.handler.isComplete then 0 else 1
  named : ∀ p ∈ s.outstanding, (Event.ofToken p.token).getKey = s.rpc.key ∧
    (Event.ofToken p.token).getOpt = p.operation.opt.code
  expected : ∀ p ∈ s.outstanding, ∀ ok message,
    .unexpected ∉ ((s.rpc.complete p.operation ok message).handler.process ok (Event.ofToken p.token)).2
  finishOnce : s.rpc.posted.countP Operation.isFinish ≤ 1
  finishLast : s.rpc.posted.Pairwise fun o _ => o.isFinish = false
  written : s.rpc.handler.method = .listen → s.rpc.written <+: ["aaa", "bbb", "ccc"]
  removed : s.registered = false ↔ s.outstanding = []

variable {s s' : Session} {method : Method} {operation next : Operation} {handler : EventHandler} {r : Result}
  {posted : List Operation} {last : Operation} {response : String} {key : EventKey} {opt : ServerEventOpt} {ok : Bool}

theorem FinishAtEnd.nothing_after (h : FinishAtEnd posted last) : posted.Pairwise fun o _ => o.isFinish = false := by
  obtain ⟨earlier, rfl, hearlier⟩ := h
  rw [List.pairwise_append]
  refine ⟨?_, List.pairwise_singleton .., fun o ho _ _ => hearlier o ho⟩
  exact List.Pairwise.imp_of_mem (fun ho _ _ => hearlier _ ho) (List.pairwise_of_forall fun _ _ => trivial)

/-- The handlers with one answer have one `process`. -/
theorem EventHandler.process_reply {h : EventHandler} (hreply : h.method.reply h.request = some response) :
    h.process = unaryProcess response h := by
  unfold Method.reply at hreply
  unfold EventHandler.process
  cases hm : h.method <;> rw [hm] at hreply <;> cases hreply <;> rfl

theorem EventHandler.process_expected {h : EventHandler} (htalk : h.method ≠ .talk) (hopt : opt ∈ h.method.operations) :
    .unexpected ∉ (h.process ok ⟨key, opt.code⟩).2 := by
  unfold EventHandler.process
  have hcode : (Event.mk key opt.code).getOpt = opt.code := rfl
  cases hm : h.method <;> rw [hm] at hopt htalk <;>
    simp only [Method.operations, List.mem_cons, List.not_mem_nil, or_false] at hopt
  case talk => exact absurd rfl htalk
  case listen =>
    rcases hopt with rfl | rfl | rfl <;> cases ok <;> simp [ChatListenEventHandler.process, hcode, writeFront]
    split <;> simp
  case speak =>
    rcases hopt with rfl | rfl | rfl <;> cases ok <;> simp [ChatSpeakEventHandler.process, hcode]
  all_goals
    rcases hopt with rfl | rfl <;> cases ok <;>
      simp [HelloEventHandler.process, HelloAgainEventHandler.process, GoodbyeEventHandler.process,
        GoodbyeAgainEventHandler.process, ChatGreetEventHandler.process, unaryProcess, hcode]

/-! ### A handler from one operation to the next -/

/-- What a listen call has written and has still queued, while it waits for `operation`. -/
def Session.Listening (s : Session) (operation : Operation) : Prop :=
  s.rpc.written ++ s.rpc.handler.responses = if operation = .request then [] else ["aaa", "bbb", "ccc"]

/-- The call goes on. -/
structure Session.Serves (s : Session) (method : Method) (operation : Operation) : Prop where
  awaits : s.Awaits method operation
  expected : operation.opt ∈ method.operations
  listening : method = .listen → s.Listening operation

/-- The call is over; its last operation need not be `Finish`. -/
structure Session.Over (s : Session) (m : Method) : Prop where
  method : s.rpc.handler.method = m
  finish : s.rpc.handler.finish = true
  registered : s.registered = false
  outstanding : s.outstanding = []
  posted : ∃ last, FinishAtEnd s.rpc.posted last
  written : m = .listen → s.rpc.written <+: ["aaa", "bbb", "ccc"]

/-- The call goes on, or it is over. -/
def Session.On (s : Session) (method : Method) : Prop := (∃ operation, s.Serves method operation) ∨ s.Over method

theorem Session.Listening.written (h : s.Listening operation) : s.rpc.written <+: ["aaa", "bbb", "ccc"] := by
  unfold Session.Listening at h
  split at h
  · rw [(List.append_eq_nil_iff.mp h).1]
    exact List.nil_prefix
  · exact ⟨_, h⟩

theorem Session.Serves.oneByOne (h : s.Serves method operation) (hmethod : method ≠ .talk) : s.OneByOne := by
  have hout := h.awaits.outstanding
  have hmem : ∀ p ∈ s.outstanding, p = ⟨operation, (Event.mk s.rpc.key operation.opt.code).getToken⟩ := by
    intro p hp
    rw [hout] at hp
    exact List.mem_singleton.mp hp
  refine ⟨?_, ?_, ?_, h.awaits.posted.once, h.awaits.posted.nothing_after, ?_, ?_⟩
  · rw [hout, EventHandler.isComplete, h.awaits.finish]
    rfl
  · intro p hp
    rw [hmem p hp, Event.ofToken_getToken]
    exact ⟨rfl, rfl⟩
  · intro p hp ok message
    rw [hmem p hp, Event.ofToken_getToken]
    have hhandler : (s.rpc.complete operation ok message).handler.method = method := h.awaits.method
    exact EventHandler.process_expected (hhandler ▸ hmethod) (hhandler ▸ h.expected)
  · intro hlisten
    exact (h.listening (h.awaits.method ▸ hlisten)).written
  · rw [h.awaits.registered, hout]
    simp

theorem Session.Over.oneByOne (h : s.Over method) : s.OneByOne := by
  obtain ⟨last, hlast⟩ := h.posted
  have hno : ∀ {p : Pending} {q : Prop}, p ∈ s.outstanding → q := by
    intro p q hp
    rw [h.outstanding] at hp
    cases hp
  refine ⟨?_, fun p hp => hno hp, fun p hp => hno hp, hlast.once, hlast.nothing_after,
    fun hlisten => h.written (h.method ▸ hlisten), ?_⟩
  · rw [h.outstanding, EventHandler.isComplete, h.finish]
    rfl
  · rw [h.outstanding]
    exact ⟨fun _ => rfl, fun _ => h.registered⟩

/-- `process` has posted `next`. -/
theorem Session.Serves.post (h : s.Serves method operation) (hmethod : handler.method = method)
    (hfinish : handler.finish = false) (hoperation : operation.isFinish = false)
    (hok : (operation, ok) ≠ (.request, false)) (hnext : next.opt ∈ method.operations)
    (hlisten : method = .listen →
      (s.afterPost operation ok handler next ⟨s.rpc.key, next.opt.code⟩).Listening next) :
    (s.afterPost operation ok handler next ⟨s.rpc.key, next.opt.code⟩).On method :=
  Or.inl ⟨next, h.awaits.afterPost hmethod hfinish hoperation hok, hnext, hlisten⟩

/-- `process` has set `finish`. -/
theorem Session.Serves.finish (h : s.Serves method operation) (hmethod : handler.method = method)
    (hfinish : handler.finish = true) : (s.afterFinish operation ok handler).On method :=
  Or.inr ⟨hmethod, hfinish, rfl, rfl, ⟨operation, h.awaits.posted⟩, fun hlisten => (h.listening hlisten).written⟩

theorem Session.serves_start (method : Method) (cq : Nat) (key : EventKey) :
    (Session.start method cq key).Serves method .request := by
  refine ⟨Session.awaits_start method cq key, ?_, fun _ => rfl⟩
  cases method <;> decide

/-! ### Steps -/

/-- The methods with a handler that answers with one `Finish`. -/
def Method.isUnary : Method → Bool
  | .listen | .speak | .talk => false
  | _ => true

theorem Method.operations_of_isUnary (h : method.isUnary = true) : method.operations = [.receive, .finish] := by
  cases method <;> first | rfl | cases h

theorem Method.reply_of_isUnary (request : Request) (h : method.isUnary = true) :
    ∃ response, method.reply request = some response := by
  cases method <;> first | exact ⟨_, rfl⟩ | cases h

theorem Session.Serves.deliver_unary (h : s.Serves method operation) (hunary : method.isUnary = true)
    (hd : s.deliver r = some s') : s'.On method := by
  obtain ⟨index, ok, message⟩ := r
  have hmethod : (s.rpc.complete operation ok message).handler.method = method := h.awaits.method
  have hno : method ≠ .listen := by
    rintro rfl
    cases hunary
  obtain ⟨response, hreply⟩ := Method.reply_of_isUnary (s.rpc.complete operation ok message).handler.request hunary
  rw [← hmethod] at hreply
  have hprocess := congrFun (congrFun (EventHandler.process_reply hreply) ok) ⟨s.rpc.key, operation.opt.code⟩
  have hexpected := h.expected
  rw [Method.operations_of_isUnary hunary] at hexpected
  cases operation with
  | request =>
    cases ok with
    | true =>
      rw [h.awaits.deliver_post hd hprocess (fun _ => rfl) h.awaits.finish]
      refine h.post hmethod h.awaits.finish rfl (by simp) ?_ fun hlisten => absurd hlisten hno
      rw [Method.operations_of_isUnary hunary]
      exact List.mem_cons_of_mem _ (List.mem_singleton_self _)
    | false =>
      rw [h.awaits.deliver_finish hd hprocess (fun _ => rfl) rfl]
      exact h.finish hmethod rfl
  | finish response status =>
    have hs' : s' = s.afterFinish _ _ _ := h.awaits.deliver_finish hd hprocess (fun _ => rfl) rfl
    rw [hs']
    exact h.finish hmethod rfl
  | read | write content => exact absurd hexpected (by simp [Operation.opt])

theorem Session.Serves.deliver_speak (h : s.Serves .speak operation) (hd : s.deliver r = some s') : s'.On .speak := by
  obtain ⟨index, ok, message⟩ := r
  have hmethod : (s.rpc.complete operation ok message).handler.method = .speak := h.awaits.method
  have hno : Method.speak = .listen → ∀ {p : Prop}, p := by
    intro hlisten
    cases hlisten
  cases operation with
  | request =>
    cases ok with
    | true =>
      rw [h.awaits.deliver_post hd h.awaits.process_eq (fun _ => rfl) h.awaits.finish]
      exact h.post rfl h.awaits.finish rfl (by simp) (by decide) fun hlisten => hno hlisten
    | false =>
      rw [h.awaits.deliver_finish hd h.awaits.process_eq (fun _ => rfl) rfl]
      exact h.finish rfl rfl
  | read =>
    cases ok with
    | true =>
      rw [h.awaits.deliver_post hd h.awaits.process_eq (fun _ => rfl) h.awaits.finish]
      exact h.post rfl h.awaits.finish rfl (by simp) (by decide) fun hlisten => hno hlisten
    | false =>
      rw [h.awaits.deliver_post hd h.awaits.process_eq (fun _ => rfl) h.awaits.finish]
      exact h.post rfl h.awaits.finish rfl (by simp) (by decide) fun hlisten => hno hlisten
  | finish response status =>
    have hs' : s' = s.afterFinish _ _ _ := h.awaits.deliver_finish hd h.awaits.process_eq (fun _ => rfl) rfl
    rw [hs']
    exact h.finish rfl rfl
  | write content => exact absurd h.expected (by simp [Operation.opt, Method.operations])

/-- A listen call goes on with a `Write` of the next response. -/
theorem Session.Serves.post_front {content : String} {responses : List String} (h : s.Serves .listen operation)
    (hmethod : handler.method = .listen) (hfinish : handler.finish = false) (hoperation : operation.isFinish = false)
    (hok : (operation, ok) ≠ (.request, false)) (hresponses : handler.responses = responses)
    (hall : s.rpc.written ++ content :: responses = ["aaa", "bbb", "ccc"]) :
    (s.afterPost operation ok handler (.write content) ⟨s.rpc.key, ServerEventOpt.write.code⟩).On .listen := by
  refine h.post hmethod hfinish hoperation hok (by simp [Operation.opt, Method.operations]) fun _ => ?_
  have hwritten : (s.rpc.posted ++ [Operation.write content]).filterMap Operation.content = s.rpc.written ++ [content] :=
    List.filterMap_append ..
  rw [Session.Listening, if_neg (by simp), ← hall, Rpc.written, Session.afterPost, hwritten, hresponses, List.append_assoc,
    List.singleton_append]

theorem Session.Serves.deliver_listen (h : s.Serves .listen operation) (hd : s.deliver r = some s') : s'.On .listen := by
  obtain ⟨index, ok, message⟩ := r
  have hmethod : (s.rpc.complete operation ok message).handler.method = .listen := h.awaits.method
  have hlistening := h.listening rfl
  cases operation with
  | request =>
    obtain ⟨hwritten, hresponses⟩ := List.append_eq_nil_iff.mp hlistening
    cases ok with
    | true =>
      rw [h.awaits.deliver_post hd (ChatListenEventHandler.process_receive s.rpc.key hmethod hresponses) (fun _ => rfl)
        h.awaits.finish]
      refine h.post_front h.awaits.method h.awaits.finish rfl (by simp) rfl ?_
      rw [hwritten]
      rfl
    | false =>
      rw [h.awaits.deliver_finish hd h.awaits.process_eq (fun _ => rfl) rfl]
      exact h.finish rfl rfl
  | write content =>
    cases ok with
    | true =>
      cases hresponses : s.rpc.handler.responses with
      | nil =>
        rw [h.awaits.deliver_post hd (ChatListenEventHandler.process_write_nil s.rpc.key hmethod hresponses) (fun _ => rfl)
          h.awaits.finish]
        refine h.post hmethod h.awaits.finish rfl (by simp) (by decide) fun _ => ?_
        have hwritten : (s.rpc.posted ++ [Operation.finish none .ok]).filterMap Operation.content =
            s.rpc.written ++ [] := List.filterMap_append ..
        have hqueue : (s.rpc.complete (.write content) true message).handler.responses = [] := hresponses
        rw [Session.Listening, hresponses, if_neg (by simp)] at hlistening
        rw [Session.Listening, if_neg (by simp), Rpc.written, Session.afterPost, hwritten, hqueue, List.append_nil]
        exact hlistening
      | cons front responses =>
        rw [h.awaits.deliver_post hd (ChatListenEventHandler.process_write_cons s.rpc.key hmethod hresponses)
          (fun _ => rfl) h.awaits.finish]
        refine h.post_front h.awaits.method h.awaits.finish rfl (by simp) rfl ?_
        rw [← hresponses]
        exact hlistening
    | false =>
      rw [h.awaits.deliver_finish hd h.awaits.process_eq (fun _ => rfl) rfl]
      exact h.finish rfl rfl
  | finish response status =>
    have hs' : s' = s.afterFinish _ _ _ := h.awaits.deliver_finish hd h.awaits.process_eq (fun _ => rfl) rfl
    rw [hs']
    exact h.finish rfl rfl
  | read => exact absurd h.expected (by decide)

/-! ### Runs -/

theorem Session.On.deliver (h : s.On method) (hmethod : method ≠ .talk) (hd : s.deliver r = some s') : s'.On method := by
  rcases h with ⟨operation, h⟩ | h
  · cases method with
    | listen => exact h.deliver_listen hd
    | speak => exact h.deliver_speak hd
    | talk => exact absurd rfl hmethod
    | sayHello | sayHelloAgain | sayGoodbye | sayGoodbyeAgain | greet => exact h.deliver_unary rfl hd
  · unfold Session.deliver at hd
    rw [h.outstanding] at hd
    cases hd

theorem Session.on_run {cq : Nat} {results : List Result} (hmethod : method ≠ .talk)
    (h : (Session.start method cq key).run results = some s) : s.On method := by
  induction results using List.reverseRecOn generalizing s with
  | nil =>
    cases h
    exact Or.inl ⟨.request, Session.serves_start method cq key⟩
  | append_singleton results r ih =>
    rw [Session.run_concat] at h
    obtain ⟨s', hrun, hdeliver⟩ := Option.bind_eq_some_iff.mp h
    exact (ih hrun).deliver hmethod hdeliver

/-- The handlers other than the one of talk do one operation after the other, for all results in all states. -/
theorem handler_one_by_one (method : Method) (cq : Nat) (key : EventKey) (results : List Result) (s : Session)
    (hmethod : method ≠ .talk) (h : (Session.start method cq key).run results = some s) : s.OneByOne := by
  rcases Session.on_run hmethod h with ⟨operation, hserves⟩ | hover
  · exact hserves.oneByOne hmethod
  · exact hover.oneByOne

/-- The client of a call of `speak` sends a message and ends its stream. -/
theorem handler_one_by_one_speak : ∃ s, (Session.start .speak 0 1).run
      [⟨0, true, {}⟩, ⟨0, true, { content := "a" }⟩, ⟨0, false, {}⟩] = some s ∧
    s.rpc.posted = [.request, .read, .read, .finish (some "OK.") .ok] ∧ s.OneByOne := by
  refine ⟨_, rfl, rfl, ?_⟩
  exact handler_one_by_one .speak 0 1 [⟨0, true, {}⟩, ⟨0, true, { content := "a" }⟩, ⟨0, false, {}⟩] _ (by decide) rfl

end HelloWorld.Server
