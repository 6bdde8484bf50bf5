import CppProgramming.HelloWorld.HandlerProtocol

/-! # The unary methods, blocking and event by event

The services of the synchronous server return the answer of a unary call. The handlers of the asynchronous server send
theirs with `Finish`, and for the methods that greet again they send the text of the plain greeting. -/

namespace HelloWorld.Server

/-! ### The blocking services -/

namespace HelloServiceImpl

/-- `HelloServiceImpl::sayHello`. -/
def sayHello (request : Request) : String × Status :=
  ("Hello, " ++ request.firstname ++ " " ++ request.lastname, .ok)

/-- `HelloServiceImpl::sayHelloAgain`. -/
def sayHelloAgain (request : Request) : String × Status :=
  ("Hello again, " ++ request.firstname ++ " " ++ request.lastname, .ok)

end HelloServiceImpl

namespace GoodbyeServiceImpl

/-- `GoodbyeServiceImpl::sayGoodbye`. -/
def sayGoodbye (request : Request) : String × Status :=
  ("Goodbye, " ++ request.firstname ++ " " ++ request.lastname, .ok)

/-- `GoodbyeServiceImpl::sayGoodbyeAgain`. -/
def sayGoodbyeAgain (request : Request) : String × Status :=
  ("Goodbye again, " ++ request.firstname ++ " " ++ request.lastname, .ok)

end GoodbyeServiceImpl

/-- `ChatServiceImpl::greet`. -/
def ChatServiceImpl.greet (_request : Request) : String × Status := ("Me too!", .ok)

/-- The services of the synchronous server: the text and the status that a unary method returns. -/
def syncCall : Method → Request → Option (String × Status)
  | .sayHello, request => some (HelloServiceImpl.sayHello request)
  | .sayHelloAgain, request => some (HelloServiceImpl.sayHelloAgain request)
  | .sayGoodbye, request => some (GoodbyeServiceImpl.sayGoodbye request)
  | .sayGoodbyeAgain, request => some (GoodbyeServiceImpl.sayGoodbyeAgain request)
  | .greet, request => some (ChatServiceImpl.greet request)
  | .listen, _ | .speak, _ | .talk, _ => none

variable {method : Method} {request : Request} {answer : String × Status}

theorem isUnary_of_syncCall (h : syncCall method request = some answer) : method.isUnary = true := by
  cases method <;> first | rfl | cases h

/-- A greeting with "again" in it is longer. -/
theorem again_ne {greeting again : String} (hlonger : greeting.length < again.length) :
    greeting ++ request.firstname ++ " " ++ request.lastname ≠ again ++ request.firstname ++ " " ++ request.lastname := by
  intro heq
  have hlength := congrArg String.length heq
  simp only [String.length_append] at hlength
  omega

/-- For the same request the two servers have the same text, but for the methods that greet again. -/
theorem reply_eq_syncCall_iff (h : syncCall method request = some answer) :
    method.reply request = some answer.1 ↔ method ≠ .sayHelloAgain ∧ method ≠ .sayGoodbyeAgain := by
  cases method with
  | sayHello | sayGoodbye | greet =>
    cases h
    exact ⟨fun _ => by decide, fun _ => rfl⟩
  | sayHelloAgain | sayGoodbyeAgain =>
    cases h
    refine ⟨fun heq => absurd (Option.some.inj heq) (again_ne (by decide)), ?_⟩
    simp
  | listen | speak | talk => cases h

theorem ok_of_syncCall (h : syncCall method request = some answer) : answer.2 = .ok := by
  cases method <;> cases h <;> rfl

/-! ### The handlers -/

theorem Session.Awaits.deliver_isSome {s : Session} {operation : Operation} (ok : Bool) (message : Request)
    (h : s.Awaits method operation) : ∃ s', s.deliver ⟨0, ok, message⟩ = some s' := by
  unfold Session.deliver
  rw [h.outstanding]
  exact ⟨_, rfl⟩

/-- A unary call with its request, and `Finish` completes with any result. -/
theorem unary_run {response : String} (cq : Nat) (key : EventKey) (finished : Bool) (message : Request)
    (hunary : method.isUnary = true) (hreply : method.reply request = some response) :
    ∃ s, (Session.start method cq key).run [⟨0, true, request⟩, ⟨0, finished, message⟩] = some s ∧
      s.rpc.posted = [.request, .finish (some response) .ok] := by
  have hstart := Session.awaits_start method cq key
  obtain ⟨s, hs⟩ := hstart.deliver_isSome true request
  have hrequest : (Session.start method cq key).rpc.handler.received .request true request = request := by
    cases method <;> first | rfl | cases hunary
  have hhandler : ((Session.start method cq key).rpc.complete .request true request).handler.method.reply
      ((Session.start method cq key).rpc.complete .request true request).handler.request = some response := by
    rw [← hreply]
    exact congrArg _ hrequest
  have hprocess := congrFun (congrFun (EventHandler.process_reply hhandler) true) ⟨key, ServerEventOpt.receive.code⟩
  have hpost := hstart.deliver_post hs hprocess (fun _ => rfl) rfl
  have hserves : s.Awaits method (.finish (some response) .ok) := by
    rw [hpost]
    exact hstart.afterPost rfl rfl rfl (by simp)
  obtain ⟨s', hs'⟩ := hserves.deliver_isSome finished message
  have hreplies : (s.rpc.complete (.finish (some response) .ok) finished message).handler.method.isUnary = true := by
    rw [← hunary]
    exact congrArg _ hserves.method
  obtain ⟨response', hreply'⟩ := Method.reply_of_isUnary
    (s.rpc.complete (.finish (some response) .ok) finished message).handler.request hreplies
  have hprocess' := congrFun (congrFun (EventHandler.process_reply hreply') finished)
    ⟨s.rpc.key, ServerEventOpt.finish.code⟩
  refine ⟨s', ?_, ?_⟩
  · rw [Session.run, List.foldlM_cons, hs]
    exact (bind_pure _).trans hs'
  · rw [hserves.deliver_finish hs' hprocess' (fun _ => rfl) rfl, Session.afterFinish, hpost]
    rfl

/-- With its request and with `FINISH` a handler of a unary method sends what the synchronous service returns, unless the
    method greets again. -/
theorem unary_answer_iff (method : Method) (cq : Nat) (key : EventKey) (request message : Request) (finished : Bool)
    (answer : String × Status) (h : syncCall method request = some answer) :
    (∃ s, (Session.start method cq key).run [⟨0, true, request⟩, ⟨0, finished, message⟩] = some s ∧
      s.rpc.posted = [.request, .finish (some answer.1) answer.2]) ↔
        method ≠ .sayHelloAgain ∧ method ≠ .sayGoodbyeAgain := by
  rw [← reply_eq_syncCall_iff h, ok_of_syncCall h]
  have hunary := isUnary_of_syncCall h
  obtain ⟨response, hreply⟩ := Method.reply_of_isUnary request hunary
  obtain ⟨s, hrun, hposted⟩ := unary_run cq key finished message hunary hreply
  rw [hreply]
  constructor
  · rintro ⟨s', hrun', hposted'⟩
    cases hrun.symm.trans hrun'
    rw [hposted] at hposted'
    simp only [List.cons.injEq, Operation.finish.injEq, and_true, true_and] at hposted'
    exact hposted'
  · intro heq
    rw [heq] at hposted
    exact ⟨s, hrun, hposted⟩

theorem unary_answer_iff_sayHello : syncCall .sayHello { firstname := "Ada", lastname := "L" } = some ("Hello, Ada L", .ok) ∧
    ∃ s, (Session.start .sayHello 0 1).run [⟨0, true, { firstname := "Ada", lastname := "L" }⟩, ⟨0, true, {}⟩] = some s ∧
      s.rpc.posted = [.request, .finish (some "Hello, Ada L") .ok] := by
  refine ⟨by decide, ?_⟩
  exact (unary_answer_iff .sayHello 0 1 { firstname := "Ada", lastname := "L" } {} true ("Hello, Ada L", .ok)
    (by decide)).mpr (by decide)

/-- A client that asks to be greeted again gets two different answers. -/
theorem sayHelloAgain_differs : ∃ s, (Session.start .sayHelloAgain 0 1).run
      [⟨0, true, { firstname := "Ada", lastname := "L" }⟩, ⟨0, true, {}⟩] = some s ∧
    s.rpc.posted = [.request, .finish (some "Hello, Ada L") .ok] ∧
    syncCall .sayHelloAgain { firstname := "Ada", lastname := "L" } = some ("Hello again, Ada L", .ok) := by
  refine ⟨_, rfl, ?_, ?_⟩
  · decide
  · decide

end HelloWorld.Server
