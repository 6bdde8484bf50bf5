import CppProgramming.HelloWorld.ServerProactor

/-! # Steps of the server

What `process` answers to the result of an operation, and what a thread of the server may do, with what it found. -/

namespace HelloWorld.Server
open Interleaving

/-! ### Answers -/

/-- `process` begins with a new handler when a call has been received. -/
def renewal : ServerEventOpt → List Instr
  | .receive => [.renew]
  | _ => []

/-- What `process` may do with the result of an operation: post the next one, post `Finish` with the token of the
    `Write` that has failed, end the call, or nothing. -/
inductive Answer (h : EventHandler) (ok : Bool) (key : EventKey) (opt : ServerEventOpt) :
    EventHandler → List Instr → Prop
  | next {responses : List String} {operation : Operation} : operation ≠ .request → opt ≠ .finish →
      (opt = .receive → ok = true) →
      Answer h ok key opt { h with responses } (renewal opt ++ [Instr.post operation ⟨key, operation.opt.code⟩])
  | cancel : h.method = .talk → opt = .write → ok = false →
      Answer h ok key opt h [.post (.finish none .cancelled) ⟨key, opt.code⟩]
  | complete : Answer h ok key opt { h with finish := true } (renewal opt)
  | unexpected : opt ≠ .receive → Answer h ok key opt h [.unexpected]

section Answer
variable {h : EventHandler} {ok : Bool} {key : EventKey} {opt : ServerEventOpt}

theorem Answer.unary (response : String) : Answer h ok key opt (unaryProcess response h ok ⟨key, opt.code⟩).1
    (unaryProcess response h ok ⟨key, opt.code⟩).2 := by
  cases opt with
  | receive =>
    cases ok with
    | true => exact .next (by simp) (by decide) fun _ => rfl
    | false => exact .complete
  | finish => exact .complete
  | write | read => exact .unexpected (by decide)

theorem Answer.listen : Answer h ok key opt (ChatListenEventHandler.process h ok ⟨key, opt.code⟩).1
    (ChatListenEventHandler.process h ok ⟨key, opt.code⟩).2 := by
  cases opt with
  | receive =>
    cases ok with
    | true => exact .next (by simp) (by decide) fun _ => rfl
    | false => exact .complete
  | write =>
    cases ok with
    | true =>
      obtain ⟨method, cq, request, responses, finish⟩ := h
      cases responses with
      | nil => exact .next (by simp) (by decide) fun _ => rfl
      | cons content rest => exact .next (by simp) (by decide) fun _ => rfl
    | false => exact .complete
  | finish => exact .complete
  | read => exact .unexpected (by decide)

theorem Answer.speak : Answer h ok key opt (ChatSpeakEventHandler.process h ok ⟨key, opt.code⟩).1
    (ChatSpeakEventHandler.process h ok ⟨key, opt.code⟩).2 := by
  cases opt with
  | receive =>
    cases ok with
    | true => exact .next (by simp) (by decide) fun _ => rfl
    | false => exact .complete
  | read =>
    cases ok with
    | true => exact .next (by simp) (by decide) fun _ => rfl
    | false => exact .next (by simp) (by decide) (by decide)
  | finish => exact .complete
  | write => exact .unexpected (by decide)

theorem Answer.talk (hmethod : h.method = .talk) :
    Answer h ok key opt (ChatTalkEventHandler.process h ok ⟨key, opt.code⟩).1
      (ChatTalkEventHandler.process h ok ⟨key, opt.code⟩).2 := by
  cases opt with
  | receive =>
    cases ok with
    | true => exact .next (by simp) (by decide) fun _ => rfl
    | false => exact .complete
  | read =>
    cases ok with
    | true => exact .next (by simp) (by decide) fun _ => rfl
    | false => exact .next (by simp) (by decide) (by decide)
  | write =>
    cases ok with
    | true => exact .next (by simp) (by decide) fun _ => rfl
    | false => exact .cancel hmethod rfl rfl
  | finish => exact .complete

theorem EventHandler.process_cases (h : EventHandler) (ok : Bool) (key : EventKey) (opt : ServerEventOpt) :
    Answer h ok key opt (h.process ok ⟨key, opt.code⟩).1 (h.process ok ⟨key, opt.code⟩).2 := by
  obtain ⟨method, cq, request, responses, finish⟩ := h
  cases method with
  | sayHello | sayHelloAgain | sayGoodbye | sayGoodbyeAgain | greet => exact .unary _
  | listen => exact .listen
  | speak => exact .speak
  | talk => exact .talk rfl

end Answer

/-! ### Steps -/

/-- What a thread in `registerHandler` may do. -/
inductive RegisterStep (s : Shared) (method : Method) (cq : Nat) : RegisterPc → Act → Registering → Prop
  | stopped : s.stopped = true → RegisterStep s method cq .test .look .returned
  | test : s.stopped = false → RegisterStep s method cq .test .look (.at .add)
  | add {key : EventKey} {manager : EventHandlerManager Nat} : s.handlerManager.add s.created = some (key, manager) →
      RegisterStep s method cq .add (.register method cq key manager) (.at (.request s.created key))
  | full : RegisterStep s method cq .add .full .raised
  | request {c : Nat} {key : EventKey} :
      RegisterStep s method cq (.request c key) (.post (s.op c .request ⟨key, ServerEventOpt.receive.code⟩)) .returned

/-- What a thread in `demultiplex` may do. -/
inductive DemuxStep (cq : Nat) (s : Shared) : DemuxPc → Act → DemuxPc → Prop
  | start {p : RegisterPc} {method : Method} {rest : List Method} {a : Act} {r : Registering} :
      RegisterStep s method cq p a r → DemuxStep cq s (.start p method rest) a (.afterStart method rest r)
  | completed {j : Nat} {o : Op} {ok : Bool} {message : Request} : s.inflight[j]? = some o → o.queue = cq →
      DemuxStep cq s .next (.complete j o ok message) (.contains o ok)
  | timeout : DemuxStep cq s .next .look .timeout
  | shutdown : DemuxStep cq s .next .look .shutdown
  | leave : s.handlerManager.count = 0 → DemuxStep cq s .timeout .look .left
  | again : DemuxStep cq s .timeout .look .next
  | contains {o : Op} {ok : Bool} : DemuxStep cq s (.contains o ok) .look (.get o ok)
  | notExist {o : Op} {ok : Bool} : s.handlerManager.contains (Event.ofToken o.token).getKey = false →
      DemuxStep cq s (.contains o ok) .look .next
  | get {o : Op} {ok : Bool} {c : Nat} : s.handlerManager.get (Event.ofToken o.token).getKey = some c →
      DemuxStep cq s (.get o ok) .look (.process c o ok)
  | getRaises {o : Op} {ok : Bool} : s.handlerManager.get (Event.ofToken o.token).getKey = none →
      DemuxStep cq s (.get o ok) .look .raised
  | process {c : Nat} {o : Op} {ok : Bool} :
      DemuxStep cq s (.process c o ok) (.process c ((s.rpc c).handler.process ok (Event.ofToken o.token)).1)
        (.run c o ((s.rpc c).handler.process ok (Event.ofToken o.token)).2)
  | renew {c : Nat} {o : Op} {todo : List Instr} : DemuxStep cq s (.run c o (.renew :: todo)) .look (.renew .test c o todo)
  | post {c : Nat} {o : Op} {operation : Operation} {event : Event} {todo : List Instr} :
      DemuxStep cq s (.run c o (.post operation event :: todo)) (.post (s.op c operation event)) (.run c o todo)
  | unexpected {c : Nat} {o : Op} {todo : List Instr} :
      DemuxStep cq s (.run c o (.unexpected :: todo)) .look (.run c o todo)
  | complete {c : Nat} {o : Op} : (s.rpc c).handler.finish = true → DemuxStep cq s (.run c o []) .look (.remove c o)
  | incomplete {c : Nat} {o : Op} : DemuxStep cq s (.run c o []) .look .next
  | renewing {p : RegisterPc} {c : Nat} {o : Op} {todo : List Instr} {a : Act} {r : Registering} :
      RegisterStep s (s.rpc c).handler.method (s.rpc c).handler.cq p a r →
      DemuxStep cq s (.renew p c o todo) a (.afterRenew c o todo r)
  | remove {c : Nat} {o : Op} : DemuxStep cq s (.remove c o) (.remove (Event.ofToken o.token).getKey) .next

/-- What the thread that stops the server may do. -/
inductive StopStep : StopPc → Act → StopPc → Prop
  | stop : StopStep .stop .stop .shutdown
  | drain : StopStep .shutdown .drain (.queues 0)
  | shutdown {i : Nat} : StopStep (.queues i) (.shutdown i) (.queues (i + 1))
  | finished {i : Nat} : StopStep (.queues i) .look .finished

/-- What a thread may do. -/
inductive Step (s : Shared) : Thread → Act → Thread → Prop
  | take : Step s .waiting .take (.demultiplex s.cqIdx (.begin Method.all))
  | demux {cq : Nat} {p p' : DemuxPc} {a : Act} : DemuxStep cq s p a p' →
      Step s (.demultiplex cq p) a (.demultiplex cq p')
  | stop {p p' : StopPc} {a : Act} : StopStep p a p' → Step s (.stop p) a (.stop p')

section Inversion
variable {n : Nat} {s : Shared} {x : Choice} {a : Act}

theorem RegisterPc.step_cases (p : RegisterPc) (method : Method) (cq : Nat) :
    RegisterStep s method cq p (p.step s method cq).1 (p.step s method cq).2 := by
  cases p with
  | test =>
    cases hs : s.stopped with
    | true =>
      rw [RegisterPc.step, hs]
      exact .stopped hs
    | false =>
      rw [RegisterPc.step, hs]
      exact .test hs
  | add =>
    cases hadd : s.handlerManager.add s.created with
    | some entry =>
      obtain ⟨key, manager⟩ := entry
      simp only [RegisterPc.step, hadd]
      exact .add hadd
    | none =>
      simp only [RegisterPc.step, hadd]
      exact .full
  | request c key => exact .request

theorem DemuxPc.step_cases {cq : Nat} {p p' : DemuxPc} (h : p.step cq s x = some (a, p')) : DemuxStep cq s p a p' := by
  unfold DemuxPc.step at h
  split at h
  · cases h
    exact .start (RegisterPc.step_cases ..)
  · split at h
    · next hj =>
      split at h
      · next hq =>
        cases h
        exact .completed hj hq
      · cases h
    · cases h
  · cases h
    exact .timeout
  · split at h
    · cases h
      exact .shutdown
    · cases h
  · split at h
    · next hz =>
      cases h
      exact .leave hz
    · cases h
      exact .again
  · split at h
    · cases h
      exact .contains
    · next hc =>
      cases h
      exact .notExist (Bool.eq_false_of_not_eq_true hc)
  · split at h
    · next hc =>
      cases h
      exact .get hc
    · next hc =>
      cases h
      exact .getRaises hc
  · cases h
    exact .process
  · cases h
    exact .renew
  · cases h
    exact .post
  · cases h
    exact .unexpected
  · split at h
    · next hc =>
      cases h
      exact .complete hc
    · cases h
      exact .incomplete
  · cases h
    exact .renewing (RegisterPc.step_cases ..)
  · cases h
    exact .remove
  · cases h

theorem StopPc.step_cases {p p' : StopPc} (h : p.step n x = some (a, p')) : StopStep p a p' := by
  unfold StopPc.step at h
  split at h
  · cases h
    exact .stop
  · cases h
    exact .drain
  · split at h
    · cases h
      exact .shutdown
    · cases h
      exact .finished
  · cases h

theorem Thread.step_cases {t t' : Thread} (h : t.step n s x = some (a, t')) : Step s t a t' := by
  unfold Thread.step at h
  split at h
  · cases h
    exact .take
  · cases h
  · obtain ⟨⟨a, p'⟩, hp, heq⟩ := Option.map_eq_some_iff.mp h
    cases heq
    exact .demux (DemuxPc.step_cases hp)
  · obtain ⟨⟨a, p'⟩, hp, heq⟩ := Option.map_eq_some_iff.mp h
    cases heq
    exact .stop (StopPc.step_cases hp)

end Inversion

/-! ### Where an action comes from -/

section Origin
variable {s : Shared} {t t' : Thread} {a : Act} {cq : Nat} {key : EventKey}

theorem Step.add_of_register {method : Method} {manager : EventHandlerManager Nat}
    (h : Step s t (.register method cq key manager) t') : s.handlerManager.add s.created = some (key, manager) := by
  cases h with
  | stop h => cases h
  | demux h =>
    cases h with
    | start hr =>
      cases hr with
      | add hadd => exact hadd
    | renewing hr =>
      cases hr with
      | add hadd => exact hadd

theorem Step.of_remove (h : Step s t (.remove key) t') :
    ∃ cq c o, t = .demultiplex cq (.remove c o) ∧ key = (Event.ofToken o.token).getKey := by
  cases h with
  | stop h => cases h
  | demux h =>
    cases h with
    | start hr => cases hr
    | renewing hr => cases hr
    | remove => exact ⟨_, _, _, rfl, rfl⟩

theorem Step.of_process {c : Nat} {handler : EventHandler} (h : Step s t (.process c handler) t') :
    ∃ cq o ok, t = .demultiplex cq (.process c o ok) ∧
      handler = ((s.rpc c).handler.process ok (Event.ofToken o.token)).1 := by
  cases h with
  | stop h => cases h
  | demux h =>
    cases h with
    | start hr => cases hr
    | renewing hr => cases hr
    | process => exact ⟨_, _, _, rfl, rfl⟩

theorem Step.of_complete {j : Nat} {o : Op} {ok : Bool} {message : Request} (h : Step s t (.complete j o ok message) t') :
    s.inflight[j]? = some o ∧ ∃ cq, t' = .demultiplex cq (.contains o ok) := by
  cases h with
  | stop h => cases h
  | demux h =>
    cases h with
    | start hr => cases hr
    | renewing hr => cases hr
    | completed hj hq => exact ⟨hj, _, rfl⟩

theorem Step.of_shutdown (h : Step s t (.shutdown cq) t') :
    t = .stop (.queues cq) ∧ t' = .stop (.queues (cq + 1)) := by
  cases h with
  | stop h =>
    cases h with
    | shutdown => exact ⟨rfl, rfl⟩
  | demux h =>
    cases h with
    | start hr => cases hr
    | renewing hr => cases hr

theorem DemuxStep.cqIdx {p p' : DemuxPc} (h : DemuxStep cq s p a p') : (a.apply s).cqIdx = s.cqIdx := by
  cases h with
  | start hr => cases hr <;> rfl
  | renewing hr => cases hr <;> rfl
  | _ => rfl

/-- The flags of a stop are final. -/
theorem Act.flags (a : Act) (s : Shared) :
    (s.stopped = true → (a.apply s).stopped = true) ∧ (s.drained = true → (a.apply s).drained = true) := by
  cases a with
  | stop => exact ⟨fun _ => rfl, id⟩
  | drain => exact ⟨id, fun _ => rfl⟩
  | _ => exact ⟨id, id⟩

theorem rpc_register (method : Method) (cq : Nat) (key : EventKey) (manager : EventHandlerManager Nat) :
    ((Act.register method cq key manager).apply s).rpc s.created = { handler := { method, cq }, key } :=
  Function.update_self ..

end Origin

end HelloWorld.Server
