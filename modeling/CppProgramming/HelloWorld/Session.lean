import CppProgramming.HelloWorld.EventHandler

/-! # One handler of the server

A handler by itself, with its operations and their results; handlers share nothing but the table that they are
registered in. A handler that goes on waits for the one operation that it has posted last. -/

namespace HelloWorld.Server

/-- An operation that has not completed. -/
structure Pending where
  operation : Operation
  token : BitVec 64
  deriving DecidableEq

/-- A handler with the operations that have not completed. -/
structure Session where
  rpc : Rpc
  registered : Bool
  outstanding : List Pending

/-- The result of one of the outstanding operations. -/
structure Result where
  index : Nat
  ok : Bool
  message : Request := {}

namespace Session

/-- After `registerHandler`. -/
def start (method : Method) (cq : Nat) (key : EventKey) : Session where
  rpc := { handler := { method, cq }, key, posted := [.request] }
  registered := true
  outstanding := [⟨.request, ((Event.ofKey key).setOpt ServerEventOpt.receive.code).getToken⟩]

/-- A step of `process`. The handler that `new` makes has a session of its own. -/
def exec (s : Session) : Instr → Session
  | .post operation event =>
    { s with rpc := s.rpc.post operation, outstanding := s.outstanding ++ [⟨operation, event.getToken⟩] }
  | .renew | .unexpected => s

/-- What `demultiplex` does with a token. -/
def dispatch (s : Session) (token : BitVec 64) (ok : Bool) : Session :=
  let event := Event.ofToken token
  if s.registered && event.getKey == s.rpc.key then
    let (handler, todo) := s.rpc.handler.process ok event
    let s' := todo.foldl exec { s with rpc := { s.rpc with handler } }
    { s' with registered := !s'.rpc.handler.isComplete }
  else s

/-- An operation completes; `none` when there is no such operation. -/
def deliver (s : Session) (r : Result) : Option Session :=
  match s.outstanding[r.index]? with
  | some p =>
    some (dispatch { s with
      rpc := s.rpc.complete p.operation r.ok r.message
      outstanding := s.outstanding.eraseIdx r.index } p.token r.ok)
  | none => none

/-- Results one after the other. -/
def run (s : Session) (results : List Result) : Option Session := results.foldlM deliver s

theorem run_concat (s : Session) (results : List Result) (r : Result) :
    s.run (results ++ [r]) = (s.run results).bind fun s' => s'.deliver r := by
  rw [run, List.foldlM_append]
  cases h : results.foldlM deliver s <;> simp [run, h]

end Session
/-! ### The protocol -/

/-- What a handler has to keep: one operation at a time, a token names the operation it was posted with, `Finish` comes
    once and no `Read` or `Write` after it, and the handler is complete when `Finish` or a failed `RECEIVE` has
    completed, and not before. -/
structure Session.FollowsProtocol (s : Session) : Prop where
  single : s.outstanding.length ≤ 1
  named : ∀ p ∈ s.outstanding, (Event.ofToken p.token).getOpt = p.operation.opt.code
  finishOnce : s.rpc.posted.countP Operation.isFinish ≤ 1
  finishLast : s.rpc.posted.Pairwise fun o o' => o.isFinish = true → o'.opt ≠ .read ∧ o'.opt ≠ .write
  complete : s.rpc.handler.isComplete = true ↔
    ∃ r ∈ s.rpc.completed, r.1.isFinish = true ∨ r = (.request, false)

/-! ### A handler that waits -/

/-- All operations but the last one that was posted are not `Finish`. -/
def FinishAtEnd (posted : List Operation) (last : Operation) : Prop :=
  ∃ earlier, posted = earlier ++ [last] ∧ ∀ o ∈ earlier, o.isFinish = false

/-- The call goes on, and waits for the operation that it has posted last. -/
structure Session.Awaits (s : Session) (method : Method) (operation : Operation) : Prop where
  method : s.rpc.handler.method = method
  registered : s.registered = true
  finish : s.rpc.handler.finish = false
  outstanding : s.outstanding = [⟨operation, (Event.mk s.rpc.key operation.opt.code).getToken⟩]
  posted : FinishAtEnd s.rpc.posted operation
  completed : ∀ r ∈ s.rpc.completed, r.1.isFinish = false ∧ r ≠ (.request, false)

/-- The call is over. -/
structure Session.Ended (s : Session) : Prop where
  finish : s.rpc.handler.finish = true
  outstanding : s.outstanding = []
  posted : ∃ last, FinishAtEnd s.rpc.posted last
  completed : ∃ r ∈ s.rpc.completed, r.1.isFinish = true ∨ r = (.request, false)

section Awaits
variable {s s' : Session} {posted : List Operation} {last operation next : Operation} {method : Method} {r : Result}
  {handler : EventHandler} {todo : List Instr}

theorem FinishAtEnd.once (h : FinishAtEnd posted last) : posted.countP Operation.isFinish ≤ 1 := by
  obtain ⟨earlier, rfl, hearlier⟩ := h
  have hzero : earlier.countP Operation.isFinish = 0 := by
    rw [List.countP_eq_zero]
    intro o ho
    rw [hearlier o ho]
    exact Bool.false_ne_true
  rw [List.countP_append, hzero, Nat.zero_add]
  exact List.countP_le_length

theorem FinishAtEnd.pairwise (h : FinishAtEnd posted last) :
    posted.Pairwise fun o o' => o.isFinish = true → o'.opt ≠ .read ∧ o'.opt ≠ .write := by
  obtain ⟨earlier, rfl, hearlier⟩ := h
  have hno : ∀ {o : Operation} {p : Prop}, o ∈ earlier → o.isFinish = true → p := fun ho hfinish => by
    cases (hearlier _ ho).symm.trans hfinish
  rw [List.pairwise_append]
  refine ⟨?_, List.pairwise_singleton .., fun o ho _ _ => hno ho⟩
  exact List.Pairwise.imp_of_mem (fun ho _ _ => hno ho) (List.pairwise_of_forall fun _ _ => trivial)

theorem FinishAtEnd.concat (h : FinishAtEnd posted last) (hlast : last.isFinish = false) (o : Operation) :
    FinishAtEnd (posted ++ [o]) o := by
  refine ⟨posted, rfl, ?_⟩
  obtain ⟨earlier, rfl, hearlier⟩ := h
  intro o' ho'
  rcases List.mem_append.mp ho' with ho' | ho'
  · exact hearlier o' ho'
  · cases List.mem_singleton.mp ho'
    exact hlast

theorem Session.Awaits.followsProtocol (h : s.Awaits method operation) : s.FollowsProtocol := by
  refine ⟨by rw [h.outstanding]; exact le_refl _, ?_, h.posted.once, h.posted.pairwise, ?_⟩
  · intro p hp
    rw [h.outstanding, List.mem_singleton] at hp
    rw [hp, Event.ofToken_getToken]
    rfl
  · constructor
    · intro hcomplete
      cases h.finish.symm.trans hcomplete
    · rintro ⟨r, hr, hfinish | hfailed⟩
      · cases (h.completed r hr).1.symm.trans hfinish
      · exact absurd hfailed (h.completed r hr).2

theorem Session.Ended.followsProtocol (h : s.Ended) : s.FollowsProtocol := by
  obtain ⟨last, hlast⟩ := h.posted
  refine ⟨by rw [h.outstanding]; exact Nat.zero_le 1, ?_, hlast.once, hlast.pairwise, fun _ => h.completed, fun _ => h.finish⟩
  intro p hp
  rw [h.outstanding] at hp
  cases hp

/-- The only operation of a handler completes. -/
theorem Session.Awaits.deliver_eq (h : s.Awaits method operation) (hd : s.deliver r = some s')
    (hp : (s.rpc.complete operation r.ok r.message).handler.process r.ok ⟨s.rpc.key, operation.opt.code⟩ =
      (handler, todo)) :
    s' = { todo.foldl exec ⟨{ s.rpc.complete operation r.ok r.message with handler }, true, []⟩ with
      registered := !(todo.foldl exec
        ⟨{ s.rpc.complete operation r.ok r.message with handler }, true, []⟩).rpc.handler.isComplete } := by
  unfold Session.deliver at hd
  rw [h.outstanding] at hd
  cases hindex : r.index with
  | zero =>
    rw [hindex] at hd
    cases hd
    have hkey : (s.rpc.complete operation r.ok r.message).key = s.rpc.key := rfl
    simp [Session.dispatch, Event.ofToken_getToken, Event.getKey, h.registered, hkey, hp]
  | succ j =>
    rw [hindex] at hd
    cases hd

/-- `process` of an object is the one of its class. -/
theorem Session.Awaits.process_eq {ok : Bool} {message : Request} {event : Event} (h : s.Awaits method operation) :
    (s.rpc.complete operation ok message).handler.process ok event =
      EventHandler.process { (s.rpc.complete operation ok message).handler with method } ok event := by
  have hmethod : (s.rpc.complete operation ok message).handler.method = method := h.method
  rw [← hmethod]

/-- What becomes of a session when `process` has posted `next` with `event`. -/
def Session.afterPost (s : Session) (operation : Operation) (ok : Bool) (handler : EventHandler) (next : Operation)
    (event : Event) : Session :=
  ⟨{ s.rpc with handler, posted := s.rpc.posted ++ [next], completed := s.rpc.completed ++ [(operation, ok)] }, true,
    [⟨next, event.getToken⟩]⟩

/-- What becomes of a session when `process` has set `finish`. -/
def Session.afterFinish (s : Session) (operation : Operation) (ok : Bool) (handler : EventHandler) : Session :=
  ⟨{ s.rpc with handler, completed := s.rpc.completed ++ [(operation, ok)] }, false, []⟩

theorem Session.Awaits.deliver_post {event : Event} (h : s.Awaits method operation) (hd : s.deliver r = some s')
    (hp : (s.rpc.complete operation r.ok r.message).handler.process r.ok ⟨s.rpc.key, operation.opt.code⟩ =
      (handler, todo))
    (htodo : ∀ x : Session, todo.foldl exec x = x.exec (.post next event)) (hfinish : handler.finish = false) :
    s' = s.afterPost operation r.ok handler next event := by
  have heq := h.deliver_eq hd hp
  rw [htodo] at heq
  have hopen : (!handler.isComplete) = true := by
    rw [Bool.not_eq_true']
    exact hfinish
  rw [heq, Session.afterPost, ← hopen]
  rfl

theorem Session.Awaits.deliver_finish (h : s.Awaits method operation) (hd : s.deliver r = some s')
    (hp : (s.rpc.complete operation r.ok r.message).handler.process r.ok ⟨s.rpc.key, operation.opt.code⟩ =
      (handler, todo))
    (htodo : ∀ x : Session, todo.foldl exec x = x) (hfinish : handler.finish = true) :
    s' = s.afterFinish operation r.ok handler := by
  have heq := h.deliver_eq hd hp
  rw [htodo] at heq
  have hclosed : (!handler.isComplete) = false := by
    rw [Bool.not_eq_false']
    exact hfinish
  rw [heq, Session.afterFinish, ← hclosed]
  rfl

theorem Session.Awaits.afterPost {ok : Bool} (h : s.Awaits method operation) (hmethod : handler.method = method)
    (hfinish : handler.finish = false) (hoperation : operation.isFinish = false)
    (hok : (operation, ok) ≠ (.request, false)) :
    (s.afterPost operation ok handler next ⟨s.rpc.key, next.opt.code⟩).Awaits method next := by
  refine ⟨hmethod, rfl, hfinish, rfl, h.posted.concat hoperation next, ?_⟩
  intro r hr
  rcases List.mem_append.mp hr with hr | hr
  · exact h.completed r hr
  · cases List.mem_singleton.mp hr
    exact ⟨hoperation, hok⟩

theorem Session.Awaits.afterFinish {ok : Bool} (h : s.Awaits method operation) (hfinish : handler.finish = true)
    (hlast : operation.isFinish = true ∨ (operation, ok) = (.request, false)) :
    (s.afterFinish operation ok handler).Ended :=
  ⟨hfinish, rfl, ⟨operation, h.posted⟩, (operation, ok), List.mem_append_right _ (List.mem_singleton_self _), hlast⟩

theorem Session.awaits_start (method : Method) (cq : Nat) (key : EventKey) :
    (Session.start method cq key).Awaits method .request := by
  refine ⟨rfl, rfl, rfl, rfl, ⟨[], rfl, ?_⟩, ?_⟩
  · intro o ho
    cases ho
  · intro r hr
    cases hr

end Awaits

end HelloWorld.Server
