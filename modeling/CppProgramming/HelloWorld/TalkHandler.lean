import CppProgramming.HelloWorld.EchoServer
import CppProgramming.HelloWorld.TalkCall

/-! # The handler of a talk call

The session of a `ChatTalkEventHandler` follows the stages of an echo server, one completed operation after the other. -/

namespace HelloWorld.Talk
open Server (Status Session Operation Pending)

section Session
variable {s s' : Session} {j : Nat} {content : String}

theorem talk_request (h : s.Awaits .talk .request) (hd : s.deliver ⟨j, true, { content }⟩ = some s') :
    s'.Awaits .talk .read := by
  rw [h.deliver_post hd h.process_eq (fun _ => rfl) h.finish]
  exact h.afterPost rfl h.finish rfl (by simp)

theorem talk_read (h : s.Awaits .talk .read) (hd : s.deliver ⟨j, true, { content }⟩ = some s') :
    s'.Awaits .talk (.write content) := by
  rw [h.deliver_post hd h.process_eq (fun _ => rfl) h.finish]
  exact h.afterPost rfl h.finish rfl (by simp)

theorem talk_readEnd (h : s.Awaits .talk .read) (hd : s.deliver ⟨j, false, { content }⟩ = some s') :
    s'.Awaits .talk (.finish none .ok) := by
  rw [h.deliver_post hd h.process_eq (fun _ => rfl) h.finish]
  exact h.afterPost rfl h.finish rfl (by simp)

theorem talk_write {response : String} (h : s.Awaits .talk (.write response))
    (hd : s.deliver ⟨j, true, { content }⟩ = some s') : s'.Awaits .talk .read := by
  rw [h.deliver_post hd h.process_eq (fun _ => rfl) h.finish]
  exact h.afterPost rfl h.finish rfl (by simp)

theorem talk_finish {response : Option String} {status : Status} (h : s.Awaits .talk (.finish response status))
    (hd : s.deliver ⟨j, true, { content }⟩ = some s') : s'.Ended ∧ s'.registered = false := by
  rw [h.deliver_finish hd h.process_eq (fun _ => rfl) rfl]
  exact ⟨h.afterFinish rfl (Or.inl rfl), rfl⟩

end Session

namespace TalkHandler
variable {h h' : TalkHandler} {d out : List Frame} {e : Bool} {g g' : Stage}

/-- The session waits for the operation of the stage. -/
inductive At (h : TalkHandler) : Stage → Prop
  | call : h.session.Awaits .talk .request → h.shut = false → At h .call
  | read : h.session.Awaits .talk .read → h.shut = false → At h .read
  | write (content : String) : h.session.Awaits .talk (.write content) → h.shut = false → At h (.write content)
  | finish : h.session.Awaits .talk (.finish none .ok) → h.shut = false → At h .finish
  | done : h.session.Ended → h.session.registered = false → h.shut = true → At h .done

/-- The stage, read off what is outstanding. -/
def stage (h : TalkHandler) : Stage :=
  match h.session.outstanding with
  | [] => .done
  | p :: _ =>
    match p.operation with
    | .request => .call
    | .read => .read
    | .write content => .write content
    | .finish _ _ => .finish

theorem At.stage_eq (ha : h.At g) : h.stage = g := by
  unfold stage
  cases ha with
  | call ha _ | read ha _ | write _ ha _ | finish ha _ => rw [ha.outstanding]
  | done ha _ _ => rw [ha.outstanding]

theorem At.shut_eq (ha : h.At g) : h.shut = g.isDone := by
  cases ha with
  | call _ hshut | read _ hshut | write _ _ hshut | finish _ hshut | done _ _ hshut => exact hshut

/-- The only operation of a session that waits. -/
theorem awaits_operation {s : Session} {operation : Operation} {j : Nat} {p : Pending} (ha : s.Awaits .talk operation)
    (hj : s.outstanding[j]? = some p) : p.operation = operation := by
  rw [ha.outstanding] at hj
  have hp := List.mem_of_getElem? hj
  rw [List.mem_singleton] at hp
  rw [hp]

theorem At.complete {j : Nat} {p : Pending} {ok : Bool} {content : String} {session : Session} (ha : h.At g)
    (hb : h.broken = false) (hj : h.session.outstanding[j]? = some p) (hc : h.Completes p.operation d e ok content h')
    (hd : h.session.deliver ⟨j, ok, { content }⟩ = some session) :
    ∃ out g', g.Step d e out g' ∧ { h' with session }.At g' ∧ h'.sent = h.sent ++ out ∧ h'.ended = (h.ended || e) := by
  have hfails : ∀ {q : Prop}, h.broken = true → q := fun hbroken => by cases hb.symm.trans hbroken
  cases ha with
  | call ha hshut =>
    rw [awaits_operation ha hj] at hc
    cases hc with
    | request _ =>
      exact ⟨[], .read, .call, .read (talk_request ha hd) hshut, (List.append_nil _).symm, (Bool.or_false _).symm⟩
    | fails hbroken => exact hfails hbroken
  | read ha hshut =>
    rw [awaits_operation ha hj] at hc
    cases hc with
    | read content _ =>
      exact ⟨[], .write content, .read content, .write content (talk_read ha hd) hshut, (List.append_nil _).symm,
        (Bool.or_false _).symm⟩
    | readEnd _ =>
      exact ⟨[], .finish, .readEnd, .finish (talk_readEnd ha hd) hshut, (List.append_nil _).symm,
        (Bool.or_true _).symm⟩
    | fails hbroken => exact hfails hbroken
  | write content ha hshut =>
    rw [awaits_operation ha hj] at hc
    cases hc with
    | write _ _ _ =>
      exact ⟨[.words content], .read, .write content, .read (talk_write ha hd) hshut, rfl, (Bool.or_false _).symm⟩
    | fails hbroken => exact hfails hbroken
  | finish ha _ =>
    rw [awaits_operation ha hj] at hc
    cases hc with
    | finish _ _ _ _ =>
      obtain ⟨hended, hregistered⟩ := talk_finish ha hd
      exact ⟨[.status .ok], .done, .finish, .done hended hregistered rfl, rfl, (Bool.or_false _).symm⟩
    | fails hbroken => exact hfails hbroken
  | done ha _ _ =>
    rw [ha.outstanding] at hj
    cases hj

/-- The operation that the session waits for completes. -/
theorem At.enabled (ha : h.At g) (hb : h.broken = false) (hg : g.Step d e out g') :
    ∃ h', Step h d e h' ∧ h'.broken = false := by
  have hopen : ∀ {operation : Operation} {ok : Bool} {content : String} {h' : TalkHandler},
      h.session.Awaits .talk operation → h.Completes operation d e ok content h' → h'.broken = h.broken →
        ∃ h', Step h d e h' ∧ h'.broken = false := by
    intro operation ok content h' ha hc hsame
    obtain ⟨session, hdeliver⟩ : ∃ session, h.session.deliver ⟨0, ok, { content }⟩ = some session := by
      unfold Session.deliver
      rw [ha.outstanding]
      exact ⟨_, rfl⟩
    have hj : h.session.outstanding[0]? = some ⟨operation, (Event.mk h.session.rpc.key operation.opt.code).getToken⟩ := by
      rw [ha.outstanding]
      rfl
    exact ⟨_, .complete hj hc hdeliver, hsame.trans hb⟩
  cases hg with
  | call =>
    cases ha with
    | call ha _ => exact hopen ha (.request hb) rfl
  | read content =>
    cases ha with
    | read ha _ => exact hopen ha (.read content hb) rfl
  | readEnd =>
    cases ha with
    | read ha _ => exact hopen ha (.readEnd hb) rfl
  | write content =>
    cases ha with
    | write _ ha hshut => exact hopen ha (.write content hb hshut) rfl
  | finish =>
    cases ha with
    | finish ha hshut => exact hopen ha (.finish none .ok hb hshut) rfl

theorem Step.lawful (hs : Step h d e h') :
    h.sent <+: h'.sent ∧ h'.got = h.got ++ d ∧ (h.shut = true → h'.shut = true ∧ h'.sent = h.sent) ∧
      (h'.ended = true → h.ended = true ∨ e = true) := by
  cases hs with
  | complete hj hc hd =>
    generalize Pending.operation _ = operation at hc
    cases hc with
    | request _ | read _ _ =>
      exact ⟨List.prefix_refl _, rfl, fun hshut => ⟨hshut, rfl⟩, .inl⟩
    | readEnd _ => exact ⟨List.prefix_refl _, (List.append_nil _).symm, fun hshut => ⟨hshut, rfl⟩, fun _ => .inr rfl⟩
    | write _ _ hopen | finish _ _ _ hopen =>
      exact ⟨List.prefix_append _ _, (List.append_nil _).symm, fun hshut => (by cases hopen.symm.trans hshut), .inl⟩
    | fails _ => exact ⟨List.prefix_refl _, (List.append_nil _).symm, fun hshut => ⟨hshut, rfl⟩, .inl⟩
  | breaks => exact ⟨List.prefix_refl _, (List.append_nil _).symm, fun hshut => ⟨hshut, rfl⟩, .inl⟩

/-- On a broken connection an operation brings nothing. -/
theorem Step.of_broken (hs : Step h d e h') (hb : h'.broken = true) :
    h'.got = h.got ∧ h'.sent = h.sent ∧ h'.shut = h.shut ∧ h'.ended = h.ended := by
  cases hs with
  | complete hj hc hd =>
    generalize Pending.operation _ = operation at hc
    cases hc with
    | fails _ => exact ⟨rfl, rfl, rfl, rfl⟩
    | request hopen | read _ hopen | readEnd hopen | write _ hopen _ | finish _ _ hopen _ => cases hopen.symm.trans hb
  | breaks => exact ⟨rfl, rfl, rfl, rfl⟩

theorem Step.holds (hs : Step h d e h') (hb : h'.broken = false) : h.broken = false := by
  cases hs with
  | complete hj hc hd =>
    generalize Pending.operation _ = operation at hc
    cases hc <;> exact hb
  | breaks => cases hb

theorem follows (cq : Nat) (key : EventKey) : (serverEnd cq key).Follows stage At where
  lawful := {
    sent_start := rfl
    got_start := rfl
    ended_start := rfl
    sent hs := hs.lawful.1
    got hs := hs.lawful.2.1
    shut hs := hs.lawful.2.2.1
    ended hs := hs.lawful.2.2.2 }
  start := .call (Session.awaits_start .talk cq key) rfl
  stage := At.stage_eq
  shut := At.shut_eq
  broken := Step.of_broken
  step ha hs hb := by
    have hold := hs.holds hb
    cases hs with
    | complete hj hc hd => exact ha.complete hold hj hc hd
    | breaks => cases hb
  holds := Step.holds
  enabled hb ha hg := ha.enabled hb hg
  finished ha := by
    cases ha with
    | done hover hregistered _ => exact ⟨hover, hregistered⟩

end TalkHandler
end HelloWorld.Talk
