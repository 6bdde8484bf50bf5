import CppProgramming.HelloWorld.TalkClient

/-! # The progress of a talk call

A `TalkCall` can do nothing by itself only when it has sent all that its user writes, and then it is done or waits for a
`Read`; and its steps come to an end. -/

namespace HelloWorld.Talk
open Server (Status)

/-- What a call of the user brings about. -/
def UserCall.work : UserCall → Nat
  | .start => 12
  | _ => 5

/-- What an operation brings about when it completes. -/
def Posted.work (o : Posted) : Nat :=
  match o.opt with
  | .startCall => 10
  | .read => 6
  | _ => 3

/-- What an instruction of `process` brings about. -/
def instrWork : Client.Instr → Nat
  | .post .finish _ => 4
  | .post _ _ => 7
  | _ => 1

/-- What the poller has to do. -/
def Poller.work : Poller → Nat
  | .run todo => 2 + (todo.map instrWork).sum
  | .next => 1
  | _ => 0

/-- What the client has to do for `size` frames that come from the server. -/
def TalkCall.work (size : Nat) (c : TalkCall) : Nat :=
  3 * (size - c.got.length) + (c.user.map UserCall.work).sum + (!c.holds).toNat + (c.outstanding.map Posted.work).sum +
    c.poller.work

namespace TalkCall

/-- `process` is not on the connection. -/
theorem dispatch_same (c : TalkCall) (token : BitVec 64) (ok : Bool) :
    (c.dispatch token ok).sent = c.sent ∧ (c.dispatch token ok).got = c.got ∧ (c.dispatch token ok).shut = c.shut ∧
      (c.dispatch token ok).broken = c.broken := by
  have hlog : ∀ event, (c.log ok event).sent = c.sent ∧ (c.log ok event).got = c.got ∧ (c.log ok event).shut = c.shut ∧
      (c.log ok event).broken = c.broken := by
    intro event
    unfold log
    split
    · split <;> exact ⟨rfl, rfl, rfl, rfl⟩
    · split <;> exact ⟨rfl, rfl, rfl, rfl⟩
    · exact ⟨rfl, rfl, rfl, rfl⟩
  unfold dispatch
  simp only
  split
  · split
    · exact hlog _
    · exact ⟨rfl, rfl, rfl, rfl⟩
  · exact ⟨rfl, rfl, rfl, rfl⟩

theorem exec_same {c c' : TalkCall} {todo : List Client.Instr} {i : Client.Instr} (he : c.exec todo i = some c') :
    c'.sent = c.sent ∧ c'.got = c.got ∧ c'.shut = c.shut ∧ c'.broken = c.broken ∧ c'.poller = .run todo := by
  cases i with
  | post opt event | setFinish | setClosed | unexpected =>
    cases he
    exact ⟨rfl, rfl, rfl, rfl, rfl⟩
  | release =>
    obtain ⟨-, he⟩ := Option.ite_none_right_eq_some.mp he
    cases he
    exact ⟨rfl, rfl, rfl, rfl, rfl⟩

theorem Step.lawful {c c' : TalkCall} {d : List Frame} (hs : Step c d c') :
    c.sent <+: c'.sent ∧ c'.got = c.got ++ d ∧ (c.shut = true → c'.shut = true ∧ c'.sent = c.sent) := by
  cases hs with
  | acquire _ _ _ | post _ _ | next _ | leaves _ _ | breaks =>
    exact ⟨List.prefix_refl _, (List.append_nil _).symm, fun hshut => ⟨hshut, rfl⟩⟩
  | trailing _ _ _ => exact ⟨List.prefix_refl _, rfl, fun hshut => ⟨hshut, rfl⟩⟩
  | complete hp hj hc =>
    rw [(dispatch_same _ _ _).1, (dispatch_same _ _ _).2.1, (dispatch_same _ _ _).2.2.1]
    cases hc with
    | startCall _ _ hopen | write _ _ hopen =>
      exact ⟨List.prefix_append _ _, (List.append_nil _).symm, fun hshut => by cases hopen.symm.trans hshut⟩
    | writeDone _ _ => exact ⟨List.prefix_refl _, (List.append_nil _).symm, fun _ => ⟨rfl, rfl⟩⟩
    | read _ _ _ _ => exact ⟨List.prefix_refl _, rfl, fun hshut => ⟨hshut, rfl⟩⟩
    | readEnd _ _ | finish _ _ _ | fails _ _ | failsFinish _ _ =>
      exact ⟨List.prefix_refl _, (List.append_nil _).symm, fun hshut => ⟨hshut, rfl⟩⟩
  | exec hp he =>
    obtain ⟨hsent, hgot, hshut, -⟩ := exec_same he
    rw [hsent, hgot, hshut]
    exact ⟨List.prefix_refl _, (List.append_nil _).symm, fun hshut => ⟨hshut, rfl⟩⟩

/-- The poller has not left its loop before the call. -/
def Attended (c : TalkCall) : Prop := c.poller = .left → c.registered = false

theorem Attended.step {c c' : TalkCall} {d : List Frame} (h : c.Attended) (hw : c.Wired) (hs : Step c d c') :
    c'.Attended := by
  cases hs with
  | acquire _ _ _ | post _ _ | trailing _ _ _ | breaks => exact h
  | complete hp hj hc =>
    rw [hw.dispatch_eq (List.mem_of_getElem? hj) hc, answered_eq]
    exact Poller.noConfusion
  | exec hp he =>
    rw [Attended, (exec_same he).2.2.2.2]
    exact Poller.noConfusion
  | next hp => exact Poller.noConfusion
  | leaves hp hgone => exact fun _ => hgone

/-- The poller has left its loop before the call. -/
def Forgotten (c : TalkCall) : Prop := c.poller = .left ∧ c.registered = true

theorem Forgotten.step {c c' : TalkCall} {d : List Frame} (h : c.Forgotten) (hs : Step c d c') : c'.Forgotten := by
  cases hs with
  | acquire _ _ _ | post _ _ | trailing _ _ _ | breaks => exact h
  | complete hp _ _ | exec hp _ | next hp | leaves hp _ => cases h.1.symm.trans hp

section Blocked
variable {messages : List String} {c : TalkCall}

/-- A poller that is in `process` can go on, and one that waits for its last handler has left. -/
theorem Inv.poller_next (h : c.Inv messages) (hb : c.broken = false)
    (hstuck : ∀ c', Step c [] c' → c'.broken = true) : c.poller = .left ∨ c.poller = .next ∧ c.registered = true := by
  have hopen : ∀ {c' : TalkCall} {p : Prop}, Step c [] c' → c'.broken = c.broken → p := fun hs hsame => by
    cases (hstuck _ hs).symm.trans (hsame.trans hb)
  cases hp : c.poller with
  | left => exact .inl rfl
  | next =>
    refine .inr ⟨rfl, ?_⟩
    by_contra hgone
    exact hopen (.leaves hp (Bool.eq_false_of_not_eq_true hgone)) rfl
  | raised => exact absurd hp h.wired.poller
  | run todo =>
    cases todo with
    | nil => exact hopen (.next hp) rfl
    | cons i todo =>
      have htodo : c.todo = i :: todo := by rw [TalkCall.todo, hp]
      have hexec : ∃ c', c.exec todo i = some c' := by
        cases i with
        | release =>
          have hpermit := h.wired.permit
          simp only [permits, htodo, List.countP_cons, Client.Instr.permits, if_true] at hpermit
          exact ⟨_, if_pos (by omega)⟩
        | _ => exact ⟨_, rfl⟩
      obtain ⟨c', he⟩ := hexec
      exact hopen (.exec hp he) (exec_same he).2.2.2.1

/-- A poller that has an operation of the call before it waits for it. -/
theorem Inv.next_of_mem {o : Posted} (h : c.Inv messages) (ha : c.Attended) (hb : c.broken = false)
    (hstuck : ∀ c', Step c [] c' → c'.broken = true) (ho : o ∈ c.outstanding) : c.poller = .next := by
  rcases h.poller_next hb hstuck with hleft | ⟨hnext, -⟩
  · cases (ha hleft).symm.trans (h.wired.registered_of_mem ho)
  · exact hnext

/-- An operation completes, but for a `Read` that nothing has come for. -/
theorem Inv.read_of_mem {o : Posted} (h : c.Inv messages) (ha : c.Attended) (hb : c.broken = false)
    (hstuck : ∀ c', Step c [] c' → c'.broken = true) (ho : o ∈ c.outstanding) : o.opt = .read ∧ c.trailing = none := by
  have hnext := h.next_of_mem ha hb hstuck ho
  obtain ⟨j, hj⟩ := List.getElem?_of_mem ho
  have hopen : ∀ {c' : TalkCall} {ok : Bool} {p : Prop}, c.Completes o [] ok c' → c'.broken = c.broken → p :=
    fun hc hsame => by
      have hbroken := hstuck _ (.complete hnext hj hc)
      rw [(dispatch_same _ _ _).2.2.2] at hbroken
      cases hbroken.symm.trans (hsame.trans hb)
  have hsends : o.frames ≠ [] → c.shut = false := by
    intro hframes
    by_contra hshut
    have hall := h.writes.frames hb
    rw [h.writes.shut (Bool.eq_true_of_not_eq_false hshut), List.append_assoc] at hall
    have hnone := List.append_eq_nil_iff.mp (List.append_right_eq_self.mp hall)
    exact hframes (List.flatMap_eq_nil_iff.mp hnone.1 o ho)
  cases hopt : o.opt with
  | startCall => exact hopen (.startCall hopt hb (hsends (by rw [Posted.frames, hopt]; exact List.cons_ne_nil _ _))) rfl
  | write => exact hopen (.write hopt hb (hsends (by rw [Posted.frames, hopt]; exact List.cons_ne_nil _ _))) rfl
  | writeDone => exact hopen (.writeDone hopt hb) rfl
  | finish =>
    obtain ⟨status, hstatus⟩ := Option.isSome_iff_exists.mp (h.prints.finishing hb (.inl ⟨o, ho, hopt⟩))
    exact hopen (.finish status hopt hstatus) rfl
  | read =>
    refine ⟨rfl, ?_⟩
    by_contra hsome
    exact hopen (.readEnd hopt (Option.isSome_iff_ne_none.mpr hsome)) rfl

/-- A client that can do nothing by itself has sent all that it has to send, and has finished or waits for a `Read`. -/
theorem Inv.blocked (h : c.Inv messages) (ha : c.Attended) (hb : c.broken = false)
    (hstuck : ∀ c', Step c [] c' → c'.broken = true) :
    c.user = [] ∧ c.shut = true ∧ c.call.closed = true ∧
      (c.outstanding = [] ∧ c.call.finish = true ∨ c.trailing = none ∧ ∃ o ∈ c.outstanding, o.opt = .read) := by
  have htodo : c.todo = [] := by
    rcases h.poller_next hb hstuck with hp | ⟨hp, -⟩ <;> rw [todo, hp]
  have hread : ∀ o ∈ c.outstanding, o.opt = .read ∧ c.trailing = none := fun o ho => h.read_of_mem ha hb hstuck ho
  have hpermits : c.outstanding.countP (Client.CallKind.talk.permits ·.opt) = 0 := by
    rw [List.countP_eq_zero]
    intro o ho
    rw [(hread o ho).1]
    decide
  have hpermit := h.wired.permit
  simp only [permits, htodo, hpermits, List.countP_nil] at hpermit
  have huser : c.user = [] := by
    cases hu : c.user with
    | nil => rfl
    | cons u rest =>
      cases hholds : c.holds with
      | true => cases (hstuck _ (.post hu hholds)).symm.trans hb
      | false =>
        have hopen : c.call.closed = false := by
          by_contra hclosed
          have hnone := h.writes.closing (.inr (.inr (.inr (Bool.eq_true_of_not_eq_false hclosed))))
          rw [hu] at hnone
          cases hnone
        rw [hholds, hopen, Bool.toNat_false] at hpermit
        cases (hstuck _ (.acquire hu hholds (by omega))).symm.trans hb
  have hclosed : c.call.closed = true := by
    rcases h.closes.closes huser with ⟨o, ho, hdone⟩ | hdone | hdone
    · cases hdone.symm.trans (hread o ho).1
    · rw [htodo] at hdone
      cases hdone
    · exact hdone
  refine ⟨huser, h.closes.shut hb (.inr hclosed), hclosed, ?_⟩
  cases ho : c.outstanding with
  | nil =>
    left
    have hchain := h.wired.chain
    simp only [chains, huser, ho, htodo, List.count_nil, List.countP_nil] at hchain
    refine ⟨rfl, ?_⟩
    by_contra hfinish
    rw [Bool.eq_false_of_not_eq_true hfinish] at hchain
    cases hchain
  | cons o rest =>
    have hmem : o ∈ c.outstanding := by
      rw [ho]
      exact List.mem_cons_self ..
    exact .inr ⟨(hread o hmem).2, o, List.mem_cons_self .., (hread o hmem).1⟩

end Blocked

section Work
variable {c c' : TalkCall} {o : Posted} {d : List Frame} {ok : Bool} {before after : List Posted} {size : Nat}

/-- `process` does less than the operation stands for, unless it goes on reading. -/
theorem answer_work (key : EventKey) (o : Posted) (ok : Bool) :
    (Poller.run (answer key o.opt ok)).work < Poller.next.work + o.work + if o.opt = .read ∧ ok = true then 3 else 0 := by
  have hget : Client.ClientEventOpt.ofCode (Event.mk key o.opt.code).getOpt = some o.opt :=
    Client.ClientEventOpt.ofCode_code o.opt
  unfold answer Client.talkProcess
  rw [hget]
  cases hopt : o.opt <;> cases ok <;> simp [Poller.work, instrWork, Posted.work, hopt]

theorem work_answered (hp : c.poller = .next) (hs : c.outstanding = before ++ o :: after) (hc : c.Completes o d ok c')
    (hsize : c'.got.length ≤ size) : (c'.answered (before ++ after) o ok).work size < c.work size := by
  obtain ⟨-, -, huser, hholds⟩ := hc.same
  obtain ⟨-, -, -, -, hgot⟩ := hc.prints
  have hwork := answer_work c'.call.registered o ok
  rw [answered_eq]
  simp only [work, hp, hs, huser, hholds, List.map_append, List.map_cons, List.sum_append, List.sum_cons]
  rw [hgot] at hsize ⊢
  by_cases hread : o.opt = .read ∧ ok = true
  · simp only [hread, and_self, if_true, List.length_append, List.length_singleton] at hsize hwork ⊢
    simp only [Poller.work] at hwork ⊢
    omega
  · simp only [hread, if_false, List.append_nil] at hsize hwork ⊢
    simp only [Poller.work] at hwork ⊢
    omega

theorem Wired.work_exec {i : Client.Instr} {rest : List Client.Instr} (h : c.Wired) (hp : c.poller = .run (i :: rest))
    (he : c.exec rest i = some c') : c'.work size < c.work size := by
  cases i with
  | post opt event =>
    cases he
    obtain ⟨hopt, -, -⟩ := h.known (.post opt event) (by rw [todo, hp]; exact List.mem_cons_self ..)
    simp only [work, hp, TalkCall.post, Poller.work, List.map_append, List.map_cons, List.map_nil, List.sum_append,
      List.sum_cons, List.sum_nil]
    rcases hopt with rfl | rfl <;> simp only [instrWork, Posted.work] <;> omega
  | setFinish | setClosed | unexpected =>
    cases he
    simp only [work, hp, Poller.work, List.map_cons, List.sum_cons, instrWork]
    omega
  | release =>
    obtain ⟨-, he⟩ := Option.ite_none_right_eq_some.mp he
    cases he
    simp only [work, hp, TalkCall.release, Poller.work, List.map_cons, List.sum_cons, instrWork]
    omega

theorem Wired.work_lt (h : c.Wired) (hs : Step c d c') (hb : c'.broken = false) (hsize : c'.got.length ≤ size) :
    c'.work size < c.work size := by
  cases hs with
  | acquire hu hholds _ =>
    simp only [work, TalkCall.acquire, hholds, Bool.not_false, Bool.not_true, Bool.toNat_true, Bool.toNat_false]
    omega
  | @post u rest hu hholds =>
    simp only [work, TalkCall.userPost, TalkCall.post, hu, hholds, Bool.not_false, Bool.not_true, Bool.toNat_true,
      Bool.toNat_false, List.map_append, List.map_cons, List.map_nil, List.sum_append, List.sum_cons, List.sum_nil]
    cases u <;> simp only [UserCall.work, Posted.work, UserCall.opt] <;> omega
  | complete hp hj hc =>
    obtain ⟨before, after, hs, herase⟩ := split_of_getElem? hj
    rw [(dispatch_same _ _ _).2.1] at hsize
    rw [h.dispatch_eq (List.mem_of_getElem? hj) hc, herase]
    exact work_answered hp hs hc hsize
  | exec hp he => exact h.work_exec hp he
  | next hp | leaves hp _ =>
    simp only [work, hp, Poller.work, List.map_nil, List.sum_nil]
    omega
  | trailing status _ _ =>
    simp only [work, List.length_append, List.length_singleton] at hsize ⊢
    omega
  | breaks => cases hb

end Work

section Sound
variable {polling : Bool} {key : EventKey} {queue : Int} {messages : List String} {c : TalkCall}

theorem inv_of_reach (h : (clientEnd polling key queue messages).Reach c) : c.Inv messages :=
  h.inv (I := Inv messages) (Inv.start polling key queue messages) fun _ _ _ _ hinv hs => hinv.step hs.1

theorem attended_of_reach (h : (clientEnd true key queue messages).Reach c) : c.Attended :=
  (h.inv (I := fun c => Inv messages c ∧ Attended c) (And.intro (Inv.start true key queue messages) Poller.noConfusion)
    fun _ _ _ _ hI hs => And.intro (hI.1.step hs.1) (hI.2.step hI.1.wired hs.1)).2

/-- A poller that has left before the call does nothing for it, so that the call stays in the table. -/
theorem forgotten_of_reach (h : (clientEnd false key queue messages).Reach c) : c.Forgotten :=
  h.inv (I := Forgotten) ⟨rfl, rfl⟩ fun _ _ _ _ hI hs => hI.step hs.1

theorem lawful (polling : Bool) (key : EventKey) (queue : Int) (messages : List String) :
    (clientEnd polling key queue messages).Lawful where
  sent_start := rfl
  got_start := rfl
  ended_start := rfl
  sent hs := hs.1.lawful.1
  got hs := hs.1.lawful.2.1
  shut hs := hs.1.lawful.2.2
  ended _ h := .inl h

/-- What the user writes goes out and what comes in is printed, whatever the threads of the call do first. -/
theorem safe (polling : Bool) (key : EventKey) (queue : Int) (messages : List String) :
    (clientEnd polling key queue messages).Safe messages where
  lawful := lawful polling key queue messages
  sent h := (inv_of_reach h).writes.sent
  shut h := (inv_of_reach h).writes.shut
  got {c} h := ⟨TalkCall.trailing c, (inv_of_reach h).prints.got, (inv_of_reach h).prints.reported⟩

/-- Where the poller is in its loop, all of it is done. -/
theorem sound (key : EventKey) (queue : Int) (messages : List String) :
    (clientEnd true key queue messages).Sound messages where
  toSafe := safe true key queue messages
  terminates := ⟨work, fun h hs hb hsize => (inv_of_reach h).wired.work_lt hs.1 hb hsize⟩
  blocked {c} h hb hstuck := by
    have hinv : Inv messages c := inv_of_reach h
    have hattended : Attended c := attended_of_reach h
    have hopen : ∀ c', Step c [] c' → c'.broken = true := fun c' hs => hstuck c' ⟨hs, rfl⟩
    obtain ⟨huser, hshut, hclosed, hwaits⟩ := hinv.blocked hattended hb hopen
    refine ⟨hshut, ?_⟩
    rcases hwaits with ⟨hnone, hfinish⟩ | ⟨htrailing, o, ho, hread⟩
    · obtain ⟨status, hstatus⟩ := Option.isSome_iff_exists.mp
        (hinv.prints.finishing hb (.inr (.inr (.inr hfinish))))
      have hleft : TalkCall.poller c = .left := by
        rcases hinv.poller_next hb hopen with hleft | ⟨hnext, hregistered⟩
        · exact hleft
        · cases hregistered.symm.trans (hinv.wired.settled hnext hfinish hclosed)
      refine .inl ⟨status, ⟨huser, .inr hleft, hnone, hattended hleft⟩, ?_, ?_⟩
      · have hgot := hinv.prints.got
        rw [hstatus] at hgot
        exact hgot
      · rintro rfl
        exact hinv.prints.told hb (.inr hfinish) hstatus
    · have hgot := hinv.prints.got
      rw [htrailing] at hgot
      refine .inr ⟨hgot.trans (List.append_nil _), fun frame hframe => ?_⟩
      -- The `Read` brings the next words; a status comes in by itself.
      cases frame with
      | call => exact absurd rfl hframe
      | words content =>
        have hnext := hinv.next_of_mem hattended hb hopen ho
        obtain ⟨j, hj⟩ := List.getElem?_of_mem ho
        exact ⟨_, ⟨.complete hnext hj (.read content hread hb htrailing), rfl⟩, (dispatch_same _ _ _).2.2.2.trans hb⟩
      | status status => exact ⟨_, ⟨.trailing status hb htrailing, rfl⟩, hb⟩

end Sound
end TalkCall
end HelloWorld.Talk
