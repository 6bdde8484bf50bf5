import CppProgramming.HelloWorld.TalkCall

/-! # The client of a talk call

What every step of a `TalkCall` keeps: there is one permit of `canWrite` and one link of the chain that ends with
`Finish`, the words of the user go out in order, and what has come in has been printed. -/

namespace HelloWorld.Talk
open Client (ClientEventOpt Call CallKind Instr)
open Server (Status)

/-! ### The wiring of the client -/

namespace TalkCall

/-- What the poller has left of `process`. -/
def todo (c : TalkCall) : List Instr :=
  match c.poller with
  | .run todo => todo
  | _ => []

/-- The permits of `canWrite` that are not there: one that the user has, or an operation or the poller, or that is gone
    with `closed`. -/
def permits (c : TalkCall) : Nat :=
  c.holds.toNat + c.outstanding.countP (CallKind.talk.permits ·.opt) + c.todo.countP Client.Instr.permits +
    c.call.closed.toNat

/-- The links of the chain from `StartCall` through the reads to `Finish`. -/
def chains (c : TalkCall) : Nat :=
  c.user.count .start + c.outstanding.countP (CallKind.talk.chains ·.opt) + c.todo.countP Client.Instr.chains +
    c.call.finish.toNat

/-- The threads of the call belong to it, there is one permit and one link of the chain, and the call is in the table of
    handlers as long as it is not complete. -/
structure Wired (c : TalkCall) : Prop where
  kind : c.call.kind = .talk
  key : c.call.key = some c.call.registered
  tokens : ∀ o ∈ c.outstanding, o.token = (Event.mk c.call.registered o.opt.code).getToken
  known : ∀ i ∈ c.todo, i.Known .talk c.call.registered
  poller : c.poller ≠ .raised
  remaining : 0 ≤ c.call.canWrite.remaining
  permit : c.call.canWrite.remaining + c.permits = 1
  chain : c.chains = 1
  complete : c.registered = false → c.call.finish = true ∧ c.call.closed = true
  settled : c.poller = .next → c.call.finish = true → c.call.closed = true → c.registered = false

/-- A completed operation leaves the others as they are. -/
theorem split_of_getElem? {α : Type} {l : List α} {j : Nat} {x : α} (h : l[j]? = some x) :
    ∃ before after, l = before ++ x :: after ∧ l.eraseIdx j = before ++ after := by
  obtain ⟨hj, rfl⟩ := List.getElem?_eq_some_iff.mp h
  refine ⟨l.take j, l.drop (j + 1), ?_, List.eraseIdx_eq_take_drop_succ l j⟩
  rw [← List.drop_eq_getElem_cons hj, List.take_append_drop]

section Wired
variable {c c' : TalkCall} {o : Posted} {d : List Frame} {ok : Bool} {before after : List Posted}

/-- An operation of the call is one of a write or a link of the chain. -/
theorem permits_or_chains (opt : ClientEventOpt) : CallKind.talk.permits opt = true ∨ CallKind.talk.chains opt = true := by
  cases opt <;> decide

/-- While an operation is outstanding, the call is in the table. -/
theorem Wired.registered_of_mem (h : c.Wired) (ho : o ∈ c.outstanding) : c.registered = true := by
  by_contra hgone
  obtain ⟨hfinish, hclosed⟩ := h.complete (Bool.eq_false_of_not_eq_true hgone)
  have hpermit := h.permit
  have hchain := h.chain
  have hremaining := h.remaining
  unfold permits at hpermit
  unfold chains at hchain
  rw [hclosed] at hpermit
  rw [hfinish] at hchain
  simp only [Bool.toNat_true] at hpermit hchain
  rcases permits_or_chains o.opt with hp | hc
  · have : 0 < c.outstanding.countP (CallKind.talk.permits ·.opt) := List.countP_pos_iff.mpr ⟨o, ho, hp⟩
    omega
  · have : 0 < c.outstanding.countP (CallKind.talk.chains ·.opt) := List.countP_pos_iff.mpr ⟨o, ho, hc⟩
    omega

/-- What a completed operation leaves as it is. -/
theorem Completes.same (hc : c.Completes o d ok c') :
    c'.call = c.call ∧ c'.registered = c.registered ∧ c'.user = c.user ∧ c'.holds = c.holds := by
  cases hc <;> exact ⟨rfl, rfl, rfl, rfl⟩

/-- `process` of a talk call. -/
def answer (key : EventKey) (opt : ClientEventOpt) (ok : Bool) : List Instr := Client.talkProcess ok ⟨key, opt.code⟩

/-- `process` hands on what it has got: the permit, and the link of the chain. -/
theorem answer_balance (key : EventKey) (opt : ClientEventOpt) (ok : Bool) :
    (∀ i ∈ answer key opt ok, i.Known .talk key) ∧
      (answer key opt ok).countP Client.Instr.permits = (CallKind.talk.permits opt).toNat ∧
      (answer key opt ok).countP Client.Instr.chains = (CallKind.talk.chains opt).toNat := by
  have hget : ClientEventOpt.ofCode (Event.mk key opt.code).getOpt = some opt := Client.ClientEventOpt.ofCode_code opt
  unfold answer Client.talkProcess
  rw [hget]
  cases opt <;> cases ok <;> simp [Client.Instr.Known, Client.Instr.permits, Client.Instr.chains, CallKind.permits,
    CallKind.chains, CallKind.has, Event.setOpt, List.countP_cons]

/-- The state when the operation `o` has completed and the poller has begun with `process`. -/
def answered (c : TalkCall) (rest : List Posted) (o : Posted) (ok : Bool) : TalkCall :=
  { { c with outstanding := rest }.log ok ⟨c.call.registered, o.opt.code⟩ with
    poller := .run (answer c.call.registered o.opt ok) }

/-- The poller runs `process` of the call for each of its operations. -/
theorem Wired.dispatch_eq (h : c.Wired) (ho : o ∈ c.outstanding) (hc : c.Completes o d ok c')
    (rest : List Posted) : { c' with outstanding := rest }.dispatch o.token ok = c'.answered rest o ok := by
  obtain ⟨hcall, hregistered, -, -⟩ := hc.same
  have hprocess : c.call.process ok ⟨c.call.registered, o.opt.code⟩ =
      some (Client.talkProcess ok ⟨c.call.registered, o.opt.code⟩) := by
    unfold Call.process
    rw [h.kind]
    exact if_neg (not_not.mpr h.key)
  unfold dispatch answered answer
  simp only [hcall, hregistered, h.tokens o ho, Event.ofToken_getToken, h.registered_of_mem ho, Event.getKey,
    beq_self_eq_true, Bool.and_self, if_true, hprocess]

theorem answered_eq (c : TalkCall) (rest : List Posted) (o : Posted) (ok : Bool) : c.answered rest o ok =
    { c with
      outstanding := rest
      poller := .run (answer c.call.registered o.opt ok)
      printed := c.printed ++ if o.opt = .read ∧ ok = true then [c.response] else []
      reported := c.reported || decide (o.opt = .finish ∧ ok = true ∧ c.status = some .ok) } := by
  have hget : ClientEventOpt.ofCode (Event.mk c.call.registered o.opt.code).getOpt = some o.opt :=
    Client.ClientEventOpt.ofCode_code o.opt
  unfold answered log
  rw [hget]
  cases hopt : o.opt with
  | read => cases ok <;> simp
  | finish => by_cases hstatus : c.status = some .ok <;> cases ok <;> simp [hstatus]
  | _ => simp

theorem Wired.answered (h : c.Wired) (hp : c.poller = .next) (hs : c.outstanding = before ++ o :: after)
    (hc : c.Completes o d ok c') : (c'.answered (before ++ after) o ok).Wired := by
  obtain ⟨hcall, hregistered, huser, hholds⟩ := hc.same
  obtain ⟨hknown, hpermits, hchains⟩ := answer_balance c.call.registered o.opt ok
  have htodo : c.todo = [] := by rw [todo, hp]
  rw [answered_eq]
  refine ⟨?_, ?_, ?_, ?_, Poller.noConfusion, ?_, ?_, ?_, ?_, Poller.noConfusion⟩
  · rw [hcall]
    exact h.kind
  · rw [hcall]
    exact h.key
  · intro o' ho'
    rw [hcall]
    exact h.tokens o' (by rw [hs]; simp only [List.mem_append, List.mem_cons] at ho' ⊢; tauto)
  · rw [hcall]
    exact hknown
  · rw [hcall]
    exact h.remaining
  · have hpermit := h.permit
    simp only [permits, htodo, hs, List.countP_append, List.countP_cons, List.countP_nil] at hpermit
    simp only [permits, todo, hcall, hholds, List.countP_append, hpermits]
    cases hb : CallKind.talk.permits o.opt <;> simp only [hb, Bool.toNat_true, Bool.toNat_false] at hpermit ⊢ <;> grind
  · have hchain := h.chain
    simp only [chains, htodo, hs, List.countP_append, List.countP_cons, List.countP_nil] at hchain
    simp only [chains, todo, hcall, huser, List.countP_append, hchains]
    cases hb : CallKind.talk.chains o.opt <;> simp only [hb, Bool.toNat_true, Bool.toNat_false] at hchain ⊢ <;> grind
  · rw [hcall, hregistered]
    exact h.complete

/-- An operation that the user posts. -/
theorem Wired.userPost {u : UserCall} {rest : List UserCall} (h : c.Wired) (hu : c.user = u :: rest)
    (hh : c.holds = true) : (c.userPost u rest).Wired := by
  refine ⟨h.kind, h.key, ?_, h.known, h.poller, h.remaining, ?_, ?_, h.complete, h.settled⟩
  · intro o ho
    rcases List.mem_append.mp ho with ho | ho
    · exact h.tokens o ho
    · cases List.mem_singleton.mp ho
      show (Event.setOpt (Event.ofKey (c.call.key.getD 0)) u.opt.code).getToken = _
      rw [h.key]
      rfl
  · have hpermit := h.permit
    have hopt : CallKind.talk.permits u.opt = true := by cases u <;> rfl
    simp only [permits, hh, Bool.toNat_true] at hpermit
    simp only [permits, TalkCall.userPost, post, todo, List.countP_append, List.countP_singleton, hopt, if_true,
      Bool.toNat_false] at hpermit ⊢
    omega
  · have hchain := h.chain
    simp only [chains, hu] at hchain
    simp only [chains, TalkCall.userPost, post, todo, List.countP_append, List.countP_singleton] at hchain ⊢
    cases u with
    | start =>
      have hopt : CallKind.talk.chains UserCall.start.opt = true := rfl
      simp only [hopt, if_true, List.count_cons_self] at hchain ⊢
      omega
    | write msg =>
      have hopt : CallKind.talk.chains (UserCall.write msg).opt = false := rfl
      rw [List.count_cons_of_ne (by simp)] at hchain
      simpa [hopt] using hchain
    | close =>
      have hopt : CallKind.talk.chains UserCall.close.opt = false := rfl
      rw [List.count_cons_of_ne (by simp)] at hchain
      simpa [hopt] using hchain

/-- A step of `process`. -/
theorem Wired.exec {i : Instr} {rest : List Instr} (h : c.Wired) (hp : c.poller = .run (i :: rest))
    (he : c.exec rest i = some c') : c'.Wired := by
  have htodo : c.todo = i :: rest := by rw [todo, hp]
  have hi := h.known i (by rw [htodo]; exact List.mem_cons_self ..)
  have hrest : ∀ i ∈ rest, i.Known .talk c.call.registered := fun i hi =>
    h.known i (by rw [htodo]; exact List.mem_cons_of_mem _ hi)
  have hpermit := h.permit
  have hchain := h.chain
  have hremaining := h.remaining
  simp only [permits, htodo, List.countP_cons] at hpermit
  simp only [chains, htodo, List.countP_cons] at hchain
  cases i with
  | post opt event =>
    cases he
    obtain ⟨hopt, -, rfl⟩ := hi
    have hpermits : CallKind.talk.permits opt = false := by rcases hopt with rfl | rfl <;> rfl
    have hchains : CallKind.talk.chains opt = true := by rcases hopt with rfl | rfl <;> rfl
    refine ⟨h.kind, h.key, ?_, hrest, Poller.noConfusion, hremaining, ?_, ?_, h.complete, Poller.noConfusion⟩
    · intro o ho
      rcases List.mem_append.mp ho with ho | ho
      · exact h.tokens o ho
      · cases List.mem_singleton.mp ho
        rfl
    · simp only [permits, todo, TalkCall.post, List.countP_append, List.countP_singleton, hpermits]
      simpa [Client.Instr.permits] using hpermit
    · simp only [chains, todo, TalkCall.post, List.countP_append, List.countP_singleton, hchains, if_true]
      simp only [Client.Instr.chains, if_true] at hchain
      omega
  | setFinish =>
    cases he
    have hfinish : c.call.finish = false := by
      by_contra hfinish
      rw [Bool.eq_true_of_not_eq_false hfinish] at hchain
      simp [Client.Instr.chains] at hchain
    refine ⟨h.kind, h.key, h.tokens, hrest, Poller.noConfusion, hremaining, ?_, ?_, ?_, Poller.noConfusion⟩
    · simpa [permits, todo, Client.Instr.permits] using hpermit
    · simp only [chains, todo, Bool.toNat_true]
      simp only [Client.Instr.chains, if_true, hfinish, Bool.toNat_false] at hchain
      omega
    · intro hgone
      exact ⟨rfl, (h.complete hgone).2⟩
  | setClosed =>
    cases he
    have hclosed : c.call.closed = false := by
      by_contra hclosed
      rw [Bool.eq_true_of_not_eq_false hclosed] at hpermit
      simp [Client.Instr.permits] at hpermit
      omega
    refine ⟨h.kind, h.key, h.tokens, hrest, Poller.noConfusion, hremaining, ?_, ?_, ?_, Poller.noConfusion⟩
    · simp only [permits, todo, Bool.toNat_true]
      simp only [Client.Instr.permits, if_true, hclosed, Bool.toNat_false] at hpermit
      omega
    · simpa [chains, todo, Client.Instr.chains] using hchain
    · intro hgone
      exact ⟨(h.complete hgone).1, rfl⟩
  | release =>
    obtain ⟨-, he⟩ := Option.ite_none_right_eq_some.mp he
    cases he
    refine ⟨h.kind, h.key, h.tokens, hrest, Poller.noConfusion, ?_, ?_, ?_, h.complete, Poller.noConfusion⟩
    · show 0 ≤ c.call.canWrite.remaining + 1
      omega
    · simp only [permits, todo, TalkCall.release]
      simp only [Client.Instr.permits, if_true] at hpermit
      omega
    · simpa [chains, todo, TalkCall.release, Client.Instr.chains] using hchain
  | unexpected => exact absurd hi id

/-- The wiring holds at every step. -/
theorem Wired.step (h : c.Wired) (hs : Step c d c') : c'.Wired := by
  cases hs with
  | acquire hu hh hpos =>
    refine ⟨h.kind, h.key, h.tokens, h.known, h.poller, ?_, ?_, h.chain, h.complete, h.settled⟩
    · show 0 ≤ c.call.canWrite.remaining - 1
      omega
    · have hpermit := h.permit
      simp only [permits, hh, Bool.toNat_false] at hpermit
      simp only [permits, TalkCall.acquire, todo, Bool.toNat_true] at hpermit ⊢
      omega
  | post hu hh => exact h.userPost hu hh
  | complete hp hj hc =>
    obtain ⟨before, after, hs, herase⟩ := split_of_getElem? hj
    rw [h.dispatch_eq (List.mem_of_getElem? hj) hc, herase]
    exact h.answered hp hs hc
  | exec hp he => exact h.exec hp he
  | next hp =>
    have htodo : c.todo = [] := by rw [todo, hp]
    refine ⟨h.kind, h.key, h.tokens, ?_, Poller.noConfusion, h.remaining, ?_, ?_, ?_, ?_⟩
    · intro i hi
      cases hi
    · have hpermit := h.permit
      simp only [permits, htodo] at hpermit
      exact hpermit
    · have hchain := h.chain
      simp only [chains, htodo] at hchain
      exact hchain
    · intro hgone
      rcases Bool.and_eq_false_iff.mp hgone with hgone | hcomplete
      · exact h.complete hgone
      · have : c.call.isComplete = true := by simpa using hcomplete
        rw [Call.isComplete, h.kind] at this
        exact Bool.and_eq_true_iff.mp this
    · intro _ hfinish hclosed
      have : c.call.isComplete = true := by
        rw [Call.isComplete, h.kind]
        exact Bool.and_eq_true_iff.mpr ⟨hfinish, hclosed⟩
      simp [this]
  | leaves hp _ =>
    have htodo : c.todo = [] := by rw [todo, hp]
    have hpermit := h.permit
    have hchain := h.chain
    simp only [permits, htodo] at hpermit
    simp only [chains, htodo] at hchain
    refine ⟨h.kind, h.key, h.tokens, ?_, Poller.noConfusion, h.remaining, hpermit, hchain, h.complete,
      Poller.noConfusion⟩
    intro i hi
    cases hi
  | trailing status _ _ =>
    exact ⟨h.kind, h.key, h.tokens, h.known, h.poller, h.remaining, h.permit, h.chain, h.complete, h.settled⟩
  | breaks =>
    exact ⟨h.kind, h.key, h.tokens, h.known, h.poller, h.remaining, h.permit, h.chain, h.complete, h.settled⟩

end Wired
end TalkCall

/-! ### What the client writes and prints -/

/-- What the call has to send. -/
def UserCall.frames : UserCall → List Frame
  | .start => [.call]
  | .write msg => [.words msg]
  | .close => []

/-- What the operation has to send. -/
def Posted.frames (o : Posted) : List Frame :=
  match o.opt with
  | .startCall => [.call]
  | .write => [.words o.content]
  | _ => []

theorem frames_userCalls (messages : List String) : (userCalls messages).flatMap UserCall.frames = script messages := by
  induction messages with
  | nil => rfl
  | cons msg messages ih =>
    simp only [userCalls, script, List.map_cons, List.cons_append, List.flatMap_cons, UserCall.frames, List.nil_append,
      List.cons.injEq, true_and] at ih ⊢
    exact ih

/-- `close` comes last. -/
theorem eq_nil_of_close {messages : List String} {rest : List UserCall} (h : .close :: rest <:+ userCalls messages) :
    rest = [] := by
  rcases List.eq_nil_or_concat rest with rfl | ⟨rest, u, rfl⟩
  · rfl
  · obtain ⟨before, hbefore⟩ := h
    have hinit : before ++ .close :: rest = .start :: messages.map .write := by
      refine (List.append_inj' (?_ : (before ++ .close :: rest) ++ [u] = _ ++ [UserCall.close]) rfl).1
      simpa [userCalls] using hbefore
    have hmem : UserCall.close ∈ UserCall.start :: messages.map .write := by
      rw [← hinit]
      simp
    simp at hmem

/-- The last that a user does is `close`. -/
theorem eq_close_of_last {messages : List String} {u : UserCall} (h : [u] <:+ userCalls messages) : u = .close := by
  obtain ⟨before, hbefore⟩ := h
  have hlast := (List.append_inj' (hbefore : before ++ [u] = (.start :: messages.map .write) ++ [UserCall.close]) rfl).2
  cases hlast
  rfl

theorem Posted.frames_of_permits {o : Posted} (h : CallKind.talk.permits o.opt = false) : o.frames = [] := by
  unfold frames
  cases hopt : o.opt <;> first | rfl | (rw [hopt] at h; cases h)

namespace TalkCall

/-- What has been sent, and what is still to be sent while the connection holds. -/
structure Writes (messages : List String) (c : TalkCall) : Prop where
  user : c.user <:+ userCalls messages
  sent : c.sent <+: script messages
  frames : c.broken = false →
    c.sent ++ c.outstanding.flatMap Posted.frames ++ c.user.flatMap UserCall.frames = script messages
  shut : c.shut = true → c.sent = script messages
  closing : (∃ o ∈ c.outstanding, o.opt = .writeDone) ∨ .setClosed ∈ c.todo ∨ c.shut = true ∨ c.call.closed = true →
    c.user = []

/-- What has been printed, and when the end is reported. -/
structure Prints (c : TalkCall) : Prop where
  got : c.got = c.printed.map Frame.words ++ (c.trailing.map Frame.status).toList
  reported : c.reported = true → c.trailing = some .ok
  finishing : c.broken = false → (∃ o ∈ c.outstanding, o.opt = .finish) ∨ .setFinish ∈ c.todo ∨
    (∃ event, .post .finish event ∈ c.todo) ∨ c.call.finish = true → c.trailing.isSome = true
  told : c.broken = false → .setFinish ∈ c.todo ∨ c.call.finish = true → c.trailing = some .ok → c.reported = true

/-- The user gets behind `acquire` for something, and writing ends with `close`. -/
structure Closes (c : TalkCall) : Prop where
  behind : c.holds = true → c.user ≠ []
  closes : c.user = [] → (∃ o ∈ c.outstanding, o.opt = .writeDone) ∨ .setClosed ∈ c.todo ∨ c.call.closed = true
  shut : c.broken = false → .setClosed ∈ c.todo ∨ c.call.closed = true → c.shut = true

section Writes
variable {messages : List String} {c c' : TalkCall} {o : Posted} {d : List Frame} {ok : Bool}
  {before after : List Posted}

/-- One operation at a time has something to send. -/
theorem Wired.alone (h : c.Wired) (hs : c.outstanding = before ++ o :: after)
    (ho : CallKind.talk.permits o.opt = true) :
    before.flatMap Posted.frames = [] ∧ after.flatMap Posted.frames = [] := by
  have hpermit := h.permit
  have hremaining := h.remaining
  simp only [permits, hs, List.countP_append, List.countP_cons, ho, if_true] at hpermit
  have hbefore : before.countP (CallKind.talk.permits ·.opt) = 0 := by omega
  have hafter : after.countP (CallKind.talk.permits ·.opt) = 0 := by omega
  rw [List.countP_eq_zero] at hbefore hafter
  constructor
  · exact List.flatMap_eq_nil_iff.mpr fun o' ho' => Posted.frames_of_permits (by simpa using hbefore o' ho')
  · exact List.flatMap_eq_nil_iff.mpr fun o' ho' => Posted.frames_of_permits (by simpa using hafter o' ho')

theorem setClosed_mem_answer {key : EventKey} {opt : ClientEventOpt} (h : .setClosed ∈ answer key opt ok) :
    opt = .writeDone := by
  have hget : ClientEventOpt.ofCode (Event.mk key opt.code).getOpt = some opt := Client.ClientEventOpt.ofCode_code opt
  unfold answer Client.talkProcess at h
  rw [hget] at h
  cases opt <;> cases ok <;> simp at h ⊢

/-- An operation that has nothing to send, or that fails. -/
theorem Writes.answered_silent (h : c.Writes messages) (hs : c.outstanding = before ++ o :: after)
    (hsilent : c.broken = true ∨ o.frames = [])
    (hsame : c'.call = c.call ∧ c'.user = c.user ∧ c'.sent = c.sent ∧ c'.shut = c.shut ∧ c'.broken = c.broken) :
    (c'.answered (before ++ after) o ok).Writes messages := by
  obtain ⟨hcall, huser, hsent, hshut, hbroken⟩ := hsame
  rw [answered_eq]
  refine ⟨?_, ?_, ?_, ?_, ?_⟩
  · rw [huser]
    exact h.user
  · rw [hsent]
    exact h.sent
  · intro hholds
    rw [hbroken] at hholds
    have hframes := h.frames hholds
    have ho : o.frames = [] := hsilent.resolve_left (by rw [hholds]; exact Bool.false_ne_true)
    rw [hs, List.flatMap_append, List.flatMap_cons, ho, List.nil_append, ← List.flatMap_append] at hframes
    rw [hsent, huser]
    exact hframes
  · rw [hshut, hsent]
    exact h.shut
  · rintro (⟨o', ho', hdone⟩ | hdone | hdone | hdone)
    · rw [huser]
      refine h.closing (.inl ⟨o', ?_, hdone⟩)
      rw [hs]
      simp only [List.mem_append, List.mem_cons] at ho' ⊢
      tauto
    · rw [huser]
      exact h.closing (.inl ⟨o, by rw [hs]; simp, setClosed_mem_answer hdone⟩)
    · rw [huser]
      exact h.closing (.inr (.inr (.inl (hshut ▸ hdone))))
    · rw [huser]
      exact h.closing (.inr (.inr (.inr (by rw [← hcall]; exact hdone))))

/-- An operation that sends a frame. -/
theorem Writes.answered_sent {frame : Frame} (h : c.Writes messages) (hw : c.Wired)
    (hs : c.outstanding = before ++ o :: after) (hpermits : CallKind.talk.permits o.opt = true)
    (hopt : o.opt ≠ .writeDone) (hframe : o.frames = [frame]) (hbroken : c.broken = false) (hshut : c.shut = false) :
    ({ c with sent := c.sent ++ [frame] }.answered (before ++ after) o ok).Writes messages := by
  obtain ⟨hbefore, hafter⟩ := hw.alone hs hpermits
  have hframes := h.frames hbroken
  rw [hs, List.flatMap_append, List.flatMap_cons, hbefore, hafter, hframe, List.nil_append, List.append_nil] at hframes
  rw [answered_eq]
  refine ⟨h.user, ⟨c.user.flatMap UserCall.frames, hframes⟩, ?_, ?_, ?_⟩
  · intro _
    show c.sent ++ [frame] ++ (before ++ after).flatMap Posted.frames ++ c.user.flatMap UserCall.frames = script messages
    rw [List.flatMap_append, hbefore, hafter, List.append_nil, List.append_nil]
    exact hframes
  · intro hdone
    cases hshut.symm.trans hdone
  · rintro (⟨o', ho', hdone⟩ | hdone | hdone | hdone)
    · refine h.closing (.inl ⟨o', ?_, hdone⟩)
      rw [hs]
      simp only [List.mem_append, List.mem_cons] at ho' ⊢
      tauto
    · exact absurd (setClosed_mem_answer hdone) hopt
    · exact h.closing (.inr (.inr (.inl hdone)))
    · exact h.closing (.inr (.inr (.inr hdone)))

theorem Writes.answered (h : c.Writes messages) (hw : c.Wired) (hs : c.outstanding = before ++ o :: after)
    (hc : c.Completes o d ok c') : (c'.answered (before ++ after) o ok).Writes messages := by
  cases hc with
  | startCall hopt hbroken hshut =>
    exact h.answered_sent hw hs (by rw [hopt]; rfl) (by rw [hopt]; exact ClientEventOpt.noConfusion)
      (by rw [Posted.frames, hopt]) hbroken hshut
  | write hopt hbroken hshut =>
    exact h.answered_sent hw hs (by rw [hopt]; rfl) (by rw [hopt]; exact ClientEventOpt.noConfusion)
      (by rw [Posted.frames, hopt]) hbroken hshut
  | writeDone hopt hbroken =>
    have hnone : o.frames = [] := by rw [Posted.frames, hopt]
    obtain ⟨hbefore, hafter⟩ := hw.alone hs (by rw [hopt]; rfl)
    have huser := h.closing (.inl ⟨o, by rw [hs]; simp, hopt⟩)
    have hframes := h.frames hbroken
    rw [hs, List.flatMap_append, List.flatMap_cons, hbefore, hafter, hnone, huser] at hframes
    have hsent : c.sent = script messages := by simpa using hframes
    rw [answered_eq]
    refine ⟨h.user, h.sent, ?_, fun _ => hsent, fun _ => huser⟩
    intro _
    show c.sent ++ (before ++ after).flatMap Posted.frames ++ c.user.flatMap UserCall.frames = script messages
    rw [List.flatMap_append, hbefore, hafter, huser]
    simpa using hsent
  | read content hopt hbroken htrailing =>
    exact h.answered_silent hs (.inr (by rw [Posted.frames, hopt])) ⟨rfl, rfl, rfl, rfl, rfl⟩
  | readEnd hopt _ =>
    exact h.answered_silent hs (.inr (by rw [Posted.frames, hopt])) ⟨rfl, rfl, rfl, rfl, rfl⟩
  | finish status hopt _ =>
    exact h.answered_silent hs (.inr (by rw [Posted.frames, hopt])) ⟨rfl, rfl, rfl, rfl, rfl⟩
  | fails hbroken _ => exact h.answered_silent hs (.inl hbroken) ⟨rfl, rfl, rfl, rfl, rfl⟩
  | failsFinish hbroken _ => exact h.answered_silent hs (.inl hbroken) ⟨rfl, rfl, rfl, rfl, rfl⟩

theorem Writes.userPost {u : UserCall} {rest : List UserCall} (h : c.Writes messages) (hu : c.user = u :: rest) :
    (c.userPost u rest).Writes messages := by
  have hsuffix : u :: rest <:+ userCalls messages := hu ▸ h.user
  refine ⟨(List.suffix_cons u rest).trans hsuffix, h.sent, ?_, h.shut, ?_⟩
  · intro hbroken
    have hframes := h.frames hbroken
    rw [hu] at hframes
    show c.sent ++ (c.outstanding ++ [_]).flatMap Posted.frames ++ rest.flatMap UserCall.frames = script messages
    rw [List.flatMap_append, ← hframes]
    cases u <;> simp [Posted.frames, UserCall.opt, UserCall.content, UserCall.frames]
  · have hopen : ∀ {p : Prop}, c.user = [] → p := fun h => by
      rw [hu] at h
      cases h
    rintro (⟨o, ho, hdone⟩ | hdone | hdone | hdone)
    · rcases List.mem_append.mp ho with ho | ho
      · exact hopen (h.closing (.inl ⟨o, ho, hdone⟩))
      · cases List.mem_singleton.mp ho
        cases u with
        | close => exact eq_nil_of_close hsuffix
        | start | write => cases hdone
    · exact hopen (h.closing (.inr (.inl hdone)))
    · exact hopen (h.closing (.inr (.inr (.inl hdone))))
    · exact hopen (h.closing (.inr (.inr (.inr hdone))))

/-- A step of `process` sends nothing. -/
theorem Writes.exec {i : Instr} {rest : List Instr} (h : c.Writes messages) (hw : c.Wired)
    (hp : c.poller = .run (i :: rest)) (he : c.exec rest i = some c') : c'.Writes messages := by
  have htodo : c.todo = i :: rest := by rw [todo, hp]
  have hmem : ∀ i' ∈ rest, i' ∈ c.todo := fun i' hi' => by
    rw [htodo]
    exact List.mem_cons_of_mem _ hi'
  have hrest : .setClosed ∈ rest ∨ c.shut = true ∨ c.call.closed = true → c.user = [] := fun hdone =>
    h.closing (.inr (hdone.imp_left (hmem _)))
  cases i with
  | post opt event =>
    cases he
    obtain ⟨hopt, -, -⟩ := hw.known (.post opt event) (by rw [htodo]; exact List.mem_cons_self ..)
    have hnone : (Posted.mk opt "" event.getToken).frames = [] := by
      rcases hopt with rfl | rfl <;> rfl
    refine ⟨h.user, h.sent, fun hbroken => ?_, h.shut, ?_⟩
    · show c.sent ++ (c.outstanding ++ [_]).flatMap Posted.frames ++ c.user.flatMap UserCall.frames = script messages
      rw [List.flatMap_append, List.flatMap_singleton, hnone, List.append_nil]
      exact h.frames hbroken
    · rintro (⟨o, ho, hdone⟩ | hdone)
      · rcases List.mem_append.mp ho with ho | ho
        · exact h.closing (.inl ⟨o, ho, hdone⟩)
        · cases List.mem_singleton.mp ho
          rcases hopt with rfl | rfl <;> cases hdone
      · exact hrest hdone
  | setFinish =>
    cases he
    exact ⟨h.user, h.sent, h.frames, h.shut, fun hdone => hdone.elim (fun ho => h.closing (.inl ho)) hrest⟩
  | setClosed =>
    cases he
    exact ⟨h.user, h.sent, h.frames, h.shut,
      fun _ => h.closing (.inr (.inl (by rw [htodo]; exact List.mem_cons_self ..)))⟩
  | release =>
    obtain ⟨-, he⟩ := Option.ite_none_right_eq_some.mp he
    cases he
    exact ⟨h.user, h.sent, h.frames, h.shut, fun hdone => hdone.elim (fun ho => h.closing (.inl ho)) hrest⟩
  | unexpected =>
    cases he
    exact ⟨h.user, h.sent, h.frames, h.shut, fun hdone => hdone.elim (fun ho => h.closing (.inl ho)) hrest⟩

theorem Writes.step (h : c.Writes messages) (hw : c.Wired) (hs : Step c d c') : c'.Writes messages := by
  cases hs with
  | acquire _ _ _ => exact ⟨h.user, h.sent, h.frames, h.shut, h.closing⟩
  | post hu _ => exact h.userPost hu
  | complete hp hj hc =>
    obtain ⟨before, after, hs, herase⟩ := split_of_getElem? hj
    rw [hw.dispatch_eq (List.mem_of_getElem? hj) hc, herase]
    exact h.answered hw hs hc
  | exec hp he => exact h.exec hw hp he
  | next hp | leaves hp _ =>
    refine ⟨h.user, h.sent, h.frames, h.shut, ?_⟩
    rintro (ho | hdone | hdone)
    · exact h.closing (.inl ho)
    · cases hdone
    · exact h.closing (.inr (.inr hdone))
  | trailing status _ _ => exact ⟨h.user, h.sent, h.frames, h.shut, h.closing⟩
  | breaks => exact ⟨h.user, h.sent, fun hbroken => Bool.noConfusion hbroken, h.shut, h.closing⟩

end Writes

section Prints
variable {c c' : TalkCall} {o : Posted} {d : List Frame} {ok : Bool} {before after : List Posted}

theorem setFinish_mem_answer {key : EventKey} {opt : ClientEventOpt} (h : .setFinish ∈ answer key opt ok) :
    opt = .finish ∨ opt = .startCall ∧ ok = false := by
  have hget : ClientEventOpt.ofCode (Event.mk key opt.code).getOpt = some opt := Client.ClientEventOpt.ofCode_code opt
  unfold answer Client.talkProcess at h
  rw [hget] at h
  cases opt <;> cases ok <;> simp at h ⊢

theorem finish_mem_answer {key : EventKey} {opt : ClientEventOpt} {event : Event}
    (h : .post .finish event ∈ answer key opt ok) : opt = .read ∧ ok = false := by
  have hget : ClientEventOpt.ofCode (Event.mk key opt.code).getOpt = some opt := Client.ClientEventOpt.ofCode_code opt
  unfold answer Client.talkProcess at h
  rw [hget] at h
  cases opt <;> cases ok <;> simp at h ⊢

/-- What a completed operation changes of the connection and of what has been printed. -/
theorem Completes.prints (hc : c.Completes o d ok c') : c'.trailing = c.trailing ∧ c'.broken = c.broken ∧
    c'.printed = c.printed ∧ c'.reported = c.reported ∧
    c'.got = c.got ++ if o.opt = .read ∧ ok = true then [Frame.words c'.response] else [] := by
  cases hc with
  | startCall hopt _ _ | write hopt _ _ | writeDone hopt _ | read content hopt _ _ | readEnd hopt _
  | finish status hopt _ | failsFinish _ hopt => simp [hopt]
  | fails hbroken hopt => simp

theorem Prints.answered (h : c.Prints) (hs : c.outstanding = before ++ o :: after) (hc : c.Completes o d ok c') :
    (c'.answered (before ++ after) o ok).Prints := by
  obtain ⟨hcall, -, -, -⟩ := hc.same
  obtain ⟨htrailing, hbroken, hprinted, hreported, hgot⟩ := hc.prints
  have hend : c.broken = false → o.opt = .finish → c.trailing.isSome = true := fun hb ho =>
    h.finishing hb (.inl ⟨o, by rw [hs]; simp, ho⟩)
  rw [answered_eq]
  refine ⟨?_, ?_, ?_, ?_⟩
  · show c'.got = (c'.printed ++ _).map Frame.words ++ (c'.trailing.map Frame.status).toList
    rw [hgot, h.got, htrailing, hprinted]
    by_cases hread : o.opt = .read ∧ ok = true
    · have hnone : c.trailing = none := by
        cases hc with
        | read content _ _ hnone => exact hnone
        | startCall hopt _ _ | write hopt _ _ | writeDone hopt _ | finish status hopt _ | failsFinish _ hopt =>
          rw [hopt] at hread
          cases hread.1
        | readEnd _ _ | fails _ _ => cases hread.2
      simp [hread, hnone]
    · simp [hread]
  · intro hdone
    rcases Bool.or_eq_true_iff.mp hdone with hdone | hdone
    · exact htrailing.trans (h.reported (hreported ▸ hdone))
    · obtain ⟨ho, hok, hstatus⟩ := of_decide_eq_true hdone
      cases hc with
      | finish status _ htrailing' => exact htrailing'.trans hstatus
      | startCall hopt _ _ | write hopt _ _ | writeDone hopt _ | read content hopt _ _ | readEnd hopt _ =>
        rw [hopt] at ho
        cases ho
      | fails _ hopt => exact absurd ho hopt
      | failsFinish _ _ => cases hstatus
  · intro hb hdone
    have hb : c.broken = false := hbroken ▸ hb
    show c'.trailing.isSome = true
    rw [htrailing]
    rcases hdone with ⟨o', ho', hfinish⟩ | hdone | ⟨event, hdone⟩ | hdone
    · refine h.finishing hb (.inl ⟨o', ?_, hfinish⟩)
      rw [hs]
      simp only [List.mem_append, List.mem_cons] at ho' ⊢
      tauto
    · rcases setFinish_mem_answer hdone with ho | ⟨ho, hok⟩
      · exact hend hb ho
      · cases hc with
        | fails hbroken' _ => cases hb.symm.trans hbroken'
        | startCall _ _ _ | write _ _ _ | writeDone _ _ | read _ _ _ _ | finish _ _ _ | failsFinish _ _ => cases hok
        | readEnd hopt _ =>
          rw [hopt] at ho
          cases ho
    · obtain ⟨ho, hok⟩ := finish_mem_answer hdone
      cases hc with
      | readEnd _ hsome => exact hsome
      | fails hbroken' _ => cases hb.symm.trans hbroken'
      | startCall _ _ _ | write _ _ _ | writeDone _ _ | read _ _ _ _ | finish _ _ _ | failsFinish _ _ => cases hok
    · exact h.finishing hb (.inr (.inr (.inr (by rw [← hcall]; exact hdone))))
  · intro hb hdone hok'
    have hb : c.broken = false := hbroken ▸ hb
    have hok' : c.trailing = some .ok := htrailing ▸ hok'
    refine Bool.or_eq_true_iff.mpr ?_
    rcases hdone with hdone | hdone
    · rcases setFinish_mem_answer hdone with ho | ⟨ho, hok⟩
      · right
        cases hc with
        | finish status _ htrailing' =>
          rw [htrailing'] at hok'
          exact decide_eq_true ⟨ho, rfl, hok'⟩
        | startCall hopt _ _ | write hopt _ _ | writeDone hopt _ | read content hopt _ _ | readEnd hopt _ =>
          rw [hopt] at ho
          cases ho
        | fails _ hopt => exact absurd ho hopt
        | failsFinish hbroken' _ => cases hb.symm.trans hbroken'
      · cases hc with
        | fails hbroken' _ => cases hb.symm.trans hbroken'
        | startCall _ _ _ | write _ _ _ | writeDone _ _ | read _ _ _ _ | finish _ _ _ | failsFinish _ _ => cases hok
        | readEnd hopt _ =>
          rw [hopt] at ho
          cases ho
    · left
      rw [hreported]
      exact h.told hb (.inr (by rw [← hcall]; exact hdone)) hok'

theorem Prints.exec {i : Instr} {rest : List Instr} (h : c.Prints) (hp : c.poller = .run (i :: rest))
    (he : c.exec rest i = some c') : c'.Prints := by
  have htodo : c.todo = i :: rest := by rw [todo, hp]
  have hmem : ∀ {i'}, i' ∈ rest → i' ∈ c.todo := fun hi' => by
    rw [htodo]
    exact List.mem_cons_of_mem _ hi'
  have hhead : i ∈ c.todo := by
    rw [htodo]
    exact List.mem_cons_self ..
  have hfinishing : c.broken = false → (∃ o ∈ c.outstanding, o.opt = .finish) ∨ .setFinish ∈ rest ∨
      (∃ event, .post .finish event ∈ rest) ∨ c.call.finish = true → c.trailing.isSome = true := fun hb hdone =>
    h.finishing hb (hdone.imp_right (Or.imp hmem (Or.imp_left fun ⟨event, he⟩ => ⟨event, hmem he⟩)))
  have htold : c.broken = false → .setFinish ∈ rest ∨ c.call.finish = true → c.trailing = some .ok →
      c.reported = true := fun hb hdone => h.told hb (hdone.imp_left hmem)
  cases i with
  | post opt event =>
    cases he
    refine ⟨h.got, h.reported, fun hb hdone => ?_, htold⟩
    rcases hdone with ⟨o, ho, hfinish⟩ | hdone
    · rcases List.mem_append.mp ho with ho | ho
      · exact h.finishing hb (.inl ⟨o, ho, hfinish⟩)
      · cases List.mem_singleton.mp ho
        cases hfinish
        exact h.finishing hb (.inr (.inr (.inl ⟨event, hhead⟩)))
    · exact hfinishing hb (.inr hdone)
  | setFinish =>
    cases he
    exact ⟨h.got, h.reported, fun hb _ => h.finishing hb (.inr (.inl hhead)), fun hb _ => h.told hb (.inl hhead)⟩
  | setClosed =>
    cases he
    exact ⟨h.got, h.reported, hfinishing, htold⟩
  | release =>
    obtain ⟨-, he⟩ := Option.ite_none_right_eq_some.mp he
    cases he
    exact ⟨h.got, h.reported, hfinishing, htold⟩
  | unexpected =>
    cases he
    exact ⟨h.got, h.reported, hfinishing, htold⟩

theorem Prints.step (h : c.Prints) (hw : c.Wired) (hs : Step c d c') : c'.Prints := by
  cases hs with
  | acquire _ _ _ => exact ⟨h.got, h.reported, h.finishing, h.told⟩
  | @post u rest hu _ =>
    refine ⟨h.got, h.reported, fun hb hdone => ?_, h.told⟩
    rcases hdone with ⟨o, ho, hfinish⟩ | hdone
    · rcases List.mem_append.mp ho with ho | ho
      · exact h.finishing hb (.inl ⟨o, ho, hfinish⟩)
      · cases List.mem_singleton.mp ho
        cases u <;> cases hfinish
    · exact h.finishing hb (.inr hdone)
  | complete hp hj hc =>
    obtain ⟨before, after, hs, herase⟩ := split_of_getElem? hj
    rw [hw.dispatch_eq (List.mem_of_getElem? hj) hc, herase]
    exact h.answered hs hc
  | exec hp he => exact h.exec hp he
  | next hp | leaves hp _ =>
    refine ⟨h.got, h.reported, fun hb hdone => ?_, fun hb hdone => ?_⟩
    · rcases hdone with ho | hdone | ⟨event, hdone⟩ | hdone
      · exact h.finishing hb (.inl ho)
      · cases hdone
      · cases hdone
      · exact h.finishing hb (.inr (.inr (.inr hdone)))
    · rcases hdone with hdone | hdone
      · cases hdone
      · exact h.told hb (.inr hdone)
  | trailing status hb hnone =>
    have hopen : ∀ {p : Prop}, c.trailing.isSome = true → p := fun hsome => by
      rw [hnone] at hsome
      cases hsome
    refine ⟨?_, fun hreported => hopen (by rw [h.reported hreported]; rfl), fun _ _ => rfl, fun _ hdone => ?_⟩
    · show c.got ++ [Frame.status status] = _
      rw [h.got, hnone]
      simp
    · exact hopen (h.finishing hb (hdone.elim (fun hdone => .inr (.inl hdone)) fun hdone => .inr (.inr (.inr hdone))))
  | breaks =>
    exact ⟨h.got, h.reported, fun hb => Bool.noConfusion hb, fun hb => Bool.noConfusion hb⟩

end Prints

section Closes
variable {messages : List String} {c c' : TalkCall} {o : Posted} {d : List Frame} {ok : Bool}
  {before after : List Posted}

theorem setClosed_mem_answer_of {key : EventKey} {opt : ClientEventOpt} (h : opt = .writeDone) :
    .setClosed ∈ answer key opt ok := by
  have hget : ClientEventOpt.ofCode (Event.mk key opt.code).getOpt = some opt := Client.ClientEventOpt.ofCode_code opt
  unfold answer Client.talkProcess
  rw [hget, h]
  exact List.mem_singleton_self _

theorem Closes.answered (h : c.Closes) (hp : c.poller = .next) (hs : c.outstanding = before ++ o :: after)
    (hc : c.Completes o d ok c') : (c'.answered (before ++ after) o ok).Closes := by
  obtain ⟨hcall, -, huser, hholds⟩ := hc.same
  have htodo : c.todo = [] := by rw [todo, hp]
  rw [answered_eq]
  refine ⟨?_, ?_, ?_⟩
  · rw [hholds, huser]
    exact h.behind
  · intro hnone
    rw [huser] at hnone
    rcases h.closes hnone with ⟨o', ho', hdone⟩ | hdone | hdone
    · rw [hs, List.mem_append, List.mem_cons] at ho'
      rcases ho' with ho' | rfl | ho'
      · exact .inl ⟨o', List.mem_append_left _ ho', hdone⟩
      · exact .inr (.inl (setClosed_mem_answer_of hdone))
      · exact .inl ⟨o', List.mem_append_right _ ho', hdone⟩
    · rw [htodo] at hdone
      cases hdone
    · exact .inr (.inr (by rw [hcall]; exact hdone))
  · intro hb hdone
    have hold : c.broken = false → c.call.closed = true → c.shut = true := fun hb hclosed => h.shut hb (.inr hclosed)
    cases hc with
    | writeDone _ _ => rfl
    | startCall hopt _ _ | write hopt _ _ | read _ hopt _ _ | readEnd hopt _ | finish _ hopt _ =>
      refine hold hb (hdone.resolve_left fun hmem => ?_)
      cases hopt.symm.trans (setClosed_mem_answer hmem)
    | fails hbroken _ | failsFinish hbroken _ => cases hb.symm.trans hbroken

theorem Closes.exec {i : Instr} {rest : List Instr} (h : c.Closes) (hp : c.poller = .run (i :: rest))
    (he : c.exec rest i = some c') : c'.Closes := by
  have htodo : c.todo = i :: rest := by rw [todo, hp]
  have hcloses := h.closes
  have hshut := h.shut
  rw [htodo, List.mem_cons] at hcloses hshut
  have hother : i ≠ .setClosed → (c.user = [] → (∃ o ∈ c.outstanding, o.opt = .writeDone) ∨ .setClosed ∈ rest ∨
      c.call.closed = true) ∧ (c.broken = false → .setClosed ∈ rest ∨ c.call.closed = true → c.shut = true) := fun hne =>
    ⟨fun hu => (hcloses hu).imp_right (Or.imp_left fun hmem => hmem.resolve_left (Ne.symm hne)),
      fun hb hdone => hshut hb (hdone.imp_left .inr)⟩
  cases i with
  | post opt event =>
    cases he
    obtain ⟨hclose, hshut⟩ := hother Instr.noConfusion
    refine ⟨h.behind, fun hu => (hclose hu).imp_left ?_, hshut⟩
    rintro ⟨o, ho, hdone⟩
    exact ⟨o, List.mem_append_left _ ho, hdone⟩
  | setFinish =>
    cases he
    obtain ⟨hclose, hshut⟩ := hother Instr.noConfusion
    exact ⟨h.behind, hclose, hshut⟩
  | setClosed =>
    cases he
    exact ⟨h.behind, fun _ => .inr (.inr rfl), fun hb _ => hshut hb (.inl (.inl rfl))⟩
  | release =>
    obtain ⟨-, he⟩ := Option.ite_none_right_eq_some.mp he
    cases he
    obtain ⟨hclose, hshut⟩ := hother Instr.noConfusion
    exact ⟨h.behind, hclose, hshut⟩
  | unexpected =>
    cases he
    obtain ⟨hclose, hshut⟩ := hother Instr.noConfusion
    exact ⟨h.behind, hclose, hshut⟩

theorem Closes.step (h : c.Closes) (hw : c.Wired) (hwrites : c.Writes messages) (hs : Step c d c') : c'.Closes := by
  cases hs with
  | acquire hu _ _ =>
    refine ⟨fun _ => ?_, h.closes, h.shut⟩
    show c.user ≠ []
    rw [hu]
    exact List.cons_ne_nil _ _
  | @post u rest hu _ =>
    refine ⟨fun hholds => Bool.noConfusion hholds, fun hnone => .inl ?_, h.shut⟩
    have hnone : rest = [] := hnone
    have hlast := hwrites.user
    rw [hu, hnone] at hlast
    cases eq_close_of_last hlast
    exact ⟨_, List.mem_append_right _ (List.mem_singleton_self _), rfl⟩
  | complete hp hj hc =>
    obtain ⟨before, after, hs, herase⟩ := split_of_getElem? hj
    rw [hw.dispatch_eq (List.mem_of_getElem? hj) hc, herase]
    exact h.answered hp hs hc
  | exec hp he => exact h.exec hp he
  | next hp | leaves hp _ =>
    have htodo : c.todo = [] := by rw [todo, hp]
    have hcloses := h.closes
    have hshut := h.shut
    rw [htodo] at hcloses hshut
    exact ⟨h.behind, hcloses, hshut⟩
  | trailing _ _ _ => exact ⟨h.behind, h.closes, h.shut⟩
  | breaks => exact ⟨h.behind, h.closes, fun hb => Bool.noConfusion hb⟩

end Closes

/-- What holds of the client at every step. -/
structure Inv (messages : List String) (c : TalkCall) : Prop where
  wired : c.Wired
  writes : c.Writes messages
  prints : c.Prints
  closes : c.Closes

theorem Inv.step {messages : List String} {c c' : TalkCall} {d : List Frame} (h : c.Inv messages) (hs : Step c d c') :
    c'.Inv messages :=
  ⟨h.wired.step hs, h.writes.step h.wired hs, h.prints.step h.wired hs,
    h.closes.step h.wired h.writes hs⟩

theorem Inv.start (polling : Bool) (key : EventKey) (queue : Int) (messages : List String) :
    (start polling key queue messages).Inv messages := by
  have hcount : (userCalls messages).count .start = 1 := by
    rw [userCalls, List.cons_append, List.count_cons_self, List.count_append]
    have hzero : (messages.map UserCall.write).count .start = 0 := by
      rw [List.count_eq_zero]
      intro hmem
      obtain ⟨msg, -, hmsg⟩ := List.mem_map.mp hmem
      cases hmsg
    rw [hzero]
    rfl
  cases polling with
  | true | false =>
    refine ⟨⟨rfl, rfl, ?_, ?_, Poller.noConfusion, Int.one_nonneg, rfl, ?_, ?_, ?_⟩, ⟨List.suffix_refl _,
      List.nil_prefix, fun _ => frames_userCalls messages, ?_, ?_⟩, ⟨rfl, ?_, ?_, ?_⟩, ⟨?_, ?_, ?_⟩⟩
    · intro o ho
      cases ho
    · intro i hi
      cases hi
    · show (userCalls messages).count .start + _ + _ + _ = 1
      rw [hcount]
      rfl
    · intro hgone
      cases hgone
    · intro _ hfinish
      cases hfinish
    · intro hshut
      cases hshut
    · rintro (⟨o, ho, -⟩ | hdone | hdone | hdone)
      · cases ho
      · cases hdone
      · cases hdone
      · cases hdone
    · intro hreported
      cases hreported
    · rintro - (⟨o, ho, -⟩ | hdone | ⟨event, hdone⟩ | hdone)
      · cases ho
      · cases hdone
      · cases hdone
      · cases hdone
    · rintro - (hdone | hdone)
      · cases hdone
      · cases hdone
    · intro hholds
      cases hholds
    · intro hnone
      cases hnone
    · rintro - (hdone | hdone)
      · cases hdone
      · cases hdone

end TalkCall
end HelloWorld.Talk
