import CppProgramming.HelloWorld.ServerInv

/-! # Stopping the server

`stop` sets `stopped`, lets the accepted calls finish and shuts the queues down. A call that has been accepted and not
finished keeps the queues open, so that its operations and the handler that it makes for the next call are in time. A
constructor that has found `stopped` false for another reason is not protected, and neither is a talk call whose `Write`
has failed: it goes on after its `Finish`. -/

namespace HelloWorld.Server
open Interleaving

/-! ### The rules -/

namespace Rpc

/-- `Request…` has completed with a call. -/
def accepted (r : Rpc) : Bool := r.completed.contains (.request, true)

/-- `Finish` has been posted, and may have completed. -/
def finishPosted (r : Rpc) : Bool := r.posted.any Operation.isFinish

/-- A `Write` of a talk call has completed not ok. -/
def writeFailed (r : Rpc) : Bool :=
  decide (r.handler.method = .talk) && r.completed.any fun result => decide (result.1.opt = .write) && !result.2

end Rpc

/-- `grpcServer->Shutdown()` returns. -/
def Act.drains : Act → Bool
  | .drain => true
  | _ => false

/-- A `Request…` completes with a call. -/
def Act.accepts : Act → Bool
  | .complete _ o true _ => decide (o.operation = .request)
  | _ => false

/-- The queue that is shut down. -/
def Act.shutsDown : Act → Option Nat
  | .shutdown cq => some cq
  | _ => none

/-- How `grpcServer->Shutdown()` behaves: it returns when every accepted call has finished, and from then on a
    `Request…` does not complete with a call. -/
def ofGrpc : Rule Shared Thread Act Unit where
  step s _ a :=
    (a.drains = true → ∀ c < s.shared.created, (s.shared.rpc c).accepted = true →
      (s.shared.rpc c).handler.isComplete = true ∨ (s.shared.rpc c).finishPosted = true) ∧
    (a.accepts = true → s.shared.drained = false)
  call _ := True

/-- The constructor is behind the test of `stopped`. -/
def RegisterPc.passed : RegisterPc → Bool
  | .test => false
  | _ => true

/-- The thread of the queue `cq` has found `stopped` false and will call `requestFunc`, for one of the first handlers or
    for the successor of a handler that has not received a call and has nothing to post. -/
def Thread.registersOn (cq : Nat) : Thread → Bool
  | .demultiplex cq' (.start p _ _) => decide (cq' = cq) && p.passed
  | .demultiplex cq' (.renew p _ _ todo) => decide (cq' = cq) && p.passed && decide (posts todo = 0)
  | _ => false

/-- The runs in which no queue is shut down while its thread is about to call `requestFunc`, and in which a talk call
    whose `Write` has failed is complete when `grpcServer->Shutdown()` returns. -/
def orderlyStop : Rule Shared Thread Act Unit where
  step s t a :=
    ofGrpc.step s t a ∧
    (∀ cq ∈ a.shutsDown, ∀ u ∈ s.threads, u.registersOn cq = false) ∧
    (a.drains = true → ∀ c < s.shared.created, (s.shared.rpc c).writeFailed = true →
      (s.shared.rpc c).handler.isComplete = true)
  call _ := True

/-! ### Calls that go on -/

/-- The call keeps the queues open. -/
structure Rpc.Live (r : Rpc) : Prop where
  accepted : r.accepted = true
  finish : r.handler.finish = false
  unfinished : r.writeFailed = true ∨ r.finishPosted = false

/-- The operation keeps the queues open: its call goes on, or it is the last one of the call. -/
def Op.Going (s : Shared) (o : Op) : Prop :=
  (o.operation = .request → (s.rpc o.rpc).finishPosted = false) ∧
  (o.operation ≠ .request → (s.rpc o.rpc).Live ∨ (Event.ofToken o.token).getOpt = ServerEventOpt.finish.code) ∧
  ((Event.ofToken o.token).getOpt = o.operation.opt.code ∨ (s.rpc o.rpc).writeFailed = true)

/-- An operation is only posted while the call keeps the queues open. -/
def Instr.Going (r : Rpc) : Instr → Prop
  | .post operation event => r.Live ∧ (event.opt = operation.opt.code ∨ r.writeFailed = true)
  | _ => True

/-- The call whose request is about to be posted is not finished. -/
def RegisterPc.Going (s : Shared) : RegisterPc → Prop
  | .request c _ => (s.rpc c).finishPosted = false
  | _ => True

/-- What the thread has in hand or is about to post keeps the queues open. -/
def DemuxPc.Going (s : Shared) : DemuxPc → Prop
  | .start p _ _ => p.Going s
  | .contains o ok | .get o ok | .process _ o ok => o.Going s ∧
      (o.operation = .request → ok = true → (s.rpc o.rpc).accepted = true) ∧
      ((Event.ofToken o.token).getOpt = ServerEventOpt.write.code → ok = false → o.method = .talk →
        (s.rpc o.rpc).writeFailed = true)
  | .run c _ todo => ∀ x ∈ todo, x.Going (s.rpc c)
  | .renew p c _ todo => (∀ x ∈ todo, x.Going (s.rpc c)) ∧ p.Going s
  | _ => True

/-- What a thread has in hand keeps the queues open, and the server is stopped in the order of its
steps. -/
def Thread.Going (s : Shared) : Thread → Prop
  | .waiting => True
  | .demultiplex _ p => p.Going s
  | .stop .stop | .stop .finished => True
  | .stop .shutdown => s.stopped = true
  | .stop (.queues _) => s.stopped = true ∧ s.drained = true

/-- What holds in every state of a run that stops the server. -/
structure StopInv (s : State) : Prop where
  ops : ∀ o ∈ s.shared.inflight, o.Going s.shared
  threads : ∀ t ∈ s.threads, t.Going s.shared
  drained : s.shared.drained = true → ∀ c < s.shared.created, ¬(s.shared.rpc c).Live
  shut : s.shared.shut ≠ [] → s.shared.stopped = true ∧ s.shared.drained = true
  quiet : ∀ cq ∈ s.shared.shut, ∀ t ∈ s.threads, t.registersOn cq = false
  late : s.shared.late = []

section Rpc
variable {r : Rpc} {operation : Operation} {ok : Bool} {message : Request} {handler : EventHandler}

theorem Rpc.accepted_complete (h : r.accepted = true) : (r.complete operation ok message).accepted = true := by
  simp only [Rpc.accepted, Rpc.complete, List.contains_eq_mem, List.mem_append, decide_eq_true_eq] at h ⊢
  exact Or.inl h

theorem Rpc.writeFailed_complete (h : r.writeFailed = true) : (r.complete operation ok message).writeFailed = true := by
  simp only [Rpc.writeFailed, Rpc.complete, List.any_append, Bool.and_eq_true, Bool.or_eq_true] at h ⊢
  exact ⟨h.1, Or.inl h.2⟩

theorem Rpc.Live.complete (h : r.Live) : (r.complete operation ok message).Live :=
  ⟨Rpc.accepted_complete h.accepted, h.finish, h.unfinished.imp_left Rpc.writeFailed_complete⟩

theorem Rpc.finishPosted_post : (r.post operation).finishPosted = (r.finishPosted || operation.isFinish) := by
  simp [Rpc.finishPosted, Rpc.post]

theorem Rpc.Live.post (h : r.Live) (hnext : operation.isFinish = false ∨ r.writeFailed = true) :
    (r.post operation).Live := by
  refine ⟨h.accepted, h.finish, ?_⟩
  rcases hnext with hnext | hfailed
  · rcases h.unfinished with hfailed | hno
    · exact Or.inl hfailed
    · refine Or.inr ?_
      rw [Rpc.finishPosted_post, hno, hnext]
      rfl
  · exact Or.inl hfailed

theorem Rpc.Live.of_post (h : (r.post operation).Live) : r.Live := by
  refine ⟨h.accepted, h.finish, h.unfinished.imp_right fun hno => ?_⟩
  rw [Rpc.finishPosted_post, Bool.or_eq_false_iff] at hno
  exact hno.1

theorem Rpc.writeFailed_process (hmethod : handler.method = r.handler.method) :
    ({ r with handler } : Rpc).writeFailed = r.writeFailed := by
  simp only [Rpc.writeFailed, hmethod]

theorem Rpc.Live.process (h : r.Live) (hmethod : handler.method = r.handler.method) (hfinish : handler.finish = false) :
    ({ r with handler } : Rpc).Live :=
  ⟨h.accepted, hfinish, (Rpc.writeFailed_process hmethod).symm ▸ h.unfinished⟩

theorem Rpc.Live.of_process (h : ({ r with handler } : Rpc).Live) (hmethod : handler.method = r.handler.method)
    (hfinish : r.handler.finish = true → handler.finish = true) : r.Live := by
  refine ⟨h.accepted, ?_, Rpc.writeFailed_process hmethod ▸ h.unfinished⟩
  cases hf : r.handler.finish with
  | false => rfl
  | true => cases (hfinish hf).symm.trans h.finish

end Rpc

section Frame
variable {s : State} {i j : Nat} {t t' u : Thread} {a : Act} {c : Nat} {o : Op}

theorem rpc_update {s s' : Shared} {c' : Nat} {x : Rpc} (hrpc : s'.rpc = Function.update s.rpc c' x) (c : Nat) :
    s'.rpc c = s.rpc c ∨ c' = c := by
  by_cases heq : c = c'
  · exact Or.inr heq.symm
  · rw [hrpc, Function.update_of_ne heq]
    exact Or.inl rfl

theorem RegisterStep.rpc_kept {s : Shared} {method : Method} {cq : Nat} {p : RegisterPc} {r : Registering}
    (h : RegisterStep s method cq p a r) (hc : c < s.created) : (a.apply s).rpc c = s.rpc c ∨ 0 < p.load c := by
  cases h with
  | stopped | test | full => exact Or.inl rfl
  | add => exact Or.inl (Function.update_of_ne (Nat.ne_of_lt hc) _ _)
  | @request c' key =>
    refine (rpc_update rfl c).imp_right fun heq => ?_
    have heq : c' = c := heq
    simp [RegisterPc.load, heq]

/-- A step changes a handler only when the thread keeps it going, or takes an operation of it from the queue. -/
theorem Step.rpc_kept {s : Shared} (hs : Step s t a t') (hk : t.Knows s) (hc : c < s.created) :
    (a.apply s).rpc c = s.rpc c ∨ 0 < t.load c ∨
      ∃ j o ok message, a = .complete j o ok message ∧ o ∈ s.inflight ∧ o.rpc = c := by
  cases hs with
  | take => exact Or.inl rfl
  | stop hs => cases hs <;> exact Or.inl rfl
  | demux hs =>
    cases hs with
    | start hr => exact (hr.rpc_kept hc).imp_right Or.inl
    | renewing hr => exact (hr.rpc_kept hc).imp_right fun hload => Or.inl (Nat.add_pos_left hload _)
    | @completed j o ok message hj hq =>
      have hcases : ((Act.complete j o ok message).apply s).rpc c = s.rpc c ∨ o.rpc = c := rpc_update rfl c
      exact hcases.imp_right fun heq => Or.inr ⟨j, o, ok, message, rfl, List.mem_of_getElem? hj, heq⟩
    | @process c' o ok =>
      refine (rpc_update rfl c).imp_right fun heq => Or.inl ?_
      have heq : o.rpc = c := hk.2.rpc.symm.trans heq
      simp [Thread.load, DemuxPc.load, heq]
    | @post c' o operation event todo =>
      refine (rpc_update rfl c).imp_right fun heq => Or.inl ?_
      have heq : c' = c := heq
      simp [Thread.load, DemuxPc.load, heq, posts_post]
    | _ => exact Or.inl rfl

theorem Inv.total_le (h : Inv s) (c : Nat) :
    s.weight (Thread.load c) + s.shared.inflight.countP (fun o => o.rpc = c) ≤ 1 := by
  have htotal := h.total c
  unfold Server.total Shared.held Shared.bound at htotal
  split at htotal <;> omega

/-- A step of one thread leaves the handlers alone that another one keeps going. -/
theorem Inv.rpc_other (h : Inv s) (hi : s.threads[i]? = some t) (hj : s.threads[j]? = some u) (hne : j ≠ i)
    (hs : Step s.shared t a t') (hc : c < s.shared.created) (hload : 0 < u.load c) :
    (a.apply s.shared).rpc c = s.shared.rpc c := by
  have htotal := h.total_le c
  rcases hs.rpc_kept (h.knows t (List.mem_of_getElem? hi)) hc with hsame | hown | ⟨k, o, ok, message, -, ho, heq⟩
  · exact hsame
  · have hle := Config.add_le_weight (f := Thread.load c) hi hj hne.symm
    omega
  · have hpos : 0 < s.shared.inflight.countP fun o => o.rpc = c :=
      List.countP_pos_iff.mpr ⟨o, ho, decide_eq_true heq⟩
    have hle := Config.le_weight (f := Thread.load c) (List.mem_of_getElem? hj)
    omega

/-- A step leaves the handlers alone that an operation keeps going, unless it takes the operation from the queue. -/
theorem Inv.rpc_op (h : Inv s) (h' : Inv ⟨a.apply s.shared, s.threads.set i t'⟩) (hi : s.threads[i]? = some t)
    (hs : Step s.shared t a t') (ho : o ∈ s.shared.inflight) (ho' : o ∈ (a.apply s.shared).inflight) :
    (a.apply s.shared).rpc o.rpc = s.shared.rpc o.rpc := by
  have htotal := h.total_le o.rpc
  have ht := List.mem_of_getElem? hi
  have hpos : ∀ l : List Op, o ∈ l → 0 < l.countP fun o' => o'.rpc = o.rpc := fun l hl =>
    List.countP_pos_iff.mpr ⟨o, hl, decide_eq_true rfl⟩
  rcases hs.rpc_kept (h.knows t ht) (h.ops o ho).created with hsame | hown | ⟨k, o', ok, message, rfl, -, heq⟩
  · exact hsame
  · have hle := Config.le_weight (f := Thread.load o.rpc) ht
    have := hpos _ ho
    omega
  · have htotal' := h'.total_le o.rpc
    dsimp only at htotal'
    have hmem : t' ∈ s.threads.set i t' := List.mem_set (List.getElem?_eq_some_iff.mp hi).1 t'
    have hle := Config.le_weight (s := ⟨(Act.complete k o' ok message).apply s.shared, s.threads.set i t'⟩)
      (f := Thread.load o.rpc) hmem
    have hload : 0 < t'.load o.rpc := by
      obtain ⟨-, cq, rfl⟩ := hs.of_complete
      simp [Thread.load, DemuxPc.load, heq]
    have := hpos _ ho'
    omega

end Frame

/-! ### Steps of the invariant -/

section Step
variable {s : State} {i j : Nat} {t t' u : Thread} {a : Act} {c : Nat} {o : Op}

theorem Op.Going.congr {s s' : Shared} (h : o.Going s) (hrpc : s'.rpc o.rpc = s.rpc o.rpc) : o.Going s' := by
  unfold Op.Going
  rw [hrpc]
  exact h

theorem DemuxPc.Going.congr {s s' : Shared} {cq : Nat} {p : DemuxPc} (h : p.Going s) (hk : p.Knows s cq)
    (hrpc : ∀ c < s.created, 0 < p.load c → s'.rpc c = s.rpc c) : p.Going s' := by
  have hregister : ∀ {p : RegisterPc} {method : Method}, p.Going s → p.Knows s method cq →
      (∀ c < s.created, 0 < p.load c → s'.rpc c = s.rpc c) → p.Going s' := by
    intro p method hgoing hknows hsame
    cases p with
    | request c key =>
      change (s'.rpc c).finishPosted = false
      rw [hsame c hknows.1 (by simp [RegisterPc.load])]
      exact hgoing
    | test | add => exact trivial
  have htodo : ∀ {c : Nat} {todo : List Instr}, (∀ x ∈ todo, x.Going (s.rpc c)) → c < s.created →
      (0 < posts todo → s'.rpc c = s.rpc c) → ∀ x ∈ todo, x.Going (s'.rpc c) := by
    intro c todo hgoing hc hsame x hx
    cases x with
    | post operation event =>
      rw [hsame (List.countP_pos_iff.mpr ⟨_, hx, rfl⟩)]
      exact hgoing _ hx
    | renew | unexpected => exact trivial
  cases p with
  | start p method rest => exact hregister h hk hrpc
  | contains o ok | get o ok =>
    have hsame := hrpc o.rpc hk.1.created (by simp [DemuxPc.load])
    refine ⟨h.1.congr hsame, ?_⟩
    rw [hsame]
    exact h.2
  | process c o ok =>
    have hsame := hrpc o.rpc hk.known.created (by simp [DemuxPc.load])
    refine ⟨h.1.congr hsame, ?_⟩
    rw [hsame]
    exact h.2
  | run c o todo =>
    exact htodo h hk.1.created fun hposts => hrpc c hk.1.created (by simpa [DemuxPc.load] using hposts)
  | renew p c o todo =>
    refine ⟨htodo h.1 hk.1.created fun hposts => hrpc c hk.1.created ?_, hregister h.2 hk.2.2 fun c hc hload => ?_⟩
    · simp only [DemuxPc.load, if_true]
      omega
    · exact hrpc c hc (Nat.add_pos_left hload _)
  | next | timeout | left | shutdown | remove c o | raised => exact trivial

theorem Inv.going_other (h : Inv s) (hi : s.threads[i]? = some t) (hj : s.threads[j]? = some u) (hne : j ≠ i)
    (hs : Step s.shared t a t') (hu : u.Going s.shared) : u.Going (a.apply s.shared) := by
  cases u with
  | waiting => exact trivial
  | stop p =>
    cases p with
    | stop | finished => exact trivial
    | shutdown => exact (a.flags _).1 hu
    | queues k => exact ⟨(a.flags _).1 hu.1, (a.flags _).2 hu.2⟩
  | demultiplex cq p =>
    refine DemuxPc.Going.congr hu (h.knows _ (List.mem_of_getElem? hj)).2 fun c hc hload => ?_
    exact h.rpc_other hi hj hne hs hc hload

theorem RegisterStep.going {s : Shared} {method : Method} {cq : Nat} {p p' : RegisterPc}
    (h : RegisterStep s method cq p a (.at p')) : p'.Going (a.apply s) := by
  cases h with
  | test => exact trivial
  | add =>
    change Rpc.finishPosted (((Act.register ..).apply s).rpc s.created) = false
    rw [rpc_register]
    rfl

/-- An operation that completes. -/
theorem Op.Going.complete {s : Shared} {k : Nat} {ok : Bool} {message : Request} (h : o.Going s) (hknown : o.Known s) :
    (DemuxPc.contains o ok).Going ((Act.complete k o ok message).apply s) := by
  have hself : ((Act.complete k o ok message).apply s).rpc o.rpc = (s.rpc o.rpc).complete o.operation ok message :=
    Function.update_self ..
  obtain ⟨hrequest, hother, hnamed⟩ := h
  refine ⟨?_, ?_, ?_⟩
  · unfold Op.Going
    rw [hself]
    exact ⟨hrequest, fun hop => (hother hop).imp_left Rpc.Live.complete, hnamed.imp_right Rpc.writeFailed_complete⟩
  · rintro hop rfl
    rw [hself]
    simp [Rpc.accepted, Rpc.complete, hop]
  · rintro hwrite rfl hmethod
    rw [hself]
    rcases hnamed with hnamed | hfailed
    · have hopt : o.operation.opt = .write := ServerEventOpt.code_inj (hnamed.symm.trans hwrite)
      have htalk : (s.rpc o.rpc).handler.method = .talk := hknown.method.trans hmethod
      simp [Rpc.writeFailed, Rpc.complete, htalk, hopt]
    · exact Rpc.writeFailed_complete hfailed

/-- What `process` is about to post. -/
theorem Answer.going {r : Rpc} {h' : EventHandler} {ok : Bool} {opt : ServerEventOpt} {todo : List Instr}
    (ha : Answer r.handler ok r.key opt h' todo) (hfinish : r.handler.finish = false)
    (hreceive : opt = .receive → ok = true → r.accepted = true ∧ r.finishPosted = false)
    (hgoes : opt ≠ .receive → opt ≠ .finish → r.Live)
    (hfailed : opt = .write → ok = false → r.handler.method = .talk → r.writeFailed = true) :
    ∀ x ∈ todo, x.Going { r with handler := h' } := by
  have hrenewal : ∀ x ∈ renewal opt, x.Going { r with handler := h' } := by
    intro x hx
    cases opt with
    | receive =>
      cases List.mem_singleton.mp hx
      exact trivial
    | _ => cases hx
  cases ha with
  | @next responses operation hoperation hopt hok =>
    intro x hx
    rcases List.mem_append.mp hx with hx | hx
    · exact hrenewal x hx
    · cases List.mem_singleton.mp hx
      refine ⟨?_, Or.inl rfl⟩
      have hlive : r.Live := by
        by_cases heq : opt = .receive
        · obtain ⟨haccepted, hno⟩ := hreceive heq (hok heq)
          exact ⟨haccepted, hfinish, Or.inr hno⟩
        · exact hgoes heq hopt
      exact hlive.process rfl hfinish
  | cancel hmethod hopt hok =>
    intro x hx
    cases List.mem_singleton.mp hx
    have hlive := hgoes (by rw [hopt]; decide) (by rw [hopt]; decide)
    exact ⟨hlive, Or.inr (hfailed hopt hok hmethod)⟩
  | complete => exact hrenewal
  | unexpected =>
    intro x hx
    cases List.mem_singleton.mp hx
    exact trivial

theorem going_of_posts_eq_zero {todo : List Instr} {r : Rpc} (h : posts todo = 0) : ∀ x ∈ todo, x.Going r := by
  intro x hx
  cases x with
  | post operation event => exact absurd rfl (List.countP_eq_zero.mp h _ hx)
  | renew | unexpected => exact trivial

/-- What the thread that moves goes on with. -/
theorem Inv.going_self (h : Inv s) (ht : t ∈ s.threads) (hs : Step s.shared t a t')
    (hops : ∀ o ∈ s.shared.inflight, o.Going s.shared) (hgoing : t.Going s.shared) : t'.Going (a.apply s.shared) := by
  have hk := h.knows t ht
  cases hs with
  | take => exact trivial
  | stop hs =>
    cases hs with
    | stop => rfl
    | drain => exact ⟨hgoing, rfl⟩
    | shutdown => exact hgoing
    | finished => exact trivial
  | @demux cq p p' a hs =>
    replace hk := hk.2
    cases hs with
    | @start p method rest a r hr =>
      cases r with
      | «at» p' => exact hr.going
      | returned => cases rest <;> exact trivial
      | raised => exact trivial
    | completed hj hq =>
      have ho := List.mem_of_getElem? hj
      exact (hops _ ho).complete (h.ops _ ho)
    | contains => exact hgoing
    | get => exact hgoing
    | @process c o ok =>
      have hload : 0 < (Thread.demultiplex cq (.process c o ok)).load o.rpc := by
        simp [Thread.load, DemuxPc.load]
      obtain ⟨-, hfinish⟩ := h.get_of_thread ht hload hk.known.created
      obtain ⟨opt, hreceive, hopt, hanswer⟩ := hk.known.answer ok
      obtain ⟨⟨hrequest, hother, -⟩, haccepted, hfailed⟩ := hgoing
      obtain rfl := hk.rpc
      change ∀ x ∈ _, Instr.Going (Function.update s.shared.rpc o.rpc _ o.rpc) x
      rw [Function.update_self]
      refine hanswer.going hfinish ?_ ?_ ?_
      · intro heq hok
        exact ⟨haccepted (hreceive.mp heq) hok, hrequest (hreceive.mp heq)⟩
      · intro hne hnotFinish
        refine (hother fun hop => hne (hreceive.mpr hop)).resolve_right fun hcode => ?_
        rw [hopt] at hcode
        exact hnotFinish (ServerEventOpt.code_inj hcode)
      · intro heq hok hmethod
        refine hfailed ?_ hok (hk.known.method.symm.trans hmethod)
        rw [hopt, heq]
        rfl
    | renew => exact ⟨fun x hx => hgoing x (List.mem_cons_of_mem _ hx), trivial⟩
    | @post c o operation event todo =>
      have hload : (Thread.demultiplex cq (.run c o (.post operation event :: todo))).load c = posts todo + 1 := by
        simp [Thread.load, DemuxPc.load, posts_post]
      have hle := Config.le_weight (f := Thread.load c) ht
      have htotal := h.total_le c
      exact going_of_posts_eq_zero (by omega)
    | unexpected => exact fun x hx => hgoing x (List.mem_cons_of_mem _ hx)
    | @renewing p c o todo a r hr =>
      have htodo : ∀ x ∈ todo, x.Going ((a.apply s.shared).rpc c) := by
        rcases Nat.eq_zero_or_pos (posts todo) with hzero | hpos
        · exact going_of_posts_eq_zero hzero
        · rcases hr.rpc_kept hk.1.created with hsame | hown
          · rw [hsame]
            exact hgoing.1
          · have hload : (Thread.demultiplex cq (.renew p c o todo)).load c = p.load c + posts todo := by
              simp [Thread.load, DemuxPc.load]
            have hle := Config.le_weight (f := Thread.load c) ht
            have htotal := h.total_le c
            omega
      cases r with
      | «at» p' => exact ⟨htodo, hr.going⟩
      | returned => exact htodo
      | raised => exact trivial
    | _ => exact trivial

theorem going_append {s : Shared} (hops : ∀ o' ∈ s.inflight, o' ∈ ((Act.post o).apply s).inflight →
      o'.Going ((Act.post o).apply s)) (ho : o.Going ((Act.post o).apply s)) :
    ∀ o' ∈ ((Act.post o).apply s).inflight, o'.Going ((Act.post o).apply s) := by
  intro o' ho'
  rcases List.mem_append.mp ho' with hold | hnew
  · exact hops o' hold ho'
  · cases List.mem_singleton.mp hnew
    exact ho

theorem rpc_post (s : Shared) (operation : Operation) (event : Event) :
    ((Act.post (s.op c operation event)).apply s).rpc c = (s.rpc c).post operation :=
  Function.update_self ..

theorem Op.Going.requested {s : Shared} {key : EventKey} (h : (s.rpc c).finishPosted = false) :
    (s.op c .request ⟨key, ServerEventOpt.receive.code⟩).Going
      ((Act.post (s.op c .request ⟨key, ServerEventOpt.receive.code⟩)).apply s) := by
  refine ⟨fun _ => ?_, fun hop => absurd rfl hop, Or.inl ?_⟩
  · change Rpc.finishPosted (((Act.post _).apply s).rpc c) = false
    rw [rpc_post, Rpc.finishPosted_post, h]
    rfl
  · rw [Shared.op, Event.ofToken_getToken]
    rfl

theorem Op.Going.posted {s : Shared} {operation : Operation} {event : Event}
    (h : (Instr.post operation event).Going (s.rpc c)) (hoperation : operation ≠ .request) :
    (s.op c operation event).Going ((Act.post (s.op c operation event)).apply s) := by
  obtain ⟨hlive, hnamed⟩ := h
  refine ⟨fun hop => absurd hop hoperation, fun _ => ?_, ?_⟩
  · change Rpc.Live (((Act.post _).apply s).rpc c) ∨ (Event.ofToken event.getToken).getOpt = _
    rw [rpc_post, Event.ofToken_getToken]
    rcases hnamed with hnamed | hfailed
    · cases operation with
      | finish response status => exact Or.inr hnamed
      | _ => exact Or.inl (hlive.post (Or.inl rfl))
    · exact Or.inl (hlive.post (Or.inr hfailed))
  · change (Event.ofToken event.getToken).getOpt = _ ∨ Rpc.writeFailed (((Act.post _).apply s).rpc c) = true
    rw [rpc_post, Event.ofToken_getToken]
    exact hnamed

theorem StopInv.ops_step (hstop : StopInv s) (h : Inv s) (h' : Inv ⟨a.apply s.shared, s.threads.set i t'⟩)
    (hi : s.threads[i]? = some t) (hs : Step s.shared t a t') :
    ∀ o ∈ (a.apply s.shared).inflight, o.Going (a.apply s.shared) := by
  have ht := List.mem_of_getElem? hi
  have hk := h.knows t ht
  have hgoing := hstop.threads t ht
  have hold : ∀ o ∈ s.shared.inflight, o ∈ (a.apply s.shared).inflight → o.Going (a.apply s.shared) :=
    fun o ho ho' => (hstop.ops o ho).congr (h.rpc_op h' hi hs ho ho')
  have hregister : ∀ {method cq p r}, RegisterStep s.shared method cq p a r → p.Going s.shared →
      ∀ o ∈ (a.apply s.shared).inflight, o.Going (a.apply s.shared) := by
    intro method cq p r hr hp
    cases hr with
    | request => exact going_append hold (Op.Going.requested hp)
    | _ => exact fun o ho => hold o ho ho
  cases hs with
  | take => exact fun o ho => hold o ho ho
  | stop hs => cases hs <;> exact fun o ho => hold o ho ho
  | demux hs =>
    cases hs with
    | start hr => exact hregister hr hgoing
    | renewing hr => exact hregister hr hgoing.2
    | completed => exact fun o ho => hold o (List.mem_of_mem_eraseIdx ho) ho
    | @post c o operation event todo =>
      obtain ⟨hoperation, -⟩ := hk.2.2 _ (List.mem_cons_self ..)
      exact going_append hold (Op.Going.posted (hgoing _ (List.mem_cons_self ..)) hoperation)
    | _ => exact fun o ho => hold o ho ho

/-- A call becomes live by a completion only. -/
theorem Step.live_of_live {s : Shared} (hs : Step s t a t') (hk : t.Knows s) (hc : c < s.created)
    (hlive : ((a.apply s).rpc c).Live) :
    (s.rpc c).Live ∨ ∃ j o ok message, a = .complete j o ok message ∧ o ∈ s.inflight ∧ o.rpc = c := by
  cases a with
  | register method cq key manager =>
    have hother : ((Act.register method cq key manager).apply s).rpc c = s.rpc c :=
      Function.update_of_ne (Nat.ne_of_lt hc) _ _
    exact Or.inl (hother ▸ hlive)
  | post o =>
    left
    by_cases heq : c = o.rpc
    · subst heq
      have hself : ((Act.post o).apply s).rpc o.rpc = (s.rpc o.rpc).post o.operation := Function.update_self ..
      exact (hself ▸ hlive).of_post
    · have hother : ((Act.post o).apply s).rpc c = s.rpc c := Function.update_of_ne heq _ _
      exact hother ▸ hlive
  | complete j o ok message =>
    have hcases : ((Act.complete j o ok message).apply s).rpc c = s.rpc c ∨ o.rpc = c := rpc_update rfl c
    rcases hcases with hsame | heq
    · exact Or.inl (hsame ▸ hlive)
    · exact Or.inr ⟨j, o, ok, message, rfl, List.mem_of_getElem? hs.of_complete.1, heq⟩
  | process c' handler =>
    left
    by_cases heq : c = c'
    · subst heq
      obtain ⟨cq, o, ok, rfl, rfl⟩ := hs.of_process
      obtain ⟨opt, -, -, hanswer⟩ := hk.2.known.answer ok
      obtain rfl := hk.2.rpc
      obtain ⟨hmethod, -, hfinish⟩ := hanswer.keeps
      refine Rpc.Live.of_process ?_ hmethod hfinish
      have hself : ∀ handler, ((Act.process o.rpc handler).apply s).rpc o.rpc = { s.rpc o.rpc with handler } :=
        fun handler => Function.update_self ..
      exact hself _ ▸ hlive
    · have hother : ((Act.process c' handler).apply s).rpc c = s.rpc c := Function.update_of_ne heq _ _
      exact hother ▸ hlive
  | _ => exact Or.inl hlive

/-- A completion makes a call live only when it brings the call. -/
theorem Op.Going.live_of_complete {s : Shared} {ok : Bool} {message : Request} (h : o.Going s)
    (haccepts : o.operation = .request → ok = false)
    (hlive : ((s.rpc o.rpc).complete o.operation ok message).Live) : (s.rpc o.rpc).Live := by
  obtain ⟨-, hother, hnamed⟩ := h
  have haccepted : (s.rpc o.rpc).accepted = true := by
    have hmem := hlive.accepted
    simp only [Rpc.accepted, Rpc.complete, List.contains_eq_mem, List.mem_append, List.mem_singleton, Prod.mk.injEq,
      decide_eq_true_eq] at hmem ⊢
    rcases hmem with hmem | ⟨hop, hok⟩
    · exact hmem
    · cases (haccepts hop.symm).symm.trans hok.symm
  rcases hlive.unfinished with hfailed | hno
  · by_cases hbefore : (s.rpc o.rpc).writeFailed = true
    · exact ⟨haccepted, hlive.finish, Or.inl hbefore⟩
    · have hwrite : o.operation.opt = .write := by
        simp only [Rpc.writeFailed, Rpc.complete, List.any_append, List.any_cons, List.any_nil, Bool.or_false,
          Bool.and_eq_true, Bool.or_eq_true, decide_eq_true_eq] at hfailed hbefore
        rcases hfailed.2 with hfailed' | hfailed'
        · exact absurd ⟨of_decide_eq_true hfailed.1, hfailed'⟩ hbefore
        · exact hfailed'.1
      have hop : o.operation ≠ .request := by
        intro hop
        rw [hop] at hwrite
        cases hwrite
      refine (hother hop).resolve_right fun hfinish => ?_
      have hcode := (hnamed.resolve_right hbefore).symm.trans hfinish
      rw [hwrite] at hcode
      cases ServerEventOpt.code_inj hcode
  · exact ⟨haccepted, hlive.finish, Or.inr hno⟩

theorem drained_apply (a : Act) (s : Shared) :
    a.drains = true ∧ (∀ c, (a.apply s).rpc c = s.rpc c) ∧ (a.apply s).created = s.created ∨
      (a.apply s).drained = s.drained := by
  cases a with
  | drain => exact Or.inl ⟨rfl, fun _ => rfl, rfl⟩
  | _ => exact Or.inr rfl

/-- A new handler has no call. -/
theorem not_live_new {s : Shared} (hnew : (a.apply s).created = s.created + 1) : ¬((a.apply s).rpc s.created).Live := by
  intro hlive
  cases a with
  | register method cq key manager =>
    rw [rpc_register] at hlive
    cases hlive.accepted
  | _ => exact absurd hnew (Nat.ne_of_lt (Nat.lt_succ_self _))

/-- No call goes on after `grpcServer->Shutdown()`. -/
theorem StopInv.drained_step (hstop : StopInv s) (h : Inv s) (ht : t ∈ s.threads) (hs : Step s.shared t a t')
    (hrule : orderlyStop.step s t a) (hdrained : (a.apply s.shared).drained = true) (c : Nat)
    (hc : c < (a.apply s.shared).created) : ¬((a.apply s.shared).rpc c).Live := by
  intro hlive
  obtain ⟨⟨hfinished, haccepts⟩, -, hfailed⟩ := hrule
  rcases drained_apply a s.shared with ⟨hdrains, hrpc, hcreated⟩ | hsame
  · rw [hrpc] at hlive
    rw [hcreated] at hc
    have hincomplete : (s.shared.rpc c).handler.isComplete ≠ true := fun hcomplete => by
      cases hlive.finish.symm.trans hcomplete
    rcases hlive.unfinished with hwrite | hno
    · exact hincomplete (hfailed hdrains c hc hwrite)
    · cases hno.symm.trans ((hfinished hdrains c hc hlive.accepted).resolve_left hincomplete)
  · rw [hsame] at hdrained
    have hk := h.knows t ht
    have hold : c < s.shared.created → False := by
      intro hc
      have hdead := hstop.drained hdrained c hc
      rcases hs.live_of_live hk hc hlive with hbefore | ⟨j, o, ok, message, rfl, ho, rfl⟩
      · exact hdead hbefore
      · have hself : ((Act.complete j o ok message).apply s.shared).rpc o.rpc =
            (s.shared.rpc o.rpc).complete o.operation ok message := Function.update_self ..
        refine hdead ((hstop.ops o ho).live_of_complete ?_ (hself ▸ hlive))
        intro hop
        cases ok with
        | false => rfl
        | true =>
          have hnot := haccepts (decide_eq_true hop)
          cases hnot.symm.trans hdrained
    rcases hs.created with heq | ⟨heq, -⟩
    · exact hold (heq ▸ hc)
    · rcases Nat.lt_succ_iff_lt_or_eq.mp (heq ▸ hc) with hlt | rfl
      · exact hold hlt
      · exact not_live_new heq hlive

theorem RegisterStep.passed {s : Shared} {method : Method} {cq : Nat} {p p' : RegisterPc}
    (h : RegisterStep s method cq p a (.at p')) : p.passed = true ∨ s.stopped = false := by
  cases h with
  | test hs => exact Or.inr hs
  | add => exact Or.inl rfl

/-- A constructor gets behind its test when the server is not stopped. -/
theorem Step.registersOn {s : Shared} {cq : Nat} (hs : Step s t a t') (h : t'.registersOn cq = true) :
    t.registersOn cq = true ∨ s.stopped = false := by
  cases hs with
  | take => simp [Thread.registersOn, DemuxPc.begin, Method.all, RegisterPc.passed] at h
  | stop hs => cases h
  | demux hs =>
    cases hs with
    | @start p method rest a r hr =>
      cases r with
      | «at» p' =>
        simp only [DemuxPc.afterStart, Thread.registersOn, Bool.and_eq_true] at h ⊢
        exact hr.passed.imp_left fun hp => ⟨h.1, hp⟩
      | returned =>
        cases rest with
        | nil => cases h
        | cons m rest => simp [DemuxPc.afterStart, DemuxPc.begin, Thread.registersOn, RegisterPc.passed] at h
      | raised => cases h
    | @renewing p c o todo a r hr =>
      cases r with
      | «at» p' =>
        simp only [DemuxPc.afterRenew, Thread.registersOn, Bool.and_eq_true] at h ⊢
        exact hr.passed.imp_left fun hp => ⟨⟨h.1.1, hp⟩, h.2⟩
      | returned => cases h
      | raised => cases h
    | renew => simp [Thread.registersOn, RegisterPc.passed] at h
    | _ => cases h

/-- A queue with a live call is open. -/
theorem StopInv.open_of_live (hstop : StopInv s) (hc : c < s.shared.created) (hlive : (s.shared.rpc c).Live) (cq : Nat) :
    cq ∉ s.shared.shut := by
  intro hmem
  obtain ⟨-, hdrained⟩ := hstop.shut (List.ne_nil_of_mem hmem)
  exact hstop.drained hdrained c hc hlive

theorem StopInv.late_step (hstop : StopInv s) (h : Inv s) (ht : t ∈ s.threads) (hs : Step s.shared t a t') :
    (a.apply s.shared).late = [] := by
  have hk := h.knows t ht
  have hgoing := hstop.threads t ht
  have hpost : ∀ o : Op, o.queue ∉ s.shared.shut → ((Act.post o).apply s.shared).late = [] := by
    intro o hopen
    change (if o.queue ∈ s.shared.shut then _ else _) = []
    rw [if_neg hopen]
    exact hstop.late
  have hregister : ∀ {method cq p r}, RegisterStep s.shared method cq p a r → p.Knows s.shared method cq →
      (p.passed = true → cq ∉ s.shared.shut) → (a.apply s.shared).late = [] := by
    intro method cq p r hr hp hopen
    cases hr with
    | request =>
      refine hpost _ ?_
      change (s.shared.rpc _).handler.cq ∉ _
      rw [hp.2.2.1]
      exact hopen rfl
    | _ => exact hstop.late
  have hquiet : ∀ {cq}, t.registersOn cq = true → cq ∉ s.shared.shut := by
    intro cq hregisters hmem
    cases (hstop.quiet cq hmem t ht).symm.trans hregisters
  cases hs with
  | take => exact hstop.late
  | stop hs => cases hs <;> exact hstop.late
  | demux hs =>
    cases hs with
    | start hr =>
      refine hregister hr hk.2 fun hp => hquiet ?_
      simp [Thread.registersOn, hp]
    | @renewing p c o todo a r hr =>
      refine hregister hr hk.2.renewing fun hpassed => ?_
      rw [hk.2.1.handler_cq]
      rcases Nat.eq_zero_or_pos (posts todo) with hzero | hpos
      · refine hquiet ?_
        simp [Thread.registersOn, hpassed, hzero]
      · obtain ⟨x, hx, hpost⟩ := List.countP_pos_iff.mp hpos
        cases x with
        | post operation event => exact hstop.open_of_live hk.2.1.created (hgoing.1 _ hx).1 _
        | renew | unexpected => cases hpost
    | @post c o operation event todo =>
      exact hpost _ (hstop.open_of_live hk.2.1.created (hgoing _ (List.mem_cons_self ..)).1 _)
    | _ => exact hstop.late

/-- What a step adds to the queues that are shut down. -/
theorem Step.shut {s : Shared} (hs : Step s t a t') : (a.apply s).shut = s.shut ∨
    ∃ cq, t = .stop (.queues cq) ∧ a = .shutdown cq ∧ t' = .stop (.queues (cq + 1)) := by
  cases a with
  | shutdown cq =>
    obtain ⟨rfl, rfl⟩ := hs.of_shutdown
    exact Or.inr ⟨cq, rfl, rfl, rfl⟩
  | _ => exact Or.inl rfl

theorem StopInv.quiet_step (hstop : StopInv s) (hi : s.threads[i]? = some t) (hs : Step s.shared t a t')
    (hrule : orderlyStop.step s t a) (cq : Nat) (hcq : cq ∈ (a.apply s.shared).shut) :
    ∀ u ∈ s.threads.set i t', u.registersOn cq = false := by
  have hold : cq ∈ s.shared.shut → ∀ u ∈ s.threads.set i t', u.registersOn cq = false := by
    intro hmem u hu
    rcases eq_or_of_mem_set hu with rfl | ⟨j, -, hj⟩
    · rw [← Bool.not_eq_true]
      intro hregisters
      rcases hs.registersOn hregisters with hbefore | hrunning
      · cases (hstop.quiet cq hmem t (List.mem_of_getElem? hi)).symm.trans hbefore
      · cases (hstop.shut (List.ne_nil_of_mem hmem)).1.symm.trans hrunning
    · exact hstop.quiet cq hmem u (List.mem_of_getElem? hj)
  rcases hs.shut with hsame | ⟨cq', rfl, rfl, rfl⟩
  · exact hold (hsame ▸ hcq)
  · rcases List.mem_cons.mp hcq with rfl | hmem
    · intro u hu
      rcases eq_or_of_mem_set hu with rfl | ⟨j, -, hj⟩
      · rfl
      · exact hrule.2.1 cq rfl u (List.mem_of_getElem? hj)
    · exact hold hmem

theorem StopInv.run (hstop : StopInv s) (h : Inv s) {n : Nat} {x : Choice} (hi : s.threads[i]? = some t)
    (hstep : t.step n s.shared x = some (a, t')) (hrule : orderlyStop.step s t a) :
    StopInv ⟨a.apply s.shared, s.threads.set i t'⟩ := by
  have hs := Thread.step_cases hstep
  have ht := List.mem_of_getElem? hi
  refine ⟨hstop.ops_step h (h.run hi hstep) hi hs, ?_, hstop.drained_step h ht hs hrule, ?_,
    hstop.quiet_step hi hs hrule, hstop.late_step h ht hs⟩
  · intro u hu
    rcases eq_or_of_mem_set hu with rfl | ⟨j, hne, hj⟩
    · exact h.going_self ht hs hstop.ops (hstop.threads t ht)
    · exact h.going_other hi hj hne hs (hstop.threads u (List.mem_of_getElem? hj))
  · intro hne
    rcases hs.shut with hsame | ⟨cq, rfl, rfl, rfl⟩
    · obtain ⟨hstopped, hdrained⟩ := hstop.shut (hsame ▸ hne)
      exact ⟨(a.flags _).1 hstopped, (a.flags _).2 hdrained⟩
    · exact hstop.threads _ ht

end Step

/-- When no queue is shut down while its thread is about to call `requestFunc`, and every talk call with a failed
    `Write` is complete when `grpcServer->Shutdown()` returns, nothing is posted to a queue after its `Shutdown`. -/
theorem nothing_late_of_orderlyStop (threadPoolSize : Nat) (s : State)
    (h : Reach (serverProactor threadPoolSize) orderlyStop (start threadPoolSize) s) : s.shared.late = [] := by
  have hstop : StopInv s := by
    induction h with
    | start =>
      refine ⟨?_, ?_, ?_, ?_, ?_, rfl⟩
      · intro o ho
        cases ho
      · intro t ht
        rw [List.eq_of_mem_replicate ht]
        exact trivial
      · intro hdrained
        cases hdrained
      · intro hne
        exact absurd rfl hne
      · intro cq hcq
        cases hcq
    | run hr _ hi hstep hrule ih =>
      exact ih.run (inv hr.any) hi hstep hrule
    | enter _ hk _ ih =>
      cases hk
      refine ⟨ih.ops, ?_, ih.drained, ih.shut, ?_, ih.late⟩
      · intro u hu
        rcases List.mem_append.mp hu with hu | hu
        · exact ih.threads u hu
        · cases List.mem_singleton.mp hu
          exact trivial
      · intro cq hcq u hu
        rcases List.mem_append.mp hu with hu | hu
        · exact ih.quiet cq hcq u hu
        · cases List.mem_singleton.mp hu
          rfl
  exact hstop.late

/-! ### Runs -/

instance (s : State) (t : Thread) (a : Act) : Decidable (ofGrpc.step s t a) :=
  show Decidable (_ ∧ _) from inferInstance

instance (s : State) (t : Thread) (a : Act) : Decidable (orderlyStop.step s t a) :=
  show Decidable (_ ∧ _ ∧ _) from inferInstance

/-- `n` steps of the thread `i`. -/
def steps (i n : Nat) : List (Move Choice Unit) := List.replicate n (.run i .go)

/-- The thread of the queue takes the result of an operation. -/
def takes (j : Nat) (ok : Bool) : List (Move Choice Unit) := [.run 0 (.completed j ok {})]

/-- The server is stopped when all handlers wait for calls. -/
def stopping : List (Move Choice Unit) := [steps 0 25, [.enter ()], steps 1 3, takes 0 false, steps 0 7].flatten

theorem nothing_late_of_orderlyStop_stopping : ∃ s, Reach (serverProactor 1) orderlyStop (start 1) s ∧
    s.shared.shut = [0] ∧ s.shared.inflight.length = 7 ∧ s.shared.late = [] := by
  have hrun : ((serverProactor 1).exec (fun s t a => decide (orderlyStop.step s t a)) (fun _ => true) (start 1)
      stopping).any (fun s => s.shared.shut = [0] ∧ s.shared.inflight.length = 7) = true := by
    decide +kernel
  obtain ⟨s, hs, hp⟩ := Reach.exists_of_exec orderlyStop (fun _ _ _ h => of_decide_eq_true h) (fun _ _ => trivial) hrun
  obtain ⟨hshut, hlength⟩ := of_decide_eq_true hp
  exact ⟨s, hs, hshut, hlength, nothing_late_of_orderlyStop 1 s hs⟩

/-- The thread of the queue finds `stopped` false, the server is stopped, and the thread goes on. -/
def racing : List (Move Choice Unit) :=
  [.run 0 .go, .run 0 .go, .enter (), .run 1 .go, .run 1 .go, .run 1 .go, .run 0 .go, .run 0 .go]

/-- A `Write` of a talk call fails, and the server is stopped when the `Finish` after it has completed. -/
def failing : List (Move Choice Unit) :=
  [steps 0 25, takes 7 true, steps 0 9, takes 8 true, steps 0 5, takes 8 false, steps 0 5, takes 8 true, [.enter ()],
    steps 1 3, steps 0 4].flatten

/-- Neither condition can be left out. -/
theorem posts_late :
    (∃ s, Reach (serverProactor 1) ofGrpc (start 1) s ∧ s.shared.late.map Op.operation = [.request]) ∧
    ∃ s, Reach (serverProactor 1) ofGrpc (start 1) s ∧ s.shared.late.map Op.operation = [.read] := by
  have hrace : ((serverProactor 1).exec (fun s t a => decide (ofGrpc.step s t a)) (fun _ => true) (start 1) racing).any
      (fun s => s.shared.late.map Op.operation = [.request]) = true := by
    decide +kernel
  have hfail : ((serverProactor 1).exec (fun s t a => decide (ofGrpc.step s t a)) (fun _ => true) (start 1) failing).any
      (fun s => s.shared.late.map Op.operation = [.read]) = true := by
    decide +kernel
  obtain ⟨s, hs, hp⟩ := Reach.exists_of_exec ofGrpc (fun _ _ _ h => of_decide_eq_true h) (fun _ _ => trivial) hrace
  obtain ⟨s', hs', hp'⟩ := Reach.exists_of_exec ofGrpc (fun _ _ _ h => of_decide_eq_true h) (fun _ _ => trivial) hfail
  exact ⟨⟨s, hs, of_decide_eq_true hp⟩, s', hs', of_decide_eq_true hp'⟩

end HelloWorld.Server
