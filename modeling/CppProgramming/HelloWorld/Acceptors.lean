import CppProgramming.HelloWorld.ServerInv

/-! # Armed acceptors

As long as the server is not stopped, each queue has one handler of each method that waits for a call: a handler that
has received one makes its successor before it does anything else. So the table of handlers is never empty, and no
thread leaves its loop at a timeout. -/

namespace HelloWorld.Server
open Interleaving

/-- `Request…` of a handler of `method` on the queue `cq`. -/
def Op.accepts (method : Method) (cq : Nat) (o : Op) : Bool :=
  decide (o.operation = .request) && decide (o.method = method) && decide (o.queue = cq)

/-- How many operations wait for a request. -/
def Shared.accepting (method : Method) (cq : Nat) (s : Shared) : Nat := s.inflight.countP (Op.accepts method cq)

/-- The thread has taken the result of a `RECEIVE` of `method` from its queue, and the successor is not armed yet. -/
def DemuxPc.handsOver (method : Method) : DemuxPc → Nat
  | .contains o _ | .get o _ | .process _ o _ => if o.operation = .request ∧ o.method = method then 1 else 0
  | .run _ o todo => if o.method = method then todo.count .renew else 0
  | .renew _ _ o todo => if o.method = method then todo.count .renew + 1 else 0
  | _ => 0

/-- The first handlers that are not armed yet. -/
def DemuxPc.toRegister (method : Method) : DemuxPc → Nat
  | .start _ m rest => (m :: rest).count method
  | _ => 0

/-- Whether the thread is about to post one. -/
def Thread.arms (method : Method) (cq : Nat) : Thread → Nat
  | .demultiplex cq' p => if cq' = cq then p.handsOver method + p.toRegister method else 0
  | _ => 0

/-- `add` has thrown. -/
def Act.isFull : Act → Bool
  | .full => true
  | _ => false

/-- There is always a free key. -/
def keysSuffice : Rule Shared Thread Act Unit where
  step _ _ a := a.isFull = false
  call _ := True

section Arms
variable {s : Shared} {a : Act} {method : Method} {cq : Nat}

theorem accepting_post (o : Op) :
    ((Act.post o).apply s).accepting method cq = s.accepting method cq + if o.accepts method cq then 1 else 0 := by
  simp only [Shared.accepting, Act.apply, List.countP_append, List.countP_singleton]

theorem accepting_complete {j : Nat} {o : Op} {ok : Bool} {message : Request} (hj : s.inflight[j]? = some o) :
    ((Act.complete j o ok message).apply s).accepting method cq + (if o.accepts method cq then 1 else 0) =
      s.accepting method cq := by
  obtain ⟨hlt, heq⟩ := List.getElem?_eq_some_iff.mp hj
  have hperm := (List.getElem_cons_eraseIdx_perm hlt).countP_eq (Op.accepts method cq)
  rw [heq, List.countP_cons] at hperm
  exact hperm

theorem Op.accepts_iff {o : Op} :
    o.accepts method cq = true ↔ (o.operation = .request ∧ o.method = method) ∧ o.queue = cq := by
  simp [Op.accepts]

/-- What a constructor arms: the handler of its method, when it returns. -/
theorem RegisterStep.arms {m : Method} {k : Nat} {p : RegisterPc} {r : Registering} (h : RegisterStep s m k p a r)
    (hp : p.Knows s m k) (hstopped : s.stopped = false) (hfull : a.isFull = false) (method : Method) (cq : Nat) :
    (∃ p', r = .at p' ∧ (a.apply s).accepting method cq = s.accepting method cq) ∨
    (r = .returned ∧
      (a.apply s).accepting method cq = s.accepting method cq + if m = method ∧ k = cq then 1 else 0) := by
  cases h with
  | stopped hs => cases hs.symm.trans hstopped
  | test => exact Or.inl ⟨_, rfl, rfl⟩
  | add => exact Or.inl ⟨_, rfl, rfl⟩
  | full => cases hfull
  | @request c key =>
    obtain ⟨-, hmethod, hcq, -, -⟩ := hp
    refine Or.inr ⟨rfl, ?_⟩
    rw [accepting_post]
    simp [Op.accepts, Shared.op, hmethod, hcq]

theorem Answer.count_renew {h h' : EventHandler} {ok : Bool} {key : EventKey} {opt : ServerEventOpt} {todo : List Instr}
    (ha : Answer h ok key opt h' todo) : todo.count .renew = if opt = .receive then 1 else 0 := by
  cases ha with
  | next => cases opt <;> simp [renewal]
  | cancel hmethod hopt hok => simp [hopt]
  | complete => cases opt <;> simp [renewal]
  | unexpected hopt => simp [hopt]

theorem arms_begin (method : Method) (rest : List Method) : (DemuxPc.begin rest).handsOver method = 0 ∧
    (DemuxPc.begin rest).toRegister method = rest.count method := by
  cases rest with
  | nil => exact ⟨rfl, rfl⟩
  | cons m rest => exact ⟨rfl, rfl⟩

theorem count_all (method : Method) : Method.all.count method = 1 := by
  cases method <;> decide

theorem Act.not_stopped (h : (a.apply s).stopped = false) : s.stopped = false := by
  rw [← Bool.not_eq_true] at h ⊢
  exact fun hs => h ((a.flags s).1 hs)

end Arms

/-- An armed acceptor for each method and each queue that has a thread. -/
def Armed (s : State) : Prop :=
  ∀ method cq, s.shared.accepting method cq + s.weight (Thread.arms method cq) =
    if cq < s.shared.cqIdx then 1 else 0

section Armed
variable {s : State} {t t' : Thread} {a : Act} {method : Method} {cq : Nat}

/-- A token that a thread has taken finds its handler. -/
theorem Inv.contains_of_thread (h : Inv s) {p : DemuxPc} {o : Op} (ht : .demultiplex cq p ∈ s.threads)
    (hload : 0 < p.load o.rpc) (ho : o.Known s.shared) :
    s.shared.handlerManager.get (Event.ofToken o.token).getKey = some o.rpc := by
  obtain ⟨opt, hopt, -⟩ := ho.token
  rw [hopt]
  exact (h.get_of_thread ht hload ho.created).1

/-- A step of `demultiplex` arms what it disarms. -/
theorem Inv.arms_demux (h : Inv s) {k : Nat} {p p' : DemuxPc} (ht : .demultiplex k p ∈ s.threads)
    (hs : DemuxStep k s.shared p a p') (hfull : a.isFull = false) (hstopped : s.shared.stopped = false) :
    (Thread.demultiplex k p').arms method cq + (a.apply s.shared).accepting method cq =
      (Thread.demultiplex k p).arms method cq + s.shared.accepting method cq := by
  have hk : p.Knows s.shared k := (h.knows _ ht).2
  simp only [Thread.arms]
  cases hs with
  | @start p m rest a r hr =>
    rcases hr.arms hk hstopped hfull method cq with ⟨p'', rfl, haccepting⟩ | ⟨rfl, haccepting⟩
    · rw [haccepting]
      rfl
    · rw [haccepting]
      obtain ⟨hhands, hregister⟩ := arms_begin method rest
      change (if k = cq then (DemuxPc.begin rest).handsOver method + (DemuxPc.begin rest).toRegister method else 0) + _ =
        (if k = cq then 0 + (m :: rest).count method else 0) + _
      rw [hhands, hregister, List.count_cons]
      by_cases hkq : k = cq <;> by_cases hm : m = method <;> simp [hkq, hm]
      omega
  | @completed j o ok message hj hq =>
    have haccepting : ((Act.complete j o ok message).apply s.shared).accepting method cq +
        (if o.accepts method cq then 1 else 0) = s.shared.accepting method cq := accepting_complete hj
    simp only [Op.accepts_iff, hq] at haccepting
    simp only [DemuxPc.handsOver, DemuxPc.toRegister]
    by_cases hkq : k = cq
    · simp only [hkq, and_true, if_true] at haccepting ⊢
      omega
    · simp only [hkq, and_false, if_false] at haccepting ⊢
      omega
  | @notExist o ok hmissing =>
    have hget := h.contains_of_thread ht (by simp [DemuxPc.load]) hk.1
    cases (EventHandlerManager.get_of_contains_false hmissing).symm.trans hget
  | @getRaises o ok hmissing =>
    have hget := h.contains_of_thread ht (by simp [DemuxPc.load]) hk.1
    cases hmissing.symm.trans hget
  | @process c o ok =>
    obtain ⟨opt, hreceive, -, hanswer⟩ := hk.known.answer ok
    have hcount := hanswer.count_renew
    obtain rfl := hk.rpc
    simp only [hreceive] at hcount
    have haccepting : ∀ handler, ((Act.process o.rpc handler).apply s.shared).accepting method cq =
      s.shared.accepting method cq := fun _ => rfl
    rw [haccepting]
    simp only [DemuxPc.handsOver, DemuxPc.toRegister, hcount]
    by_cases hrequest : o.operation = .request <;> by_cases hm : o.method = method <;> simp [hrequest, hm]
  | @post c o operation event todo =>
    obtain ⟨hoperation, -⟩ := hk.2 _ (List.mem_cons_self ..)
    have haccepts : (s.shared.op c operation event).accepts method cq = false := by
      simp [Op.accepts, Shared.op, hoperation]
    rw [accepting_post, haccepts]
    simp [DemuxPc.handsOver, DemuxPc.toRegister]
  | @renewing p c o todo a r hr =>
    rcases hr.arms hk.renewing hstopped hfull method cq with ⟨p'', rfl, haccepting⟩ | ⟨rfl, haccepting⟩
    · rw [haccepting]
      rfl
    · rw [haccepting, hk.1.rpc, hk.1.known.method, hk.1.known.queue, hk.1.queue]
      simp only [DemuxPc.afterRenew, DemuxPc.handsOver, DemuxPc.toRegister]
      by_cases hkq : k = cq <;> by_cases hm : o.method = method <;> simp [hkq, hm]
      omega
  | renew => simp [DemuxPc.handsOver, DemuxPc.toRegister, Act.apply]
  | unexpected => simp [DemuxPc.handsOver, DemuxPc.toRegister, Act.apply]
  | complete | incomplete => simp [DemuxPc.handsOver, DemuxPc.toRegister, Act.apply]
  | _ => rfl

theorem Inv.arms_step (h : Inv s) (ht : t ∈ s.threads) (hs : Step s.shared t a t') (hfull : a.isFull = false)
    (hstopped : (a.apply s.shared).stopped = false) (method : Method) (cq : Nat) :
    t'.arms method cq + (a.apply s.shared).accepting method cq + (if cq < s.shared.cqIdx then 1 else 0) =
      t.arms method cq + s.shared.accepting method cq + if cq < (a.apply s.shared).cqIdx then 1 else 0 := by
  have hrunning := Act.not_stopped hstopped
  cases hs with
  | take =>
    have hcqIdx : (Act.take.apply s.shared).cqIdx = s.shared.cqIdx + 1 := rfl
    have haccepting : (Act.take.apply s.shared).accepting method cq = s.shared.accepting method cq := rfl
    obtain ⟨hhands, hregister⟩ := arms_begin method Method.all
    have harms : (Thread.demultiplex s.shared.cqIdx (.begin Method.all)).arms method cq =
        if s.shared.cqIdx = cq then 1 else 0 := by
      rw [Thread.arms, hhands, hregister, count_all]
    rw [hcqIdx, haccepting, harms]
    simp only [Thread.arms]
    split <;> split <;> split <;> omega
  | stop hs => cases hs <;> rfl
  | demux hs => rw [h.arms_demux ht hs hfull hrunning, hs.cqIdx]

theorem Inv.armed_run (h : Inv s) (harmed : s.shared.stopped = false → Armed s) {i : Nat} (hi : s.threads[i]? = some t)
    (hs : Step s.shared t a t') (hfull : a.isFull = false) (hstopped : (a.apply s.shared).stopped = false) :
    Armed ⟨a.apply s.shared, s.threads.set i t'⟩ := by
  intro method cq
  have hstep := h.arms_step (List.mem_of_getElem? hi) hs hfull hstopped method cq
  have hweight := Config.weight_run (Thread.arms method cq) (a.apply s.shared) t' hi
  have hbefore := harmed (Act.not_stopped hstopped) method cq
  change (a.apply s.shared).accepting method cq + _ = if cq < (a.apply s.shared).cqIdx then 1 else 0
  omega

/-- What arms an acceptor on a queue is done by the thread of the queue. -/
theorem Inv.arms_eq (h : Inv s) {p : DemuxPc} (ht : .demultiplex cq p ∈ s.threads) (method : Method) :
    s.weight (Thread.arms method cq) = p.handsOver method + p.toRegister method := by
  obtain ⟨i, hi⟩ := List.getElem?_of_mem ht
  refine (Config.weight_eq_of_only hi fun j u hj hne => ?_).trans (if_pos rfl)
  cases u with
  | waiting | stop p => rfl
  | demultiplex k p' => exact if_neg (h.serves_ne hj hi hne)

end Armed

theorem armed {n : Nat} {s : State} (h : Reach (serverProactor n) keysSuffice (start n) s)
    (hstopped : s.shared.stopped = false) : Armed s := by
  induction h with
  | start =>
    intro method cq
    rw [weight_start _ rfl]
    rfl
  | run hr _ hi hstep hrule ih =>
    exact (inv hr.any).armed_run ih hi (Thread.step_cases hstep) hrule hstopped
  | enter _ hk _ ih =>
    cases hk
    intro method cq
    rw [Config.weight_enter]
    exact ih hstopped method cq

/-- The registered handlers of `method` on the queue `cq` with an outstanding `RECEIVE`. -/
def Shared.acceptors (s : Shared) (method : Method) (cq : Nat) : List Nat :=
  (s.inflight.filter fun o => decide (o.operation = .request) && decide ((s.rpc o.rpc).handler.method = method) &&
    decide ((s.rpc o.rpc).handler.cq = cq) && decide (s.handlerManager.get (s.rpc o.rpc).key = some o.rpc)).map Op.rpc

/-- The thread has not finished its first registrations. -/
def DemuxPc.registers : DemuxPc → Bool
  | .start _ _ _ => true
  | _ => false

section Count
variable {n : Nat} {s : State} {cq : Nat} {p : DemuxPc}

theorem Inv.length_acceptors (h : Inv s) (method : Method) (cq : Nat) :
    (s.shared.acceptors method cq).length = s.shared.accepting method cq := by
  rw [Shared.acceptors, List.length_map, Shared.accepting, List.countP_eq_length_filter]
  congr 1
  refine List.filter_congr fun o ho => ?_
  have hknown := h.ops o ho
  rw [hknown.method, hknown.queue, (h.get_of_op ho).1]
  simp [Op.accepts]

theorem count_pos_of_get {α : Type} {m : EventHandlerManager α} {key : EventKey} {c : α} (hget : m.get key = some c) :
    0 < m.count := by
  refine Nat.pos_of_ne_zero fun hzero => ?_
  cases (EventHandlerManager.get_of_count_zero hzero).symm.trans hget

/-- A thread that hands over has a registered handler. -/
theorem Inv.count_pos_of_handsOver (h : Inv s) {method : Method} (ht : .demultiplex cq p ∈ s.threads)
    (hhands : 0 < p.handsOver method) : 0 < s.shared.handlerManager.count := by
  have hk : p.Knows s.shared cq := (h.knows _ ht).2
  cases p with
  | contains o ok | get o ok => exact count_pos_of_get (h.contains_of_thread ht (by simp [DemuxPc.load]) hk.1)
  | process c o ok => exact count_pos_of_get hk.get
  | run c o todo | renew p c o todo => exact count_pos_of_get hk.1.get
  | _ => cases hhands

theorem Inv.acceptors_of_armed (h : Inv s) (harmed : Armed s) (ht : .demultiplex cq p ∈ s.threads)
    (hdone : p.registers = false) (method : Method) :
    (s.shared.acceptors method cq).length + p.handsOver method = 1 := by
  have hbound : cq < s.shared.cqIdx := (h.knows _ ht).1
  have hsum := harmed method cq
  have hregister : p.toRegister method = 0 := by
    cases p with
    | start => cases hdone
    | _ => rfl
  rw [if_pos hbound, h.arms_eq ht, hregister] at hsum
  rw [h.length_acceptors]
  exact hsum

theorem Inv.count_pos (h : Inv s) (harmed : Armed s) (ht : .demultiplex cq p ∈ s.threads)
    (hdone : p.registers = false) : 0 < s.shared.handlerManager.count := by
  have hone := h.acceptors_of_armed harmed ht hdone .sayHello
  rcases Nat.eq_zero_or_pos (p.handsOver .sayHello) with hzero | hpos
  · rw [hzero, Nat.add_zero, h.length_acceptors] at hone
    obtain ⟨o, ho, -⟩ := List.countP_pos_iff.mp (Nat.lt_of_lt_of_eq Nat.one_pos hone.symm)
    exact count_pos_of_get (h.get_of_op ho).1
  · exact h.count_pos_of_handsOver ht hpos

/-- A thread leaves when no handler is registered. -/
theorem Step.left {s : Shared} {t t' : Thread} {a : Act} (hs : Step s t a t') (hleft : t' = .demultiplex cq .left) :
    t = .demultiplex cq .timeout ∧ s.handlerManager.count = 0 := by
  cases hs with
  | take => cases hleft
  | stop hs => cases hleft
  | demux hs =>
    cases hs with
    | leave hzero =>
      cases hleft
      exact ⟨rfl, hzero⟩
    | @start p m rest a r hr =>
      cases r with
      | returned => cases rest <;> cases hleft
      | _ => cases hleft
    | @renewing p c o todo a r hr => cases r <;> cases hleft
    | _ => cases hleft

theorem none_left (h : Reach (serverProactor n) keysSuffice (start n) s) (hstopped : s.shared.stopped = false) (cq : Nat) :
    .demultiplex cq .left ∉ s.threads := by
  induction h with
  | start =>
    intro hmem
    cases List.eq_of_mem_replicate hmem
  | @run s i x t t' a hr _ hi hstep hrule ih =>
    intro hmem
    have hs := Thread.step_cases hstep
    have hbefore := Act.not_stopped hstopped
    rcases eq_or_of_mem_set hmem with heq | ⟨j, -, hj⟩
    · obtain ⟨rfl, hzero⟩ := hs.left heq.symm
      have hpos := (inv hr.any).count_pos (armed hr hbefore) (List.mem_of_getElem? hi) rfl
      omega
    · exact ih hbefore (List.mem_of_getElem? hj)
  | enter _ hk _ ih =>
    cases hk
    intro hmem
    rcases List.mem_append.mp hmem with hmem | hmem
    · exact ih hstopped hmem
    · cases List.mem_singleton.mp hmem

end Count

/-- As long as the server is not stopped and `add` finds a key: when the thread of a queue has made its first handlers,
    exactly one registered handler of each method has an outstanding `RECEIVE` on the queue, or the thread is handing
    over from one to the next. So a handler is registered, and no thread has left its loop at a timeout. -/
theorem acceptors_armed (threadPoolSize : Nat) (s : State)
    (h : Reach (serverProactor threadPoolSize) keysSuffice (start threadPoolSize) s)
    (hstopped : s.shared.stopped = false) :
    (∀ cq p, .demultiplex cq p ∈ s.threads → p.registers = false →
      (∀ method, (s.shared.acceptors method cq).length + p.handsOver method = 1) ∧
      0 < s.shared.handlerManager.count) ∧
    ∀ cq, .demultiplex cq .left ∉ s.threads := by
  have hinv := inv h.any
  have harmed := armed h hstopped
  refine ⟨fun cq p ht hdone => ?_, none_left h hstopped⟩
  exact ⟨hinv.acceptors_of_armed harmed ht hdone, hinv.count_pos harmed ht hdone⟩

/-- The first registrations of the one thread, and a call of `sayHello` that is received. -/
def serving : List (Move Choice Unit) :=
  [.replicate 25 (.run 0 .go), [.run 0 (.completed 0 true {})], .replicate 9 (.run 0 .go)].flatten

theorem acceptors_armed_serving : ∃ s, Reach (serverProactor 1) keysSuffice (start 1) s ∧
    s.shared.stopped = false ∧ s.shared.inflight.length = 9 ∧ .demultiplex 0 .next ∈ s.threads ∧
    (∀ method, (s.shared.acceptors method 0).length = 1) ∧ 0 < s.shared.handlerManager.count := by
  have hrun : ((serverProactor 1).exec (fun _ _ a => !a.isFull) (fun _ => true) (start 1) serving).any
      (fun s => s.shared.stopped = false ∧ s.shared.inflight.length = 9 ∧ .demultiplex 0 .next ∈ s.threads) = true := by
    decide
  have hrule : ∀ (s : State) (t : Thread) (a : Act), (!a.isFull) = true → keysSuffice.step s t a := by
    intro s t a h
    have hfull : a.isFull = false := by simpa using h
    exact hfull
  obtain ⟨s, hs, hp⟩ := Reach.exists_of_exec keysSuffice hrule (fun _ _ => trivial) hrun
  obtain ⟨hstopped, hlength, hmem⟩ := of_decide_eq_true hp
  obtain ⟨hone, hpos⟩ := (acceptors_armed 1 s hs hstopped).1 0 .next hmem rfl
  exact ⟨s, hs, hstopped, hlength, hmem, hone, hpos⟩

end HelloWorld.Server
