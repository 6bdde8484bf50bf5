import CppProgramming.HelloWorld.ServerSteps

/-! # What the server keeps

A handler that is not complete is registered, and exactly one thing keeps it going: an operation on its queue, or the
thread that has taken one from there and not yet posted the next one. Every queue has one thread, so that handlers of
different queues do not meet. -/

namespace HelloWorld.Server
open Interleaving

/-! ### What the threads know -/

/-- The operation belongs to its handler, and its token names the handler. -/
structure Op.Known (s : Shared) (o : Op) : Prop where
  created : o.rpc < s.created
  method : (s.rpc o.rpc).handler.method = o.method
  queue : (s.rpc o.rpc).handler.cq = o.queue
  token : ∃ opt : ServerEventOpt, Event.ofToken o.token = ⟨(s.rpc o.rpc).key, opt.code⟩ ∧
    (opt = .receive ↔ o.operation = .request)

/-- The thread of the queue `cq` has the handler `c`, for its token `o`. -/
structure Holds (s : Shared) (cq c : Nat) (o : Op) : Prop where
  known : o.Known s
  queue : o.queue = cq
  rpc : c = o.rpc
  get : s.handlerManager.get (s.rpc c).key = some c

/-- An instruction that `process` may have left. -/
def Instr.Known (key : EventKey) : Instr → Prop
  | .post operation event => operation ≠ .request ∧ ∃ opt : ServerEventOpt, opt ≠ .receive ∧ event = ⟨key, opt.code⟩
  | _ => True

/-- What a thread in `registerHandler` knows of its call. -/
def RegisterPc.Knows (s : Shared) (method : Method) (cq : Nat) : RegisterPc → Prop
  | .request c key => c < s.created ∧ (s.rpc c).handler.method = method ∧ (s.rpc c).handler.cq = cq ∧
      (s.rpc c).key = key ∧ s.handlerManager.get key = some c
  | _ => True

/-- What a thread in `demultiplex` knows of its call. -/
def DemuxPc.Knows (s : Shared) (cq : Nat) : DemuxPc → Prop
  | .start p method _ => p.Knows s method cq
  | .contains o _ | .get o _ => o.Known s ∧ o.queue = cq
  | .process c o _ => Holds s cq c o
  | .run c o todo => Holds s cq c o ∧ ∀ x ∈ todo, x.Known (s.rpc c).key
  | .renew p c o todo => Holds s cq c o ∧ (∀ x ∈ todo, x.Known (s.rpc c).key) ∧ p.Knows s o.method cq
  | .remove c o => Holds s cq c o ∧ (s.rpc c).handler.finish = true
  | _ => True

/-- What a thread relies on. -/
def Thread.Knows (s : Shared) : Thread → Prop
  | .demultiplex cq p => cq < s.cqIdx ∧ p.Knows s cq
  | _ => True

/-! ### What keeps a handler going -/

/-- The instruction posts an operation. -/
def Instr.isPost : Instr → Bool
  | .post _ _ => true
  | _ => false

/-- The operations that are still to be posted. -/
def posts (todo : List Instr) : Nat := todo.countP Instr.isPost

theorem posts_post (operation : Operation) (event : Event) (todo : List Instr) :
    posts (.post operation event :: todo) = posts todo + 1 :=
  List.countP_cons_of_pos rfl

/-- What `registerHandler` has under way for the call `c`. -/
def RegisterPc.load (c : Nat) : RegisterPc → Nat
  | .request c' _ => if c' = c then 1 else 0
  | _ => 0

/-- What `demultiplex` has under way for the call `c`. -/
def DemuxPc.load (c : Nat) : DemuxPc → Nat
  | .start p _ _ => p.load c
  | .contains o _ | .get o _ | .process _ o _ => if o.rpc = c then 1 else 0
  | .run c' _ todo => if c' = c then posts todo else 0
  | .renew p c' _ todo => p.load c + if c' = c then posts todo else 0
  | _ => 0

/-- What a thread has under way for the call `c`. -/
def Thread.load (c : Nat) : Thread → Nat
  | .demultiplex _ p => p.load c
  | _ => 0

/-- The operations of the handler `c` that have not completed; a complete handler has none, and counts as one. -/
def Shared.held (c : Nat) (s : Shared) : Nat :=
  s.inflight.countP (fun o => o.rpc = c) + (s.rpc c).handler.finish.toNat

/-- All that is under way for the call `c`. -/
def total (c : Nat) (s : State) : Nat := s.weight (Thread.load c) + s.shared.held c

/-- There is nothing of a handler before it has been made. -/
def Shared.bound (c : Nat) (s : Shared) : Nat := if c < s.created then 1 else 0

section Load
variable {s : Shared} {a : Act} {c : Nat}

theorem held_post (o : Op) :
    ((Act.post o).apply s).held c = s.held c + if o.rpc = c then 1 else 0 := by
  have hfinish : (((Act.post o).apply s).rpc c).handler.finish = (s.rpc c).handler.finish := by
    by_cases heq : c = o.rpc
    · subst heq
      simp [Act.apply, Shared.modify, Rpc.post]
    · simp [Act.apply, Shared.modify, Function.update_of_ne heq]
  simp only [Shared.held, hfinish]
  simp only [Act.apply, List.countP_append, List.countP_singleton, decide_eq_true_eq]
  omega

theorem held_complete {j : Nat} {o : Op} {ok : Bool} {message : Request} (hj : s.inflight[j]? = some o) :
    ((Act.complete j o ok message).apply s).held c + (if o.rpc = c then 1 else 0) = s.held c := by
  have hfinish : (((Act.complete j o ok message).apply s).rpc c).handler.finish = (s.rpc c).handler.finish := by
    by_cases heq : c = o.rpc
    · subst heq
      simp [Act.apply, Shared.modify, Rpc.complete]
    · simp [Act.apply, Shared.modify, Function.update_of_ne heq]
  obtain ⟨hlt, heq⟩ := List.getElem?_eq_some_iff.mp hj
  have hperm := (List.getElem_cons_eraseIdx_perm hlt).countP_eq fun o : Op => decide (o.rpc = c)
  rw [heq, List.countP_cons] at hperm
  simp only [decide_eq_true_eq] at hperm
  simp only [Shared.held, hfinish]
  simp only [Act.apply]
  omega

theorem held_register {method : Method} {cq : Nat} {key : EventKey} {manager : EventHandlerManager Nat} :
    ((Act.register method cq key manager).apply s).held c ≤ s.held c := by
  by_cases heq : c = s.created
  · subst heq
    simp [Shared.held, Act.apply, Shared.modify]
  · simp [Shared.held, Act.apply, Shared.modify, Function.update_of_ne heq]

theorem held_process {c' : Nat} {handler : EventHandler} :
    ((Act.process c' handler).apply s).held c + (if c' = c then (s.rpc c).handler.finish.toNat else 0) =
      s.held c + if c' = c then handler.finish.toNat else 0 := by
  by_cases heq : c = c'
  · subst heq
    simp only [Shared.held, Act.apply, Shared.modify, Function.update_self, if_true]
    omega
  · simp [Shared.held, Act.apply, Shared.modify, Function.update_of_ne heq, Ne.symm heq]

/-- What a step of `registerHandler` leaves under way for the call `c`. -/
def Registering.load (c : Nat) : Registering → Nat
  | .at p => p.load c
  | _ => 0

theorem RegisterStep.load_le {method : Method} {cq : Nat} {p : RegisterPc} {r : Registering}
    (h : RegisterStep s method cq p a r) :
    r.load c + (a.apply s).held c + s.bound c ≤ p.load c + s.held c + (a.apply s).bound c := by
  cases h with
  | stopped | test | full => exact le_refl _
  | @add key manager hadd =>
    have hheld : ((Act.register method cq key manager).apply s).held c ≤ s.held c := held_register
    have hbound : ((Act.register method cq key manager).apply s).bound c = if c < s.created + 1 then 1 else 0 := rfl
    rw [hbound]
    simp only [Registering.load, RegisterPc.load, Shared.bound]
    split <;> split <;> split <;> omega
  | @request c' key =>
    rw [held_post]
    simp only [Registering.load, RegisterPc.load, Shared.op, Nat.zero_add]
    exact le_of_eq (by rw [Nat.add_comm (s.held c)]; rfl)

theorem load_afterStart (method : Method) (rest : List Method) (r : Registering) :
    (DemuxPc.afterStart method rest r).load c = r.load c := by
  cases r with
  | «at» p => rfl
  | returned => cases rest <;> rfl
  | raised => rfl

theorem load_afterRenew (c' : Nat) (o : Op) (todo : List Instr) (r : Registering) :
    (DemuxPc.afterRenew c' o todo r).load c ≤ r.load c + if c' = c then posts todo else 0 := by
  cases r with
  | «at» p => exact le_refl _
  | returned => exact Nat.le_add_left _ _
  | raised => exact Nat.zero_le _

theorem Answer.load_le {h h' : EventHandler} {ok : Bool} {key : EventKey} {opt : ServerEventOpt} {todo : List Instr}
    (ha : Answer h ok key opt h' todo) : posts todo + h'.finish.toNat ≤ 1 + h.finish.toNat := by
  cases ha with
  | next => cases opt <;> simp [posts, renewal, Instr.isPost]
  | cancel => simp [posts, Instr.isPost]
  | complete => cases opt <;> simp [posts, renewal, Instr.isPost]
  | unexpected => simp [posts, Instr.isPost]

/-- No step adds to what keeps a handler going. -/
theorem DemuxStep.load_le {cq : Nat} {p p' : DemuxPc} (h : DemuxStep cq s p a p') (hk : p.Knows s cq) :
    p'.load c + (a.apply s).held c + s.bound c ≤ p.load c + s.held c + (a.apply s).bound c := by
  cases h with
  | start hr =>
    have hle := hr.load_le (c := c)
    rw [load_afterStart]
    exact hle
  | @completed j o ok message hj hq =>
    have hheld : ((Act.complete j o ok message).apply s).held c + (if o.rpc = c then 1 else 0) = s.held c :=
      held_complete hj
    have hbound : ((Act.complete j o ok message).apply s).bound c = s.bound c := rfl
    rw [hbound]
    simp only [DemuxPc.load]
    omega
  | @process c' o ok =>
    obtain ⟨opt, hopt, -⟩ := hk.known.token
    obtain rfl := hk.rpc
    have hanswer := ((s.rpc o.rpc).handler.process_cases ok (s.rpc o.rpc).key opt).load_le
    rw [← hopt] at hanswer
    generalize (s.rpc o.rpc).handler.process ok (Event.ofToken o.token) = answer at hanswer ⊢
    have hheld : ((Act.process o.rpc answer.1).apply s).held c +
        (if o.rpc = c then (s.rpc c).handler.finish.toNat else 0) =
        s.held c + if o.rpc = c then answer.1.finish.toNat else 0 := held_process
    have hbound : ((Act.process o.rpc answer.1).apply s).bound c = s.bound c := rfl
    rw [hbound]
    simp only [DemuxPc.load]
    by_cases heq : o.rpc = c
    · subst heq
      simp only [if_true] at hheld ⊢
      omega
    · simp only [if_neg heq] at hheld ⊢
      omega
  | @post c' o operation event todo =>
    have hbound : ((Act.post (s.op c' operation event)).apply s).bound c = s.bound c := rfl
    have hrpc : (s.op c' operation event).rpc = c' := rfl
    rw [held_post, hbound, hrpc]
    simp only [DemuxPc.load, posts_post]
    split <;> omega
  | @renewing p c' o todo a r hr =>
    have hle := hr.load_le (c := c)
    have hafter := load_afterRenew (c := c) c' o todo r
    change _ + _ + _ ≤ p.load c + (if c' = c then posts todo else 0) + _ + _
    omega
  | @renew c' o todo =>
    have hposts : posts (.renew :: todo) = posts todo := List.countP_cons_of_neg (by decide)
    simp only [DemuxPc.load, RegisterPc.load, hposts, Nat.zero_add]
    exact le_refl _
  | @unexpected c' o todo =>
    have hposts : posts (.unexpected :: todo) = posts todo := List.countP_cons_of_neg (by decide)
    simp only [DemuxPc.load, hposts]
    exact le_refl _
  | contains | get | timeout | shutdown | leave | again | remove => exact le_refl _
  | notExist | getRaises | complete | incomplete =>
    simp only [DemuxPc.load, Nat.zero_add]
    exact Nat.add_le_add_right (Nat.le_add_left _ _) _

theorem Step.load_le {t t' : Thread} (h : Step s t a t') (hk : t.Knows s) :
    t'.load c + (a.apply s).held c + s.bound c ≤ t.load c + s.held c + (a.apply s).bound c := by
  cases h with
  | take => exact le_refl _
  | demux h => exact h.load_le hk.2
  | stop h => cases h <;> exact le_refl _

end Load

/-! ### What a step keeps -/

/-- What stays true of the handlers there are. -/
structure Grows (s s' : Shared) : Prop where
  created : s.created ≤ s'.created
  cqIdx : s.cqIdx ≤ s'.cqIdx
  method : ∀ c < s.created, (s'.rpc c).handler.method = (s.rpc c).handler.method
  cq : ∀ c < s.created, (s'.rpc c).handler.cq = (s.rpc c).handler.cq
  key : ∀ c < s.created, (s'.rpc c).key = (s.rpc c).key
  finish : ∀ c < s.created, (s.rpc c).handler.finish = true → (s'.rpc c).handler.finish = true

section Grows
variable {s s' : Shared} {a : Act} {c cq : Nat}

theorem Grows.of_eq (hcreated : s.created ≤ s'.created) (hcqIdx : s.cqIdx ≤ s'.cqIdx)
    (hrpc : ∀ c < s.created, s'.rpc c = s.rpc c) : Grows s s' := by
  refine ⟨hcreated, hcqIdx, ?_, ?_, ?_, ?_⟩ <;> intro c hc <;> rw [hrpc c hc]
  exact id

/-- A change of one handler that keeps what it is. -/
theorem Grows.of_update {x : Rpc} (hcreated : s'.created = s.created) (hcqIdx : s'.cqIdx = s.cqIdx)
    (hrpc : s'.rpc = Function.update s.rpc c x) (hmethod : x.handler.method = (s.rpc c).handler.method)
    (hcq : x.handler.cq = (s.rpc c).handler.cq) (hkey : x.key = (s.rpc c).key)
    (hfinish : (s.rpc c).handler.finish = true → x.handler.finish = true) : Grows s s' := by
  have hself : s'.rpc c = x := by
    rw [hrpc]
    exact Function.update_self ..
  have hother : ∀ c', c' ≠ c → s'.rpc c' = s.rpc c' := fun c' hne => by
    rw [hrpc]
    exact Function.update_of_ne hne _ _
  refine ⟨hcreated.ge, hcqIdx.ge, ?_, ?_, ?_, ?_⟩ <;> intro c' _ <;> by_cases heq : c' = c
  · rw [heq, hself, hmethod]
  · rw [hother c' heq]
  · rw [heq, hself, hcq]
  · rw [hother c' heq]
  · rw [heq, hself, hkey]
  · rw [hother c' heq]
  · rw [heq, hself]
    exact hfinish
  · rw [hother c' heq]
    exact id

theorem grows_post (o : Op) : Grows s ((Act.post o).apply s) :=
  .of_update (c := o.rpc) rfl rfl rfl rfl rfl rfl id

theorem RegisterStep.grows {method : Method} {p : RegisterPc} {r : Registering} (h : RegisterStep s method cq p a r) :
    Grows s (a.apply s) := by
  cases h with
  | stopped | test | full => exact .of_eq (le_refl _) (le_refl _) fun _ _ => rfl
  | add =>
    refine .of_eq (Nat.le_succ _) (le_refl _) fun c hc => ?_
    exact Function.update_of_ne (Nat.ne_of_lt hc) _ _
  | request => exact grows_post _

theorem Answer.keeps {h h' : EventHandler} {ok : Bool} {key : EventKey} {opt : ServerEventOpt} {todo : List Instr}
    (ha : Answer h ok key opt h' todo) :
    h'.method = h.method ∧ h'.cq = h.cq ∧ (h.finish = true → h'.finish = true) := by
  cases ha with
  | next | cancel | unexpected => exact ⟨rfl, rfl, id⟩
  | complete => exact ⟨rfl, rfl, fun _ => rfl⟩

/-- What `process` gives to the token of a known operation. -/
theorem Op.Known.answer {o : Op} (h : o.Known s) (ok : Bool) : ∃ opt : ServerEventOpt,
    (opt = .receive ↔ o.operation = .request) ∧ Event.ofToken o.token = ⟨(s.rpc o.rpc).key, opt.code⟩ ∧
    Answer (s.rpc o.rpc).handler ok (s.rpc o.rpc).key opt
      ((s.rpc o.rpc).handler.process ok (Event.ofToken o.token)).1
      ((s.rpc o.rpc).handler.process ok (Event.ofToken o.token)).2 := by
  obtain ⟨opt, hopt, hreceive⟩ := h.token
  refine ⟨opt, hreceive, hopt, ?_⟩
  rw [hopt]
  exact EventHandler.process_cases ..

theorem Step.grows {t t' : Thread} (h : Step s t a t') (hk : t.Knows s) : Grows s (a.apply s) := by
  have hsame : ∀ {s' : Shared}, s'.created = s.created → s'.cqIdx = s.cqIdx → s'.rpc = s.rpc → Grows s s' :=
    fun hcreated hcqIdx hrpc => .of_eq hcreated.ge hcqIdx.ge fun c _ => congrFun hrpc c
  cases h with
  | take => exact .of_eq (le_refl _) (Nat.le_succ _) fun _ _ => rfl
  | stop h => cases h <;> exact hsame rfl rfl rfl
  | demux h =>
    cases h with
    | start hr => exact hr.grows
    | renewing hr => exact hr.grows
    | post => exact grows_post _
    | @completed j o ok message hj hq =>
      exact .of_update (c := o.rpc) rfl rfl rfl rfl rfl rfl id
    | @process c o ok =>
      obtain rfl := hk.2.rpc
      obtain ⟨opt, -, -, hanswer⟩ := hk.2.known.answer ok
      obtain ⟨hmethod, hcq, hfinish⟩ := hanswer.keeps
      exact .of_update (c := o.rpc) rfl rfl rfl hmethod hcq rfl hfinish
    | _ => exact hsame rfl rfl rfl

theorem Op.Known.grow {o : Op} (h : o.Known s) (hg : Grows s s') : o.Known s' := by
  have hc := h.created
  refine ⟨Nat.lt_of_lt_of_le hc hg.created, (hg.method _ hc).trans h.method, (hg.cq _ hc).trans h.queue, ?_⟩
  rw [hg.key _ hc]
  exact h.token

theorem Holds.grow {o : Op} (h : Holds s cq c o) (hg : Grows s s')
    (hget : s'.handlerManager.get (s.rpc c).key = some c) : Holds s' cq c o := by
  refine ⟨h.known.grow hg, h.queue, h.rpc, ?_⟩
  rw [hg.key c (h.rpc ▸ h.known.created)]
  exact hget

theorem Holds.created {o : Op} (h : Holds s cq c o) : c < s.created := h.rpc ▸ h.known.created

theorem Holds.handler_cq {o : Op} (h : Holds s cq c o) : (s.rpc c).handler.cq = cq := by
  rw [h.rpc, h.known.queue]
  exact h.queue

/-- The registered handlers of the queue `cq` stay registered. -/
def Keeps (cq : Nat) (s s' : Shared) : Prop :=
  ∀ c < s.created, (s.rpc c).handler.cq = cq → s.handlerManager.get (s.rpc c).key = some c →
    s'.handlerManager.get (s.rpc c).key = some c

theorem Holds.keep {o : Op} (h : Holds s cq c o) (hg : Grows s s') (hkeeps : Keeps cq s s') : Holds s' cq c o :=
  h.grow hg (hkeeps c h.created h.handler_cq h.get)

theorem RegisterPc.Knows.keep {p : RegisterPc} {method : Method} (h : p.Knows s method cq) (hg : Grows s s')
    (hkeeps : Keeps cq s s') : p.Knows s' method cq := by
  cases p with
  | request c key =>
    obtain ⟨hc, hmethod, hcq, hkey, hget⟩ := h
    refine ⟨Nat.lt_of_lt_of_le hc hg.created, (hg.method c hc).trans hmethod, (hg.cq c hc).trans hcq,
      (hg.key c hc).trans hkey, ?_⟩
    rw [← hkey]
    exact hkeeps c hc hcq (hkey ▸ hget)
  | test | add => exact trivial

/-- The constructor that `process` calls is the one of its own class, on its own queue. -/
theorem DemuxPc.Knows.renewing {p : RegisterPc} {o : Op} {todo : List Instr} (h : (DemuxPc.renew p c o todo).Knows s cq) :
    p.Knows s (s.rpc c).handler.method (s.rpc c).handler.cq := by
  obtain ⟨hholds, -, hp⟩ := h
  rw [hholds.handler_cq, hholds.rpc, hholds.known.method]
  exact hp

theorem Instr.Known.keep {todo : List Instr} (h : ∀ x ∈ todo, x.Known (s.rpc c).key) (hg : Grows s s')
    (hc : c < s.created) : ∀ x ∈ todo, x.Known (s'.rpc c).key := by
  rw [hg.key c hc]
  exact h

theorem DemuxPc.Knows.keep {p : DemuxPc} (h : p.Knows s cq) (hg : Grows s s') (hkeeps : Keeps cq s s') :
    p.Knows s' cq := by
  cases p with
  | start p method rest => exact RegisterPc.Knows.keep h hg hkeeps
  | contains o ok | get o ok => exact ⟨h.1.grow hg, h.2⟩
  | process c o ok => exact Holds.keep h hg hkeeps
  | run c o todo => exact ⟨h.1.keep hg hkeeps, Instr.Known.keep h.2 hg h.1.created⟩
  | renew p c o todo =>
    exact ⟨h.1.keep hg hkeeps, Instr.Known.keep h.2.1 hg h.1.created, RegisterPc.Knows.keep h.2.2 hg hkeeps⟩
  | remove c o => exact ⟨h.1.keep hg hkeeps, hg.finish c h.1.created h.2⟩
  | next | timeout | left | shutdown | raised => exact trivial

end Grows

/-! ### The invariant -/

/-- The thread serves the queue `cq`. -/
def Thread.serves (cq : Nat) : Thread → Nat
  | .demultiplex cq' _ => if cq' = cq then 1 else 0
  | _ => 0

/-- What holds in every state that is reached. -/
structure Inv (s : State) : Prop where
  knows : ∀ t ∈ s.threads, t.Knows s.shared
  ops : ∀ o ∈ s.shared.inflight, o.Known s.shared
  total : ∀ c, total c s ≤ s.shared.bound c
  listed : ∀ key c, s.shared.handlerManager.get key = some c → c < s.shared.created ∧ (s.shared.rpc c).key = key
  kept : ∀ c < s.shared.created, s.shared.handlerManager.get (s.shared.rpc c).key = some c ∨
    (s.shared.rpc c).handler.finish = true
  serves : ∀ cq, s.weight (Thread.serves cq) ≤ if cq < s.shared.cqIdx then 1 else 0

section Inv
variable {s : State} {i j : Nat} {t t' u : Thread} {a : Act} {c cq : Nat} {o : Op}

/-- A handler that something keeps going is registered. -/
theorem Inv.get_of_load (h : Inv s) (hc : c < s.shared.created)
    (hload : 0 < s.weight (Thread.load c) + s.shared.inflight.countP fun o => o.rpc = c) :
    s.shared.handlerManager.get (s.shared.rpc c).key = some c ∧ (s.shared.rpc c).handler.finish = false := by
  have htotal := h.total c
  unfold Server.total Shared.held Shared.bound at htotal
  rw [if_pos hc] at htotal
  have hfinish : (s.shared.rpc c).handler.finish = false := by
    cases hf : (s.shared.rpc c).handler.finish with
    | false => rfl
    | true =>
      rw [hf, Bool.toNat_true] at htotal
      omega
  refine ⟨(h.kept c hc).resolve_right ?_, hfinish⟩
  rw [hfinish]
  exact Bool.false_ne_true

theorem Inv.get_of_op (h : Inv s) (ho : o ∈ s.shared.inflight) :
    s.shared.handlerManager.get (s.shared.rpc o.rpc).key = some o.rpc ∧
      (s.shared.rpc o.rpc).handler.finish = false := by
  refine h.get_of_load (h.ops o ho).created (Nat.add_pos_right _ ?_)
  exact List.countP_pos_iff.mpr ⟨o, ho, decide_eq_true rfl⟩

theorem Inv.get_of_thread (h : Inv s) (ht : t ∈ s.threads) (hload : 0 < t.load c) (hc : c < s.shared.created) :
    s.shared.handlerManager.get (s.shared.rpc c).key = some c ∧ (s.shared.rpc c).handler.finish = false :=
  h.get_of_load hc (Nat.add_pos_left (Nat.lt_of_lt_of_le hload (Config.le_weight ht)) _)

/-- A queue has one thread. -/
theorem Inv.serves_ne (h : Inv s) {k k' : Nat} {p p' : DemuxPc} (hi : s.threads[i]? = some (.demultiplex k p))
    (hj : s.threads[j]? = some (.demultiplex k' p')) (hne : i ≠ j) : k ≠ k' := by
  rintro rfl
  have hle := Config.add_le_weight (f := Thread.serves k) hi hj hne
  have hserves := h.serves k
  simp only [Thread.serves, if_true] at hle
  split at hserves <;> omega

/-- A handler stays registered, or the step removes it. -/
theorem Step.get_kept {s : Shared} {key : EventKey} (hs : Step s t a t') (hk : t.Knows s)
    (hget : s.handlerManager.get key = some c) :
    (a.apply s).handlerManager.get key = some c ∨ ∃ cq o, t = .demultiplex cq (.remove c o) := by
  cases a with
  | register method cq key' manager =>
    obtain ⟨hfree, -, hother⟩ := EventHandlerManager.add_cases hs.add_of_register
    refine Or.inl ((hother key ?_).trans hget)
    rintro rfl
    cases hfree.symm.trans hget
  | remove key' =>
    obtain ⟨cq, c', o, rfl, rfl⟩ := hs.of_remove
    obtain ⟨hholds, -⟩ := hk.2
    obtain ⟨opt, hopt, -⟩ := hholds.known.token
    have hkey : (Event.ofToken o.token).getKey = (s.rpc c').key := by
      rw [hopt, hholds.rpc]
      rfl
    by_cases heq : key = (Event.ofToken o.token).getKey
    · subst heq
      rw [hkey] at hget
      cases hget.symm.trans hholds.get
      exact Or.inr ⟨cq, o, rfl⟩
    · exact Or.inl ((EventHandlerManager.get_remove_of_ne heq).trans hget)
  | _ => exact Or.inl hget

/-- What another thread relies on stays true. -/
theorem Inv.knows_other (h : Inv s) (hi : s.threads[i]? = some t) (hj : s.threads[j]? = some u) (hne : j ≠ i)
    (hs : Step s.shared t a t') : u.Knows (a.apply s.shared) := by
  have ht := h.knows t (List.mem_of_getElem? hi)
  have hg := hs.grows ht
  have hu := h.knows u (List.mem_of_getElem? hj)
  cases u with
  | waiting | stop p => exact trivial
  | demultiplex k p =>
    refine ⟨Nat.lt_of_lt_of_le hu.1 hg.cqIdx, hu.2.keep hg ?_⟩
    intro c hc hcq hget
    rcases hs.get_kept ht hget with hkept | ⟨k', o, rfl⟩
    · exact hkept
    · have hk' : (s.shared.rpc c).handler.cq = k' := ht.2.1.handler_cq
      exact absurd (hcq.symm.trans hk') (h.serves_ne hj hi hne)

/-- What is known behind a step of `registerHandler`. -/
def Registering.Knows (s : Shared) (method : Method) (cq : Nat) : Registering → Prop
  | .at p => p.Knows s method cq
  | _ => True

theorem RegisterStep.knows {s : Shared} {method : Method} {p : RegisterPc} {r : Registering}
    (h : RegisterStep s method cq p a r) : r.Knows (a.apply s) method cq := by
  cases h with
  | @add key manager hadd =>
    refine ⟨Nat.lt_succ_self _, ?_, ?_, ?_, (EventHandlerManager.add_cases hadd).2.1⟩ <;> rw [rpc_register]
  | _ => exact trivial

theorem Answer.known {h h' : EventHandler} {ok : Bool} {key : EventKey} {opt : ServerEventOpt} {todo : List Instr}
    (ha : Answer h ok key opt h' todo) : ∀ x ∈ todo, x.Known key := by
  have hrenewal : ∀ x ∈ renewal opt, x.Known key := by
    intro x hx
    cases opt with
    | receive =>
      cases List.mem_singleton.mp hx
      exact trivial
    | _ => cases hx
  cases ha with
  | @next responses operation hoperation =>
    intro x hx
    rcases List.mem_append.mp hx with hx | hx
    · exact hrenewal x hx
    · cases List.mem_singleton.mp hx
      refine ⟨hoperation, operation.opt, ?_, rfl⟩
      cases operation with
      | request => exact absurd rfl hoperation
      | _ => simp [Operation.opt]
  | cancel hmethod hopt hok =>
    intro x hx
    cases List.mem_singleton.mp hx
    refine ⟨by simp, opt, ?_, rfl⟩
    rw [hopt]
    decide
  | complete => exact hrenewal
  | unexpected =>
    intro x hx
    cases List.mem_singleton.mp hx
    exact trivial

/-- What the thread that moves relies on afterwards. -/
theorem Inv.knows_self (h : Inv s) (ht : t ∈ s.threads) (hs : Step s.shared t a t') : t'.Knows (a.apply s.shared) := by
  have hk := h.knows t ht
  have hg := hs.grows hk
  cases hs with
  | take =>
    refine ⟨Nat.lt_succ_self _, ?_⟩
    exact trivial
  | stop hs => exact trivial
  | @demux cq p p' a hs =>
    refine ⟨Nat.lt_of_lt_of_le hk.1 hg.cqIdx, ?_⟩
    have hkeeps : (∀ c o, p ≠ .remove c o) → Keeps cq s.shared (a.apply s.shared) := by
      intro hne c hc hcq hget
      refine ((Step.demux hs).get_kept hk hget).resolve_right ?_
      rintro ⟨cq', o, heq⟩
      cases heq
      exact hne c o rfl
    replace hk := hk.2
    cases hs with
    | @start p method rest a r hr =>
      have hknows := hr.knows
      cases r with
      | «at» p' => exact hknows
      | returned => cases rest <;> exact trivial
      | raised => exact trivial
    | @completed j o ok message hj hq => exact ⟨(h.ops o (List.mem_of_getElem? hj)).grow hg, hq⟩
    | contains => exact hk
    | @get o ok c hc =>
      have hload : 0 < (Thread.demultiplex cq (.get o ok)).load o.rpc := by
        simp [Thread.load, DemuxPc.load]
      obtain ⟨hget, -⟩ := h.get_of_thread ht hload hk.1.created
      obtain ⟨opt, hopt, -⟩ := hk.1.token
      rw [hopt] at hc
      cases hc.symm.trans hget
      exact ⟨hk.1, hk.2, rfl, hget⟩
    | @process c o ok =>
      obtain ⟨opt, -, -, hanswer⟩ := hk.known.answer ok
      refine ⟨hk.keep hg (hkeeps (by simp)), Instr.Known.keep ?_ hg hk.created⟩
      obtain rfl := hk.rpc
      exact hanswer.known
    | renew => exact ⟨hk.1, fun x hx => hk.2 x (List.mem_cons_of_mem _ hx), trivial⟩
    | post =>
      exact ⟨hk.1.keep hg (hkeeps (by simp)),
        Instr.Known.keep (fun x hx => hk.2 x (List.mem_cons_of_mem _ hx)) hg hk.1.created⟩
    | unexpected => exact ⟨hk.1, fun x hx => hk.2 x (List.mem_cons_of_mem _ hx)⟩
    | complete hfinish => exact ⟨hk.1, hfinish⟩
    | @renewing p c o todo a r hr =>
      have hholds := hk.1.keep hg (hkeeps (by simp))
      have htodo := Instr.Known.keep hk.2.1 hg hk.1.created
      have hmethod : (s.shared.rpc c).handler.method = o.method := by
        rw [hk.1.rpc]
        exact hk.1.known.method
      have hknows := hr.knows
      rw [hmethod, hk.1.handler_cq] at hknows
      cases r with
      | «at» p' => exact ⟨hholds, htodo, hknows⟩
      | returned => exact ⟨hholds, htodo⟩
      | raised => exact trivial
    | _ => exact trivial

theorem known_append {s : Shared} (h : ∀ o ∈ s.inflight, o.Known s) (hg : Grows s ((Act.post o).apply s))
    (ho : o.Known s) : ∀ o' ∈ ((Act.post o).apply s).inflight, o'.Known ((Act.post o).apply s) := by
  intro o' ho'
  rcases List.mem_append.mp ho' with ho' | ho'
  · exact (h o' ho').grow hg
  · cases List.mem_singleton.mp ho'
    exact ho.grow hg

/-- The operation that a handler posts. -/
theorem Shared.op_known {s : Shared} {operation : Operation} {opt : ServerEventOpt} (hc : c < s.created)
    (hopt : opt = .receive ↔ operation = .request) : (s.op c operation ⟨(s.rpc c).key, opt.code⟩).Known s := by
  refine ⟨hc, rfl, rfl, opt, ?_, hopt⟩
  rw [Shared.op, Event.ofToken_getToken]

theorem RegisterStep.ops {s : Shared} {method : Method} {p : RegisterPc} {r : Registering}
    (h : RegisterStep s method cq p a r) (hp : p.Knows s method cq) (hops : ∀ o ∈ s.inflight, o.Known s) :
    ∀ o ∈ (a.apply s).inflight, o.Known (a.apply s) := by
  have hg := h.grows
  cases h with
  | stopped | test | full => exact hops
  | add => exact fun o ho => (hops o ho).grow hg
  | @request c key =>
    obtain ⟨hc, -, -, rfl, -⟩ := hp
    exact known_append hops hg (Shared.op_known hc (by simp))

theorem Step.ops {s : Shared} (hs : Step s t a t') (hk : t.Knows s) (hops : ∀ o ∈ s.inflight, o.Known s) :
    ∀ o ∈ (a.apply s).inflight, o.Known (a.apply s) := by
  have hg := hs.grows hk
  have hsame : (a.apply s).inflight = s.inflight → ∀ o ∈ (a.apply s).inflight, o.Known (a.apply s) := by
    intro hinflight o ho
    exact (hops o (hinflight ▸ ho)).grow hg
  cases hs with
  | take => exact hsame rfl
  | stop hs => cases hs <;> exact hsame rfl
  | demux hs =>
    cases hs with
    | start hr => exact hr.ops hk.2 hops
    | renewing hr => exact hr.ops hk.2.renewing hops
    | completed hj hq => exact fun o ho => (hops o (List.mem_of_mem_eraseIdx ho)).grow hg
    | @post c o operation event todo =>
      obtain ⟨hoperation, opt, hopt, rfl⟩ := hk.2.2 _ (List.mem_cons_self ..)
      exact known_append hops hg (Shared.op_known hk.2.1.created (iff_of_false hopt hoperation))
    | _ => exact hsame rfl

theorem Inv.total_step (h : Inv s) (hi : s.threads[i]? = some t) (hs : Step s.shared t a t') (c : Nat) :
    Server.total c ⟨a.apply s.shared, s.threads.set i t'⟩ ≤ (a.apply s.shared).bound c := by
  have hload := hs.load_le (h.knows t (List.mem_of_getElem? hi)) (c := c)
  have hweight := Config.weight_run (Thread.load c) (a.apply s.shared) t' hi
  have htotal := h.total c
  unfold Server.total at htotal ⊢
  change _ + (a.apply s.shared).held c ≤ _
  omega

theorem Inv.listed_step (h : Inv s) (ht : t ∈ s.threads) (hs : Step s.shared t a t') (key : EventKey) (c : Nat)
    (hget : (a.apply s.shared).handlerManager.get key = some c) :
    c < (a.apply s.shared).created ∧ ((a.apply s.shared).rpc c).key = key := by
  have hg := hs.grows (h.knows t ht)
  have hold : s.shared.handlerManager.get key = some c →
      c < (a.apply s.shared).created ∧ ((a.apply s.shared).rpc c).key = key := by
    intro hget
    obtain ⟨hc, hkey⟩ := h.listed key c hget
    exact ⟨Nat.lt_of_lt_of_le hc hg.created, (hg.key c hc).trans hkey⟩
  cases a with
  | register method cq key' manager =>
    obtain ⟨-, hnew, hother⟩ := EventHandlerManager.add_cases hs.add_of_register
    by_cases heq : key = key'
    · subst heq
      cases hget.symm.trans hnew
      refine ⟨Nat.lt_succ_self _, ?_⟩
      rw [rpc_register]
    · exact hold ((hother key heq).symm.trans hget)
  | remove key' =>
    by_cases heq : key = key'
    · subst heq
      cases hget.symm.trans EventHandlerManager.get_remove_self
    · exact hold ((EventHandlerManager.get_remove_of_ne heq).symm.trans hget)
  | _ => exact hold hget

/-- A handler is new, or was there before. -/
theorem Step.created {s : Shared} (hs : Step s t a t') : (a.apply s).created = s.created ∨
    (a.apply s).created = s.created + 1 ∧
      (a.apply s).handlerManager.get ((a.apply s).rpc s.created).key = some s.created := by
  cases a with
  | register method cq key manager =>
    refine Or.inr ⟨rfl, ?_⟩
    rw [rpc_register]
    exact (EventHandlerManager.add_cases hs.add_of_register).2.1
  | _ => exact Or.inl rfl

theorem Inv.kept_step (h : Inv s) (ht : t ∈ s.threads) (hs : Step s.shared t a t') (c : Nat)
    (hc : c < (a.apply s.shared).created) :
    (a.apply s.shared).handlerManager.get ((a.apply s.shared).rpc c).key = some c ∨
      ((a.apply s.shared).rpc c).handler.finish = true := by
  have hk := h.knows t ht
  have hg := hs.grows hk
  have hold : c < s.shared.created →
      (a.apply s.shared).handlerManager.get ((a.apply s.shared).rpc c).key = some c ∨
      ((a.apply s.shared).rpc c).handler.finish = true := by
    intro hc
    rcases h.kept c hc with hget | hfinish
    · rcases hs.get_kept hk hget with hkept | ⟨cq, o, rfl⟩
      · rw [hg.key c hc]
        exact Or.inl hkept
      · exact Or.inr (hg.finish c hc hk.2.2)
    · exact Or.inr (hg.finish c hc hfinish)
  rcases hs.created with heq | ⟨heq, hnew⟩
  · exact hold (heq ▸ hc)
  · rcases Nat.lt_succ_iff_lt_or_eq.mp (heq ▸ hc) with hlt | rfl
    · exact hold hlt
    · exact Or.inl hnew

theorem Step.serves {s : Shared} (hs : Step s t a t') (cq : Nat) :
    t'.serves cq + (if cq < s.cqIdx then 1 else 0) ≤ t.serves cq + if cq < (a.apply s).cqIdx then 1 else 0 := by
  cases hs with
  | take =>
    have hcqIdx : (Act.take.apply s).cqIdx = s.cqIdx + 1 := rfl
    rw [hcqIdx]
    simp only [Thread.serves]
    split <;> split <;> split <;> omega
  | stop hs => cases hs <;> exact le_refl _
  | demux hs =>
    rw [hs.cqIdx]
    exact le_refl _

theorem Inv.run (h : Inv s) {n : Nat} {x : Choice} (hi : s.threads[i]? = some t)
    (hstep : t.step n s.shared x = some (a, t')) : Inv ⟨a.apply s.shared, s.threads.set i t'⟩ := by
  have hs := Thread.step_cases hstep
  have ht := List.mem_of_getElem? hi
  refine ⟨?_, hs.ops (h.knows t ht) h.ops, h.total_step hi hs, h.listed_step ht hs, h.kept_step ht hs, ?_⟩
  · intro u hu
    rcases eq_or_of_mem_set hu with rfl | ⟨j, hne, hj⟩
    · exact h.knows_self ht hs
    · exact h.knows_other hi hj hne hs
  · intro cq
    have hserves := hs.serves cq
    have hweight := Config.weight_run (Thread.serves cq) (a.apply s.shared) t' hi
    have hle := h.serves cq
    change _ ≤ if cq < (a.apply s.shared).cqIdx then 1 else 0
    omega

theorem Inv.enter (h : Inv s) : Inv ⟨s.shared, s.threads ++ [Thread.stop .stop]⟩ := by
  refine ⟨?_, h.ops, ?_, h.listed, h.kept, ?_⟩
  · intro u hu
    rcases List.mem_append.mp hu with hu | hu
    · exact h.knows u hu
    · cases List.mem_singleton.mp hu
      exact trivial
  · intro c
    have htotal := h.total c
    unfold Server.total at htotal ⊢
    rw [Config.weight_enter]
    exact htotal
  · intro cq
    rw [Config.weight_enter]
    exact h.serves cq

theorem weight_start (f : Thread → Nat) (hf : f .waiting = 0) (n : Nat) : (start n).weight f = 0 := by
  simp [start, Config.weight, hf]

theorem inv_start (n : Nat) : Inv (start n) := by
  refine ⟨?_, ?_, ?_, ?_, ?_, ?_⟩
  · intro t ht
    rw [List.eq_of_mem_replicate ht]
    exact trivial
  · intro o ho
    cases ho
  · intro c
    rw [Server.total, weight_start _ rfl]
    exact le_refl _
  · intro key c hget
    cases hget
  · intro c hc
    cases hc
  · intro cq
    rw [weight_start _ rfl]
    exact Nat.zero_le _

end Inv

theorem inv {n : Nat} {s : State} (h : Reachable n s) : Inv s := by
  induction h with
  | start => exact inv_start n
  | run _ _ hi hs _ ih => exact ih.run hi hs
  | enter _ hk _ ih =>
    cases hk
    exact ih.enter

end HelloWorld.Server
