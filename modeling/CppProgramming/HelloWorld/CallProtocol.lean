import CppProgramming.HelloWorld.CallLoad

/-! # The protocol of a call

What every run of the client keeps: a thread that works on a call knows it, a handler stays registered as long as
something of its call is under way, and the sums of `CallLoad` stay at most one. -/

namespace HelloWorld.Client
open Interleaving

/-! ### What stays -/

/-- A call keeps its class and key, its queue once it has one, and its flags. -/
structure Grows (s s' : Shared) : Prop where
  created : s.created ≤ s'.created
  kind : ∀ c < s.created, (s'.call c).kind = (s.call c).kind
  registered : ∀ c < s.created, (s'.call c).registered = (s.call c).registered
  key : ∀ c < s.created, ∀ k, (s.call c).key = some k → (s'.call c).key = some k
  queue : ∀ c < s.created, ∀ q, (s.call c).queue = some q → (s'.call c).queue = some q
  finish : ∀ c < s.created, (s.call c).finish = true → (s'.call c).finish = true
  closed : ∀ c < s.created, (s.call c).closed = true → (s'.call c).closed = true

section Grows
variable {s s' : Shared} {c i : Nat} {a : Act}

theorem Grows.refl (s : Shared) : Grows s s :=
  ⟨le_refl _, fun _ _ => rfl, fun _ _ => rfl, fun _ _ _ h => h, fun _ _ _ h => h, fun _ _ h => h, fun _ _ h => h⟩

/-- A change of one object that keeps what a call keeps. -/
theorem grows_modify (c : Nat) (f : Call → Call) (hcreated : s'.created = s.created)
    (hcall : s'.call = (s.modify c f).call) (hkind : (f (s.call c)).kind = (s.call c).kind)
    (hregistered : (f (s.call c)).registered = (s.call c).registered)
    (hkey : ∀ k, (s.call c).key = some k → (f (s.call c)).key = some k)
    (hqueue : ∀ q, (s.call c).queue = some q → (f (s.call c)).queue = some q)
    (hfinish : (s.call c).finish = true → (f (s.call c)).finish = true)
    (hclosed : (s.call c).closed = true → (f (s.call c)).closed = true) : Grows s s' := by
  have hother : ∀ c', c' ≠ c → s'.call c' = s.call c' := fun c' hne => by
    rw [hcall]
    exact Function.update_of_ne hne _ _
  have hself : s'.call c = f (s.call c) := by
    rw [hcall]
    exact Function.update_self ..
  refine ⟨hcreated.ge, ?_, ?_, ?_, ?_, ?_, ?_⟩ <;> intro c' _ <;> by_cases heq : c' = c
  · rw [heq, hself]
    exact hkind
  · rw [hother c' heq]
  · rw [heq, hself]
    exact hregistered
  · rw [hother c' heq]
  · rw [heq, hself]
    exact hkey
  · rw [hother c' heq]
    exact fun _ h => h
  · rw [heq, hself]
    exact hqueue
  · rw [hother c' heq]
    exact fun _ h => h
  · rw [heq, hself]
    exact hfinish
  · rw [hother c' heq]
    exact id
  · rw [heq, hself]
    exact hclosed
  · rw [hother c' heq]
    exact id

theorem grows_register {kind : CallKind} {key : EventKey} {manager : EventHandlerManager Nat} :
    Grows s ((Act.register kind key manager).apply s) := by
  have hother : ∀ c < s.created, ((Act.register kind key manager).apply s).call c = s.call c := fun c hc =>
    Function.update_of_ne (Nat.ne_of_lt hc) _ _
  refine ⟨Nat.le_succ _, ?_, ?_, ?_, ?_, ?_, ?_⟩ <;> intro c hc <;> rw [hother c hc]
  · exact fun _ h => h
  · exact fun _ h => h
  · exact id
  · exact id

theorem Step.grows {t t' : Thread} (h : Step s t a t') (hk : t.Knows s) : Grows s (a.apply s) := by
  cases a with
  | look => exact .refl s
  | register kind key manager => exact grows_register
  | prepare c key queue =>
    obtain ⟨kind, rfl⟩ := h.of_prepare
    obtain ⟨-, -, -, hkey, hqueue⟩ := hk
    exact grows_modify c (fun x => { x with key := some key, queue := some queue }) rfl rfl rfl rfl (by simp [hkey])
      (by simp [hqueue]) id id
  | post o =>
    exact grows_modify o.call (fun x => { x with posted := x.posted ++ [o.opt] }) rfl rfl rfl rfl (fun _ h => h)
      (fun _ h => h) id id
  | sem c a =>
    exact grows_modify c (fun x => { x with canWrite := a.apply x.canWrite }) rfl rfl rfl rfl (fun _ h => h)
      (fun _ h => h) id id
  | setFinish c =>
    exact grows_modify c (fun x => { x with finish := true }) rfl rfl rfl rfl (fun _ h => h) (fun _ h => h)
      (fun _ => rfl) id
  | setClosed c =>
    exact grows_modify c (fun x => { x with closed := true }) rfl rfl rfl rfl (fun _ h => h) (fun _ h => h) id
      (fun _ => rfl)
  | complete j | remove key =>
    exact ⟨le_refl _, fun _ _ => rfl, fun _ _ => rfl, fun _ _ _ h => h, fun _ _ _ h => h, fun _ _ h => h,
      fun _ _ h => h⟩

variable {kind : CallKind} {o : Op} {key : EventKey}

theorem Prepared.grow (h : Prepared s c kind) (hg : Grows s s') : Prepared s' c kind := by
  obtain ⟨q, hq⟩ := Option.isSome_iff_exists.mp h.queue
  refine ⟨Nat.lt_of_lt_of_le h.created hg.created, (hg.kind c h.created).trans h.kind, ?_, ?_⟩
  · rw [hg.registered c h.created]
    exact hg.key c h.created _ h.key
  · rw [hg.queue c h.created q hq]
    rfl

theorem Op.Known.grow (h : o.Known s) (hg : Grows s s') : o.Known s' := by
  refine ⟨h.prepared.grow hg, hg.queue _ h.prepared.created _ h.queue, h.has, ?_⟩
  rw [hg.registered _ h.prepared.created]
  exact h.token

theorem Holds.grow (h : Holds s i c key) (hg : Grows s s') (hget : s'.handlerManager.get key = some c) :
    Holds s' i c key := by
  have hc := h.prepared.created
  refine ⟨?_, hg.queue c hc _ h.queue, (hg.registered c hc).trans h.registered, hget⟩
  rw [hg.kind c hc]
  exact h.prepared.grow hg

theorem Done.grow (h : (s.call c).Done) (hc : c < s.created) (hg : Grows s s') : (s'.call c).Done := by
  refine ⟨hg.finish c hc h.1, fun hw => hg.closed c hc (h.2 ?_)⟩
  rw [← hg.kind c hc]
  exact hw

/-- What is left of `process` stays known. -/
theorem Holds.todo_grow {todo : List Instr} (h : Holds s i c key) (hg : Grows s s')
    (htodo : ∀ x ∈ todo, x.Known (s.call c).kind key)
    (hunary : (s.call c).kind = .unary → (s.call c).finish = true ∨ .setFinish ∈ todo) :
    (∀ x ∈ todo, x.Known (s'.call c).kind key) ∧
      ((s'.call c).kind = .unary → (s'.call c).finish = true ∨ .setFinish ∈ todo) := by
  have hc := h.prepared.created
  rw [hg.kind c hc]
  exact ⟨htodo, fun hk => (hunary hk).imp_left (hg.finish c hc)⟩

/-- `process` after one of its instructions. -/
theorem Holds.next {x : Instr} {todo : List Instr} (hk : (Thread.poller i (.run c key (x :: todo))).Knows s)
    (hg : Grows s s') (hget : s'.handlerManager.get key = some c) (hx : x = .setFinish → (s'.call c).finish = true) :
    (Thread.poller i (.run c key todo)).Knows s' := by
  obtain ⟨hh, htodo, hunary⟩ := hk
  obtain ⟨htodo, hunary⟩ := hh.todo_grow hg htodo hunary
  refine ⟨hh.grow hg hget, fun y hy => htodo y (List.mem_cons_of_mem _ hy), fun hu => ?_⟩
  rcases hunary hu with hfinish | hmem
  · exact Or.inl hfinish
  · exact (List.mem_cons.mp hmem).imp_left fun heq => hx heq.symm

end Grows

/-! ### The invariant -/

/-- The thread is the poller of the queue `i`. -/
def Thread.polls (i : Nat) : Thread → Nat
  | .poller i' _ => if i' = i then 1 else 0
  | .user _ => 0

/-- What holds in every state that is reached. -/
structure Inv (s : State) : Prop where
  bounded : ∀ c, (s.shared.call c).canWrite.Bounded 1
  total : ∀ φ c, total φ c s ≤ 1
  knows : ∀ t ∈ s.threads, t.Knows s.shared
  ops : ∀ o ∈ s.shared.inflight, o.Known s.shared
  listed : ∀ key c, s.shared.handlerManager.get key = some c →
    c < s.shared.created ∧ (s.shared.call c).registered = key
  kept : ∀ c < s.shared.created, s.shared.handlerManager.get (s.shared.call c).registered = some c ∨
    (s.shared.call c).Done
  pollers : ∀ i, s.weight (Thread.polls i) ≤ 1

section Load
variable {φ : Potential} {s : State} {c : Nat} {t : Thread} {o : Op}

theorem call_le_held (φ : Potential) {s : Shared} (hc : c < s.created) : φ.call (s.call c) ≤ s.held φ c := by
  unfold Shared.held
  rw [if_pos hc]
  omega

theorem Inv.load_thread (h : Inv s) (ht : t ∈ s.threads) (hc : c < s.shared.created) :
    (t.load φ c : Int) + φ.call (s.shared.call c) ≤ 1 := by
  have hle := Config.le_weight (f := Thread.load φ c) ht
  have hheld := call_le_held φ hc
  have htotal := h.total φ c
  unfold Client.total at htotal
  omega

theorem Inv.load_op (h : Inv s) (ho : o ∈ s.shared.inflight) (hc : c < s.shared.created) :
    (o.load φ c : Int) + φ.call (s.shared.call c) ≤ 1 := by
  have hle : o.load φ c ≤ (s.shared.inflight.map (Op.load φ c)).sum :=
    List.single_le_sum (fun _ _ => Nat.zero_le _) _ (List.mem_map_of_mem ho)
  have htotal := h.total φ c
  unfold Client.total Shared.held at htotal
  rw [if_pos hc] at htotal
  omega

/-- An operation of a call is a link of its chain, or it has the permit of a call that writes. -/
theorem has_cases {kind : CallKind} {opt : ClientEventOpt} (h : kind.has opt = true) :
    kind.chains opt = true ∨ kind.permits opt = true ∧ kind.writes = true := by
  cases kind <;> cases opt <;> first | exact Or.inl rfl | exact Or.inr ⟨rfl, rfl⟩ | cases h

/-- A call with an operation under way is not done. -/
theorem not_done_of_load {x : Call} (opt : ClientEventOpt) (hb : x.canWrite.Bounded 1) (hhas : x.kind.has opt = true)
    (hchain : ((x.kind.chains opt).toNat : Int) + chain.call x ≤ 1)
    (hpermit : ((x.kind.permits opt).toNat : Int) + permit.call x ≤ 1) : ¬x.Done := by
  intro hdone
  rcases has_cases hhas with hc | ⟨hp, hw⟩
  · simp [hc, chain, hdone.1] at hchain
  · have := hb.1
    simp [hp, permit, hdone.2 hw] at hpermit
    omega

theorem Inv.not_done_of_thread (h : Inv s) (ht : t ∈ s.threads) (ho : o.Known s.shared)
    (hload : ∀ φ : Potential, t.load φ o.call = φ.op o.kind o.opt) : ¬(s.shared.call o.call).Done := by
  have hc := ho.prepared.created
  refine not_done_of_load o.opt (h.bounded _) (by rw [ho.prepared.kind]; exact ho.has) ?_ ?_
  · have := h.load_thread (φ := chain) ht hc
    rw [hload, ← ho.prepared.kind] at this
    exact this
  · have := h.load_thread (φ := permit) ht hc
    rw [hload, ← ho.prepared.kind] at this
    exact this

/-- The handler of a thread's operation is registered under the key in the token. -/
theorem Inv.get_of_thread (h : Inv s) (ht : t ∈ s.threads) (ho : o.Known s.shared)
    (hload : ∀ φ : Potential, t.load φ o.call = φ.op o.kind o.opt) :
    s.shared.handlerManager.get (Event.ofToken o.token).getKey = some o.call := by
  rw [ho.token]
  exact (h.kept _ ho.prepared.created).resolve_right (h.not_done_of_thread ht ho hload)

end Load

/-! ### Steps -/

section Step
variable {s : State} {i j : Nat} {t t' u : Thread} {a : Act}

theorem bounded_update {s s' : Shared} {c : Nat} {x : Call} (h : ∀ c, (s.call c).canWrite.Bounded 1)
    (hcall : s'.call = Function.update s.call c x) (hx : x.canWrite.Bounded 1) (c' : Nat) :
    (s'.call c').canWrite.Bounded 1 := by
  rw [hcall]
  by_cases heq : c' = c
  · rw [heq, Function.update_self]
    exact hx
  · rw [Function.update_of_ne heq]
    exact h c'

theorem Step.bounded {s : Shared} (h : ∀ c, (s.call c).canWrite.Bounded 1) (hs : Step s t a t') :
    ∀ c, ((a.apply s).call c).canWrite.Bounded 1 := by
  cases hs with
  | user hs =>
    cases hs with
    | add => exact bounded_update h rfl ⟨(zero_le_one : (0 : Int) ≤ 1), le_refl _⟩
    | acquire hsem => exact bounded_update h rfl (hsem.bounded (h _))
    | prepare | post => exact bounded_update h rfl (h _)
    | _ => exact h
  | poller hs =>
    cases hs with
    | releasing hsem => exact bounded_update h rfl (hsem.bounded (h _))
    | post | setFinish | setClosed => exact bounded_update h rfl (h _)
    | _ => exact h

theorem Step.ops {s : Shared} (h : ∀ o ∈ s.inflight, o.Known s) (hs : Step s t a t') (hk : t.Knows s) :
    ∀ o ∈ (a.apply s).inflight, o.Known (a.apply s) := by
  have hg := hs.grows hk
  have hold : ∀ o ∈ s.inflight, o.Known (a.apply s) := fun o ho => (h o ho).grow hg
  cases hs with
  | user hs =>
    cases hs with
    | @post c kind opt posts =>
      intro o ho
      rcases List.mem_append.mp ho with ho | ho
      · exact hold o ho
      · rw [List.mem_singleton.mp ho]
        obtain ⟨hp, hhas⟩ := hk
        obtain ⟨q, hq⟩ := Option.isSome_iff_exists.mp hp.queue
        refine Op.Known.grow ?_ hg
        refine ⟨?_, ?_, ?_, ?_⟩
        · rw [Shared.op, hp.kind]
          exact hp
        · simp [Shared.op, hq]
        · rw [Shared.op, hp.kind]
          exact hhas opt (List.mem_cons_self ..)
        · simp [Shared.op, Shared.userEvent, hp.key, Event.ofToken_getToken, Event.ofKey, Event.setOpt]
    | _ => exact hold
  | poller hs =>
    cases hs with
    | @completed j o ok hj hq => exact fun o ho => hold o (List.mem_of_mem_eraseIdx ho)
    | @post c key opt event todo =>
      intro o ho
      rcases List.mem_append.mp ho with ho | ho
      · exact hold o ho
      · rw [List.mem_singleton.mp ho]
        obtain ⟨hh, htodo, -⟩ := hk
        obtain ⟨-, hhas, rfl⟩ := htodo _ (List.mem_cons_self ..)
        refine Op.Known.grow ?_ hg
        refine ⟨hh.prepared, ?_, hhas, ?_⟩
        · simp [Shared.op, hh.queue]
        · simp [Shared.op, Event.ofToken_getToken, hh.registered]
    | _ => exact hold

theorem polls_step (hs : Step s.shared t a t') (k : Nat) : t'.polls k = t.polls k := by
  cases hs <;> rfl

/-- The pollers of two threads are of different queues. -/
theorem Inv.polls_ne (h : Inv s) {k k' : Nat} {p p' : PollerPc} (hi : s.threads[i]? = some (.poller k p))
    (hj : s.threads[j]? = some (.poller k' p')) (hne : i ≠ j) : k ≠ k' := by
  rintro rfl
  have := Config.add_le_weight (f := Thread.polls k) hi hj hne
  have hle := h.pollers k
  simp only [Thread.polls, if_true] at this
  omega

/-- A registered handler stays, unless the step removes it. -/
theorem Step.get_kept {s : Shared} {c : Nat} {key : EventKey} (hs : Step s t a t')
    (hget : s.handlerManager.get key = some c) (hno : a ≠ .remove key) :
    (a.apply s).handlerManager.get key = some c := by
  cases a with
  | register kind key' manager =>
    obtain ⟨hnone, -, hother⟩ := EventHandlerManager.add_cases hs.add_of_register
    refine (hother key ?_).trans hget
    rintro rfl
    rw [hnone] at hget
    cases hget
  | remove key' =>
    refine (EventHandlerManager.get_remove_of_ne ?_).trans hget
    rintro rfl
    exact hno rfl
  | _ => exact hget

/-- A step of another thread does not take a handler away from its poller. -/
theorem Inv.holds_other (h : Inv s) (hi : s.threads[i]? = some t) (hj : s.threads[j]? = some u) (hne : j ≠ i)
    (hs : Step s.shared t a t') {k c : Nat} {key : EventKey} {p : PollerPc} (hu : u = .poller k p)
    (hh : Holds s.shared k c key) : Holds (a.apply s.shared) k c key := by
  have hk := h.knows t (List.mem_of_getElem? hi)
  refine hh.grow (hs.grows hk) (hs.get_kept hh.get ?_)
  rintro rfl
  -- the remover is the poller of another queue, so the handler that it removes is another one
  obtain ⟨k', c', rfl⟩ := hs.of_remove
  subst hu
  have hc : c' = c := Option.some.inj (hk.1.get.symm.trans hh.get)
  subst hc
  have := hk.1.queue.symm.trans hh.queue
  simp only [Option.some.injEq, Nat.cast_inj] at this
  exact h.polls_ne hi hj (Ne.symm hne) this

/-- Only `prepareAsyncCall` sets the key and the queue of a call. -/
theorem Step.unprepared {s : Shared} {c : Nat} (hs : Step s t a t') (hc : c < s.created) :
    (∃ kind key, t = .user (.prepare c kind key)) ∨
      ((a.apply s).call c).key = (s.call c).key ∧ ((a.apply s).call c).queue = (s.call c).queue := by
  have hsame : ∀ {s' : Shared} {c' : Nat} {x : Call}, s'.call = Function.update s.call c' x →
      (c = c' → x.key = (s.call c').key ∧ x.queue = (s.call c').queue) →
      (s'.call c).key = (s.call c).key ∧ (s'.call c).queue = (s.call c).queue := by
    intro s' c' x hcall hx
    rw [hcall]
    by_cases heq : c = c'
    · rw [heq, Function.update_self]
      exact hx heq
    · rw [Function.update_of_ne heq]
      exact ⟨rfl, rfl⟩
  cases a with
  | register kind key manager => exact Or.inr (hsame rfl fun heq => absurd heq (Nat.ne_of_lt hc))
  | prepare c' key queue =>
    by_cases heq : c = c'
    · subst heq
      obtain ⟨kind, rfl⟩ := hs.of_prepare
      exact Or.inl ⟨kind, key, rfl⟩
    · exact Or.inr (hsame rfl fun h => absurd h heq)
  | post o | sem c' a | setFinish c' | setClosed c' => exact Or.inr (hsame rfl fun _ => ⟨rfl, rfl⟩)
  | look | complete j | remove key => exact Or.inr ⟨rfl, rfl⟩

/-- A call is prepared by one thread only. -/
theorem Inv.prepare_unique (h : Inv s) {c : Nat} {kind kind' : CallKind} {key key' : EventKey}
    (hi : s.threads[i]? = some (.user (.prepare c kind key)))
    (hj : s.threads[j]? = some (.user (.prepare c kind' key'))) (hc : c < s.shared.created) : i = j := by
  by_contra hne
  have hone : ∀ kind : CallKind, chain.ahead kind (startPosts kind) = 1 := fun kind => by cases kind <;> rfl
  have hw := Config.add_le_weight (f := Thread.load chain c) hi hj hne
  have hheld := call_le_held chain hc
  have htotal := h.total chain c
  simp only [Thread.load, if_true, hone] at hw
  unfold Client.total at htotal
  have hpos : (0 : Int) ≤ chain.call (s.shared.call c) := Int.natCast_nonneg _
  omega

/-- What another thread relies on stays true. -/
theorem Inv.knows_other (h : Inv s) (hi : s.threads[i]? = some t) (hj : s.threads[j]? = some u) (hne : j ≠ i)
    (hs : Step s.shared t a t') : u.Knows (a.apply s.shared) := by
  have hg := hs.grows (h.knows t (List.mem_of_getElem? hi))
  have hu := h.knows u (List.mem_of_getElem? hj)
  cases u with
  | user p =>
    cases p with
    | prepare c kind key =>
      obtain ⟨hc, hkind, hreg, hkey, hqueue⟩ := hu
      refine ⟨Nat.lt_of_lt_of_le hc hg.created, (hg.kind c hc).trans hkind, (hg.registered c hc).trans hreg, ?_⟩
      rcases hs.unprepared hc with ⟨kind', key', rfl⟩ | ⟨hk, hq⟩
      · exact absurd (h.prepare_unique hj hi hc) hne
      · exact ⟨hk.trans hkey, hq.trans hqueue⟩
    | acquire c kind p posts => exact ⟨hu.1.grow hg, hu.2⟩
    | post c kind posts => exact ⟨hu.1.grow hg, hu.2⟩
    | idle c kind => exact ⟨hu.1.grow hg, hu.2⟩
    | _ => exact hu
  | poller k p =>
    cases p with
    | contains o ok => exact ⟨hu.1.grow hg, hu.2⟩
    | get o ok => exact ⟨hu.1.grow hg, hu.2⟩
    | process c o ok =>
      obtain ⟨ho, hc, hh⟩ := hu
      refine ⟨ho.grow hg, hc, ?_⟩
      rw [hg.registered c hh.prepared.created]
      exact h.holds_other hi hj hne hs rfl hh
    | run c key todo =>
      obtain ⟨hh, htodo, hunary⟩ := hu
      exact ⟨h.holds_other hi hj hne hs rfl hh, hh.todo_grow hg htodo hunary⟩
    | release c key p todo =>
      obtain ⟨hh, htodo, hunary, hp⟩ := hu
      obtain ⟨htodo, hunary⟩ := hh.todo_grow hg htodo hunary
      exact ⟨h.holds_other hi hj hne hs rfl hh, htodo, hunary, hp⟩
    | remove c key => exact ⟨h.holds_other hi hj hne hs rfl hu.1, Done.grow hu.2 hu.1.prepared.created hg⟩
    | _ => exact hu

theorem has_startPosts (kind : CallKind) : ∀ opt ∈ startPosts kind, kind.has opt = true := by
  cases kind <;> simp [startPosts, CallKind.has]

theorem AcquiresFor.has {kind : CallKind} {posts : List ClientEventOpt} (h : AcquiresFor kind posts) :
    ∀ opt ∈ posts, kind.has opt = true := by
  obtain ⟨hw, hposts⟩ := h
  cases kind with
  | unary | listen => cases hw
  | speak | talk =>
    rcases hposts with rfl | rfl | rfl
    · exact has_startPosts _
    · simp [CallKind.has]
    · simp [CallKind.has]

/-- What a user that has moved relies on. -/
theorem UserStep.knows {s : Shared} {p p' : UserPc} (hs : UserStep s p a p') (hk : (Thread.user p).Knows s)
    (hg : Grows s (a.apply s)) : (Thread.user p').Knows (a.apply s) := by
  cases hs with
  | @add kind key manager hadd =>
    have hcall : ((Act.register kind key manager).apply s).call s.created = { kind, registered := key } :=
      Function.update_self ..
    refine ⟨Nat.lt_succ_self _, ?_⟩
    rw [hcall]
    exact ⟨rfl, rfl, rfl, rfl⟩
  | addFull => exact trivial
  | @prepare c kind key queue =>
    obtain ⟨hc, hkind, hreg, -, -⟩ := hk
    have hcall : ((Act.prepare c key queue).apply s).call c = { s.call c with key := some key, queue := some queue } :=
      Function.update_self ..
    have hprepared : Prepared ((Act.prepare c key queue).apply s) c kind := by
      refine ⟨hc, ?_, ?_, ?_⟩ <;> rw [hcall]
      · exact hkind
      · exact congrArg some hreg.symm
      · rfl
    unfold UserPc.afterPrepare
    split
    · next hw => exact ⟨hprepared, ⟨hw, Or.inl rfl⟩, trivial⟩
    · exact ⟨hprepared, has_startPosts kind⟩
  | @acquire c kind sp sp' sa posts hsem =>
    unfold UserPc.afterAcquire
    split
    · exact ⟨hk.1.grow hg, hk.2.1.has⟩
    · exact ⟨hk.1.grow hg, hk.2.1, hsem.fits⟩
  | @post c kind opt posts =>
    cases posts with
    | nil =>
      show (Thread.user (if _ then _ else _)).Knows _
      split
      · next hw => exact ⟨hk.1.grow hg, (Bool.and_eq_true _ _ ▸ hw).1⟩
      · exact trivial
    | cons opt' posts => exact ⟨hk.1.grow hg, fun o ho => hk.2 o (List.mem_cons_of_mem _ ho)⟩
  | write => exact ⟨hk.1.grow hg, ⟨hk.2, Or.inr (Or.inl rfl)⟩, trivial⟩
  | close => exact ⟨hk.1.grow hg, ⟨hk.2, Or.inr (Or.inr rfl)⟩, trivial⟩

theorem Answer.known {event : Event} {kind : CallKind} {opt : ClientEventOpt} {todo : List Instr} {key : EventKey}
    (h : Answer event kind opt todo) (hhas : kind.has opt = true) (hevent : event = ⟨key, opt.code⟩) :
    (∀ x ∈ todo, x.Known kind key) ∧ (kind = .unary → .setFinish ∈ todo) := by
  subst hevent
  have hfinish : kind.has .finish = true := by cases kind <;> rfl
  cases h with
  | finished => simp [Instr.Known]
  | written | writesDone =>
    cases kind with
    | unary => cases hhas
    | _ => simp [Instr.Known]
  | read | readEnd =>
    cases kind with
    | unary => cases hhas
    | _ => simp [Instr.Known, Event.setOpt, hhas, hfinish]
  | _ => simp [Instr.Known, CallKind.has, Event.setOpt]

/-- The test of the key in `process` does not throw. -/
theorem Call.process_ne_none {x : Call} {ok : Bool} {event : Event} (hkey : x.key = some event.key) :
    x.process ok event ≠ none := by
  unfold Call.process
  have hno : ¬x.key ≠ some event.getKey := not_not.mpr hkey
  split <;> simp [if_neg hno]

/-- `isComplete` means that the call is done, if a unary call has been processed. -/
theorem Call.done_of_isComplete {x : Call} (h : x.isComplete = true) (hunary : x.kind = .unary → x.finish = true) :
    x.Done := by
  obtain ⟨kind, key, queue, finish, closed, canWrite, registered, posted⟩ := x
  cases kind with
  | unary => exact ⟨hunary rfl, fun hw => by cases hw⟩
  | listen => exact ⟨h, fun hw => by cases hw⟩
  | speak | talk =>
    obtain ⟨hf, hc⟩ := Bool.and_eq_true_iff.mp h
    exact ⟨hf, fun _ => hc⟩

/-- `release` in `process` finds the semaphore empty: the permit is with the poller. -/
theorem Inv.release_succeeds (h : Inv s) {k c : Nat} {key : EventKey} {p p' : Semaphore.Pc} {sa : Semaphore.Act}
    {todo : List Instr} (ht : .poller k (.release c key p todo) ∈ s.threads) (hc : c < s.shared.created)
    (hs : Semaphore.Step 1 (s.shared.call c).canWrite p sa p') (hp : p ≠ .releaseReturns false) :
    p' ≠ .releaseReturns false := by
  rintro rfl
  cases hs with
  | releaseFull hr hfull =>
    have hload := h.load_thread (φ := permit) ht hc
    have hone : p.permits = 1 := by
      obtain rfl | ⟨e, rfl⟩ := Semaphore.Pc.releaseReads_cases hr <;> rfl
    have hcall : permit.call (s.shared.call c) = (s.shared.call c).canWrite.remaining + (s.shared.call c).closed.toNat := rfl
    have hpc : permit.pc p = p.permits := rfl
    simp only [Thread.load, if_true, hpc, hone] at hload
    omega

/-- What a poller that has moved relies on. -/
theorem Inv.knows_poller (h : Inv s) {k : Nat} {p p' : PollerPc} (ht : .poller k p ∈ s.threads)
    (hs : PollerStep k s.shared p a p') (hg : Grows s.shared (a.apply s.shared)) :
    (Thread.poller k p').Knows (a.apply s.shared) := by
  have hk := h.knows _ ht
  cases hs with
  | completed hj hq => exact ⟨(h.ops _ (List.mem_of_getElem? hj)).grow hg, hq⟩
  | contains => exact hk
  | notExist hno =>
    have hget := h.get_of_thread ht hk.1 (fun φ => if_pos rfl)
    rw [EventHandlerManager.get_of_contains_false hno] at hget
    cases hget
  | @get o ok c hc =>
    have hget := h.get_of_thread ht hk.1 (fun φ => if_pos rfl)
    obtain rfl : o.call = c := Option.some.inj (hget.symm.trans hc)
    have hprepared := hk.1.prepared
    refine ⟨hk.1, rfl, ?_, ?_, rfl, ?_⟩
    · exact ⟨hprepared.created, rfl, hprepared.key, hprepared.queue⟩
    · exact hk.2 ▸ hk.1.queue
    · rw [hk.1.token] at hget
      exact hget
  | getRaises hno =>
    have hget := h.get_of_thread ht hk.1 (fun φ => if_pos rfl)
    rw [hno] at hget
    cases hget
  | @process c o ok todo hp =>
    obtain ⟨ho, rfl, hh⟩ := hk
    have hhas : (s.shared.call o.call).kind.has o.opt = true := by
      rw [ho.prepared.kind]
      exact ho.has
    have hanswer := Call.process_cases hhas (by rw [ho.token]; exact ClientEventOpt.ofCode_code _) hp
    have hkey : (Event.ofToken o.token).getKey = (s.shared.call o.call).registered := by rw [ho.token]; rfl
    obtain ⟨hknown, hunary⟩ := hanswer.known hhas ho.token
    rw [hkey]
    exact ⟨hh, hknown, fun hu => Or.inr (hunary hu)⟩
  | @processRaises c o ok hp =>
    obtain ⟨ho, rfl, hh⟩ := hk
    refine absurd hp (Call.process_ne_none ?_)
    rw [ho.prepared.key, ho.token]
  | post => exact Holds.next hk hg hk.1.get (by simp)
  | setFinish => exact Holds.next hk hg hk.1.get fun _ => by simp [Act.apply, Shared.modify]
  | setClosed => exact Holds.next hk hg hk.1.get (by simp)
  | @release c key todo =>
    obtain ⟨hh, htodo, hunary⟩ := Holds.next hk hg hk.1.get (by simp)
    exact ⟨hh, htodo, hunary, trivial, by simp⟩
  | @unexpected c key todo => exact (hk.2.1 _ (List.mem_cons_self ..)).elim
  | @releasing c key sp sp' sa todo hsem =>
    obtain ⟨hh, htodo, hunary, -, hp⟩ := hk
    obtain ⟨htodo, hunary⟩ := hh.todo_grow hg htodo hunary
    exact ⟨hh.grow hg hh.get, htodo, hunary, hsem.fits, h.release_succeeds ht hh.prepared.created hsem hp⟩
  | released =>
    obtain ⟨hh, htodo, hunary, -⟩ := hk
    exact ⟨hh, htodo, hunary⟩
  | spin => exact absurd rfl hk.2.2.2.2
  | @complete c key hcomplete =>
    obtain ⟨hh, -, hunary⟩ := hk
    exact ⟨hh, Call.done_of_isComplete hcomplete fun hu => (hunary hu).resolve_right (by simp)⟩
  | warned => exact hk.elim
  | _ => exact trivial

theorem Inv.knows_self (h : Inv s) (ht : t ∈ s.threads) (hs : Step s.shared t a t') : t'.Knows (a.apply s.shared) := by
  have hk := h.knows t ht
  have hg := hs.grows hk
  cases hs with
  | user hs => exact hs.knows hk hg
  | poller hs => exact h.knows_poller ht hs hg

theorem Inv.listed_step (h : Inv s) (ht : t ∈ s.threads) (hs : Step s.shared t a t') (key : EventKey) (c : Nat)
    (hget : (a.apply s.shared).handlerManager.get key = some c) :
    c < (a.apply s.shared).created ∧ ((a.apply s.shared).call c).registered = key := by
  have hg := hs.grows (h.knows t ht)
  have hold : s.shared.handlerManager.get key = some c →
      c < (a.apply s.shared).created ∧ ((a.apply s.shared).call c).registered = key := by
    intro hold
    obtain ⟨hc, hreg⟩ := h.listed key c hold
    exact ⟨Nat.lt_of_lt_of_le hc hg.created, (hg.registered c hc).trans hreg⟩
  cases a with
  | register kind key' manager =>
    obtain ⟨-, hnew, hother⟩ := EventHandlerManager.add_cases hs.add_of_register
    by_cases heq : key = key'
    · subst heq
      obtain rfl : s.shared.created = c := Option.some.inj (hnew.symm.trans hget)
      exact ⟨Nat.lt_succ_self _, by simp [Act.apply, Shared.modify]⟩
    · exact hold ((hother key heq).symm.trans hget)
  | remove key' =>
    by_cases heq : key = key'
    · subst heq
      cases hget.symm.trans EventHandlerManager.get_remove_self
    · exact hold ((EventHandlerManager.get_remove_of_ne heq).symm.trans hget)
  | _ => exact hold hget

theorem Inv.kept_step (h : Inv s) (ht : t ∈ s.threads) (hs : Step s.shared t a t') (c : Nat)
    (hc : c < (a.apply s.shared).created) :
    (a.apply s.shared).handlerManager.get ((a.apply s.shared).call c).registered = some c ∨
      ((a.apply s.shared).call c).Done := by
  have hk := h.knows t ht
  have hg := hs.grows hk
  by_cases hold : c < s.shared.created
  · rw [hg.registered c hold]
    rcases h.kept c hold with hget | hdone
    · by_cases hremove : a = .remove (s.shared.call c).registered
      · subst hremove
        -- the handler that is removed is that of `c`, which is done
        refine Or.inr (Done.grow ?_ hold hg)
        obtain ⟨k, c', rfl⟩ := hs.of_remove
        obtain rfl := Option.some.inj (hk.1.get.symm.trans hget)
        exact hk.2
      · exact Or.inl (hs.get_kept hget hremove)
    · exact Or.inr (Done.grow hdone hold hg)
  · left
    cases a with
    | register kind key manager =>
      obtain rfl : c = s.shared.created := Nat.le_antisymm (Nat.le_of_lt_succ hc) (Nat.le_of_not_lt hold)
      obtain ⟨-, hnew, -⟩ := EventHandlerManager.add_cases hs.add_of_register
      simpa [Act.apply, Shared.modify] using hnew
    | _ => exact absurd hc hold

theorem Inv.run (h : Inv s) {n : Nat} {x : Choice} (hi : s.threads[i]? = some t)
    (hstep : t.step n s.shared x = some (a, t')) : Inv ⟨a.apply s.shared, s.threads.set i t'⟩ := by
  have ht := List.mem_of_getElem? hi
  have hk := h.knows t ht
  have hs := Thread.step_cases h.bounded hk.fits hstep
  refine ⟨hs.bounded h.bounded, fun φ c => (total_le hi hs hk).trans (h.total φ c), ?_, hs.ops h.ops hk,
    h.listed_step ht hs, h.kept_step ht hs, ?_⟩
  · intro u hu
    rcases eq_or_of_mem_set hu with rfl | ⟨j, hne, hj⟩
    · exact h.knows_self ht hs
    · exact h.knows_other hi hj hne hs
  · intro k
    have hw := Config.weight_run (Thread.polls k) (a.apply s.shared) t' hi
    rw [polls_step hs k] at hw
    have := h.pollers k
    omega

theorem Inv.enter (h : Inv s) (kind : CallKind) : Inv ⟨s.shared, s.threads ++ [Thread.user (.add kind)]⟩ := by
  refine ⟨h.bounded, fun φ c => ?_, ?_, h.ops, h.listed, h.kept, fun k => ?_⟩
  · have := h.total φ c
    unfold Client.total at this ⊢
    rw [Config.weight_enter]
    exact this
  · intro t ht
    rcases List.mem_append.mp ht with ht | ht
    · exact h.knows t ht
    · rw [List.mem_singleton.mp ht]
      exact trivial
  · rw [Config.weight_enter]
    exact h.pollers k

end Step

theorem polls_start (n i : Nat) : (start n).weight (Thread.polls i) = if i < n then 1 else 0 := by
  show (((List.range n).map fun i => Thread.poller i .next).map (Thread.polls i)).sum = _
  induction n with
  | zero => rfl
  | succ n ih =>
    rw [List.range_succ, List.map_append, List.map_append, List.sum_append, ih]
    simp only [List.map_singleton, List.sum_singleton, Thread.polls]
    split <;> split <;> split <;> omega

theorem inv_start (n : Nat) : Inv (start n) := by
  have hpoller : ∀ t ∈ (start n).threads, ∃ i, t = .poller i .next := by
    intro t ht
    obtain ⟨i, -, rfl⟩ := List.mem_map.mp ht
    exact ⟨i, rfl⟩
  refine ⟨fun _ => ⟨(zero_le_one : (0 : Int) ≤ 1), le_refl _⟩, fun φ c => ?_, ?_, by simp [start], ?_, ?_, fun i => ?_⟩
  · have hz : (start n).weight (Thread.load φ c) = 0 := by
      refine Nat.eq_zero_of_not_pos fun hpos => ?_
      obtain ⟨t, ht, hp⟩ := Config.weight_pos.mp hpos
      obtain ⟨i, rfl⟩ := hpoller t ht
      exact Nat.lt_irrefl 0 hp
    unfold total
    rw [hz]
    simp [Shared.held, start]
  · intro t ht
    obtain ⟨i, rfl⟩ := hpoller t ht
    exact trivial
  · intro key c hget
    cases hget
  · intro c hc
    exact absurd hc (Nat.not_lt_zero c)
  · rw [polls_start]
    split <;> decide

theorem inv {n : Nat} {s : State} (h : Reachable n s) : Inv s := by
  induction h with
  | start => exact inv_start n
  | run _ _ hi hs _ ih => exact ih.run hi hs
  | enter _ hk _ ih =>
    cases hk
    exact ih.enter _

/-! ### Outstanding operations -/

/-- The operations of `c` with the property `p` that have been posted and have not completed. -/
def Shared.outstanding (s : Shared) (c : Nat) (p : ClientEventOpt → Bool) : Nat :=
  s.inflight.countP fun o => o.call = c && p o.opt

section Outstanding
variable {n : Nat} {s : State} {c : Nat}

theorem countP_le_sum {α : Type} {p : α → Bool} {f : α → Nat} {l : List α} (h : ∀ x ∈ l, p x = true → 1 ≤ f x) :
    l.countP p ≤ (l.map f).sum := by
  induction l with
  | nil => exact le_refl _
  | cons x l ih =>
    have hl := ih fun y hy => h y (List.mem_cons_of_mem _ hy)
    rw [List.countP_cons, List.map_cons, List.sum_cons]
    split
    · next hx =>
      have := h x (List.mem_cons_self ..) hx
      omega
    · omega

theorem Inv.outstanding_le (h : Inv s) (φ : Potential) {p : ClientEventOpt → Bool} (hc : c < s.shared.created)
    (hcall : 0 ≤ φ.call (s.shared.call c))
    (hp : ∀ o ∈ s.shared.inflight, o.call = c → p o.opt = true → 1 ≤ φ.op o.kind o.opt) :
    s.shared.outstanding c p ≤ 1 := by
  have hsum : s.shared.outstanding c p ≤ (s.shared.inflight.map (Op.load φ c)).sum := by
    refine countP_le_sum fun o ho hop => ?_
    simp only [Bool.and_eq_true, decide_eq_true_eq] at hop
    simp only [Op.load, hop.1, if_true]
    exact hp o ho hop.1 hop.2
  have htotal := h.total φ c
  unfold Client.total Shared.held at htotal
  rw [if_pos hc] at htotal
  omega

/-- The operations that write or open a call. -/
def ClientEventOpt.isWrite : ClientEventOpt → Bool
  | .startCall | .write | .writeDone => true
  | .read | .finish => false

theorem permits_of_writes {kind : CallKind} {opt : ClientEventOpt} (hw : kind.writes = true) (hopt : opt.isWrite = true) :
    kind.permits opt = true := by
  cases kind <;> cases opt <;> first | rfl | exact Bool.noConfusion hw | exact Bool.noConfusion hopt

theorem chains_of_not_writes {kind : CallKind} {opt : ClientEventOpt} (hw : kind.writes = false)
    (hhas : kind.has opt = true) : kind.chains opt = true := by
  cases kind <;> cases opt <;> first | rfl | exact Bool.noConfusion hw | exact Bool.noConfusion hhas

theorem Inv.writes_outstanding (h : Inv s) (hc : c < s.shared.created) :
    s.shared.outstanding c ClientEventOpt.isWrite ≤ 1 := by
  have hkind : ∀ o ∈ s.shared.inflight, o.call = c → (s.shared.call c).kind = o.kind := by
    rintro o ho rfl
    exact (h.ops o ho).prepared.kind
  cases hw : (s.shared.call c).kind.writes with
  | true =>
    refine h.outstanding_le permit hc (add_nonneg (h.bounded c).1 (Int.natCast_nonneg _)) fun o ho hoc hopt => ?_
    rw [hkind o ho hoc] at hw
    show 1 ≤ (CallKind.permits _ _).toNat
    rw [permits_of_writes hw hopt]
    exact le_refl _
  | false =>
    refine h.outstanding_le chain hc (Int.natCast_nonneg _) fun o ho hoc _ => ?_
    rw [hkind o ho hoc] at hw
    show 1 ≤ (CallKind.chains _ _).toNat
    rw [chains_of_not_writes hw (h.ops o ho).has]
    exact le_refl _

theorem Inv.reads_outstanding (h : Inv s) (hc : c < s.shared.created) :
    s.shared.outstanding c (fun opt => opt = .read) ≤ 1 := by
  refine h.outstanding_le chain hc (Int.natCast_nonneg _) fun o ho hoc hopt => ?_
  rw [of_decide_eq_true hopt]
  cases o.kind <;> exact le_refl _

/-- Nothing of a complete call is outstanding. -/
theorem Inv.complete_outstanding (h : Inv s) (hkind : (s.shared.call c).kind ≠ .unary)
    (hcomplete : (s.shared.call c).isComplete = true) : ∀ o ∈ s.shared.inflight, o.call ≠ c := by
  rintro o ho rfl
  have hknown := h.ops o ho
  have hc := hknown.prepared.created
  have hdone := Call.done_of_isComplete hcomplete fun hu => absurd hu hkind
  refine not_done_of_load o.opt (h.bounded _) (by rw [hknown.prepared.kind]; exact hknown.has) ?_ ?_ hdone
  · have := h.load_op (φ := chain) ho hc
    rw [Op.load, if_pos rfl, ← hknown.prepared.kind] at this
    exact this
  · have := h.load_op (φ := permit) ho hc
    rw [Op.load, if_pos rfl, ← hknown.prepared.kind] at this
    exact this

/-- A thread that posts a read has not posted `Finish`. -/
theorem Inv.read_before_finish (h : Inv s) {t t' : Thread} {o : Op} (ht : t ∈ s.threads)
    (hs : Step s.shared t (.post o) t') (hread : o.opt = .read) : .finish ∉ (s.shared.call o.call).posted := by
  have hload : o.call < s.shared.created ∧ 1 ≤ t.load unfinished o.call := by
    have hk := h.knows t ht
    cases hs with
    | user hs =>
      cases hs with
      | @post c kind opt posts =>
        obtain rfl : opt = .read := hread
        refine ⟨hk.1.created, ?_⟩
        show 1 ≤ if c = c then unfinished.posts kind (.read :: posts) else 0
        rw [if_pos rfl, unfinished.posts_cons]
        have : unfinished.pending kind .read = 1 := by cases kind <;> rfl
        omega
    | poller hs =>
      cases hs with
      | @post c key opt event todo =>
        refine ⟨hk.1.prepared.created, ?_⟩
        show 1 ≤ if c = c then unfinished.todo (.post opt event :: todo) else 0
        rw [if_pos rfl, unfinished.todo_cons]
        have : unfinished.instr (.post opt event) = 1 := rfl
        omega
  have hle := h.load_thread (φ := unfinished) ht hload.1
  have hcall : unfinished.call (s.shared.call o.call) = (s.shared.call o.call).posted.count .finish := rfl
  rw [← List.count_eq_zero]
  omega

/-- A step posts an operation of its call, or it leaves the history of every call alone. -/
theorem Act.posted (a : Act) (s : Shared) (c : Nat) :
    (∃ o, a = .post o ∧ o.call = c ∧ ((a.apply s).call c).posted = (s.call c).posted ++ [o.opt]) ∨
      ((a.apply s).call c).posted = [] ∨ ((a.apply s).call c).posted = (s.call c).posted := by
  have hsame : ∀ {s' : Shared} {c' : Nat} {x : Call}, s'.call = Function.update s.call c' x →
      x.posted = [] ∨ x.posted = (s.call c').posted → (s'.call c).posted = [] ∨ (s'.call c).posted = (s.call c).posted := by
    intro s' c' x hcall hx
    rw [hcall]
    by_cases heq : c = c'
    · rw [heq, Function.update_self]
      exact hx
    · rw [Function.update_of_ne heq]
      exact Or.inr rfl
  cases a with
  | register kind key manager => exact Or.inr (hsame rfl (Or.inl rfl))
  | post o =>
    by_cases heq : o.call = c
    · subst heq
      exact Or.inl ⟨o, rfl, rfl, by simp [Act.apply, Shared.modify]⟩
    · refine Or.inr (Or.inr ?_)
      simp [Act.apply, Shared.modify, Function.update_of_ne (Ne.symm heq)]
  | prepare c' key queue | sem c' a | setFinish c' | setClosed c' => exact Or.inr (hsame rfl (Or.inr rfl))
  | look | complete j | remove key => exact Or.inr (Or.inr rfl)

/-- A pair at the end of a list ends with its last element, or is a pair before it. -/
theorem pair_sublist_concat {α : Type} {x y z : α} {l : List α} (h : [x, y].Sublist (l ++ [z])) :
    [x, y].Sublist l ∨ y = z ∧ x ∈ l := by
  obtain ⟨l₁, l₂, hxy, h₁, h₂⟩ := List.sublist_append_iff.mp h
  rcases List.sublist_singleton.mp h₂ with rfl | rfl
  · rw [List.append_nil] at hxy
    exact Or.inl (hxy ▸ h₁)
  · have hsplit : [x] ++ [y] = l₁ ++ [z] := hxy
    obtain ⟨rfl, hyz⟩ := List.append_inj' hsplit rfl
    cases hyz
    exact Or.inr ⟨rfl, List.singleton_sublist.mp h₁⟩

/-- No read is posted after `Finish`. -/
theorem reads_before_finish (h : Reachable n s) (c : Nat) :
    ¬[ClientEventOpt.finish, .read].Sublist (s.shared.call c).posted := by
  induction h with
  | start => simp [start]
  | @run s i x t t' a hr _ hi hstep _ ih =>
    have hinv := inv hr
    have ht := List.mem_of_getElem? hi
    have hk := hinv.knows t ht
    have hs := Thread.step_cases hinv.bounded hk.fits hstep
    intro hsub
    rcases a.posted s.shared c with ⟨o, rfl, rfl, hposted⟩ | hposted | hposted
    · have hsub' : [ClientEventOpt.finish, .read].Sublist ((s.shared.call o.call).posted ++ [o.opt]) := hposted ▸ hsub
      rcases pair_sublist_concat hsub' with hsub' | ⟨hread, hmem⟩
      · exact ih hsub'
      · exact hinv.read_before_finish ht hs hread.symm hmem
    · have hsub' : [ClientEventOpt.finish, .read].Sublist [] := hposted ▸ hsub
      simp at hsub'
    · exact ih (hposted ▸ hsub)
  | enter _ _ _ ih => exact ih

end Outstanding

/-- `release` in `process` has returned false, `process` is in its default branch, or an exception has been thrown. -/
def Thread.goesWrong : Thread → Bool
  | .poller _ (.release _ _ (.releaseReturns false) _) | .poller _ .raised => true
  | .poller _ (.run _ _ todo) | .poller _ (.release _ _ _ todo) => todo.contains .unexpected
  | _ => false

theorem Thread.Knows.not_goesWrong {s : Shared} {t : Thread} (h : t.Knows s) : t.goesWrong = false := by
  have hno : ∀ {kind key} {todo : List Instr}, (∀ x ∈ todo, x.Known kind key) → todo.contains .unexpected = false := by
    intro kind key todo htodo
    rw [List.contains_eq_mem, decide_eq_false_iff_not]
    exact fun hmem => htodo _ hmem
  cases t with
  | user p => rfl
  | poller i p =>
    cases p with
    | run c key todo => exact hno h.2.1
    | release c key p todo =>
      cases p with
      | releaseReturns b =>
        cases b with
        | true => exact hno h.2.1
        | false => exact absurd rfl h.2.2.2.2
      | _ => exact hno h.2.1
    | raised => exact h.elim
    | _ => rfl

/-- The protocol of a call, in every state of every run: at most one of `StartCall`, `Write` and `WritesDone` and at
    most one `Read` is outstanding, `Finish` is posted once and no `Read` after it, each token names the operation that
    was posted with it, a call is complete only when nothing of it is outstanding, and no poller goes wrong. -/
theorem chat_call_protocol (threadPoolSize : Nat) (s : State) (h : Reachable threadPoolSize s) :
    (∀ c < s.shared.created,
      s.shared.outstanding c ClientEventOpt.isWrite ≤ 1 ∧ s.shared.outstanding c (fun opt => opt = .read) ≤ 1 ∧
      (s.shared.call c).posted.count .finish ≤ 1 ∧
      ¬[ClientEventOpt.finish, .read].Sublist (s.shared.call c).posted ∧
      ((s.shared.call c).kind ≠ .unary → (s.shared.call c).isComplete = true →
        ∀ o ∈ s.shared.inflight, o.call ≠ c)) ∧
    (∀ o ∈ s.shared.inflight, (Event.ofToken o.token).getOpt = o.opt.code) ∧
    ∀ t ∈ s.threads, t.goesWrong = false := by
  have hinv := inv h
  refine ⟨fun c hc => ?_, fun o ho => ?_, fun t ht => (hinv.knows t ht).not_goesWrong⟩
  · refine ⟨hinv.writes_outstanding hc, hinv.reads_outstanding hc, ?_, reads_before_finish h c,
      hinv.complete_outstanding⟩
    have htotal := hinv.total unfinished c
    have hheld := call_le_held unfinished hc
    have hcall : unfinished.call (s.shared.call c) = (s.shared.call c).posted.count .finish := rfl
    unfold total at htotal
    omega
  · rw [(hinv.ops o ho).token]
    rfl

/-- A talk call with its first `Read` and its first `Write` outstanding. -/
def talking : List (Move Choice CallKind) :=
  [.enter .talk, .run 1 .go, .run 1 .go, .run 1 (.sem .go), .run 1 (.sem .go), .run 1 .go,
    .run 0 (.completed 0 true), .run 0 .go, .run 0 .go, .run 0 .go, .run 0 .go, .run 0 .go, .run 0 (.sem .go),
    .run 0 (.sem .go), .run 1 .write, .run 1 (.sem .go), .run 1 (.sem .go), .run 1 .go]

theorem chat_call_protocol_talking : ∃ s, Reachable 1 s ∧ s.shared.outstanding 0 ClientEventOpt.isWrite = 1 ∧
    s.shared.outstanding 0 (fun opt => opt = .read) = 1 ∧ (s.shared.call 0).posted.count .finish ≤ 1 ∧
    ∀ t ∈ s.threads, t.goesWrong = false := by
  have hrun : ((clientProactor 1).exec (fun _ _ _ => true) (fun _ => true) (start 1) talking).any
      (fun s => s.shared.created = 1 ∧ s.shared.outstanding 0 ClientEventOpt.isWrite = 1 ∧
        s.shared.outstanding 0 (fun opt => opt = .read) = 1) = true := by
    decide
  obtain ⟨s, hs, hp⟩ := Reach.exists_of_exec Rule.any (fun _ _ _ _ => trivial) (fun _ _ => trivial) hrun
  obtain ⟨hcreated, hwrite, hread⟩ := of_decide_eq_true hp
  obtain ⟨hcalls, -, hthreads⟩ := chat_call_protocol 1 s hs
  exact ⟨s, hs, hwrite, hread, (hcalls 0 (by omega)).2.2.1, hthreads⟩

end HelloWorld.Client
