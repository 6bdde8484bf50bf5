import CppProgramming.HelloWorld.CallProtocol

/-! # Dispatch and polling

A token that comes out of a queue goes to the handler that posted it, because a handler with something under way is
still registered. That somebody takes it out of the queue is another matter: a poller that finds no handler at a
timeout leaves, and calls that are prepared on its queue afterwards are never completed. -/

namespace HelloWorld.Client
open Interleaving

/-! ### Dispatch -/

/-- The operation that a poller has taken out of the queue and not yet dispatched. -/
def Thread.carries : Thread → Option Op
  | .poller _ (.contains o _) | .poller _ (.get o _) => some o
  | _ => none

/-- The operations whose tokens are on a queue or on the way from one to a handler. -/
def undispatched (s : State) : List Op := s.shared.inflight ++ s.gather Thread.carries

/-- What a poller has found for its token is the handler that posted it. -/
def Thread.Dispatches : Thread → Prop
  | .poller _ (.process c o _) => c = o.call ∧ (Event.ofToken o.token).getOpt = o.opt.code
  | .poller _ .notExist | .poller _ .raised => False
  | _ => True

section Dispatch
variable {s : State}

theorem Inv.known_undispatched (h : Inv s) {o : Op} (ho : o ∈ undispatched s) :
    o.Known s.shared ∧ s.shared.handlerManager.get (Event.ofToken o.token).getKey = some o.call := by
  rcases List.mem_append.mp ho with ho | ho
  · have hknown := h.ops o ho
    have hc := hknown.prepared.created
    refine ⟨hknown, ?_⟩
    rw [hknown.token]
    refine (h.kept _ hc).resolve_right ?_
    refine not_done_of_load o.opt (h.bounded _) (by rw [hknown.prepared.kind]; exact hknown.has) ?_ ?_
    · have := h.load_op (φ := chain) ho hc
      rw [Op.load, if_pos rfl, ← hknown.prepared.kind] at this
      exact this
    · have := h.load_op (φ := permit) ho hc
      rw [Op.load, if_pos rfl, ← hknown.prepared.kind] at this
      exact this
  · obtain ⟨t, ht, hcarries⟩ := List.mem_filterMap.mp ho
    have hk := h.knows t ht
    unfold Thread.carries at hcarries
    split at hcarries
    · cases hcarries
      exact ⟨hk.1, h.get_of_thread ht hk.1 fun φ => if_pos rfl⟩
    · cases hcarries
      exact ⟨hk.1, h.get_of_thread ht hk.1 fun φ => if_pos rfl⟩
    · cases hcarries

/-- In every state of every run a token belongs to the registered handler that posted it, with the operation it was
    posted with, no new handler gets its key, and every dispatched token has gone to that handler: neither the branch
    for a missing key nor an exception is reached. -/
theorem client_dispatch (threadPoolSize : Nat) (s : State) (h : Reachable threadPoolSize s) :
    (∀ o ∈ undispatched s,
      s.shared.handlerManager.get (Event.ofToken o.token).getKey = some o.call ∧
      (Event.ofToken o.token).getOpt = o.opt.code ∧
      ∀ key manager, s.shared.handlerManager.add s.shared.created = some (key, manager) →
        key ≠ (Event.ofToken o.token).getKey) ∧
    ∀ t ∈ s.threads, t.Dispatches := by
  have hinv := inv h
  refine ⟨fun o ho => ?_, fun t ht => ?_⟩
  · obtain ⟨hknown, hget⟩ := hinv.known_undispatched ho
    refine ⟨hget, by rw [hknown.token]; rfl, ?_⟩
    rintro key manager hadd rfl
    rw [(EventHandlerManager.add_cases hadd).1] at hget
    cases hget
  · have hk := hinv.knows t ht
    cases t with
    | user p => exact trivial
    | poller i p =>
      cases p with
      | process c o ok => exact ⟨hk.2.1.symm, by rw [hk.1.token]; rfl⟩
      | notExist | raised => exact hk
      | _ => exact trivial

end Dispatch

/-- The state of `talking` has two tokens on the queue. -/
theorem client_dispatch_talking : ∃ s, Reachable 1 s ∧ (undispatched s).length = 2 ∧
    (∀ o ∈ undispatched s, s.shared.handlerManager.get (Event.ofToken o.token).getKey = some o.call) ∧
    ∀ t ∈ s.threads, t.Dispatches := by
  have hrun : ((clientProactor 1).exec (fun _ _ _ => true) (fun _ => true) (start 1) talking).any
      (fun s => (undispatched s).length = 2) = true := by
    decide
  obtain ⟨s, hs, hp⟩ := Reach.exists_of_exec Rule.any (fun _ _ _ _ => trivial) (fun _ _ => trivial) hrun
  obtain ⟨htokens, hthreads⟩ := client_dispatch 1 s hs
  exact ⟨s, hs, of_decide_eq_true hp, fun o ho => (htokens o ho).1, hthreads⟩

/-! ### Polling -/

/-- The thread is in the loop of `asyncCompleteRpc` on the queue `q`. -/
def Thread.isPolling (q : Int) : Thread → Bool
  | .user _ | .poller _ .left | .poller _ .raised => false
  | .poller i _ => i = q

/-- A registered handler whose call was prepared on a queue has the poller of that queue. -/
def Polled (s : State) : Prop :=
  ∀ c, s.shared.handlerManager.get (s.shared.call c).registered = some c →
    ∀ q ∈ (s.shared.call c).queue, ∃ t ∈ s.threads, t.isPolling q = true

/-- The queue that `prepareAsyncCall` takes. -/
def Act.preparesOn : Act → Option Int
  | .prepare _ _ q => some q
  | _ => none

/-- `prepareAsyncCall` takes a queue whose poller has not left. -/
def preparesOnPolled : Rule Shared Thread Act CallKind where
  step s _ a := ∀ q ∈ a.preparesOn, ∃ t ∈ s.threads, t.isPolling q = true
  call _ := True

section Polling
variable {s : State} {t t' : Thread} {a : Act}

/-- A handler that is registered after a step was registered before it, or is new and bound to no queue. -/
theorem Step.get_of_get {s : Shared} {c : Nat} {key : EventKey} (hs : Step s t a t')
    (hget : (a.apply s).handlerManager.get key = some c) :
    s.handlerManager.get key = some c ∨ ((a.apply s).call c).queue = none := by
  cases a with
  | register kind key' manager =>
    obtain ⟨-, hnew, hother⟩ := EventHandlerManager.add_cases hs.add_of_register
    by_cases heq : key = key'
    · subst heq
      cases hget.symm.trans hnew
      right
      simp [Act.apply, Shared.modify]
    · exact Or.inl ((hother key heq).symm.trans hget)
  | remove key' =>
    by_cases heq : key = key'
    · subst heq
      cases hget.symm.trans EventHandlerManager.get_remove_self
    · exact Or.inl ((EventHandlerManager.get_remove_of_ne heq).symm.trans hget)
  | _ => exact Or.inl hget

/-- A poller leaves when no handler is registered. -/
theorem Step.isPolling {s : Shared} {q : Int} (hs : Step s t a t') (hk : t'.Knows (a.apply s))
    (hpolling : t.isPolling q = true) : t'.isPolling q = true ∨ s.handlerManager.count = 0 := by
  cases hs with
  | user hs => cases hpolling
  | @poller i p p' a hs =>
    have hq : (i : Int) = q := by
      cases p with
      | left | raised => cases hpolling
      | _ => exact of_decide_eq_true hpolling
    cases p' with
    | left =>
      cases hs with
      | leave hz => exact Or.inr hz
    | raised => exact hk.elim
    | _ => exact Or.inl (decide_eq_true hq)

theorem Step.preparesOn {s : Shared} {c : Nat} {kind : CallKind} {key : EventKey} {q : Int}
    (hs : Step s (.user (.prepare c kind key)) a t') (hq : ((a.apply s).call c).queue = some q) :
    a.preparesOn = some q := by
  cases hs with
  | user hs =>
    cases hs with
    | prepare =>
      simp only [Act.apply, Shared.modify, Function.update_self] at hq
      exact hq

theorem Inv.polled_run (h : Inv s) (hp : Polled s) {i : Nat} (hi : s.threads[i]? = some t)
    (hs : Step s.shared t a t') (hr : preparesOnPolled.step s t a) :
    Polled ⟨a.apply s.shared, s.threads.set i t'⟩ := by
  intro c hget q hq
  rcases hs.get_of_get hget with hbefore | hnone
  · obtain ⟨hc, hreg⟩ := h.listed _ _ hbefore
    obtain ⟨u, hu, hpolling⟩ : ∃ u ∈ s.threads, u.isPolling q = true := by
      rcases hs.unprepared hc with ⟨kind, key, rfl⟩ | ⟨-, hqueue⟩
      · exact hr q (hs.preparesOn hq)
      · exact hp c (hreg ▸ hbefore) q (hqueue.symm.trans hq)
    obtain ⟨j, hj⟩ := List.getElem?_of_mem hu
    by_cases heq : j = i
    · subst heq
      cases hi.symm.trans hj
      have hmem : t' ∈ s.threads.set j t' := List.mem_set (List.getElem?_eq_some_iff.mp hi).1 t'
      refine ⟨t', hmem, (hs.isPolling (h.knows_self hu hs) hpolling).resolve_right fun hzero => ?_⟩
      cases (EventHandlerManager.get_of_count_zero hzero).symm.trans hbefore
    · refine ⟨u, List.mem_of_getElem? (i := j) ?_, hpolling⟩
      rw [List.getElem?_set_ne (Ne.symm heq)]
      exact hj
  · cases hnone.symm.trans hq

end Polling

/-- As long as every call is prepared on a queue whose poller has not left, no queue with a registered call loses its
    poller, whatever the timeouts and the completions are. -/
theorem polled_of_prepares_on_polled (threadPoolSize : Nat) (s : State)
    (h : Reach (clientProactor threadPoolSize) preparesOnPolled (start threadPoolSize) s) : Polled s := by
  induction h with
  | start =>
    intro c hget
    cases hget
  | @run s i x t t' a hr _ hi hstep hrule ih =>
    have hinv := inv hr.any
    have hs := Thread.step_cases hinv.bounded (hinv.knows t (List.mem_of_getElem? hi)).fits hstep
    exact hinv.polled_run ih hi hs hrule
  | enter _ _ _ ih =>
    intro c hget q hq
    obtain ⟨u, hu, hpolling⟩ := ih c hget q hq
    exact ⟨u, List.mem_append_left _ hu, hpolling⟩

/-- A call that is prepared while its poller waits for events. -/
theorem polled_of_prepares_on_polled_waiting : ∃ s,
    Reach (clientProactor 1) preparesOnPolled (start 1) s ∧ (s.shared.call 0).queue = some 0 ∧
    s.shared.handlerManager.get (s.shared.call 0).registered = some 0 ∧ Polled s := by
  have hrun : ((clientProactor 1).exec
      (fun s _ a => decide (∀ q ∈ a.preparesOn, ∃ t ∈ s.threads, t.isPolling q = true)) (fun _ => true) (start 1)
      [.enter .unary, .run 0 .timeout, .run 1 .go, .run 0 .go, .run 1 .go, .run 0 .timeout, .run 0 .go]).any
      (fun s => (s.shared.call 0).queue = some 0 ∧
        s.shared.handlerManager.get (s.shared.call 0).registered = some 0) = true := by
    decide
  have hrule : ∀ (s : State) (t : Thread) (a : Act),
      decide (∀ q ∈ a.preparesOn, ∃ t ∈ s.threads, t.isPolling q = true) = true → preparesOnPolled.step s t a := by
    intro s t a h
    have hall := of_decide_eq_true h
    exact hall
  obtain ⟨s, hs, hp⟩ := Reach.exists_of_exec preparesOnPolled hrule (fun _ _ => trivial) hrun
  obtain ⟨hqueue, hget⟩ := of_decide_eq_true hp
  exact ⟨s, hs, hqueue, hget, polled_of_prepares_on_polled 1 s hs⟩

/-- A poller that times out before the first call leaves, and the call is prepared on its queue. -/
theorem not_polled_after_timeout : ¬∀ s, Reachable 1 s → Polled s := by
  intro h
  have hrun : ((clientProactor 1).exec (fun _ _ _ => true) (fun _ => true) (start 1)
      [.run 0 .timeout, .run 0 .go, .enter .unary, .run 1 .go, .run 1 .go, .run 1 .go]).any
      (fun s => (s.shared.call 0).queue = some 0 ∧ s.shared.inflight.length = 1 ∧
        s.shared.handlerManager.get (s.shared.call 0).registered = some 0 ∧
        s.threads.any (Thread.isPolling 0) = false) = true := by
    decide
  obtain ⟨s, hs, hp⟩ := Reach.exists_of_exec Rule.any (fun _ _ _ _ => trivial) (fun _ _ => trivial) hrun
  obtain ⟨hqueue, -, hget, hnone⟩ := of_decide_eq_true hp
  obtain ⟨t, ht, hpolling⟩ := h s hs 0 hget 0 hqueue
  exact List.any_eq_false.mp hnone t ht hpolling

end HelloWorld.Client
