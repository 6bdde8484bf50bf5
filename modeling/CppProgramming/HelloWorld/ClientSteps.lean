import CppProgramming.HelloWorld.ClientProactor

/-! # Steps of the client

What a thread of the client may do, with what it found. -/

namespace HelloWorld.Client
open Interleaving

/-- Where a user goes on behind `prepareAsyncCall`. -/
def UserPc.afterPrepare (c : Nat) (kind : CallKind) : UserPc :=
  if kind.writes then .acquire c kind .acquireLoad (startPosts kind) else .post c kind (startPosts kind)

/-- The token of an operation that a user posts for `c`. -/
def Shared.userEvent (s : Shared) (c : Nat) (opt : ClientEventOpt) : Event :=
  (Event.ofKey ((s.call c).key.getD 0)).setOpt opt.code

/-- What a user may do. -/
inductive UserStep (s : Shared) : UserPc → Act → UserPc → Prop
  | add {kind : CallKind} {key : EventKey} {manager : EventHandlerManager Nat} :
      s.handlerManager.add s.created = some (key, manager) →
      UserStep s (.add kind) (.register kind key manager) (.prepare s.created kind key)
  | addFull {kind : CallKind} : UserStep s (.add kind) .look .failed
  | prepare {c : Nat} {kind : CallKind} {key : EventKey} {queue : Int} :
      UserStep s (.prepare c kind key) (.prepare c key queue) (.afterPrepare c kind)
  | acquire {c : Nat} {kind : CallKind} {p p' : Semaphore.Pc} {a : Semaphore.Act} {posts : List ClientEventOpt} :
      Semaphore.Step 1 (s.call c).canWrite p a p' →
      UserStep s (.acquire c kind p posts) (.sem c a) (.afterAcquire c kind posts p')
  | post {c : Nat} {kind : CallKind} {opt : ClientEventOpt} {posts : List ClientEventOpt} :
      UserStep s (.post c kind (opt :: posts)) (.post (s.op c opt (s.userEvent c opt))) (.afterPost c kind opt posts)
  | write {c : Nat} {kind : CallKind} : UserStep s (.idle c kind) .look (.acquire c kind .acquireLoad [.write])
  | close {c : Nat} {kind : CallKind} : UserStep s (.idle c kind) .look (.acquire c kind .acquireLoad [.writeDone])

/-- What the poller of the queue `i` may do. -/
inductive PollerStep (i : Nat) (s : Shared) : PollerPc → Act → PollerPc → Prop
  | completed {j : Nat} {o : Op} {ok : Bool} : s.inflight[j]? = some o → o.queue = i →
      PollerStep i s .next (.complete j) (.contains o ok)
  | timeout : PollerStep i s .next .look .timeout
  | leave : s.handlerManager.count = 0 → PollerStep i s .timeout .look .left
  | again : PollerStep i s .timeout .look .next
  | contains {o : Op} {ok : Bool} : s.handlerManager.contains (Event.ofToken o.token).getKey = true →
      PollerStep i s (.contains o ok) .look (.get o ok)
  | notExist {o : Op} {ok : Bool} : s.handlerManager.contains (Event.ofToken o.token).getKey = false →
      PollerStep i s (.contains o ok) .look .notExist
  | warned : PollerStep i s .notExist .look .next
  | get {o : Op} {ok : Bool} {c : Nat} : s.handlerManager.get (Event.ofToken o.token).getKey = some c →
      PollerStep i s (.get o ok) .look (.process c o ok)
  | getRaises {o : Op} {ok : Bool} : s.handlerManager.get (Event.ofToken o.token).getKey = none →
      PollerStep i s (.get o ok) .look .raised
  | process {c : Nat} {o : Op} {ok : Bool} {todo : List Instr} :
      (s.call c).process ok (Event.ofToken o.token) = some todo →
      PollerStep i s (.process c o ok) .look (.run c (Event.ofToken o.token).getKey todo)
  | processRaises {c : Nat} {o : Op} {ok : Bool} : (s.call c).process ok (Event.ofToken o.token) = none →
      PollerStep i s (.process c o ok) .look .raised
  | post {c : Nat} {key : EventKey} {opt : ClientEventOpt} {event : Event} {todo : List Instr} :
      PollerStep i s (.run c key (.post opt event :: todo)) (.post (s.op c opt event)) (.run c key todo)
  | setFinish {c : Nat} {key : EventKey} {todo : List Instr} :
      PollerStep i s (.run c key (.setFinish :: todo)) (.setFinish c) (.run c key todo)
  | setClosed {c : Nat} {key : EventKey} {todo : List Instr} :
      PollerStep i s (.run c key (.setClosed :: todo)) (.setClosed c) (.run c key todo)
  | release {c : Nat} {key : EventKey} {todo : List Instr} :
      PollerStep i s (.run c key (.release :: todo)) .look (.release c key .releaseLoad todo)
  | unexpected {c : Nat} {key : EventKey} {todo : List Instr} :
      PollerStep i s (.run c key (.unexpected :: todo)) .look (.run c key todo)
  | releasing {c : Nat} {key : EventKey} {p p' : Semaphore.Pc} {a : Semaphore.Act} {todo : List Instr} :
      Semaphore.Step 1 (s.call c).canWrite p a p' →
      PollerStep i s (.release c key p todo) (.sem c a) (.release c key p' todo)
  | released {c : Nat} {key : EventKey} {todo : List Instr} :
      PollerStep i s (.release c key (.releaseReturns true) todo) .look (.run c key todo)
  | spin {c : Nat} {key : EventKey} {todo : List Instr} :
      PollerStep i s (.release c key (.releaseReturns false) todo) .look (.release c key .releaseLoad todo)
  | complete {c : Nat} {key : EventKey} : (s.call c).isComplete = true →
      PollerStep i s (.run c key []) .look (.remove c key)
  | incomplete {c : Nat} {key : EventKey} : (s.call c).isComplete = false → PollerStep i s (.run c key []) .look .next
  | remove {c : Nat} {key : EventKey} : PollerStep i s (.remove c key) (.remove key) .next

/-- What a thread may do. -/
inductive Step (s : Shared) : Thread → Act → Thread → Prop
  | user {p p' : UserPc} {a : Act} : UserStep s p a p' → Step s (.user p) a (.user p')
  | poller {i : Nat} {p p' : PollerPc} {a : Act} : PollerStep i s p a p' → Step s (.poller i p) a (.poller i p')

/-- The `expected` of a `compare_exchange_weak` on `canWrite` has passed the condition of its loop. -/
def Thread.Fits : Thread → Prop
  | .user (.acquire _ _ p _) | .poller _ (.release _ _ p _) => p.Fits 1
  | _ => True

section Inversion
variable {n i : Nat} {s : Shared} {x : Choice} {a : Act}

theorem UserPc.step_cases {p p' : UserPc} (hb : ∀ c, (s.call c).canWrite.Bounded 1) (hf : (Thread.user p).Fits)
    (h : p.step n s x = some (a, p')) : UserStep s p a p' := by
  unfold UserPc.step at h
  split at h
  · split at h
    · cases h
      exact .addFull
    · next hadd =>
      cases h
      exact .add hadd
  · cases h
    exact .prepare
  · obtain ⟨⟨a, p'⟩, hp, heq⟩ := Option.map_eq_some_iff.mp h
    cases heq
    exact .acquire (Semaphore.Pc.step_cases (hb _) hf hp)
  · cases h
    exact .post
  · cases h
    exact .write
  · cases h
    exact .close
  · cases h

theorem PollerPc.step_cases {p p' : PollerPc} (hb : ∀ c, (s.call c).canWrite.Bounded 1) (hf : (Thread.poller i p).Fits)
    (h : p.step i s x = some (a, p')) : PollerStep i s p a p' := by
  unfold PollerPc.step at h
  split at h
  · split at h
    · next hj =>
      split at h
      · next hq =>
        cases h
        exact .completed hj hq
      · cases h
    · cases h
  · cases h
    exact .timeout
  · split at h
    · next hz =>
      cases h
      exact .leave hz
    · cases h
      exact .again
  · split at h
    · next hc =>
      cases h
      exact .contains hc
    · next hc =>
      cases h
      exact .notExist (Bool.eq_false_of_not_eq_true hc)
  · cases h
    exact .warned
  · split at h
    · next hc =>
      cases h
      exact .get hc
    · next hc =>
      cases h
      exact .getRaises hc
  · split at h
    · next hp =>
      cases h
      exact .process hp
    · next hp =>
      cases h
      exact .processRaises hp
  · cases h
    exact .post
  · cases h
    exact .setFinish
  · cases h
    exact .setClosed
  · cases h
    exact .release
  · cases h
    exact .unexpected
  · split at h
    · next hc =>
      cases h
      exact .complete hc
    · next hc =>
      cases h
      exact .incomplete (Bool.eq_false_of_not_eq_true hc)
  · cases h
    exact .released
  · cases h
    exact .spin
  · obtain ⟨⟨a, p'⟩, hp, heq⟩ := Option.map_eq_some_iff.mp h
    cases heq
    exact .releasing (Semaphore.Pc.step_cases (hb _) hf hp)
  · cases h
    exact .remove
  · cases h

theorem Thread.step_cases {t t' : Thread} (hb : ∀ c, (s.call c).canWrite.Bounded 1) (hf : t.Fits)
    (h : t.step n s x = some (a, t')) : Step s t a t' := by
  cases t with
  | user p =>
    obtain ⟨⟨a, p'⟩, hp, heq⟩ := Option.map_eq_some_iff.mp h
    cases heq
    exact .user (UserPc.step_cases hb hf hp)
  | poller i p =>
    obtain ⟨⟨a, p'⟩, hp, heq⟩ := Option.map_eq_some_iff.mp h
    cases heq
    exact .poller (PollerPc.step_cases hb hf hp)

end Inversion

/-! ### Where an action comes from -/

section Origin
variable {s : Shared} {t t' : Thread} {key : EventKey}

theorem Step.add_of_register {kind : CallKind} {manager : EventHandlerManager Nat}
    (h : Step s t (.register kind key manager) t') : s.handlerManager.add s.created = some (key, manager) := by
  cases h with
  | user h =>
    cases h with
    | add hadd => exact hadd
  | poller h => cases h

theorem Step.of_prepare {c : Nat} {queue : Int} (h : Step s t (.prepare c key queue) t') :
    ∃ kind, t = .user (.prepare c kind key) := by
  cases h with
  | user h =>
    cases h with
    | prepare => exact ⟨_, rfl⟩
  | poller h => cases h

theorem Step.of_remove (h : Step s t (.remove key) t') : ∃ i c, t = .poller i (.remove c key) := by
  cases h with
  | user h => cases h
  | poller h =>
    cases h with
    | remove => exact ⟨_, _, rfl⟩

end Origin

end HelloWorld.Client
