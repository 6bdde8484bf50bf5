import CppProgramming.HelloWorld.ClientSteps

/-! # What a call has under way

The operations of a call form a chain, from `StartCall` through the reads to `Finish`, and a permit, which a write
needs from `acquire` until its completion. Both are places that something of the call occupies at a time: a user about
to post, an operation on the queue, a poller in `process`, the flag that is set at the end. A `Potential` weighs these
places so that no step adds to the sum. -/

namespace HelloWorld.Client
open Interleaving

/-- The operations that a call of a class posts. -/
def CallKind.has : CallKind → ClientEventOpt → Bool
  | .unary, opt => opt = .finish
  | .listen, opt => opt = .startCall ∨ opt = .read ∨ opt = .finish
  | .speak, opt => opt ≠ .read
  | .talk, _ => true

/-- What a user posts behind `acquire`. -/
def AcquiresFor (kind : CallKind) (posts : List ClientEventOpt) : Prop :=
  kind.writes = true ∧ (posts = startPosts kind ∨ posts = [.write] ∨ posts = [.writeDone])

theorem ClientEventOpt.ofCode_code (opt : ClientEventOpt) : ofCode opt.code = some opt := by cases opt <;> decide

/-- What `process` does with a completed operation of its call. -/
inductive Answer (event : Event) : CallKind → ClientEventOpt → List Instr → Prop
  | listenStarted : Answer event .listen .startCall [.post .read (event.setOpt ClientEventOpt.read.code)]
  | listenNotStarted : Answer event .listen .startCall [.setFinish]
  | speakStarted : Answer event .speak .startCall [.release]
  | talkStarted : Answer event .talk .startCall [.post .read (event.setOpt ClientEventOpt.read.code), .release]
  | talkNotStarted : Answer event .talk .startCall [.setFinish, .release]
  | read {kind : CallKind} : Answer event kind .read [.post .read event]
  | readEnd {kind : CallKind} : Answer event kind .read [.post .finish (event.setOpt ClientEventOpt.finish.code)]
  | written {kind : CallKind} : Answer event kind .write [.release]
  | writesDone {kind : CallKind} : Answer event kind .writeDone [.setClosed]
  | finished {kind : CallKind} : Answer event kind .finish [.setFinish]

theorem Call.process_cases {x : Call} {opt : ClientEventOpt} {ok : Bool} {event : Event} {todo : List Instr}
    (hhas : x.kind.has opt = true) (hopt : ClientEventOpt.ofCode event.opt = some opt)
    (hp : x.process ok event = some todo) : Answer event x.kind opt todo := by
  have hget : ClientEventOpt.ofCode event.getOpt = some opt := hopt
  unfold Call.process at hp
  split at hp
  · next hkind =>
    cases hp
    rw [hkind] at hhas ⊢
    cases of_decide_eq_true hhas
    exact .finished
  · next hkind =>
    split at hp
    · cases hp
    · cases hp
      rw [hkind] at hhas ⊢
      unfold listenProcess
      rw [hget]
      cases opt with
      | startCall =>
        cases ok with
        | true => exact .listenStarted
        | false => exact .listenNotStarted
      | read =>
        cases ok with
        | true => exact .read
        | false => exact .readEnd
      | finish => exact .finished
      | write | writeDone => cases hhas
  · next hkind =>
    split at hp
    · cases hp
    · cases hp
      rw [hkind] at hhas ⊢
      unfold speakProcess
      rw [hget]
      cases opt with
      | startCall => exact .speakStarted
      | write => exact .written
      | writeDone => exact .writesDone
      | finish => exact .finished
      | read => cases hhas
  · next hkind =>
    split at hp
    · cases hp
    · cases hp
      rw [hkind]
      unfold talkProcess
      rw [hget]
      cases opt with
      | startCall =>
        cases ok with
        | true => exact .talkStarted
        | false => exact .talkNotStarted
      | read =>
        cases ok with
        | true => exact .read
        | false => exact .readEnd
      | write => exact .written
      | writeDone => exact .writesDone
      | finish => exact .finished

/-! ### Potentials -/

/-- Weights of the places of a call; `waits` says that operations count before the permit for them is there. Each law
    belongs to a kind of step, which must not add to the sum. -/
structure Potential where
  pending : CallKind → ClientEventOpt → Nat
  op : CallKind → ClientEventOpt → Nat
  instr : Instr → Nat
  pc : Semaphore.Pc → Nat
  waits : Bool
  call : Call → Int
  register (kind : CallKind) (key : EventKey) :
    ((if waits then ((startPosts kind).map (pending kind)).sum else 0 : Nat) : Int) +
      call { kind, registered := key } ≤ 1
  prepare (x : Call) (key : EventKey) (queue : Int) : call { x with key := some key, queue := some queue } ≤ call x
  begins (kind : CallKind) : kind.writes = false →
    ((startPosts kind).map (pending kind)).sum ≤ if waits then ((startPosts kind).map (pending kind)).sum else 0
  acquireLoad : pc .acquireLoad = 0
  sem {x : Call} {p p' : Semaphore.Pc} {a : Semaphore.Act} : Semaphore.Step 1 x.canWrite p a p' →
    pc p' + call { x with canWrite := a.apply x.canWrite } ≤ pc p + call x
  acquired {kind : CallKind} {posts : List ClientEventOpt} : AcquiresFor kind posts →
    (posts.map (pending kind)).sum ≤
      (if waits then (posts.map (pending kind)).sum else 0) + pc .acquireReturns
  post (x : Call) (opt : ClientEventOpt) :
    op x.kind opt + call { x with posted := x.posted ++ [opt] } ≤ pending x.kind opt + call x
  writes (kind : CallKind) (opt : ClientEventOpt) : opt = .write ∨ opt = .writeDone →
    waits = true → pending kind opt = 0
  process {kind : CallKind} {opt : ClientEventOpt} {event : Event} {todo : List Instr} : Answer event kind opt todo →
    (todo.map instr).sum ≤ op kind opt
  answer (x : Call) (opt : ClientEventOpt) (event : Event) : opt = .read ∨ opt = .finish →
    op x.kind opt + call { x with posted := x.posted ++ [opt] } ≤ instr (.post opt event) + call x
  setFinish (x : Call) : call { x with finish := true } ≤ instr .setFinish + call x
  setClosed (x : Call) : call { x with closed := true } ≤ instr .setClosed + call x
  release : pc .releaseLoad ≤ instr .release
  spin : pc .releaseLoad ≤ pc (.releaseReturns false)

namespace Potential
variable (φ : Potential)

/-- The operations that a user is about to post. -/
def posts (kind : CallKind) (opts : List ClientEventOpt) : Nat := (opts.map (φ.pending kind)).sum

/-- The operations that a user posts when it has the permit. -/
def ahead (kind : CallKind) (opts : List ClientEventOpt) : Nat := if φ.waits then φ.posts kind opts else 0

/-- The rest of `process`. -/
def todo (is : List Instr) : Nat := (is.map φ.instr).sum

theorem posts_cons (kind : CallKind) (opt : ClientEventOpt) (opts : List ClientEventOpt) :
    φ.posts kind (opt :: opts) = φ.pending kind opt + φ.posts kind opts := by simp [posts]

/-- A write does not count before its permit is there. -/
theorem ahead_of_write (kind : CallKind) {opt : ClientEventOpt} (hopt : opt = .write ∨ opt = .writeDone) :
    φ.ahead kind [opt] = 0 := by
  unfold ahead
  split
  · next hw => simp [posts, φ.writes kind opt hopt hw]
  · rfl

theorem todo_cons (x : Instr) (is : List Instr) : φ.todo (x :: is) = φ.instr x + φ.todo is := by simp [todo]

end Potential

/-- The weight of an operation for the call `c`. -/
def Op.load (φ : Potential) (c : Nat) (o : Op) : Nat := if o.call = c then φ.op o.kind o.opt else 0

/-- The weight of a thread for the call `c`. -/
def Thread.load (φ : Potential) (c : Nat) : Thread → Nat
  | .user (.prepare c' kind _) => if c' = c then φ.ahead kind (startPosts kind) else 0
  | .user (.acquire c' kind p posts) => if c' = c then φ.ahead kind posts + φ.pc p else 0
  | .user (.post c' kind posts) => if c' = c then φ.posts kind posts else 0
  | .poller _ (.contains o _) | .poller _ (.get o _) | .poller _ (.process _ o _) => o.load φ c
  | .poller _ (.run c' _ todo) => if c' = c then φ.todo todo else 0
  | .poller _ (.release c' _ p todo) => if c' = c then φ.pc p + φ.todo todo else 0
  | _ => 0

/-- The operations of `c` on the queues, and what `c` itself holds; a call that does not exist yet holds all there is. -/
def Shared.held (φ : Potential) (c : Nat) (s : Shared) : Int :=
  ((s.inflight.map (Op.load φ c)).sum : Nat) + if c < s.created then φ.call (s.call c) else 1

/-- All that `c` has under way. -/
def total (φ : Potential) (c : Nat) (s : State) : Int := s.weight (Thread.load φ c) + s.shared.held φ c

/-! ### The three potentials -/

/-- The operation is a link of the chain that ends with `Finish`. -/
def CallKind.chains : CallKind → ClientEventOpt → Bool
  | _, .finish | _, .read | .listen, .startCall | .talk, .startCall => true
  | _, _ => false

/-- The operation has the permit of `canWrite`. -/
def CallKind.permits : CallKind → ClientEventOpt → Bool
  | _, .write | _, .writeDone | .speak, .startCall | .talk, .startCall => true
  | _, _ => false

/-- The instruction goes on with the chain, or ends it. -/
def Instr.chains : Instr → Bool
  | .post _ _ | .setFinish => true
  | _ => false

/-- The instruction gives the permit back, or ends the writing. -/
def Instr.permits : Instr → Bool
  | .release | .setClosed => true
  | _ => false

/-- The instruction posts a link of the chain. -/
def Instr.posts : Instr → Bool
  | .post _ _ => true
  | _ => false

/-- The chain: from the first operation until `finish` is set. -/
def chain : Potential where
  pending kind opt := (kind.chains opt).toNat
  op kind opt := (kind.chains opt).toNat
  instr i := i.chains.toNat
  pc _ := 0
  waits := true
  call x := x.finish.toNat
  register kind _ := by cases kind <;> simp [startPosts, CallKind.chains]
  prepare _ _ _ := le_refl _
  begins _ _ := le_refl _
  acquireLoad := rfl
  sem _ := le_refl _
  acquired _ := le_refl _
  post _ _ := le_refl _
  writes kind opt hopt _ := by rcases hopt with rfl | rfl <;> cases kind <;> rfl
  process h := by cases h <;> exact le_refl _
  answer x opt event hopt := by rcases hopt with rfl | rfl <;> cases x.kind <;> exact le_refl _
  setFinish x := by cases hx : x.finish <;> simp [Instr.chains]
  setClosed x := by simp
  release := le_refl _
  spin := le_refl _

/-- The permit of `canWrite`: there, in the hands of a user or a poller, with an operation, or gone with `closed`. -/
def permit : Potential where
  pending kind opt := (kind.permits opt).toNat
  op kind opt := (kind.permits opt).toNat
  instr i := i.permits.toNat
  pc p := p.permits
  waits := false
  call x := x.canWrite.remaining + x.closed.toNat
  register _ _ := le_refl _
  prepare _ _ _ := le_refl _
  begins kind hkind := by cases kind <;> first | exact le_refl _ | cases hkind
  acquireLoad := rfl
  sem {x p p' a} h := by
    have := h.permits
    simp only
    omega
  acquired {kind posts} h := by
    obtain ⟨hkind, rfl | rfl | rfl⟩ := h
    · cases kind <;> first | exact le_refl _ | cases hkind
    · simp [CallKind.permits, Semaphore.Pc.permits]
    · simp [CallKind.permits, Semaphore.Pc.permits]
  post _ _ := le_refl _
  writes _ _ _ h := by cases h
  process h := by cases h <;> exact le_refl _
  answer x opt event hopt := by rcases hopt with rfl | rfl <;> cases x.kind <;> exact le_refl _
  setFinish x := by simp
  setClosed x := by cases hx : x.closed <;> simp [Instr.permits]
  release := le_refl _
  spin := le_refl _

/-- The chain before `Finish`: until `Finish` is posted or given up. -/
def unfinished : Potential where
  pending kind opt := (kind.chains opt).toNat
  op kind opt := (kind.chains opt && decide (opt ≠ .finish)).toNat
  instr i := i.posts.toNat
  pc _ := 0
  waits := true
  call x := x.posted.count .finish
  register kind _ := by cases kind <;> simp [startPosts, CallKind.chains]
  prepare _ _ _ := le_refl _
  begins _ _ := le_refl _
  acquireLoad := rfl
  sem _ := le_refl _
  acquired _ := le_refl _
  post x opt := by
    cases opt with
    | finish => simp [CallKind.chains]
    | _ => cases x.kind <;> simp [CallKind.chains]
  writes kind opt hopt _ := by rcases hopt with rfl | rfl <;> cases kind <;> rfl
  process h := by cases h <;> first | exact le_refl _ | exact Nat.zero_le _
  answer x opt event hopt := by rcases hopt with rfl | rfl <;> simp [CallKind.chains, Instr.posts]
  setFinish x := by simp
  setClosed x := by simp
  release := le_refl _
  spin := le_refl _

/-! ### What the threads know -/

/-- The call `c` of the class `kind` has been prepared. -/
structure Prepared (s : Shared) (c : Nat) (kind : CallKind) : Prop where
  created : c < s.created
  kind : (s.call c).kind = kind
  key : (s.call c).key = some (s.call c).registered
  queue : (s.call c).queue.isSome = true

/-- The operation belongs to its call, and its token names both. -/
structure Op.Known (s : Shared) (o : Op) : Prop where
  prepared : Prepared s o.call o.kind
  queue : (s.call o.call).queue = some o.queue
  has : o.kind.has o.opt = true
  token : Event.ofToken o.token = ⟨(s.call o.call).registered, o.opt.code⟩

/-- The poller of the queue `i` has the handler `c`, which is registered under `key`. -/
structure Holds (s : Shared) (i c : Nat) (key : EventKey) : Prop where
  prepared : Prepared s c (s.call c).kind
  queue : (s.call c).queue = some (i : Int)
  registered : (s.call c).registered = key
  get : s.handlerManager.get key = some c

/-- Nothing of the call is under way any more. -/
def Call.Done (x : Call) : Prop := x.finish = true ∧ (x.kind.writes = true → x.closed = true)

/-- An instruction that `process` of a call of the class `kind` may have left. -/
def Instr.Known (kind : CallKind) (key : EventKey) : Instr → Prop
  | .post opt event => (opt = .read ∨ opt = .finish) ∧ kind.has opt = true ∧ event = ⟨key, opt.code⟩
  | .unexpected => False
  | _ => True

/-- What a thread relies on. No thread gets to `notExist` or `raised`, and no `release` of a poller returns false. -/
def Thread.Knows (s : Shared) : Thread → Prop
  | .user (.add _) | .user .finished | .user .failed => True
  | .user (.prepare c kind key) => c < s.created ∧ (s.call c).kind = kind ∧ (s.call c).registered = key ∧
      (s.call c).key = none ∧ (s.call c).queue = none
  | .user (.acquire c kind p posts) => Prepared s c kind ∧ AcquiresFor kind posts ∧ p.Fits 1
  | .user (.post c kind posts) => Prepared s c kind ∧ ∀ opt ∈ posts, kind.has opt = true
  | .user (.idle c kind) => Prepared s c kind ∧ kind.writes = true
  | .poller _ .next | .poller _ .timeout | .poller _ .left => True
  | .poller i (.contains o _) | .poller i (.get o _) => o.Known s ∧ o.queue = i
  | .poller i (.process c o _) => o.Known s ∧ o.call = c ∧ Holds s i c (s.call c).registered
  | .poller i (.run c key todo) => Holds s i c key ∧ (∀ x ∈ todo, x.Known (s.call c).kind key) ∧
      ((s.call c).kind = .unary → (s.call c).finish = true ∨ .setFinish ∈ todo)
  | .poller i (.release c key p todo) => Holds s i c key ∧ (∀ x ∈ todo, x.Known (s.call c).kind key) ∧
      ((s.call c).kind = .unary → (s.call c).finish = true ∨ .setFinish ∈ todo) ∧ p.Fits 1 ∧ p ≠ .releaseReturns false
  | .poller i (.remove c key) => Holds s i c key ∧ (s.call c).Done
  | .poller _ .notExist | .poller _ .raised => False

theorem Thread.Knows.fits {s : Shared} {t : Thread} (h : t.Knows s) : t.Fits := by
  cases t with
  | user p =>
    cases p with
    | acquire c kind p posts => exact h.2.2
    | _ => exact trivial
  | poller i p =>
    cases p with
    | release c key p todo => exact h.2.2.2.1
    | _ => exact trivial

/-! ### No step adds to a potential -/

section Load
variable {φ : Potential} {c i : Nat} {s : Shared} {a : Act}

theorem held_modify (c' : Nat) (f : Call → Call) (hc : c' < s.created) :
    (s.modify c' f).held φ c = s.held φ c + if c' = c then φ.call (f (s.call c)) - φ.call (s.call c) else 0 := by
  unfold Shared.held Shared.modify
  by_cases heq : c' = c
  · subst heq
    simp [hc]
  · simp [heq, Function.update_of_ne (Ne.symm heq)]

theorem held_post {o : Op} (ho : o.call < s.created) :
    ((Act.post o).apply s).held φ c = s.held φ c + (o.load φ c : Int) +
      if o.call = c then φ.call { s.call c with posted := (s.call c).posted ++ [o.opt] } - φ.call (s.call c) else 0 := by
  have := held_modify (φ := φ) (c := c) o.call (fun x => { x with posted := x.posted ++ [o.opt] }) ho
  simp only [Shared.held, Act.apply, Shared.modify, List.map_append, List.map_singleton, List.sum_append,
    List.sum_singleton, Nat.cast_add] at this ⊢
  omega

theorem held_complete {j : Nat} {o : Op} (hj : s.inflight[j]? = some o) :
    ((Act.complete j).apply s).held φ c + (o.load φ c : Int) = s.held φ c := by
  have hperm : s.inflight.Perm (o :: s.inflight.eraseIdx j) := by
    obtain ⟨hlt, rfl⟩ := List.getElem?_eq_some_iff.mp hj
    exact (List.getElem_cons_eraseIdx_perm hlt).symm
  have hsum := (hperm.map (Op.load φ c)).sum_eq
  simp only [Shared.held, Act.apply, hsum, List.map_cons, List.sum_cons, Nat.cast_add]
  omega

theorem held_register {kind : CallKind} {key : EventKey} {manager : EventHandlerManager Nat} :
    ((Act.register kind key manager).apply s).held φ c =
      s.held φ c + if s.created = c then φ.call { kind, registered := key } - 1 else 0 := by
  simp only [Shared.held, Act.apply, Shared.modify]
  by_cases heq : s.created = c
  · subst heq
    simp
  · have hiff : c < s.created + 1 ↔ c < s.created := by omega
    simp [heq, Function.update_of_ne (Ne.symm heq), hiff]

theorem load_afterPost (kind : CallKind) (opt : ClientEventOpt) (posts : List ClientEventOpt) (c' : Nat) :
    (Thread.user (.afterPost c' kind opt posts)).load φ c = if c' = c then φ.posts kind posts else 0 := by
  cases posts with
  | nil =>
    show (Thread.user (if _ then _ else _)).load φ c = _
    split <;> simp [Thread.load, Potential.posts]
  | cons opt' posts => rfl

theorem load_afterAcquire {kind : CallKind} {posts : List ClientEventOpt} (p : Semaphore.Pc) (c' : Nat)
    (hp : AcquiresFor kind posts) : (Thread.user (.afterAcquire c' kind posts p)).load φ c ≤
      if c' = c then φ.ahead kind posts + φ.pc p else 0 := by
  unfold UserPc.afterAcquire
  split
  · simp only [Thread.load]
    split
    · exact φ.acquired hp
    · exact le_refl _
  · exact le_refl _

theorem UserStep.load_le {p p' : UserPc} (h : UserStep s p a p') (hk : (Thread.user p).Knows s) :
    ((Thread.user p').load φ c : Int) + (a.apply s).held φ c ≤ (Thread.user p).load φ c + s.held φ c := by
  cases h with
  | @add kind key manager hadd =>
    have hreg : (φ.ahead kind (startPosts kind) : Int) + φ.call { kind, registered := key } ≤ 1 := φ.register kind key
    rw [held_register]
    simp only [Thread.load]
    split <;> omega
  | addFull => exact le_refl _
  | @prepare c' kind key queue =>
    have hheld : ((Act.prepare c' key queue).apply s).held φ c = _ :=
      held_modify c' (fun x => { x with key := some key, queue := some queue }) hk.1
    have hcall := φ.prepare (s.call c) key queue
    rw [hheld]
    unfold UserPc.afterPrepare
    split
    · simp only [Thread.load, φ.acquireLoad]
      split <;> omega
    · next hw =>
      have hbegins : φ.posts kind (startPosts kind) ≤ φ.ahead kind (startPosts kind) :=
        φ.begins kind (Bool.eq_false_of_not_eq_true hw)
      simp only [Thread.load]
      split <;> omega
  | @acquire c' kind sp sp' sa posts hs =>
    have hheld : ((Act.sem c' sa).apply s).held φ c = _ := held_modify c' _ hk.1.created
    have hafter := load_afterAcquire (φ := φ) (c := c) sp' c' hk.2.1
    rw [hheld]
    by_cases heq : c' = c
    · subst heq
      have hsem := φ.sem hs
      simp only [Thread.load, if_true] at hafter ⊢
      omega
    · simp only [Thread.load, heq, if_false] at hafter ⊢
      omega
  | @post c' kind opt posts =>
    have hkind := hk.1.kind
    rw [held_post hk.1.created, load_afterPost]
    have hpost := φ.post (s.call c) opt
    simp only [Thread.load, φ.posts_cons, Op.load, Shared.op]
    by_cases heq : c' = c
    · subst heq
      rw [hkind] at hpost
      simp only [if_true, hkind]
      omega
    · simp only [heq, if_false]
      omega
  | @write c' kind => simp [Thread.load, Act.apply, φ.ahead_of_write kind (Or.inl rfl), φ.acquireLoad]
  | @close c' kind => simp [Thread.load, Act.apply, φ.ahead_of_write kind (Or.inr rfl), φ.acquireLoad]

theorem PollerStep.load_le {p p' : PollerPc} (h : PollerStep i s p a p') (hk : (Thread.poller i p).Knows s) :
    ((Thread.poller i p').load φ c : Int) + (a.apply s).held φ c ≤ (Thread.poller i p).load φ c + s.held φ c := by
  cases h with
  | completed hj _ =>
    have := held_complete (φ := φ) (c := c) hj
    simp only [Thread.load]
    omega
  | notExist | getRaises | processRaises => simp [Thread.load, Act.apply]
  | @process c' o ok todo hp =>
    obtain ⟨hknown, rfl, -⟩ := hk
    have hanswer := Call.process_cases (x := s.call o.call) (by rw [hknown.prepared.kind]; exact hknown.has)
      (by rw [hknown.token]; exact ClientEventOpt.ofCode_code _) hp
    have hle : φ.todo todo ≤ φ.op o.kind o.opt := hknown.prepared.kind ▸ φ.process hanswer
    simp only [Thread.load, Op.load, Act.apply]
    split <;> omega
  | @post c' key opt event todo =>
    have hopt := hk.2.1 _ (List.mem_cons_self ..)
    have hanswer := φ.answer (s.call c) opt event hopt.1
    rw [held_post hk.1.prepared.created]
    simp only [Thread.load, φ.todo_cons, Op.load, Shared.op]
    by_cases heq : c' = c
    · subst heq
      simp only [if_true]
      omega
    · simp only [heq, if_false]
      omega
  | @setFinish c' key todo =>
    have hheld : ((Act.setFinish c').apply s).held φ c = _ := held_modify c' _ hk.1.prepared.created
    have hset := φ.setFinish (s.call c)
    rw [hheld]
    simp only [Thread.load, φ.todo_cons]
    split <;> omega
  | @setClosed c' key todo =>
    have hheld : ((Act.setClosed c').apply s).held φ c = _ := held_modify c' _ hk.1.prepared.created
    have hset := φ.setClosed (s.call c)
    rw [hheld]
    simp only [Thread.load, φ.todo_cons]
    split <;> omega
  | @release c' key todo =>
    have hrelease := φ.release
    simp only [Thread.load, φ.todo_cons, Act.apply]
    split <;> omega
  | @unexpected c' key todo =>
    simp only [Thread.load, φ.todo_cons, Act.apply]
    split <;> omega
  | @releasing c' key sp sp' sa todo hs =>
    have hheld : ((Act.sem c' sa).apply s).held φ c = _ := held_modify c' _ hk.1.prepared.created
    rw [hheld]
    by_cases heq : c' = c
    · subst heq
      have hsem := φ.sem hs
      simp only [Thread.load, if_true]
      omega
    · simp only [Thread.load, heq, if_false]
      omega
  | @released c' key todo =>
    simp only [Thread.load, Act.apply]
    split <;> omega
  | @spin c' key todo =>
    have hspin := φ.spin
    simp only [Thread.load, Act.apply]
    split <;> omega
  | remove => exact le_refl _
  | complete | incomplete =>
    simp only [Thread.load, Act.apply]
    split <;> omega
  | _ => simp [Thread.load, Act.apply]

theorem Step.load_le {t t' : Thread} (h : Step s t a t') (hk : t.Knows s) :
    (t'.load φ c : Int) + (a.apply s).held φ c ≤ t.load φ c + s.held φ c := by
  cases h with
  | user h => exact h.load_le hk
  | poller h => exact h.load_le hk

end Load

theorem total_le {φ : Potential} {c : Nat} {s : State} {i : Nat} {t t' : Thread} {a : Act} (hi : s.threads[i]? = some t)
    (h : Step s.shared t a t') (hk : t.Knows s.shared) :
    total φ c ⟨a.apply s.shared, s.threads.set i t'⟩ ≤ total φ c s := by
  have hload := h.load_le (φ := φ) (c := c) hk
  have hw := Config.weight_run (Thread.load φ c) (a.apply s.shared) t' hi
  unfold total
  simp only
  omega

end HelloWorld.Client
