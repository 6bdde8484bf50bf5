import CppProgramming.Lib.Simulation
import CppProgramming.SimpleHttp.Connection
import CppProgramming.SimpleHttp.EventNotifier

/-! # The worker pool

`ProcessRead` and `ProcessWrite` workers, those who queue connections for them, and `ConnectionManager::Close`, with
every operation of the two `EventNotifier`s. What a worker does with a connection is left open: it may queue
connections for either side, as `AddToWriteCache` does, and in the end the connection is queued again or not. -/

namespace SimpleHttp.Pool
open Interleaving

/-- The queues, the notifiers `readInQueueHappened` and `writeInQueueHappened`, and `closed`. -/
structure Shared where
  queue : Side → List ConnId := fun _ => []
  inQueueHappened : Side → EventNotifier := fun _ => {}
  closed : Bool := false

/-- What a step does to the shared state. -/
inductive Act where
  | look
  | inQueue (d : Side) (c : ConnId)
  | deQueue (d : Side)
  | notifier (d : Side) (a : EventNotifier.Act)
  -- `Close` sets `closed`.
  | shut
  deriving DecidableEq

/-- The shared state after the action. -/
def Act.apply : Act → Shared → Shared
  | .look, s => s
  | .inQueue d c, s => { s with queue := Function.update s.queue d (s.queue d ++ [c]) }
  | .deQueue d, s => { s with queue := Function.update s.queue d (s.queue d).tail }
  | .notifier d a, s =>
    { s with inQueueHappened := Function.update s.inQueueHappened d (a.apply (s.inQueueHappened d)) }
  | .shut, s => { s with closed := true }

/-- `CheckToInQueueRead` or `CheckToInQueueWrite`, where the connection is to be queued. -/
inductive ProducePc where
  | inQueue
  | set (p : EventNotifier.SetPc)
  deriving DecidableEq

/-- `ProcessRead` or `ProcessWrite`. -/
inductive WorkerPc where
  | running
  | wait (p : EventNotifier.WaitPc)
  | loop
  | deQueue
  -- `Read` or `Write` of the connection and what follows, up to the result of `NeedReInQueueRead` or its like.
  | body (c : ConnId)
  -- The worker queues the connection `e` for `d` before it goes on with `c`.
  | produce (c : ConnId) (d : Side) (e : ConnId) (p : ProducePc)
  | reInQueue (c : ConnId)
  | leave (p : EventNotifier.SetPc)
  | returned
  deriving DecidableEq

/-- `ConnectionManager::Close`. -/
inductive ClosePc where
  | test
  | set
  | notify (d : Side) (p : EventNotifier.SetPc)
  | returned
  deriving DecidableEq

/-- A thread of the pool, or one that uses it. -/
inductive Thread where
  | worker (d : Side) (p : WorkerPc)
  -- A thread that queues a connection; `none` when it has done so.
  | producer (d : Side) (c : ConnId) (p : Option ProducePc)
  | closer (p : ClosePc)
  deriving DecidableEq

/-- What a step gets from outside: nothing, that a connection has to be queued again, a connection that a worker
    queues, or what an operation of a notifier gets. -/
inductive Choice where
  | go
  | again
  | produce (d : Side) (e : ConnId)
  | notifier (x : EventNotifier.Choice)
  deriving DecidableEq

/-- An operation of `Set` on the notifier of `d`. -/
def setStep (s : Shared) (d : Side) (p : EventNotifier.SetPc) (x : Choice) (next : Option EventNotifier.SetPc → Thread) :
    Option (Act × Thread) :=
  match x with
  | .notifier x => (p.step (s.inQueueHappened d) x).map fun r => (.notifier d r.1, next r.2)
  | _ => none

/-- An operation of `Wait` on the notifier of `d`. -/
def waitStep (s : Shared) (d : Side) (p : EventNotifier.WaitPc) (x : Choice)
    (next : Option EventNotifier.WaitPc → Thread) : Option (Act × Thread) :=
  match x with
  | .notifier x => (p.step (s.inQueueHappened d) x).map fun r => (.notifier d r.1, next r.2)
  | _ => none

/-- `queue->InQueue(connection); inQueueHappened.Set();` -/
def checkToInQueue (s : Shared) (d : Side) (c : ConnId) (p : ProducePc) (x : Choice)
    (next : Option ProducePc → Thread) : Option (Act × Thread) :=
  match p with
  | .inQueue => if x = .go then some (.inQueue d c, next (some (.set .lock))) else none
  | .set p => setStep s d p x fun p' => next (p'.map .set)

/-- `ProcessRead` or `ProcessWrite`. -/
def process (s : Shared) (d : Side) (p : WorkerPc) (x : Choice) : Option (Act × Thread) :=
  match p, x with
  | .running, .go => some (.look, .worker d (if s.closed then .leave .lock else .wait .lock))
  | .wait p, x => waitStep s d p x fun p' => .worker d (p'.elim .loop .wait)
  | .loop, .go => some (.look, .worker d (if s.closed then .running else .deQueue))
  | .deQueue, .go =>
    match s.queue d with
    | [] => some (.look, .worker d .running)
    | c :: _ => some (.deQueue d, .worker d (.body c))
  | .body _, .go => some (.look, .worker d .loop)
  | .body c, .again => some (.look, .worker d (.reInQueue c))
  | .body c, .produce e e' => some (.look, .worker d (.produce c e e' .inQueue))
  | .produce c e e' p, x => checkToInQueue s e e' p x fun p' => .worker d (p'.elim (.body c) (.produce c e e'))
  | .reInQueue c, .go => some (.inQueue d c, .worker d .loop)
  | .leave p, x => setStep s d p x fun p' => .worker d (p'.elim .returned .leave)
  | _, _ => none

/-- `ConnectionManager::Close`. -/
def close (s : Shared) (p : ClosePc) (x : Choice) : Option (Act × Thread) :=
  match p, x with
  | .test, .go => some (.look, .closer (if s.closed then .returned else .set))
  | .set, .go => some (.shut, .closer (.notify .write .lock))
  | .notify .write p, x => setStep s .write p x fun p' => .closer (p'.elim (.notify .read .lock) (.notify .write))
  | .notify .read p, x => setStep s .read p x fun p' => .closer (p'.elim .returned (.notify .read))
  | _, _ => none

/-- A step of a thread. -/
def Thread.step (s : Shared) (t : Thread) (x : Choice) : Option (Act × Thread) :=
  match t with
  | .worker d p => process s d p x
  | .producer d c (some p) => checkToInQueue s d c p x (.producer d c)
  | .producer _ _ none => none
  | .closer p => close s p x

/-- The workers, with any number of threads that queue a connection. -/
def pool : Machine Shared Thread Choice Act (Side × ConnId) where
  step := Thread.step
  apply := Act.apply
  enter k := some (.producer k.1 k.2 (some .inQueue))
  halted _ := false

/-- The queues and the threads. -/
abbrev State := Config Shared Thread

/-- The workers before their first step, and `closes` calls of `Close` to come. -/
def start (workers : Side → Nat) (closes : Nat) : State where
  shared := {}
  threads := List.replicate (workers .read) (.worker .read .running) ++
    List.replicate (workers .write) (.worker .write .running) ++ List.replicate closes (.closer .test)

/-- The states of the runs with these workers and calls of `Close`. -/
def Reachable (workers : Side → Nat) (closes : Nat) (s : State) : Prop :=
  Reach pool Rule.any (start workers closes) s

/-! ### Steps -/

/-- What a thread may do, with what it found. -/
inductive Step (s : Shared) : Thread → Act → Thread → Prop
  | stop {d : Side} : s.closed = true → Step s (.worker d .running) .look (.worker d (.leave .lock))
  | goOn {d : Side} : s.closed = false → Step s (.worker d .running) .look (.worker d (.wait .lock))
  | wait {d : Side} {p : EventNotifier.WaitPc} {a : EventNotifier.Act} {p' : Option EventNotifier.WaitPc} :
      EventNotifier.Step (s.inQueueHappened d) (.wait p) a (.ofWait p') →
      Step s (.worker d (.wait p)) (.notifier d a) (.worker d (p'.elim .loop .wait))
  | quit {d : Side} : s.closed = true → Step s (.worker d .loop) .look (.worker d .running)
  | next {d : Side} : s.closed = false → Step s (.worker d .loop) .look (.worker d .deQueue)
  | empty {d : Side} : s.queue d = [] → Step s (.worker d .deQueue) .look (.worker d .running)
  | deQueue {d : Side} {c : ConnId} {rest : List ConnId} : s.queue d = c :: rest →
      Step s (.worker d .deQueue) (.deQueue d) (.worker d (.body c))
  | done {d : Side} {c : ConnId} : Step s (.worker d (.body c)) .look (.worker d .loop)
  | again {d : Side} {c : ConnId} : Step s (.worker d (.body c)) .look (.worker d (.reInQueue c))
  | produce {d e : Side} {c e' : ConnId} :
      Step s (.worker d (.body c)) .look (.worker d (.produce c e e' .inQueue))
  | produceInQueue {d e : Side} {c e' : ConnId} :
      Step s (.worker d (.produce c e e' .inQueue)) (.inQueue e e') (.worker d (.produce c e e' (.set .lock)))
  | produceSet {d e : Side} {c e' : ConnId} {p : EventNotifier.SetPc} {a : EventNotifier.Act}
      {p' : Option EventNotifier.SetPc} : EventNotifier.Step (s.inQueueHappened e) (.set p) a (.ofSet p') →
      Step s (.worker d (.produce c e e' (.set p))) (.notifier e a)
        (.worker d ((p'.map ProducePc.set).elim (.body c) (.produce c e e')))
  | reInQueue {d : Side} {c : ConnId} : Step s (.worker d (.reInQueue c)) (.inQueue d c) (.worker d .loop)
  | leave {d : Side} {p : EventNotifier.SetPc} {a : EventNotifier.Act} {p' : Option EventNotifier.SetPc} :
      EventNotifier.Step (s.inQueueHappened d) (.set p) a (.ofSet p') →
      Step s (.worker d (.leave p)) (.notifier d a) (.worker d (p'.elim .returned .leave))
  | inQueue {d : Side} {c : ConnId} :
      Step s (.producer d c (some .inQueue)) (.inQueue d c) (.producer d c (some (.set .lock)))
  | set {d : Side} {c : ConnId} {p : EventNotifier.SetPc} {a : EventNotifier.Act} {p' : Option EventNotifier.SetPc} :
      EventNotifier.Step (s.inQueueHappened d) (.set p) a (.ofSet p') →
      Step s (.producer d c (some (.set p))) (.notifier d a) (.producer d c (p'.map .set))
  | closedBefore : s.closed = true → Step s (.closer .test) .look (.closer .returned)
  | close : s.closed = false → Step s (.closer .test) .look (.closer .set)
  | shut : Step s (.closer .set) .shut (.closer (.notify .write .lock))
  | notifyWrite {p : EventNotifier.SetPc} {a : EventNotifier.Act} {p' : Option EventNotifier.SetPc} :
      EventNotifier.Step (s.inQueueHappened .write) (.set p) a (.ofSet p') →
      Step s (.closer (.notify .write p)) (.notifier .write a)
        (.closer (p'.elim (.notify .read .lock) (.notify .write)))
  | notifyRead {p : EventNotifier.SetPc} {a : EventNotifier.Act} {p' : Option EventNotifier.SetPc} :
      EventNotifier.Step (s.inQueueHappened .read) (.set p) a (.ofSet p') →
      Step s (.closer (.notify .read p)) (.notifier .read a) (.closer (p'.elim .returned (.notify .read)))

section Inversion
variable {s : Shared} {t t' : Thread} {x : Choice} {a : Act}

theorem setStep_cases {d : Side} {p : EventNotifier.SetPc} {next : Option EventNotifier.SetPc → Thread}
    (h : setStep s d p x next = some (a, t')) : ∃ b p', a = .notifier d b ∧ t' = next p' ∧
      EventNotifier.Step (s.inQueueHappened d) (.set p) b (.ofSet p') := by
  unfold setStep at h
  split at h
  · obtain ⟨⟨b, p'⟩, hp, heq⟩ := Option.map_eq_some_iff.mp h
    cases heq
    exact ⟨b, p', rfl, rfl, EventNotifier.SetPc.step_cases hp⟩
  · cases h

theorem waitStep_cases {d : Side} {p : EventNotifier.WaitPc} {next : Option EventNotifier.WaitPc → Thread}
    (h : waitStep s d p x next = some (a, t')) : ∃ b p', a = .notifier d b ∧ t' = next p' ∧
      EventNotifier.Step (s.inQueueHappened d) (.wait p) b (.ofWait p') := by
  unfold waitStep at h
  split at h
  · obtain ⟨⟨b, p'⟩, hp, heq⟩ := Option.map_eq_some_iff.mp h
    cases heq
    exact ⟨b, p', rfl, rfl, EventNotifier.WaitPc.step_cases hp⟩
  · cases h

theorem process_cases {d : Side} {p : WorkerPc} (h : process s d p x = some (a, t')) : Step s (.worker d p) a t' := by
  unfold process at h
  split at h
  · cases h
    split
    · exact .stop ‹_›
    · exact .goOn (by simp_all)
  · obtain ⟨b, p', rfl, rfl, hp⟩ := waitStep_cases h
    exact .wait hp
  · cases h
    split
    · exact .quit ‹_›
    · exact .next (by simp_all)
  · split at h <;> cases h
    · exact .empty ‹_›
    · exact .deQueue ‹_›
  · cases h
    exact .done
  · cases h
    exact .again
  · cases h
    exact .produce
  · next c e e' p _ =>
    unfold checkToInQueue at h
    split at h
    · split at h <;> cases h
      exact .produceInQueue
    · obtain ⟨b, p', rfl, rfl, hp⟩ := setStep_cases h
      exact .produceSet hp
  · cases h
    exact .reInQueue
  · obtain ⟨b, p', rfl, rfl, hp⟩ := setStep_cases h
    exact .leave hp
  · cases h

theorem close_cases {p : ClosePc} (h : close s p x = some (a, t')) : Step s (.closer p) a t' := by
  unfold close at h
  split at h
  · cases h
    split
    · exact .closedBefore ‹_›
    · exact .close (by simp_all)
  · cases h
    exact .shut
  · obtain ⟨b, p', rfl, rfl, hp⟩ := setStep_cases h
    exact .notifyWrite hp
  · obtain ⟨b, p', rfl, rfl, hp⟩ := setStep_cases h
    exact .notifyRead hp
  · cases h

theorem Thread.step_cases (h : t.step s x = some (a, t')) : Step s t a t' := by
  unfold Thread.step at h
  split at h
  · exact process_cases h
  · unfold checkToInQueue at h
    split at h
    · split at h <;> cases h
      exact .inQueue
    · obtain ⟨b, p', rfl, rfl, hp⟩ := setStep_cases h
      exact .set hp
  · cases h
  · exact close_cases h

end Inversion

/-! ### The notifiers -/

/-- Where a thread is in the functions of the notifier of `d`. -/
def Thread.place (d : Side) : Thread → EventNotifier.Pc
  | .worker e (.wait p) => if e = d then .wait p else .outside
  | .worker e (.leave p) => if e = d then .set p else .outside
  | .worker _ (.produce _ e _ (.set p)) => if e = d then .set p else .outside
  | .producer e _ (some (.set p)) => if e = d then .set p else .outside
  | .closer (.notify e p) => if e = d then .set p else .outside
  | _ => .outside

section Place
variable {s : Shared} {t t' : Thread} {a : Act} {d e : Side} {q q' : EventNotifier.Pc}

/-- A step does on the notifier of `d` what the notifier allows, or does not concern it. -/
def Steps (d : Side) (s : Shared) (t : Thread) (a : Act) (t' : Thread) : Prop :=
  (a.apply s).inQueueHappened d = s.inQueueHappened d ∧ t'.place d = t.place d ∨
    ∃ b, EventNotifier.Step (s.inQueueHappened d) (t.place d) b (t'.place d) ∧
      (a.apply s).inQueueHappened d = b.apply (s.inQueueHappened d)

theorem steps_notifier {b : EventNotifier.Act} (hstep : EventNotifier.Step (s.inQueueHappened e) q b q')
    (hq : t.place d = if e = d then q else .outside) (hq' : t'.place d = if e = d then q' else .outside) :
    Steps d s t (.notifier e b) t' := by
  by_cases he : e = d
  · subst he
    rw [if_pos rfl] at hq hq'
    exact .inr ⟨b, hq ▸ hq' ▸ hstep, by simp [Act.apply]⟩
  · rw [if_neg he] at hq hq'
    exact .inl ⟨by simp [Act.apply, Function.update_of_ne (Ne.symm he)], hq'.trans hq.symm⟩

theorem steps_call (ha : (a.apply s).inQueueHappened = s.inQueueHappened) (hq : t.place d = .outside)
    (hcall : EventNotifier.Step (s.inQueueHappened d) .outside .look q)
    (hq' : t'.place d = if e = d then q else .outside) : Steps d s t a t' := by
  by_cases he : e = d
  · rw [if_pos he] at hq'
    exact .inr ⟨.look, hq ▸ hq' ▸ hcall, by rw [ha]; rfl⟩
  · rw [if_neg he] at hq'
    exact .inl ⟨by rw [ha], hq'.trans hq.symm⟩

theorem Step.steps (h : Step s t a t') (d : Side) : Steps d s t a t' := by
  cases h with
  | stop => exact steps_call rfl rfl .set rfl
  | goOn => exact steps_call rfl rfl .wait rfl
  | produceInQueue => exact steps_call rfl rfl .set rfl
  | inQueue => exact steps_call rfl rfl .set rfl
  | @wait e p b p' hp => exact steps_notifier hp rfl (by cases p' <;> simp [Thread.place, EventNotifier.Pc.ofWait])
  | @produceSet e d' c e' p b p' hp =>
    exact steps_notifier hp rfl (by cases p' <;> simp [Thread.place, EventNotifier.Pc.ofSet])
  | @leave e p b p' hp => exact steps_notifier hp rfl (by cases p' <;> simp [Thread.place, EventNotifier.Pc.ofSet])
  | @set e c p b p' hp => exact steps_notifier hp rfl (by cases p' <;> simp [Thread.place, EventNotifier.Pc.ofSet])
  | shut => exact steps_call rfl rfl .set rfl
  | @notifyWrite p b p' hp =>
    cases p' with
    | some p' => exact steps_notifier hp rfl rfl
    | none =>
      -- the call for `write` returns and the call for `read` begins
      cases d with
      | write => exact .inr ⟨b, hp, by simp [Act.apply]⟩
      | read => exact .inr ⟨.look, .set, by simp [Act.apply, EventNotifier.Act.apply]⟩
  | @notifyRead p b p' hp => exact steps_notifier hp rfl (by cases p' <;> simp [Thread.place, EventNotifier.Pc.ofSet])
  | _ => exact .inl ⟨rfl, rfl⟩

end Place

/-- What the notifier of `d` sees. -/
def view (d : Side) (s : State) : EventNotifier.State := s.view (·.inQueueHappened d) (Thread.place d)

/-- The workers and their callers use each notifier as any callers may. -/
theorem view_reachable {workers : Side → Nat} {closes : Nat} {s : State} (h : Reachable workers closes s) (d : Side) :
    EventNotifier.Reachable (view d s) := by
  refine Reach.view ?_ (fun s t x a t' hs => ?_) (fun k t hk => ?_) h
  · have hstart : (start workers closes).view (·.inQueueHappened d) (Thread.place d) =
        ⟨{}, List.replicate (workers .read + (workers .write + closes)) .outside⟩ := by
      simp [start, Config.view, Thread.place]
    rw [hstart]
    exact EventNotifier.reachable_replicate _
  · rcases (Thread.step_cases hs).steps d with hno | ⟨b, hb, hn⟩
    · exact .inl hno
    · obtain ⟨y, hy⟩ := hb.exists_step
      exact .inr ⟨y, b, rfl, hy, hn⟩
  · cases hk
    exact ⟨(), rfl⟩

/-! ### Queued work -/

/-- The thread is about to set `signaled`. -/
def raises : EventNotifier.Pc → Nat
  | .set .lock | .set .signal => 1
  | _ => 0

/-- The worker has taken a signal and looks into the queue before it waits again. -/
def WorkerPc.drains : WorkerPc → Nat
  | .wait .unlock | .loop | .deQueue | .body _ | .produce _ _ _ _ | .reInQueue _ => 1
  | _ => 0

/-- The thread is a worker of `d` that looks into the queue. -/
def Thread.drains (d : Side) : Thread → Nat
  | .worker e p => if e = d then p.drains else 0
  | _ => 0

/-- The threads that are about to signal on `d`, those that look into its queue, and what `others` counts. -/
def counts (others : Thread → Nat) (d : Side) (t : Thread) : Nat := raises (t.place d) + (t.drains d + others t)

/-- The thread sees to the queue of `d`. -/
def attends (d : Side) : Thread → Nat := counts (fun _ => 0) d

/-- There is a signal for `d`, or a thread that counts. -/
def Signals (f : Thread → Nat) (d : Side) (s : State) : Prop :=
  0 < (s.shared.inQueueHappened d).signaled.toNat + s.weight f

/-- What a thread has to do to a signal and to what it counts so that the signal is not lost. -/
def KeepsSignal (f : Thread → Nat) (signaled signaled' : Bool) (t t' : Thread) : Prop :=
  signaled' = true ∨ 0 < f t' ∨ signaled' = signaled ∧ f t ≤ f t'

theorem Signals.run {f : Thread → Nat} {d : Side} {s : State} {i : Nat} {t t' : Thread} {x : Shared}
    (h : Signals f d s) (hi : s.threads[i]? = some t)
    (hkeeps : KeepsSignal f (s.shared.inQueueHappened d).signaled (x.inQueueHappened d).signaled t t') :
    Signals f d ⟨x, s.threads.set i t'⟩ := by
  have hw := Config.weight_run f x t' hi
  have hle := Config.le_weight (f := f) (List.mem_of_getElem? hi)
  unfold Signals at h ⊢
  rcases hkeeps with hsig | hpos | ⟨hsig, hle'⟩
  · simp only [hsig, Bool.toNat_true]
    omega
  · omega
  · simp only [hsig]
    omega

theorem Signals.enter {f : Thread → Nat} {d : Side} {s : State} (h : Signals f d s) (t : Thread) :
    Signals f d ⟨s.shared, s.threads ++ [t]⟩ := by
  unfold Signals at h ⊢
  rw [Config.weight_enter]
  exact Nat.lt_of_lt_of_le h (by simp only; omega)

theorem raises_of_set {n : EventNotifier} {p : EventNotifier.SetPc} {a : EventNotifier.Act}
    {p' : Option EventNotifier.SetPc} (h : EventNotifier.Step n (.set p) a (.ofSet p')) :
    (a.apply n).signaled = true ∨
      (a.apply n).signaled = n.signaled ∧ raises (.set p) ≤ raises (.ofSet p') := by
  generalize EventNotifier.Pc.ofSet p' = q at h
  cases h with
  | signal => exact .inl rfl
  | _ => exact .inr ⟨rfl, by simp [raises]⟩

theorem drains_of_wait {n : EventNotifier} {p : EventNotifier.WaitPc} {a : EventNotifier.Act}
    {p' : Option EventNotifier.WaitPc} (h : EventNotifier.Step n (.wait p) a (.ofWait p')) :
    0 < (p'.elim .loop .wait : WorkerPc).drains ∨
      (a.apply n).signaled = n.signaled ∧ (WorkerPc.wait p).drains = 0 := by
  cases p' with
  | none => exact .inl Nat.zero_lt_one
  | some p' =>
    simp only [EventNotifier.Pc.ofWait] at h
    cases h with
    | clear => exact .inl Nat.zero_lt_one
    | _ => exact .inr ⟨rfl, rfl⟩

section Keeps
variable {s : Shared} {t t' : Thread} {a : Act} {d e : Side} {others : Thread → Nat}

/-- The step loses no signal on `d`. -/
def Keeps (f : Thread → Nat) (d : Side) (s : Shared) (t : Thread) (a : Act) (t' : Thread) : Prop :=
  KeepsSignal f (s.inQueueHappened d).signaled ((a.apply s).inQueueHappened d).signaled t t'

theorem notifier_apply_self (b : EventNotifier.Act) :
    ((Act.notifier d b).apply s).inQueueHappened d = b.apply (s.inQueueHappened d) := by
  simp [Act.apply]

theorem notifier_apply_of_ne (b : EventNotifier.Act) (he : e ≠ d) :
    ((Act.notifier e b).apply s).inQueueHappened d = s.inQueueHappened d := by
  simp [Act.apply, Function.update_of_ne (Ne.symm he)]

/-- An operation of `Set` sets the flag before the thread stops counting. -/
theorem keeps_set {p : EventNotifier.SetPc} {b : EventNotifier.Act} {p' : Option EventNotifier.SetPc}
    (hp : EventNotifier.Step (s.inQueueHappened e) (.set p) b (.ofSet p'))
    (hq : t.place d = if e = d then .set p else .outside)
    (hq' : raises (if e = d then .ofSet p' else .outside) ≤ raises (t'.place d)) (hrest : t.drains d + others t ≤ t'.drains d + others t') :
    Keeps (counts others d) d s t (.notifier e b) t' := by
  unfold Keeps KeepsSignal counts
  rw [hq]
  by_cases he : e = d
  · subst he
    rw [notifier_apply_self, if_pos rfl]
    rw [if_pos rfl] at hq'
    rcases raises_of_set hp with hsig | ⟨hsig, hle⟩
    · exact .inl hsig
    · exact .inr (.inr ⟨hsig, by omega⟩)
  · rw [notifier_apply_of_ne b he, if_neg he]
    exact .inr (.inr ⟨rfl, by simp only [raises]; omega⟩)

/-- A worker counts when it takes the signal in `Wait`. -/
theorem keeps_wait {p : EventNotifier.WaitPc} {b : EventNotifier.Act} {p' : Option EventNotifier.WaitPc}
    (hothers : others (.worker e (.wait p)) = 0)
    (hp : EventNotifier.Step (s.inQueueHappened e) (.wait p) b (.ofWait p')) :
    Keeps (counts others d) d s (.worker e (.wait p)) (.notifier e b) (.worker e (p'.elim .loop .wait)) := by
  have hraises : raises ((Thread.worker e (.wait p)).place d) = 0 := by
    simp only [Thread.place]
    split <;> rfl
  unfold Keeps KeepsSignal counts
  rw [hraises, hothers]
  by_cases he : e = d
  · subst he
    rw [notifier_apply_self]
    simp only [Thread.drains, if_true]
    rcases drains_of_wait hp with hpos | ⟨hsig, hzero⟩
    · exact .inr (.inl (by omega))
    · exact .inr (.inr ⟨hsig, by omega⟩)
  · have hzero : (Thread.worker e (.wait p)).drains d = 0 := if_neg he
    rw [notifier_apply_of_ne b he]
    exact .inr (.inr ⟨rfl, by omega⟩)

/-- A step that leaves the notifiers alone. -/
theorem keeps_of_le (ha : (a.apply s).inQueueHappened = s.inQueueHappened)
    (hle : counts others d t ≤ counts others d t') : Keeps (counts others d) d s t a t' :=
  .inr (.inr ⟨by rw [ha], hle⟩)

theorem queue_inQueue {c : ConnId} (hnil : s.queue d = []) (hq : ((Act.inQueue e c).apply s).queue d ≠ []) : e = d := by
  by_contra he
  simp [Act.apply, Function.update_of_ne (Ne.symm he), hnil] at hq

theorem queue_deQueue (hq : ((Act.deQueue e).apply s).queue d ≠ []) : s.queue d ≠ [] := by
  intro hnil
  by_cases he : e = d
  · subst he
    simp [Act.apply, hnil] at hq
  · simp [Act.apply, Function.update_of_ne (Ne.symm he), hnil] at hq

/-- As long as `closed` is not set, a step keeps the signal for the connections that are queued after it. -/
theorem Step.keeps_attends (h : Step s t a t') (hopen : s.closed = false) (hq : (a.apply s).queue d ≠ []) :
    Keeps (attends d) d s t a t' ∧ (s.queue d = [] → 0 < attends d t') := by
  cases h with
  | stop hclosed | quit hclosed | closedBefore hclosed =>
    rw [hopen] at hclosed
    cases hclosed
  | @empty e hempty =>
    have he : e ≠ d := by
      rintro rfl
      exact hq hempty
    exact ⟨keeps_of_le rfl (by simp [counts, Thread.place, Thread.drains, he]), fun hnil => absurd hnil hq⟩
  | @wait e p b p' hp => exact ⟨keeps_wait rfl hp, fun hnil => absurd hnil hq⟩
  | @produceSet e d' c e' p b p' hp =>
    refine ⟨keeps_set hp rfl ?_ ?_, fun hnil => absurd hnil hq⟩
    · cases p' <;> simp [Thread.place, EventNotifier.Pc.ofSet]
    · cases p' <;> simp [Thread.drains, WorkerPc.drains]
  | @leave e p b p' hp =>
    refine ⟨keeps_set hp rfl ?_ ?_, fun hnil => absurd hnil hq⟩
    · cases p' <;> simp [Thread.place, EventNotifier.Pc.ofSet]
    · cases p' <;> simp [Thread.drains, WorkerPc.drains]
  | @set e c p b p' hp =>
    refine ⟨keeps_set hp rfl ?_ le_rfl, fun hnil => absurd hnil hq⟩
    cases p' <;> simp [Thread.place, EventNotifier.Pc.ofSet]
  | @notifyWrite p b p' hp =>
    refine ⟨keeps_set hp rfl ?_ le_rfl, fun hnil => absurd hnil hq⟩
    cases p' <;> simp [Thread.place, EventNotifier.Pc.ofSet, raises]
  | @notifyRead p b p' hp =>
    refine ⟨keeps_set hp rfl ?_ le_rfl, fun hnil => absurd hnil hq⟩
    cases p' <;> simp [Thread.place, EventNotifier.Pc.ofSet]
  | produceInQueue =>
    refine ⟨keeps_of_le rfl ?_, fun hnil => ?_⟩
    · simp [counts, Thread.place, raises, Thread.drains, WorkerPc.drains]
    · simp [attends, counts, Thread.place, raises, queue_inQueue hnil hq]
  | inQueue =>
    refine ⟨keeps_of_le rfl ?_, fun hnil => ?_⟩
    · simp [counts, Thread.place, raises, Thread.drains]
    · simp [attends, counts, Thread.place, raises, queue_inQueue hnil hq]
  | reInQueue =>
    refine ⟨keeps_of_le rfl ?_, fun hnil => ?_⟩
    · simp [counts, Thread.place, Thread.drains, WorkerPc.drains]
    · simp [attends, counts, Thread.place, Thread.drains, WorkerPc.drains, queue_inQueue hnil hq]
  | deQueue =>
    refine ⟨keeps_of_le rfl ?_, fun hnil => absurd hnil (queue_deQueue hq)⟩
    simp [counts, Thread.place, Thread.drains, WorkerPc.drains]
  | _ =>
    refine ⟨keeps_of_le rfl ?_, fun hnil => absurd hnil hq⟩
    simp [counts, Thread.place, raises, Thread.drains, WorkerPc.drains]

end Keeps

/-! ### Runs -/

section Run
variable {workers : Side → Nat} {closes : Nat} {s : State} {d : Side}

theorem closed_of_apply {a : Act} {s : Shared} (h : (a.apply s).closed = false) : s.closed = false := by
  cases a with
  | shut => cases h
  | _ => exact h

theorem Signals.of_mem {f : Thread → Nat} {t : Thread} (ht : t ∈ s.threads) (hpos : 0 < f t) : Signals f d s :=
  Nat.add_pos_right _ (Config.weight_pos.mpr ⟨t, ht, hpos⟩)

/-- As long as `closed` is not set, there is a signal for every queued connection, or a thread sees to it. -/
theorem attended (h : Reachable workers closes s) (hopen : s.shared.closed = false) (hq : s.shared.queue d ≠ []) :
    Signals (attends d) d s := by
  induction h with
  | start => exact absurd rfl hq
  | @run s i x t t' a hr _ hi hs _ ih =>
    have hopen' : s.shared.closed = false := closed_of_apply hopen
    obtain ⟨hkeeps, hnew⟩ := (Thread.step_cases hs).keeps_attends hopen' hq
    by_cases hnil : s.shared.queue d = []
    · exact .of_mem (List.mem_set (List.getElem?_eq_some_iff.mp hi).1 t') (hnew hnil)
    · exact (ih hopen' hnil).run hi hkeeps
  | @enter s k t _ hk _ ih => exact (ih hopen hq).enter t

theorem closed_apply {a : Act} {s : Shared} (h : s.closed = true) : (a.apply s).closed = true := by
  cases a with
  | shut => rfl
  | _ => exact h

theorem Step.of_notify {s : Shared} {t t' : Thread} {a : Act} (h : Step s t a t') {e : Side} {p : EventNotifier.SetPc}
    (ht' : t' = .closer (.notify e p)) : a = .shut ∨ ∃ e p, t = .closer (.notify e p) := by
  cases h with
  | shut => exact .inl rfl
  | notifyWrite | notifyRead => exact .inr ⟨_, _, rfl⟩
  | _ => cases ht'

/-- `Close` has set `closed` before it calls `Set`. -/
theorem closed_of_notify (h : Reachable workers closes s) {e : Side} {p : EventNotifier.SetPc}
    (ht : .closer (.notify e p) ∈ s.threads) : s.shared.closed = true := by
  induction h generalizing e p with
  | start => simp [start] at ht
  | @run s i x t t' a hr _ hi hs _ ih =>
    rcases eq_or_of_mem_set ht with heq | ⟨j, -, hj⟩
    · rcases (Thread.step_cases hs).of_notify heq.symm with rfl | ⟨e', p', rfl⟩
      · rfl
      · exact closed_apply (ih (List.mem_of_getElem? hi))
    · exact closed_apply (ih (List.mem_of_getElem? hj))
  | enter _ hk _ ih =>
    cases hk
    exact ih (by simpa using ht)

/-- The thread is a worker of `d`. -/
def Thread.works (d : Side) : Thread → Nat
  | .worker e _ => if e = d then 1 else 0
  | _ => 0

/-- What no step changes, and is not counted in a thread that queues a connection, is what it was. -/
theorem weight_eq_start (h : Reachable workers closes s) {f : Thread → Nat}
    (hstep : ∀ s t a t', Step s t a t' → f t' = f t) (henter : ∀ d c p, f (.producer d c p) = 0) :
    s.weight f = (start workers closes).weight f := by
  induction h with
  | start => rfl
  | @run s i x t t' a _ _ hi hs _ ih =>
    have hw := Config.weight_run f (a.apply s.shared) t' hi
    rw [hstep _ _ _ _ (Thread.step_cases hs)] at hw
    exact (Nat.add_right_cancel hw).trans ih
  | enter _ hk _ ih =>
    cases hk
    rw [Config.weight_enter, henter]
    exact ih

/-- The workers are those that were started. -/
theorem weight_works (h : Reachable workers closes s) (d : Side) : s.weight (Thread.works d) = workers d := by
  rw [weight_eq_start h (fun _ _ _ _ hs => by cases hs <;> rfl) fun _ _ _ => rfl]
  cases d <;> simp [Config.weight, start, Thread.works]

theorem exists_worker (h : Reachable workers closes s) (hpos : 0 < workers d) : ∃ p, .worker d p ∈ s.threads := by
  rw [← weight_works h d] at hpos
  obtain ⟨t, ht, hw⟩ := Config.weight_pos.mp hpos
  cases t with
  | worker e p =>
    simp only [Thread.works] at hw
    split at hw
    · next he => exact ⟨p, he ▸ ht⟩
    · cases hw
  | producer e c p => cases hw
  | closer p => cases hw

/-- The worker is blocked in `Wait` and has not been notified. -/
def WorkerPc.Blocked (n : EventNotifier) (p : WorkerPc) : Prop := ∃ k ∈ n.cv.waiting, p = .wait (.waiting k)

/-- The thread has queued a connection for `d` and has not yet called `notify_one`. -/
def Thread.Notifies (d : Side) : Thread → Prop
  | .producer e _ (some (.set _)) | .worker _ (.produce _ e _ (.set _)) => e = d
  | _ => False

/-- Who is inside the functions of the notifier of `d`. -/
theorem place_cases {t : Thread} (h : t.place d ≠ .outside) : (∃ p, t = .worker d (.wait p)) ∨
    (∃ p, t = .worker d (.leave p)) ∨ t.Notifies d ∨ ∃ p, t = .closer (.notify d p) := by
  unfold Thread.place at h
  split at h
  · obtain rfl := (ite_ne_right_iff.mp h).1
    exact .inl ⟨_, rfl⟩
  · obtain rfl := (ite_ne_right_iff.mp h).1
    exact .inr (.inl ⟨_, rfl⟩)
  · exact .inr (.inr (.inl (ite_ne_right_iff.mp h).1))
  · exact .inr (.inr (.inl (ite_ne_right_iff.mp h).1))
  · obtain rfl := (ite_ne_right_iff.mp h).1
    exact .inr (.inr (.inr ⟨_, rfl⟩))
  · exact absurd rfl h

theorem raises_eq_zero {n : EventNotifier} {q : EventNotifier.Pc} (h : q ≠ .outside → q.Blocked n) : raises q = 0 := by
  by_cases hq : q = .outside
  · rw [hq]
    rfl
  · obtain ⟨k, -, rfl⟩ := h hq
    rfl

/-- Nobody is inside the functions of the notifier of `d` but blocked workers, who do nothing for a signal. -/
theorem not_signals_of_blocked {f : Thread → Nat} (h : Reachable workers closes s) (hf : ∀ t ∈ s.threads, f t = 0)
    (hblocked : ∃ p, .worker d p ∈ s.threads ∧ p.Blocked (s.shared.inQueueHappened d))
    (hall : ∀ t ∈ s.threads, t.place d ≠ .outside → (t.place d).Blocked (s.shared.inQueueHappened d)) :
    ¬Signals f d s := by
  intro hsig
  have hzero : s.weight f = 0 := by
    by_contra hne
    obtain ⟨t, ht, hpos⟩ := Config.weight_pos.mp (Nat.pos_of_ne_zero hne)
    exact absurd (hf t ht) (Nat.ne_of_gt hpos)
  have hsignaled : (s.shared.inQueueHappened d).signaled = true := by
    unfold Signals at hsig
    cases hb : (s.shared.inQueueHappened d).signaled with
    | true => rfl
    | false => simp [hb, hzero] at hsig
  obtain ⟨p, hp, k, hk, rfl⟩ := hblocked
  have hmem : EventNotifier.Pc.wait (.waiting k) ∈ (view d s).threads :=
    List.mem_map.mpr ⟨_, hp, by simp [Thread.place]⟩
  obtain ⟨q, hq, hpos, hno⟩ := EventNotifier.exists_covers (view_reachable h d) hsignaled ⟨_, hmem, k, hk, rfl⟩
  obtain ⟨t, ht, rfl⟩ := List.mem_map.mp hq
  refine hno (hall t ht fun hout => ?_)
  rw [hout] at hpos
  cases hpos

/-- While `closed` is not set, connections are not queued with every worker blocked and nobody about to notify. -/
theorem no_stranded_work (workers : Side → Nat) (closes : Nat) (s : State) (h : Reachable workers closes s)
    (hopen : s.shared.closed = false) (d : Side) (hworkers : 0 < workers d) :
    ¬(s.shared.queue d ≠ [] ∧ (∀ p, .worker d p ∈ s.threads → p.Blocked (s.shared.inQueueHappened d)) ∧
      ∀ t ∈ s.threads, ¬t.Notifies d) := by
  rintro ⟨hq, hblocked, hno⟩
  have hplace : ∀ t ∈ s.threads, t.place d ≠ .outside → (t.place d).Blocked (s.shared.inQueueHappened d) := by
    intro t ht hne
    rcases place_cases hne with ⟨p, rfl⟩ | ⟨p, rfl⟩ | hnotifies | ⟨p, rfl⟩
    · obtain ⟨k, hk, hp⟩ := hblocked _ ht
      cases hp
      exact ⟨k, hk, by simp [Thread.place]⟩
    · obtain ⟨k, -, hp⟩ := hblocked _ ht
      cases hp
    · exact absurd hnotifies (hno t ht)
    · rw [closed_of_notify h ht] at hopen
      cases hopen
  have hzero : ∀ t ∈ s.threads, attends d t = 0 := by
    intro t ht
    have hdrains : t.drains d = 0 := by
      cases t with
      | worker e p =>
        by_cases he : e = d
        · subst he
          obtain ⟨k, -, rfl⟩ := hblocked p ht
          simp [Thread.drains, WorkerPc.drains]
        · exact if_neg he
      | producer e c p => rfl
      | closer p => rfl
    simp [attends, counts, hdrains, raises_eq_zero (hplace t ht)]
  obtain ⟨p, hp⟩ := exists_worker h hworkers
  exact not_signals_of_blocked h hzero ⟨p, hp, hblocked p hp⟩ hplace (attended h hopen hq)

end Run

/-- Thread `i` takes `n` steps in a function of a notifier. -/
def goOn (i n : Nat) : List (Move Choice (Side × ConnId)) := List.replicate n (.run i (.notifier .go))

/-- Threads 0 and 1 are the workers, 2 is to call `Close`, and 3 queues a connection for the blocked reader. -/
def blockedReader : List (Move Choice (Side × ConnId)) :=
  [[.run 0 .go], goOn 0 3, [.enter (.read, 7), .run 3 .go]].flatten

theorem no_stranded_work_of_blocked : ∃ s, Reachable (fun _ => 1) 1 s ∧ s.shared.queue .read = [7] ∧
    s.shared.closed = false ∧
    ¬(s.shared.queue .read ≠ [] ∧ (∀ p, .worker .read p ∈ s.threads → p.Blocked (s.shared.inQueueHappened .read)) ∧
      ∀ t ∈ s.threads, ¬t.Notifies .read) := by
  have hrun : (pool.exec (fun _ _ _ => true) (fun _ => true) (start (fun _ => 1) 1) blockedReader).any
      (fun s => s.shared.queue .read = [7] ∧ s.shared.closed = false) = true := by
    decide
  obtain ⟨s, hs, hp⟩ := Reach.exists_of_exec Rule.any (fun _ _ _ _ => trivial) (fun _ _ => trivial) hrun
  obtain ⟨hq, hopen⟩ := of_decide_eq_true hp
  exact ⟨s, hs, hq, hopen, no_stranded_work (fun _ => 1) 1 s hs hopen .read Nat.zero_lt_one⟩

end SimpleHttp.Pool
