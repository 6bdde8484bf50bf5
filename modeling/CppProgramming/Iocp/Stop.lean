import CppProgramming.Iocp.Clients
import CppProgramming.Lib.Inevitable

/-! # The pool stops

`stop` sets `stopped`, waits for the accepting thread and posts a packet for each thread of the pool. A thread may wait
in `GetQueuedCompletionStatus` without a timeout, and a thread that has been woken by a packet of a client leaves one of
the packets of `stop` over; there are enough of them, so that each thread of the pool returns, or one less for each packet
that could not be posted. -/

namespace Iocp
open Interleaving

/-! ### Packets for the threads -/

/-- A packet that `stop` has posted. -/
def Packet.wakes (packet : Packet) : Bool := packet.result && packet.key == invalidClientContextId

/-- The packets that a call of `stop` has still to post. -/
def Thread.toPost : Thread → Nat
  | .stop true n => n
  | _ => 0

/-- The thread waits in `GetQueuedCompletionStatus`. -/
def Thread.waits : Thread → Nat
  | .pool .getStatus => 1
  | _ => 0

/-- The thread is one of the pool. -/
def Thread.inPool : Thread → Nat
  | .pool _ => 1
  | _ => 0

/-- The packets of `stop` that have been posted or will be, and those that could not be posted. -/
def wakeups (s : Config Shared Thread) : Nat :=
  s.shared.port.countP Packet.wakes + s.weight Thread.toPost + s.shared.unposted

/-- `stop` is for the whole pool, and when it has begun each thread that waits has a packet, or one that could not be
    posted. -/
structure Enough (threadPoolSize : Nat) (s : Config Shared Thread) : Prop where
  pool : s.weight Thread.inPool = threadPoolSize
  calls : ∀ t ∈ s.threads, ∀ n, t = .stop false n → n = threadPoolSize
  awake : s.shared.stopped = true → s.weight Thread.waits ≤ wakeups s

/-- The runs in which `stop` is called, once or more, for the whole pool. -/
def stopping (threadPoolSize : Nat) : Rule Shared Thread Act Nat where
  step _ _ _ := True
  call n := n = threadPoolSize

section Enough
variable {threadPoolSize i : Nat} {s : Config Shared Thread} {t t' : Thread} {x : Choice} {a : Act}

theorem waits_le_inPool (t : Thread) : t.waits ≤ t.inPool := by
  cases t with
  | pool pc => cases pc <;> exact Nat.le_of_ble_eq_true rfl
  | accept | kernel | stop => exact Nat.le_refl _

/-- A thread that sees `stopped` returns. -/
theorem finished_of_loop (hs : s.shared.stopped = true) (h : Thread.step s.shared (.pool .loop) x = some (a, t')) :
    t' = .pool .finished := by
  simp only [Thread.step, PoolPc.step, hs, if_true, Option.map_some, Option.some.injEq, Prod.mk.injEq] at h
  exact h.2.symm

/-- What a step of the system does to the packets of `stop`, once it has begun: a thread that stops waiting takes one at
    most. -/
theorem Step.wakeups_le (h : Step s.shared t a t') (hloop : t = .pool .loop → t' = .pool .finished) :
    t'.waits + s.shared.port.countP Packet.wakes + t.toPost + s.shared.unposted ≤
      t.waits + (a.apply s.shared).port.countP Packet.wakes + t'.toPost + (a.apply s.shared).unposted := by
  have htake : ∀ {packet : Packet} {port : List Packet}, s.shared.port = packet :: port →
      s.shared.port.countP Packet.wakes ≤ 1 + s.shared.port.tail.countP Packet.wakes := by
    intro packet port hport
    rw [hport, List.countP_cons, List.tail_cons]
    split <;> omega
  cases h with
  | failed hport _ | woken hport _ _ =>
    simp only [Thread.waits, Thread.toPost, Act.apply]
    have := htake hport
    omega
  | ended hport _ _ _ | transferred hport _ _ _ =>
    simp only [Thread.waits, Thread.toPost, Act.apply]
    have := htake hport
    omega
  | completeRecv _ _ _ | completeSend _ _ _ =>
    simp only [Act.apply, List.countP_append]
    omega
  | wakeFailed =>
    simp only [Thread.waits, Thread.toPost, Act.apply]
    omega
  | wake =>
    have hwakes : Packet.wakes ⟨true, 0, invalidClientContextId, none⟩ = true := rfl
    simp only [Thread.waits, Thread.toPost, Act.apply, List.countP_append, List.countP_singleton, hwakes, if_true]
    omega
  | poolLoop _ =>
    rw [hloop rfl]
    simp only [Thread.waits, Thread.toPost, Act.apply]
    omega
  | _ => simp [Thread.waits, Thread.toPost, Act.apply]

theorem Step.stopped (h : Step s.shared t a t') :
    (s.shared.stopped = true → (a.apply s.shared).stopped = true) ∧
      ((a.apply s.shared).stopped = true → s.shared.stopped = true ∨ ∃ n, t = .stop false n ∧ t' = .stop true n) := by
  cases h with
  | stop => exact ⟨fun _ => rfl, fun _ => .inr ⟨_, rfl, rfl⟩⟩
  | _ => exact ⟨id, .inl⟩

theorem Step.inPool (h : Step s.shared t a t') : t'.inPool = t.inPool ∧ ∀ n, t' ≠ .stop false n := by
  cases h <;> exact ⟨rfl, fun n hn => by cases hn⟩

/-- What `Enough` says is kept. -/
theorem Enough.run (h : Enough threadPoolSize s) (hi : s.threads[i]? = some t)
    (hs : Thread.step s.shared t x = some (a, t')) :
    Enough threadPoolSize ⟨a.apply s.shared, s.threads.set i t'⟩ := by
  have hstep := Thread.step_cases hs
  obtain ⟨hpool, hfresh⟩ := hstep.inPool
  have hweight : ∀ f, Config.weight f (⟨a.apply s.shared, s.threads.set i t'⟩ : Config Shared Thread) + f t =
      s.weight f + f t' := fun f => Config.weight_run f (a.apply s.shared) t' hi
  refine ⟨?_, fun u hu n hn => ?_, fun hstopped => ?_⟩
  · have := hweight Thread.inPool
    rw [hpool, h.pool] at this
    omega
  · rcases List.mem_or_eq_of_mem_set hu with hmem | rfl
    · exact h.calls u hmem n hn
    · exact absurd hn (hfresh n)
  · have hwaits := hweight Thread.waits
    have htoPost := hweight Thread.toPost
    unfold wakeups
    rcases hstep.stopped.2 hstopped with hbefore | ⟨n, rfl, rfl⟩
    · have hold := h.awake hbefore
      unfold wakeups at hold
      have hle := hstep.wakeups_le fun hloop => finished_of_loop hbefore (hloop ▸ hs)
      simp only at hwaits htoPost ⊢
      omega
    · -- Nobody has waited for `stop` before.
      have hall := Config.weight_le_weight (s := s) waits_le_inPool
      have hn := h.calls _ (List.mem_of_getElem? hi) n rfl
      rw [h.pool] at hall
      simp only [Thread.waits, Thread.toPost] at hwaits htoPost ⊢
      omega

theorem reach_enough (h : Reach machine (stopping threadPoolSize) (start threadPoolSize) s) :
    Enough threadPoolSize s := by
  induction h with
  | start =>
    refine ⟨?_, ?_, fun hstopped => by cases hstopped⟩
    · simp [start, Config.weight, Thread.inPool]
    · intro t ht n hn
      simp only [start, List.mem_cons, List.mem_replicate] at ht
      rcases ht with rfl | rfl | ⟨-, rfl⟩ <;> cases hn
  | run _ _ hi hs _ ih => exact ih.run hi hs
  | @enter s n t _ hk hn ih =>
    cases hk
    have hweight : ∀ f, Config.weight f (⟨s.shared, s.threads ++ [Thread.stop false n]⟩ : Config Shared Thread) =
        s.weight f + f (.stop false n) := fun f => Config.weight_enter f s _
    refine ⟨(hweight _).trans ih.pool, fun u hu m hm => ?_, fun hstopped => ?_⟩
    · rcases List.mem_append.mp hu with hmem | hmem
      · exact ih.calls u hmem m hm
      · rw [List.mem_singleton.mp hmem] at hm
        cases hm
        exact hn
    · unfold wakeups
      rw [hweight, hweight]
      exact ih.awake hstopped

end Enough

/-! ### How much there is to do -/

/-- What a thread has to do when `stopped` is set; the operation that it may post is one step of the kernel. -/
def Thread.rest : Thread → Nat
  | .accept .finished | .pool .finished | .kernel => 0
  | .accept .loop | .pool .loop => 1
  | .accept (.remove _ _) | .pool (.remove _ _) => 2
  | .accept (.recv _) | .pool (.send _ _) | .pool (.recv _ _) => 3
  | .accept (.prepare _) | .pool (.handle _ _) => 4
  | .accept (.associate _) | .pool (.lookup _ _ _) => 5
  | .accept .create | .pool .getStatus => 6
  | .accept .wait => 7
  | .stop isSet n => n + (!isSet).toNat

/-- What the threads and the kernel have to do. -/
def rest (s : Config Shared Thread) : Nat := s.weight Thread.rest + s.shared.posted.length

/-- A step without a new call. -/
def Goes (s s' : Config Shared Thread) : Prop := ∃ (i : Nat) (t t' : Thread) (x : Choice) (a : Act),
  s.threads[i]? = some t ∧ Thread.step s.shared t x = some (a, t') ∧ s' = ⟨a.apply s.shared, s.threads.set i t'⟩

/-- The accepting thread has returned, so that `acceptThread.join()` has. -/
def Joined (s : Config Shared Thread) : Prop := ∀ pc, .accept pc ∈ s.threads → pc = .finished

/-- A step that is not up to the clients: one of a thread of the server, which `stop` posts its packets in when the
    accepting thread has been joined. -/
def Must (s s' : Config Shared Thread) : Prop := ∃ (i : Nat) (t t' : Thread) (x : Choice) (a : Act),
  s.threads[i]? = some t ∧ t ≠ .kernel ∧ (∀ n, t = .stop true n → Joined s) ∧
    Thread.step s.shared t x = some (a, t') ∧ s' = ⟨a.apply s.shared, s.threads.set i t'⟩

/-- All threads of the server have returned, but for as many of the pool at most as there are packets that could not be
    posted. -/
structure Stopped (s : Config Shared Thread) : Prop where
  accept : Joined s
  pool : ∀ pc, .pool pc ∈ s.threads → pc = .finished ∨ pc = .getStatus ∧ 0 < s.shared.unposted
  waiting : s.weight Thread.waits ≤ s.shared.unposted
  stop : ∀ isSet n, .stop isSet n ∈ s.threads → isSet = true ∧ n = 0

/-- The accepting thread looks for a free id, and there is none. -/
def Exhausted (s : Config Shared Thread) : Prop :=
  .accept .create ∈ s.threads ∧ firstFree s.shared.clientContexts (2 ^ 32) s.shared.id = none

section Rest
variable {threadPoolSize i : Nat} {s s' : Config Shared Thread} {t t' : Thread} {x : Choice} {a : Act}

theorem accept_finished_of_loop (hs : s.shared.stopped = true)
    (h : Thread.step s.shared (.accept .loop) x = some (a, t')) : t' = .accept .finished := by
  simp only [Thread.step, AcceptPc.step, hs, if_true, Option.map_some, Option.some.injEq, Prod.mk.injEq] at h
  exact h.2.symm

theorem rest_run (hstopped : s.shared.stopped = true) (hs : Thread.step s.shared t x = some (a, t')) :
    t'.rest + (a.apply s.shared).posted.length < t.rest + s.shared.posted.length := by
  cases Thread.step_cases hs with
  | acceptLoop _ =>
    rw [accept_finished_of_loop hstopped hs]
    simp [Thread.rest, Act.apply]
  | poolLoop _ =>
    rw [finished_of_loop hstopped hs]
    simp [Thread.rest, Act.apply]
  | acceptWait hpc => rcases hpc with rfl | rfl <;> simp [Thread.rest, Act.apply]
  | completeRecv ho _ _ | completeSend ho _ _ =>
    obtain ⟨hlt, -⟩ := List.getElem?_eq_some_iff.mp ho
    simp only [Thread.rest, Act.apply, List.length_eraseIdx, hlt, if_true]
    omega
  | acceptRecv _ | send _ | recv _ =>
    simp only [Thread.rest, Act.apply, List.length_append, List.length_singleton]
    omega
  | _ => simp [Thread.rest, Act.apply]

theorem rest_goes (hstopped : s.shared.stopped = true) (h : Goes s s') : rest s' < rest s := by
  obtain ⟨i, t, t', x, a, hi, hs, rfl⟩ := h
  have hlt := rest_run hstopped hs
  have hweight := Config.weight_run Thread.rest (a.apply s.shared) t' hi
  unfold rest
  simp only at hweight ⊢
  omega

/-- The accepting thread can go on, unless it has returned or finds no free id. -/
theorem Inv.accept_enabled (hI : Inv s) {pc : AcceptPc} (ht : .accept pc ∈ s.threads) :
    pc = .finished ∨ (pc = .create ∧ firstFree s.shared.clientContexts (2 ^ 32) s.shared.id = none) ∨
      ∃ x a t', Thread.step s.shared (.accept pc) x = some (a, t') := by
  cases pc with
  | finished => exact .inl rfl
  | loop => exact .inr (.inr ⟨.go, _, _, rfl⟩)
  | wait | associate p => exact .inr (.inr ⟨.result false, _, _, rfl⟩)
  | remove id p => exact .inr (.inr ⟨.go, _, _, rfl⟩)
  | create =>
    cases hid : firstFree s.shared.clientContexts (2 ^ 32) s.shared.id with
    | none => exact .inr (.inl ⟨rfl, rfl⟩)
    | some id => exact .inr (.inr ⟨.go, .create id, _, by simp only [Thread.step, AcceptPc.step, hid]; rfl⟩)
  | prepare p =>
    obtain ⟨c, hc, -⟩ := hI.knows_thread (p := p) ht rfl
    exact .inr (.inr ⟨.go, _, _, by simp only [Thread.step, AcceptPc.step, hc]; rfl⟩)
  | recv p =>
    obtain ⟨c, hc, -⟩ := hI.knows_thread (p := p) ht rfl
    exact .inr (.inr ⟨.result true, _, _, by simp only [Thread.step, AcceptPc.step, hc]; rfl⟩)

/-- A thread of the pool can go on, unless it has returned or waits for a packet. -/
theorem Inv.pool_enabled (hI : Inv s) {pc : PoolPc} (ht : .pool pc ∈ s.threads) :
    pc = .finished ∨ (pc = .getStatus ∧ s.shared.port = []) ∨
      ∃ x a t', Thread.step s.shared (.pool pc) x = some (a, t') := by
  have hmap : ∀ {y : Option (Act × PoolPc)}, y.isSome = true →
      ∃ a t', y.map (fun x => (x.1, Thread.pool x.2)) = some (a, t') := by
    intro y hy
    obtain ⟨z, rfl⟩ := Option.isSome_iff_exists.mp hy
    exact ⟨_, _, rfl⟩
  cases pc with
  | finished => exact .inl rfl
  | loop => exact .inr (.inr ⟨.go, _, _, rfl⟩)
  | remove key q => exact .inr (.inr ⟨.go, _, _, rfl⟩)
  | getStatus =>
    cases hport : s.shared.port with
    | nil => exact .inr (.inl ⟨rfl, rfl⟩)
    | cons packet port =>
      refine .inr (.inr ⟨.go, hmap ?_⟩)
      simp only [PoolPc.step, hport]
      split
      · rfl
      · split
        · rfl
        · split <;> rfl
  | lookup key n q =>
    refine .inr (.inr ⟨.go, hmap ?_⟩)
    simp only [PoolPc.step]
    split <;> rfl
  | handle p n =>
    obtain ⟨c, hc, -⟩ := hI.knows_thread (p := p) ht rfl
    refine .inr (.inr ⟨.go, hmap ?_⟩)
    simp only [PoolPc.step, hc]
    split
    · rfl
    · split <;> rfl
    · rfl
  | send p buf | recv p buf =>
    obtain ⟨c, hc, -⟩ := hI.knows_thread (p := p) ht rfl
    refine .inr (.inr ⟨.result true, hmap ?_⟩)
    simp only [PoolPc.step, hc]
    rfl

/-- When no thread of the server can go on, all have returned. -/
theorem stopped_of_stuck (hI : Inv s) (hE : Enough threadPoolSize s) (hstopped : s.shared.stopped = true)
    (hstuck : ∀ s', ¬Must s s') : Stopped s ∨ Exhausted s := by
  have hno : ∀ t ∈ s.threads, t ≠ .kernel → (∀ n, t = .stop true n → Joined s) →
      ¬∃ x a t', Thread.step s.shared t x = some (a, t') := by
    rintro t ht hkernel hjoined ⟨x, a, t', hs⟩
    obtain ⟨i, hi⟩ := List.getElem?_of_mem ht
    exact hstuck _ ⟨i, t, t', x, a, hi, hkernel, hjoined, hs, rfl⟩
  by_cases hex : Exhausted s
  · exact .inr hex
  · have hjoined : Joined s := by
      intro pc ht
      rcases hI.accept_enabled ht with hfinished | ⟨rfl, hnone⟩ | hgo
      · exact hfinished
      · exact absurd ⟨ht, hnone⟩ hex
      · exact absurd hgo (hno _ ht Thread.noConfusion fun _ h => Thread.noConfusion h)
    have hstop : ∀ isSet n, .stop isSet n ∈ s.threads → isSet = true ∧ n = 0 := by
      intro isSet n ht
      cases isSet with
      | false => exact absurd ⟨.go, _, _, rfl⟩ (hno _ ht Thread.noConfusion fun _ _ => hjoined)
      | true =>
        cases n with
        | zero => exact ⟨rfl, rfl⟩
        | succ n => exact absurd ⟨.result true, _, _, rfl⟩ (hno _ ht Thread.noConfusion fun _ _ => hjoined)
    have hpool : ∀ pc, .pool pc ∈ s.threads → pc = .finished ∨ pc = .getStatus ∧ s.shared.port = [] := by
      intro pc ht
      rcases hI.pool_enabled ht with hfinished | hempty | hgo
      · exact .inl hfinished
      · exact .inr hempty
      · exact absurd hgo (hno _ ht Thread.noConfusion fun _ h => Thread.noConfusion h)
    have hposted : s.weight Thread.toPost = 0 := by
      by_contra hpos
      obtain ⟨t, ht, hpos⟩ := Config.weight_pos.mp (Nat.pos_of_ne_zero hpos)
      cases t with
      | stop isSet n =>
        obtain ⟨rfl, rfl⟩ := hstop isSet n ht
        exact Nat.lt_irrefl 0 hpos
      | accept | pool | kernel => exact Nat.lt_irrefl 0 hpos
    -- A thread that waits finds no packet, so that one of `stop` has not been posted for it.
    have hwaiting : s.weight Thread.waits ≤ s.shared.unposted := by
      by_cases hnone : s.weight Thread.waits = 0
      · rw [hnone]
        exact Nat.zero_le _
      · obtain ⟨t, ht, hpos⟩ := Config.weight_pos.mp (Nat.pos_of_ne_zero hnone)
        cases t with
        | pool pc =>
          rcases hpool pc ht with rfl | ⟨rfl, hempty⟩
          · exact absurd hpos (Nat.lt_irrefl 0)
          · have hawake := hE.awake hstopped
            rw [wakeups, hempty, hposted, List.countP_nil] at hawake
            omega
        | accept | kernel | stop => exact absurd hpos (Nat.lt_irrefl 0)
    refine .inl ⟨hjoined, fun pc ht => ?_, hwaiting, hstop⟩
    rcases hpool pc ht with hfinished | ⟨rfl, -⟩
    · exact .inl hfinished
    · have hone : 1 ≤ s.weight Thread.waits := Config.le_weight (f := Thread.waits) ht
      exact .inr ⟨rfl, by omega⟩

end Rest

/-- When `stop` has been called, all threads of the server return, whatever the clients do and whichever of the packets
    come first. Two things may keep them: the accepting thread finds no free id, or packets of `stop` cannot be posted,
    each of which one thread of the pool may wait for. -/
theorem stop_returns (threadPoolSize : Nat) (s : Config Shared Thread)
    (h : Reach machine (stopping threadPoolSize) (start threadPoolSize) s) (hs : s.shared.stopped = true) :
    Inevitable Must Goes (fun s => Stopped s ∨ Exhausted s) s := by
  refine Inevitable.of_measure
    (I := fun s => Reach machine (stopping threadPoolSize) (start threadPoolSize) s ∧ s.shared.stopped = true)
    rest ?_ ?_ ⟨h, hs⟩
  · rintro s s' ⟨hreach, hstopped⟩ hgo
    have hlt := rest_goes hstopped hgo
    obtain ⟨i, t, t', x, a, hi, hstep, rfl⟩ := hgo
    exact ⟨⟨.run hreach rfl hi hstep trivial, (Thread.step_cases hstep).stopped.1 hstopped⟩, hlt⟩
  · rintro s ⟨hreach, hstopped⟩ hstuck
    exact stopped_of_stuck (reach_inv hreach) (reach_enough hreach) hstopped hstuck

/-- The only thread of the pool waits when `stop` is called. -/
theorem stop_returns_waiting : ∃ s : Config Shared Thread, s.threads[2]? = some (Thread.pool .getStatus) ∧
    Inevitable Must Goes (fun s => Stopped s ∨ Exhausted s) s := by
  have hrun : (machine.exec (fun _ _ _ => true) (fun n => n == 1) (start 1) [.run 2 .go, .enter 1, .run 3 .go]).any
      (fun s => s.shared.stopped && s.threads[2]? == some (Thread.pool .getStatus)) = true := by
    decide +kernel
  have hcall : ∀ n : Nat, (n == 1) = true → (stopping 1).call n := fun n hn => beq_iff_eq.mp hn
  obtain ⟨s, hs, hp⟩ := Reach.exists_of_exec (stopping 1) (fun _ _ _ _ => trivial) hcall hrun
  obtain ⟨hstopped, hwaits⟩ := Bool.and_eq_true_iff.mp hp
  exact ⟨s, beq_iff_eq.mp hwaits, stop_returns 1 s hs hstopped⟩

end Iocp
