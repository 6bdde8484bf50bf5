import CppProgramming.Lib.CondVar

/-! # EventNotifier

`Set` and `Wait` of `EventNotifier`, one mutex or condition variable operation at a time. `Set` notifies after it has
unlocked the mutex. A blocked thread may wake up for no reason, and `notify_one` wakes at least one blocked thread if
there is one. Here the threads call `Set` and `Wait` in any order; who calls them when is a matter of the programs. -/

/-- The members of an `EventNotifier`; `m` is whether the mutex is locked. -/
structure EventNotifier where
  signaled : Bool := false
  m : Bool := false
  cv : CondVar := .init
  deriving DecidableEq, Repr

namespace EventNotifier
open Interleaving

/-- Where a thread is in `Set`: the operation that it does next. -/
inductive SetPc where
  | lock
  | signal
  | unlock
  | notifyOne
  deriving DecidableEq, Repr

/-- Where a thread is in `Wait`. -/
inductive WaitPc where
  | lock
  | predicate
  | block
  | waiting (ticket : Nat)
  | relock
  | clear
  | unlock
  deriving DecidableEq, Repr

/-- What an operation does to the members. -/
inductive Act where
  | look
  | lock
  | unlock
  | signal
  | clear
  | block
  | wake (ticket : Nat)
  | notify (tickets : List Nat)
  deriving DecidableEq, Repr

/-- The notifier after the action. -/
def Act.apply : Act → EventNotifier → EventNotifier
  | .look, n => n
  | .lock, n => { n with m := true }
  | .unlock, n => { n with m := false }
  | .signal, n => { n with signaled := true }
  | .clear, n => { n with signaled := false }
  | .block, n => { n with m := false, cv := n.cv.block }
  | .wake k, n => { n with cv := n.cv.wake k }
  | .notify ks, n => { n with cv := n.cv.notify ks }

/-- What an operation gets from outside: nothing, that it wakes up for no reason, or whom it notifies. -/
inductive Choice where
  | go
  | spurious
  | notify (tickets : List Nat)
  deriving DecidableEq, Repr

/-- The next operation of a thread in `Set`, and where it is then; `none` when the call has returned. -/
def SetPc.step (n : EventNotifier) : SetPc → Choice → Option (Act × Option SetPc)
  | .lock, .go => if n.m then none else some (.lock, some .signal)
  | .signal, .go => some (.signal, some .unlock)
  | .unlock, .go => some (.unlock, some .notifyOne)
  | .notifyOne, .notify ks => if n.cv.notifiesOne ks then some (.notify ks, none) else none
  | _, _ => none

/-- The next operation of a thread in `Wait`. -/
def WaitPc.step (n : EventNotifier) : WaitPc → Choice → Option (Act × Option WaitPc)
  | .lock, .go => if n.m then none else some (.lock, some .predicate)
  | .predicate, .go => some (.look, some (if n.signaled then .clear else .block))
  | .block, .go => some (.block, some (.waiting n.cv.ticket))
  | .waiting k, .go => if k ∈ n.cv.waiting then none else some (.wake k, some .relock)
  | .waiting k, .spurious => some (.wake k, some .relock)
  | .relock, .go => if n.m then none else some (.lock, some .predicate)
  | .clear, .go => some (.clear, some .unlock)
  | .unlock, .go => some (.unlock, none)
  | _, _ => none

/-! ### Callers -/

/-- Where a thread is. -/
inductive Pc where
  | outside
  | set (p : SetPc)
  | wait (p : WaitPc)
  deriving DecidableEq, Repr

/-- A caller in `Set`. -/
def Pc.ofSet : Option SetPc → Pc
  | none => .outside
  | some p => .set p

/-- A caller in `Wait`. -/
def Pc.ofWait : Option WaitPc → Pc
  | none => .outside
  | some p => .wait p

/-- What a thread outside does, or what an operation gets from outside. -/
inductive Call where
  | set
  | wait
  | step (x : Choice)
  deriving DecidableEq, Repr

/-- A step of a thread, inside one of the functions or outside. -/
def Pc.step (n : EventNotifier) : Pc → Call → Option (Act × Pc)
  | .outside, .set => some (.look, .set .lock)
  | .outside, .wait => some (.look, .wait .lock)
  | .set p, .step x => (p.step n x).map fun r => (r.1, .ofSet r.2)
  | .wait p, .step x => (p.step n x).map fun r => (r.1, .ofWait r.2)
  | _, _ => none

/-- An `EventNotifier` with any callers. -/
def callers : Machine EventNotifier Pc Call Act Unit where
  step := Pc.step
  apply := Act.apply
  enter _ := some .outside
  halted _ := false

/-- The notifier and its callers. -/
abbrev State := Config EventNotifier Pc

/-- The states of all runs. -/
def Reachable (s : State) : Prop := Reach callers Rule.any ⟨{}, []⟩ s

theorem reachable_replicate (k : Nat) : Reachable ⟨{}, List.replicate k .outside⟩ := by
  induction k with
  | zero => exact .start
  | succ k ih =>
    rw [List.replicate_succ']
    exact .enter (k := ()) ih rfl trivial

/-! ### Steps -/

/-- What a thread may do, with what it found. -/
inductive Step (n : EventNotifier) : Pc → Act → Pc → Prop
  | set : Step n .outside .look (.set .lock)
  | wait : Step n .outside .look (.wait .lock)
  | setLock : n.m = false → Step n (.set .lock) .lock (.set .signal)
  | signal : Step n (.set .signal) .signal (.set .unlock)
  | setUnlock : Step n (.set .unlock) .unlock (.set .notifyOne)
  | notifyOne {ks : List Nat} : n.cv.notifiesOne ks = true → Step n (.set .notifyOne) (.notify ks) .outside
  | waitLock : n.m = false → Step n (.wait .lock) .lock (.wait .predicate)
  | ready : n.signaled = true → Step n (.wait .predicate) .look (.wait .clear)
  | unready : n.signaled = false → Step n (.wait .predicate) .look (.wait .block)
  | block : Step n (.wait .block) .block (.wait (.waiting n.cv.ticket))
  | wake {k : Nat} : Step n (.wait (.waiting k)) (.wake k) (.wait .relock)
  | relock : n.m = false → Step n (.wait .relock) .lock (.wait .predicate)
  | clear : Step n (.wait .clear) .clear (.wait .unlock)
  | waitUnlock : Step n (.wait .unlock) .unlock .outside

section Inversion
variable {n : EventNotifier} {x : Choice} {a : Act}

theorem SetPc.step_cases {p : SetPc} {p' : Option SetPc} (h : p.step n x = some (a, p')) :
    Step n (.set p) a (.ofSet p') := by
  unfold SetPc.step at h
  split at h
  · split at h <;> cases h
    exact .setLock (by simp_all)
  · cases h
    exact .signal
  · cases h
    exact .setUnlock
  · split at h <;> cases h
    exact .notifyOne ‹_›
  · cases h

theorem WaitPc.step_cases {p : WaitPc} {p' : Option WaitPc} (h : p.step n x = some (a, p')) :
    Step n (.wait p) a (.ofWait p') := by
  unfold WaitPc.step at h
  split at h
  · split at h <;> cases h
    exact .waitLock (by simp_all)
  · cases h
    split
    · exact .ready ‹_›
    · exact .unready (by simp_all)
  · cases h
    exact .block
  · split at h <;> cases h
    exact .wake
  · cases h
    exact .wake
  · split at h <;> cases h
    exact .relock (by simp_all)
  · cases h
    exact .clear
  · cases h
    exact .waitUnlock
  · cases h

theorem Pc.step_cases {p p' : Pc} {x : Call} (h : p.step n x = some (a, p')) : Step n p a p' := by
  unfold Pc.step at h
  split at h
  · cases h
    exact .set
  · cases h
    exact .wait
  · obtain ⟨⟨a, p'⟩, hp, heq⟩ := Option.map_eq_some_iff.mp h
    cases heq
    exact SetPc.step_cases hp
  · obtain ⟨⟨a, p'⟩, hp, heq⟩ := Option.map_eq_some_iff.mp h
    cases heq
    exact WaitPc.step_cases hp
  · cases h

theorem Step.exists_step {p p' : Pc} (h : Step n p a p') : ∃ x, p.step n x = some (a, p') := by
  cases h with
  | set => exact ⟨.set, rfl⟩
  | wait => exact ⟨.wait, rfl⟩
  | @notifyOne ks hks => exact ⟨.step (.notify ks), by simp [Pc.step, SetPc.step, hks, Pc.ofSet]⟩
  | wake => exact ⟨.step .spurious, rfl⟩
  | setLock hm | waitLock hm | relock hm =>
    exact ⟨.step .go, by simp [Pc.step, SetPc.step, WaitPc.step, hm, Pc.ofSet, Pc.ofWait]⟩
  | ready hsig | unready hsig => exact ⟨.step .go, by simp [Pc.step, WaitPc.step, hsig, Pc.ofWait]⟩
  | _ => exact ⟨.step .go, rfl⟩

end Inversion

/-! ### Places -/

/-- The thread holds the mutex. -/
def Pc.holds : Pc → Nat
  | .set .signal | .set .unlock | .wait .predicate | .wait .block | .wait .clear | .wait .unlock => 1
  | _ => 0

/-- The thread has seen no signal and is about to block. -/
def Pc.blocks : Pc → Nat
  | .wait .block => 1
  | _ => 0

/-- The ticket of a thread inside the wait. -/
def Pc.ticket : Pc → Option Nat
  | .wait (.waiting k) => some k
  | _ => none

/-- The thread takes the signal or notifies another one. A thread inside the wait counts too; the tickets on the list
    are subtracted again. -/
def Pc.covers : Pc → Nat
  | .set .unlock | .set .notifyOne | .wait .predicate | .wait (.waiting _) | .wait .relock | .wait .clear => 1
  | _ => 0

theorem Pc.blocks_le_holds (p : Pc) : p.blocks ≤ p.holds := by
  unfold Pc.blocks Pc.holds
  split <;> simp

theorem Pc.ticket_le_covers (p : Pc) : p.ticket.toList.length ≤ p.covers := by
  unfold Pc.ticket Pc.covers
  split <;> simp

/-! ### Runs -/

/-- The mutex is locked by the one thread that holds it. -/
def Locked (s : State) : Prop := s.weight Pc.holds = s.shared.m.toNat

/-- The tickets are those of the threads inside the wait. -/
def Tracked (s : State) : Prop := s.shared.cv.Tracks (s.gather Pc.ticket)

/-- A signal is covered, with `n` blocked threads, `b` threads about to block and `c` threads that take the signal or
    notify (with the blocked ones). -/
def Covered (signaled : Bool) (n b c : Nat) : Prop := signaled = true → b = 0 ∧ (n = 0 ∨ n < c)

/-- While there is a signal and a thread is blocked, another thread takes the signal or notifies; and nobody is about
    to block. -/
def SignalCovered (s : State) : Prop :=
  Covered s.shared.signaled s.shared.cv.waiting.length (s.weight Pc.blocks) (s.weight Pc.covers)

/-- What holds in every state that is reached. -/
structure Guarded (s : State) : Prop where
  locked : Locked s
  tracked : Tracked s
  signal : SignalCovered s

section Run
variable {s : State} {i : Nat} {t t' : Pc} {a : Act}

theorem locked_step (h : Locked s) (hi : s.threads[i]? = some t) (hs : Step s.shared t a t') :
    Locked ⟨a.apply s.shared, s.threads.set i t'⟩ := by
  have hw := Config.weight_run Pc.holds (a.apply s.shared) t' hi
  have hle := Config.le_weight (f := Pc.holds) (List.mem_of_getElem? hi)
  have hm := Bool.toNat_le s.shared.m
  unfold Locked at h ⊢
  cases hs with
  | setLock hfree | waitLock hfree | relock hfree =>
    simp only [Pc.holds, Act.apply, hfree, Bool.toNat_false, Bool.toNat_true] at *
    omega
  | _ =>
    simp only [Pc.holds, Act.apply, Bool.toNat_false] at *
    omega

theorem tracked_step (h : Tracked s) (hi : s.threads[i]? = some t) (hs : Step s.shared t a t') :
    Tracked ⟨a.apply s.shared, s.threads.set i t'⟩ := by
  have hg := Config.gather_run Pc.ticket (a.apply s.shared) t' hi
  unfold Tracked at h ⊢
  cases hs with
  | block => exact (CondVar.Tracks.block h).perm hg.symm
  | wake => exact (h.perm hg.symm).wake
  | notifyOne => exact (h.perm hg.symm).notify _
  | _ => exact h.perm hg.symm

/-- The threads inside the wait, and with them the blocked ones, count in `covers`. -/
theorem waiting_le (h : Tracked s) : s.shared.cv.waiting.length ≤ s.weight Pc.covers :=
  calc s.shared.cv.waiting.length
    _ ≤ (s.gather Pc.ticket).length := h.waiting_length_le
    _ = s.weight (fun t => t.ticket.toList.length) := Config.length_gather ..
    _ ≤ s.weight Pc.covers := Config.weight_le_weight Pc.ticket_le_covers

/-- Nobody is about to block while `signaled` is set: both hold the mutex. -/
theorem Locked.noneBlocks (h : Locked s) (ht : Pc.set .signal ∈ s.threads) : s.weight Pc.blocks = 0 := by
  have hlt := Config.weight_lt_weight Pc.blocks_le_holds ht Nat.zero_lt_one
  have hm := Bool.toNat_le s.shared.m
  unfold Locked at h
  omega

/-- An operation keeps the signal covered; the numbers change by what the moving thread contributes. -/
theorem Step.covered {n : EventNotifier} {b b' c c' : Nat} (hs : Step n t a t')
    (h : Covered n.signaled n.cv.waiting.length b c) (hb : b' + t.blocks = b + t'.blocks)
    (hc : c' + t.covers = c + t'.covers) (hle : n.cv.waiting.length ≤ c)
    (hset : t = .set .signal → b = 0) (hblock : t.blocks ≤ b) :
    Covered (a.apply n).signaled (a.apply n).cv.waiting.length b' c' := by
  intro hsig
  cases hs with
  | signal =>
    have hzero := hset rfl
    simp only [Pc.blocks, Pc.covers, Act.apply] at *
    omega
  | clear => cases hsig
  | unready hfalse => simp [Act.apply, hfalse] at hsig
  | block =>
    -- a thread that is about to block has seen no signal, and there is none yet
    have hzero := (h hsig).1
    simp only [Pc.blocks] at hblock
    omega
  | @wake k =>
    have hcov := h hsig
    have hlen := CondVar.wake_length_le (c := n.cv) (k := k)
    simp only [Pc.blocks, Pc.covers, Act.apply] at *
    omega
  | @notifyOne ks hks =>
    have hcov := h hsig
    simp only [Pc.blocks, Pc.covers, Act.apply] at *
    by_cases hne : n.cv.waiting = []
    · have hnil : (n.cv.notify ks).waiting.length = 0 := by simp [CondVar.notify, hne]
      omega
    · have hlt := CondVar.notify_length_lt hks hne
      omega
  | _ =>
    have hcov := h hsig
    simp only [Pc.blocks, Pc.covers, Act.apply] at *
    omega

theorem signalCovered_step (h : Guarded s) (hi : s.threads[i]? = some t) (hs : Step s.shared t a t') :
    SignalCovered ⟨a.apply s.shared, s.threads.set i t'⟩ := by
  have hb := Config.weight_run Pc.blocks (a.apply s.shared) t' hi
  have hc := Config.weight_run Pc.covers (a.apply s.shared) t' hi
  have ht := List.mem_of_getElem? hi
  refine hs.covered h.signal hb hc (waiting_le h.tracked) ?_ (Config.le_weight (f := Pc.blocks) ht)
  rintro rfl
  exact h.locked.noneBlocks ht

theorem Guarded.run (h : Guarded s) (hi : s.threads[i]? = some t) (hs : Step s.shared t a t') :
    Guarded ⟨a.apply s.shared, s.threads.set i t'⟩ :=
  ⟨locked_step h.locked hi hs, tracked_step h.tracked hi hs, signalCovered_step h hi hs⟩

theorem Guarded.enter (h : Guarded s) : Guarded ⟨s.shared, s.threads ++ [Pc.outside]⟩ := by
  refine ⟨(Config.weight_enter Pc.holds s .outside).trans h.locked, ?_, ?_⟩
  · unfold Tracked
    rw [Config.gather_enter]
    exact h.tracked.perm (List.append_nil _ ▸ List.Perm.refl _)
  · unfold SignalCovered
    rw [Config.weight_enter, Config.weight_enter]
    exact h.signal

theorem guarded (h : Reachable s) : Guarded s := by
  induction h with
  | start => exact ⟨rfl, CondVar.init_tracks, fun hsig => by cases hsig⟩
  | run _ _ hi hs _ ih => exact ih.run hi (Pc.step_cases hs)
  | enter _ hk _ ih =>
    cases hk
    exact ih.enter

/-- The thread is blocked in `Wait` and has not been notified. -/
def Pc.Blocked (n : EventNotifier) (p : Pc) : Prop := ∃ k ∈ n.cv.waiting, p = .wait (.waiting k)

/-- While there is a signal and a thread is blocked, a thread that is not blocked takes the signal or notifies. -/
theorem exists_covers (h : Reachable s) (hsig : s.shared.signaled = true)
    (hblocked : ∃ p ∈ s.threads, p.Blocked s.shared) : ∃ p ∈ s.threads, 0 < p.covers ∧ ¬p.Blocked s.shared := by
  have hg := guarded h
  by_contra hno
  -- every thread that counts is a blocked one, and each blocked one has its own ticket on the list
  have hall : ∀ p ∈ s.threads, 0 < p.covers → p.Blocked s.shared := by
    intro p hp hpos
    by_contra hb
    exact hno ⟨p, hp, hpos, hb⟩
  have hcount : ∀ p ∈ s.threads, p.covers ≤ p.ticket.toList.length := by
    intro p hp
    rcases Nat.eq_zero_or_pos p.covers with hzero | hpos
    · exact hzero.le.trans (Nat.zero_le _)
    · obtain ⟨k, -, rfl⟩ := hall p hp hpos
      exact le_refl _
  have hsub : s.gather Pc.ticket ⊆ s.shared.cv.waiting := by
    intro k hk
    obtain ⟨p, hp, hpk⟩ := List.mem_filterMap.mp hk
    have hpos : 0 < p.covers := by
      have hle := p.ticket_le_covers
      rw [hpk] at hle
      exact hle
    obtain ⟨k', hk', rfl⟩ := hall p hp hpos
    cases hpk
    exact hk'
  have hcovers : s.weight Pc.covers ≤ (s.gather Pc.ticket).length := by
    rw [Config.length_gather]
    exact List.sum_le_sum hcount
  have hle := hg.tracked.length_le_waiting hsub
  obtain ⟨p, -, k, hk, -⟩ := hblocked
  have hlen := List.length_pos_of_mem hk
  obtain hzero | hlt := (hg.signal hsig).2 <;> omega

end Run

end EventNotifier
