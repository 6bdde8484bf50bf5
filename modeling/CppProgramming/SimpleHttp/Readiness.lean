import CppProgramming.SimpleHttp.Queues

/-! # No lost readiness

A thread that makes a connection ready (an event, an error, content for its peer) looks afterwards whether
the connection has to be queued; a worker that is about to clear `isReading` or `isWriting` looks before.
Both look while they hold the mutex, the events happen without it. `Watch` collects what the argument needs
of one reason for being ready: a worker that missed it is followed by a thread that will look again. -/

namespace SimpleHttp
open Interleaving

variable {R : RequestHandler}

/-- The operands of `isReadable | errorCode`. -/
inductive Operand where
  | counter
  | error
  deriving DecidableEq

/-- The operand is still to be read, or was not zero. -/
def EventPc.mayFind (o : Operand) : EventPc → Bool
  | .start => true
  | .counter a => o = .error || a ≠ 0
  | .error e => o = .counter || e ≠ 0

/-- `NeedInQueueRead` or `NeedInQueueWrite` has not missed the operand; only the latter asks for content. -/
def CheckPc.mayFind (o : Operand) (d : Side) : CheckPc → Bool
  | .lock => true
  | .event p => p.mayFind o
  | .content => d = .write
  | .test b => b
  | .readWaiting | .writeWaiting | .inQueue | .notify => false

/-- `NeedReInQueueRead` or `NeedReInQueueWrite` has missed the operand. -/
def RecheckPc.missed (o : Operand) (d : Side) : RecheckPc → Bool
  | .event p => !p.mayFind o
  | .content => d = .read
  | .test b => !b
  | .lock | .busy | .inQueue => false

theorem Sees.counter {x : Connection R} {d : Side} {p : EventPc} (h : Sees x d p false)
    (hp : p.mayFind .counter = true) : x.happened d = 0 := by
  cases p with
  | start => exact h.elim
  | counter a =>
    simp only [Sees, bne_eq_false_iff_eq] at h
    exact absurd (BitVec.or_eq_zero_iff.mp h).1 (by simpa [EventPc.mayFind] using hp)
  | error e =>
    simp only [Sees, bne_eq_false_iff_eq] at h
    exact (BitVec.or_eq_zero_iff.mp h).1

theorem ConnectionErrorCode.eq_of_toInt {e : ConnectionErrorCode} (h : e.toInt = 0) : e = .noError := by
  cases e <;> first | rfl | exact absurd h (by decide)

theorem Sees.error {x : Connection R} {d : Side} {p : EventPc} (h : Sees x d p false)
    (hp : p.mayFind .error = true) : x.errorCode = .noError := by
  cases p with
  | start => exact h.elim
  | counter a =>
    simp only [Sees, bne_eq_false_iff_eq] at h
    exact ConnectionErrorCode.eq_of_toInt (BitVec.or_eq_zero_iff.mp h).2
  | error e =>
    simp only [Sees, bne_eq_false_iff_eq] at h
    exact absurd (BitVec.or_eq_zero_iff.mp h).2 (by simpa [EventPc.mayFind] using hp)

/-- A reason for a connection to be ready on a side. It is looked for as one operand, by the calls of
    `NeedInQueueRead` (or `-Write`) that are made for certain causes; `adds` says that content makes it so. -/
structure Watch (R : RequestHandler) where
  side : Side
  conn : ConnId
  operand : Operand
  counts : Cause → Bool
  adds : Bool
  ready : Shared R → Prop

namespace Watch
variable {w : Watch R}

/-- The functions that will still look. -/
def covers (w : Watch R) : Frame R → Nat
  | .check k d c p => if d = w.side ∧ c = w.conn ∧ w.counts k then (p.mayFind w.operand d).toNat else 0
  | .addCache c .getValue => if c = w.conn ∧ w.adds then 1 else 0
  | _ => 0

/-- The functions of a worker that missed it. -/
def misses (w : Watch R) : Frame R → Nat
  | .recheck d c p => if d = w.side ∧ c = w.conn then (p.missed w.operand d).toNat else 0
  | _ => 0

/-- What makes the argument work for a reason. -/
structure Lawful (w : Watch R) : Prop where
  initial : ∀ closed, ¬w.ready { closed }
  crash : ∀ s, w.ready (Act.terminate.apply s) → w.ready s
  counter : w.operand = .counter → ∀ s, (s.conn w.conn).happened w.side = 0 → ¬w.ready s
  error : w.operand = .error → ∀ s, (s.conn w.conn).errorCode = .noError → ¬w.ready s
  content : w.side = .write → ∀ s, s.hasContentToWrite w.conn = false → ¬w.ready s
  adds : w.adds = true → w.side = .write ∧ w.counts .content = true ∧ R.spontaneous = false
  -- The connection becomes ready with a thread that will look, or in `Read()` or `Write()`.
  raise : ∀ {s result f a fs}, FrameStep s result f a fs → w.ready (a.apply s) →
    w.ready s ∨ 0 < (fs.map w.covers).sum ∨ f.part = some (w.side, w.conn)

/-- The flag is set and its worker has missed nothing, or some thread will look. -/
def Kept (w : Watch R) (s : State R) : Prop :=
  w.ready s.shared →
    ((s.shared.conn w.conn).busy w.side = true ∧ s.count w.misses = 0) ∨ 0 < s.count w.covers

theorem inner_misses (w : Watch R) : Inner w.misses :=
  ⟨fun _ => rfl, rfl, fun _ _ => rfl, fun _ _ => rfl, rfl, rfl⟩

theorem misses_le_holds (w : Watch R) (f : Frame R) : w.misses f ≤ f.holds w.side w.conn := by
  cases f with
  | recheck d c p =>
    simp only [misses, Frame.holds]
    split_ifs
    · exact Bool.toNat_le _
    · exact le_refl 0
  | _ => exact Nat.zero_le _

theorem misses_le_locks (w : Watch R) (f : Frame R) : w.misses f ≤ f.locks w.side := by
  cases f with
  | recheck d c p => cases p <;> simp only [misses, Frame.locks, RecheckPc.missed] <;> split_ifs <;> simp_all [Bool.toNat_le]
  | _ => exact Nat.zero_le _

section Step
variable {s : Shared R} {result : Bool} {f : Frame R} {a : Act R} {fs : List (Frame R)}

theorem Lawful.not_ready_of_sees (h : w.Lawful) {p : EventPc} (hs : Sees (s.conn w.conn) w.side p false)
    (hp : p.mayFind w.operand = true) : ¬w.ready s := by
  cases ho : w.operand with
  | counter => exact h.counter ho s (hs.counter (ho ▸ hp))
  | error => exact h.error ho s (hs.error (ho ▸ hp))

theorem Lawful.not_ready_of_counter (h : w.Lawful)
    (hp : (EventPc.counter ((s.conn w.conn).happened w.side)).mayFind w.operand = false) : ¬w.ready s := by
  cases ho : w.operand with
  | counter => exact h.counter ho s (by simpa [EventPc.mayFind, ho] using hp)
  | error => simp [EventPc.mayFind, ho] at hp

theorem Lawful.not_ready_of_error (h : w.Lawful)
    (hp : (EventPc.error (s.conn w.conn).errorCode.toInt).mayFind w.operand = false) : ¬w.ready s := by
  cases ho : w.operand with
  | counter => simp [EventPc.mayFind, ho] at hp
  | error => exact h.error ho s (ConnectionErrorCode.eq_of_toInt (by simpa [EventPc.mayFind, ho] using hp))

theorem Lawful.miss (h : w.Lawful) (hf : FrameStep s result f a fs) (hr : w.ready (a.apply s)) :
    (fs.map w.misses).sum ≤ w.misses f := by
  cases f with
  | recheck d c p =>
    by_cases hdc : d = w.side ∧ c = w.conn
    · obtain ⟨hd, rfl⟩ := hdc
      cases hf with
      | recheckLock => simp [misses, RecheckPc.missed]
      | recheckBusy => simp [misses, RecheckPc.missed, EventPc.mayFind]
      | recheckCounter =>
        subst hd
        cases hp : (EventPc.counter ((s.conn w.conn).happened w.side)).mayFind w.operand with
        | true => simp [misses, RecheckPc.missed, hp]
        | false => exact absurd hr (h.not_ready_of_counter hp)
      | recheckError =>
        cases hp : (EventPc.error (s.conn w.conn).errorCode.toInt).mayFind w.operand with
        | true => simp [misses, RecheckPc.missed, hp]
        | false => exact absurd hr (h.not_ready_of_error hp)
      | @recheckSeen _ p b hs =>
        cases hp : p.mayFind w.operand with
        | true =>
          cases b with
          | true => simp [misses, RecheckPc.missed]
          | false => exact absurd hr (h.not_ready_of_sees (hd ▸ hs) hp)
        | false => simp [misses, RecheckPc.missed, hp, hd, Bool.toNat_le]
      | recheckEvent hs => simp [misses, RecheckPc.missed]
      | @recheckNoEvent _ p hs =>
        cases hp : p.mayFind w.operand with
        | true => exact absurd hr (h.not_ready_of_sees (hd ▸ hs) hp)
        | false => simp [misses, RecheckPc.missed, hp]
      | recheckContent =>
        cases d with
        | read => simp [misses, RecheckPc.missed, hd, Bool.toNat_le]
        | write =>
          cases hc : s.hasContentToWrite w.conn with
          | true => simp [misses, RecheckPc.missed]
          | false => exact absurd hr (h.content hd.symm s hc)
      | recheckAgain => simp [misses, RecheckPc.missed]
      | recheckStop => simp
      | recheckInQueue => simp
    · cases hf <;> simp [misses, hdc]
  | _ => cases hf <;> simp [misses, RecheckPc.missed]

theorem Lawful.look (h : w.Lawful) (hf : FrameStep s result f a fs) (hr : w.ready (a.apply s)) :
    w.covers f ≤ (fs.map w.covers).sum ∨
      w.misses f = 0 ∧ f.locks w.side = 1 ∧ ((a.apply s).conn w.conn).busy w.side = true := by
  cases f with
  | check k d c p =>
    by_cases hdc : d = w.side ∧ c = w.conn ∧ w.counts k = true
    · obtain ⟨hd, rfl, hk⟩ := hdc
      cases hf with
      | checkLock => simp [covers, CheckPc.mayFind, EventPc.mayFind]
      | checkCounter =>
        subst hd
        cases hp : (EventPc.counter ((s.conn w.conn).happened w.side)).mayFind w.operand with
        | true => simp [covers, CheckPc.mayFind, hk, hp, Bool.toNat_le]
        | false => exact absurd hr (h.not_ready_of_counter hp)
      | checkError =>
        cases hp : (EventPc.error (s.conn w.conn).errorCode.toInt).mayFind w.operand with
        | true => simp [covers, CheckPc.mayFind, hk, hd, hp, Bool.toNat_le]
        | false => exact absurd hr (h.not_ready_of_error hp)
      | @checkSeen _ _ p b hs =>
        cases hp : p.mayFind w.operand with
        | true =>
          cases b with
          | true => simp [covers, CheckPc.mayFind, hp]
          | false => exact absurd hr (h.not_ready_of_sees (hd ▸ hs) hp)
        | false => simp [covers, CheckPc.mayFind, hp]
      | checkEvent hs => simp [covers, CheckPc.mayFind, hk, hd, Bool.toNat_le]
      | @checkNoEvent _ _ p hs =>
        cases hp : p.mayFind w.operand with
        | true => exact absurd hr (h.not_ready_of_sees (hd ▸ hs) hp)
        | false => simp [covers, CheckPc.mayFind, hp]
      | checkContent hc => simp [covers, CheckPc.mayFind, hk, hd, Bool.toNat_le]
      | checkNoContent hc =>
        cases d with
        | read => simp [covers, CheckPc.mayFind]
        | write => exact absurd hr (h.content hd.symm s hc)
      | checkRead => simp [covers, CheckPc.mayFind]
      | checkNotRead => simp [covers, CheckPc.mayFind]
      | checkWrite => simp [covers, CheckPc.mayFind]
      | checkEnlist hb => exact Or.inr ⟨rfl, by simp [Frame.locks, hd], by simp [hd]⟩
      | checkUnlock hb =>
        rcases hb with rfl | hb
        · simp [covers, CheckPc.mayFind]
        · exact Or.inr ⟨rfl, by simp [Frame.locks, hd], by simp [← hd, hb]⟩
      | checkInQueue => simp [covers, CheckPc.mayFind]
      | checkNotify => simp [covers, CheckPc.mayFind]
    · exact Or.inl (by simp only [covers, hdc, if_false, Nat.zero_le])
  | addCache c p =>
    cases hf with
    | addContent => exact Or.inl (Nat.zero_le _)
    | addGetValue =>
      by_cases hadds : c = w.conn ∧ w.adds = true
      · obtain ⟨hside, hcounts, -⟩ := h.adds hadds.2
        simp [covers, CheckPc.mayFind, hadds.1, hside, hcounts, hadds.2]
      · exact Or.inl (by simp only [covers, hadds, if_false, Nat.zero_le])
  | _ => exact Or.inl (Nat.zero_le _)

/-- Only a worker that missed it clears the flag. -/
theorem clear (w : Watch R) (hf : FrameStep s result f a fs) (hb : (s.conn w.conn).busy w.side = true) :
    ((a.apply s).conn w.conn).busy w.side = true ∨ 0 < w.misses f := by
  cases a with
  | delist d c =>
    by_cases hdc : d = w.side ∧ c = w.conn
    · cases hf
      exact Or.inr (by simp [misses, RecheckPc.missed, hdc])
    · exact Or.inl (by simp [hdc, hb])
  | enlist d c => exact Or.inl (by simp [hb])
  | _ => exact Or.inl (by rw [Act.apply_busy]; exact hb)

end Step

section Run
variable {rule : Rule (Shared R) (Thread R) (Act R) Call} {closed : Bool} {readers writers : Nat} {s : State R}

/-- While a worker is in `Read()` or `Write()`, no worker has missed anything. -/
theorem misses_of_part (w : Watch R) (hr : Reach (manager R) rule (start R closed readers writers) s)
    {t : Thread R} {f : Frame R} (ht : t ∈ s.threads) (hf : f ∈ t.frames) (hp : f.part = some (w.side, w.conn)) :
    s.count w.misses = 0 := by
  have hmem := companion_part.mem_frames hr t ht f hf _ ⟨w.side, w.conn, hp, rfl⟩
  have hlt := State.count_lt_count w.misses_le_holds ht hmem (by simp [misses, Frame.holds, RecheckPc.missed])
  have hle := holds_le_one hr w.side w.conn
  omega

/-- While a thread that is not a worker is in the section, no worker has missed anything. -/
theorem misses_of_locks (w : Watch R) (hr : Reach (manager R) rule (start R closed readers writers) s)
    {t : Thread R} {f : Frame R} (ht : t ∈ s.threads) (hf : f ∈ t.frames) (hm : w.misses f = 0)
    (hl : f.locks w.side = 1) : s.count w.misses = 0 := by
  have hlt := State.count_lt_count w.misses_le_locks ht hf (by omega)
  have hle := Bool.toNat_le (s.shared.protect w.side)
  rw [← locks_eq hr w.side] at hle
  omega

theorem Lawful.step (h : w.Lawful) (hr : Reach (manager R) rule (start R closed readers writers) s)
    (ih : w.Kept s) {i : Nat} {t : Thread R} {f : Frame R} {rest fs : List (Frame R)} {a : Act R} {v : Bool}
    (hi : s.threads[i]? = some t) (ht : t.frames = f :: rest) (hf : FrameStep s.shared t.result f a fs) :
    w.Kept ⟨a.apply s.shared, s.threads.set i ⟨fs ++ rest, v⟩⟩ := by
  intro hready
  have hmem := List.mem_of_getElem? hi
  have hhead : f ∈ t.frames := ht ▸ List.mem_cons_self
  have hmisses := State.count_frame w.misses (a.apply s.shared) fs v hi ht
  have hcovers := State.count_frame w.covers (a.apply s.shared) fs v hi ht
  have hle := State.le_count (w := w.covers) hmem hhead
  have hmiss := h.miss hf hready
  -- With the flag set and nothing missed before the step, both are so after it.
  have hkeep : (s.shared.conn w.conn).busy w.side = true → s.count w.misses = 0 →
      ((a.apply s.shared).conn w.conn).busy w.side = true ∧
        State.count ⟨a.apply s.shared, s.threads.set i ⟨fs ++ rest, v⟩⟩ w.misses = 0 := by
    intro hbusy hzero
    have hm := State.le_count (w := w.misses) hmem hhead
    refine ⟨(w.clear hf hbusy).resolve_right (by omega), by omega⟩
  rcases h.raise hf hready with hbefore | hcover | hpart
  · rcases ih hbefore with ⟨hbusy, hzero⟩ | hpos
    · exact Or.inl (hkeep hbusy hzero)
    · rcases h.look hf hready with hc | ⟨hm, hl, hbusy⟩
      · exact Or.inr (by omega)
      · have hzero := w.misses_of_locks hr hmem hhead hm hl
        exact Or.inl ⟨hbusy, by omega⟩
  · exact Or.inr (by omega)
  · exact Or.inl (hkeep (busy_of_part hr hmem hhead hpart) (w.misses_of_part hr hmem hhead hpart))

/-- A connection that is ready is queued, held by a worker that will test it again, or looked at. -/
theorem Lawful.kept (h : w.Lawful) (hr : Reach (manager R) rule (start R closed readers writers) s) :
    w.Kept s := by
  induction hr with
  | start => exact fun hready => absurd hready (h.initial closed)
  | @run s i x t t' a hr hh hi hs hok ih =>
    cases Thread.step_cases hs with
    | frame ht hf => exact h.step hr ih hi ht hf
    | crash =>
      obtain ⟨hlt, rfl⟩ := List.getElem?_eq_some_iff.mp hi
      rw [List.set_getElem_self hlt]
      exact fun hready => ih (h.crash _ hready)
    | @caught c' v ht =>
      intro hready
      have hno : w.covers (.addCache c' .getValue) + w.covers .foreign = 0 := by
        by_cases hadds : w.adds = true
        · obtain ⟨-, -, hR⟩ := h.adds hadds
          exact (not_caught hR hr hi ht).elim
        · simp [covers, hadds]
      have hcovers := State.count_caught w.covers (x := s.shared) (v := v) hi ht
      have hmisses := w.inner_misses.count_caught (x := s.shared) (v := v) hi ht
      rcases ih hready with ⟨hbusy, hzero⟩ | hpos
      · exact Or.inl ⟨hbusy, by rw [← hzero]; exact hmisses⟩
      · exact Or.inr (by show 0 < State.count ⟨s.shared, _⟩ _; omega)
  | @enter s k t hr hk hok ih =>
    intro hready
    rcases ih hready with ⟨hbusy, hzero⟩ | hpos
    · exact Or.inl ⟨hbusy, by rw [w.inner_misses.count_enter s hk, hzero]⟩
    · exact Or.inr (by rw [State.count_enter]; omega)

end Run
end Watch


/-! ### Read readiness -/

/-- `isReadable` is not zero. -/
def readable (R : RequestHandler) (c : ConnId) : Watch R where
  side := .read
  conn := c
  operand := .counter
  counts _ := true
  adds := false
  ready s := (s.conn c).happened .read ≠ 0

/-- `errorCode` is set. -/
def failed (R : RequestHandler) (c : ConnId) : Watch R where
  side := .read
  conn := c
  operand := .error
  counts _ := true
  adds := false
  ready s := (s.conn c).errorCode ≠ .noError

section Raise
variable {s : Shared R} {result : Bool} {f : Frame R} {a : Act R} {fs : List (Frame R)}

/-- A counter becomes nonzero by an event, or by `isReadable--` in `Read()`. -/
theorem happened_raise (h : FrameStep s result f a fs) {d : Side} {c : ConnId}
    (hr : ((a.apply s).conn c).happened d ≠ 0) :
    (s.conn c).happened d ≠ 0 ∨ fs = [.check .event d c .lock] ∨ f.part = some (d, c) := by
  cases a with
  | happen d' c' =>
    by_cases hdc : d' = d ∧ c' = c
    · obtain ⟨rfl, rfl⟩ := hdc
      cases h <;> exact Or.inr (Or.inl rfl)
    · exact Or.inl (by simpa [hdc] using hr)
  | take d' c' =>
    by_cases hdc : d' = d ∧ c' = c
    · obtain ⟨rfl, rfl⟩ := hdc
      cases h <;> exact Or.inr (Or.inr rfl)
    · exact Or.inl (by simpa [hdc] using hr)
  | _ => exact Or.inl (by rw [Act.apply_happened] at hr; exact hr)

theorem errorCode_raise (h : FrameStep s result f a fs) {c : ConnId} (hr : ((a.apply s).conn c).errorCode ≠ .noError) :
    (s.conn c).errorCode ≠ .noError ∨ .check .error .read c .lock ∈ fs := by
  cases a with
  | setError c' e =>
    by_cases hc : c' = c
    · subst hc
      cases h <;> exact Or.inr (by simp)
    · exact Or.inl (by simpa [hc] using hr)
  | _ => exact Or.inl (by rw [Act.apply_errorCode] at hr; exact hr)

end Raise

theorem readable_lawful (R : RequestHandler) (c : ConnId) : (readable R c).Lawful where
  initial closed h := h rfl
  crash s h := h
  counter _ s h hr := hr h
  error h := by cases h
  content h := by cases h
  adds h := by cases h
  raise h hr := by
    rcases happened_raise h hr with hr | rfl | hp
    · exact Or.inl hr
    · exact Or.inr (Or.inl (by simp [Watch.covers, readable, CheckPc.mayFind]))
    · exact Or.inr (Or.inr hp)

theorem failed_lawful (R : RequestHandler) (c : ConnId) : (failed R c).Lawful where
  initial closed h := h rfl
  crash s h := h
  counter h := by cases h
  error _ s h hr := hr h
  content h := by cases h
  adds h := by cases h
  raise h hr := by
    rcases errorCode_raise h hr with hr | hmem
    · exact Or.inl hr
    · refine Or.inr (Or.inl ?_)
      have := List.single_le_sum (fun _ _ => Nat.zero_le _) _ (List.mem_map_of_mem (f := (failed R c).covers) hmem)
      exact Nat.lt_of_lt_of_le (by simp [Watch.covers, failed, CheckPc.mayFind]) this

/-- `NeedInQueueRead` or `NeedInQueueWrite` has not returned. -/
def CheckPc.undecided : CheckPc → Bool
  | .inQueue | .notify => false
  | _ => true

theorem CheckPc.undecided_of_mayFind {o : Operand} {d : Side} {p : CheckPc} (h : p.mayFind o d = true) :
    p.undecided = true := by
  cases p <;> first | rfl | exact h

/-- A function that will still look is a `NeedInQueueRead` that has not returned, or `AddToWriteCache` before
    it. -/
theorem Watch.of_covers {w : Watch R} {f : Frame R} (h : 0 < w.covers f) :
    (∃ k p, f = .check k w.side w.conn p ∧ w.counts k = true ∧ p.undecided = true) ∨
      (w.adds = true ∧ f = .addCache w.conn .getValue) := by
  unfold Watch.covers at h
  split at h
  · next k d c p =>
    split at h
    · next hdc =>
      obtain ⟨rfl, rfl, hk⟩ := hdc
      cases hp : p.mayFind w.operand w.side with
      | true => exact Or.inl ⟨k, p, rfl, hk, CheckPc.undecided_of_mayFind hp⟩
      | false => simp [hp] at h
    · exact absurd h (Nat.lt_irrefl 0)
  · next c =>
    split at h
    · next hc =>
      obtain ⟨rfl, hadds⟩ := hc
      exact Or.inr ⟨hadds, rfl⟩
    · exact absurd h (Nat.lt_irrefl 0)
  · exact absurd h (Nat.lt_irrefl 0)

/-- A thread has called `SetReadable`, `SetError` or `SetToClose` for `c`, and its `NeedInQueueRead` has not
    returned. -/
def Checking (s : State R) (c : ConnId) : Prop :=
  ∃ t ∈ s.threads, ∃ k p, .check k .read c p ∈ t.frames ∧ p.undecided = true

theorem checking_of_covers {s : State R} {w : Watch R} (hside : w.side = .read) (hadds : w.adds = false)
    (h : 0 < s.count w.covers) : Checking s w.conn := by
  obtain ⟨t, ht, f, hf, hpos⟩ := State.count_pos.mp h
  rcases Watch.of_covers hpos with ⟨k, p, rfl, -, hp⟩ | ⟨hno, -⟩
  · rw [hside] at hf
    exact ⟨t, ht, k, p, hf, hp⟩
  · exact absurd hno (by simp [hadds])

/-- A connection with its flag set is queued, held by a worker or about to be queued. -/
theorem queued_of_busy {rule : Rule (Shared R) (Thread R) (Act R) Call} {closed : Bool} {readers writers : Nat}
    {s : State R} (h : Reach (manager R) rule (start R closed readers writers) s) {d : Side} {c : ConnId}
    (hb : (s.shared.conn c).busy d = true) :
    c ∈ s.shared.queue d ∨ 0 < s.count (Frame.holds d c) ∨ 0 < s.count (Frame.enlists d c) := by
  have hticket := ticket_eq h d c
  rw [hb, count_ticket, Bool.toNat_true] at hticket
  by_cases hq : c ∈ s.shared.queue d
  · exact Or.inl hq
  · rw [List.count_eq_zero_of_not_mem hq] at hticket
    exact Or.inr (by omega)

/-- No read readiness is lost: a connection with a read event or an error is queued, about to be queued or held
    by a worker, or the thread that made it ready will still look. -/
theorem read_readiness (closed : Bool) (readers writers : Nat) (s : State R)
    (h : Reachable R closed readers writers s) (c : ConnId)
    (hready : (s.shared.conn c).happened .read ≠ 0 ∨ (s.shared.conn c).errorCode ≠ .noError) :
    ((s.shared.conn c).busy .read = true ∧
      (c ∈ s.shared.queue .read ∨ 0 < s.count (Frame.holds .read c) ∨ 0 < s.count (Frame.enlists .read c))) ∨
    Checking s c := by
  rcases hready with hready | hready
  · rcases (readable_lawful R c).kept h hready with ⟨hbusy, -⟩ | hpos
    · exact Or.inl ⟨hbusy, queued_of_busy h hbusy⟩
    · exact Or.inr (checking_of_covers (w := readable R c) rfl rfl hpos)
  · rcases (failed_lawful R c).kept h hready with ⟨hbusy, -⟩ | hpos
    · exact Or.inl ⟨hbusy, queued_of_busy h hbusy⟩
    · exact Or.inr (checking_of_covers (w := failed R c) rfl rfl hpos)

/-- A thread that has called `SetReadable` and waits for `protectIsReading`. -/
theorem read_readiness_reported : ∃ s : State httpRequestHandler, Reachable httpRequestHandler false 1 1 s ∧
    (s.shared.conn 1).happened .read ≠ 0 ∧ (s.shared.conn 1).busy .read = false ∧ Checking s 1 := by
  have hrun : ((manager httpRequestHandler).exec (fun _ _ _ => true) (fun _ => true)
      (start httpRequestHandler false 1 1)
      [.enter .newConnection, .run 2 .go, .enter (.report .canRead 1), .run 3 .go, .run 3 .go]).any
      (fun s => (s.shared.conn 1).happened .read ≠ 0 ∧ (s.shared.conn 1).busy .read = false) = true := by decide
  obtain ⟨s, hs, hp⟩ := Reach.exists_of_exec Rule.any (fun _ _ _ _ => trivial) (fun _ _ => trivial) hrun
  obtain ⟨hready, hbusy⟩ := of_decide_eq_true hp
  refine ⟨s, hs, hready, hbusy, ?_⟩
  rcases read_readiness false 1 1 s hs 1 (Or.inl hready) with ⟨hno, -⟩ | hcheck
  · rw [hbusy] at hno
    cases hno
  · exact hcheck

end SimpleHttp
