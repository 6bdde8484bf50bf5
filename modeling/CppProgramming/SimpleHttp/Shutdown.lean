import CppProgramming.SimpleHttp.WorkerPool

/-! # Shutdown

`Close` signals each notifier once. A worker that takes the signal finds `closed` set, leaves and signals again, so
from then on there is a signal, or a thread that is about to give one. -/

namespace SimpleHttp.Pool
open Interleaving

/-- The thread is a worker of `d` at the test of `closed`, or `Close` that has not called `Set` for `d` yet. -/
def Thread.leaves (d : Side) : Thread → Nat
  | .worker e .running => if e = d then 1 else 0
  | .closer (.notify .write _) => if d = .read then 1 else 0
  | _ => 0

/-- The thread passes the end on to the workers of `d`. -/
def carries (d : Side) : Thread → Nat := counts (Thread.leaves d) d

section Step
variable {s : Shared} {t t' : Thread} {a : Act} {d : Side}

/-- Once `closed` is set, a step loses no signal. -/
theorem Step.keeps_carries (h : Step s t a t') (hclosed : s.closed = true) : Keeps (carries d) d s t a t' := by
  cases h with
  | goOn hopen | next hopen | close hopen =>
    rw [hclosed] at hopen
    cases hopen
  | @stop e =>
    refine keeps_of_le rfl ?_
    by_cases he : e = d <;> simp [counts, Thread.place, raises, Thread.drains, WorkerPc.drains, Thread.leaves, he]
  | wait hp => exact keeps_wait rfl hp
  | @produceSet e d' c e' p b p' hp =>
    refine keeps_set hp rfl ?_ ?_
    · cases p' <;> simp [Thread.place, EventNotifier.Pc.ofSet]
    · cases p' <;> simp [Thread.drains, WorkerPc.drains, Thread.leaves]
  | @leave e p b p' hp =>
    refine keeps_set hp rfl ?_ ?_
    · cases p' <;> simp [Thread.place, EventNotifier.Pc.ofSet]
    · cases p' <;> simp [Thread.drains, WorkerPc.drains, Thread.leaves]
  | @set e c p b p' hp =>
    refine keeps_set hp rfl ?_ le_rfl
    cases p' <;> simp [Thread.place, EventNotifier.Pc.ofSet]
  | @notifyWrite p b p' hp =>
    cases p' with
    | some p' => exact keeps_set hp rfl (by simp [Thread.place, EventNotifier.Pc.ofSet]) le_rfl
    | none =>
      cases d with
      | write => exact keeps_set hp rfl (by simp [Thread.place, EventNotifier.Pc.ofSet]) le_rfl
      | read => exact .inr (.inl (by simp [carries, counts, Thread.place, raises]))
  | @notifyRead p b p' hp =>
    refine keeps_set hp rfl ?_ ?_
    · cases p' <;> simp [Thread.place, EventNotifier.Pc.ofSet]
    · cases p' <;> simp [Thread.drains, Thread.leaves]
  | _ =>
    refine keeps_of_le rfl ?_
    simp [counts, Thread.place, raises, Thread.drains, WorkerPc.drains, Thread.leaves]

theorem Step.of_closed (h : Step s t a t') (hclosed : (a.apply s).closed = true) :
    s.closed = true ∨ 0 < carries d t' := by
  cases h with
  | shut => exact .inr (by cases d <;> simp [carries, counts, Thread.place, raises, Thread.leaves])
  | _ => exact .inl hclosed

end Step

section Run
variable {workers : Side → Nat} {closes : Nat} {s : State} {d : Side}

/-- Once `closed` is set, there is a signal or a thread that passes the end on. -/
theorem carried (h : Reachable workers closes s) (hclosed : s.shared.closed = true) : Signals (carries d) d s := by
  induction h with
  | start => cases hclosed
  | @run s i x t t' a _ _ hi hs _ ih =>
    have hstep := Thread.step_cases hs
    rcases hstep.of_closed (d := d) hclosed with hbefore | hpos
    · exact (ih hbefore).run hi (hstep.keeps_carries hbefore)
    · exact .of_mem (List.mem_set (List.getElem?_eq_some_iff.mp hi).1 t') hpos
  | @enter s k t _ hk _ ih => exact (ih hclosed).enter t

theorem Step.of_returned {s : Shared} {t t' : Thread} {a : Act} (h : Step s t a t') (ht' : t' = .closer .returned) :
    s.closed = true ∨ ∃ p, t = .closer (.notify .read p) := by
  cases h with
  | closedBefore hclosed => exact .inl hclosed
  | notifyRead => exact .inr ⟨_, rfl⟩
  | @notifyWrite p b p' hp => cases p' <;> cases ht'
  | _ => cases ht'

/-- `closed` is set when `Close` has returned. -/
theorem closed_of_returned (h : Reachable workers closes s) (ht : .closer .returned ∈ s.threads) :
    s.shared.closed = true := by
  induction h with
  | start => simp [start] at ht
  | @run s i x t t' a hr _ hi hs _ ih =>
    rcases eq_or_of_mem_set ht with heq | ⟨j, -, hj⟩
    · rcases (Thread.step_cases hs).of_returned heq.symm with hclosed | ⟨p, rfl⟩
      · exact closed_apply hclosed
      · exact closed_apply (closed_of_notify hr (List.mem_of_getElem? hi))
    · exact closed_apply (ih (List.mem_of_getElem? hj))
  | enter _ hk _ ih =>
    cases hk
    exact ih (by simpa using ht)

/-- The thread calls `Close`. -/
def Thread.shuts : Thread → Nat
  | .closer _ => 1
  | _ => 0

theorem weight_shuts (h : Reachable workers closes s) : s.weight Thread.shuts = closes := by
  rw [weight_eq_start h (fun _ _ _ _ hs => by cases hs <;> rfl) fun _ _ _ => rfl]
  simp [Config.weight, start, Thread.shuts]

theorem closer_unique (h : Reachable workers 1 s) {p q : ClosePc} (hp : .closer p ∈ s.threads)
    (hq : .closer q ∈ s.threads) : p = q := by
  obtain ⟨i, hi⟩ := List.getElem?_of_mem hp
  obtain ⟨j, hj⟩ := List.getElem?_of_mem hq
  by_cases hij : i = j
  · subst hij
    rw [hi] at hj
    cases hj
    rfl
  · have hle := Config.add_le_weight (f := Thread.shuts) hi hj hij
    rw [weight_shuts h] at hle
    simp [Thread.shuts] at hle

theorem worker_of_place_wait {t : Thread} {q : EventNotifier.WaitPc} (h : t.place d = .wait q) :
    ∃ p, t = .worker d (.wait p) := by
  unfold Thread.place at h
  split at h
  · next e p =>
    by_cases he : e = d
    · exact ⟨p, he ▸ rfl⟩
    · simp [he] at h
  all_goals first
    | cases h
    | (split at h <;> cases h)

/-- The thread is inside `Set` on the notifier of `d`. -/
def Thread.InSet (d : Side) (t : Thread) : Prop := ∃ p, t.place d = .set p

/-- After the one call of `Close` has returned, the workers of `d` that are left are not all blocked with nobody inside
    `Set`. -/
theorem shutdown_reaches_workers (workers : Side → Nat) (s : State) (h : Reachable workers 1 s)
    (hreturned : .closer .returned ∈ s.threads) (d : Side) :
    ¬((∃ p, .worker d p ∈ s.threads ∧ p ≠ .returned) ∧
      (∀ p, .worker d p ∈ s.threads → p ≠ .returned → p.Blocked (s.shared.inQueueHappened d)) ∧
      ∀ t ∈ s.threads, ¬t.InSet d) := by
  rintro ⟨⟨p, hp, hne⟩, hblocked, hno⟩
  have hplace : ∀ t ∈ s.threads, t.place d ≠ .outside → (t.place d).Blocked (s.shared.inQueueHappened d) := by
    intro t ht hout
    cases hq : t.place d with
    | outside => exact absurd hq hout
    | set p => exact absurd ⟨p, hq⟩ (hno t ht)
    | wait q =>
      obtain ⟨p, rfl⟩ := worker_of_place_wait hq
      obtain ⟨k, hk, heq⟩ := hblocked _ ht (by simp)
      cases heq
      simp only [Thread.place, if_true] at hq
      exact ⟨k, hk, hq.symm⟩
  have hzero : ∀ t ∈ s.threads, carries d t = 0 := by
    intro t ht
    have hrest : t.drains d = 0 ∧ t.leaves d = 0 := by
      cases t with
      | worker e p =>
        by_cases he : e = d
        · subst he
          by_cases hpr : p = .returned
          · subst hpr
            simp [Thread.drains, WorkerPc.drains, Thread.leaves]
          · obtain ⟨k, -, rfl⟩ := hblocked p ht hpr
            simp [Thread.drains, WorkerPc.drains, Thread.leaves]
        · refine ⟨if_neg he, ?_⟩
          unfold Thread.leaves
          split
          · next heq =>
            cases heq
            exact if_neg he
          · next heq => cases heq
          · rfl
      | producer e c p => exact ⟨rfl, rfl⟩
      | closer p =>
        obtain rfl := closer_unique h ht hreturned
        exact ⟨rfl, rfl⟩
    simp [carries, counts, hrest, raises_eq_zero (hplace t ht)]
  exact not_signals_of_blocked h hzero ⟨p, hp, hblocked p hp hne⟩ hplace (carried h (closed_of_returned h hreturned))

end Run

/-- Both workers block, then `Close` runs through and notifies them. -/
def closeBlocked : List (Move Choice (Side × ConnId)) :=
  [[.run 0 .go], goOn 0 3, [.run 1 .go], goOn 1 3, [.run 2 .go, .run 2 .go], goOn 2 3,
    [.run 2 (.notifier (.notify [0]))], goOn 2 3, [.run 2 (.notifier (.notify [0]))]].flatten

theorem shutdown_reaches_workers_of_blocked : ∃ s, Reachable (fun _ => 1) 1 s ∧ .closer .returned ∈ s.threads ∧
    .worker .read (.wait (.waiting 0)) ∈ s.threads ∧
    ¬((∃ p, .worker .read p ∈ s.threads ∧ p ≠ .returned) ∧
      (∀ p, .worker .read p ∈ s.threads → p ≠ .returned → p.Blocked (s.shared.inQueueHappened .read)) ∧
      ∀ t ∈ s.threads, ¬t.InSet .read) := by
  have hrun : (pool.exec (fun _ _ _ => true) (fun _ => true) (start (fun _ => 1) 1) closeBlocked).any
      (fun s => .closer .returned ∈ s.threads ∧ .worker .read (.wait (.waiting 0)) ∈ s.threads) = true := by
    decide +kernel
  obtain ⟨s, hs, hp⟩ := Reach.exists_of_exec Rule.any (fun _ _ _ _ => trivial) (fun _ _ => trivial) hrun
  obtain ⟨hreturned, hworker⟩ := of_decide_eq_true hp
  exact ⟨s, hs, hreturned, hworker, shutdown_reaches_workers (fun _ => 1) s hs hreturned .read⟩

end SimpleHttp.Pool
