import CppProgramming.SimpleHttp.Stacks

/-! # Who has a connection

A connection is queued at most once on each side, or one worker has it, or one thread is about to queue it;
`isReading` and `isWriting` say whether that is so. The flag changes under one mutex and the queue under
another, so the invariant counts the threads in between. -/

namespace SimpleHttp
open Interleaving

variable {R : RequestHandler}

namespace Frame

/-- The worker of side `d` holds `c`: it took `c` from the queue, and `NeedReInQueueRead` (or `-Write`) has
    not returned false, nor has the worker queued `c` again. -/
def holds (d : Side) (c : ConnId) : Frame R → Nat
  | .recheck d' c' _ => if d' = d ∧ c' = c then 1 else 0
  | _ => 0

/-- `NeedInQueueRead` (or `-Write`) returned true, and `InQueue` is still to come. -/
def enlists (d : Side) (c : ConnId) : Frame R → Nat
  | .check _ d' c' .inQueue => if d' = d ∧ c' = c then 1 else 0
  | _ => 0

/-- The function is in the section of `protectIsReading` (or `protectIsWriting`). -/
def locks (d : Side) : Frame R → Nat
  | .check _ d' _ (.event _) | .check _ d' _ .content | .check _ d' _ .readWaiting | .check _ d' _ .writeWaiting
  | .check _ d' _ (.test _) | .recheck d' _ .busy | .recheck d' _ (.event _) | .recheck d' _ .content
  | .recheck d' _ (.test _) => if d' = d then 1 else 0
  | _ => 0

end Frame

/-- What is counted for a connection: the worker that holds it and the thread that is about to queue it. -/
def ticket (d : Side) (c : ConnId) (f : Frame R) : Nat := f.holds d c + f.enlists d c

section Step
variable {s : Shared R} {result : Bool} {f : Frame R} {a : Act R} {fs : List (Frame R)}

/-- A step keeps the number of functions in a section and the state of its mutex in line. -/
theorem FrameStep.locks (h : FrameStep s result f a fs) (d : Side) (hf : f.locks d ≤ (s.protect d).toNat) :
    (fs.map (Frame.locks d)).sum + (s.protect d).toNat = f.locks d + ((a.apply s).protect d).toNat := by
  cases h <;> simp_all [Frame.locks] <;> grind [Bool.toNat_le]

/-- A step keeps the flag, the queue and the functions that have the connection in line. -/
theorem FrameStep.ticket (h : FrameStep s result f a fs) (d : Side) (c : ConnId)
    (hf : SimpleHttp.ticket d c f ≤ ((s.conn c).busy d).toNat) :
    ((a.apply s).queue d).count c + (fs.map (SimpleHttp.ticket d c)).sum + ((s.conn c).busy d).toNat =
      (s.queue d).count c + SimpleHttp.ticket d c f + (((a.apply s).conn c).busy d).toNat := by
  cases h <;> simp_all [SimpleHttp.ticket, Frame.holds, Frame.enlists] <;> grind [Bool.toNat_le]

end Step

theorem inner_locks (d : Side) : Inner (R := R) (Frame.locks d) :=
  ⟨fun _ => rfl, rfl, fun _ _ => rfl, fun _ _ => rfl, rfl, rfl⟩

theorem inner_ticket (d : Side) (c : ConnId) : Inner (R := R) (ticket d c) :=
  ⟨fun _ => rfl, rfl, fun _ _ => rfl, fun _ _ => rfl, rfl, rfl⟩

section Run
variable {rule : Rule (Shared R) (Thread R) (Act R) Call} {closed : Bool} {readers writers : Nat} {s : State R}

theorem locks_eq (h : Reach (manager R) rule (start R closed readers writers) s) (d : Side) :
    s.count (Frame.locks d) = (s.shared.protect d).toNat := by
  have := count_balance (l := fun _ => 0) (r := fun s => (s.protect d).toNat) (inner_locks d) (fun _ => rfl)
    (fun hf hle => by simpa using hf.locks d (by simpa using hle)) (fun _ => ⟨rfl, rfl⟩) h
  simpa using this

/-- The queued occurrences of a connection and the functions that have it, against its flag. -/
theorem ticket_eq (h : Reach (manager R) rule (start R closed readers writers) s) (d : Side) (c : ConnId) :
    (s.shared.queue d).count c + s.count (ticket d c) = ((s.shared.conn c).busy d).toNat :=
  count_balance (l := fun s => (s.queue d).count c) (r := fun s => ((s.conn c).busy d).toNat) (inner_ticket d c)
    (fun _ => rfl) (fun hf hle => hf.ticket d c (by omega)) (fun _ => ⟨rfl, rfl⟩) h

theorem count_ticket (s : State R) (d : Side) (c : ConnId) :
    s.count (ticket d c) = s.count (Frame.holds d c) + s.count (Frame.enlists d c) :=
  State.count_add _ _ s

theorem holds_le_one (h : Reach (manager R) rule (start R closed readers writers) s) (d : Side) (c : ConnId) :
    s.count (Frame.holds d c) ≤ 1 := by
  have hticket := ticket_eq h d c
  have hle := Bool.toNat_le ((s.shared.conn c).busy d)
  rw [count_ticket] at hticket
  omega

theorem busy_of_holds (h : Reach (manager R) rule (start R closed readers writers) s) {d : Side} {c : ConnId}
    {t : Thread R} {p : RecheckPc} (ht : t ∈ s.threads) (hf : .recheck d c p ∈ t.frames) :
    (s.shared.conn c).busy d = true := by
  have hle := State.le_count (w := ticket d c) ht hf
  have hticket := ticket_eq h d c
  simp only [ticket, Frame.holds, Frame.enlists, and_self, if_true] at hle
  by_contra hno
  rw [Bool.eq_false_of_not_eq_true hno, Bool.toNat_false] at hticket
  omega

/-- A function of `Read()` or `Write()` runs for a worker that holds the connection. -/
theorem busy_of_part (h : Reach (manager R) rule (start R closed readers writers) s) {d : Side} {c : ConnId}
    {t : Thread R} {f : Frame R} (ht : t ∈ s.threads) (hf : f ∈ t.frames) (hp : f.part = some (d, c)) :
    (s.shared.conn c).busy d = true :=
  busy_of_holds h ht (companion_part.mem_frames h t ht f hf _ ⟨d, c, hp, rfl⟩)

theorem thread_of_holds (h : Reach (manager R) rule (start R closed readers writers) s) {d : Side} {c : ConnId}
    {i j : Nat} {p q : RecheckPc} (hi : s.At i (.recheck d c p)) (hj : s.At j (.recheck d c q)) : i = j := by
  obtain ⟨t, hi, hf⟩ := hi
  obtain ⟨u, hj, hg⟩ := hj
  exact State.thread_unique (holds_le_one h d c) hi hj hf hg (by simp [Frame.holds]) (by simp [Frame.holds])

/-- `Read()` (or `Write()`) of a connection is on one stack, with one function of a level. -/
theorem part_unique (h : Reach (manager R) rule (start R closed readers writers) s) {d : Side} {c : ConnId}
    {i j : Nat} {f g : Frame R} (hi : s.At i f) (hj : s.At j g) (hf : f.part = some (d, c))
    (hg : g.part = some (d, c)) (hrank : f.rank = g.rank) : i = j ∧ f = g := by
  have hij := thread_of_holds h (companion_part.at_of_at h hi ⟨d, c, hf, rfl⟩)
    (companion_part.at_of_at h hj ⟨d, c, hg, rfl⟩)
  subst hij
  exact ⟨rfl, at_unique h hi hj hrank⟩

end Run

/-- The thread runs `Read()` (or `Write()`) of `c` for its worker loop: `NeedReInQueueRead` (or `-Write`) is to
    be called when the functions in front of it have returned. -/
def Thread.Runs (t : Thread R) (d : Side) (c : ConnId) : Prop :=
  ∃ f rest, t.frames = f :: rest ∧ .recheck d c .lock ∈ rest

/-- The discipline of the two queues. A connection is in a queue, held by a worker or about to be queued
    exactly once if its flag is set and not at all if it is not; so two workers never read (or write) one
    connection, and `NeedReInQueueRead` and `NeedReInQueueWrite` do not throw. -/
theorem queue_discipline (closed : Bool) (readers writers : Nat) (s : State R)
    (h : Reachable R closed readers writers s) (d : Side) (c : ConnId) :
    (s.shared.queue d).count c + s.count (Frame.holds d c) + s.count (Frame.enlists d c) =
        (if (s.shared.conn c).busy d then 1 else 0) ∧
      (∀ (i j : Nat) (t u : Thread R), s.threads[i]? = some t → s.threads[j]? = some u → t.Runs d c → u.Runs d c →
        i = j) ∧
      ∀ t ∈ s.threads, ∀ p rest o a, t.frames = .recheck d c p :: rest →
        needReInQueue s.shared o d c p ≠ some (a, .throw) := by
  refine ⟨?_, ?_, ?_⟩
  · have hticket := ticket_eq h d c
    rw [Nat.add_assoc, ← count_ticket, hticket]
    cases (s.shared.conn c).busy d <;> rfl
  · rintro i j t u hi hj ⟨f, rest, ht, hf⟩ ⟨g, rest', hu, hg⟩
    exact thread_of_holds h ⟨t, hi, ht ▸ List.mem_cons_of_mem f hf⟩ ⟨u, hj, hu ▸ List.mem_cons_of_mem g hg⟩
  · intro t ht p rest o a hframes hthrow
    have hbusy := busy_of_holds h ht (d := d) (c := c) (p := p) (by simp [hframes])
    cases p with
    | lock =>
      simp only [needReInQueue] at hthrow
      split at hthrow <;> cases hthrow
    | busy =>
      simp only [needReInQueue, hbusy, if_true] at hthrow
      cases hthrow
    | event p =>
      simp only [needReInQueue] at hthrow
      split at hthrow <;> cases hthrow
    | content => cases hthrow
    | test b => cases b <;> cases hthrow
    | inQueue => cases hthrow

/-- A reader that has taken connection 1 from the queue and is in `SocketHandler::Read`. -/
theorem queue_discipline_reading : ∃ s : State httpRequestHandler,
    Reachable httpRequestHandler false 1 1 s ∧ (s.shared.conn 1).busy .read = true ∧
      (s.shared.queue .read).count 1 + s.count (Frame.holds .read 1) + s.count (Frame.enlists .read 1) = 1 := by
  have hrun : ((manager httpRequestHandler).exec (fun _ _ _ => true) (fun _ => true)
      (start httpRequestHandler false 1 1)
      [[.enter .newConnection, .run 2 .go, .enter (.report .canRead 1)], go 3 8, go 0 7].flatten).any
      (fun s => (s.shared.conn 1).busy .read) = true := by decide
  obtain ⟨s, hs, hbusy⟩ := Reach.exists_of_exec Rule.any (fun _ _ _ _ => trivial) (fun _ _ => trivial) hrun
  refine ⟨s, hs, hbusy, ?_⟩
  rw [(queue_discipline false 1 1 s hs .read 1).1, hbusy]
  rfl

end SimpleHttp
