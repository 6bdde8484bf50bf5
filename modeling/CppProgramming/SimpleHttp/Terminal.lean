import CppProgramming.SimpleHttp.Stacks

/-! # After a close

`Close` clears neither the event counters nor `errorCode`, and no test of the workers looks at `isClosed`. A
closed connection is left alone when `Close` ends at a quiet moment: no error and no read event is recorded,
there is nothing to send or no writable event, and no thread is on its way to change that. -/

namespace SimpleHttp
open Interleaving

variable {R : RequestHandler}

/-! ### Ids -/

/-- The connection whose object a function has got from the `ConnectionMap` or from a queue. -/
def Frame.known : Frame R → Option ConnId
  | .check _ _ c _ | .recheck _ c _ | .callback c _ | .close c _ | .onError _ c _ | .finish _ c _ | .read c _
  | .load c _ | .write c _ | .report _ c .set | .report _ c .checkWrite => some c
  | _ => none

theorem FrameStep.known {s : Shared R} {result : Bool} {f : Frame R} {a : Act R} {fs : List (Frame R)}
    (h : FrameStep s result f a fs) {c : ConnId} : ∀ g ∈ fs, g.known = some c →
    f.known = some c ∨ s.connectionMap c = true ∨ ∃ d, c ∈ s.queue d := by
  cases h with
  | workerRead hq =>
    intro g hg hk
    simp only [List.mem_cons, List.not_mem_nil, or_false] at hg
    rcases hg with rfl | rfl | rfl | rfl <;> cases hk <;> exact Or.inr (Or.inr ⟨.read, by rw [hq]; simp⟩)
  | workerWrite hq =>
    intro g hg hk
    simp only [List.mem_cons, List.not_mem_nil, or_false] at hg
    rcases hg with rfl | rfl | rfl <;> cases hk <;> exact Or.inr (Or.inr ⟨.write, by rw [hq]; simp⟩)
  | addGetValue hm =>
    intro g hg hk
    rw [List.mem_singleton.mp hg] at hk
    cases hk
    exact Or.inr (Or.inl hm)
  | reportFound hm =>
    intro g hg hk
    rw [List.mem_singleton.mp hg] at hk
    cases hk
    exact Or.inr (Or.inl hm)
  | _ =>
    first
      | exact List.forall_mem_singleton.mpr Or.inl
      | simp_all [Frame.known]

/-- The ids that have been given out. -/
structure Known (s : State R) : Prop where
  map : ∀ c, s.shared.connectionMap c = true → c ≤ s.shared.nextConnId
  queue : ∀ d c, c ∈ s.shared.queue d → c ≤ s.shared.nextConnId
  frames : ∀ j f c, s.At j f → f.known = some c → c ≤ s.shared.nextConnId

/-- A connection that is closed, or about to be marked so, has been released. -/
structure Released (s : State R) : Prop where
  closed : ∀ c, (s.shared.conn c).isClosed = true → s.shared.connectionMap c = false ∧ c ≤ s.shared.nextConnId
  closing : ∀ j c, s.At j (.close c .setClosed) → s.shared.connectionMap c = false

section Run
variable {rule : Rule (Shared R) (Thread R) (Act R) Call} {closed : Bool} {readers writers : Nat} {s : State R}

theorem nextConnId_le (a : Act R) (s : Shared R) : s.nextConnId ≤ (a.apply s).nextConnId := by
  rw [Act.apply_nextConnId]
  cases a <;> simp

/-- A released connection is not registered again, because ids are not reused. -/
theorem released_kept {a : Act R} {s : Shared R} {c : ConnId} (hc : s.connectionMap c = false)
    (hid : c ≤ s.nextConnId) : (a.apply s).connectionMap c = false := by
  rw [Act.apply_connectionMap]
  cases a with
  | register =>
    have : s.nextConnId + 1 ≠ c := fun heq => Nat.not_succ_le_self _ (heq ▸ hid)
    simpa [this] using hc
  | release c' => simp [hc]
  | _ => simpa using hc

theorem Known.step (ih : Known s) {i : Nat} {t : Thread R} {f : Frame R} {rest fs : List (Frame R)} {a : Act R}
    {v : Bool} (hi : s.threads[i]? = some t) (ht : t.frames = f :: rest) (hf : FrameStep s.shared t.result f a fs) :
    Known ⟨a.apply s.shared, s.threads.set i ⟨fs ++ rest, v⟩⟩ := by
  have hle := nextConnId_le a s.shared
  have hhead := State.at_head hi ht
  refine ⟨?_, ?_, ?_⟩
  · intro c hc
    cases a with
    | register =>
      simp only [Act.apply_connectionMap] at hc
      split at hc
      · next heq => exact Nat.le_of_eq heq.symm
      · exact Nat.le_trans (ih.map c hc) hle
    | release c' =>
      simp only [Act.apply_connectionMap] at hc
      split at hc
      · cases hc
      · exact ih.map c hc
    | _ =>
      simp only [Act.apply_connectionMap] at hc
      exact Nat.le_trans (ih.map c hc) hle
  · intro d c hc
    cases a with
    | inQueue d' c' =>
      simp only [Act.apply_queue] at hc
      have hk : f.known = some c' := by cases hf <;> rfl
      split at hc
      · rcases List.mem_append.mp hc with hc | hc
        · exact ih.queue d c hc
        · rw [List.mem_singleton.mp hc]
          exact ih.frames i f c' hhead hk
      · exact ih.queue d c hc
    | deQueue d' c' =>
      simp only [Act.apply_queue] at hc
      split at hc
      · exact ih.queue d c (List.mem_of_mem_tail hc)
      · exact ih.queue d c hc
    | _ =>
      simp only [Act.apply_queue] at hc
      exact Nat.le_trans (ih.queue d c hc) hle
  · intro j g c hj hk
    refine Nat.le_trans ?_ hle
    rcases State.at_frame hi ht hj with ⟨hg, -⟩ | ⟨hj, -⟩
    · rcases hf.known g hg hk with hk | hm | ⟨d, hq⟩
      · exact ih.frames i f c hhead hk
      · exact ih.map c hm
      · exact ih.queue d c hq
    · exact ih.frames j g c hj hk

theorem known (h : Reach (manager R) rule (start R closed readers writers) s) : Known s := by
  refine reach_invariant (P := Known) ?_ (fun _ ih hi ht hf _ => ih.step hi ht hf) (fun ih => ⟨ih.map, ih.queue, ih.frames⟩)
    (fun _ ih _ _ => ⟨ih.map, ih.queue, fun j f c hj => ih.frames j f c (State.at_caught hj)⟩) ?_ h
  · refine ⟨(fun c hc => Bool.noConfusion hc), (fun d c hc => absurd hc List.not_mem_nil), ?_⟩
    intro j f c hj hk
    obtain ⟨d, rfl⟩ := State.at_start hj
    cases hk
  · intro s k t ih hk _
    refine ⟨ih.map, ih.queue, ?_⟩
    intro j f c hj hf
    rcases State.at_enter hj with hj | hmem
    · exact ih.frames j f c hj hf
    · rcases Call.enter_cases hk with ⟨-, rfl⟩ | ⟨r, c', -, rfl⟩ | ⟨c', content, -, -, rfl⟩ | ⟨-, rfl⟩ <;>
        simp at hmem
      · subst hmem; cases hf
      · subst hmem; cases hf
      · rcases hmem with rfl | rfl <;> cases hf
      · subst hmem; cases hf

theorem Released.step (ih : Released s) (hk : Known s) {i : Nat} {t : Thread R} {f : Frame R}
    {rest fs : List (Frame R)} {a : Act R} {v : Bool} (hi : s.threads[i]? = some t) (ht : t.frames = f :: rest)
    (hf : FrameStep s.shared t.result f a fs) : Released ⟨a.apply s.shared, s.threads.set i ⟨fs ++ rest, v⟩⟩ := by
  have hle := nextConnId_le a s.shared
  have hhead := State.at_head hi ht
  refine ⟨?_, ?_⟩
  · intro c hc
    have hbefore : s.shared.connectionMap c = false ∧ c ≤ s.shared.nextConnId := by
      cases a with
      | setClosed c' =>
        rw [Act.apply_isClosed] at hc
        by_cases hcc : c' = c
        · subst hcc
          cases hf
          exact ⟨ih.closing i c' hhead, hk.frames i _ c' hhead rfl⟩
        · exact ih.closed c (by simpa [hcc] using hc)
      | _ => exact ih.closed c (by simpa using hc)
    exact ⟨released_kept hbefore.1 hbefore.2, Nat.le_trans hbefore.2 hle⟩
  · intro j c hj
    rcases State.at_frame hi ht hj with ⟨hg, -⟩ | ⟨hj, -⟩
    · have hrel : a = .release c := by cases hf <;> simp_all
      subst hrel
      simp
    · exact released_kept (ih.closing j c hj) (hk.frames j _ c hj rfl)

theorem released (h : Reach (manager R) rule (start R closed readers writers) s) : Released s := by
  refine reach_invariant (P := Released) ?_ (fun hr ih hi ht hf _ => ih.step (known hr) hi ht hf)
    (fun ih => ⟨ih.closed, ih.closing⟩) (fun _ ih _ _ => ⟨ih.closed, fun j c hj => ih.closing j c (State.at_caught hj)⟩) ?_ h
  · refine ⟨(fun c hc => Bool.noConfusion hc), ?_⟩
    intro j c hj
    obtain ⟨d, hno⟩ := State.at_start hj
    cases hno
  · intro s k t ih hk _
    refine ⟨ih.closed, fun j c hj => ?_⟩
    rcases State.at_enter hj with hj | hmem
    · exact ih.closing j c hj
    · rcases Call.enter_cases hk with ⟨-, rfl⟩ | ⟨r, c', -, rfl⟩ | ⟨c', content, -, -, rfl⟩ | ⟨-, rfl⟩ <;> simp at hmem

end Run

/-! ### Quiet connections -/

/-- `ReadEventHappend` or `WriteEventHappend` has not seen anything. -/
def EventPc.blank : EventPc → Bool
  | .start => true
  | .counter a => a = 0
  | .error e => e = 0

/-- A check that will not queue the connection. A check for writing may queue one without an event, if it
    `CanClose()`. -/
def CheckPc.blank (d : Side) : CheckPc → Bool
  | .test false | .notify => true
  | .lock => d = .read
  | .event p => d = .read && p.blank
  | _ => false

/-- A `NeedReInQueueRead` or `NeedReInQueueWrite` that finds nothing to do; with `sent` there is nothing to send,
    whatever it sees. -/
def RecheckPc.blank (sent : Bool) : RecheckPc → Bool
  | .lock | .busy | .test false => true
  | .event p => sent || p.blank
  | .content => sent
  | _ => false

/-- A function that will neither record anything for `c` nor read, write or queue it, as long as no error and no
    read event is recorded for `c` and there is nothing to send (`sent`) or no writable event. -/
def Frame.idle (sent : Bool) (c : ConnId) : Frame R → Bool
  | .check _ d c' p => c' ≠ c || p.blank d
  | .recheck d c' p => c' ≠ c || p.blank (sent && d = .write)
  | .load c' (.setResponse content) => c' ≠ c || !sent || content = []
  | .onError _ c' .argument => c' ≠ c
  | .read c' p => c' ≠ c || p = .readable
  | .write c' p => c' ≠ c || p = .writable || sent && (p = .take || p = .empty)
  | .callback c' _ | .addCache c' _ | .report _ c' .set | .report _ c' .checkWrite => c' ≠ c
  | _ => true

/-- Nothing is recorded for `c` that would have it read or written. -/
def Shared.calm (s : Shared R) (sent : Bool) (c : ConnId) : Bool :=
  (s.conn c).errorCode = .noError && (s.conn c).happened .read = 0 &&
    (if sent then s.cached c = [] && (s.conn c).response = [] else (s.conn c).happened .write = 0)

/-- `c` is quiet: nothing is recorded for it, and no thread is about to change that or to read, write or queue
    it. -/
def State.quiet (s : State R) (c : ConnId) (sent : Bool) : Bool :=
  s.shared.calm sent c && s.threads.all fun t => t.frames.all (Frame.idle sent c)

section Step
variable {s : Shared R} {result : Bool} {f : Frame R} {a : Act R} {fs : List (Frame R)} {sent : Bool} {c : ConnId}

theorem calm_iff : s.calm sent c = true ↔ (s.conn c).errorCode = .noError ∧ (s.conn c).happened .read = 0 ∧
    (if sent then s.cached c = [] ∧ (s.conn c).response = [] else (s.conn c).happened .write = 0) := by
  cases sent <;> simp [Shared.calm, and_assoc]

theorem FrameStep.calm (h : FrameStep s result f a fs) (hf : f.idle sent c = true) (hs : s.calm sent c = true) :
    (a.apply s).calm sent c = true := by
  obtain ⟨herror, hread, hwrite⟩ := calm_iff.mp hs
  rw [calm_iff]
  cases a with
  | happen d c' =>
    have hc : c' ≠ c := by
      rintro rfl
      cases h <;> simp [Frame.idle] at hf
    simpa [hc] using ⟨herror, hread, hwrite⟩
  | take d c' =>
    by_cases hc : c' = c
    · subst hc
      cases h with
      | readTake => simp [Frame.idle] at hf
      | writeTake =>
        cases sent with
        | true => simpa using ⟨herror, hread, hwrite⟩
        | false => simp [Frame.idle] at hf
    · simpa [hc] using ⟨herror, hread, hwrite⟩
  | setError c' e =>
    have hc : c' ≠ c := by
      rintro rfl
      cases h <;> simp [Frame.idle] at hf
    simpa [hc] using ⟨herror, hread, hwrite⟩
  | addCache c' content =>
    have hc : c' ≠ c := by
      rintro rfl
      cases h
      simp [Frame.idle] at hf
    simpa [hc] using ⟨herror, hread, hwrite⟩
  | getCache c' =>
    cases sent with
    | true => simpa using ⟨herror, hread, fun _ => hwrite.1, hwrite.2⟩
    | false => simpa using ⟨herror, hread, hwrite⟩
  | setResponse c' content =>
    cases h
    by_cases hc : c' = c
    · subst hc
      cases sent with
      | true =>
        have hnil : content = [] := by simpa [Frame.idle] using hf
        simpa [hnil] using ⟨herror, hread, hwrite⟩
      | false => simpa using ⟨herror, hread, hwrite⟩
    · simpa [hc] using ⟨herror, hread, hwrite⟩
  | store c' rest =>
    have hc : c' ≠ c := by
      rintro rfl
      cases h <;> simp [Frame.idle] at hf
    simpa [hc] using ⟨herror, hread, hwrite⟩
  | _ => simpa using ⟨herror, hread, hwrite⟩

theorem Sees.blank {x : Connection R} {d : Side} {p : EventPc} {b : Bool} (h : Sees x d p b) (hp : p.blank = true)
    (herror : x.errorCode = .noError) (hcount : x.happened d = 0) : b = false := by
  cases p with
  | start => exact h.elim
  | counter a =>
    have ha : a = 0 := by simpa [EventPc.blank] using hp
    rw [← h, ha, herror]
    rfl
  | error e =>
    have he : e = 0 := by simpa [EventPc.blank] using hp
    rw [← h, he, hcount]
    rfl

theorem idle_check {k : Cause} {d : Side} {c' : ConnId} {p : CheckPc} (h : FrameStep s result (.check k d c' p) a fs)
    (hf : (Frame.check (R := R) k d c' p).idle sent c = true) (hs : s.calm sent c = true) :
    ∀ g ∈ fs, g.idle sent c = true := by
  by_cases hc : c' = c
  · subst hc
    obtain ⟨herror, hread, -⟩ := calm_iff.mp hs
    cases d with
    | read =>
      cases h with
      | checkSeen hsee =>
        have hb := hsee.blank (by simpa [Frame.idle, CheckPc.blank] using hf) herror hread
        simp [Frame.idle, CheckPc.blank, hb]
      | _ => simp_all [Frame.idle, CheckPc.blank, EventPc.blank, ConnectionErrorCode.toInt]
    | write => cases h <;> simp_all [Frame.idle, CheckPc.blank]
  · cases h <;> simp [Frame.idle, hc]

theorem idle_recheck {d : Side} {c' : ConnId} {p : RecheckPc} (h : FrameStep s result (.recheck d c' p) a fs)
    (hf : (Frame.recheck (R := R) d c' p).idle sent c = true) (hs : s.calm sent c = true) :
    ∀ g ∈ fs, g.idle sent c = true := by
  by_cases hc : c' = c
  · subst hc
    obtain ⟨herror, hread, hwrite⟩ := calm_iff.mp hs
    cases d with
    | read =>
      cases h with
      | recheckSeen hsee =>
        have hb := hsee.blank (by simpa [Frame.idle, RecheckPc.blank] using hf) herror hread
        simp [Frame.idle, RecheckPc.blank, hb]
      | _ => simp_all [Frame.idle, RecheckPc.blank, EventPc.blank, ConnectionErrorCode.toInt]
    | write =>
      cases sent with
      | true =>
        cases h <;> simp_all [Frame.idle, RecheckPc.blank, EventPc.blank, Shared.hasContentToWrite]
      | false =>
        cases h with
        | recheckEvent hsee =>
          have hb := hsee.blank (by simpa [Frame.idle, RecheckPc.blank] using hf) herror hwrite
          cases hb
        | _ => simp_all [Frame.idle, RecheckPc.blank, EventPc.blank, ConnectionErrorCode.toInt]
  · cases h <;> simp [Frame.idle, hc]

theorem FrameStep.idle (h : FrameStep s result f a fs) (hf : f.idle sent c = true) (hs : s.calm sent c = true)
    (hm : s.connectionMap c = false) : ∀ g ∈ fs, g.idle sent c = true := by
  obtain ⟨herror, hread, hwrite⟩ := calm_iff.mp hs
  cases f with
  | check k d c' p => exact idle_check h hf hs
  | recheck d c' p => exact idle_recheck h hf hs
  | load c' p =>
    cases h with
    | loadGet => by_cases hc : c' = c <;> cases sent <;> simp_all [Frame.idle]
    | loadSet => simp [Frame.idle]
  | onError d c' p =>
    cases h with
    | errorSome hne =>
      have hc : c' ≠ c := by
        rintro rfl
        exact hne herror
      simpa [Frame.idle] using hc
    | _ => simp_all [Frame.idle]
  | read c' p =>
    cases h with
    | readSome hne =>
      have hc : c' ≠ c := by
        rintro rfl
        exact hne hread
      simpa [Frame.idle] using hc
    | _ => simp_all [Frame.idle]
  | write c' p =>
    cases h with
    | writeSome hne =>
      by_cases hc : c' = c
      · subst hc
        cases sent with
        | true => simp [Frame.idle]
        | false => exact absurd hwrite hne
      · simp [Frame.idle, hc]
    | writeBegin hne =>
      have hc : c' ≠ c := by
        rintro rfl
        cases sent with
        | true => exact hne hwrite.2
        | false => simp [Frame.idle] at hf
      simp [Frame.idle, hc]
    | _ => simp_all [Frame.idle]
  | report r c' p =>
    cases h with
    | reportFound hfound =>
      have hc : c' ≠ c := by
        rintro rfl
        rw [hm] at hfound
        cases hfound
      simpa [Frame.idle] using hc
    | _ => simp_all [Frame.idle]
  | worker d p => cases h <;> simp [Frame.idle, RecheckPc.blank]
  | _ =>
    cases h <;> first
      | exact List.forall_mem_singleton.mpr rfl
      | simp_all [Frame.idle]

end Step

/-- The runs in which `Close` of `c` sets `isClosed` at a quiet moment only. -/
def quietClose (R : RequestHandler) (c : ConnId) : Rule (Shared R) (Thread R) (Act R) Call where
  step s _ a := a = .setClosed c → State.quiet s c true = true ∨ State.quiet s c false = true
  call _ := True

/-- The next step of the function is a `read()` or a `write()` on the socket of `c`. -/
def Frame.transfers (c : ConnId) : Frame R → Bool
  | .read c' (.socket _) | .write c' (.socket (_ :: _)) => c' = c
  | _ => false

/-- The next step of the function puts `c` into a queue. -/
def Frame.queues (c : ConnId) : Frame R → Bool
  | .check _ _ c' .inQueue | .recheck _ c' .inQueue => c' = c
  | _ => false

/-- A closed connection is neither read nor written nor queued. -/
structure Terminal (s : State R) (c : ConnId) : Prop where
  transfers : (s.shared.conn c).isClosed = true → ∀ t ∈ s.threads, ∀ f rest, t.frames = f :: rest → f.transfers c = false
  queues : (s.shared.conn c).isClosed = true → ∀ t ∈ s.threads, ∀ f rest, t.frames = f :: rest → f.queues c = false

theorem Frame.idle_transfers {sent : Bool} {c : ConnId} {f : Frame R} (h : f.idle sent c = true) :
    f.transfers c = false := by
  unfold Frame.transfers
  split
  · simpa [Frame.idle] using h
  · simpa [Frame.idle] using h
  · rfl

theorem Frame.idle_queues {sent : Bool} {c : ConnId} {f : Frame R} (h : f.idle sent c = true) : f.queues c = false := by
  unfold Frame.queues
  split
  · simpa [Frame.idle, CheckPc.blank] using h
  · simpa [Frame.idle, RecheckPc.blank] using h
  · rfl

section Run
variable {c : ConnId} {closed : Bool} {readers writers : Nat} {s : State R}

theorem quiet_iff {sent : Bool} : s.quiet c sent = true ↔
    s.shared.calm sent c = true ∧ ∀ j f, s.At j f → f.idle sent c = true := by
  simp only [State.quiet, Bool.and_eq_true, List.all_eq_true]
  refine and_congr_right fun _ => ⟨?_, ?_⟩
  · rintro h j f ⟨t, ht, hf⟩
    exact h t (List.mem_of_getElem? ht) f hf
  · intro h t ht f hf
    obtain ⟨j, hj⟩ := List.getElem?_of_mem ht
    exact h j f ⟨t, hj, hf⟩

theorem quiet_step {sent : Bool} (h : s.quiet c sent = true) (hm : s.shared.connectionMap c = false) {i : Nat}
    {t : Thread R} {f : Frame R} {rest fs : List (Frame R)} {a : Act R} {v : Bool} (hi : s.threads[i]? = some t)
    (ht : t.frames = f :: rest) (hf : FrameStep s.shared t.result f a fs) :
    State.quiet ⟨a.apply s.shared, s.threads.set i ⟨fs ++ rest, v⟩⟩ c sent = true := by
  obtain ⟨hcalm, hidle⟩ := quiet_iff.mp h
  have hhead := hidle i f (State.at_head hi ht)
  refine quiet_iff.mpr ⟨hf.calm hhead hcalm, fun j g hj => ?_⟩
  rcases State.at_frame hi ht hj with ⟨hg, -⟩ | ⟨hj, -⟩
  · exact hf.idle hhead hcalm hm g hg
  · exact hidle j g hj

/-- A connection that was closed at a quiet moment stays quiet. -/
theorem quiet_of_closed (hR : R.spontaneous = false)
    (h : Reach (manager R) (quietClose R c) (start R closed readers writers) s)
    (hc : (s.shared.conn c).isClosed = true) : ∃ sent, s.quiet c sent = true := by
  revert hc
  refine reach_invariant (P := fun s => (s.shared.conn c).isClosed = true → ∃ sent, s.quiet c sent = true)
    (fun hc => Bool.noConfusion hc) ?_ (fun ih hc => ih hc) ?_ ?_ h
  · intro s i t f rest fs a v hr ih hi ht hf hok hc
    have hbefore : s.shared.connectionMap c = false ∧ ∃ sent, s.quiet c sent = true := by
      cases a with
      | setClosed c' =>
        by_cases hcc : c' = c
        · subst hcc
          cases hf
          exact ⟨(released hr).closing i c' (State.at_head hi ht), (hok rfl).elim (⟨true, ·⟩) (⟨false, ·⟩)⟩
        · have hc : (s.shared.conn c).isClosed = true := by simpa [hcc] using hc
          exact ⟨((released hr).closed c hc).1, ih hc⟩
      | _ =>
        have hc : (s.shared.conn c).isClosed = true := by simpa using hc
        exact ⟨((released hr).closed c hc).1, ih hc⟩
    obtain ⟨hm, sent, hquiet⟩ := hbefore
    exact ⟨sent, quiet_step hquiet hm hi ht hf⟩
  · intro s i t c' v hr _ hi ht
    exact (not_caught hR hr hi ht).elim
  · intro s k t ih hk _ hc
    obtain ⟨sent, hquiet⟩ := ih hc
    obtain ⟨hcalm, hidle⟩ := quiet_iff.mp hquiet
    refine ⟨sent, quiet_iff.mpr ⟨hcalm, fun j f hj => ?_⟩⟩
    rcases State.at_enter hj with hj | hmem
    · exact hidle j f hj
    · rcases Call.enter_cases hk with ⟨-, rfl⟩ | ⟨r, c', -, rfl⟩ | ⟨c', content, hno, -, -⟩ | ⟨-, rfl⟩
      · rw [List.mem_singleton.mp hmem]
        rfl
      · rw [List.mem_singleton.mp hmem]
        rfl
      · rw [hR] at hno
        cases hno
      · rw [List.mem_singleton.mp hmem]
        rfl

end Run

/-- A connection that is closed at quiet moments only is left alone afterwards. -/
theorem closed_terminal (closed : Bool) (readers writers : Nat) (c : ConnId) (s : State httpRequestHandler)
    (h : Reach (manager httpRequestHandler) (quietClose httpRequestHandler c)
      (start httpRequestHandler closed readers writers) s) : Terminal s c := by
  have hidle : (s.shared.conn c).isClosed = true → ∀ t ∈ s.threads, ∀ f rest, t.frames = f :: rest →
      ∃ sent, f.idle sent c = true := by
    intro hc t ht f rest hf
    obtain ⟨sent, hquiet⟩ := quiet_of_closed rfl h hc
    obtain ⟨i, hi⟩ := List.getElem?_of_mem ht
    exact ⟨sent, (quiet_iff.mp hquiet).2 i f (State.at_head hi hf)⟩
  refine ⟨?_, ?_⟩
  · intro hc t ht f rest hf
    obtain ⟨sent, hf⟩ := hidle hc t ht f rest hf
    exact Frame.idle_transfers hf
  · intro hc t ht f rest hf
    obtain ⟨sent, hf⟩ := hidle hc t ht f rest hf
    exact Frame.idle_queues hf

/-- `Close` ends. -/
def Act.setsClosed : Act R → Bool
  | .setClosed _ => true
  | _ => false

/-- The writer has sent the response and closed the connection. -/
theorem closed_terminal_sent : ∃ s : State httpRequestHandler,
    Reach (manager httpRequestHandler) (quietClose httpRequestHandler 1) (start httpRequestHandler false 1 1) s ∧
    (s.shared.conn 1).isClosed = true ∧ Terminal s 1 := by
  have hrun : ((manager httpRequestHandler).exec
      (fun s _ a => !a.setsClosed || State.quiet s 1 true) (fun _ => true) (start httpRequestHandler false 1 1)
      [responseLoaded, [.run 1 (.accepted 45)], go 1 12].flatten).any (fun s => (s.shared.conn 1).isClosed) = true := by
    decide
  obtain ⟨s, hs, hp⟩ := Reach.exists_of_exec (quietClose httpRequestHandler 1)
    (by rintro s t a hstep rfl; exact Or.inl hstep) (fun _ _ => trivial) hrun
  exact ⟨s, hs, hp, closed_terminal false 1 1 1 s hs⟩

/-- With an error `Read()` closes the connection and goes on to read its socket. -/
theorem read_after_close : ¬∀ (closed : Bool) (readers writers : Nat) (c : ConnId) (s : State httpRequestHandler),
    Reachable httpRequestHandler closed readers writers s → (s.shared.conn c).isClosed = true →
    ∀ t ∈ s.threads, ∀ f rest, t.frames = f :: rest → f.transfers c = false := by
  intro hall
  have hrun : ((manager httpRequestHandler).exec (fun _ _ _ => true) (fun _ => true)
      (start httpRequestHandler false 1 1)
      [[.enter .newConnection, .run 2 .go, .enter (.report .canRead 1), .enter (.report .errorOccurred 1)],
        go 3 8, go 4 2, go 0 27].flatten).any
      (fun s : State httpRequestHandler => (s.shared.conn 1).isClosed = true ∧
        s.threads.any (Thread.next (Frame.transfers 1))) = true := by decide
  obtain ⟨s, hs, hp⟩ := Reach.exists_of_exec Rule.any (fun _ _ _ _ => trivial) (fun _ _ => trivial) hrun
  obtain ⟨hclosed, htransfer⟩ := of_decide_eq_true hp
  obtain ⟨t, ht, htransfer⟩ := List.any_eq_true.mp htransfer
  obtain ⟨f, rest, heq, htransfer⟩ := Thread.next_iff.mp htransfer
  rw [hall false 1 1 1 s hs hclosed t ht f rest heq] at htransfer
  cases htransfer

end SimpleHttp
