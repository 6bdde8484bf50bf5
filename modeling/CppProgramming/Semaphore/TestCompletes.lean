import CppProgramming.Semaphore.BlockedTest
import Mathlib.Data.Prod.Lex

/-! # The end of the test

Wherever `TestB` is, one of its threads gets ahead, or all of them are through: a blocked thread has another one that
brings it a permit. This rests on `ac`, which has to be right when the threads have counted in it. -/

namespace Semaphore
open Interleaving

namespace TestB

namespace Thread

/-- What the thread has to do that others take notice of. -/
def due (sn : Int) (atn : Nat) (t : Thread) : Nat :=
  match t.place with
  | .count => 1
  | .acquire => t.caller.pc.elim 1 Pc.due
  | .await => 3 * releases sn atn
  | .loop i => 3 * (releases sn atn - i)
  | .release i => 3 * (releases sn atn - (i + 1)) + t.caller.pc.elim 3 Pc.due
  | .leave | .ended | .join | .done => 0

/-- How far it is from there. -/
def work (s : Semaphore.Shared) (t : Thread) : Nat :=
  match t.place with
  | .count => 17
  | .acquire => t.caller.pc.elim 16 (Pc.work s)
  | .leave => 2
  | .await => 10
  | .loop _ => 9
  | .release _ => t.caller.pc.elim 8 (Pc.work s)
  | .join => 1
  | .ended | .done => 0

/-- The thread is through, or it has to wait for another one. -/
def Held (sn : Int) (atn : Nat) (s : Shared) (t : Thread) : Prop :=
  match t.place with
  | .ended | .done => True
  | .await => s.ac.toInt < atn
  | .join => s.ended ≠ atn
  | .acquire => ∃ p, t.caller.pc = some p ∧ p.returned = false ∧ ¬p.Free s.run.sem
  | .release _ => ∃ p, t.caller.pc = some p ∧ p.returned = false ∧
      (p.Free s.run.sem → p.releaseReads = true ∧ sn ≤ s.run.sem.remaining)
  | .count | .leave | .loop _ => False

end Thread

/-- The operation on the semaphore. -/
def Act.sem : Act → Semaphore.Act
  | .run (.sem a) => a
  | _ => .look

theorem apply_sem (a : Act) (s : Shared) : (a.apply s).run.sem = a.sem.apply s.run.sem := by
  cases a with
  | run a => cases a <;> rfl
  | _ => rfl

/-- The step brings the thread ahead. -/
def Ahead (sn : Int) (atn : Nat) (s : Shared) (t : Thread) (a : Act) (t' : Thread) : Prop :=
  t'.due sn atn < t.due sn atn ∨
    t'.due sn atn = t.due sn atn ∧ a.sem.Quiet s.run.sem ∧ t'.work (a.sem.apply s.run.sem) < t.work s.run.sem

section Steps
variable {sn : Int} {atn i : Nat} {s : Shared} {t t' : Thread} {p : Pc} {log : List Semaphore.Act}

theorem ahead_of_look {a : Act} (ha : a.sem = .look) (hdue : t'.due sn atn = t.due sn atn)
    (hlt : t'.work s.run.sem < t.work s.run.sem) : Ahead sn atn s t a t' := by
  refine .inr ⟨hdue, ?_, ?_⟩ <;> rw [ha]
  · exact quiet_of_same rfl rfl
  · exact hlt

theorem acquireLoad_work (s : Semaphore.Shared) : Pc.acquireLoad.work s ≤ 12 := by
  by_cases hpos : 0 < s.remaining <;> simp [Pc.work, hpos]

/-- A thread in `acquire`. -/
theorem acquire_ahead (hb : s.run.sem.Bounded sn) (hf : p.Fits sn) (hin : p.inRelease = false)
    (hfree : p.returned = false → p.Free s.run.sem) :
    ∃ x a t', Thread.step sn atn s ⟨.acquire, ⟨some p, log⟩⟩ x = some (a, t') ∧
      Ahead sn atn s ⟨.acquire, ⟨some p, log⟩⟩ a t' := by
  by_cases hret : p.returned = true
  · have hp : p = .acquireReturns := by
      cases p with
      | acquireReturns => rfl
      | releaseReturns _ => cases hin
      | _ => cases hret
    subst hp
    exact ⟨.go, _, _, rfl, ahead_of_look rfl rfl (Nat.lt_succ_self 2)⟩
  · have hret := Bool.eq_false_of_not_eq_true hret
    have hroom : p.releaseReads = true → s.run.sem.remaining < sn := by
      intro hreads
      obtain rfl | ⟨e, rfl⟩ := Pc.releaseReads_cases hreads <;> cases hin
    obtain ⟨x, a, p', hstep, hahead⟩ := Pc.exists_ahead hb hf (hfree hret) hret hroom
    refine ⟨x, .run (.sem a), ⟨.acquire, ⟨some p', log ++ a.effect⟩⟩, ?_, hahead⟩
    simp [Thread.step, Thread.call, Caller.step, hret, hstep]

/-- The thread that gives the permits back, in `release`. -/
theorem release_ahead (hb : s.run.sem.Bounded sn) (hf : p.Fits sn) (hin : p.inRelease = true)
    (hfree : p.returned = false → p.Free s.run.sem ∧ (p.releaseReads = true → s.run.sem.remaining < sn)) :
    ∃ x a t', Thread.step sn atn s ⟨.release i, ⟨some p, log⟩⟩ x = some (a, t') ∧
      Ahead sn atn s ⟨.release i, ⟨some p, log⟩⟩ a t' := by
  by_cases hret : p.returned = true
  · cases p with
    | acquireReturns => cases hin
    | releaseReturns result =>
      cases result with
      | true => exact ⟨.go, _, _, rfl, .inl (Nat.lt_succ_self _)⟩
      | false => exact ⟨.go, _, _, rfl, ahead_of_look rfl rfl (Nat.lt_succ_self 8)⟩
    | _ => cases hret
  · have hret := Bool.eq_false_of_not_eq_true hret
    obtain ⟨hfree, hroom⟩ := hfree hret
    obtain ⟨x, a, p', hstep, hahead⟩ := Pc.exists_ahead hb hf hfree hret hroom
    refine ⟨x, .run (.sem a), ⟨.release i, ⟨some p', log ++ a.effect⟩⟩, ?_, ?_⟩
    · simp [Thread.step, Thread.call, Caller.step, hret, hstep]
    · rcases hahead with hlt | ⟨heq, hquiet⟩
      · exact .inl (Nat.add_lt_add_left hlt _)
      · exact .inr ⟨congrArg (3 * (releases sn atn - (i + 1)) + ·) heq, hquiet⟩

/-- A thread that is not held up gets ahead. -/
theorem Thread.exists_ahead (hb : s.run.sem.Bounded sn) (hf : ∀ p, t.caller.pc = some p → p.Fits sn)
    (hsound : t.Sound sn atn) (hfree : ¬t.Held sn atn s) :
    ∃ x a t', t.step sn atn s x = some (a, t') ∧ Ahead sn atn s t a t' := by
  obtain ⟨place, pc, log⟩ := t
  cases place with
  | count =>
    have hpc : pc = none := hsound
    subst hpc
    exact ⟨.go, _, _, rfl, ahead_of_look rfl rfl (Nat.lt_succ_self 16)⟩
  | leave => exact ⟨.go, _, _, rfl, ahead_of_look rfl rfl Nat.zero_lt_two⟩
  | ended | done => exact absurd trivial hfree
  | await =>
    have hac : ¬s.ac.toInt < atn := hfree
    exact ⟨.go, .look, ⟨.loop 0, ⟨pc, log⟩⟩, by simp [Thread.step, hac], ahead_of_look rfl rfl (Nat.lt_succ_self 9)⟩
  | join =>
    have hended : s.ended = atn := not_not.mp hfree
    exact ⟨.go, .look, ⟨.done, ⟨pc, log⟩⟩, if_pos hended, ahead_of_look rfl rfl Nat.zero_lt_one⟩
  | loop i =>
    obtain ⟨hpc, hi⟩ : pc = none ∧ i ≤ releases sn atn := hsound
    subst hpc
    by_cases hlt : (i : Int) < atn - sn
    · refine ⟨.go, .look, ⟨.release i, ⟨none, log⟩⟩, by simp [Thread.step, hlt],
        ahead_of_look rfl ?_ (Nat.lt_succ_self 8)⟩
      have : i < releases sn atn := by
        unfold releases
        omega
      simp only [Thread.due, Option.elim_none]
      omega
    · refine ⟨.go, .look, ⟨.join, ⟨none, log⟩⟩, by simp [Thread.step, hlt], ahead_of_look rfl ?_ (by decide : 1 < 9)⟩
      have : releases sn atn ≤ i := by
        unfold releases
        omega
      simp only [Thread.due]
      omega
  | acquire =>
    cases pc with
    | none =>
      exact ⟨.go, _, _, rfl, ahead_of_look rfl rfl (Nat.lt_of_le_of_lt (acquireLoad_work _) (by decide : 12 < 16))⟩
    | some p =>
      refine acquire_ahead hb (hf p rfl) (hsound p rfl) fun hret => ?_
      by_contra hno
      exact hfree ⟨p, rfl, hret, hno⟩
  | release i =>
    cases pc with
    | none => exact ⟨.go, _, _, rfl, ahead_of_look rfl rfl (Nat.lt_succ_self 7)⟩
    | some p =>
      refine release_ahead hb (hf p rfl) (hsound.2 p rfl) fun hret => ?_
      by_contra hno
      refine hfree ⟨p, rfl, hret, fun hfree => ?_⟩
      by_contra hroom
      exact hno ⟨hfree, fun hreads => lt_of_not_ge fun hge => hroom ⟨hreads, hge⟩⟩

end Steps

/-! ### Runs -/

/-- How far the test is from its end. -/
def distance (sn : Int) (atn : Nat) (s : State) : Nat ×ₗ Nat :=
  toLex (s.weight (Thread.due sn atn), s.weight (Thread.work s.shared.run.sem))

section Runs
variable {sn : Int} {atn i : Nat} {ac : Int32} {s : State} {t t' : Thread} {a : Act}

/-- No one else's work gets more by a quiet operation. -/
theorem quiet_work (hs : Guarded (view s)) (hq : a.sem.Quiet s.shared.run.sem) (ht : t ∈ s.threads) :
    t.work (a.sem.apply s.shared.run.sem) = t.work s.shared.run.sem := by
  have hsame : ∀ p, t.caller.pc = some p → p.work (a.sem.apply s.shared.run.sem) = p.work s.shared.run.sem := by
    intro p hp
    refine hq.work_eq fun k hk => hs.tracked.issued k ?_
    refine List.mem_filterMap.mpr ⟨t.caller, mem_view ht, ?_⟩
    simp only [Caller.ticket, hp, Option.bind_some, hk]
  obtain ⟨place, pc, log⟩ := t
  cases place with
  | acquire | release i =>
    cases pc with
    | none => rfl
    | some p => exact hsame p rfl
  | _ => rfl

theorem Ahead.distance_lt (h : Ahead sn atn s.shared t a t') (hs : Guarded (view s)) (hi : s.threads[i]? = some t) :
    distance sn atn ⟨a.apply s.shared, s.threads.set i t'⟩ < distance sn atn s := by
  have hdue := Config.weight_run (Thread.due sn atn) (a.apply s.shared) t' hi
  refine Prod.Lex.toLex_lt_toLex.mpr ?_
  rcases h with hlt | ⟨heq, hquiet, hlt⟩
  · left
    show Config.weight _ _ < s.weight _
    omega
  · right
    refine ⟨?_, ?_⟩
    · show Config.weight _ _ = s.weight _
      omega
    · simp only [apply_sem]
      exact Config.weight_lt_of_others _ hi (fun u hu => quiet_work hs hquiet hu) hlt

/-- As long as a thread is not held up, the test comes closer to its end. -/
theorem exists_closer (hsn : 0 ≤ sn) (h : Reachable sn atn ac s) (ht : t ∈ s.threads)
    (hfree : ¬t.Held sn atn s.shared) :
    ∃ s', Reach (machine sn atn) .any s s' ∧ distance sn atn s' < distance sn atn s := by
  have hview := view_reachable h
  have hledger := ledger hsn hview
  have hsound := (inv hsn h).sound t ht
  obtain ⟨x, a, t', hstep, hahead⟩ := Thread.exists_ahead hledger.bounded (hledger.fits _ (mem_view ht)) hsound hfree
  obtain ⟨i, hi⟩ := List.getElem?_of_mem ht
  exact ⟨_, .run .start rfl hi hstep trivial, hahead.distance_lt (guarded hsn hview) hi⟩

/-! ### All threads held up -/

section AllHeld
variable (hsn : 1 ≤ sn) (hr : Reachable sn atn ac s) (hall : ∀ t ∈ s.threads, t.Held sn atn s.shared)
include hsn hr hall

/-- The thread that has the mutex could go on. -/
theorem mtx_of_held : s.shared.run.sem.mtx = false := by
  have hlocked : (view s).weight (Caller.count Pc.holds) = s.shared.run.sem.mtx.toNat :=
    (guarded (by omega) (view_reachable hr)).locked
  rw [view_weight] at hlocked
  by_contra hmtx
  have hpos : 0 < s.weight fun t => t.caller.count Pc.holds := by
    rw [hlocked, Bool.eq_true_of_not_eq_false hmtx]
    exact Nat.zero_lt_one
  obtain ⟨t, ht, hholds⟩ := Config.weight_pos.mp hpos
  have hheld := hall t ht
  have hsound := (inv (by omega) hr).sound t ht
  obtain ⟨place, pc, log⟩ := t
  cases pc with
  | none => cases hholds
  | some p =>
    obtain ⟨hfree, -, hreads⟩ := Pc.free_of_holds (s := s.shared.run.sem) hholds
    cases place with
    | acquire =>
      obtain ⟨_, hp, -, hno⟩ := hheld
      cases hp
      exact hno hfree
    | release i =>
      obtain ⟨_, hp, -, hno⟩ := hheld
      cases hp
      rw [(hno hfree).1] at hreads
      cases hreads
    | loop i => exact hheld
    | _ => cases hsound

/-- A thread in `acquire` is blocked. -/
theorem blocked_of_held {c : Caller} (ht : ⟨.acquire, c⟩ ∈ s.threads) :
    ∃ k ∈ s.shared.run.sem.cv.waiting, c.pc = some (.waiting k) := by
  have hmtx := mtx_of_held hsn hr hall
  obtain ⟨p, hp, -, hno⟩ := hall _ ht
  cases p with
  | waiting k => exact ⟨k, not_not.mp hno, hp⟩
  | acquireLock | relock | releaseLock => exact absurd hmtx hno
  | _ => exact absurd trivial hno

/-- All permits are there when the thread that gives them back is held up in `release`. -/
theorem full_of_held {c : Caller} (ht : ⟨.release i, c⟩ ∈ s.threads) :
    (∃ p, c.pc = some p ∧ p.releaseReads = true) ∧ sn ≤ s.shared.run.sem.remaining := by
  have hmtx := mtx_of_held hsn hr hall
  have hsound : i < releases sn atn ∧ ∀ p, c.pc = some p → p.inRelease = true := (inv (by omega) hr).sound _ ht
  obtain ⟨p, hp, -, hno⟩ := hall _ ht
  have hfree : p.Free s.shared.run.sem := by
    have hin := hsound.2 p hp
    cases p with
    | waiting k => cases hin
    | acquireLock | relock | releaseLock => exact hmtx
    | _ => trivial
  exact ⟨⟨p, hp, (hno hfree).1⟩, (hno hfree).2⟩

/-- What the threads are doing. -/
theorem pc_of_held (ht : t ∈ s.threads) :
    t.caller.pc = none ∨ (∃ k ∈ s.shared.run.sem.cv.waiting, t.caller.pc = some (.waiting k)) ∨
      ∃ p, t.caller.pc = some p ∧ p.releaseReads = true := by
  have hsound := (inv (by omega) hr).sound t ht
  obtain ⟨place, c⟩ := t
  cases place with
  | acquire => exact .inr (.inl (blocked_of_held hsn hr hall ht))
  | release i => exact .inr (.inr (full_of_held hsn hr hall ht).1)
  | loop i => exact .inl hsound.1
  | _ => exact .inl hsound

/-- No permit is left when a thread is blocked: there is no one who would pass it on. -/
theorem none_left {k : Nat} (hk : k ∈ s.shared.run.sem.cv.waiting) : s.shared.run.sem.remaining = 0 := by
  have hview := view_reachable hr
  have hg := guarded (by omega) hview
  have hcount : ∀ c ∈ (view s).threads, c.count Pc.covers = c.ticket.toList.length := by
    intro c hc
    obtain ⟨t, ht, rfl⟩ := List.mem_map.mp hc
    unfold Caller.count Caller.ticket
    rcases pc_of_held hsn hr hall ht with hpc | ⟨k, -, hpc⟩ | ⟨p, hpc, hreads⟩ <;> rw [hpc]
    · rfl
    · rfl
    · obtain rfl | ⟨e, rfl⟩ := Pc.releaseReads_cases hreads <;> rfl
  have hsub : (view s).gather Caller.ticket ⊆ s.shared.run.sem.cv.waiting := by
    intro k hk
    obtain ⟨c, hc, hck⟩ := List.mem_filterMap.mp hk
    obtain ⟨t, ht, rfl⟩ := List.mem_map.mp hc
    unfold Caller.ticket at hck
    rcases pc_of_held hsn hr hall ht with hpc | ⟨k', hk', hpc⟩ | ⟨p, hpc, hreads⟩ <;> rw [hpc] at hck
    · cases hck
    · cases hck
      exact hk'
    · obtain rfl | ⟨e, rfl⟩ := Pc.releaseReads_cases hreads <;> cases hck
  have hcovers : (view s).weight (Caller.count Pc.covers) = ((view s).gather Caller.ticket).length := by
    rw [Config.length_gather]
    exact congrArg List.sum (List.map_congr_left hcount)
  have hle : ((view s).gather Caller.ticket).length ≤ s.shared.run.sem.cv.waiting.length :=
    CondVar.Tracks.length_le_waiting hg.tracked hsub
  have hcov : s.shared.run.sem.remaining + s.shared.run.sem.cv.waiting.length ≤ _ :=
    hg.covered (Nat.add_pos_left (List.length_pos_of_mem hk) _)
  have hlo : 0 ≤ s.shared.run.sem.remaining := (ledger (by omega) hview).bounded.1
  omega

/-- The permits that are gone are those of the threads that have ended. -/
theorem takes_of_held : s.shared.run.takes = s.weight Thread.isEnded := by
  have hacquired : s.shared.run.acquired + (view s).weight (Caller.count Pc.taken) = s.shared.run.takes :=
    (ledger (by omega) (view_reachable hr)).acquired
  have htaken : (view s).weight (Caller.count Pc.taken) = 0 := by
    rw [view_weight]
    refine List.sum_eq_zero fun n hn => ?_
    obtain ⟨t, ht, rfl⟩ := List.mem_map.mp hn
    unfold Caller.count
    rcases pc_of_held hsn hr hall ht with hpc | ⟨k, -, hpc⟩ | ⟨p, hpc, hreads⟩ <;> rw [hpc]
    · rfl
    · rfl
    · obtain rfl | ⟨e, rfl⟩ := Pc.releaseReads_cases hreads <;> rfl
  have hended : s.weight Thread.hasAcquired = s.weight Thread.isEnded := by
    refine congrArg List.sum (List.map_congr_left fun t ht => ?_)
    have hheld := hall t ht
    obtain ⟨place, c⟩ := t
    cases place with
    | leave => exact hheld.elim
    | _ => rfl
  have := (inv (by omega) hr).acquired
  omega

section Counted
variable (hac : 0 ≤ ac.toInt ∧ ac.toInt + atn < 2 ^ 31)
include hac

/-- All threads have counted, so that no more is waited for. -/
theorem not_await {c : Caller} : ⟨.await, c⟩ ∉ s.threads := by
  intro ht
  have hlt : s.shared.ac.toInt < atn := hall _ ht
  have hcounting : s.weight Thread.isCounting = 0 := by
    refine List.sum_eq_zero fun n hn => ?_
    obtain ⟨u, hu, rfl⟩ := List.mem_map.mp hn
    have hheld := hall u hu
    obtain ⟨place, c⟩ := u
    cases place with
    | count => exact hheld.elim
    | _ => rfl
  have hcounted := (inv (by omega) hr).counted
  rw [hcounting, Int.bmod_eq_of_le (by omega) (by omega)] at hcounted
  omega

/-- The thread that has called `TestB` has given all permits back, or all are there. -/
theorem main_of_held : sn ≤ s.shared.run.sem.remaining ∨ releases sn atn ≤ s.shared.run.gives := by
  have hinv := inv (by omega) hr
  obtain ⟨t, ht, hmain⟩ := hinv.exists_main
  have hheld := hall t ht
  have hgiven := Config.le_weight (f := Thread.given sn atn) ht
  rw [← hinv.gives] at hgiven
  obtain ⟨place, c⟩ := t
  cases place with
  | await => exact absurd ht (not_await hsn hr hall hac)
  | release i => exact .inl (full_of_held hsn hr hall ht).2
  | loop i => exact hheld.elim
  | join | done => exact .inr hgiven
  | count | acquire | leave | ended => cases hmain

/-- No thread is left in `acquire`. -/
theorem none_underWay : s.weight Thread.isUnderWay = 0 := by
  by_contra hne
  have hinv := inv (by omega) hr
  obtain ⟨t, ht, hunder⟩ := Config.weight_pos.mp (Nat.pos_of_ne_zero hne)
  have hheld := hall t ht
  obtain ⟨place, c⟩ := t
  cases place with
  | acquire =>
    obtain ⟨k, hk, -⟩ := blocked_of_held hsn hr hall ht
    have hzero := none_left hsn hr hall hk
    have htakes := takes_of_held hsn hr hall
    have hstarted := hinv.started
    have hcounted : s.shared.run.sem.remaining = sn - s.shared.run.takes + s.shared.run.gives :=
      (ledger (by omega) (view_reachable hr)).counted
    -- one that has returned from `acquire` has ended, so that fewer permits than `atn` are gone
    rcases main_of_held hsn hr hall hac with hfull | hgives
    · omega
    · unfold releases at hgives
      omega
  | count | leave => exact hheld.elim
  | _ => cases hunder

/-- So all threads are through. -/
theorem over_of_held : Over s := by
  intro t ht
  have hinv := inv (by omega) hr
  have hunder := none_underWay hsn hr hall hac
  have hstarted := hinv.started
  have hle := Config.le_weight (f := Thread.isUnderWay) ht
  have hheld := hall t ht
  rw [hunder] at hle
  obtain ⟨place, c⟩ := t
  cases place with
  | ended => exact .inl rfl
  | done => exact .inr rfl
  | await => exact absurd ht (not_await hsn hr hall hac)
  | loop i => exact hheld.elim
  | count | acquire | leave => exact absurd hle (Nat.not_succ_le_zero 0)
  | join =>
    have := hinv.ended
    exact absurd (by omega) hheld
  | release i =>
    -- all threads have got a permit, and all permits are there again: more than `atn - sn` have been given back
    have hlt : i < releases sn atn := (hinv.sound _ ht).1
    have hfull := (full_of_held hsn hr hall ht).2
    have hgives := hinv.gives_le
    have htakes := takes_of_held hsn hr hall
    have hcounted : s.shared.run.sem.remaining = sn - s.shared.run.takes + s.shared.run.gives :=
      (ledger (by omega) (view_reachable hr)).counted
    unfold releases at hlt hgives
    omega

end Counted

end AllHeld

/-- From wherever it is, the test can come to its end. -/
theorem exists_over (hsn : 1 ≤ sn) (hac : 0 ≤ ac.toInt ∧ ac.toInt + atn < 2 ^ 31) (h : Reachable sn atn ac s) :
    ∃ s', Reach (machine sn atn) .any s s' ∧ Over s' := by
  have hcloser : ∀ s, Reachable sn atn ac s → ¬Over s →
      ∃ s', Reach (machine sn atn) .any s s' ∧ Reachable sn atn ac s' ∧ distance sn atn s' < distance sn atn s := by
    intro s hr hover
    have hfree : ∃ t ∈ s.threads, ¬t.Held sn atn s.shared := by
      by_contra hno
      push Not at hno
      exact hover (over_of_held hsn hr hno hac)
    obtain ⟨t, ht, hfree⟩ := hfree
    obtain ⟨s', hreach, hlt⟩ := exists_closer (by omega) hr ht hfree
    exact ⟨s', hreach, hr.trans hreach, hlt⟩
  obtain ⟨s', hreach, -, hover⟩ := Reach.exists_of_measure (distance sn atn) hcloser h
  exact ⟨s', hreach, hover⟩

/-! ### The wait for `ac` -/

/-- The thread that has called `TestB` waits until all threads have counted. -/
def Waiting (s : State) : Prop := ∀ t ∈ s.threads, t.isMain = 1 → t.place = .await

theorem Waiting.run (h : Waiting s) (hi : s.threads[i]? = some t) (hs : Step sn atn s.shared t a t')
    (hac : s.shared.ac.toInt < atn) : Waiting ⟨a.apply s.shared, s.threads.set i t'⟩ := by
  intro u hu hmain
  rcases eq_or_of_mem_set hu with rfl | ⟨j, -, hj⟩
  · have hwas := h t (List.mem_of_getElem? hi)
    cases hs with
    | awaitOn _ => rfl
    | awaitOver hno => exact absurd hac hno
    | count | leave | acquireCall | acquire _ | acquireReturns _ => cases hmain
    | _ => cases hwas rfl
  · exact h u (List.mem_of_getElem? hj) hmain

theorem Waiting.start (sn : Int) (atn : Nat) (ac : Int32) : Waiting ⟨.init sn ac, threads atn⟩ := by
  intro t ht hmain
  rcases List.mem_cons.mp ht with rfl | ht
  · rfl
  · rw [List.eq_of_mem_replicate ht] at hmain
    cases hmain

/-- A thread that has not counted can do so. -/
theorem exists_count (h : Waiting s) (hne : s.weight Thread.isCounting ≠ 0) :
    ∃ s', Reach (machine sn atn) .any s s' ∧ Waiting s' ∧
      s'.weight Thread.isCounting < s.weight Thread.isCounting := by
  obtain ⟨t, ht, hcounting⟩ := Config.weight_pos.mp (Nat.pos_of_ne_zero hne)
  obtain ⟨i, hi⟩ := List.getElem?_of_mem ht
  obtain ⟨place, c⟩ := t
  cases place with
  | count =>
    have hstep : Reach (machine sn atn) .any s ⟨Act.count.apply s.shared, s.threads.set i ⟨.acquire, c⟩⟩ :=
      .run (x := Choice.go) (a := Act.count) .start rfl hi rfl trivial
    refine ⟨_, hstep, ?_, ?_⟩
    · intro u hu hmain
      rcases eq_or_of_mem_set hu with rfl | ⟨j, -, hj⟩
      · cases hmain
      · exact h u (List.mem_of_getElem? hj) hmain
    · have hweight := Config.weight_run Thread.isCounting (Act.count.apply s.shared) ⟨.acquire, c⟩ hi
      have hone : Thread.isCounting ⟨.count, c⟩ = 1 := rfl
      have hzero : Thread.isCounting ⟨.acquire, c⟩ = 0 := rfl
      omega
  | _ => cases hcounting

/-- All threads can count before it looks at `ac`. -/
theorem exists_counted (sn : Int) (atn : Nat) (ac : Int32) :
    ∃ s, Reachable sn atn ac s ∧ Waiting s ∧ s.weight Thread.isCounting = 0 :=
  Reach.exists_of_measure (Config.weight Thread.isCounting) (fun _ hwaiting hne => exists_count hwaiting hne)
    (Waiting.start sn atn ac)

/-- When all have counted and `ac` is not right, it waits for ever. -/
theorem waits_for_ever {s' : State} (hsn : 0 ≤ sn) (hac : (ac.toInt + atn).bmod (2 ^ 32) < atn)
    (hr : Reachable sn atn ac s) (hwaiting : Waiting s) (hcounted : s.weight Thread.isCounting = 0)
    (h : Reach (machine sn atn) .any s s') : Waiting s' ∧ s'.weight Thread.isCounting = 0 := by
  induction h with
  | start => exact ⟨hwaiting, hcounted⟩
  | @run s' i x t t' a hreach _ hi hs _ ih =>
    obtain ⟨hwaiting, hcounted⟩ := ih
    have hr' : Reachable sn atn ac s' := hr.trans hreach
    have hledger := ledger hsn (view_reachable hr')
    have hstep := Thread.step_cases hledger.bounded (hledger.fits _ (mem_view (List.mem_of_getElem? hi))) hs
    have hnow := (inv hsn hr').counted
    rw [hcounted, Nat.cast_zero, Int.sub_zero] at hnow
    refine ⟨hwaiting.run hi hstep (hnow ▸ hac), ?_⟩
    have hweight := Config.weight_run Thread.isCounting (a.apply s'.shared) t' hi
    have hle := Config.le_weight (f := Thread.isCounting) (List.mem_of_getElem? hi)
    show Config.weight Thread.isCounting (⟨a.apply s'.shared, s'.threads.set i t'⟩ : State) = 0
    rcases hstep.counts with ⟨-, hcount⟩ | ⟨-, hcount⟩ <;> omega
  | @enter _ k _ _ _ _ _ => exact k.elim

theorem not_over (hsn : 0 ≤ sn) (hr : Reachable sn atn ac s) (hwaiting : Waiting s) : ¬Over s := by
  intro hover
  obtain ⟨t, ht, hmain⟩ := (inv hsn hr).exists_main
  have hplace := hwaiting t ht hmain
  rcases hover t ht with hended | hdone
  · cases hplace.symm.trans hended
  · cases hplace.symm.trans hdone

end Runs

/-- `TestB` can always come to its end, unless `ac` is below zero at first or too great to count all threads. -/
theorem testB_completes (sn : Int) (hsn : 1 ≤ sn) (atn : Nat) (hatn : atn < 2 ^ 31) (ac : Int32) :
    (∀ s, Reachable sn atn ac s → ∃ s', Reach (machine sn atn) .any s s' ∧ Over s') ↔
      0 ≤ ac.toInt ∧ ac.toInt + atn < 2 ^ 31 := by
  constructor
  · intro hall
    by_contra hno
    have hac : (ac.toInt + atn).bmod (2 ^ 32) < atn := by
      have hlo := ac.le_toInt
      have hhi := ac.toInt_lt
      by_cases hneg : ac.toInt < 0
      · rw [Int.bmod_eq_of_le (by omega) (by omega)]
        omega
      · have hwrap : ac.toInt + atn = ac.toInt + atn - 2 ^ 32 + (2 ^ 32 : Nat) := by omega
        rw [hwrap, Int.add_bmod_right, Int.bmod_eq_of_le (by omega) (by omega)]
        omega
    obtain ⟨s, hr, hwaiting, hcounted⟩ := exists_counted sn atn ac
    obtain ⟨s', hreach, hover⟩ := hall s hr
    have hwaits := waits_for_ever (by omega) hac hr hwaiting hcounted hreach
    exact not_over (by omega) (hr.trans hreach) hwaits.1 hover
  · exact fun hac s hr => exists_over hsn hac hr

/-- Three threads share one permit. -/
theorem testB_completes_three : ∃ s, Reachable 1 3 0 s ∧ Over s :=
  (testB_completes 1 (by decide) 3 (by decide) 0).mpr (by decide) _ .start

end TestB
end Semaphore
