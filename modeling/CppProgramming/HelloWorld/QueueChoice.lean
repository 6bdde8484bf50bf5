import CppProgramming.HelloWorld.CallProtocol

/-! # The choice of a queue

`prepareAsyncCall` takes the queues in turn: `cqs[cqIdx++ % threadPoolSize]`. The counter is a signed 32-bit integer and
the remainder of C++ has its sign. -/

namespace HelloWorld.Client
open Interleaving

/-- The calls that have been bound to a queue. -/
def Shared.prepared (s : Shared) : Nat := (List.range s.created).countP fun c => (s.call c).queue.isSome

/-- `cqIdx++ % threadPoolSize` behind `k` calls. -/
def queueOf (threadPoolSize k : Nat) : Int := (BitVec.ofNat 32 k).toInt.tmod threadPoolSize

/-- The queue of the call behind `k` calls is there, and from this call on `threadPoolSize` calls use each queue once. -/
structure TakesTurns (threadPoolSize k : Nat) : Prop where
  nonneg : 0 ≤ queueOf threadPoolSize k
  lt : queueOf threadPoolSize k < threadPoolSize
  turns : ((List.range threadPoolSize).map fun j => queueOf threadPoolSize (k + j)).Perm
    ((List.range threadPoolSize).map Int.ofNat)

/-! ### The counter -/

theorem countP_range_congr {p q : Nat → Bool} {n : Nat} (h : ∀ i < n, q i = p i) :
    (List.range n).countP q = (List.range n).countP p :=
  List.countP_congr fun i hi => by rw [h i (List.mem_range.mp hi)]

/-- One number more has the property. -/
theorem countP_range_succ {p q : Nat → Bool} {n c : Nat} (hc : c < n) (hp : p c = false) (hq : q c = true)
    (hother : ∀ i, i ≠ c → q i = p i) : (List.range n).countP q = (List.range n).countP p + 1 := by
  induction n with
  | zero => cases hc
  | succ n ih =>
    rw [List.range_succ, List.countP_append, List.countP_append, List.countP_singleton, List.countP_singleton]
    rcases Nat.lt_succ_iff_lt_or_eq.mp hc with hlt | rfl
    · rw [ih hlt, hother n (Nat.ne_of_gt hlt)]
      omega
    · rw [countP_range_congr fun i hi => hother i (Nat.ne_of_lt hi), hp, hq]
      rfl

section Counter
variable {n : Nat} {s : State} {t t' : Thread} {a : Act} {x : Choice}

theorem prepared_congr {s s' : Shared} (hcreated : s'.created = s.created)
    (hqueue : ∀ c < s.created, (s'.call c).queue = (s.call c).queue) : s'.prepared = s.prepared := by
  unfold Shared.prepared
  rw [hcreated]
  exact countP_range_congr fun c hc => by rw [hqueue c hc]

/-- Only `prepareAsyncCall` binds a call, and it increments `cqIdx`. -/
theorem Inv.prepared_step (h : Inv s) (ht : t ∈ s.threads) (hs : Step s.shared t a t')
    (hcount : s.shared.cqIdx = BitVec.ofNat 32 s.shared.prepared) :
    (a.apply s.shared).cqIdx = BitVec.ofNat 32 (a.apply s.shared).prepared := by
  have hkept : (∀ c key queue, a ≠ .prepare c key queue) →
      ∀ c < s.shared.created, ((a.apply s.shared).call c).queue = (s.shared.call c).queue := by
    intro hno c hc
    rcases hs.unprepared hc with ⟨kind, key, rfl⟩ | ⟨-, hqueue⟩
    · cases hs with
      | user hs =>
        cases hs with
        | prepare => exact absurd rfl (hno _ _ _)
    · exact hqueue
  have hsame : (∀ c key queue, a ≠ .prepare c key queue) → (a.apply s.shared).created = s.shared.created →
      (a.apply s.shared).prepared = s.shared.prepared := fun hno hcreated => prepared_congr hcreated (hkept hno)
  cases a with
  | prepare c key queue =>
    obtain ⟨kind, rfl⟩ := hs.of_prepare
    obtain ⟨hc, -, -, -, hqueue⟩ := h.knows _ ht
    have hone : (Act.apply (.prepare c key queue) s.shared).prepared = s.shared.prepared + 1 := by
      refine countP_range_succ hc (by rw [hqueue]; rfl) ?_ fun i hi => ?_
      · simp [Act.apply, Shared.modify]
      · simp [Act.apply, Shared.modify, Function.update_of_ne hi]
    rw [hone]
    show s.shared.cqIdx + 1 = _
    rw [hcount, BitVec.ofNat_add]
    rfl
  | register kind key manager =>
    -- The new call is behind the ones that are counted, and it is not bound yet.
    have hold : (List.range s.shared.created).countP
        (fun c => ((Act.apply (.register kind key manager) s.shared).call c).queue.isSome) = s.shared.prepared :=
      countP_range_congr fun c hc => by rw [hkept (fun _ _ _ hno => by cases hno) c hc]
    have hnew : (Act.apply (.register kind key manager) s.shared).prepared = s.shared.prepared := by
      show (List.range (s.shared.created + 1)).countP _ = _
      rw [List.range_succ, List.countP_append, hold]
      simp [Act.apply, Shared.modify]
    rw [hnew]
    exact hcount
  | look | post o | complete j | sem c a | setFinish c | setClosed c | remove key =>
    rw [hsame (fun _ _ _ hno => by cases hno) rfl]
    exact hcount

theorem cqIdx_eq (h : Reachable n s) : s.shared.cqIdx = BitVec.ofNat 32 s.shared.prepared := by
  induction h with
  | start => rfl
  | run hr _ hi hs _ ih =>
    have hinv := inv hr
    have ht := List.mem_of_getElem? hi
    exact hinv.prepared_step ht (Thread.step_cases hinv.bounded (hinv.knows _ ht).fits hs) ih
  | enter _ _ _ ih => exact ih

/-- A call is bound to the queue that its number among the calls gives, whatever the threads. -/
theorem prepare_queue {c : Nat} {key : EventKey} {queue : Int} (h : Reachable n s) (ht : t ∈ s.threads)
    (hs : t.step n s.shared x = some (.prepare c key queue, t')) : queue = queueOf n s.shared.prepared := by
  have hinv := inv h
  obtain ⟨kind, rfl⟩ := (Thread.step_cases hinv.bounded (hinv.knows _ ht).fits hs).of_prepare
  obtain ⟨⟨a, p'⟩, hp, heq⟩ := Option.map_eq_some_iff.mp hs
  cases heq
  cases x with
  | go =>
    cases hp
    rw [queueOf, ← cqIdx_eq h]
  | _ => cases hp

end Counter

/-! ### Turns -/

section Turns
variable {n k m : Nat}

theorem queueOf_mod (n k : Nat) : queueOf n k = queueOf n (k % 2 ^ 32) := by
  unfold queueOf
  congr 2
  exact BitVec.eq_of_toNat_eq (by simp)

/-- As long as the counter is not negative, the queues come in turn. -/
theorem queueOf_of_lt (n : Nat) (h : m < 2 ^ 31) : queueOf n m = (m % n : Nat) := by
  have hint : (BitVec.ofNat 32 m).toInt = m := by
    rw [BitVec.toInt_ofNat', Int.bmod_def]
    omega
  rw [queueOf, hint]
  exact Int.ofNat_tmod m n

/-- Behind the wrap no index is positive. -/
theorem queueOf_of_le (n : Nat) (h : 2 ^ 31 ≤ m) (hm : m < 2 ^ 32) : queueOf n m = -((2 ^ 32 - m) % n : Nat) := by
  have hint : (BitVec.ofNat 32 m).toInt = -((2 ^ 32 - m : Nat) : Int) := by
    rw [BitVec.toInt_ofNat', Int.bmod_def]
    omega
  rw [queueOf, hint, Int.neg_tmod, Int.ofNat_tmod]

theorem dvd_of_nonneg (h : 2 ^ 31 ≤ m) (hm : m < 2 ^ 32) (hq : 0 ≤ queueOf n m) : n ∣ 2 ^ 32 - m := by
  rw [queueOf_of_le n h hm] at hq
  apply Nat.dvd_of_mod_eq_zero
  omega

/-- `n` consecutive numbers have all remainders. -/
theorem range_mod_perm (n m : Nat) : ((List.range n).map fun j => (m + j) % n).Perm (List.range n) := by
  have hsub : (List.range n).map (fun j => (m + j) % n) ⊆ List.range n := by
    intro i hi
    obtain ⟨j, hj, rfl⟩ := List.mem_map.mp hi
    exact List.mem_range.mpr (Nat.mod_lt _ (Nat.zero_lt_of_lt (List.mem_range.mp hj)))
  have hnodup : ((List.range n).map fun j => (m + j) % n).Nodup := by
    refine List.nodup_range.map_on fun i hi j hj heq => ?_
    have hmod : i ≡ j [MOD n] := Nat.ModEq.add_left_cancel' m heq
    rw [Nat.ModEq, Nat.mod_eq_of_lt (List.mem_range.mp hi), Nat.mod_eq_of_lt (List.mem_range.mp hj)] at hmod
    exact hmod
  exact (List.subperm_of_subset hnodup hsub).perm_of_length_le (by rw [List.length_map])

theorem TakesTurns.of_mod (hpos : 1 ≤ n) (h : ∀ j < n, queueOf n (k + j) = ((m + j) % n : Nat)) : TakesTurns n k := by
  have hfirst : queueOf n k = (m % n : Nat) := h 0 hpos
  refine ⟨?_, ?_, ?_⟩
  · rw [hfirst]
    exact Int.natCast_nonneg _
  · rw [hfirst]
    exact Int.ofNat_lt.mpr (Nat.mod_lt _ hpos)
  · have hmap : (List.range n).map (fun j => queueOf n (k + j)) =
        ((List.range n).map fun j => (m + j) % n).map Int.ofNat := by
      rw [List.map_map]
      exact List.map_congr_left fun j hj => h j (List.mem_range.mp hj)
    rw [hmap]
    exact (range_mod_perm n m).map _

theorem TakesTurns.nonneg_of_lt {j : Nat} (h : TakesTurns n k) (hj : j < n) : 0 ≤ queueOf n (k + j) := by
  have hmem := h.turns.subset (List.mem_map_of_mem (List.mem_range.mpr hj))
  obtain ⟨i, -, hi⟩ := List.mem_map.mp hmem
  rw [← hi]
  exact Int.natCast_nonneg i

/-- There is one queue, or all the calls are in front of the wrap, or the last one is the first behind it and
    `threadPoolSize` divides `2 ^ 31`. -/
def BeforeWrap (threadPoolSize k : Nat) : Prop :=
  threadPoolSize = 1 ∨ k % 2 ^ 32 + threadPoolSize ≤ 2 ^ 31 ∨
    k % 2 ^ 32 + threadPoolSize = 2 ^ 31 + 1 ∧ threadPoolSize ∣ 2 ^ 31

theorem queueOf_add (n k j : Nat) : queueOf n (k + j) = queueOf n ((k % 2 ^ 32 + j) % 2 ^ 32) := by
  rw [queueOf_mod, Nat.mod_add_mod]

theorem takesTurns_of_beforeWrap (hpos : 1 ≤ n) (hint : n < 2 ^ 31) (h : BeforeWrap n k) : TakesTurns n k := by
  rcases h with rfl | hle | ⟨hlast, hdvd⟩
  · refine .of_mod (m := 0) hpos fun j hj => ?_
    rw [queueOf, Nat.cast_one, Int.tmod_one, Nat.mod_one]
    rfl
  · refine .of_mod (m := k % 2 ^ 32) hpos fun j hj => ?_
    rw [queueOf_add, Nat.mod_eq_of_lt (by omega), queueOf_of_lt n (by omega)]
  · refine .of_mod (m := k % 2 ^ 32) hpos fun j hj => ?_
    rw [queueOf_add, Nat.mod_eq_of_lt (by omega)]
    rcases Nat.lt_or_ge (k % 2 ^ 32 + j) (2 ^ 31) with hlt | hge
    · exact queueOf_of_lt n hlt
    · have heq : k % 2 ^ 32 + j = 2 ^ 31 := by omega
      rw [heq, queueOf_of_le n (le_refl _) (by decide), Nat.mod_eq_zero_of_dvd hdvd]
      exact neg_eq_zero.mpr (congrArg Nat.cast (Nat.mod_eq_zero_of_dvd hdvd))

/-- Two calls in a row cannot both find the queue 0 behind the wrap. -/
theorem TakesTurns.beforeWrap (h : TakesTurns n k) : BeforeWrap n k := by
  have hm : k % 2 ^ 32 < 2 ^ 32 := Nat.mod_lt _ (by decide)
  have hpos : 0 < n := by
    have hlt := h.lt
    have hnonneg := h.nonneg
    omega
  have hdvd : ∀ j < n, 2 ^ 31 ≤ k % 2 ^ 32 + j → k % 2 ^ 32 + j < 2 ^ 32 → n ∣ 2 ^ 32 - (k % 2 ^ 32 + j) := by
    intro j hj hwrapped hlt
    have hnonneg := h.nonneg_of_lt hj
    rw [queueOf_add, Nat.mod_eq_of_lt hlt] at hnonneg
    exact dvd_of_nonneg hwrapped hlt hnonneg
  have hrow : ∀ j, j + 1 < n → 2 ^ 31 ≤ k % 2 ^ 32 + j → 2 ^ 32 ≤ k % 2 ^ 32 + (j + 1) := by
    intro j hj hwrapped
    by_contra hlt
    have hfirst := hdvd j (by omega) hwrapped (by omega)
    have hnext := hdvd (j + 1) hj (by omega) (by omega)
    have hone : n ∣ 1 := (Nat.dvd_add_right hnext).mp (by convert hfirst using 1; omega)
    have hn := Nat.le_of_dvd Nat.one_pos hone
    omega
  by_contra hno
  simp only [BeforeWrap, not_or, not_and] at hno
  obtain ⟨hone, hbehind, hlast⟩ := hno
  have hback := hrow (2 ^ 31 - k % 2 ^ 32)
  rcases Nat.lt_or_ge (k % 2 ^ 32) (2 ^ 31) with hfront | hwrapped
  · have hsum : k % 2 ^ 32 + n = 2 ^ 31 + 1 := by omega
    have hval : 2 ^ 32 - (k % 2 ^ 32 + (n - 1)) = 2 ^ 31 := by omega
    exact hlast hsum (hval ▸ hdvd (n - 1) (by omega) (by omega) (by omega))
  · -- The counter is at -1.
    have hminus := hdvd 0 hpos (by omega) (by omega)
    have hval : 2 ^ 32 - (k % 2 ^ 32 + 0) = 1 := by omega
    rw [hval] at hminus
    exact hone (Nat.dvd_one.mp hminus)

end Turns

/-- Every call is bound to the queue that its number gives, in all interleavings. This queue is there and each
    queue is used once by so many calls in a row, if and only if they are in front of the wrap of `cqIdx`. -/
theorem prepareAsyncCall_takesTurns_iff (threadPoolSize : Nat) (hpos : 1 ≤ threadPoolSize)
    (hint : threadPoolSize < 2 ^ 31) :
    (∀ (s : State) (t t' : Thread) (x : Choice) (c : Nat) (key : EventKey) (queue : Int),
      Reachable threadPoolSize s → t ∈ s.threads →
      t.step threadPoolSize s.shared x = some (.prepare c key queue, t') →
      queue = queueOf threadPoolSize s.shared.prepared) ∧
    ∀ k, TakesTurns threadPoolSize k ↔ BeforeWrap threadPoolSize k :=
  ⟨fun _ _ _ _ _ _ _ hs ht hstep => prepare_queue hs ht hstep,
    fun _ => ⟨TakesTurns.beforeWrap, takesTurns_of_beforeWrap hpos hint⟩⟩

theorem prepareAsyncCall_takesTurns_first :
    ∃ s, Reachable 8 s ∧ (∃ t ∈ s.threads, ∃ c key t', t.step 8 s.shared .go = some (.prepare c key 0, t')) ∧
      queueOf 8 s.shared.prepared = 0 ∧ TakesTurns 8 s.shared.prepared := by
  have hrun : ((clientProactor 8).exec (fun _ _ _ => true) (fun _ => true) (start 8)
      [.enter .unary, .run 8 .go]).any
      (fun s => s.shared.prepared = 0 ∧ s.shared.cqIdx = 0 ∧ .user (.prepare 0 .unary 1) ∈ s.threads) = true := by
    decide
  obtain ⟨s, hs, hp⟩ := Reach.exists_of_exec Rule.any (fun _ _ _ _ => trivial) (fun _ _ => trivial) hrun
  obtain ⟨hprepared, hidx, ht⟩ := of_decide_eq_true hp
  have hstep : (Thread.user (.prepare 0 .unary 1)).step 8 s.shared .go =
      some (.prepare 0 1 0, .user (.afterPrepare 0 .unary)) := by
    show some (Act.prepare 0 1 (s.shared.cqIdx.toInt.tmod 8), _) = _
    rw [hidx]
    rfl
  obtain ⟨hqueue, hturns⟩ := prepareAsyncCall_takesTurns_iff 8 (by decide) (by decide)
  refine ⟨s, hs, ⟨_, ht, 0, 1, _, hstep⟩, (hqueue s _ _ .go 0 1 0 hs ht hstep).symm, (hturns _).mpr ?_⟩
  rw [hprepared]
  exact .inr (.inl (by decide))

/-- The second call behind the wrap is given the queue `-7` of 8. -/
theorem not_takesTurns_behind_wrap : ¬∀ threadPoolSize k, 1 ≤ threadPoolSize → TakesTurns threadPoolSize k := by
  intro h
  have hnonneg := (h 8 (2 ^ 31 + 1) (by decide)).nonneg
  exact absurd hnonneg (by decide)

end HelloWorld.Client
