import CppProgramming.Lib.Interleaving

/-! # Condition variables

The threads that are blocked on a condition variable and have not been notified. A thread that blocks gets a
ticket, which is on the list `waiting` until the thread is notified or wakes up spuriously; a thread whose ticket
is not on the list may go on. -/

/-- The tickets given out so far, and those of the threads that are blocked and not notified. -/
structure CondVar where
  issued : Nat
  waiting : List Nat
  deriving DecidableEq, Repr

namespace CondVar

/-- Nobody waits. -/
def init : CondVar := ⟨0, []⟩

/-- The ticket of the next thread that blocks. -/
def ticket (c : CondVar) : Nat := c.issued

/-- A thread begins to wait, with the next ticket. -/
def block (c : CondVar) : CondVar := ⟨c.issued + 1, c.waiting ++ [c.issued]⟩

/-- The thread with the ticket `k` goes on, notified before or not. -/
def wake (k : Nat) (c : CondVar) : CondVar := { c with waiting := c.waiting.filter (· ≠ k) }

/-- The threads with the tickets `ks` are notified. -/
def notify (ks : List Nat) (c : CondVar) : CondVar := { c with waiting := c.waiting.filter (· ∉ ks) }

/-- A call of `notify_one` may notify `ks`: a blocked thread is among them if there is one. -/
def notifiesOne (ks : List Nat) (c : CondVar) : Bool := c.waiting.isEmpty || c.waiting.any (ks.contains ·)

/-- The threads inside the wait hold `tickets`. -/
structure Tracks (c : CondVar) (tickets : List Nat) : Prop where
  distinct : tickets.Nodup
  issued : ∀ k ∈ tickets, k < c.issued
  waitingDistinct : c.waiting.Nodup
  waiting : c.waiting ⊆ tickets

variable {c : CondVar} {ts ts' : List Nat} {k : Nat}

theorem init_tracks : init.Tracks [] := ⟨List.nodup_nil, by simp, List.nodup_nil, by simp [init]⟩

namespace Tracks

theorem perm (h : c.Tracks ts) (hp : ts.Perm ts') : c.Tracks ts' :=
  ⟨hp.nodup_iff.mp h.distinct, fun k hk => h.issued k (hp.mem_iff.mpr hk), h.waitingDistinct,
    fun _ hk => hp.mem_iff.mp (h.waiting hk)⟩

theorem block (h : c.Tracks ts) : c.block.Tracks (c.ticket :: ts) := by
  have hfresh : c.issued ∉ ts := fun hmem => Nat.lt_irrefl _ (h.issued _ hmem)
  refine ⟨List.nodup_cons.mpr ⟨hfresh, h.distinct⟩, ?_, ?_, ?_⟩
  · intro k hk
    rcases List.mem_cons.mp hk with rfl | hk
    · exact Nat.lt_succ_self _
    · exact Nat.lt_succ_of_lt (h.issued k hk)
  · refine List.nodup_append.mpr ⟨h.waitingDistinct, List.nodup_singleton _, ?_⟩
    rintro k hk k' hk' rfl
    exact hfresh (List.mem_singleton.mp hk' ▸ h.waiting hk)
  · intro k hk
    rcases List.mem_append.mp hk with hk | hk
    · exact List.mem_cons_of_mem _ (h.waiting hk)
    · exact List.mem_cons.mpr (Or.inl (List.mem_singleton.mp hk))

theorem wake (h : c.Tracks (k :: ts)) : (c.wake k).Tracks ts := by
  refine ⟨(List.nodup_cons.mp h.distinct).2, fun k' hk' => h.issued k' (List.mem_cons_of_mem _ hk'),
    h.waitingDistinct.filter _, ?_⟩
  intro k' hk'
  obtain ⟨hmem, hne⟩ := List.mem_filter.mp hk'
  rcases List.mem_cons.mp (h.waiting hmem) with rfl | hmem
  · simp at hne
  · exact hmem

theorem notify (h : c.Tracks ts) (ks : List Nat) : (c.notify ks).Tracks ts :=
  ⟨h.distinct, h.issued, h.waitingDistinct.filter _, fun _ hk => h.waiting (List.mem_filter.mp hk).1⟩

theorem waiting_length_le (h : c.Tracks ts) : c.waiting.length ≤ ts.length :=
  (h.waitingDistinct.subperm h.waiting).length_le

/-- No thread is notified: each ticket is on the list. -/
theorem length_le_waiting (h : c.Tracks ts) (hno : ts ⊆ c.waiting) : ts.length ≤ c.waiting.length :=
  (h.distinct.subperm hno).length_le

end Tracks

theorem wake_length_le : (c.wake k).waiting.length ≤ c.waiting.length := List.length_filter_le ..

theorem notify_length_lt {ks : List Nat} (h : c.notifiesOne ks = true) (hne : c.waiting ≠ []) :
    (c.notify ks).waiting.length < c.waiting.length := by
  simp only [notifiesOne, Bool.or_eq_true, List.isEmpty_iff, hne, false_or] at h
  obtain ⟨k, hk, hks⟩ := List.any_eq_true.mp h
  exact List.length_filter_lt_length_iff_exists.mpr ⟨k, hk, by simpa using hks⟩

end CondVar
