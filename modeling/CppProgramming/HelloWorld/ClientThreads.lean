import CppProgramming.HelloWorld.CallProtocol

/-! # Who works on a call

A call has one user, who is in `acquire` of its semaphore when the poller of its queue is in `release`, and its object is
as it was created until the user prepares it. -/

namespace HelloWorld.Client
open Interleaving

/-! ### Users -/

/-- The thread is the user of the call `c`. -/
def Thread.uses (c : Nat) : Thread → Nat
  | .user (.prepare c' _ _) | .user (.acquire c' _ _ _) | .user (.post c' _ _) | .user (.idle c' _) =>
    if c' = c then 1 else 0
  | _ => 0

section Users
variable {n c i : Nat} {s : State} {t t' : Thread} {a : Act}

theorem uses_afterAcquire (c c' : Nat) (kind : CallKind) (posts : List ClientEventOpt) (p : Semaphore.Pc) :
    (Thread.user (.afterAcquire c' kind posts p)).uses c = if c' = c then 1 else 0 := by
  unfold UserPc.afterAcquire
  split <;> rfl

theorem uses_afterPost_le (c c' : Nat) (kind : CallKind) (opt : ClientEventOpt) (posts : List ClientEventOpt) :
    (Thread.user (.afterPost c' kind opt posts)).uses c ≤ if c' = c then 1 else 0 := by
  unfold UserPc.afterPost
  split
  · split
    · exact le_refl _
    · exact Nat.zero_le _
  · exact le_refl _

/-- A thread becomes the user of a call when it creates it. -/
theorem Step.uses_le {s : Shared} (h : Step s t a t') (hc : c < s.created) : t'.uses c ≤ t.uses c := by
  cases h with
  | user h =>
    cases h with
    | add => exact le_of_eq (if_neg (Nat.ne_of_gt hc))
    | prepare =>
      unfold UserPc.afterPrepare
      split <;> exact le_refl _
    | acquire => exact le_of_eq (uses_afterAcquire ..)
    | post => exact uses_afterPost_le ..
    | _ => exact le_refl _
  | poller h => exact le_refl _

/-- Nobody uses a call that does not exist yet. -/
theorem Thread.Knows.uses {s : Shared} (h : t.Knows s) (hc : s.created ≤ c) : t.uses c = 0 := by
  cases t with
  | user p =>
    cases p with
    | prepare c' kind key => exact if_neg (Nat.ne_of_lt (Nat.lt_of_lt_of_le h.1 hc))
    | acquire c' kind p posts => exact if_neg (Nat.ne_of_lt (Nat.lt_of_lt_of_le h.1.created hc))
    | post c' kind posts => exact if_neg (Nat.ne_of_lt (Nat.lt_of_lt_of_le h.1.created hc))
    | idle c' kind => exact if_neg (Nat.ne_of_lt (Nat.lt_of_lt_of_le h.1.created hc))
    | _ => rfl
  | poller k p => rfl

/-- A call has one user. -/
theorem uses_le_one (h : Reachable n s) (c : Nat) : s.weight (Thread.uses c) ≤ 1 := by
  induction h with
  | start =>
    refine le_trans (Nat.le_of_not_lt fun hpos => ?_) (Nat.zero_le 1)
    obtain ⟨t, ht, hp⟩ := Config.weight_pos.mp hpos
    obtain ⟨k, -, rfl⟩ := List.mem_map.mp ht
    exact Nat.lt_irrefl 0 hp
  | @run s i x t t' a hr _ hi hstep _ ih =>
    have hinv := inv hr
    have hk := hinv.knows t (List.mem_of_getElem? hi)
    have hs := Thread.step_cases hinv.bounded hk.fits hstep
    have hw := Config.weight_run (Thread.uses c) (a.apply s.shared) t' hi
    have hgoal : Config.weight (Thread.uses c) (⟨a.apply s.shared, s.threads.set i t'⟩ : State) ≤ 1 := by
      by_cases hc : c < s.shared.created
      · have := hs.uses_le hc
        omega
      · have hz : s.weight (Thread.uses c) = 0 := by
          refine Nat.eq_zero_of_not_pos fun hpos => ?_
          obtain ⟨u, hu, hp⟩ := Config.weight_pos.mp hpos
          rw [(hinv.knows u hu).uses (Nat.le_of_not_lt hc)] at hp
          exact Nat.lt_irrefl 0 hp
        have hle : t'.uses c ≤ 1 := by
          unfold Thread.uses
          split <;> first | exact Nat.zero_le 1 | (split <;> omega)
        omega
    exact hgoal
  | enter _ hk _ ih =>
    cases hk
    rw [Config.weight_enter]
    exact ih

end Users

/-! ### The two functions of the semaphore -/

/-- A user is in `acquire` and a poller in `release`. -/
def Thread.Halves : Thread → Prop
  | .user (.acquire _ _ p _) => p.inRelease = false
  | .poller _ (.release _ _ p _) => p.inRelease = true
  | _ => True

section Halves
variable {n : Nat} {s : State} {t t' : Thread} {a : Act}

theorem Step.halves {s : Shared} (h : Step s t a t') (ht : t.Halves) : t'.Halves := by
  cases h with
  | user h =>
    cases h with
    | prepare =>
      unfold UserPc.afterPrepare
      split
      · rfl
      · exact trivial
    | acquire hsem =>
      have hp := (hsem.acquiring ht).1
      unfold UserPc.afterAcquire
      split
      · exact trivial
      · exact hp
    | post =>
      unfold UserPc.afterPost
      split
      · split <;> exact trivial
      · exact trivial
    | write | close => rfl
    | _ => exact trivial
  | poller h =>
    cases h with
    | release | spin => rfl
    | releasing hsem => exact (hsem.releasing ht).1
    | _ => exact trivial

theorem halves (h : Reachable n s) : ∀ t ∈ s.threads, t.Halves := by
  induction h with
  | start =>
    intro t ht
    obtain ⟨k, -, rfl⟩ := List.mem_map.mp ht
    exact trivial
  | @run s i x t t' a hr _ hi hstep _ ih =>
    intro u hu
    rcases eq_or_of_mem_set hu with rfl | ⟨j, -, hj⟩
    · have hinv := inv hr
      have ht := List.mem_of_getElem? hi
      exact (Thread.step_cases hinv.bounded (hinv.knows t ht).fits hstep).halves (ih t ht)
    · exact ih u (List.mem_of_getElem? hj)
  | enter _ hk _ ih =>
    cases hk
    intro u hu
    rcases List.mem_append.mp hu with hu | hu
    · exact ih u hu
    · rw [List.mem_singleton.mp hu]
      exact trivial

end Halves

/-! ### New objects -/

section Fresh
variable {n c : Nat} {s : State} {t t' : Thread} {a : Act}

/-- A call that is not prepared is as it was created. -/
def Shared.Fresh (s : Shared) (c : Nat) : Prop :=
  (s.call c).key = none → s.call c = { kind := (s.call c).kind, registered := (s.call c).registered }

/-- Only the call of a thread that is prepared changes. -/
theorem Step.call_kept {s : Shared} (h : Step s t a t') (hk : t.Knows s) (hc : c < s.created)
    (hkey : ((a.apply s).call c).key = none) : (a.apply s).call c = s.call c := by
  have hupdate : ∀ {c' : Nat} {kind : CallKind} {y : Call}, Prepared s c' kind →
      (a.apply s).call = Function.update s.call c' y → y.key = (s.call c').key → (a.apply s).call c = s.call c := by
    intro c' kind y hp hcall hy
    by_cases heq : c = c'
    · subst heq
      rw [hcall, Function.update_self, hy, hp.key] at hkey
      cases hkey
    · rw [hcall]
      exact Function.update_of_ne heq _ _
  cases h with
  | user h =>
    cases h with
    | add => exact Function.update_of_ne (Nat.ne_of_lt hc) _ _
    | @prepare c' kind key queue =>
      by_cases heq : c = c'
      · subst heq
        simp [Act.apply, Shared.modify] at hkey
      · exact Function.update_of_ne heq _ _
    | acquire | post => exact hupdate hk.1 rfl rfl
    | _ => rfl
  | poller h =>
    cases h with
    | post | setFinish | setClosed | releasing => exact hupdate hk.1.prepared rfl rfl
    | _ => rfl

theorem fresh (h : Reachable n s) : ∀ c < s.shared.created, s.shared.Fresh c := by
  induction h with
  | start => exact fun c hc => absurd hc (Nat.not_lt_zero c)
  | @run s i x t t' a hr _ hi hstep _ ih =>
    intro c hc
    have hinv := inv hr
    have hk := hinv.knows t (List.mem_of_getElem? hi)
    have hs := Thread.step_cases hinv.bounded hk.fits hstep
    show (a.apply s.shared).Fresh c
    intro hkey
    by_cases hold : c < s.shared.created
    · have hsame := hs.call_kept hk hold hkey
      rw [hsame]
      exact ih c hold (hsame ▸ hkey)
    · cases a with
      | register kind key manager =>
        obtain rfl : c = s.shared.created := Nat.le_antisymm (Nat.le_of_lt_succ hc) (Nat.le_of_not_lt hold)
        simp [Act.apply, Shared.modify]
      | _ => exact absurd hc hold
  | enter _ hk _ ih => exact ih

end Fresh

end HelloWorld.Client
