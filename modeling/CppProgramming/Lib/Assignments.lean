import Mathlib

/-! # Lines that assign

A text is read line by line: a line assigns a value to its key, does nothing, or fails, and the reading ends at the
first line that fails. In the end a key has the value of its last assignment that was read. The lines are independent
of each other if that is the last assignment there is, in whatever order the lines of different keys stand, and this
is decided by the lines of the keys for themselves. -/

namespace Assignments

/-- What a line does to its key. -/
inductive Effect (V : Type*) where
  | ignore
  | assign (v : V)
  | fail

variable {L κ V : Type*}

/-- The last value, or `d`. -/
def lastOr (d : V) (vs : List V) : V := vs.getLast?.getD d

theorem lastOr_of_forall {d : V} {vs : List V} (h : ∀ v ∈ vs, v = d) : lastOr d vs = d := by
  rcases List.eq_nil_or_concat vs with rfl | ⟨vs, v, rfl⟩
  · rfl
  · rw [lastOr, List.concat_eq_append, List.getLast?_concat]
    exact h v (by simp)

theorem lastOr_cons (d v : V) (vs : List V) : lastOr d (v :: vs) = lastOr v vs := by
  rw [lastOr, List.getLast?_cons]
  rfl

theorem lastOr_concat (d v : V) (vs : List V) : lastOr d (vs ++ [v]) = v := by
  rw [lastOr, List.getLast?_concat]
  rfl

/-! ### The reading -/

section Reading
variable (read : L → Option (κ × Effect V))

/-- The line ends the reading. -/
def fails (l : L) : Bool :=
  match read l with
  | some (_, .fail) => true
  | _ => false

/-- The lines in front of the first one that fails. -/
def executed (ls : List L) : List L := ls.takeWhile fun l => !fails read l

variable {read} {l : L} {ls front : List L}

theorem executed_of_not_fails (h : ∀ l ∈ ls, fails read l = false) : executed read ls = ls :=
  List.takeWhile_eq_self_iff.mpr fun l hl => by rw [h l hl]; rfl

theorem executed_append_of_not_fails (h : ∀ l ∈ front, fails read l = false) (ls : List L) :
    executed read (front ++ ls) = front ++ executed read ls :=
  List.takeWhile_append_of_pos fun l hl => by rw [h l hl]; rfl

theorem executed_cons_of_fails (h : fails read l = true) (ls : List L) : executed read (l :: ls) = [] := by
  rw [executed, List.takeWhile_cons_of_neg (by simp [h])]

theorem executed_append_of_fails (h : ∃ l ∈ front, fails read l = true) (ls : List L) :
    executed read (front ++ ls) = executed read front := by
  obtain ⟨l, hl, hf⟩ := h
  rw [executed, executed, List.takeWhile_append, if_neg]
  intro hlen
  have hall := List.takeWhile_eq_self_iff.mp ((List.takeWhile_prefix _).eq_of_length hlen) l hl
  simp [hf] at hall

/-- The first failing line of a text. -/
theorem exists_first_failing (h : ∃ l ∈ ls, fails read l = true) :
    ∃ front l behind, ls = front ++ l :: behind ∧ fails read l = true ∧ ∀ x ∈ front, fails read x = false := by
  induction ls with
  | nil =>
    obtain ⟨l, hl, -⟩ := h
    cases hl
  | cons x ls ih =>
    cases hx : fails read x with
    | true => exact ⟨[], x, ls, rfl, hx, fun y hy => by cases hy⟩
    | false =>
      obtain ⟨l, hl, hf⟩ := h
      rcases List.mem_cons.mp hl with rfl | hl
      · rw [hx] at hf
        cases hf
      · obtain ⟨front, l, behind, rfl, hl, hfront⟩ := ih ⟨l, hl, hf⟩
        refine ⟨x :: front, l, behind, rfl, hl, fun y hy => ?_⟩
        rcases List.mem_cons.mp hy with rfl | hy
        · exact hx
        · exact hfront y hy

end Reading

/-! ### Keys -/

section Keys
variable [DecidableEq κ] (read : L → Option (κ × Effect V)) (d : κ → V)

/-- The line is for the key `k`. -/
def hasKey (k : κ) (l : L) : Bool := (read l).any fun r => r.1 = k

/-- The value that the line gives to `k`. -/
def valueOf (k : κ) (l : L) : Option V :=
  match read l with
  | some (j, .assign v) => if j = k then some v else none
  | _ => none

/-- The lines with the key `k`. -/
def ofKey (k : κ) (ls : List L) : List L := ls.filter (hasKey read k)

/-- The values that the lines give to `k`, in order. -/
def assigned (k : κ) (ls : List L) : List V := ls.filterMap (valueOf read k)

/-- The value of `k` after the reading. -/
def result (ls : List L) (k : κ) : V := lastOr (d k) (assigned read k (executed read ls))

/-- The value of `k` when no line disturbs another. -/
def intended (ls : List L) (k : κ) : V := lastOr (d k) (assigned read k ls)

/-- A permutation that keeps the order of the lines of each key. -/
structure Reordering (ls ls' : List L) : Prop where
  perm : ls'.Perm ls
  ofKey : ∀ k, ofKey read k ls' = ofKey read k ls

/-- The lines are independent for `run`, which gives every key its value. -/
structure Independent (run : List L → κ → V) (ls : List L) : Prop where
  reordering : ∀ ls', Reordering read ls ls' → ∀ k, run ls' k = run ls k
  failing : ∀ front l behind j, ls = front ++ l :: behind → fails read l = true → hasKey read j l = true →
    ∀ k, k ≠ j → run (front ++ behind) k = run ls k
  last_wins : ∀ k, run ls k = intended read d ls k

/-- When a line of the key `j` fails, the lines of `j` in front of the first such one end with the same value as all of
    them, and any other key is only assigned its default in front of the first line of its own that fails. -/
def Harmless (ls : List L) : Prop :=
  ∀ l ∈ ls, fails read l = true → ∀ j, hasKey read j l = true →
    lastOr (d j) (assigned read j (executed read (ofKey read j ls))) = lastOr (d j) (assigned read j ls) ∧
      ∀ k, k ≠ j → ∀ v ∈ assigned read k (executed read (ofKey read k ls)), v = d k

variable {read} {d} {i j k : κ} {l : L} {ls ls' front behind : List L}

theorem hasKey_unique (hj : hasKey read j l = true) (hk : hasKey read k l = true) : j = k := by
  obtain ⟨r, hr, hrj⟩ := Option.any_eq_true _ _ |>.mp hj
  obtain ⟨r', hr', hrk⟩ := Option.any_eq_true _ _ |>.mp hk
  cases hr.symm.trans hr'
  exact (of_decide_eq_true hrj).symm.trans (of_decide_eq_true hrk)

theorem exists_hasKey (h : fails read l = true) : ∃ j, hasKey read j l = true := by
  unfold fails at h
  split at h
  · next j heq => exact ⟨j, by simp [hasKey, heq]⟩
  · cases h

theorem valueOf_of_not_hasKey (h : hasKey read k l = false) : valueOf read k l = none := by
  unfold valueOf
  split
  · next j v heq => simpa [hasKey, heq] using h
  · rfl

theorem assigned_append (k : κ) (ls ls' : List L) :
    assigned read k (ls ++ ls') = assigned read k ls ++ assigned read k ls' := List.filterMap_append

theorem ofKey_append (k : κ) (ls ls' : List L) : ofKey read k (ls ++ ls') = ofKey read k ls ++ ofKey read k ls' :=
  List.filter_append ..

theorem mem_ofKey : l ∈ ofKey read k ls ↔ l ∈ ls ∧ hasKey read k l = true := List.mem_filter

/-- The lines of other keys assign nothing. -/
theorem assigned_ofKey (k : κ) (ls : List L) : assigned read k (ofKey read k ls) = assigned read k ls := by
  rw [assigned, ofKey, List.filterMap_filter]
  refine List.filterMap_congr fun l _ => ?_
  split
  · rfl
  · next h => exact (valueOf_of_not_hasKey (Bool.eq_false_iff.mpr h)).symm

theorem ofKey_eq_self (h : ∀ l ∈ ls, hasKey read k l = true) : ofKey read k ls = ls := List.filter_eq_self.mpr h

theorem ofKey_eq_nil (hne : i ≠ k) (h : ∀ l ∈ ls, hasKey read k l = true) : ofKey read i ls = [] :=
  List.filter_eq_nil_iff.mpr fun l hl hi => hne (hasKey_unique hi (h l hl))

/-- The reading of the whole text sees a start of what it would see in the lines of one key. -/
theorem assigned_executed_prefix_ofKey (k : κ) (ls : List L) :
    assigned read k (executed read ls) <+: assigned read k (executed read (ofKey read k ls)) := by
  induction ls with
  | nil => exact List.prefix_rfl
  | cons l ls ih =>
    cases hl : fails read l with
    | true =>
      rw [executed_cons_of_fails hl]
      exact List.nil_prefix
    | false =>
      have hstep : executed read (l :: ls) = l :: executed read ls := List.takeWhile_cons_of_pos (by simp [hl])
      cases hk : hasKey read k l with
      | true =>
        have hkept : ofKey read k (l :: ls) = l :: ofKey read k ls := List.filter_cons_of_pos hk
        have hstep' : executed read (l :: ofKey read k ls) = l :: executed read (ofKey read k ls) :=
          List.takeWhile_cons_of_pos (by simp [hl])
        rw [hstep, hkept, hstep', ← List.singleton_append, assigned_append, ← List.singleton_append (l := executed _ _),
          assigned_append]
        exact (List.prefix_append_right_inj _).mpr ih
      | false =>
        have hkept : ofKey read k (l :: ls) = ofKey read k ls := List.filter_cons_of_neg (by simp [hk])
        have hskip : assigned read k (l :: executed read ls) = assigned read k (executed read ls) :=
          List.filterMap_cons_none (valueOf_of_not_hasKey hk)
        rw [hstep, hkept, hskip]
        exact ih

/-- A text whose lines of `k` only assign the default up to their first failure. -/
theorem result_eq_default (h : ∀ v ∈ assigned read k (executed read (ofKey read k ls)), v = d k) :
    result read d ls k = d k :=
  lastOr_of_forall fun v hv => h v ((assigned_executed_prefix_ofKey k ls).subset hv)

/-! ### One line more -/

theorem result_cons_of_fails (h : fails read l = true) (d : κ → V) (ls : List L) : result read d (l :: ls) = d := by
  funext k
  rw [result, executed_cons_of_fails h]
  rfl

theorem result_cons_of_none (h : read l = none) (d : κ → V) (ls : List L) :
    result read d (l :: ls) = result read d ls := by
  funext k
  have hstep : executed read (l :: ls) = l :: executed read ls := List.takeWhile_cons_of_pos (by simp [fails, h])
  rw [result, hstep, assigned, List.filterMap_cons_none (by simp [valueOf, h])]
  rfl

theorem result_cons_of_ignore (h : read l = some (j, .ignore)) (d : κ → V) (ls : List L) :
    result read d (l :: ls) = result read d ls := by
  funext k
  have hstep : executed read (l :: ls) = l :: executed read ls := List.takeWhile_cons_of_pos (by simp [fails, h])
  rw [result, hstep, assigned, List.filterMap_cons_none (by simp [valueOf, h])]
  rfl

theorem result_cons_of_assign {v : V} (h : read l = some (j, .assign v)) (d : κ → V) (ls : List L) :
    result read d (l :: ls) = result read (Function.update d j v) ls := by
  funext k
  have hstep : executed read (l :: ls) = l :: executed read ls := List.takeWhile_cons_of_pos (by simp [fails, h])
  rw [result, hstep, assigned]
  by_cases hk : j = k
  · subst hk
    rw [List.filterMap_cons_some (b := v) (by simp [valueOf, h]), lastOr_cons, result, Function.update_self]
    rfl
  · rw [List.filterMap_cons_none (by simp [valueOf, h, hk]), result, Function.update_of_ne (Ne.symm hk)]
    rfl

/-! ### Enough -/

theorem Reordering.assigned_eq (h : Reordering read ls ls') (k : κ) :
    assigned read k ls' = assigned read k ls := by
  rw [← assigned_ofKey, h.ofKey k, assigned_ofKey]

theorem Harmless.reorder (h : Harmless read d ls) (hr : Reordering read ls ls') : Harmless read d ls' := by
  intro l hl hf j hj
  rw [hr.ofKey j, hr.assigned_eq j]
  refine ⟨(h l (hr.perm.mem_iff.mp hl) hf j hj).1, fun k hne => ?_⟩
  rw [hr.ofKey k]
  exact (h l (hr.perm.mem_iff.mp hl) hf j hj).2 k hne

/-- A key next to one with a failing line keeps its default, as intended. -/
theorem Harmless.intended_default (h : Harmless read d ls) (hl : l ∈ ls) (hf : fails read l = true)
    (hj : hasKey read j l = true) (hne : k ≠ j) : intended read d ls k = d k := by
  have hdefault := (h l hl hf j hj).2 k hne
  by_cases hown : ∃ l' ∈ ofKey read k ls, fails read l' = true
  · obtain ⟨l', hl', hf'⟩ := hown
    obtain ⟨hmem, hk⟩ := mem_ofKey.mp hl'
    exact (h l' hmem hf' k hk).1.symm.trans (lastOr_of_forall hdefault)
  · have hall : executed read (ofKey read k ls) = ofKey read k ls :=
      executed_of_not_fails fun l' hl' => Bool.eq_false_iff.mpr fun hf' => hown ⟨l', hl', hf'⟩
    rw [hall, assigned_ofKey] at hdefault
    exact lastOr_of_forall hdefault

theorem Harmless.result_eq (h : Harmless read d ls) (k : κ) : result read d ls k = intended read d ls k := by
  by_cases hfail : ∃ l ∈ ls, fails read l = true
  · obtain ⟨front, l, behind, rfl, hl, hfront⟩ := exists_first_failing hfail
    obtain ⟨j, hj⟩ := exists_hasKey hl
    have hmem : l ∈ front ++ l :: behind := by simp
    by_cases hne : k = j
    · subst hne
      -- The lines of `k` end at the same line as the whole text.
      refine Eq.trans ?_ (h l hmem hl k hj).1
      have hfirst : ofKey read k (front ++ l :: behind) = ofKey read k front ++ l :: ofKey read k behind := by
        rw [ofKey_append]
        exact congrArg _ (List.filter_cons_of_pos hj)
      have hown : ∀ x ∈ ofKey read k front, fails read x = false := fun x hx => hfront x (mem_ofKey.mp hx).1
      rw [result, hfirst, executed_append_of_not_fails hfront, executed_append_of_not_fails hown,
        executed_cons_of_fails hl, executed_cons_of_fails hl, List.append_nil, List.append_nil, assigned_ofKey]
    · rw [h.intended_default hmem hl hj hne]
      exact result_eq_default ((h l hmem hl j hj).2 k hne)
  · have hall : executed read ls = ls :=
      executed_of_not_fails fun l hl => Bool.eq_false_iff.mpr fun hf => hfail ⟨l, hl, hf⟩
    rw [result, hall]
    rfl

theorem Harmless.independent (h : Harmless read d ls) : Independent read d (result read d) ls where
  reordering ls' hr k := by
    rw [(h.reorder hr).result_eq, h.result_eq, intended, hr.assigned_eq]
    rfl
  failing front l behind j heq hf hj k hne := by
    subst heq
    have hmem : l ∈ front ++ l :: behind := by simp
    have hrest : ofKey read k (front ++ behind) = ofKey read k (front ++ l :: behind) := by
      have hno : hasKey read k l = false := Bool.eq_false_iff.mpr fun hk => hne (hasKey_unique hk hj)
      rw [ofKey_append, ofKey_append]
      exact congrArg _ (List.filter_cons_of_neg (by simp [hno])).symm
    have hdefault := (h l hmem hf j hj).2 k hne
    have hwithout : result read d (front ++ behind) k = d k := result_eq_default (hrest ▸ hdefault)
    rw [hwithout, result_eq_default hdefault]
  last_wins k := h.result_eq k

/-! ### Needed -/

/-- The lines with other keys than `j` and `k`, or without. -/
def others (read : L → Option (κ × Effect V)) (j k : κ) (ls : List L) : List L :=
  ls.filter fun l => !hasKey read k l && !hasKey read j l

theorem ofKey_others_of_not (h : i = j ∨ i = k) : ofKey read i (others read j k ls) = [] := by
  refine List.filter_eq_nil_iff.mpr fun l hl hi => ?_
  have hno := (List.mem_filter.mp hl).2
  rcases h with rfl | rfl
  · simp [hi] at hno
  · simp [hi] at hno

theorem ofKey_others_of_ne (hij : i ≠ j) (hik : i ≠ k) : ofKey read i (others read j k ls) = ofKey read i ls := by
  rw [ofKey, others, List.filter_filter]
  refine List.filter_congr fun l _ => ?_
  cases hi : hasKey read i l with
  | false => rfl
  | true =>
    have hj : hasKey read j l = false := Bool.eq_false_iff.mpr fun hj => hij (hasKey_unique hi hj)
    have hk : hasKey read k l = false := Bool.eq_false_iff.mpr fun hk => hik (hasKey_unique hi hk)
    rw [hj, hk]
    rfl

theorem filter_not_hasKey (hne : k ≠ j) :
    ofKey read k (ls.filter fun l => !hasKey read j l) = ofKey read k ls := by
  rw [ofKey, List.filter_filter]
  refine List.filter_congr fun l _ => ?_
  cases hk : hasKey read k l with
  | false => rfl
  | true =>
    have hj : hasKey read j l = false := Bool.eq_false_iff.mpr fun hj => hne (hasKey_unique hk hj)
    rw [hj]
    rfl

/-- The lines of `j`, behind the first ones of `k`, can be moved to the front. -/
theorem reordering_front (hne : k ≠ j) {own rest : List L} (hown : ofKey read k ls = own ++ rest) :
    Reordering read ls (own ++ (ofKey read j ls ++ (rest ++ others read j k ls))) where
  perm := by
    have hj : (ofKey read j ls ++ ls.filter fun l => !hasKey read j l).Perm ls := List.filter_append_perm _ ls
    have hk := List.filter_append_perm (hasKey read k) (ls.filter fun l => !hasKey read j l)
    rw [← ofKey, filter_not_hasKey hne, List.filter_filter, hown, List.append_assoc] at hk
    have hfront : (own ++ (ofKey read j ls ++ (rest ++ others read j k ls))).Perm
        (ofKey read j ls ++ (own ++ (rest ++ others read j k ls))) := List.perm_append_comm_assoc ..
    exact hfront.trans ((hk.append_left _).trans hj)
  ofKey i := by
    have hmem : ∀ l ∈ own ++ rest, hasKey read k l = true := fun l hl => (mem_ofKey.mp (hown ▸ hl)).2
    have hmemOwn : ∀ l ∈ own, hasKey read k l = true := fun l hl => hmem l (List.mem_append_left _ hl)
    have hmemRest : ∀ l ∈ rest, hasKey read k l = true := fun l hl => hmem l (List.mem_append_right _ hl)
    have hmemKey : ∀ l ∈ ofKey read j ls, hasKey read j l = true := fun l hl => (mem_ofKey.mp hl).2
    rw [ofKey_append, ofKey_append, ofKey_append]
    by_cases hik : i = k
    · subst hik
      rw [ofKey_eq_self hmemOwn, ofKey_eq_nil hne hmemKey, ofKey_eq_self hmemRest, ofKey_others_of_not (by simp), hown]
      simp
    · rw [ofKey_eq_nil hik hmemOwn, ofKey_eq_nil hik hmemRest]
      by_cases hij : i = j
      · subst hij
        rw [ofKey_eq_self hmemKey, ofKey_others_of_not (by simp)]
        simp
      · rw [ofKey_eq_nil hij hmemKey, ofKey_others_of_ne hij hik]
        rfl

theorem reordering_ofKey (j : κ) (ls : List L) :
    Reordering read ls (ofKey read j ls ++ ls.filter fun l => !hasKey read j l) where
  perm := List.filter_append_perm _ ls
  ofKey i := by
    have hmemKey : ∀ l ∈ ofKey read j ls, hasKey read j l = true := fun l hl => (mem_ofKey.mp hl).2
    rw [ofKey_append]
    by_cases hij : i = j
    · subst hij
      have hno : ofKey read i (ls.filter fun l => !hasKey read i l) = [] :=
        List.filter_eq_nil_iff.mpr fun l hl hi => by simpa [hi] using (List.mem_filter.mp hl).2
      rw [ofKey_eq_self hmemKey, hno, List.append_nil]
    · rw [ofKey_eq_nil hij hmemKey, filter_not_hasKey hij]
      rfl

/-- The lines of `j`, one of which fails, stand in front of all but the first ones of `k`. -/
theorem result_front (hne : k ≠ j) {own : List L} (hown : ∀ l ∈ own, fails read l = false)
    (hfail : ∃ l ∈ ofKey read j ls, fails read l = true) (behind : List L) :
    result read d (own ++ (ofKey read j ls ++ behind)) k = lastOr (d k) (assigned read k own) := by
  have hnone : ofKey read k (executed read (ofKey read j ls)) = [] :=
    ofKey_eq_nil hne fun l hl => (mem_ofKey.mp ((List.takeWhile_sublist _).mem hl)).2
  rw [result, executed_append_of_not_fails hown, executed_append_of_fails hfail, assigned_append,
    ← assigned_ofKey k (executed read (ofKey read j ls)), hnone]
  simp [assigned]

theorem Independent.harmless (h : Independent read d (result read d) ls) : Harmless read d ls := by
  intro l hl hf j hj
  have hfail : ∃ l ∈ ofKey read j ls, fails read l = true := ⟨l, mem_ofKey.mpr ⟨hl, hj⟩, hf⟩
  refine ⟨?_, fun k hne v hv => ?_⟩
  · have hfront := h.reordering _ (reordering_ofKey j ls) j
    rw [h.last_wins j, result, executed_append_of_fails hfail] at hfront
    exact hfront
  · obtain ⟨l', hl', hval⟩ := List.mem_filterMap.mp hv
    obtain ⟨front, behind, hsplit⟩ := List.append_of_mem hl'
    have hnot : ∀ x ∈ front ++ [l'], fails read x = false := by
      intro x hx
      have hmem : x ∈ executed read (ofKey read k ls) := by
        rw [hsplit]
        rcases List.mem_append.mp hx with hx | hx
        · exact List.mem_append_left _ hx
        · rw [List.mem_singleton.mp hx]
          simp
      simpa using List.mem_takeWhile_imp hmem
    have hown : ofKey read k ls = (front ++ [l']) ++
        (behind ++ (ofKey read k ls).dropWhile fun l => !fails read l) := by
      rw [← List.append_assoc, List.append_assoc front, List.singleton_append, ← hsplit]
      exact (List.takeWhile_append_dropWhile ..).symm
    -- The value is the last one with these lines of `k` in front, and the default with the lines of `j` in front.
    have hlast := h.reordering _ (reordering_front hne hown) k
    have hdefault := h.reordering _ (reordering_front hne (List.nil_append _).symm) k
    rw [result_front hne hnot hfail] at hlast
    rw [result_front hne (fun x hx => by cases hx) hfail] at hdefault
    have hvalue : assigned read k (front ++ [l']) = assigned read k front ++ [v] := by
      rw [assigned_append]
      simp [assigned, hval]
    rw [hvalue, lastOr_concat] at hlast
    exact hlast.trans hdefault.symm

theorem independent_iff : Independent read d (result read d) ls ↔ Harmless read d ls :=
  ⟨Independent.harmless, Harmless.independent⟩

end Keys

end Assignments
