import CppProgramming.Lib.Execution

/-! # MySharedPtr

`MySharedPtr<T>` keeps its object and the number of its owners in two cells of their own, `T** p` and `int* n`. The
heap has these cells and the managed objects by their addresses; what is freed may be handed out again. An operation
with undefined behaviour (a freed cell read, written or deleted, an object deleted twice, an `int` that overflows) has
no result. -/

namespace MySharedPtr
open Execution

/-- An address of the heap. -/
abbrev Addr := Nat

/-- The members of a `MySharedPtr`. -/
structure Ref where
  p : Addr
  n : Addr
  deriving DecidableEq, Repr

/-- The variables in the order of their construction, `none` once destroyed, the allocated cells with their values, and
    the objects that have not been deleted. -/
structure Heap where
  vars : List (Option Ref) := []
  cellP : Addr → Option Addr := fun _ => none
  cellN : Addr → Option Int := fun _ => none
  isObject : Addr → Bool := fun _ => false

/-- `*n += d`. -/
def Heap.add (h : Heap) (n : Addr) (d : Int) : Option Heap := do
  let k ← h.cellN n
  if -2 ^ 31 ≤ k + d ∧ k + d < 2 ^ 31 then some { h with cellN := Function.update h.cellN n (some (k + d)) } else none

/-- `delete object`. -/
def Heap.deleteObject (h : Heap) (object : Addr) : Option Heap :=
  if h.isObject object then some { h with isObject := Function.update h.isObject object false } else none

/-- `delete p`. -/
def Heap.deleteP (h : Heap) (p : Addr) : Option Heap :=
  if (h.cellP p).isSome then some { h with cellP := Function.update h.cellP p none } else none

/-- `delete n`. -/
def Heap.deleteN (h : Heap) (n : Addr) : Option Heap :=
  if (h.cellN n).isSome then some { h with cellN := Function.update h.cellN n none } else none

/-- `reclaim()`. -/
def Heap.reclaim (h : Heap) (this : Ref) : Option Heap := do
  let h ← h.add this.n (-1)
  let k ← h.cellN this.n
  if k = 0 then
    let object ← h.cellP this.p
    h.deleteObject object
  else some h

/-- The members of a live variable. -/
def Heap.deref (h : Heap) (v : Nat) : Option Ref := h.vars[v]?.join

/-- An operation on `MySharedPtr` variables. -/
inductive Op where
  -- `MySharedPtr(T* p)` with a new object, where `new T*` and `new int` return `p` and `n`.
  | construct (object p n : Addr)
  | copy (ptr : Nat)
  | assign (this ptr : Nat)
  | destroy (this : Nat)
  deriving DecidableEq, Repr

/-- `MySharedPtr(T* p)`. -/
def Heap.construct (h : Heap) (object p n : Addr) : Heap :=
  { vars := h.vars ++ [some ⟨p, n⟩]
    cellP := Function.update h.cellP p (some object)
    cellN := Function.update h.cellN n (some 1)
    isObject := Function.update h.isObject object true }

/-- `MySharedPtr(const MySharedPtr& ptr)`. -/
def Heap.copy (h : Heap) (ptr : Nat) : Option Heap := do
  let ptr ← h.deref ptr
  let h ← h.add ptr.n 1
  some { h with vars := h.vars ++ [some ptr] }

/-- `operator=`. -/
def Heap.assign (h : Heap) (v ptr : Nat) : Option Heap := do
  let this ← h.deref v
  let ptr ← h.deref ptr
  let object ← h.cellP this.p
  let object' ← h.cellP ptr.p
  if object = object' then some h
  else
    let h ← h.reclaim this
    let h : Heap := { h with vars := h.vars.set v (some ptr) }
    h.add ptr.n 1

/-- `~MySharedPtr()`. -/
def Heap.destroy (h : Heap) (v : Nat) : Option Heap := do
  let this ← h.deref v
  let h ← h.reclaim this
  let h ← h.deleteP this.p
  let h ← h.deleteN this.n
  some { h with vars := h.vars.set v none }

/-- The heap after the operation. -/
def Heap.step (h : Heap) : Op → Option Heap
  | .construct object p n => some (h.construct object p n)
  | .copy ptr => h.copy ptr
  | .assign this ptr => h.assign this ptr
  | .destroy this => h.destroy this

/-! ### What is asked for -/

/-- A live variable. -/
def Heap.Live (h : Heap) (r : Ref) : Prop := some r ∈ h.vars

/-- The number of live variables that refer to the control block with the counter `n`. -/
def Heap.owners (h : Heap) (n : Addr) : Nat := h.vars.countP fun v => v.any fun r => r.n == n

/-- The control blocks are those of the live variables and count them, and the objects are those that have an owner:
    what loses its last owner is gone. -/
structure Heap.Counted (h : Heap) : Prop where
  cellP : ∀ p, (h.cellP p).isSome ↔ ∃ r, h.Live r ∧ r.p = p
  cellN : ∀ n, (h.cellN n).isSome ↔ ∃ r, h.Live r ∧ r.n = n
  counter : ∀ n k, h.cellN n = some k → k = h.owners n
  object : ∀ object, h.isObject object = true ↔ ∃ r, h.Live r ∧ h.cellP r.p = some object

/-- The operation is one that a program can make: its operands are live, and what is new was not there before. -/
def Op.IsPossible (h : Heap) : Op → Prop
  | .construct object p n => h.isObject object = false ∧ h.cellP p = none ∧ h.cellN n = none
  | .copy ptr => (h.deref ptr).isSome
  | .assign this ptr => (h.deref this).isSome ∧ (h.deref ptr).isSome
  | .destroy this => (h.deref this).isSome

instance (h : Heap) (op : Op) : Decidable (op.IsPossible h) :=
  match op with
  | .construct object p n => inferInstanceAs (Decidable (h.isObject object = false ∧ h.cellP p = none ∧ h.cellN n = none))
  | .copy ptr => inferInstanceAs (Decidable ((h.deref ptr).isSome = true))
  | .assign this ptr => inferInstanceAs (Decidable ((h.deref this).isSome = true ∧ (h.deref ptr).isSome = true))
  | .destroy this => inferInstanceAs (Decidable ((h.deref this).isSome = true))

/-- The operation has a result, and everything is counted afterwards. -/
def Op.KeepsCount (h : Heap) (op : Op) : Prop := ∃ h', h.step op = some h' ∧ h'.Counted

/-- A copy does not make the counter overflow, an assignment from another control block does not take the last owner
    away, and only the last owner is destroyed. -/
def Op.IsSafe (h : Heap) : Op → Prop
  | .construct _ _ _ => True
  | .copy ptr => ∀ r, h.deref ptr = some r → h.owners r.n < 2 ^ 31 - 1
  | .assign this ptr => ∀ r r', h.deref this = some r → h.deref ptr = some r' →
      r = r' ∨ 1 < h.owners r.n ∧ h.owners r'.n < 2 ^ 31 - 1
  | .destroy this => ∀ r, h.deref this = some r → h.owners r.n = 1

instance (h : Heap) (op : Op) : Decidable (op.IsSafe h) :=
  match op with
  | .construct _ _ _ => inferInstanceAs (Decidable True)
  | .copy ptr => inferInstanceAs (Decidable (∀ r ∈ h.deref ptr, h.owners r.n < 2 ^ 31 - 1))
  | .assign this ptr =>
    decidable_of_iff (∀ r ∈ h.deref this, ∀ r' ∈ h.deref ptr, r = r' ∨ 1 < h.owners r.n ∧ h.owners r'.n < 2 ^ 31 - 1)
      ⟨fun hall r r' hr hr' => hall r hr r' hr', fun hall r hr r' hr' => hall r r' hr hr'⟩
  | .destroy this => inferInstanceAs (Decidable (∀ r ∈ h.deref this, h.owners r.n = 1))

/-! ### Owners -/

/-- Two control blocks share neither a cell nor an object. -/
structure Heap.Paired (h : Heap) : Prop where
  cells : ∀ r r', h.Live r → h.Live r' → r.p = r'.p ∨ r.n = r'.n → r = r'
  objects : ∀ r r', h.Live r → h.Live r' → h.cellP r.p = h.cellP r'.p → r = r'

/-- What holds between two operations. -/
structure Heap.Inv (h : Heap) : Prop extends h.Counted, h.Paired where
  bound : ∀ n k, h.cellN n = some k → k < 2 ^ 31

section Owners
variable {h h' : Heap} {v : Nat} {r r' : Ref}

theorem Heap.deref_eq_some : h.deref v = some r ↔ h.vars[v]? = some (some r) := by
  unfold Heap.deref
  cases h.vars[v]? with
  | none => simp
  | some x => simp

theorem Heap.live_of_deref (hv : h.deref v = some r) : h.Live r :=
  List.mem_of_getElem? (deref_eq_some.mp hv)

theorem Heap.owners_pos {n : Addr} : 0 < h.owners n ↔ ∃ r, h.Live r ∧ r.n = n := by
  unfold Heap.owners
  rw [List.countP_pos_iff]
  constructor
  · rintro ⟨x, hx, hn⟩
    obtain ⟨r, rfl, hr⟩ := Option.any_eq_true _ _ |>.mp hn
    exact ⟨r, hx, by simpa using hr⟩
  · rintro ⟨r, hr, hn⟩
    exact ⟨some r, hr, by simp [hn]⟩

theorem Heap.owners_append (hvars : h'.vars = h.vars ++ [some r]) (n : Addr) :
    h'.owners n = h.owners n + if r.n = n then 1 else 0 := by
  simp [Heap.owners, hvars, List.countP_append, List.countP_cons]

theorem Heap.owners_set {x : Option Ref} (hv : h.deref v = some r) (hvars : h'.vars = h.vars.set v x) (n : Addr) :
    h'.owners n + (if r.n = n then 1 else 0) = h.owners n + if (x.any fun r => r.n == n) then 1 else 0 := by
  obtain ⟨hlt, hget⟩ := List.getElem?_eq_some_iff.mp (deref_eq_some.mp hv)
  have hpos : (if r.n = n then 1 else 0) ≤ h.owners n := by
    split
    · next hn => exact owners_pos.mpr ⟨r, live_of_deref hv, hn⟩
    · exact Nat.zero_le _
  unfold Heap.owners at hpos ⊢
  rw [hvars, List.countP_set hlt, hget]
  simp only [Option.any_some, beq_iff_eq]
  omega

/-- A live variable after an assignment to the one at `v`. -/
theorem Heap.live_set {x : Option Ref} (hvars : h'.vars = h.vars.set v x) (hr : h'.Live r') : x = some r' ∨ h.Live r' := by
  unfold Heap.Live at hr
  rw [hvars] at hr
  rcases List.mem_or_eq_of_mem_set hr with hmem | heq
  · exact .inr hmem
  · exact .inl heq.symm

theorem Heap.live_set_of_ne {x : Option Ref} (hv : h.deref v = some r) (hvars : h'.vars = h.vars.set v x)
    (hr : h.Live r') (hne : r' ≠ r) : h'.Live r' := by
  obtain ⟨i, hi⟩ := List.getElem?_of_mem hr
  have hiv : v ≠ i := by
    rintro rfl
    rw [deref_eq_some.mp hv] at hi
    exact hne (Option.some.inj (Option.some.inj hi)).symm
  unfold Heap.Live
  rw [hvars]
  exact List.mem_of_getElem? ((List.getElem?_set_ne hiv).trans hi)

theorem Heap.Inv.counter_of_live (hI : h.Inv) (hr : h.Live r) : h.cellN r.n = some (h.owners r.n : Int) := by
  obtain ⟨k, hk⟩ := Option.isSome_iff_exists.mp ((hI.cellN r.n).mpr ⟨r, hr, rfl⟩)
  rw [hk, hI.counter r.n k hk]

theorem Heap.Inv.object_of_live (hI : h.Inv) (hr : h.Live r) :
    ∃ object, h.cellP r.p = some object ∧ h.isObject object = true := by
  obtain ⟨object, hobject⟩ := Option.isSome_iff_exists.mp ((hI.cellP r.p).mpr ⟨r, hr, rfl⟩)
  exact ⟨object, hobject, (hI.object object).mpr ⟨r, hr, hobject⟩⟩

/-- A variable that another one shares its control block with does not take the last reference away. -/
theorem Heap.Inv.live_set_of_shared (hI : h.Inv) {x : Option Ref} (hx : ∀ y ∈ x, h.Live y) (hv : h.deref v = some r)
    (hvars : h'.vars = h.vars.set v x) (hshared : 1 < h.owners r.n) (hr : h.Live r') : h'.Live r' := by
  by_cases hne : r' = r
  · have hcount := owners_set hv hvars r.n
    rw [if_pos rfl] at hcount
    obtain ⟨y, hy, hyn⟩ := owners_pos.mp (show 0 < h'.owners r.n by omega)
    have hlive : h.Live y := (live_set hvars hy).elim (fun heq => hx y heq) id
    rw [hne, ← hI.cells y r hlive (live_of_deref hv) (.inr hyn)]
    exact hy
  · exact live_set_of_ne hv hvars hr hne

end Owners

/-! ### Tables -/

section Tables
variable {ρ : Type} {D D' : Addr → Prop} {L L' : ρ → Prop} {K K' : ρ → Addr → Prop} {x : ρ} {b : Addr}

/-- The addresses in use when there is one more user `x`, of the address `b`. -/
theorem used_insert (hD : ∀ a, D a ↔ ∃ r, L r ∧ K r a) (hD' : ∀ a, D' a ↔ D a ∨ a = b)
    (hL : ∀ r, L' r ↔ L r ∨ r = x) (hK : ∀ r a, L r → (K' r a ↔ K r a)) (hx : ∀ a, K' x a ↔ a = b) (a : Addr) :
    D' a ↔ ∃ r, L' r ∧ K' r a := by
  rw [hD', hD]
  constructor
  · rintro (⟨r, hr, ha⟩ | rfl)
    · exact ⟨r, (hL r).mpr (.inl hr), (hK r a hr).mpr ha⟩
    · exact ⟨x, (hL x).mpr (.inr rfl), (hx a).mpr rfl⟩
  · rintro ⟨r, hr, ha⟩
    rcases (hL r).mp hr with hr | rfl
    · exact .inl ⟨r, hr, (hK r a hr).mp ha⟩
    · exact .inr ((hx a).mp ha)

/-- The addresses in use without `x`, the only user of the address `b`. -/
theorem used_erase (hD : ∀ a, D a ↔ ∃ r, L r ∧ K r a) (hD' : ∀ a, D' a ↔ D a ∧ a ≠ b)
    (hL : ∀ r, L' r ↔ L r ∧ r ≠ x) (hK : ∀ r a, L' r → (K' r a ↔ K r a)) (hx : ∀ a, K x a → a = b)
    (hsole : ∀ r, L r → K r b → r = x) (a : Addr) : D' a ↔ ∃ r, L' r ∧ K' r a := by
  rw [hD', hD]
  constructor
  · rintro ⟨⟨r, hr, ha⟩, hne⟩
    have hr' : L' r := (hL r).mpr ⟨hr, fun heq => hne (hx a (heq ▸ ha))⟩
    exact ⟨r, hr', (hK r a hr').mpr ha⟩
  · rintro ⟨r, hr', ha⟩
    obtain ⟨hr, hne⟩ := (hL r).mp hr'
    have ha := (hK r a hr').mp ha
    exact ⟨⟨r, hr, ha⟩, fun heq => hne (hsole r hr (heq ▸ ha))⟩

theorem isSome_update_some {β : Type} {f : Addr → Option β} {n m : Addr} {k : β} :
    (Function.update f n (some k) m).isSome ↔ (f m).isSome ∨ m = n := by
  by_cases hm : m = n <;> simp [hm]

theorem isSome_update_none {β : Type} {f : Addr → Option β} {n m : Addr} :
    (Function.update f n none m).isSome ↔ (f m).isSome ∧ m ≠ n := by
  by_cases hm : m = n <;> simp [hm]

end Tables

/-! ### The operations -/

section Operations
variable {h h' : Heap} {v w : Nat} {r r' : Ref}

theorem Heap.add_eq_some {n : Addr} {k d : Int} (hk : h.cellN n = some k) (hlow : -2 ^ 31 ≤ k + d) (hhigh : k + d < 2 ^ 31) :
    h.add n d = some { h with cellN := Function.update h.cellN n (some (k + d)) } := by
  simp only [Heap.add, hk, Option.bind_eq_bind, Option.bind_some]
  rw [if_pos ⟨hlow, hhigh⟩]

theorem Heap.add_eq_none {n : Addr} {k d : Int} (hk : h.cellN n = some k) (hhigh : 2 ^ 31 ≤ k + d) : h.add n d = none := by
  simp only [Heap.add, hk, Option.bind_eq_bind, Option.bind_some]
  rw [if_neg]
  omega

theorem bound_update {f : Addr → Option Int} {n : Addr} {k : Int} (hf : ∀ n k, f n = some k → k < 2 ^ 31) (hk : k < 2 ^ 31)
    (m : Addr) (j : Int) (hj : Function.update f n (some k) m = some j) : j < 2 ^ 31 := by
  by_cases hm : m = n
  · subst hm
    rw [Function.update_self] at hj
    exact Option.some.inj hj ▸ hk
  · rw [Function.update_of_ne hm] at hj
    exact hf m j hj

theorem isSome_update {f : Addr → Option Int} {n m : Addr} {k : Int} (hn : (f n).isSome) :
    (Function.update f n (some k) m).isSome ↔ (f m).isSome := by
  rw [isSome_update_some]
  exact or_iff_left_of_imp fun hm => hm ▸ hn

theorem Heap.construct_live {object p n : Addr} : (h.construct object p n).Live r ↔ h.Live r ∨ r = ⟨p, n⟩ := by
  simp [Heap.Live, Heap.construct]

theorem Heap.construct_inv {object p n : Addr} (hI : h.Inv)
    (hnew : (Op.construct object p n).IsPossible h) : (h.construct object p n).Inv := by
  obtain ⟨hobject, hp, hn⟩ := hnew
  -- A live variable has its own cells, and another object.
  have hpne {r : Ref} (hr : h.Live r) : r.p ≠ p := by
    intro heq
    have hsome := (hI.cellP r.p).mpr ⟨r, hr, rfl⟩
    rw [heq, hp] at hsome
    cases hsome
  have hnne {r : Ref} (hr : h.Live r) : r.n ≠ n := by
    intro heq
    have hsome := (hI.cellN r.n).mpr ⟨r, hr, rfl⟩
    rw [heq, hn] at hsome
    cases hsome
  have hfresh {r : Ref} (hr : h.Live r) : h.cellP r.p ≠ some object := by
    intro heq
    have htrue := (hI.object object).mpr ⟨r, hr, heq⟩
    rw [hobject] at htrue
    cases htrue
  have hcellP {r : Ref} (hr : h.Live r) : (h.construct object p n).cellP r.p = h.cellP r.p :=
    Function.update_of_ne (hpne hr) _ _
  have hcellP_self : (h.construct object p n).cellP p = some object := Function.update_self _ _ _
  have hzero : h.owners n = 0 := by
    by_contra hpos
    obtain ⟨r, hr, heq⟩ := owners_pos.mp (Nat.pos_of_ne_zero hpos)
    exact hnne hr heq
  have howners (m : Addr) : (h.construct object p n).owners m = h.owners m + if n = m then 1 else 0 :=
    owners_append (r := ⟨p, n⟩) rfl m
  refine ⟨⟨?_, ?_, fun m k hk => ?_, ?_⟩, ⟨fun r r' hr hr' heq => ?_, fun r r' hr hr' heq => ?_⟩,
    bound_update hI.bound (by decide)⟩
  · exact used_insert hI.cellP (fun _ => isSome_update_some) (fun _ => construct_live) (fun _ _ _ => Iff.rfl) fun _ => eq_comm
  · exact used_insert hI.cellN (fun _ => isSome_update_some) (fun _ => construct_live) (fun _ _ _ => Iff.rfl) fun _ => eq_comm
  · rw [howners]
    by_cases hm : m = n
    · subst hm
      rw [show (h.construct object p m).cellN m = some 1 from Function.update_self _ _ _] at hk
      rw [hzero, if_pos rfl, ← Option.some.inj hk]
      rfl
    · rw [show (h.construct object p n).cellN m = h.cellN m from Function.update_of_ne hm _ _] at hk
      rw [if_neg (Ne.symm hm), hI.counter m k hk, Nat.add_zero]
  · refine used_insert (b := object) hI.object (fun o => ?_) (fun _ => construct_live) (fun r o hr => by rw [hcellP hr]) fun o => ?_
    · by_cases ho : o = object <;> simp [Heap.construct, ho]
    · rw [hcellP_self, Option.some.injEq, eq_comm]
  · rcases construct_live.mp hr with hr | rfl
    · rcases construct_live.mp hr' with hr' | rfl
      · exact hI.cells r r' hr hr' heq
      · exact (heq.elim (fun heq => hpne hr heq) fun heq => hnne hr heq).elim
    · rcases construct_live.mp hr' with hr' | rfl
      · exact (heq.elim (fun heq => hpne hr' heq.symm) fun heq => hnne hr' heq.symm).elim
      · rfl
  · rcases construct_live.mp hr with hr | rfl
    · rcases construct_live.mp hr' with hr' | rfl
      · rw [hcellP hr, hcellP hr'] at heq
        exact hI.objects r r' hr hr' heq
      · rw [hcellP hr, hcellP_self] at heq
        exact absurd heq (hfresh hr)
    · rcases construct_live.mp hr' with hr' | rfl
      · rw [hcellP hr', hcellP_self] at heq
        exact absurd heq.symm (hfresh hr')
      · rfl

/-- An operation after which the same control blocks have owners, and are counted. -/
theorem Heap.Inv.recount (hI : h.Inv) (hlive : ∀ r, h'.Live r ↔ h.Live r) (hP : h'.cellP = h.cellP)
    (hobject : h'.isObject = h.isObject) (hN : ∀ n, (h'.cellN n).isSome ↔ (h.cellN n).isSome)
    (hcount : ∀ r, h.Live r → h'.cellN r.n = some (h'.owners r.n : Int)) (hbound : ∀ n k, h'.cellN n = some k → k < 2 ^ 31) :
    h'.Inv := by
  refine ⟨⟨fun p => ?_, fun n => ?_, fun n k hk => ?_, fun object => ?_⟩,
    ⟨fun r r' hr hr' => ?_, fun r r' hr hr' => ?_⟩, hbound⟩
  · simp only [hP, hlive]
    exact hI.cellP p
  · simp only [hN, hlive]
    exact hI.cellN n
  · obtain ⟨r, hr, rfl⟩ := (hI.cellN n).mp ((hN n).mp (by rw [hk]; rfl))
    exact Option.some.inj (hk.symm.trans (hcount r hr))
  · simp only [hP, hobject, hlive]
    exact hI.object object
  · exact hI.cells r r' ((hlive r).mp hr) ((hlive r').mp hr')
  · rw [hP]
    exact hI.objects r r' ((hlive r).mp hr) ((hlive r').mp hr')

/-- The copy constructor counts its variable, as long as the counter does not overflow. -/
theorem Heap.copy_inv (hI : h.Inv) (hw : h.deref w = some r) (hsafe : h.owners r.n < 2 ^ 31 - 1) :
    ∃ h', h.copy w = some h' ∧ h'.Inv := by
  have hr := live_of_deref hw
  have hk := hI.counter_of_live hr
  have hadd := add_eq_some (d := 1) hk (by omega) (by omega)
  refine ⟨{ h with
    cellN := Function.update h.cellN r.n (some ((h.owners r.n : Int) + 1)), vars := h.vars ++ [some r] }, ?_, ?_⟩
  · simp only [Heap.copy, hw, hadd, Option.bind_eq_bind, Option.bind_some]
  · refine hI.recount (fun x => ?_) rfl rfl (fun n => isSome_update (by rw [hk]; rfl)) (fun x hx => ?_)
      (bound_update hI.bound (by omega))
    · constructor
      · intro hx
        rcases List.mem_append.mp hx with hx | hx
        · exact hx
        · cases List.mem_singleton.mp hx
          exact hr
      · exact fun hx => List.mem_append_left _ hx
    · rw [owners_append (h := h) rfl x.n]
      by_cases hn : r.n = x.n
      · simp [hn]
      · rw [if_neg hn]
        show Function.update h.cellN r.n _ x.n = _
        rw [Function.update_of_ne (Ne.symm hn), hI.counter_of_live hx, Nat.add_zero]

/-- `reclaim` of a control block that keeps another owner. -/
theorem Heap.reclaim_shared (hI : h.Inv) (hr : h.Live r) (hshared : 1 < h.owners r.n) :
    h.reclaim r = some { h with cellN := Function.update h.cellN r.n (some ((h.owners r.n : Int) + -1)) } := by
  have hk := hI.counter_of_live hr
  have hbound := hI.bound r.n _ hk
  have hadd := add_eq_some (d := -1) hk (by omega) (by omega)
  simp only [Heap.reclaim, hadd, Option.bind_eq_bind, Option.bind_some, Function.update_self]
  rw [if_neg]
  omega

/-- `reclaim` by the last owner. -/
theorem Heap.reclaim_last (hI : h.Inv) (hr : h.Live r) (hlast : h.owners r.n = 1) {object : Addr}
    (hcell : h.cellP r.p = some object) (hobject : h.isObject object = true) :
    h.reclaim r = some { h with
      cellN := Function.update h.cellN r.n (some 0), isObject := Function.update h.isObject object false } := by
  have hk : h.cellN r.n = some 1 := by
    rw [hI.counter_of_live hr, hlast]
    rfl
  have hadd := add_eq_some (d := -1) hk (by omega) (by omega)
  simp only [Heap.reclaim, hadd, Option.bind_eq_bind, Option.bind_some, Function.update_self, hcell]
  simp [Heap.deleteObject, hobject]

/-- An assignment from another control block. -/
theorem Heap.assign_of_ne (hI : h.Inv) (hv : h.deref v = some r) (hw : h.deref w = some r') (hne : r ≠ r') :
    h.assign v w =
      (h.reclaim r).bind fun h₁ => Heap.add { h₁ with vars := h₁.vars.set v (some r') } r'.n 1 := by
  have hr := live_of_deref hv
  have hr' := live_of_deref hw
  obtain ⟨object, hcell, -⟩ := hI.object_of_live hr
  obtain ⟨object', hcell', -⟩ := hI.object_of_live hr'
  have hobjects : object ≠ object' := by
    rintro rfl
    exact hne (hI.objects r r' hr hr' (hcell.trans hcell'.symm))
  simp only [Heap.assign, hv, hw, hcell, hcell', Option.bind_eq_bind, Option.bind_some]
  rw [if_neg hobjects]

/-- An assignment within a control block does nothing. -/
theorem Heap.assign_self (hI : h.Inv) (hv : h.deref v = some r) (hw : h.deref w = some r) : h.assign v w = some h := by
  obtain ⟨object, hcell, -⟩ := hI.object_of_live (live_of_deref hv)
  simp only [Heap.assign, hv, hw, hcell, Option.bind_eq_bind, Option.bind_some, if_true]

/-- The heap after an assignment from another control block, where the old one keeps an owner. -/
def Heap.assigned (h : Heap) (v : Nat) (r r' : Ref) : Heap :=
  { h with
    vars := h.vars.set v (some r')
    cellN := Function.update (Function.update h.cellN r.n (some ((h.owners r.n : Int) + -1))) r'.n
      (some ((h.owners r'.n : Int) + 1)) }

theorem Heap.assign_shared (hI : h.Inv) (hv : h.deref v = some r) (hw : h.deref w = some r') (hne : r ≠ r')
    (hshared : 1 < h.owners r.n) :
    h.assign v w = if h.owners r'.n < 2 ^ 31 - 1 then some (h.assigned v r r') else none := by
  have hr := live_of_deref hv
  have hr' := live_of_deref hw
  have hn : r'.n ≠ r.n := fun hn => hne (hI.cells r r' hr hr' (.inr hn.symm))
  rw [assign_of_ne hI hv hw hne, reclaim_shared hI hr hshared, Option.bind_some]
  have hk : (Heap.mk (h.vars.set v (some r')) h.cellP
      (Function.update h.cellN r.n (some ((h.owners r.n : Int) + -1))) h.isObject).cellN r'.n =
      some (h.owners r'.n : Int) := by
    show Function.update h.cellN r.n _ r'.n = _
    rw [Function.update_of_ne hn, hI.counter_of_live hr']
  split
  · exact add_eq_some hk (by omega) (by omega)
  · exact add_eq_none hk (by omega)

theorem Heap.assigned_inv (hI : h.Inv) (hv : h.deref v = some r) (hw : h.deref w = some r') (hne : r ≠ r')
    (hshared : 1 < h.owners r.n) (hsafe : h.owners r'.n < 2 ^ 31 - 1) : (h.assigned v r r').Inv := by
  have hr := live_of_deref hv
  have hr' := live_of_deref hw
  have hn : r'.n ≠ r.n := fun hn => hne (hI.cells r r' hr hr' (.inr hn.symm))
  have hk := hI.counter_of_live hr
  have hk' := hI.counter_of_live hr'
  have hbound := hI.bound r.n _ hk
  refine hI.recount (fun x => ⟨fun hx => ?_, fun hx => ?_⟩) rfl rfl (fun m => ?_) (fun x hx => ?_)
    (bound_update (bound_update hI.bound (by omega)) (by omega))
  · rcases live_set (h := h) rfl hx with heq | hx
    · exact Option.some.inj heq ▸ hr'
    · exact hx
  · refine hI.live_set_of_shared (fun y hy => ?_) hv rfl hshared hx
    exact Option.some.inj hy ▸ hr'
  · have hsome : (h.cellN r.n).isSome := by rw [hk]; rfl
    have hsome' : (h.cellN r'.n).isSome := by rw [hk']; rfl
    exact (isSome_update ((isSome_update hsome).mpr hsome')).trans (isSome_update hsome)
  · have hcount : (h.assigned v r r').owners x.n + _ = _ := owners_set (h := h) hv rfl x.n
    simp only [Option.any_some, beq_iff_eq] at hcount
    show Function.update (Function.update h.cellN r.n _) r'.n _ x.n = _
    by_cases hx' : x.n = r'.n
    · rw [hx', Function.update_self]
      rw [hx', if_pos rfl, if_neg (Ne.symm hn)] at hcount
      rw [Nat.add_zero] at hcount
      rw [hcount]
      rfl
    · rw [Function.update_of_ne hx']
      rw [if_neg (Ne.symm hx')] at hcount
      by_cases hx'' : x.n = r.n
      · rw [hx'', Function.update_self]
        rw [hx'', if_pos rfl] at hcount
        congr 1
        omega
      · rw [Function.update_of_ne hx'', hI.counter_of_live hx]
        rw [if_neg (Ne.symm hx'')] at hcount
        congr 1
        omega

/-- An assignment that takes the last owner of a control block away leaves the control block behind. -/
theorem Heap.assign_last (hI : h.Inv) (hv : h.deref v = some r) (hw : h.deref w = some r') (hne : r ≠ r')
    (hlast : h.owners r.n = 1) (hstep : h.assign v w = some h') : ¬h'.Counted := by
  have hr := live_of_deref hv
  have hr' := live_of_deref hw
  obtain ⟨object, hcell, hobject⟩ := hI.object_of_live hr
  rw [assign_of_ne hI hv hw hne, reclaim_last hI hr hlast hcell hobject, Option.bind_some] at hstep
  have hkept : h'.cellP = h.cellP ∧ h'.vars = h.vars.set v (some r') := by
    unfold Heap.add at hstep
    obtain ⟨k, -, hstep⟩ := Option.bind_eq_some_iff.mp hstep
    split at hstep
    · cases hstep
      exact ⟨rfl, rfl⟩
    · cases hstep
  intro hcounted
  have hsome : (h'.cellP r.p).isSome := by
    rw [hkept.1, hcell]
    rfl
  obtain ⟨x, hx, hxp⟩ := (hcounted.cellP r.p).mp hsome
  have hxlive : h.Live x := by
    rcases live_set hkept.2 hx with heq | hx
    · exact Option.some.inj heq ▸ hr'
    · exact hx
  obtain rfl := hI.cells x r hxlive hr (.inl hxp)
  -- The variable was the only one.
  have hcount := owners_set hv hkept.2 x.n
  have hn : r'.n ≠ x.n := fun hn => hne (hI.cells x r' hr hr' (.inr hn.symm))
  simp only [Option.any_some, beq_iff_eq, if_true, hn, if_false] at hcount
  have hpos := owners_pos.mpr ⟨x, hx, rfl⟩
  omega

/-- The heap after the last owner of a control block is destroyed. -/
def Heap.destroyed (h : Heap) (v : Nat) (r : Ref) (object : Addr) : Heap :=
  { vars := h.vars.set v none
    cellP := Function.update h.cellP r.p none
    cellN := Function.update (Function.update h.cellN r.n (some 0)) r.n none
    isObject := Function.update h.isObject object false }

theorem Heap.destroy_last (hI : h.Inv) (hv : h.deref v = some r) (hlast : h.owners r.n = 1) {object : Addr}
    (hcell : h.cellP r.p = some object) (hobject : h.isObject object = true) :
    h.destroy v = some (h.destroyed v r object) := by
  simp only [Heap.destroy, hv, Option.bind_eq_bind, Option.bind_some,
    reclaim_last hI (live_of_deref hv) hlast hcell hobject]
  simp [Heap.deleteP, Heap.deleteN, hcell, Heap.destroyed]

theorem Heap.destroyed_inv (hI : h.Inv) (hv : h.deref v = some r) (hlast : h.owners r.n = 1) {object : Addr}
    (hcell : h.cellP r.p = some object) : (h.destroyed v r object).Inv := by
  have hr := live_of_deref hv
  have hvars : (h.destroyed v r object).vars = h.vars.set v none := rfl
  have hcount (m : Addr) : (h.destroyed v r object).owners m + (if r.n = m then 1 else 0) = h.owners m := by
    simpa using owners_set hv hvars m
  have hlive : ∀ {x}, (h.destroyed v r object).Live x ↔ h.Live x ∧ x ≠ r := by
    intro x
    refine ⟨fun hx => ⟨(live_set hvars hx).elim (fun heq => by cases heq) id, ?_⟩, fun hx => live_set_of_ne hv hvars hx.1 hx.2⟩
    rintro rfl
    have hpos := owners_pos.mpr ⟨x, hx, rfl⟩
    have hzero := hcount x.n
    rw [if_pos rfl] at hzero
    omega
  have hcellP {p : Addr} : (h.destroyed v r object).cellP p = if p = r.p then none else h.cellP p := by
    show Function.update h.cellP r.p none p = _
    rw [Function.update_apply]
  have hcellN {n : Addr} : (h.destroyed v r object).cellN n = if n = r.n then none else h.cellN n := by
    show Function.update (Function.update h.cellN r.n _) r.n none n = _
    rw [Function.update_idem, Function.update_apply]
  have hother {x : Ref} (hx : (h.destroyed v r object).Live x) : (h.destroyed v r object).cellP x.p = h.cellP x.p := by
    obtain ⟨hx, hne⟩ := hlive.mp hx
    rw [hcellP, if_neg fun heq => hne (hI.cells x r hx hr (.inl heq))]
  refine ⟨⟨?_, ?_, fun n k hk => ?_, ?_⟩, ⟨fun x x' hx hx' => ?_, fun x x' hx hx' heq => ?_⟩, fun n k hk => ?_⟩
  · exact used_erase hI.cellP (fun _ => isSome_update_none) (fun _ => hlive) (fun _ _ _ => Iff.rfl) (fun _ => Eq.symm)
      fun x hx heq => hI.cells x r hx hr (.inl heq)
  · refine used_erase hI.cellN (fun n => ?_) (fun _ => hlive) (fun _ _ _ => Iff.rfl) (fun _ => Eq.symm)
      fun x hx heq => hI.cells x r hx hr (.inr heq)
    by_cases hn : n = r.n <;> simp [hcellN, hn]
  · rw [hcellN] at hk
    split at hk
    · cases hk
    · next hne =>
      have hsame := hcount n
      rw [if_neg (Ne.symm hne), Nat.add_zero] at hsame
      rw [hsame]
      exact hI.counter n k hk
  · refine used_erase hI.object (fun o => ?_) (fun _ => hlive) (fun x o hx => by rw [hother hx]) (fun o ho => ?_)
      fun x hx heq => hI.objects x r hx hr (heq.trans hcell.symm)
    · by_cases ho : o = object <;> simp [Heap.destroyed, ho]
    · exact Option.some.inj (ho.symm.trans hcell)
  · exact hI.cells x x' (hlive.mp hx).1 (hlive.mp hx').1
  · rw [hother hx, hother hx'] at heq
    exact hI.objects x x' (hlive.mp hx).1 (hlive.mp hx').1 heq
  · rw [hcellN] at hk
    split at hk
    · cases hk
    · exact hI.bound n k hk

/-- A destructor frees the control block that its other owners still refer to. -/
theorem Heap.destroy_shared (hI : h.Inv) (hv : h.deref v = some r) (hshared : 1 < h.owners r.n)
    (hstep : h.destroy v = some h') : ¬h'.Counted := by
  have hr := live_of_deref hv
  obtain ⟨object, hcell, -⟩ := hI.object_of_live hr
  simp only [Heap.destroy, hv, reclaim_shared hI hr hshared, Option.bind_eq_bind, Option.bind_some, Heap.deleteP, hcell,
    Option.isSome_some, if_true, Heap.deleteN, Function.update_self] at hstep
  have hkept : h'.cellP r.p = none ∧ h'.vars = h.vars.set v none := by
    cases hstep
    exact ⟨Function.update_self _ _ _, rfl⟩
  intro hcounted
  have hlive := hI.live_set_of_shared (fun y hy => by cases hy) hv hkept.2 hshared hr
  have hsome := (hcounted.cellP r.p).mpr ⟨r, hlive, rfl⟩
  rw [hkept.1] at hsome
  cases hsome

end Operations

/-! ### Sequences of operations -/

section Sequences
variable {h h' : Heap} {op : Op}

/-- A safe operation has a result, and keeps the invariant. -/
theorem Op.IsSafe.step_inv (hI : h.Inv) (hpossible : op.IsPossible h) (hsafe : op.IsSafe h) :
    ∃ h', h.step op = some h' ∧ h'.Inv := by
  cases op with
  | construct object p n => exact ⟨_, rfl, Heap.construct_inv hI hpossible⟩
  | copy ptr =>
    obtain ⟨r, hr⟩ := Option.isSome_iff_exists.mp hpossible
    exact Heap.copy_inv hI hr (hsafe r hr)
  | assign this ptr =>
    obtain ⟨r, hr⟩ := Option.isSome_iff_exists.mp hpossible.1
    obtain ⟨r', hr'⟩ := Option.isSome_iff_exists.mp hpossible.2
    by_cases hne : r = r'
    · subst hne
      exact ⟨h, Heap.assign_self hI hr hr', hI⟩
    · obtain ⟨hshared, hbound⟩ := (hsafe r r' hr hr').resolve_left hne
      have hstep := Heap.assign_shared hI hr hr' hne hshared
      rw [if_pos hbound] at hstep
      exact ⟨_, hstep, Heap.assigned_inv hI hr hr' hne hshared hbound⟩
  | destroy this =>
    obtain ⟨r, hr⟩ := Option.isSome_iff_exists.mp hpossible
    obtain ⟨object, hcell, hobject⟩ := hI.object_of_live (Heap.live_of_deref hr)
    exact ⟨_, Heap.destroy_last hI hr (hsafe r hr) hcell hobject, Heap.destroyed_inv hI hr (hsafe r hr) hcell⟩

/-- An operation that is not safe has no result, or leaves something that is not counted. -/
theorem Op.not_counted_of_not_isSafe (hI : h.Inv) (hsafe : ¬op.IsSafe h) (hstep : h.step op = some h') :
    ¬h'.Counted := by
  cases op with
  | construct object p n => exact absurd trivial hsafe
  | copy ptr =>
    simp only [Op.IsSafe, not_forall] at hsafe
    obtain ⟨r, hr, hbound⟩ := hsafe
    have hnone := Heap.add_eq_none (d := 1) (hI.counter_of_live (Heap.live_of_deref hr)) (by omega)
    simp only [Heap.step, Heap.copy, hr, hnone, Option.bind_eq_bind, Option.bind_some, Option.bind_none] at hstep
    cases hstep
  | assign this ptr =>
    simp only [Op.IsSafe, not_forall] at hsafe
    obtain ⟨r, r', hr, hr', hbad⟩ := hsafe
    obtain ⟨hne, hbad⟩ := not_or.mp hbad
    have hpos := Heap.owners_pos.mpr ⟨r, Heap.live_of_deref hr, rfl⟩
    by_cases hshared : 1 < h.owners r.n
    · have hbound : ¬h.owners r'.n < 2 ^ 31 - 1 := fun hbound => hbad ⟨hshared, hbound⟩
      have hnone := Heap.assign_shared hI hr hr' hne hshared
      rw [if_neg hbound] at hnone
      rw [Heap.step, hnone] at hstep
      cases hstep
    · exact Heap.assign_last hI hr hr' hne (by omega) hstep
  | destroy this =>
    simp only [Op.IsSafe, not_forall] at hsafe
    obtain ⟨r, hr, hlast⟩ := hsafe
    have hpos := Heap.owners_pos.mpr ⟨r, Heap.live_of_deref hr, rfl⟩
    exact Heap.destroy_shared hI hr (by omega) hstep

theorem Op.keepsCount_iff (hI : h.Inv) (hpossible : op.IsPossible h) : op.KeepsCount h ↔ op.IsSafe h := by
  constructor
  · rintro ⟨h', hstep, hcounted⟩
    by_contra hsafe
    exact not_counted_of_not_isSafe hI hsafe hstep hcounted
  · intro hsafe
    obtain ⟨h', hstep, hinv⟩ := hsafe.step_inv hI hpossible
    exact ⟨h', hstep, hinv.toCounted⟩

theorem Heap.empty_inv : Heap.Inv {} :=
  ⟨⟨fun p => by simp [Heap.Live], fun n => by simp [Heap.Live], fun n k hk => by simp at hk,
    fun object => by simp [Heap.Live]⟩, ⟨fun r r' hr => by simp [Heap.Live] at hr, fun r r' hr => by simp [Heap.Live] at hr⟩,
    fun n k hk => by simp at hk⟩

end Sequences

/-- Along a sequence of operations every control block and every object goes exactly with its last owner, and the
    counters are right, if and only if every destructor runs for a last owner, no assignment from another control block
    for one, and no counter would overflow. -/
theorem keepsCount_iff_isSafe (ops : List Op) (hpossible : Each Heap.step (fun h op => op.IsPossible h) {} ops) :
    Each Heap.step (fun h op => op.KeepsCount h) {} ops ↔ Each Heap.step (fun h op => op.IsSafe h) {} ops := by
  refine each_iff_each (fun h op h' hI hp hs hstep => ?_) (fun _ _ => Op.keepsCount_iff) Heap.empty_inv hpossible
  obtain ⟨h'', hstep', hinv⟩ := hs.step_inv hI hp
  rw [hstep'] at hstep
  exact Option.some.inj hstep ▸ hinv

/-- Two owners of an object, one of which is assigned another pointer before the other one comes to its end. -/
theorem keepsCount_iff_isSafe_shared :
    Each Heap.step (fun h op => op.IsPossible h) {}
      [.construct 1 2 3, .copy 0, .construct 4 5 6, .assign 0 2, .destroy 1] ∧
    Each Heap.step (fun h op => op.KeepsCount h) {}
      [.construct 1 2 3, .copy 0, .construct 4 5 6, .assign 0 2, .destroy 1] := by
  have hpossible : Each Heap.step (fun h op => op.IsPossible h) {}
      [.construct 1 2 3, .copy 0, .construct 4 5 6, .assign 0 2, .destroy 1] := by decide
  have hsafe : Each Heap.step (fun h op => op.IsSafe h) {}
      [.construct 1 2 3, .copy 0, .construct 4 5 6, .assign 0 2, .destroy 1] := by decide
  exact ⟨hpossible, (keepsCount_iff_isSafe _ hpossible).mpr hsafe⟩

/-- `run()` of the program up to `p3 = p2`, which takes away the only owner of the second object: its control block
    stays. -/
theorem control_block_leaks :
    Each Heap.step (fun h op => op.IsPossible h) {}
      [.construct 1 2 3, .copy 0, .construct 4 5 6, .assign 2 1] ∧
    ¬Each Heap.step (fun h op => op.KeepsCount h) {} [.construct 1 2 3, .copy 0, .construct 4 5 6, .assign 2 1] := by
  refine ⟨by decide, fun hall => ?_⟩
  have hrun : (run Heap.step {} [.construct 1 2 3, .copy 0, .construct 4 5 6, .assign 2 1]).map
      (fun h => (h.vars, h.cellP 5)) = some ([some ⟨2, 3⟩, some ⟨2, 3⟩, some ⟨2, 3⟩], some 4) := by
    decide
  obtain ⟨h, hh, hview⟩ := Option.map_eq_some_iff.mp hrun
  obtain ⟨hvars, hcell⟩ := Prod.mk.inj hview
  have hcounted : h.Counted := by
    refine Each.last (hall.mono fun s op hkeeps t ht => ?_) (by simp) hh
    obtain ⟨t', ht', hcounted⟩ := hkeeps
    exact Option.some.inj (ht'.symm.trans ht) ▸ hcounted
  obtain ⟨r, hr, hp⟩ := (hcounted.cellP 5).mp (by rw [hcell]; rfl)
  rw [Heap.Live, hvars] at hr
  simp only [List.mem_cons, Option.some.injEq, List.not_mem_nil, or_false, or_self] at hr
  subst hr
  cases hp

end MySharedPtr
