import CppProgramming.MockMalloc.MyMalloc

/-! # The blocks of the static buffer

The requests that are served from `tmpbuff` while `init()` runs, with what is in the buffer. A block is known by the
length that was asked for, which for `calloc` is the product of the two numbers and not the one that the code computes
modulo `2 ^ 64`. An access outside of `tmpbuff` ends the process. -/

namespace MyMalloc.Bootstrap
open Execution

/-- A block that a request has returned. -/
structure Block where
  ptr : Addr
  length : Nat
  deriving DecidableEq, Repr

/-- The static variables, the memory, and as history the blocks that have been returned, the last one first. -/
structure Heap where
  allocator : State
  memory : Addr → UInt8 := fun _ => 0
  blocks : List Block := []

/-- `init()` has been called for the request `call`. -/
def start (call : Pending) : Heap := { allocator := { init := some (call, 0) } }

/-- A request, a write of the client or a return of `dlsym`. What is reallocated is `NULL` or a block. -/
inductive Request where
  | malloc (size : UInt64)
  | calloc (nmemb size : UInt64)
  | realloc (old : Option Block) (size : UInt64)
  | write (ptr : Addr) (c : UInt8)
  | dlsym (found : Bool)
  deriving DecidableEq, Repr

/-- A function on the heap that may stop the process. -/
abbrev Exec := EStateM Stop Heap

/-- What is done to the static variables. -/
def onAllocator {α : Type} (x : MyMalloc.Exec α) : Exec α := fun h =>
  match x.run h.allocator with
  | .ok a s => .ok a { h with allocator := s }
  | .error e s => .error e { h with allocator := s }

/-- The request has returned the block. -/
def returned (ptr : Addr) (length : Nat) : Exec Unit :=
  modify fun h => { h with blocks := ⟨ptr, length⟩ :: h.blocks }

section
variable (tmpbuff : Addr)

/-- The `n` bytes from `ptr` on are in `tmpbuff`. -/
def InBuffer (ptr : Addr) (n : Nat) : Prop := tmpbuff ≤ ptr ∧ ptr + n ≤ tmpbuff + tmpbuffSize

instance (ptr : Addr) (n : Nat) : Decidable (InBuffer tmpbuff ptr n) := inferInstanceAs (Decidable (_ ∧ _))

/-- The memory in which the `n` bytes from `ptr` on are given by their index. -/
def fill (memory : Addr → UInt8) (ptr : Addr) (n : Nat) (byte : Nat → UInt8) : Addr → UInt8 := fun a =>
  if ptr ≤ a ∧ a < ptr + n then byte (a - ptr) else memory a

/-- `memset`. -/
def memset (ptr : Addr) (c : UInt8) (n : Nat) : Exec Unit := do
  if InBuffer tmpbuff ptr n then
    modify fun h => { h with memory := fill h.memory ptr n fun _ => c }
  else throw .crash

/-- `memmove`. -/
def memmove (dest src : Addr) (n : Nat) : Exec Unit := do
  if InBuffer tmpbuff dest n ∧ InBuffer tmpbuff src n then
    modify fun h => { h with memory := fill h.memory dest n fun i => h.memory (src + i) }
  else throw .crash

/-- `my_malloc` before `dlsym` has returned. -/
def malloc (size : UInt64) : Exec Unit := do
  let ptr ← onAllocator (tmpMalloc tmpbuff size)
  onAllocator (own ptr)
  returned ptr size.toNat

/-- `my_calloc` before `dlsym` has returned. -/
def calloc (nmemb size : UInt64) : Exec Unit := do
  let ptr ← onAllocator (tmpMalloc tmpbuff (nmemb * size))
  if ptr ≠ 0 then
    memset tmpbuff ptr 0 (nmemb * size).toNat
  onAllocator (own ptr)
  returned ptr (nmemb.toNat * size.toNat)

/-- `my_realloc` before `dlsym` has returned. -/
def realloc (ptr : Addr) (size : UInt64) : Exec Unit := do
  let nptr ← onAllocator (tmpMalloc tmpbuff size)
  if nptr ≠ 0 ∧ ptr ≠ 0 then
    memmove tmpbuff nptr ptr size.toNat
  onAllocator (moveBlock tmpbuff nptr ptr)
  returned nptr size.toNat

/-- The pointer that stands for what is reallocated. -/
def pointer (old : Option Block) : Addr := old.elim 0 Block.ptr

/-- The request as the functions serve it. -/
def Request.exec : Request → Exec Unit
  | .malloc size => Bootstrap.malloc tmpbuff size
  | .calloc nmemb size => Bootstrap.calloc tmpbuff nmemb size
  | .realloc old size => Bootstrap.realloc tmpbuff (pointer old) size
  | .write ptr c => modify fun h => { h with memory := Function.update h.memory ptr c }
  | .dlsym found => onAllocator (MyMalloc.dlsym found)

/-- The heap after a request that the process survives. -/
def Heap.step (h : Heap) (r : Request) : Option Heap :=
  match (r.exec tmpbuff).run h with
  | .ok _ h' => some h'
  | .error _ _ => none

/-- The block that is reallocated. -/
def Request.old : Request → Option Block
  | .realloc old _ => old
  | .malloc _ | .calloc _ _ | .write _ _ | .dlsym _ => none

/-- The request is made while `init()` runs and `malloc` is not found yet, and it reallocates only what was returned. -/
def Request.IsPossible (h : Heap) (r : Request) : Prop :=
  (h.allocator.myfnMalloc = false ∧ h.allocator.init.isSome) ∧ ∀ b ∈ r.old, b ∈ h.blocks

instance (h : Heap) (r : Request) : Decidable (r.IsPossible h) := inferInstanceAs (Decidable (_ ∧ _))

/-- The blocks have no byte in common. -/
def Block.Apart (b c : Block) : Prop :=
  b.length ≠ 0 → c.length ≠ 0 → b.ptr + b.length ≤ c.ptr ∨ c.ptr + c.length ≤ b.ptr

/-- What the client may rely on when its request returns. -/
structure Promised (h : Heap) (r : Request) (h' : Heap) : Prop where
  inside : ∀ b ∈ h'.blocks, InBuffer tmpbuff b.ptr b.length
  apart : h'.blocks.Pairwise Block.Apart
  tmppos : h.allocator.tmppos ≤ h'.allocator.tmppos
  zero : ∀ nmemb size, r = .calloc nmemb size → ∀ b ∈ h'.blocks.head?, ∀ i < b.length, h'.memory (b.ptr + i) = 0
  copied : ∀ old size, r = .realloc (some old) size → ∀ b ∈ h'.blocks.head?,
    ∀ i < min old.length size.toNat, h'.memory (b.ptr + i) = h.memory (old.ptr + i)

/-- No request passes the test for the end of `tmpbuff` with a sum or a product that has wrapped around. Where the block
    is written at once, its size alone may not have wrapped: the process does not survive that. -/
def Request.NoWrap (h : Heap) : Request → Prop
  | .malloc size | .realloc none size => h.allocator.Fits size → h.allocator.tmppos.toNat + size.toNat < 2 ^ 64
  | .calloc nmemb size => h.allocator.Fits (nmemb * size) →
      h.allocator.tmppos.toNat + (nmemb * size).toNat < 2 ^ 64 → nmemb.toNat * size.toNat < 2 ^ 64
  | .realloc (some _) _ | .write _ _ | .dlsym _ => True

instance (h : Heap) : (r : Request) → Decidable (r.NoWrap h)
  | .malloc _ | .realloc none _ => inferInstanceAs (Decidable (_ → _))
  | .calloc _ _ => inferInstanceAs (Decidable (_ → _ → _))
  | .realloc (some _) _ | .write _ _ | .dlsym _ => inferInstanceAs (Decidable True)

/-! ### Requests -/

/-- Where the next block begins. -/
def Heap.top (h : Heap) : Addr := tmpbuff + h.allocator.tmppos.toNat

section Requests
variable {h h' : Heap} {r : Request} {size nmemb : UInt64} {b : Block}

theorem onAllocator_ok {α : Type} {x : MyMalloc.Exec α} {a : α} {s : State} (hx : x.run h.allocator = .ok a s) :
    (onAllocator x).run h = .ok a { h with allocator := s } := by
  simp only [onAllocator, EStateM.run] at hx ⊢
  rw [hx]

theorem onAllocator_error {α : Type} {x : MyMalloc.Exec α} {e : Stop} {s : State}
    (hx : x.run h.allocator = .error e s) : (onAllocator x).run h = .error e { h with allocator := s } := by
  simp only [onAllocator, EStateM.run] at hx ⊢
  rw [hx]

theorem bind_ok {α β : Type} {x : Exec α} {f : α → Exec β} {a : α} (hx : x.run h = .ok a h') :
    (x >>= f).run h = (f a).run h' := by
  simp only [EStateM.run, bind, EStateM.bind] at hx ⊢
  rw [hx]

theorem bind_error {α β : Type} {x : Exec α} {f : α → Exec β} {e : Stop} (hx : x.run h = .error e h') :
    (x >>= f).run h = .error e h' := by
  simp only [EStateM.run, bind, EStateM.bind] at hx ⊢
  rw [hx]

theorem onAllocator_tmpMalloc_ok (hfits : h.allocator.Fits size) :
    (onAllocator (tmpMalloc tmpbuff size)).run h = .ok (h.top tmpbuff) { h with allocator := h.allocator.take size } := by
  refine onAllocator_ok ?_
  rw [tmpMalloc_run, if_pos hfits]
  rfl

theorem onAllocator_tmpMalloc_error (hfits : ¬h.allocator.Fits size) :
    (onAllocator (tmpMalloc tmpbuff size)).run h = .error .exit h := by
  refine onAllocator_error ?_
  rw [tmpMalloc_run, if_neg hfits]

theorem step_malloc (h : Heap) (size : UInt64) : h.step tmpbuff (.malloc size) =
    if h.allocator.Fits size then
      some { h with
        allocator := (h.allocator.take size).gain (h.top tmpbuff)
        blocks := ⟨h.top tmpbuff, size.toNat⟩ :: h.blocks }
    else none := by
  unfold Heap.step Request.exec Bootstrap.malloc
  by_cases hfits : h.allocator.Fits size
  · rw [bind_ok (onAllocator_tmpMalloc_ok tmpbuff hfits), if_pos hfits]
    rfl
  · rw [bind_error (onAllocator_tmpMalloc_error tmpbuff hfits), if_neg hfits]

theorem memset_ok {ptr : Addr} {c : UInt8} {n : Nat} (hin : InBuffer tmpbuff ptr n) :
    (memset tmpbuff ptr c n).run h = .ok () { h with memory := fill h.memory ptr n fun _ => c } := by
  rw [memset, if_pos hin]
  rfl

theorem memset_error {ptr : Addr} {c : UInt8} {n : Nat} (hin : ¬InBuffer tmpbuff ptr n) :
    (memset tmpbuff ptr c n).run h = .error .crash h := by
  rw [memset, if_neg hin]
  rfl

theorem step_calloc (h : Heap) (nmemb size : UInt64) (htmp : 0 < tmpbuff) : h.step tmpbuff (.calloc nmemb size) =
    if h.allocator.Fits (nmemb * size) ∧ InBuffer tmpbuff (h.top tmpbuff) (nmemb * size).toNat then
      some {
        allocator := (h.allocator.take (nmemb * size)).gain (h.top tmpbuff)
        memory := fill h.memory (h.top tmpbuff) (nmemb * size).toNat fun _ => 0
        blocks := ⟨h.top tmpbuff, nmemb.toNat * size.toNat⟩ :: h.blocks }
    else none := by
  have htop : h.top tmpbuff ≠ 0 := (Nat.add_pos_left htmp _).ne'
  unfold Heap.step Request.exec Bootstrap.calloc
  by_cases hfits : h.allocator.Fits (nmemb * size)
  · rw [bind_ok (onAllocator_tmpMalloc_ok tmpbuff hfits), if_pos htop]
    by_cases hin : InBuffer tmpbuff (h.top tmpbuff) (nmemb * size).toNat
    · have hboth : h.allocator.Fits (nmemb * size) ∧ InBuffer tmpbuff (h.top tmpbuff) (nmemb * size).toNat :=
        ⟨hfits, hin⟩
      rw [bind_ok (memset_ok tmpbuff hin), if_pos hboth]
      rfl
    · rw [bind_error (memset_error tmpbuff hin), if_neg fun hboth => hin hboth.2]
  · rw [bind_error (onAllocator_tmpMalloc_error tmpbuff hfits), if_neg fun hboth => hfits hboth.1]

theorem step_realloc_null : h.step tmpbuff (.realloc none size) = h.step tmpbuff (.malloc size) := by
  have hnull : ¬(h.top tmpbuff ≠ 0 ∧ pointer none ≠ 0) := fun hboth => hboth.2 rfl
  rw [step_malloc]
  unfold Heap.step Request.exec Bootstrap.realloc
  by_cases hfits : h.allocator.Fits size
  · have hmove : (onAllocator (moveBlock tmpbuff (h.top tmpbuff) (pointer none))).run
          { h with allocator := h.allocator.take size } =
        .ok () { h with allocator := (h.allocator.take size).gain (h.top tmpbuff) } := by
      refine onAllocator_ok ?_
      rw [moveBlock_run, if_neg hnull]
    rw [bind_ok (onAllocator_tmpMalloc_ok tmpbuff hfits), if_neg hnull, bind_ok hmove, if_pos hfits]
    rfl
  · rw [bind_error (onAllocator_tmpMalloc_error tmpbuff hfits), if_neg hfits]

theorem memmove_ok {dest src : Addr} {n : Nat} (hin : InBuffer tmpbuff dest n ∧ InBuffer tmpbuff src n) :
    (memmove tmpbuff dest src n).run h =
      .ok () { h with memory := fill h.memory dest n fun i => h.memory (src + i) } := by
  rw [memmove, if_pos hin]
  rfl

theorem memmove_error {dest src : Addr} {n : Nat} (hin : ¬(InBuffer tmpbuff dest n ∧ InBuffer tmpbuff src n)) :
    (memmove tmpbuff dest src n).run h = .error .crash h := by
  rw [memmove, if_neg hin]
  rfl

/-- What `realloc` of a block has done when it returns. -/
structure Moved (h : Heap) (ptr : Addr) (size : UInt64) (h' : Heap) : Prop where
  fits : h.allocator.Fits size
  dest : InBuffer tmpbuff (h.top tmpbuff) size.toNat
  allocator : (moveBlock tmpbuff (h.top tmpbuff) ptr).run (h.allocator.take size) = .ok () h'.allocator
  memory : h'.memory = fill h.memory (h.top tmpbuff) size.toNat fun i => h.memory (ptr + i)
  blocks : h'.blocks = ⟨h.top tmpbuff, size.toNat⟩ :: h.blocks

theorem tmppos_moveBlock {nptr ptr : Addr} {s s' : State} (hrun : (moveBlock tmpbuff nptr ptr).run s = .ok () s') :
    s'.tmppos = s.tmppos := by
  rw [moveBlock_run] at hrun
  split_ifs at hrun <;> cases hrun <;> rw [gain_tmppos]
  rfl

theorem moved_of_step (htmp : 0 < tmpbuff) (hb : b.ptr ≠ 0) (hstep : h.step tmpbuff (.realloc (some b) size) = some h') :
    Moved tmpbuff h b.ptr size h' := by
  have hboth : h.top tmpbuff ≠ 0 ∧ pointer (some b) ≠ 0 := ⟨(Nat.add_pos_left htmp _).ne', hb⟩
  unfold Heap.step Request.exec Bootstrap.realloc at hstep
  by_cases hfits : h.allocator.Fits size
  · rw [bind_ok (onAllocator_tmpMalloc_ok tmpbuff hfits), if_pos hboth] at hstep
    by_cases hin : InBuffer tmpbuff (h.top tmpbuff) size.toNat ∧ InBuffer tmpbuff (pointer (some b)) size.toNat
    · rw [bind_ok (memmove_ok tmpbuff hin)] at hstep
      cases hmove : (moveBlock tmpbuff (h.top tmpbuff) (pointer (some b))).run (h.allocator.take size) with
      | ok a s =>
        rw [bind_ok (onAllocator_ok hmove)] at hstep
        cases hstep
        exact ⟨hfits, hin.1, hmove, rfl, rfl⟩
      | error e s =>
        rw [bind_error (onAllocator_error hmove)] at hstep
        cases hstep
    · rw [bind_error (memmove_error tmpbuff hin)] at hstep
      cases hstep
  · rw [bind_error (onAllocator_tmpMalloc_error tmpbuff hfits)] at hstep
    cases hstep

/-- A request has been served with the next `size` bytes, for a block of `n` bytes. -/
structure Served (h : Heap) (size : UInt64) (n : Nat) (h' : Heap) : Prop where
  fits : h.allocator.Fits size
  tmppos : h'.allocator.tmppos = h.allocator.tmppos + size
  blocks : h'.blocks = ⟨h.top tmpbuff, n⟩ :: h.blocks

theorem Moved.served {ptr : Addr} (hm : Moved tmpbuff h ptr size h') : Served tmpbuff h size size.toNat h' :=
  ⟨hm.fits, tmppos_moveBlock tmpbuff hm.allocator, hm.blocks⟩

theorem served_of_malloc (hstep : h.step tmpbuff (.malloc size) = some h') :
    Served tmpbuff h size size.toNat h' := by
  rw [step_malloc] at hstep
  split_ifs at hstep with hfits
  cases hstep
  exact ⟨hfits, gain_tmppos .., rfl⟩

theorem served_of_calloc (htmp : 0 < tmpbuff) (hstep : h.step tmpbuff (.calloc nmemb size) = some h') :
    Served tmpbuff h (nmemb * size) (nmemb.toNat * size.toNat) h' ∧
      InBuffer tmpbuff (h.top tmpbuff) (nmemb * size).toNat ∧
      h'.memory = fill h.memory (h.top tmpbuff) (nmemb * size).toNat fun _ => 0 := by
  rw [step_calloc tmpbuff _ _ _ htmp] at hstep
  split_ifs at hstep with hboth
  cases hstep
  exact ⟨⟨hboth.1, gain_tmppos .., rfl⟩, hboth.2, rfl⟩

theorem fill_at {memory : Addr → UInt8} {ptr : Addr} {n i : Nat} {byte : Nat → UInt8} (hi : i < n) :
    fill memory ptr n byte (ptr + i) = byte i := by
  rw [fill, if_pos ⟨Nat.le_add_right .., Nat.add_lt_add_left hi _⟩, Nat.add_sub_cancel_left]

end Requests

/-! ### The blocks -/

/-- The blocks are below the place of the next one and have no byte in common. -/
structure Inv (h : Heap) : Prop where
  tmppos : h.allocator.tmppos.toNat < tmpbuffSize
  below : ∀ b ∈ h.blocks, tmpbuff ≤ b.ptr ∧ b.ptr + b.length ≤ h.top tmpbuff
  apart : h.blocks.Pairwise Block.Apart

section Blocks
variable {h h' : Heap} {r : Request} {size nmemb : UInt64} {b : Block} {n : Nat}

theorem inv_start (call : Pending) : Inv tmpbuff (start call) where
  tmppos := show 0 < tmpbuffSize by decide
  below b hb := by cases hb
  apart := .nil

theorem Inv.congr (hI : Inv tmpbuff h) (htmppos : h'.allocator.tmppos = h.allocator.tmppos)
    (hblocks : h'.blocks = h.blocks) : Inv tmpbuff h' := by
  have htop : h'.top tmpbuff = h.top tmpbuff := by rw [Heap.top, htmppos, Heap.top]
  refine ⟨htmppos ▸ hI.tmppos, ?_, hblocks ▸ hI.apart⟩
  rw [hblocks, htop]
  exact hI.below

/-- The sum that was compared with the end of `tmpbuff` has not wrapped around. -/
theorem Served.top_eq (hs : Served tmpbuff h size n h') (hwrap : h.allocator.tmppos.toNat + size.toNat < 2 ^ 64) :
    h'.allocator.tmppos.toNat = h.allocator.tmppos.toNat + size.toNat := by
  rw [hs.tmppos, UInt64.toNat_add, Nat.mod_eq_of_lt hwrap]

theorem Served.inv (hI : Inv tmpbuff h) (hs : Served tmpbuff h size n h') (hn : size.toNat = n)
    (hwrap : h.allocator.tmppos.toNat + size.toNat < 2 ^ 64) : Inv tmpbuff h' := by
  have heq := hs.top_eq tmpbuff hwrap
  have htop : h'.top tmpbuff = h.top tmpbuff + n := by
    rw [Heap.top, heq, hn, Heap.top, Nat.add_assoc]
  have hfits := hs.fits
  rw [State.Fits, UInt64.toNat_add, Nat.mod_eq_of_lt hwrap] at hfits
  refine ⟨heq ▸ hfits, ?_, ?_⟩
  · rw [hs.blocks, htop]
    refine List.forall_mem_cons.mpr ⟨⟨Nat.le_add_right .., le_refl _⟩, fun b hb => ?_⟩
    obtain ⟨hle, hend⟩ := hI.below b hb
    exact ⟨hle, hend.trans (Nat.le_add_right ..)⟩
  · rw [hs.blocks]
    exact List.pairwise_cons.mpr ⟨fun b hb _ _ => .inr (hI.below b hb).2, hI.apart⟩

theorem Inv.inside (hI : Inv tmpbuff h) : ∀ b ∈ h.blocks, InBuffer tmpbuff b.ptr b.length := by
  intro b hb
  obtain ⟨hle, hend⟩ := hI.below b hb
  have htop := hI.tmppos
  exact ⟨hle, hend.trans (Nat.add_le_add_left htop.le _)⟩

theorem Served.le (hs : Served tmpbuff h size n h') (hwrap : h.allocator.tmppos.toNat + size.toNat < 2 ^ 64) :
    h.allocator.tmppos ≤ h'.allocator.tmppos := by
  rw [UInt64.le_iff_toNat_le, hs.top_eq tmpbuff hwrap]
  exact Nat.le_add_right ..

/-- A block that is inside `tmpbuff` has not made the sum wrap around. -/
theorem Served.length_lt (hs : Served tmpbuff h size n h') (hp : ∀ b ∈ h'.blocks, InBuffer tmpbuff b.ptr b.length) :
    h.allocator.tmppos.toNat + n ≤ tmpbuffSize := by
  obtain ⟨-, hend⟩ := hp ⟨h.top tmpbuff, n⟩ (hs.blocks ▸ List.mem_cons_self)
  exact Nat.le_of_add_le_add_left (Nat.add_assoc .. ▸ hend)

/-- Where the whole block is inside `tmpbuff`, the sum is right. -/
theorem lt_of_inBuffer (hin : InBuffer tmpbuff (h.top tmpbuff) n) : h.allocator.tmppos.toNat + n < 2 ^ 64 := by
  have hend : h.allocator.tmppos.toNat + n ≤ tmpbuffSize := Nat.le_of_add_le_add_left (Nat.add_assoc .. ▸ hin.2)
  exact hend.trans_lt (by decide)

/-- A request that writes no block itself. -/
theorem Inv.promised (hI' : Inv tmpbuff h') (hle : h.allocator.tmppos ≤ h'.allocator.tmppos)
    (hcalloc : ∀ nmemb size, r ≠ .calloc nmemb size) (hrealloc : ∀ old size, r ≠ .realloc (some old) size) :
    Inv tmpbuff h' ∧ Promised tmpbuff h r h' where
  left := hI'
  right :=
    { inside := hI'.inside tmpbuff
      apart := hI'.apart
      tmppos := hle
      zero nmemb size hr := absurd hr (hcalloc nmemb size)
      copied old size hr := absurd hr (hrealloc old size) }

/-- One request under the condition. -/
theorem Inv.step (htmp : 0 < tmpbuff) (hI : Inv tmpbuff h) (hp : r.IsPossible h) (hn : r.NoWrap h)
    (hstep : h.step tmpbuff r = some h') : Inv tmpbuff h' ∧ Promised tmpbuff h r h' := by
  cases r with
  | malloc size =>
    have hs := served_of_malloc tmpbuff hstep
    have hwrap := hn hs.fits
    exact (hs.inv tmpbuff hI rfl hwrap).promised tmpbuff (hs.le tmpbuff hwrap) (fun _ _ hr => by cases hr)
      fun _ _ hr => by cases hr
  | calloc nmemb size =>
    obtain ⟨hs, hin, hmemory⟩ := served_of_calloc tmpbuff htmp hstep
    have hwrap := lt_of_inBuffer tmpbuff hin
    have hlength : (nmemb * size).toNat = nmemb.toNat * size.toNat := by
      rw [UInt64.toNat_mul, Nat.mod_eq_of_lt (hn hs.fits hwrap)]
    have hI' := hs.inv tmpbuff hI hlength hwrap
    refine ⟨hI', hI'.inside tmpbuff, hI'.apart, hs.le tmpbuff hwrap, ?_, fun _ _ hr => by cases hr⟩
    intro _ _ _ b hb i hi
    rw [hs.blocks] at hb
    cases hb
    rw [hmemory, fill_at]
    rwa [hlength]
  | realloc old size =>
    cases old with
    | none =>
      rw [step_realloc_null] at hstep
      have hs := served_of_malloc tmpbuff hstep
      have hwrap := hn hs.fits
      exact (hs.inv tmpbuff hI rfl hwrap).promised tmpbuff (hs.le tmpbuff hwrap) (fun _ _ hr => by cases hr)
        fun _ _ hr => by cases hr
    | some old =>
      have hold := hI.below old (hp.2 old rfl)
      have hm := moved_of_step tmpbuff htmp (htmp.trans_le hold.1).ne' hstep
      have hs := hm.served
      have hwrap := lt_of_inBuffer tmpbuff hm.dest
      have hI' := hs.inv tmpbuff hI rfl hwrap
      refine ⟨hI', hI'.inside tmpbuff, hI'.apart, hs.le tmpbuff hwrap, (fun _ _ hr => by cases hr), ?_⟩
      intro _ _ hr b hb i hi
      cases hr
      rw [hs.blocks] at hb
      cases hb
      rw [hm.memory, fill_at (lt_min_iff.mp hi).2]
  | write ptr c =>
    cases hstep
    exact Inv.promised tmpbuff (hI.congr tmpbuff rfl rfl) (UInt64.le_refl _) (fun _ _ hr => by cases hr)
      fun _ _ hr => by cases hr
  | dlsym found =>
    obtain ⟨⟨call, i⟩, hi⟩ := Option.isSome_iff_exists.mp hp.1.2
    obtain ⟨s, j, hrun, -, htmppos, -⟩ := dlsym_run found hi
    have hok := onAllocator_ok hrun
    rw [Heap.step, Request.exec, hok] at hstep
    cases hstep
    refine Inv.promised tmpbuff (hI.congr tmpbuff htmppos rfl) ?_ (fun _ _ hr => by cases hr)
      fun _ _ hr => by cases hr
    exact htmppos ▸ UInt64.le_refl _

theorem promised_iff_noWrap (htmp : 0 < tmpbuff) (hI : Inv tmpbuff h) (hp : r.IsPossible h) :
    (∀ h', h.step tmpbuff r = some h' → Promised tmpbuff h r h') ↔ r.NoWrap h := by
  refine ⟨fun hpromised => ?_, fun hn h' hstep => (hI.step tmpbuff htmp hp hn hstep).2⟩
  have hmalloc : ∀ size, (∀ h', h.step tmpbuff (.malloc size) = some h' →
      ∀ b ∈ h'.blocks, InBuffer tmpbuff b.ptr b.length) →
      h.allocator.Fits size → h.allocator.tmppos.toNat + size.toNat < 2 ^ 64 := by
    intro size hinside hfits
    have hstep := step_malloc tmpbuff h size
    rw [if_pos hfits] at hstep
    exact ((served_of_malloc tmpbuff hstep).length_lt tmpbuff (hinside _ hstep)).trans_lt (by decide)
  cases r with
  | malloc size => exact hmalloc size fun h' hstep => (hpromised h' hstep).inside
  | calloc nmemb size =>
    intro hfits hwrap
    have hin : InBuffer tmpbuff (h.top tmpbuff) (nmemb * size).toNat := by
      rw [State.Fits, UInt64.toNat_add, Nat.mod_eq_of_lt hwrap] at hfits
      exact ⟨Nat.le_add_right .., Nat.add_assoc .. ▸ Nat.add_le_add_left hfits.le _⟩
    have hstep := step_calloc tmpbuff h nmemb size htmp
    have hboth : h.allocator.Fits (nmemb * size) ∧ InBuffer tmpbuff (h.top tmpbuff) (nmemb * size).toNat := ⟨hfits, hin⟩
    rw [if_pos hboth] at hstep
    obtain ⟨hs, -⟩ := served_of_calloc tmpbuff htmp hstep
    have hle := hs.length_lt tmpbuff (hpromised _ hstep).inside
    exact (Nat.le_add_left ..).trans_lt (hle.trans_lt (by decide))
  | realloc old size =>
    cases old with
    | none =>
      refine hmalloc size fun h' hstep => ?_
      rw [← step_realloc_null] at hstep
      exact (hpromised h' hstep).inside
    | some old => trivial
  | write ptr c => trivial
  | dlsym found => trivial

end Blocks

/-! ### The allocator of a request -/

/-- The call of the allocator that a request makes. -/
def Request.event : Request → Option Event
  | .malloc size => some (.malloc size 0)
  | .calloc nmemb size => some (.calloc nmemb size 0)
  | .realloc old size => some (.realloc (pointer old) size .failed)
  | .dlsym found => some (.dlsym found)
  | .write _ _ => none

/-- Without the memory a request is the one of the allocator. -/
theorem allocator_step (htmp : 0 < tmpbuff) {h h' : Heap} {r : Request} {e : Event} (hI : Inv tmpbuff h)
    (hp : r.IsPossible h) (he : r.event = some e) (hstep : h.step tmpbuff r = some h') :
    h.allocator.step tmpbuff e = some h'.allocator := by
  obtain ⟨⟨hm, hsome⟩, hold⟩ := hp
  have hi : h.allocator.init.isNone = false := by simpa using hsome
  cases r with
  | malloc size =>
    cases he
    rw [step_malloc] at hstep
    split_ifs at hstep with hfits
    cases hstep
    simp only [State.step, Event.exec, malloc_run, hm, hi, hfits, Bool.false_eq_true, if_false, if_true]
    rfl
  | calloc nmemb size =>
    cases he
    rw [step_calloc tmpbuff _ _ _ htmp] at hstep
    split_ifs at hstep with hboth
    cases hstep
    simp only [State.step, Event.exec, calloc_run, hm, hi, hboth.1, Bool.false_eq_true, if_false, if_true]
    rfl
  | realloc old size =>
    cases he
    cases old with
    | none =>
      rw [step_realloc_null, step_malloc] at hstep
      split_ifs at hstep with hfits
      cases hstep
      have hnull : ¬(tmpbuff + h.allocator.tmppos.toNat ≠ 0 ∧ pointer none ≠ 0) := fun hboth => hboth.2 rfl
      simp only [State.step, Event.exec, realloc_run, hm, hi, hfits, Bool.false_eq_true, if_false, if_true]
      rw [moveBlock_run, if_neg hnull]
      rfl
    | some b =>
      have hmoved := moved_of_step tmpbuff htmp (htmp.trans_le (hI.below b (hold b rfl)).1).ne' hstep
      simp only [State.step, Event.exec, realloc_run, hm, hi, hmoved.fits, Bool.false_eq_true, if_false, if_true]
      have hrun : (moveBlock tmpbuff (tmpbuff + h.allocator.tmppos.toNat) (pointer (some b))).run
          (h.allocator.take size) = .ok () h'.allocator := hmoved.allocator
      rw [hrun]
  | dlsym found =>
    cases he
    obtain ⟨⟨call, i⟩, hcall⟩ := Option.isSome_iff_exists.mp hsome
    obtain ⟨s, j, hrun, -⟩ := dlsym_run found hcall
    rw [Heap.step, Request.exec, onAllocator_ok hrun] at hstep
    cases hstep
    rw [State.step, Event.exec, hrun]
  | write ptr c => cases he

/-- Without the memory a sequence of requests is a run of the allocator. -/
theorem allocator_run (htmp : 0 < tmpbuff) {h h' : Heap} {rs : List Request} (hI : Inv tmpbuff h)
    (hrs : Each (Heap.step tmpbuff) (fun h r => r.IsPossible h ∧ r.NoWrap h) h rs)
    (hrun : run (Heap.step tmpbuff) h rs = some h') :
    run (State.step tmpbuff) h.allocator (rs.filterMap Request.event) = some h'.allocator := by
  induction rs generalizing h with
  | nil =>
    cases hrun
    rfl
  | cons r rs ih =>
    obtain ⟨⟨hp, hn⟩, hrest⟩ := each_cons.mp hrs
    obtain ⟨u, hstep, hrun⟩ := Option.bind_eq_some_iff.mp hrun
    have hnext := ih (hI.step tmpbuff htmp hp hn hstep).1 (hrest u hstep) hrun
    cases he : r.event with
    | none =>
      have hsame : u.allocator = h.allocator := by
        cases r with
        | write ptr c =>
          cases hstep
          rfl
        | malloc size | calloc nmemb size | realloc old size | dlsym found => cases he
      rw [List.filterMap_cons_none he, ← hsame]
      exact hnext
    | some e =>
      rw [List.filterMap_cons_some he, run, allocator_step tmpbuff htmp hI hp he hstep]
      exact hnext

end

/-- The blocks of `tmpbuff` are as promised in all sequences of requests in which no answered one wraps around, and in no
    others. -/
theorem each_promised_iff_noWrap (tmpbuff : Addr) (htmp : 0 < tmpbuff) (call : Pending) (rs : List Request)
    (hrs : Each (Heap.step tmpbuff) (fun h r => r.IsPossible h) (start call) rs) :
    Each (Heap.step tmpbuff) (fun h r => ∀ h', h.step tmpbuff r = some h' → Promised tmpbuff h r h') (start call) rs ↔
      Each (Heap.step tmpbuff) (fun h r => r.NoWrap h) (start call) rs := by
  refine each_iff_each (I := Inv tmpbuff) ?_ ?_ (inv_start tmpbuff call) hrs
  · intro h r h' hI hp hn hstep
    exact (hI.step tmpbuff htmp hp hn hstep).1
  · intro h r hI hp
    exact promised_iff_noWrap tmpbuff htmp hI hp

theorem each_promised_moved :
    Each (Heap.step 4096) (fun h r => ∀ h', h.step 4096 r = some h' → Promised 4096 h r h') (start (.malloc 100))
      [.malloc 16, .write 4096 7, .calloc 4 8, .realloc (some ⟨4096, 16⟩) 32] :=
  (each_promised_iff_noWrap 4096 (by decide) (.malloc 100) _ (by decide +kernel)).mpr (by decide +kernel)

/-- A request of nearly `2 ^ 64` bytes passes the test behind one of 16 bytes. -/
theorem not_each_promised_large :
    ¬∀ rs, Each (Heap.step 4096) (fun h r => r.IsPossible h) (start (.malloc 100)) rs →
      Each (Heap.step 4096) (fun h r => ∀ h', h.step 4096 r = some h' → Promised 4096 h r h') (start (.malloc 100))
        rs := by
  intro h
  have heach := h [.malloc 16, .malloc (2 ^ 64 - 8)] (by decide +kernel)
  let u : Heap := {
    allocator := { tmppos := 16, tmpallocs := 1, init := some (.malloc 100, 0), owned := [4096] }
    blocks := [⟨4096, 16⟩] }
  have hfirst : run (Heap.step 4096) (start (.malloc 100)) [.malloc 16] = some u := by rfl
  have hsecond := (step_malloc 4096 u (2 ^ 64 - 8)).trans (if_pos (by decide +kernel))
  have hpromised := heach [.malloc 16] (.malloc (2 ^ 64 - 8)) [] u rfl hfirst _ hsecond
  have htmppos := hpromised.tmppos
  rw [gain_tmppos] at htmppos
  exact absurd htmppos (by decide +kernel)

end MyMalloc.Bootstrap
