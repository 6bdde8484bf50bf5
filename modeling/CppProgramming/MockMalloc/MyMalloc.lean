import CppProgramming.Lib.Execution

/-! # The preloaded allocator

`my_malloc.c` puts itself in front of `malloc`, `free`, `calloc` and `realloc`. It looks the real functions up with
`dlsym` when it is first asked for memory, and since `dlsym` asks for memory too, it serves the requests that come in
until the first function is found from a static buffer. A sequence of events is the calls of the client, which may be
`dlsym` itself, and the returns of `dlsym`. What the real allocator returns is an argument of the call. What is in the
blocks is left out, and so is `memalign`, which only passes its call on. -/

namespace MyMalloc
open Execution

/-- An address; `NULL` is 0. -/
abbrev Addr := Nat

/-- `sizeof(tmpbuff)`. -/
def tmpbuffSize : Nat := 1024

/-- A call of the real allocator. -/
inductive RealCall where
  | malloc (size : UInt64)
  | calloc (nmemb size : UInt64)
  | free (ptr : Addr)
  | realloc (ptr : Addr) (size : UInt64)
  deriving DecidableEq, Repr

/-- The call that runs `init()`, which goes on when `init()` returns. -/
inductive Pending where
  | malloc (size : UInt64)
  | calloc (nmemb size : UInt64)
  | realloc (ptr : Addr) (size : UInt64)
  deriving DecidableEq, Repr

/-- How the process ends. -/
inductive Stop where
  -- A call through a null pointer.
  | crash
  -- `exit(1)`.
  | exit
  deriving DecidableEq, Repr

/-- The static variables: `myfnMalloc` and the others say whether the function is known. `init` is the call that runs
    `init()` (it is there while `initializing` is set) with the number of calls of `dlsym` that have returned. `owned`
    are the blocks that the client has, and `log` is history, which the code does not read: the calls of the real
    allocator. -/
structure State where
  tmppos : UInt64 := 0
  tmpallocs : UInt64 := 0
  myfnMalloc : Bool := false
  myfnFree : Bool := false
  myfnCalloc : Bool := false
  myfnRealloc : Bool := false
  myfnMemalign : Bool := false
  init : Option (Pending × Nat) := none
  owned : List Addr := []
  log : List RealCall := []
  deriving DecidableEq, Repr

/-- Code that may end the process. -/
abbrev Exec := EStateM Stop State

/-- What the real `realloc` does: it returns a block, it fails, or it returns `NULL` for a block of no size. -/
inductive ReallocAnswer where
  | block (ptr : Addr)
  | failed
  | released
  deriving DecidableEq, Repr

/-- A call of the client, a return of `dlsym`, or the return of `init()`. An `answer` is what the real allocator
    returns, should it be called. -/
inductive Event where
  | malloc (size : UInt64) (answer : Addr)
  | calloc (nmemb size : UInt64) (answer : Addr)
  | realloc (ptr : Addr) (size : UInt64) (answer : ReallocAnswer)
  | free (ptr : Addr)
  | dlsym (found : Bool)
  | initReturns (answer : Addr)
  deriving DecidableEq, Repr

/-- The state in which the client has also the block at `ptr`, unless that is `NULL`. -/
def State.gain (s : State) (ptr : Addr) : State := if ptr = 0 then s else { s with owned := ptr :: s.owned }

/-- The client has the block at `ptr`. -/
def own (ptr : Addr) : Exec Unit := modify (·.gain ptr)

/-- The client has given the block at `ptr` back. -/
def disown (ptr : Addr) : Exec Unit :=
  modify fun s => { s with owned := s.owned.erase ptr }

/-- The state after a call of the real allocator. -/
def State.record (s : State) (call : RealCall) : State := { s with log := s.log ++ [call] }

/-- A call of the real allocator, through a pointer that may be null. -/
def callReal (myfn : State → Bool) (call : RealCall) : Exec Unit := do
  if !myfn (← get) then throw .crash
  modify (·.record call)

/-- `tmppos + size < sizeof(tmpbuff)`; the sum may wrap around. -/
def State.Fits (s : State) (size : UInt64) : Prop := (s.tmppos + size).toNat < tmpbuffSize

instance (s : State) (size : UInt64) : Decidable (s.Fits size) := inferInstanceAs (Decidable (_ < _))

/-- The state after a request that was served from `tmpbuff`. -/
def State.take (s : State) (size : UInt64) : State :=
  { s with tmppos := s.tmppos + size, tmpallocs := s.tmpallocs + 1 }

section
variable (tmpbuff : Addr)

/-- The test of `free` for temporary memory. -/
def State.IsTemp (s : State) (ptr : Addr) : Prop := tmpbuff ≤ ptr ∧ ptr ≤ tmpbuff + s.tmppos.toNat

instance (s : State) (ptr : Addr) : Decidable (s.IsTemp tmpbuff ptr) := inferInstanceAs (Decidable (_ ∧ _))

/-- The branch of `malloc` that serves a request from `tmpbuff`. -/
def tmpMalloc (size : UInt64) : Exec Addr := do
  let s ← get
  if s.Fits size then
    set (s.take size)
    return tmpbuff + s.tmppos.toNat
  else throw .exit

/-- `malloc` where it calls the real one. -/
def realMalloc (size : UInt64) (answer : Addr) : Exec Addr := do
  callReal (·.myfnMalloc) (.malloc size)
  return answer

/-- `free`, up to what the client has. -/
def freeBlock (ptr : Addr) : Exec Unit := do
  let s ← get
  if s.IsTemp tmpbuff ptr then return
  else callReal (·.myfnFree) (.free ptr)

/-- `init()` begins. -/
def startInit (call : Pending) : Exec Unit :=
  modify fun s => { s with init := some (call, 0) }

/-- `malloc`. -/
def malloc (size : UInt64) (answer : Addr) : Exec Unit := do
  if !(← get).myfnMalloc then
    if (← get).init.isNone then startInit (.malloc size) else own (← tmpMalloc tmpbuff size)
  else own (← realMalloc size answer)

/-- `free`. -/
def free (ptr : Addr) : Exec Unit := do
  freeBlock tmpbuff ptr
  disown ptr

/-- The end of `realloc` where it calls `malloc`. -/
def moveBlock (nptr ptr : Addr) : Exec Unit := do
  if nptr ≠ 0 ∧ ptr ≠ 0 then free tmpbuff ptr
  own nptr

/-- `realloc`. -/
def realloc (ptr : Addr) (size : UInt64) (answer : ReallocAnswer) : Exec Unit := do
  if !(← get).myfnMalloc then
    if (← get).init.isNone then startInit (.realloc ptr size)
    else moveBlock tmpbuff (← tmpMalloc tmpbuff size) ptr
  else
    callReal (·.myfnRealloc) (.realloc ptr size)
    match answer with
    | .block nptr =>
      disown ptr
      own nptr
    | .failed => return
    | .released => disown ptr

/-- `calloc`. -/
def calloc (nmemb size : UInt64) (answer : Addr) : Exec Unit := do
  if !(← get).myfnMalloc then
    if (← get).init.isNone then startInit (.calloc nmemb size) else own (← tmpMalloc tmpbuff (nmemb * size))
  else
    callReal (·.myfnCalloc) (.calloc nmemb size)
    own answer

/-- A call of `dlsym` in `init()` returns. -/
def dlsym (found : Bool) : Exec Unit :=
  modify fun s =>
    match s.init with
    | some (call, 0) => { s with myfnMalloc := found, init := some (call, 1) }
    | some (call, 1) => { s with myfnFree := found, init := some (call, 2) }
    | some (call, 2) => { s with myfnCalloc := found, init := some (call, 3) }
    | some (call, 3) => { s with myfnRealloc := found, init := some (call, 4) }
    | some (call, 4) => { s with myfnMemalign := found, init := some (call, 5) }
    | _ => s

/-- All functions have been found. -/
def State.isKnown (s : State) : Bool :=
  s.myfnMalloc && s.myfnFree && s.myfnCalloc && s.myfnRealloc && s.myfnMemalign

/-- `init()` checks what it has found and returns, and the call that ran it goes on. -/
def initReturns (answer : Addr) : Exec Unit := do
  let s ← get
  if !s.isKnown then throw .exit
  set { s with init := none }
  match s.init with
  | some (.malloc size, _) => own (← realMalloc size answer)
  | some (.calloc nmemb size, _) => own (← realMalloc (nmemb * size) answer)
  | some (.realloc ptr size, _) => moveBlock tmpbuff (← realMalloc size answer) ptr
  | none => return

/-- What an event runs. -/
def Event.exec : Event → Exec Unit
  | .malloc size answer => MyMalloc.malloc tmpbuff size answer
  | .calloc nmemb size answer => MyMalloc.calloc tmpbuff nmemb size answer
  | .realloc ptr size answer => MyMalloc.realloc tmpbuff ptr size answer
  | .free ptr => MyMalloc.free tmpbuff ptr
  | .dlsym found => MyMalloc.dlsym found
  | .initReturns answer => MyMalloc.initReturns tmpbuff answer

/-- The state that an event leaves, also where the process ends. -/
def stateAfter : EStateM.Result Stop State Unit → State
  | .ok _ s => s
  | .error _ s => s

/-- The state after an event that the process survives. -/
def State.step (s : State) (e : Event) : Option State :=
  match (e.exec tmpbuff).run s with
  | .ok _ s' => some s'
  | .error _ _ => none

/-! ### What is asked for -/

/-- A pointer into `tmpbuff`. -/
def InTmpbuff (ptr : Addr) : Prop := tmpbuff ≤ ptr ∧ ptr < tmpbuff + tmpbuffSize

/-- The real `free` or the real `realloc` gets a pointer into `tmpbuff`. -/
def RealCall.OnTmpbuff : RealCall → Prop
  | .free ptr | .realloc ptr _ => InTmpbuff tmpbuff ptr
  | .malloc _ | .calloc _ _ => False

instance (ptr : Addr) : Decidable (InTmpbuff tmpbuff ptr) := inferInstanceAs (Decidable (_ ∧ _))

/-- A block of the real allocator: not in `tmpbuff`. -/
def IsReal (answer : Addr) : Prop := answer ≠ 0 → ¬InTmpbuff tmpbuff answer

instance (answer : Addr) : Decidable (IsReal tmpbuff answer) := inferInstanceAs (Decidable (_ → _))

/-- The client gives back what it has and nothing else, the real allocator returns blocks of its own, and `dlsym` and
    `init()` return when they are called. -/
def Event.IsPossible (s : State) : Event → Prop
  | .malloc _ answer | .calloc _ _ answer => IsReal tmpbuff answer
  | .realloc ptr _ (.block nptr) => (ptr = 0 ∨ ptr ∈ s.owned) ∧ IsReal tmpbuff nptr
  | .realloc ptr _ .failed | .realloc ptr _ .released => ptr = 0 ∨ ptr ∈ s.owned
  | .free ptr => ptr = 0 ∨ ptr ∈ s.owned
  | .dlsym _ => ∃ p ∈ s.init, p.2 < 5
  | .initReturns answer => (∃ p ∈ s.init, p.2 = 5) ∧ IsReal tmpbuff answer

instance (s : State) : (e : Event) → Decidable (e.IsPossible tmpbuff s)
  | .malloc _ _ | .calloc _ _ _ => inferInstanceAs (Decidable (IsReal tmpbuff _))
  | .realloc _ _ (.block _) => inferInstanceAs (Decidable (_ ∧ _))
  | .realloc _ _ .failed | .realloc _ _ .released | .free _ => inferInstanceAs (Decidable (_ ∨ _))
  | .dlsym _ => inferInstanceAs (Decidable (∃ p ∈ s.init, p.2 < 5))
  | .initReturns _ => inferInstanceAs (Decidable (_ ∧ _))

/-- No pointer into `tmpbuff` has come to the real `free` or `realloc`, and a block of the real allocator that is freed
    comes to the real `free`. -/
def Event.KeepsApart (s : State) (e : Event) : Prop :=
  (∀ call ∈ (stateAfter ((e.exec tmpbuff).run s)).log, ¬call.OnTmpbuff tmpbuff) ∧
    ∀ ptr, e = .free ptr → ptr ≠ 0 → ¬InTmpbuff tmpbuff ptr →
      (stateAfter ((e.exec tmpbuff).run s)).log = s.log ++ [RealCall.free ptr]

/-- A block of `tmpbuff` is freed only where `free` takes it for temporary memory or `myfn_free` is not known, and it is
    not reallocated once `myfn_malloc` and `myfn_realloc` are known; a block of the real allocator is freed only when
    `myfn_free` is known. -/
def Event.IsSafe (s : State) : Event → Prop
  | .free ptr => (InTmpbuff tmpbuff ptr → s.myfnFree = true → s.IsTemp tmpbuff ptr) ∧
      (ptr ≠ 0 → ¬InTmpbuff tmpbuff ptr → s.myfnFree = true)
  | .realloc ptr size _ =>
    if s.myfnMalloc then s.myfnRealloc = true → ¬InTmpbuff tmpbuff ptr
    else s.init.isSome → s.Fits size → InTmpbuff tmpbuff ptr → s.myfnFree = true →
      (s.take size).IsTemp tmpbuff ptr
  | _ => True

instance (s : State) : (e : Event) → Decidable (e.IsSafe tmpbuff s)
  | .free _ => inferInstanceAs (Decidable (_ ∧ _))
  | .realloc ptr size _ => inferInstanceAs (Decidable (if s.myfnMalloc then s.myfnRealloc = true → ¬InTmpbuff tmpbuff ptr
    else s.init.isSome → s.Fits size → InTmpbuff tmpbuff ptr → s.myfnFree = true → (s.take size).IsTemp tmpbuff ptr))
  | .malloc _ _ | .calloc _ _ _ | .dlsym _ | .initReturns _ => inferInstanceAs (Decidable True)

/-! ### The calls of the real allocator -/

@[simp]
theorem gain_log (s : State) (ptr : Addr) : (s.gain ptr).log = s.log := by
  unfold State.gain
  split <;> rfl

@[simp]
theorem record_log (s : State) (call : RealCall) : (s.record call).log = s.log ++ [call] := rfl

@[simp]
theorem take_log (s : State) (size : UInt64) : (s.take size).log = s.log := rfl

theorem callReal_run (myfn : State → Bool) (call : RealCall) (s : State) :
    (callReal myfn call).run s = if myfn s then .ok () (s.record call) else .error .crash s := by
  cases h : myfn s <;> simp [callReal, h]

theorem tmpMalloc_run (size : UInt64) (s : State) :
    (tmpMalloc tmpbuff size).run s =
      if s.Fits size then .ok (tmpbuff + s.tmppos.toNat) (s.take size) else .error .exit s := by
  by_cases h : s.Fits size
  · simp [tmpMalloc, h]
  · simp [tmpMalloc, h]
    rfl

theorem free_run (ptr : Addr) (s : State) :
    (free tmpbuff ptr).run s =
      if s.IsTemp tmpbuff ptr then .ok () { s with owned := s.owned.erase ptr }
      else if s.myfnFree then .ok () { s.record (.free ptr) with owned := s.owned.erase ptr }
      else .error .crash s := by
  by_cases h : s.IsTemp tmpbuff ptr
  · simp [free, freeBlock, disown, h]
  · cases hf : s.myfnFree <;> simp [free, freeBlock, disown, callReal_run, h, hf, State.record]

theorem malloc_run (size : UInt64) (answer : Addr) (s : State) :
    (malloc tmpbuff size answer).run s =
      if s.myfnMalloc then .ok () ((s.record (.malloc size)).gain answer)
      else if s.init.isNone then .ok () { s with init := some (.malloc size, 0) }
      else if s.Fits size then .ok () ((s.take size).gain (tmpbuff + s.tmppos.toNat))
      else .error .exit s := by
  cases hm : s.myfnMalloc with
  | true => simp [malloc, realMalloc, callReal_run, own, hm]
  | false =>
    cases hi : s.init with
    | none => simp [malloc, startInit, hm, hi]
    | some p => by_cases h : s.Fits size <;> simp [malloc, tmpMalloc_run, own, hm, hi, h]

theorem calloc_run (nmemb size : UInt64) (answer : Addr) (s : State) :
    (calloc tmpbuff nmemb size answer).run s =
      if s.myfnMalloc then
        if s.myfnCalloc then .ok () ((s.record (.calloc nmemb size)).gain answer) else .error .crash s
      else if s.init.isNone then .ok () { s with init := some (.calloc nmemb size, 0) }
      else if s.Fits (nmemb * size) then .ok () ((s.take (nmemb * size)).gain (tmpbuff + s.tmppos.toNat))
      else .error .exit s := by
  cases hm : s.myfnMalloc with
  | true => cases hc : s.myfnCalloc <;> simp [calloc, callReal_run, own, hm, hc]
  | false =>
    cases hi : s.init with
    | none => simp [calloc, startInit, hm, hi]
    | some p => by_cases h : s.Fits (nmemb * size) <;> simp [calloc, tmpMalloc_run, own, hm, hi, h]

theorem moveBlock_run (nptr ptr : Addr) (s : State) :
    (moveBlock tmpbuff nptr ptr).run s =
      if nptr ≠ 0 ∧ ptr ≠ 0 then
        if s.IsTemp tmpbuff ptr then .ok () (State.gain { s with owned := s.owned.erase ptr } nptr)
        else if s.myfnFree then .ok () (State.gain { s.record (.free ptr) with owned := s.owned.erase ptr } nptr)
        else .error .crash s
      else .ok () (s.gain nptr) := by
  by_cases h : nptr ≠ 0 ∧ ptr ≠ 0
  · by_cases ht : s.IsTemp tmpbuff ptr
    · simp [moveBlock, free_run, own, h, ht]
    · cases hf : s.myfnFree <;> simp [moveBlock, free_run, own, h, ht, hf]
  · simp only [moveBlock, own, if_neg h]
    simp

/-- What the client has after the real `realloc`. -/
def State.moved (s : State) (ptr : Addr) : ReallocAnswer → State
  | .block nptr => State.gain { s with owned := s.owned.erase ptr } nptr
  | .failed => s
  | .released => { s with owned := s.owned.erase ptr }

theorem realloc_run (ptr : Addr) (size : UInt64) (answer : ReallocAnswer) (s : State) :
    (realloc tmpbuff ptr size answer).run s =
      if s.myfnMalloc then
        if s.myfnRealloc then .ok () ((s.record (.realloc ptr size)).moved ptr answer) else .error .crash s
      else if s.init.isNone then .ok () { s with init := some (.realloc ptr size, 0) }
      else if s.Fits size then (moveBlock tmpbuff (tmpbuff + s.tmppos.toNat) ptr).run (s.take size)
      else .error .exit s := by
  cases hm : s.myfnMalloc with
  | true => cases hr : s.myfnRealloc <;> cases answer <;> simp [realloc, callReal_run, own, disown, State.moved, hm, hr]
  | false =>
    cases hi : s.init with
    | none => simp [realloc, startInit, hm, hi]
    | some p => by_cases h : s.Fits size <;> simp [realloc, tmpMalloc_run, hm, hi, h]

/-- The size that the call asks `malloc` for. -/
def Pending.size : Pending → UInt64
  | .malloc size => size
  | .calloc nmemb size => nmemb * size
  | .realloc _ size => size

/-- What holds between the calls under the condition: before the first call the client has nothing to reallocate. -/
structure Inv (s : State) : Prop where
  tmppos_lt : s.tmppos.toNat < tmpbuffSize
  pending_null : ∀ ptr size i, s.init = some (.realloc ptr size, i) → ptr = 0
  owned_nil : s.init = none → s.myfnMalloc = false → s.owned = []
  apart : ∀ call ∈ s.log, ¬call.OnTmpbuff tmpbuff

theorem State.myfnMalloc_of_isKnown {s : State} (h : s.isKnown = true) : s.myfnMalloc = true := by
  simp only [State.isKnown, Bool.and_eq_true] at h
  exact h.1.1.1.1

theorem initReturns_run {answer : Addr} {s : State} {call : Pending} {i : Nat} (hs : Inv tmpbuff s)
    (hi : s.init = some (call, i)) :
    (initReturns tmpbuff answer).run s =
      if s.isKnown then .ok () ((State.record { s with init := none } (.malloc call.size)).gain answer)
      else .error .exit s := by
  by_cases hk : s.isKnown = true
  · have hm := State.myfnMalloc_of_isKnown hk
    cases call with
    | malloc size => simp [initReturns, realMalloc, callReal_run, own, Pending.size, hi, hk, hm]
    | calloc nmemb size => simp [initReturns, realMalloc, callReal_run, own, Pending.size, hi, hk, hm]
    | realloc ptr size =>
      obtain rfl := hs.pending_null ptr size i hi
      simp [initReturns, realMalloc, callReal_run, moveBlock_run, Pending.size, hi, hk, hm]
  · simp [initReturns, hk]

/-- The calls of the real allocator that an event makes. -/
def Event.calls (s : State) : Event → List RealCall
  | .malloc size _ => if s.myfnMalloc then [.malloc size] else []
  | .calloc nmemb size _ => if s.myfnMalloc ∧ s.myfnCalloc then [.calloc nmemb size] else []
  | .realloc ptr size _ =>
    if s.myfnMalloc then if s.myfnRealloc then [.realloc ptr size] else []
    else if s.init.isSome ∧ s.Fits size ∧ ptr ≠ 0 ∧ ¬(s.take size).IsTemp tmpbuff ptr ∧ s.myfnFree then [.free ptr]
    else []
  | .free ptr => if ¬s.IsTemp tmpbuff ptr ∧ s.myfnFree then [.free ptr] else []
  | .dlsym _ => []
  | .initReturns _ => if s.isKnown then [.malloc ((s.init.map (·.1.size)).getD 0)] else []

theorem dlsym_run (found : Bool) {s : State} {call : Pending} {i : Nat} (hi : s.init = some (call, i)) :
    ∃ t j, (dlsym found).run s = .ok () t ∧ t.log = s.log ∧ t.tmppos = s.tmppos ∧ t.owned = s.owned ∧
      t.init = some (call, j) := by
  by_cases h : i < 5
  · interval_cases i <;> simp [dlsym, hi]
  · refine ⟨s, i, ?_, rfl, rfl, rfl, hi⟩
    simp only [dlsym, EStateM.run_modify, hi]
    split <;> simp_all

theorem log_realloc (htmp : 0 < tmpbuff) {s : State} {ptr : Addr} {size : UInt64} {answer : ReallocAnswer} :
    (stateAfter ((realloc tmpbuff ptr size answer).run s)).log =
      s.log ++ Event.calls tmpbuff s (.realloc ptr size answer) := by
  simp only [realloc_run, moveBlock_run, Event.calls]
  cases hm : s.myfnMalloc with
  | true => cases s.myfnRealloc <;> cases answer <;> simp [stateAfter, State.moved]
  | false =>
    have hne : tmpbuff ≠ 0 := Nat.ne_of_gt htmp
    cases hi : s.init with
    | none => simp [stateAfter]
    | some p =>
      by_cases hfits : s.Fits size
      · by_cases hptr : ptr = 0
        · simp [stateAfter, hfits, hptr]
        · by_cases ht : (s.take size).IsTemp tmpbuff ptr
          · simp [stateAfter, hfits, hptr, ht, hne]
          · have hf : (s.take size).myfnFree = s.myfnFree := rfl
            cases hfree : s.myfnFree <;> simp [stateAfter, hfits, hptr, ht, hne, hf, hfree]
      · simp [stateAfter, hfits]

theorem log_stateAfter (htmp : 0 < tmpbuff) {s : State} {e : Event} (hs : Inv tmpbuff s)
    (he : e.IsPossible tmpbuff s) :
    (stateAfter ((e.exec tmpbuff).run s)).log = s.log ++ e.calls tmpbuff s := by
  cases e with
  | malloc size answer =>
    simp only [Event.exec, malloc_run, Event.calls]
    split_ifs <;> simp [stateAfter]
  | calloc nmemb size answer =>
    simp only [Event.exec, calloc_run, Event.calls]
    split_ifs <;> simp_all [stateAfter]
  | realloc ptr size answer => exact log_realloc tmpbuff htmp
  | free ptr =>
    simp only [Event.exec, free_run, Event.calls]
    split_ifs <;> simp_all [stateAfter]
  | dlsym found =>
    obtain ⟨⟨call, i⟩, hi, -⟩ := he
    obtain ⟨t, j, hrun, hlog, -⟩ := dlsym_run found hi
    simp [Event.exec, hrun, Event.calls, stateAfter, hlog]
  | initReturns answer =>
    obtain ⟨⟨⟨call, i⟩, hi, -⟩, -⟩ := he
    simp only [Event.exec, initReturns_run tmpbuff hs hi, Event.calls, Option.mem_def.mp hi]
    split_ifs <;> simp [stateAfter]

theorem not_inTmpbuff_zero (htmp : 0 < tmpbuff) : ¬InTmpbuff tmpbuff 0 := by
  rintro ⟨h, -⟩
  exact absurd h (Nat.not_le_of_lt htmp)

/-- What `free` takes for temporary memory is in `tmpbuff`. -/
theorem IsTemp.inTmpbuff {s : State} {ptr : Addr} (hs : s.tmppos.toNat < tmpbuffSize) (h : s.IsTemp tmpbuff ptr) :
    InTmpbuff tmpbuff ptr :=
  ⟨h.1, Nat.lt_of_le_of_lt h.2 (Nat.add_lt_add_left hs tmpbuff)⟩

theorem forall_mem_ite_singleton {α : Type} {P : Prop} [Decidable P] {a : α} {Q : α → Prop} :
    (∀ x ∈ if P then [a] else [], Q x) ↔ (P → Q a) := by
  by_cases h : P <;> simp [h]

/-- An event is safe when it makes no call of the real allocator on `tmpbuff` and frees a real block. -/
theorem isSafe_iff (htmp : 0 < tmpbuff) {s : State} {e : Event} (hs : s.tmppos.toNat < tmpbuffSize) :
    e.IsSafe tmpbuff s ↔ (∀ call ∈ e.calls tmpbuff s, ¬call.OnTmpbuff tmpbuff) ∧
      ∀ ptr, e = .free ptr → ptr ≠ 0 → ¬InTmpbuff tmpbuff ptr → e.calls tmpbuff s = [.free ptr] := by
  cases e with
  | malloc size answer => simp [Event.IsSafe, Event.calls, RealCall.OnTmpbuff]
  | calloc nmemb size answer =>
    simp only [Event.IsSafe, Event.calls, forall_mem_ite_singleton, RealCall.OnTmpbuff]
    simp
  | realloc ptr size answer =>
    cases hm : s.myfnMalloc with
    | true => simp [Event.IsSafe, Event.calls, RealCall.OnTmpbuff, hm]
    | false =>
      have hptr : InTmpbuff tmpbuff ptr → ptr ≠ 0 := by
        rintro hin rfl
        exact not_inTmpbuff_zero tmpbuff htmp hin
      simp only [Event.IsSafe, Event.calls, hm, Bool.false_eq_true, if_false, forall_mem_ite_singleton,
        RealCall.OnTmpbuff, reduceCtorEq, false_imp_iff, implies_true, and_true]
      tauto
  | free ptr =>
    have hin : ¬InTmpbuff tmpbuff ptr → ¬s.IsTemp tmpbuff ptr := fun hin ht => hin (IsTemp.inTmpbuff tmpbuff hs ht)
    simp only [Event.IsSafe, Event.calls, forall_mem_ite_singleton, RealCall.OnTmpbuff]
    refine and_congr ?_ ?_
    · tauto
    · simp
      tauto
  | dlsym found => simp [Event.IsSafe, Event.calls]
  | initReturns answer => simp [Event.IsSafe, Event.calls, RealCall.OnTmpbuff]

theorem keepsApart_iff_isSafe (htmp : 0 < tmpbuff) {s : State} {e : Event} (hs : Inv tmpbuff s)
    (he : e.IsPossible tmpbuff s) : e.KeepsApart tmpbuff s ↔ e.IsSafe tmpbuff s := by
  rw [isSafe_iff tmpbuff htmp hs.tmppos_lt, Event.KeepsApart, log_stateAfter tmpbuff htmp hs he]
  simp only [List.mem_append, List.append_cancel_left_eq]
  refine and_congr_left fun _ => ⟨fun h call hcall => h call (.inr hcall), ?_⟩
  rintro h call (hcall | hcall)
  · exact hs.apart call hcall
  · exact h call hcall

/-! ### The sequences of calls -/

@[simp]
theorem gain_tmppos (s : State) (ptr : Addr) : (s.gain ptr).tmppos = s.tmppos := by
  unfold State.gain
  split <;> rfl

@[simp]
theorem gain_init (s : State) (ptr : Addr) : (s.gain ptr).init = s.init := by
  unfold State.gain
  split <;> rfl

@[simp]
theorem gain_myfnMalloc (s : State) (ptr : Addr) : (s.gain ptr).myfnMalloc = s.myfnMalloc := by
  unfold State.gain
  split <;> rfl

@[simp]
theorem record_tmppos (s : State) (call : RealCall) : (s.record call).tmppos = s.tmppos := rfl

@[simp]
theorem record_init (s : State) (call : RealCall) : (s.record call).init = s.init := rfl

@[simp]
theorem record_myfnMalloc (s : State) (call : RealCall) : (s.record call).myfnMalloc = s.myfnMalloc := rfl

@[simp]
theorem take_tmppos (s : State) (size : UInt64) : (s.take size).tmppos = s.tmppos + size := rfl

@[simp]
theorem take_init (s : State) (size : UInt64) : (s.take size).init = s.init := rfl

@[simp]
theorem moved_tmppos (s : State) (ptr : Addr) (answer : ReallocAnswer) : (s.moved ptr answer).tmppos = s.tmppos := by
  cases answer <;> simp [State.moved]

@[simp]
theorem moved_init (s : State) (ptr : Addr) (answer : ReallocAnswer) : (s.moved ptr answer).init = s.init := by
  cases answer <;> simp [State.moved]

@[simp]
theorem moved_myfnMalloc (s : State) (ptr : Addr) (answer : ReallocAnswer) :
    (s.moved ptr answer).myfnMalloc = s.myfnMalloc := by
  cases answer <;> simp [State.moved]

theorem run_of_step {s t : State} {e : Event} (h : s.step tmpbuff e = some t) : (e.exec tmpbuff).run s = .ok () t := by
  unfold State.step at h
  split at h
  · rename_i u hrun
    rw [hrun, Option.some.inj h]
  · cases h

theorem Inv.of_step_log {s t : State} {e : Event} (htmp : 0 < tmpbuff) (hs : Inv tmpbuff s) (he : e.IsPossible tmpbuff s)
    (hsafe : e.IsSafe tmpbuff s) (h : s.step tmpbuff e = some t) : ∀ call ∈ t.log, ¬call.OnTmpbuff tmpbuff := by
  have hkeeps := ((keepsApart_iff_isSafe tmpbuff htmp hs he).mpr hsafe).1
  rwa [run_of_step tmpbuff h] at hkeeps

theorem Inv.advance {s t : State} (hs : Inv tmpbuff s) (hapart : ∀ call ∈ t.log, ¬call.OnTmpbuff tmpbuff)
    (hpos : t.tmppos.toNat < tmpbuffSize) (hinit : t.init = s.init ∨ t.init = none)
    (howned : t.init = none → t.myfnMalloc = false → t.owned = []) : Inv tmpbuff t where
  tmppos_lt := hpos
  pending_null ptr size i h := by
    rcases hinit with heq | hnone
    · exact hs.pending_null ptr size i (heq ▸ h)
    · simp [hnone] at h
  owned_nil := howned
  apart := hapart

/-- A request that is passed on. -/
theorem Inv.pass {s t : State} (hs : Inv tmpbuff s) (hapart : ∀ call ∈ t.log, ¬call.OnTmpbuff tmpbuff)
    (hpos : t.tmppos = s.tmppos) (hinit : t.init = s.init ∨ t.init = none) (hm : t.myfnMalloc = true) :
    Inv tmpbuff t := by
  refine hs.advance tmpbuff hapart (hpos ▸ hs.tmppos_lt) hinit fun _ hf => ?_
  rw [hm] at hf
  cases hf

/-- A request that is served from `tmpbuff`. -/
theorem Inv.serve {s t : State} {size : UInt64} (hs : Inv tmpbuff s) (hapart : ∀ call ∈ t.log, ¬call.OnTmpbuff tmpbuff)
    (hfits : s.Fits size) (hpos : t.tmppos = s.tmppos + size) (hinit : t.init = s.init) (hsome : ¬s.init.isNone = true) :
    Inv tmpbuff t := by
  refine hs.advance tmpbuff hapart (hpos ▸ hfits) (.inl hinit) fun hnone => ?_
  simp [← hinit, hnone] at hsome

/-- A request that starts `init()`. -/
theorem Inv.start {s : State} {call : Pending} (hs : Inv tmpbuff s)
    (hcall : ∀ ptr size, call = .realloc ptr size → ptr = 0) : Inv tmpbuff { s with init := some (call, 0) } where
  tmppos_lt := hs.tmppos_lt
  pending_null ptr size i h := by
    simp only [Option.some.injEq, Prod.mk.injEq] at h
    exact hcall ptr size h.1
  owned_nil h := by simp at h
  apart := hs.apart

theorem Inv.realloc {s t : State} {ptr : Addr} {size : UInt64} {answer : ReallocAnswer} (hs : Inv tmpbuff s)
    (hptr : ptr = 0 ∨ ptr ∈ s.owned) (hapart : ∀ call ∈ t.log, ¬call.OnTmpbuff tmpbuff)
    (hrun : (realloc tmpbuff ptr size answer).run s = .ok () t) : Inv tmpbuff t := by
  rw [realloc_run] at hrun
  split_ifs at hrun with hm hr hi hfits
  · cases hrun
    exact hs.pass tmpbuff hapart (by simp) (.inl (by simp)) (by simpa using hm)
  · cases hrun
    refine hs.start tmpbuff fun ptr' size' heq => ?_
    cases heq
    have hnil := hs.owned_nil (Option.isNone_iff_eq_none.mp hi) (by simpa using hm)
    simpa [hnil] using hptr
  · rw [moveBlock_run] at hrun
    split_ifs at hrun <;> cases hrun
    all_goals exact hs.serve tmpbuff hapart hfits (by simp) (by simp) hi

theorem Event.IsPossible.of_realloc {s : State} {ptr : Addr} {size : UInt64} {answer : ReallocAnswer}
    (he : Event.IsPossible tmpbuff s (.realloc ptr size answer)) : ptr = 0 ∨ ptr ∈ s.owned := by
  cases answer with
  | block nptr => exact he.1
  | failed => exact he
  | released => exact he

theorem Inv.step (htmp : 0 < tmpbuff) {s t : State} {e : Event} (hs : Inv tmpbuff s) (he : e.IsPossible tmpbuff s)
    (hsafe : e.IsSafe tmpbuff s) (h : s.step tmpbuff e = some t) : Inv tmpbuff t := by
  have hapart := Inv.of_step_log tmpbuff htmp hs he hsafe h
  have hrun := run_of_step tmpbuff h
  cases e with
  | malloc size answer =>
    rw [Event.exec, malloc_run] at hrun
    split_ifs at hrun with hm hi hfits <;> cases hrun
    · exact hs.pass tmpbuff hapart (by simp) (.inl (by simp)) (by simpa using hm)
    · exact hs.start tmpbuff (by simp)
    · exact hs.serve tmpbuff hapart hfits (by simp) (by simp) hi
  | calloc nmemb size answer =>
    rw [Event.exec, calloc_run] at hrun
    split_ifs at hrun with hm hc hi hfits <;> cases hrun
    · exact hs.pass tmpbuff hapart (by simp) (.inl (by simp)) (by simpa using hm)
    · exact hs.start tmpbuff (by simp)
    · exact hs.serve tmpbuff hapart hfits (by simp) (by simp) hi
  | realloc ptr size answer => exact hs.realloc tmpbuff (he.of_realloc tmpbuff) hapart hrun
  | free ptr =>
    rw [Event.exec, free_run] at hrun
    have hnil : s.init = none → s.myfnMalloc = false → s.owned.erase ptr = [] := by
      intro hi hm
      rw [hs.owned_nil hi hm, List.erase_nil]
    split_ifs at hrun <;> cases hrun
    all_goals exact hs.advance tmpbuff hapart hs.tmppos_lt (.inl rfl) hnil
  | dlsym found =>
    obtain ⟨⟨call, i⟩, hi, -⟩ := he
    obtain ⟨u, j, hrun', -, hpos, -, hj⟩ := dlsym_run found hi
    obtain rfl : u = t := by
      rw [Event.exec, hrun'] at hrun
      cases hrun
      rfl
    refine ⟨hpos ▸ hs.tmppos_lt, fun ptr size k hk => ?_, fun hnone => ?_, hapart⟩
    · rw [hj] at hk
      cases hk
      exact hs.pending_null ptr size i hi
    · simp [hj] at hnone
  | initReturns answer =>
    obtain ⟨⟨⟨call, i⟩, hi, -⟩, -⟩ := he
    rw [Event.exec, initReturns_run tmpbuff hs hi] at hrun
    split_ifs at hrun with hk
    cases hrun
    exact hs.pass tmpbuff hapart (by simp) (.inr (by simp)) (by simpa using State.myfnMalloc_of_isKnown hk)

theorem inv_init : Inv tmpbuff {} where
  tmppos_lt := by decide
  pending_null ptr size i h := by cases h
  owned_nil _ _ := rfl
  apart call h := by cases h

/-- Along every sequence of events that a correct client and `dlsym` can cause, the real allocator gets no block of
    `tmpbuff` and gets back every block of its own, exactly when no event is one that the code tells apart wrongly. -/
theorem each_keepsApart_iff_isSafe (htmp : 0 < tmpbuff) (es : List Event)
    (hes : Each (State.step tmpbuff) (fun s e => e.IsPossible tmpbuff s) {} es) :
    Each (State.step tmpbuff) (fun s e => e.KeepsApart tmpbuff s) {} es ↔
      Each (State.step tmpbuff) (fun s e => e.IsSafe tmpbuff s) {} es :=
  each_iff_each (fun _ _ _ hs he hsafe hstep => Inv.step tmpbuff htmp hs he hsafe hstep)
    (fun _ _ hs he => keepsApart_iff_isSafe tmpbuff htmp hs he) (inv_init tmpbuff) hes

/-! ### Requests that do not wrap around -/

/-- `tmppos + size` is the sum. -/
def Event.NoWrap (s : State) : Event → Prop
  | .malloc size _ | .realloc _ size _ => s.tmppos.toNat + size.toNat < 2 ^ 64
  | .calloc nmemb size _ => s.tmppos.toNat + (nmemb * size).toNat < 2 ^ 64
  | .free _ | .dlsym _ | .initReturns _ => True

/-- `free` takes the client's blocks of `tmpbuff` for temporary memory. -/
def OwnedBelow (s : State) : Prop := ∀ ptr ∈ s.owned, InTmpbuff tmpbuff ptr → s.IsTemp tmpbuff ptr

theorem mem_gain {s : State} {p ptr : Addr} (h : ptr ∈ (s.gain p).owned) : ptr = p ∧ p ≠ 0 ∨ ptr ∈ s.owned := by
  unfold State.gain at h
  split_ifs at h with hp
  · exact .inr h
  · rcases List.mem_cons.mp h with rfl | h
    · exact .inl ⟨rfl, hp⟩
    · exact .inr h

theorem OwnedBelow.gain_real {s t : State} {p : Addr} (hs : OwnedBelow tmpbuff s) (hp : IsReal tmpbuff p)
    (hpos : t.tmppos = s.tmppos) (howned : ∀ ptr ∈ t.owned, ptr ∈ s.owned) : OwnedBelow tmpbuff (t.gain p) := by
  intro ptr hptr hin
  rcases mem_gain hptr with ⟨rfl, hne⟩ | hptr
  · exact absurd hin (hp hne)
  · have ht := hs ptr (howned ptr hptr) hin
    exact ⟨ht.1, by simpa [hpos] using ht.2⟩

theorem le_toNat_add {pos size : UInt64} (hwrap : pos.toNat + size.toNat < 2 ^ 64) : pos.toNat ≤ (pos + size).toNat := by
  rw [UInt64.toNat_add, Nat.mod_eq_of_lt hwrap]
  exact Nat.le_add_right _ _

theorem OwnedBelow.gain_tmp {s t : State} {size : UInt64} (hs : OwnedBelow tmpbuff s)
    (hwrap : s.tmppos.toNat + size.toNat < 2 ^ 64) (hpos : t.tmppos = s.tmppos + size)
    (howned : ∀ ptr ∈ t.owned, ptr ∈ s.owned) : OwnedBelow tmpbuff (t.gain (tmpbuff + s.tmppos.toNat)) := by
  have hle : s.tmppos.toNat ≤ t.tmppos.toNat := hpos ▸ le_toNat_add hwrap
  intro ptr hptr hin
  rw [State.IsTemp, gain_tmppos]
  rcases mem_gain hptr with ⟨rfl, -⟩ | hptr
  · exact ⟨Nat.le_add_right _ _, Nat.add_le_add_left hle _⟩
  · have ht := hs ptr (howned ptr hptr) hin
    exact ⟨ht.1, ht.2.trans (Nat.add_le_add_left hle _)⟩

theorem OwnedBelow.sub {s t : State} (hs : OwnedBelow tmpbuff s) (hpos : t.tmppos = s.tmppos)
    (howned : ∀ ptr ∈ t.owned, ptr ∈ s.owned) : OwnedBelow tmpbuff t := by
  intro ptr hptr hin
  have ht := hs ptr (howned ptr hptr) hin
  exact ⟨ht.1, hpos ▸ ht.2⟩

theorem OwnedBelow.realloc {s t : State} {ptr : Addr} {size : UInt64} {answer : ReallocAnswer}
    (hs : OwnedBelow tmpbuff s) (he : Event.IsPossible tmpbuff s (.realloc ptr size answer))
    (hwrap : s.tmppos.toNat + size.toNat < 2 ^ 64) (hrun : (realloc tmpbuff ptr size answer).run s = .ok () t) :
    OwnedBelow tmpbuff t := by
  have herase : ∀ p ∈ s.owned.erase ptr, p ∈ s.owned := fun p => List.mem_of_mem_erase
  rw [realloc_run] at hrun
  split_ifs at hrun with hm hr hi hfits
  · cases hrun
    cases answer with
    | block nptr => exact hs.gain_real tmpbuff he.2 rfl herase
    | failed => exact hs.sub tmpbuff rfl fun _ h => h
    | released => exact hs.sub tmpbuff rfl herase
  · cases hrun
    exact hs.sub tmpbuff rfl fun _ h => h
  · rw [moveBlock_run] at hrun
    split_ifs at hrun <;> cases hrun
    · exact hs.gain_tmp tmpbuff hwrap rfl herase
    · exact hs.gain_tmp tmpbuff hwrap rfl herase
    · exact hs.gain_tmp tmpbuff hwrap rfl fun _ h => h

theorem OwnedBelow.step {s t : State} {e : Event} (hinv : Inv tmpbuff s) (hs : OwnedBelow tmpbuff s)
    (he : e.IsPossible tmpbuff s) (hwrap : e.NoWrap s) (h : s.step tmpbuff e = some t) : OwnedBelow tmpbuff t := by
  have hrun := run_of_step tmpbuff h
  cases e with
  | malloc size answer =>
    rw [Event.exec, malloc_run] at hrun
    split_ifs at hrun <;> cases hrun
    · exact hs.gain_real tmpbuff he rfl fun _ h => h
    · exact hs.sub tmpbuff rfl fun _ h => h
    · exact hs.gain_tmp tmpbuff hwrap rfl fun _ h => h
  | calloc nmemb size answer =>
    rw [Event.exec, calloc_run] at hrun
    split_ifs at hrun <;> cases hrun
    · exact hs.gain_real tmpbuff he rfl fun _ h => h
    · exact hs.sub tmpbuff rfl fun _ h => h
    · exact hs.gain_tmp tmpbuff hwrap rfl fun _ h => h
  | realloc ptr size answer => exact hs.realloc tmpbuff he hwrap hrun
  | free ptr =>
    rw [Event.exec, free_run] at hrun
    split_ifs at hrun <;> cases hrun
    all_goals exact hs.sub tmpbuff rfl fun p => List.mem_of_mem_erase
  | dlsym found =>
    obtain ⟨⟨call, i⟩, hi, -⟩ := he
    obtain ⟨u, j, hrun', -, hpos, howned, -⟩ := dlsym_run found hi
    rw [Event.exec, hrun'] at hrun
    cases hrun
    exact hs.sub tmpbuff hpos fun p hp => howned ▸ hp
  | initReturns answer =>
    obtain ⟨⟨⟨call, i⟩, hi, -⟩, hreal⟩ := he
    rw [Event.exec, initReturns_run tmpbuff hinv hi] at hrun
    split_ifs at hrun
    cases hrun
    exact hs.gain_real tmpbuff hreal rfl fun _ h => h

/-- The condition that is left when no request wraps around: no block of `tmpbuff` is reallocated once `myfn_malloc` and
    `myfn_realloc` are known, and no block of the real allocator is freed before `myfn_free` is. -/
def Event.IsApart (s : State) : Event → Prop
  | .free ptr => ptr ≠ 0 → ¬InTmpbuff tmpbuff ptr → s.myfnFree = true
  | .realloc ptr _ _ => s.myfnMalloc = true → s.myfnRealloc = true → ¬InTmpbuff tmpbuff ptr
  | .malloc _ _ | .calloc _ _ _ | .dlsym _ | .initReturns _ => True

theorem isSafe_iff_isApart {s : State} {e : Event} (htmp : 0 < tmpbuff) (hs : OwnedBelow tmpbuff s)
    (he : e.IsPossible tmpbuff s) (hwrap : e.NoWrap s) : e.IsSafe tmpbuff s ↔ e.IsApart tmpbuff s := by
  have htemp : ∀ ptr, ptr = 0 ∨ ptr ∈ s.owned → InTmpbuff tmpbuff ptr → s.IsTemp tmpbuff ptr := by
    rintro ptr (rfl | hptr) hin
    · exact absurd hin (not_inTmpbuff_zero tmpbuff htmp)
    · exact hs ptr hptr hin
  cases e with
  | free ptr => exact ⟨fun h => h.2, fun h => ⟨fun hin _ => htemp ptr he hin, h⟩⟩
  | realloc ptr size answer =>
    have htake : InTmpbuff tmpbuff ptr → (s.take size).IsTemp tmpbuff ptr := by
      intro hin
      have ht := htemp ptr (he.of_realloc tmpbuff) hin
      exact ⟨ht.1, ht.2.trans (Nat.add_le_add_left (le_toNat_add hwrap) _)⟩
    simp only [Event.IsSafe, Event.IsApart]
    cases s.myfnMalloc with
    | true => simp
    | false => simpa using fun _ _ hin _ => htake hin
  | malloc size answer => exact Iff.rfl
  | calloc nmemb size answer => exact Iff.rfl
  | dlsym found => exact Iff.rfl
  | initReturns answer => exact Iff.rfl

/-- Without requests that wrap around, the test of `free` is right whatever the client has. -/
theorem each_keepsApart_iff_isApart (htmp : 0 < tmpbuff) (es : List Event)
    (hes : Each (State.step tmpbuff) (fun s e => e.IsPossible tmpbuff s ∧ e.NoWrap s) {} es) :
    Each (State.step tmpbuff) (fun s e => e.KeepsApart tmpbuff s) {} es ↔
      Each (State.step tmpbuff) (fun s e => e.IsApart tmpbuff s) {} es := by
  refine each_iff_each (I := fun s => Inv tmpbuff s ∧ OwnedBelow tmpbuff s) ?_ ?_ ⟨inv_init tmpbuff, ?_⟩ hes
  · rintro s e t ⟨hinv, hs⟩ ⟨he, hwrap⟩ hapart hstep
    have hsafe := (isSafe_iff_isApart tmpbuff htmp hs he hwrap).mpr hapart
    exact ⟨hinv.step tmpbuff htmp he hsafe hstep, hs.step tmpbuff hinv he hwrap hstep⟩
  · rintro s e ⟨hinv, hs⟩ ⟨he, hwrap⟩
    exact (keepsApart_iff_isSafe tmpbuff htmp hinv he).trans (isSafe_iff_isApart tmpbuff htmp hs he hwrap)
  · intro ptr hptr
    cases hptr

end

/-- `dlsym` asks for memory while it is called for the first time. -/
def firstCall : List Event :=
  [.malloc 100 0, .calloc 1 32 0, .dlsym true, .dlsym true, .dlsym true, .dlsym true, .dlsym true, .initReturns 9000]

theorem each_keepsApart_freed :
    Each (State.step 4096) (fun s e => e.IsSafe 4096 s) {} (firstCall ++ [Event.free 4096, Event.free 9000]) ∧
      Each (State.step 4096) (fun s e => e.KeepsApart 4096 s) {} (firstCall ++ [Event.free 4096, Event.free 9000]) :=
  have hsafe : Each (State.step 4096) (fun s e => e.IsSafe 4096 s) {} (firstCall ++ [Event.free 4096, Event.free 9000]) := by
    decide +kernel
  ⟨hsafe, (each_keepsApart_iff_isSafe 4096 (by decide) _ (by decide +kernel)).mpr hsafe⟩

/-- The block that `dlsym` has from `tmpbuff` is reallocated after `init()`. -/
theorem tmpbuff_reallocated :
    ¬∀ es, Each (State.step 4096) (fun s e => e.IsPossible 4096 s) {} es →
      Each (State.step 4096) (fun s e => e.KeepsApart 4096 s) {} es := by
  intro h
  have heach := h (firstCall ++ [Event.realloc 4096 64 (.block 10000)]) (by decide +kernel)
  have hkeeps := heach firstCall (.realloc 4096 64 (.block 10000)) []
    { tmppos := 32, tmpallocs := 1, myfnMalloc := true, myfnFree := true, myfnCalloc := true, myfnRealloc := true,
      myfnMemalign := true, owned := [9000, 4096], log := [.malloc 100] } rfl (by decide +kernel)
  exact hkeeps.1 (.realloc 4096 64) (by decide +kernel) (show InTmpbuff 4096 4096 by decide)

end MyMalloc
