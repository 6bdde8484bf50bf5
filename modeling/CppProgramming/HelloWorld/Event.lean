import CppProgramming.Lib.Interleaving

/-! # Events and event handlers

A token of a completion queue carries the key of an event handler and the operation that it was posted with.
`EventHandlerManager` gives out the keys. -/

namespace HelloWorld

/-- `event_key_t`. -/
abbrev EventKey := BitVec 32

/-- `event_opt_t`. -/
abbrev EventOpt := BitVec 32

/-- `Event`: the two halves of a token, the key in the lower one. -/
structure Event where
  key : EventKey
  opt : EventOpt
  deriving DecidableEq, Repr

namespace Event

/-- `Event(void* p)`. -/
def ofToken (token : BitVec 64) : Event := ⟨token.setWidth 32, (token >>> 32).setWidth 32⟩

/-- `Event(event_key_t key)`. It leaves `opt` open; every user sets it before the token is taken. -/
def ofKey (key : EventKey) : Event := ⟨key, 0⟩

/-- `getToken`. -/
def getToken (e : Event) : BitVec 64 := e.opt ++ e.key

/-- `getKey`. -/
def getKey (e : Event) : EventKey := e.key

/-- `getOpt`. -/
def getOpt (e : Event) : EventOpt := e.opt

/-- `setOpt`. -/
def setOpt (e : Event) (opt : EventOpt) : Event := { e with opt }

/-- A token gives back the key and the operation. -/
theorem ofToken_getToken (e : Event) : ofToken e.getToken = e := by
  obtain ⟨key, opt⟩ := e
  simp only [ofToken, getToken, Event.mk.injEq]
  constructor
  · exact BitVec.setWidth_append_eq_right
  · ext i hi
    have happend := BitVec.getLsbD_append (x := opt) (y := key) (i := 32 + i)
    simp only [BitVec.getElem_setWidth, BitVec.getLsbD_ushiftRight]
    refine happend.trans ?_
    simp [BitVec.getLsbD_eq_getElem hi]

end Event

/-- `EventHandlerManager` for handlers of the type `α`; `handlers` is the `std::unordered_map`. Each of its functions
    holds the mutex. -/
structure EventHandlerManager (α : Type) where
  handlers : List (EventKey × α) := []
  lastKey : EventKey := 0

namespace EventHandlerManager
variable {α : Type}

/-- `contains`. -/
def contains (m : EventHandlerManager α) (key : EventKey) : Bool := (m.handlers.lookup key).isSome

/-- `get`, where `none` is the exception. -/
def get (m : EventHandlerManager α) (key : EventKey) : Option α := m.handlers.lookup key

/-- `count`. -/
def count (m : EventHandlerManager α) : Nat := m.handlers.length

/-- `remove`. -/
def remove (m : EventHandlerManager α) (key : EventKey) : EventHandlerManager α :=
  { m with handlers := m.handlers.filter fun entry => entry.1 != key }

/-- `clear`. -/
def clear (m : EventHandlerManager α) : EventHandlerManager α := { m with handlers := [] }

/-- The loop of `add`: the first free key behind `key`, if one of the next `n` is free. -/
def freeKey (m : EventHandlerManager α) : Nat → EventKey → Option EventKey
  | 0, _ => none
  | n + 1, key => if m.contains (key + 1) then m.freeKey n (key + 1) else some (key + 1)

/-- `add`, where `none` is the exception: the loop is back at its first key after `2 ^ 32` rounds. -/
def add (m : EventHandlerManager α) (handler : α) : Option (EventKey × EventHandlerManager α) :=
  (m.freeKey (2 ^ 32) m.lastKey).map fun key => (key, { handlers := (key, handler) :: m.handlers, lastKey := key })

variable {m m' : EventHandlerManager α} {key key' : EventKey} {handler : α}

theorem freeKey_free {n : Nat} (h : m.freeKey n key = some key') : m.contains key' = false := by
  induction n generalizing key with
  | zero => cases h
  | succ n ih =>
    rw [freeKey] at h
    split at h
    · exact ih h
    · next hfree =>
      cases h
      exact Bool.eq_false_of_not_eq_true hfree

theorem get_of_contains_false (h : m.contains key = false) : m.get key = none := by
  rw [contains, Option.isSome_eq_false_iff, Option.isNone_iff_eq_none] at h
  exact h

/-- The new key was free, and the other ones keep their handlers. -/
theorem add_cases (h : m.add handler = some (key, m')) :
    m.get key = none ∧ m'.get key = some handler ∧ ∀ key', key' ≠ key → m'.get key' = m.get key' := by
  obtain ⟨k, hfree, heq⟩ := Option.map_eq_some_iff.mp h
  cases heq
  refine ⟨get_of_contains_false (freeKey_free hfree), by simp [get], ?_⟩
  intro key' hne
  simp [get, List.lookup_cons, beq_false_of_ne hne]

theorem get_remove_self : (m.remove key).get key = none := by
  rw [get, List.lookup_eq_none_iff]
  intro entry hentry
  obtain ⟨-, hne⟩ := List.mem_filter.mp hentry
  rw [bne_comm]
  exact hne

theorem get_remove_of_ne (h : key' ≠ key) : (m.remove key).get key' = m.get key' := by
  unfold get remove
  induction m.handlers with
  | nil => rfl
  | cons entry rest ih =>
    obtain ⟨k, a⟩ := entry
    by_cases hk : k = key
    · subst hk
      simpa [List.lookup_cons, beq_false_of_ne h] using ih
    · by_cases hk' : key' = k
      · subst hk'
        simp [hk]
      · simpa [List.lookup_cons, hk, beq_false_of_ne hk'] using ih

theorem get_of_count_zero (h : m.count = 0) : m.get key = none := by
  rw [count, List.length_eq_zero_iff] at h
  rw [get, h]
  rfl

end EventHandlerManager
end HelloWorld
