import CppProgramming.Lib.CyclicOrder
import CppProgramming.HelloWorld.Event

/-! # Allocation of keys

`EventHandlerManager::add` increments `lastKey` until it finds a key that is not in use, and gives up when it is back
at the key that it began with. -/

namespace HelloWorld.EventHandlerManager
open CyclicOrder

variable {α : Type}

/-- The `while` of `add`, for at most `n` evaluations of its condition: `lastKey` when the loop is left, by the
    exception (`.error`) or because the key is free (`.ok`); `none` while it still runs. -/
def search (m : EventHandlerManager α) (old : EventKey) : Nat → EventKey → Option (Except EventKey EventKey)
  | 0, _ => none
  | n + 1, lastKey =>
    if m.contains (lastKey + 1) then
      if lastKey + 1 = old then some (.error (lastKey + 1)) else m.search old n (lastKey + 1)
    else some (.ok (lastKey + 1))

/-- `add` with at most `n` evaluations of the loop's condition: the event that it returns, or `none` for the exception,
    and the manager that it leaves behind. -/
def addIn (m : EventHandlerManager α) (handler : α) (n : Nat) : Option (Option Event × EventHandlerManager α) :=
  (m.search m.lastKey n m.lastKey).map fun
    | .error lastKey => (none, { m with lastKey := lastKey })
    | .ok lastKey => (some (Event.ofKey lastKey), { handlers := (lastKey, handler) :: m.handlers, lastKey := lastKey })

variable {m : EventHandlerManager α} {old key key' : EventKey} {handler : α} {i n : Nat}

/-- `key` is not in use, and every key that comes before it on the way up from `old` is. -/
structure FirstFree (m : EventHandlerManager α) (old key : EventKey) : Prop where
  free : m.contains key = false
  first : ∀ key', distance old key' < distance old key → m.contains key' = true

/-- How the loop ends, with `old` for `lastKey` at its begin. -/
inductive Found (m : EventHandlerManager α) (old : EventKey) : Except EventKey EventKey → Prop where
  | free {key : EventKey} : m.FirstFree old key → Found m old (.ok key)
  | full : (∀ key, m.contains key = true) → Found m old (.error old)

/-- After `i` rounds all keys at a distance below `i` are in use, and `n` more rounds are enough to come full circle. -/
theorem search_found (hi : i < 2 ^ 32) (hn : 2 ^ 32 ≤ i + n)
    (hused : ∀ key, distance old key < i → m.contains key = true) :
    ∃ r, m.search old n (old + BitVec.ofNat 32 i) = some r ∧ m.Found old r := by
  induction n generalizing i with
  | zero => omega
  | succ n ih =>
    have hdist : distance old (old + BitVec.ofNat 32 i + 1) = i := distance_add hi
    rw [search]
    by_cases hc : m.contains (old + BitVec.ofNat 32 i + 1) = true
    · have hused' : ∀ key, distance old key < i + 1 → m.contains key = true := by
        intro key hkey
        rcases Nat.lt_succ_iff_lt_or_eq.mp hkey with hlt | heq
        · exact hused key hlt
        · rw [distance_inj (heq.trans hdist.symm)]
          exact hc
      rw [if_pos hc]
      by_cases hold : old + BitVec.ofNat 32 i + 1 = old
      · have hround := (add_eq_start hi).mp hold
        rw [if_pos hold, hold]
        exact ⟨_, rfl, .full fun key => hused' key (hround ▸ distance_lt)⟩
      · have hi' : i + 1 < 2 ^ 32 := by
          have hne := mt (add_eq_start hi).mpr hold
          omega
        have hnext : old + BitVec.ofNat 32 i + 1 = old + BitVec.ofNat 32 (i + 1) := by
          rw [BitVec.ofNat_add, BitVec.add_assoc]
          rfl
        rw [if_neg hold, hnext]
        exact ih hi' (by omega) hused'
    · rw [if_neg hc]
      refine ⟨_, rfl, .free ⟨Bool.eq_false_of_not_eq_true hc, ?_⟩⟩
      rw [hdist]
      exact hused

/-- The loop of `add` ends within `2 ^ 32` rounds. -/
theorem search_lastKey (hn : 2 ^ 32 ≤ n) : ∃ r, m.search old n old = some r ∧ m.Found old r := by
  have hstart : old + BitVec.ofNat 32 0 = old := BitVec.add_zero old
  rw [← Nat.zero_add n] at hn
  have h := search_found (m := m) (Nat.two_pow_pos 32) hn fun key hkey => absurd hkey (Nat.not_lt_zero (distance old key))
  rwa [hstart] at h

theorem FirstFree.unique (h : m.FirstFree old key) (h' : m.FirstFree old key') : key = key' := by
  apply distance_inj (s := old)
  rcases Nat.lt_trichotomy (distance old key) (distance old key') with hlt | heq | hlt
  · exact absurd (h'.first key hlt) (by rw [h.free]; decide)
  · exact heq
  · exact absurd (h.first key' hlt) (by rw [h'.free]; decide)

theorem FirstFree.not_full (h : m.FirstFree old key) : ¬ ∀ key, m.contains key = true := by
  intro hall
  have hfree := h.free
  rw [hall] at hfree
  cases hfree

theorem Found.unique {r r' : Except EventKey EventKey} (h : m.Found old r) (h' : m.Found old r') : r = r' := by
  cases h with
  | free h =>
    cases h' with
    | free h' => rw [h.unique h']
    | full hall => exact absurd hall h.not_full
  | full hall =>
    cases h' with
    | free h' => exact absurd hall h'.not_full
    | full => rfl

/-- The events that `add` returns and the manager that it leaves behind, for a manager with the keys and the `lastKey`
    of `m`. -/
structure Allocated (m : EventHandlerManager α) (handler : α) (event : Event) (m' : EventHandlerManager α) : Prop where
  firstFree : m.FirstFree m.lastKey event.getKey
  mapped : m'.get event.getKey = some handler
  others : ∀ key, key ≠ event.getKey → m'.get key = m.get key
  lastKey : m'.lastKey = event.getKey

theorem allocated_of_firstFree (h : m.FirstFree m.lastKey key) :
    m.Allocated handler (Event.ofKey key) { handlers := (key, handler) :: m.handlers, lastKey := key } where
  firstFree := h
  mapped := by simp [get, Event.ofKey, Event.getKey]
  others key' hne := by
    have hbeq : (key' == key) = false := beq_false_of_ne hne
    simp [get, List.lookup_cons, hbeq]
  lastKey := rfl

/-- `add` ends for every manager and handler. It returns the first key behind `lastKey` that is free, with nothing else
    changed, or there is none and the manager is as it was. -/
theorem add_allocates (m : EventHandlerManager α) (handler : α) :
    ∃ result m', (∀ n, 2 ^ 32 ≤ n → m.addIn handler n = some (result, m')) ∧
      ((∃ key, m.contains key = false) → ∃ event, result = some event ∧ m.Allocated handler event m') ∧
      (result = none ↔ ∀ key, m.contains key = true) ∧
      (result = none → m' = m) := by
  obtain ⟨r, -, hfound⟩ := search_lastKey (m := m) (le_refl (2 ^ 32))
  have hrun : ∀ n, 2 ^ 32 ≤ n → m.search m.lastKey n m.lastKey = some r := by
    intro n hn
    obtain ⟨r', hr', hfound'⟩ := search_lastKey hn
    rw [hr', hfound'.unique hfound]
  cases hfound with
  | free hfirst =>
    refine ⟨_, _, fun n hn => by rw [addIn, hrun n hn, Option.map_some], ?_, ?_, fun hnone => by cases hnone⟩
    · exact fun _ => ⟨_, rfl, allocated_of_firstFree hfirst⟩
    · constructor
      · intro hnone
        cases hnone
      · exact fun hall => absurd hall hfirst.not_full
  | full hall =>
    refine ⟨_, _, fun n hn => by rw [addIn, hrun n hn, Option.map_some], ?_, ⟨fun _ => hall, fun _ => rfl⟩, fun _ => rfl⟩
    rintro ⟨key, hfree⟩
    rw [hall] at hfree
    cases hfree

theorem freeKey_of_search (h : m.search old n key = some (.ok key')) : m.freeKey n key = some key' := by
  induction n generalizing key with
  | zero => cases h
  | succ n ih =>
    rw [search] at h
    rw [freeKey]
    split at h
    · next hused =>
      rw [if_pos hused]
      split at h
      · cases h
      · exact ih h
    · next hfree =>
      cases h
      rw [if_neg hfree]

/-- `add` as the handlers' models have it. -/
theorem add_eq_addIn : m.addIn handler (2 ^ 32) =
    some ((m.add handler).elim (none, m) fun entry => (some (Event.ofKey entry.1), entry.2)) := by
  obtain ⟨r, hr, hfound⟩ := search_lastKey (m := m) (le_refl (2 ^ 32))
  rw [addIn, add, hr]
  cases hfound with
  | free _ => rw [freeKey_of_search hr]; rfl
  | full hall =>
    cases hkey : m.freeKey (2 ^ 32) m.lastKey with
    | none => rfl
    | some key =>
      have hfree := freeKey_free hkey
      rw [hall] at hfree
      cases hfree

end HelloWorld.EventHandlerManager
