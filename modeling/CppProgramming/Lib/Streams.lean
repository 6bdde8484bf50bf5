import Mathlib

/-! # Parties joined by streams

Parties that talk over reliable streams, one from each party to each other one. What a party puts into a stream comes
out in order, in pieces of any size and at any later time, and a party may be told that a stream has ended when the
other side puts nothing into it any more and all of it has come out. A step is one party's, with what arrives at it.
What a party has put into a stream and what it has taken from one is read off its own state (`sent` and `got`), so the
parties are programs as they are, and what holds between two of them follows from what each of them does by itself
(`Lawful`). -/

namespace Streams

variable {ι α : Type} {σ : ι → Type}

/-- What the parties do. A step of the party `i` is given what arrives from each party, and from which ones it is told
    that the stream has ended. -/
structure Protocol (ι α : Type) (σ : ι → Type) where
  step : ∀ i, σ i → (ι → List α) → (ι → Bool) → σ i → Prop
  sent : ∀ i, σ i → ι → List α
  got : ∀ i, σ i → ι → List α
  shut : ∀ i, σ i → ι → Bool
  ended : ∀ i, σ i → ι → Bool

/-- A party takes all that arrives, does not take back what it has put into a stream, puts nothing into a stream that
    it has shut, and believes a stream to have ended only when it is told so. -/
structure Protocol.Lawful (P : Protocol ι α σ) : Prop where
  sent : ∀ {i s d e s'}, P.step i s d e s' → ∀ j, P.sent i s j <+: P.sent i s' j
  got : ∀ {i s d e s'}, P.step i s d e s' → ∀ j, P.got i s' j = P.got i s j ++ d j
  shut : ∀ {i s d e s'}, P.step i s d e s' → ∀ j, P.shut i s j = true →
    P.shut i s' j = true ∧ P.sent i s' j = P.sent i s j
  ended : ∀ {i s d e s'}, P.step i s d e s' → ∀ j, P.ended i s' j = true → P.ended i s j = true ∨ e j = true

/-- The parties, and what is on its way from one to another. -/
structure Net (ι α : Type) (σ : ι → Type) where
  party : ∀ i, σ i
  link : ι → ι → List α

/-- The streams after a step of the party `i`: what arrives at `i` leaves them, and what it has sent comes in. -/
def Protocol.links [DecidableEq ι] (P : Protocol ι α σ) (n : Net ι α σ) (i : ι) (d : ι → List α) (s' : σ i) (j k : ι) :
    List α :=
  (if k = i then (n.link j k).drop (d j).length else n.link j k) ++
    if j = i then (P.sent i s' k).drop (P.sent i (n.party i) k).length else []

/-- The states that the parties reach from `start`, when nothing is on its way. -/
inductive Protocol.Reach [DecidableEq ι] (P : Protocol ι α σ) (start : ∀ i, σ i) : Net ι α σ → Prop
  | start : Reach P start ⟨start, fun _ _ => []⟩
  | step {n : Net ι α σ} {i : ι} {d : ι → List α} {e : ι → Bool} {s' : σ i} : Reach P start n →
      P.step i (n.party i) d e s' → (∀ j, d j <+: n.link j i) →
      (∀ j, e j = true → P.shut j (n.party j) i = true ∧ d j = n.link j i) →
      Reach P start ⟨Function.update n.party i s', P.links n i d s'⟩

/-- A step of one of the parties. -/
inductive Protocol.Goes [DecidableEq ι] (P : Protocol ι α σ) : Net ι α σ → Net ι α σ → Prop
  | step {n : Net ι α σ} {i : ι} {d : ι → List α} {e : ι → Bool} {s' : σ i} : P.step i (n.party i) d e s' →
      (∀ j, d j <+: n.link j i) → (∀ j, e j = true → P.shut j (n.party j) i = true ∧ d j = n.link j i) →
      Goes P n ⟨Function.update n.party i s', P.links n i d s'⟩

/-- Nothing is lost, nothing comes twice and nothing changes places; who has been told that a stream has ended has got
    all of it. -/
structure Protocol.Faithful (P : Protocol ι α σ) (n : Net ι α σ) : Prop where
  conserved : ∀ j i, P.got i (n.party i) j ++ n.link j i = P.sent j (n.party j) i
  ended : ∀ j i, P.ended i (n.party i) j = true →
    P.shut j (n.party j) i = true ∧ P.got i (n.party i) j = P.sent j (n.party j) i

namespace Protocol
variable [DecidableEq ι] {P : Protocol ι α σ} {start : ∀ i, σ i} {n : Net ι α σ} {i j k : ι} {d : ι → List α}
  {e : ι → Bool} {s' : σ i}

theorem Reach.goes {n' : Net ι α σ} (h : P.Reach start n) (hgo : P.Goes n n') : P.Reach start n' := by
  cases hgo with
  | step hs hd he => exact .step h hs hd he

/-- What the receiver of a stream has got and what is on its way, after a step of any party. -/
theorem Faithful.conserved_step (hP : P.Lawful) (h : P.Faithful n) (hs : P.step i (n.party i) d e s')
    (hd : ∀ j, d j <+: n.link j i) (j k : ι) : P.got k (Function.update n.party i s' k) j ++ P.links n i d s' j k =
      P.sent j (Function.update n.party i s' j) k := by
  have hold := h.conserved j k
  -- The end of the receiver: what has arrived goes over from the stream to it.
  have hleft : P.got k (Function.update n.party i s' k) j ++
      (if k = i then (n.link j k).drop (d j).length else n.link j k) = P.got k (n.party k) j ++ n.link j k := by
    by_cases hk : k = i
    · subst hk
      obtain ⟨rest, hrest⟩ := hd j
      rw [Function.update_self, hP.got hs j, if_pos rfl, ← hrest, List.drop_left, List.append_assoc]
    · rw [Function.update_of_ne hk, if_neg hk]
  rw [links, ← List.append_assoc, hleft, hold]
  by_cases hj : j = i
  · subst hj
    obtain ⟨more, hmore⟩ := hP.sent hs k
    rw [Function.update_self, if_pos rfl, ← hmore, List.drop_left]
  · rw [Function.update_of_ne hj, if_neg hj, List.append_nil]

/-- When a stream has been shut, a step leaves what was sent over it as it is. -/
theorem shut_step (hP : P.Lawful) (hs : P.step i (n.party i) d e s') (h : P.shut j (n.party j) k = true) :
    P.shut j (Function.update n.party i s' j) k = true ∧
      P.sent j (Function.update n.party i s' j) k = P.sent j (n.party j) k := by
  by_cases hj : j = i
  · subst hj
    rw [Function.update_self]
    exact hP.shut hs k h
  · rw [Function.update_of_ne hj]
    exact ⟨h, rfl⟩

theorem Faithful.ended_step (hP : P.Lawful) (h : P.Faithful n) (hs : P.step i (n.party i) d e s')
    (hd : ∀ j, d j <+: n.link j i) (he : ∀ j, e j = true → P.shut j (n.party j) i = true ∧ d j = n.link j i) (j k : ι)
    (hended : P.ended k (Function.update n.party i s' k) j = true) :
    P.shut j (Function.update n.party i s' j) k = true ∧
      P.got k (Function.update n.party i s' k) j = P.sent j (Function.update n.party i s' j) k := by
  have hall : P.shut j (n.party j) k = true ∧
      P.got k (Function.update n.party i s' k) j = P.sent j (n.party j) k := by
    by_cases hk : k = i
    · subst hk
      rw [Function.update_self] at hended ⊢
      have hold := h.conserved j k
      rcases hP.ended hs j hended with hbefore | htold
      · -- The stream was empty already.
        obtain ⟨hshut, hgot⟩ := h.ended j k hbefore
        have hempty : n.link j k = [] := List.append_right_eq_self.mp (hold.trans hgot.symm)
        have hnone : d j = [] := List.prefix_nil.mp (hempty ▸ hd j)
        exact ⟨hshut, by rw [hP.got hs j, hnone, List.append_nil, hgot]⟩
      · obtain ⟨hshut, hlast⟩ := he j htold
        exact ⟨hshut, by rw [hP.got hs j, hlast, hold]⟩
    · rw [Function.update_of_ne hk] at hended ⊢
      exact h.ended j k hended
  obtain ⟨hshut, hsent⟩ := shut_step hP hs hall.1
  exact ⟨hshut, by rw [hsent, hall.2]⟩

/-- The streams are faithful in every state that the parties reach. -/
theorem Reach.faithful (hP : P.Lawful) (hsent : ∀ i j, P.sent i (start i) j = []) (hgot : ∀ i j, P.got i (start i) j = [])
    (hended : ∀ i j, P.ended i (start i) j = false) (h : P.Reach start n) : P.Faithful n := by
  induction h with
  | start =>
    refine ⟨fun j i => ?_, fun j i htold => ?_⟩
    · rw [hgot, hsent]
      rfl
    · cases (hended i j).symm.trans htold
  | step _ hs hd he ih => exact ⟨ih.conserved_step hP hs hd, ih.ended_step hP hs hd he⟩

/-- What the steps of the parties keep, where the streams are faithful, holds of every party in every state that is
    reached. -/
theorem Reach.party (hP : P.Lawful) (hsent : ∀ i j, P.sent i (start i) j = []) (hgot : ∀ i j, P.got i (start i) j = [])
    (hended : ∀ i j, P.ended i (start i) j = false) {I : ∀ i, σ i → Prop} (hstart : ∀ i, I i (start i))
    (hstep : ∀ (n : Net ι α σ) i d e s', P.Faithful n → (∀ j, I j (n.party j)) → (∀ j, d j <+: n.link j i) →
      P.step i (n.party i) d e s' → I i s') (h : P.Reach start n) (i : ι) : I i (n.party i) := by
  induction h generalizing i with
  | start => exact hstart i
  | @step n k d e s' hreach hs hd _ ih =>
    by_cases hi : i = k
    · subst hi
      show I i (Function.update n.party i s' i)
      rw [Function.update_self]
      exact hstep n i d e s' (hreach.faithful hP hsent hgot hended) ih hd hs
    · show I i (Function.update n.party k s' i)
      rw [Function.update_of_ne hi]
      exact ih i

end Protocol
end Streams
