import Mathlib

/-! # Exclusive holdings

Objects that are worked on by one party at a time, whoever that is: a list of holdings, each a key with what its
holder knows of the object. No key is held twice, so a step that changes the object of one holding does not disturb
what the other holders know. -/

namespace Holdings

variable {κ ν : Type} {knows knows' : κ → ν → Prop} {l l' rest : List (κ × ν)} {k : κ} {v v' : ν}

/-- No key is held twice, and what the holders know is true. -/
structure Exclusive (knows : κ → ν → Prop) (l : List (κ × ν)) : Prop where
  nodup : (l.map Prod.fst).Nodup
  knows : ∀ x ∈ l, knows x.1 x.2

namespace Exclusive

theorem perm (h : Exclusive knows l) (hl : l.Perm l') : Exclusive knows l' where
  nodup := (hl.map Prod.fst).nodup_iff.mp h.nodup
  knows x hx := h.knows x (hl.mem_iff.mpr hx)

/-- A step that leaves all objects alone. -/
theorem mono (h : Exclusive knows l) (hmono : ∀ k v, knows k v → knows' k v) : Exclusive knows' l where
  nodup := h.nodup
  knows x hx := hmono _ _ (h.knows x hx)

theorem not_mem_rest (h : Exclusive knows ((k, v) :: rest)) {x : κ × ν} (hx : x ∈ rest) : x.1 ≠ k := by
  intro hk
  exact (List.nodup_cons.mp h.nodup).1 (List.mem_map.mpr ⟨x, hx, hk⟩)

/-- A holder changes its object. -/
theorem replace (h : Exclusive knows ((k, v) :: rest)) (hother : ∀ k' v', k' ≠ k → knows k' v' → knows' k' v')
    (hnew : knows' k v') : Exclusive knows' ((k, v') :: rest) where
  nodup := h.nodup
  knows x hx := by
    rcases List.mem_cons.mp hx with rfl | hx
    · exact hnew
    · exact hother _ _ (h.not_mem_rest hx) (h.knows x (List.mem_cons_of_mem _ hx))

/-- A holder lets go of its object. -/
theorem release (h : Exclusive knows ((k, v) :: rest)) (hother : ∀ k' v', k' ≠ k → knows k' v' → knows' k' v') :
    Exclusive knows' rest where
  nodup := (List.nodup_cons.mp h.nodup).2
  knows x hx := hother _ _ (h.not_mem_rest hx) (h.knows x (List.mem_cons_of_mem _ hx))

/-- A new object gets a holder. -/
theorem acquire (h : Exclusive knows l) (hk : ∀ v, ¬knows k v) (hmono : ∀ k v, knows k v → knows' k v)
    (hnew : knows' k v) : Exclusive knows' ((k, v) :: l) where
  nodup := by
    refine List.nodup_cons.mpr ⟨fun hmem => ?_, h.nodup⟩
    obtain ⟨x, hx, rfl⟩ := List.mem_map.mp hmem
    exact hk x.2 (h.knows x hx)
  knows x hx := by
    rcases List.mem_cons.mp hx with rfl | hx
    · exact hnew
    · exact hmono _ _ (h.knows x hx)

theorem count_le_one [DecidableEq κ] (h : Exclusive knows l) (k : κ) : (l.map Prod.fst).count k ≤ 1 :=
  List.nodup_iff_count_le_one.mp h.nodup k

end Exclusive

end Holdings
