import Mathlib.Data.List.Basic
import Mathlib.Data.List.Pairwise

/-!
# Rings of cells

A fixed number of cells, each empty or with one entry. An entry goes to the cell that `cellOf` gives
it and replaces what was there. Entries with cells of their own are all still there after the last
one is in, beside what sat in cells that none of them went to (`getElem_putAll`).
-/

namespace Rings

variable {α : Type} {n : Nat} (cellOf : α → Fin n)

def put (ring : Vector (Option α) n) (a : α) : Vector (Option α) n :=
  ring.set (cellOf a) (some a) (cellOf a).isLt

def putAll (ring : Vector (Option α) n) (entries : List α) : Vector (Option α) n :=
  entries.foldl (put cellOf) ring

variable {cellOf} {ring : Vector (Option α) n} {a : α} {entries : List α}

/-- A put writes one cell. -/
theorem getElem_put (i : Fin n) :
    (put cellOf ring a)[i] = if cellOf a = i then some a else ring[i] := by
  show (ring.set (cellOf a) (some a) (cellOf a).isLt)[i.val] = _
  rw [Vector.getElem_set]
  exact if_congr Fin.val_inj rfl rfl

/-- What a cell has after entries with cells of their own: the one that went there, or else what it
had before. -/
theorem getElem_putAll (apart : entries.Pairwise fun e f => cellOf e ≠ cellOf f) (i : Fin n) :
    (putAll cellOf ring entries)[i] = some a ↔
      a ∈ entries ∧ cellOf a = i ∨ ring[i] = some a ∧ ∀ e ∈ entries, cellOf e ≠ i := by
  induction entries generalizing ring with
  | nil => simp [putAll]
  | cons first rest ih =>
    obtain ⟨hfirst, hrest⟩ := List.pairwise_cons.mp apart
    show (putAll cellOf (put cellOf ring first) rest)[i] = some a ↔ _
    rw [ih hrest, getElem_put]
    by_cases hcell : cellOf first = i
    · -- no later entry goes to the cell of the first
      have hothers : ∀ e ∈ rest, cellOf e ≠ i := fun e he h => hfirst e he (hcell.trans h.symm)
      rw [if_pos hcell, Option.some_inj, List.mem_cons]
      constructor
      · rintro (⟨hmem, hat⟩ | ⟨rfl, -⟩)
        · exact absurd hat (hothers a hmem)
        · exact .inl ⟨.inl rfl, hcell⟩
      · rintro (⟨rfl | hmem, hat⟩ | ⟨-, hnone⟩)
        · exact .inr ⟨rfl, hothers⟩
        · exact absurd hat (hothers a hmem)
        · exact absurd hcell (hnone first List.mem_cons_self)
    · rw [if_neg hcell, List.mem_cons, List.forall_mem_cons]
      constructor
      · rintro (⟨hmem, hat⟩ | ⟨hheld, hnone⟩)
        · exact .inl ⟨.inr hmem, hat⟩
        · exact .inr ⟨hheld, hcell, hnone⟩
      · rintro (⟨rfl | hmem, hat⟩ | ⟨hheld, -, hnone⟩)
        · exact absurd hat hcell
        · exact .inl ⟨hmem, hat⟩
        · exact .inr ⟨hheld, hnone⟩

end Rings
