/-!
# Write-behind cells

A value in memory over its copy on disk, and a flag that is up while the two may differ. A store
changes a value and raises the flag, writes the value out and lowers it, or writes only what
changed.

A cell is coherent when a lowered flag means that the value is on disk, which is what a restart
needs. Raising the flag and writing out keep it without a premise. The other two moves do not: a
write of the change needs a clean cell before it and the same effect on both sides
(`coherent_delta`), and a change that raises no flag needs one that is up already, or no effect
(`coherent_unflagged_iff`).
-/

namespace WriteBehind

structure Cell (α : Type) where
  memory : α
  disk : α
  dirty : Bool

namespace Cell

variable {α : Type} {cell : Cell α} {onDisk inMemory change : α → α}

/-- A lowered flag means that the value is on disk. -/
def Coherent (cell : Cell α) : Prop := cell.dirty = false → cell.disk = cell.memory

/-- A raised flag promises nothing. -/
theorem coherent_of_dirty (h : cell.dirty = true) : cell.Coherent :=
  fun clean => absurd (clean.symm.trans h) Bool.false_ne_true

/-- A cell that is on disk. -/
theorem coherent_of_eq (h : cell.disk = cell.memory) : cell.Coherent := fun _ => h

/-- The whole value is written out. -/
def flush (cell : Cell α) : Cell α := { cell with disk := cell.memory, dirty := false }

/-- A flushed cell is coherent. -/
theorem coherent_flush (cell : Cell α) : cell.flush.Coherent := coherent_of_eq rfl

/-- Only a change is written out, the same change is made in memory, and the flag is lowered. -/
def delta (onDisk inMemory : α → α) (cell : Cell α) : Cell α :=
  ⟨inMemory cell.memory, onDisk cell.disk, false⟩

/-- Writing the change keeps a clean cell coherent. -/
theorem coherent_delta (coherent : cell.Coherent) (clean : cell.dirty = false)
    (same : onDisk cell.memory = inMemory cell.memory) :
    (cell.delta onDisk inMemory).Coherent := by
  refine coherent_of_eq ?_
  change onDisk cell.disk = inMemory cell.memory
  rw [coherent clean, same]

/-- A change in memory that leaves the flag as it is. -/
def unflagged (change : α → α) (cell : Cell α) : Cell α :=
  { cell with memory := change cell.memory }

/-- **When an unflagged change is harmless.** -/
theorem coherent_unflagged_iff (coherent : cell.Coherent) :
    (cell.unflagged change).Coherent ↔ cell.dirty = true ∨ change cell.memory = cell.memory := by
  constructor
  · intro after
    cases hdirty : cell.dirty with
    | true => exact .inl rfl
    | false => exact .inr ((after hdirty).symm.trans (coherent hdirty))
  · rintro (hdirty | hsame)
    · exact coherent_of_dirty hdirty
    · exact fun clean => (coherent clean).trans hsame.symm

end Cell

end WriteBehind
