import Peam.Laws.Timeline

/-!
# The history is the line of ancestors

The roots a state keeps are those of a line of headers, each naming the one before it by its root
(`Line`). A line is fixed by its last header as long as no two headers of it collide, so two chains
that agree on one entry agree on everything below it (`Line.agree_below`).
-/

namespace Peam

variable {ssz : Ssz}

/-- No two of these headers share a root. -/
def CollisionFree (ssz : Ssz) (headers : List BlockHeader) : Prop :=
  ∀ a ∈ headers, ∀ b ∈ headers, a.hashTreeRoot ssz = b.hashTreeRoot ssz → a = b
  deriving Decidable

/-- A history and the header on top of it. Headers are compared without their state root, which is
filled in only after they were staged. -/
inductive Line (ssz : Ssz) (genesis : BlockHeader) (headers : List BlockHeader) :
    List Bytes32 → BlockHeader → Prop
  | genesis : Line ssz genesis headers [] genesis.staged
  | next {roots} {parent header : BlockHeader} : Line ssz genesis headers roots parent.staged →
      parent ∈ headers → parent.slot < header.slot →
      header.parentRoot = parent.hashTreeRoot ssz →
      Line ssz genesis headers
        (roots ++ parent.hashTreeRoot ssz ::
          List.replicate (header.slot - parent.slot - 1) Bytes32.zero) header.staged

namespace Line

variable {genesis : BlockHeader} {headers : List BlockHeader} {roots roots' : List Bytes32}
  {last last' : BlockHeader}

/-- A line among more headers. -/
theorem mono {more : List BlockHeader} (h : headers ⊆ more)
    (line : Line ssz genesis headers roots last) : Line ssz genesis more roots last := by
  induction line with
  | genesis => exact .genesis
  | next _ hmem hslot hparent ih => exact .next ih (h hmem) hslot hparent

private theorem length_eq (hzero : genesis.slot = 0) (line : Line ssz genesis headers roots last) :
    roots.length = last.slot := by
  induction line with
  | genesis => exact hzero.symm
  | next _ hmem hslot hparent ih =>
    rw [BlockHeader.staged_slot] at ih
    simp only [List.length_append, List.length_cons, List.length_replicate, BlockHeader.staged_slot]
    omega

/-- A non-zero entry ends a shorter line of its own. -/
theorem entry (line : Line ssz genesis headers roots last) {slot : Nat}
    {root : Bytes32} (hget : roots[slot]? = some root) (hne : root ≠ Bytes32.zero) :
    ∃ header ∈ headers, header.hashTreeRoot ssz = root ∧
      Line ssz genesis headers (roots.take slot) header.staged := by
  induction line with
  | genesis => cases hget
  | @next roots parent header below hmem hslot hparent ih =>
    rw [List.getElem?_append] at hget
    split at hget
    · rename_i hlt
      rw [List.take_append_of_le_length (Nat.le_of_lt hlt)]
      exact ih hget
    · rename_i hge
      cases hidx : slot - roots.length with
      | zero =>
        rw [hidx, List.getElem?_cons_zero] at hget
        cases hget
        rw [List.take_append_of_le_length (by omega), List.take_of_length_le (by omega)]
        exact ⟨parent, hmem, rfl, below⟩
      | succ k =>
        rw [hidx, List.getElem?_cons_succ, List.getElem?_replicate] at hget
        split at hget
        · cases hget
          exact absurd rfl hne
        · cases hget

/-- **A line is fixed by its last header.** -/
theorem unique (hzero : genesis.slot = 0) (fix : CollisionFree ssz headers)
    (line : Line ssz genesis headers roots last) (line' : Line ssz genesis headers roots' last') :
    last = last' → roots = roots' := by
  induction line generalizing roots' last' with
  | genesis =>
    intro hlast
    have hslot := line'.length_eq hzero
    rw [← hlast, BlockHeader.staged_slot, hzero] at hslot
    exact (List.eq_nil_of_length_eq_zero hslot).symm
  | @next roots parent header below hmem hslot hparent ih =>
    intro hlast
    cases line' with
    | genesis =>
      have := congrArg BlockHeader.slot hlast
      simp only [BlockHeader.staged_slot] at this
      omega
    | @next roots' parent' header' below' hmem' hslot' hparent' =>
      have hslots : header.staged.slot = header'.staged.slot := by rw [hlast]
      have hparents : header.staged.parentRoot = header'.staged.parentRoot := by rw [hlast]
      simp only [BlockHeader.staged] at hslots hparents
      obtain rfl : parent = parent' := fix parent hmem parent' hmem' (by
        rw [← hparent, ← hparent', hparents])
      rw [ih below' rfl, hslots]

/-- **Lines with a common entry agree below it.** -/
theorem agree_below (hzero : genesis.slot = 0) (fix : CollisionFree ssz headers)
    (line : Line ssz genesis headers roots last) (line' : Line ssz genesis headers roots' last')
    {slot : Nat} {root : Bytes32} (hget : roots[slot]? = some root)
    (hget' : roots'[slot]? = some root) (hne : root ≠ Bytes32.zero) :
    roots.take slot = roots'.take slot := by
  obtain ⟨header, hmem, hroot, below⟩ := line.entry hget hne
  obtain ⟨header', hmem', hroot', below'⟩ := line'.entry hget' hne
  obtain rfl := fix header hmem header' hmem' (hroot.trans hroot'.symm)
  exact below.unique hzero fix below' rfl

end Line

/-- **Every chain keeps the line of its headers.** -/
theorem line_invariant (ssz : Ssz) (genesisTime : Nat)
    (validators : Validators)
    (Good : BlockHeader → Attestation → Prop) :
    Invariant ssz (generateGenesis ssz genesisTime validators) Good
      (fun h _ loop => Line ssz (generateGenesis ssz genesisTime validators).latestBlockHeader
        h.headers loop.state.historicalBlockHashes.items loop.state.latestBlockHeader.staged) where
  start := .genesis
  stage {h state header staged} line hstaged := by
    obtain ⟨stateRoot, hadvanced⟩ := processSlotLoop_eq ssz (header.slot - state.slot) state
    -- slot processing only fills in the parent's state root
    have hparent : (processSlotLoop ssz (header.slot - state.slot) state).latestBlockHeader.staged =
        state.latestBlockHeader.staged := by
      rw [hadvanced]
      rfl
    have hslot : (processSlotLoop ssz (header.slot - state.slot) state).latestBlockHeader.slot =
        state.latestBlockHeader.slot := by
      rw [hadvanced]
    have below := line.mono (List.subset_append_left _ (stageHistory ssz state header).headers)
    simp only [AttestationLoop.start, ← hparent] at below
    have hnext := Line.next below (by simp [stageHistory]) (hslot ▸ hstaged.header_lt)
      hstaged.parentRoot_eq
    simp only [AttestationLoop.start, hstaged.header_eq, BlockHeader.staged_staged,
      hstaged.history_eq]
    rw [hslot, ← hstaged.parentRoot_eq] at hnext
    exact hnext
  step {n h att hs loop loop'} line _ _ _ hstep := by
    rw [hstep.sameBase.history_eq, hstep.sameBase.header_eq]
    exact line.mono (List.subset_append_left _ _)
  finish {n h state' loop} line _ hfinished := by
    simp only [AttestationLoop.start, hfinished.sameCheckpoints.history_eq,
      hfinished.sameCheckpoints.header_eq]
    exact line

end Peam
