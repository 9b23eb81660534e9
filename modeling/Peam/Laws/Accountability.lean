import Peam.Lib.Accountability
import Peam.Laws.Ancestry
import Peam.Laws.Finality
import Peam.Laws.Justification

/-!
# What two conflicting finalizations cost

A tally is keyed by its target's root, whatever the sources of its votes, so a finalizing link need
not have a supermajority of its own, and two conflicting checkpoints can be finalized with nobody
slashable (`conflict_without_slashing`).

Accountability holds if on the chain that finalized the lower slot the link that did it carries two
thirds of the registry itself, and the other chain justified no slot strictly inside it
(`accountable_safety`). Each chain is a `View` of the abstract rule; `Grounded` supplies what a view
asks of its votes.
-/

namespace Peam

variable {ssz : Ssz} {att : Attestation} {counted : List Attestation} {headers : List BlockHeader}

/-! ## Grounded votes -/

/-- The slot is genesis or was justified. -/
def History.Ground (history : History) (slot : Nat) : Prop :=
  slot = 0 ∨ ∃ checkpoint ∈ history.justified, checkpoint.slot = slot

variable {history : History}

private theorem History.Ground.append {slot : Nat} (h : history.Ground slot)
    (more : History) : (history ++ more).Ground slot := by
  rcases h with h | ⟨checkpoint, hmem, hslot⟩
  · exact .inl h
  · exact .inr ⟨checkpoint, List.mem_append_left _ hmem, hslot⟩

/-- Votes and links start at or below a justified slot; what they justify and finalize is an entry
of the state's history. -/
structure Grounded (history : History) (n : Nat) (loop : AttestationLoop n) : Prop where
  finalized : history.Ground loop.state.latestFinalized.slot
  votes : ∀ att ∈ history.counted, ∃ low, history.Ground low ∧ att.data.source.slot ≤ low ∧
    low < att.data.target.slot
  justified : ∀ checkpoint ∈ history.justified, checkpoint.root ≠ Bytes32.zero ∧
    loop.state.historicalBlockHashes.items[checkpoint.slot]? = some checkpoint.root
  links : ∀ link ∈ history.links, history.Ground link.1.slot ∧ link.1.slot < link.2.slot ∧
    loop.state.historicalBlockHashes.items[link.1.slot]? = some link.1.root

namespace Grounded

variable {history : History} {n : Nat} {loop loop' : AttestationLoop n}

private theorem source (shape : Shape history n loop) (grounded : Grounded history n loop)
    {latestRoot : Bytes32} {data : AttestationData}
    (e : Eligible latestRoot loop.state loop.finalizedSlot data) :
    ∃ low, history.Ground low ∧ data.source.slot ≤ low ∧ low < data.target.slot := by
  rcases shape.isSlotJustified_iff_mem.mp e.source_justified with hle | hmem
  · exact ⟨_, grounded.finalized, hle, shape.sync ▸ e.finalized_lt_target⟩
  · exact ⟨_, .inr hmem, Nat.le_refl _, e.source_lt_target⟩

/-- One more counted attestation, whose target may be justified. -/
private theorem count (grounded : Grounded history n loop) {justified : List Checkpoint}
    {links : List (Checkpoint × Checkpoint)} (same : SameBase loop.state loop'.state)
    (hfinalized : (history ++ ⟨[], [att], justified, links⟩).Ground
      loop'.state.latestFinalized.slot)
    (hsource : ∃ low, history.Ground low ∧ att.data.source.slot ≤ low ∧
      low < att.data.target.slot)
    (hjustified : ∀ checkpoint ∈ justified, checkpoint.root ≠ Bytes32.zero ∧
      loop.state.historicalBlockHashes.items[checkpoint.slot]? = some checkpoint.root)
    (hlinks : ∀ link ∈ links, history.Ground link.1.slot ∧ link.1.slot < link.2.slot ∧
      loop.state.historicalBlockHashes.items[link.1.slot]? = some link.1.root) :
    Grounded (history ++ ⟨[], [att], justified, links⟩) n loop' := by
  refine ⟨hfinalized, ?_, ?_, ?_⟩
  · intro other hmem
    have hold : ∃ low, history.Ground low ∧ other.data.source.slot ≤ low ∧
        low < other.data.target.slot := by
      rcases List.mem_append.mp hmem with h | h
      · exact grounded.votes other h
      · rw [List.mem_singleton.mp h]
        exact hsource
    obtain ⟨low, hground, hrest⟩ := hold
    exact ⟨low, hground.append _, hrest⟩
  · rw [same.history_eq]
    intro checkpoint hmem
    rcases List.mem_append.mp hmem with h | h
    · exact grounded.justified checkpoint h
    · exact hjustified checkpoint h
  · rw [same.history_eq]
    intro link hmem
    rcases List.mem_append.mp hmem with h | h
    · exact ⟨(grounded.links link h).1.append _, (grounded.links link h).2⟩
    · exact ⟨(hlinks link h).1.append _, (hlinks link h).2⟩

/-- **A step of the loop keeps the ground.** -/
theorem step {slots : RapidHashMap Nat} {hs : History} (shape : Shape history n loop)
    (grounded : Grounded history n loop) (hself : NotSelf ssz loop.state.latestBlockHeader att)
    (step : AttestationStep (loop.state.latestBlockHeader.hashTreeRoot ssz) slots att loop loop' hs) :
    Grounded (history ++ hs) n loop' := by
  have same := step.sameBase
  have htarget (m : Matches (loop.state.latestBlockHeader.hashTreeRoot ssz) loop.state att.data) :
      ∀ checkpoint ∈ [att.data.target], checkpoint.root ≠ Bytes32.zero ∧
        loop.state.historicalBlockHashes.items[checkpoint.slot]? = some checkpoint.root := by
    intro checkpoint hmem
    rw [List.mem_singleton.mp hmem]
    exact ⟨m.target_root_ne, m.target_in_history hself⟩
  cases step with
  | skipped hno =>
    rw [History.append_empty]
    exact grounded
  | counted e hfew =>
    exact grounded.count same (grounded.finalized.append _) (grounded.source shape e)
      (fun _ h => by cases h) (fun _ h => by cases h)
  | justified e hquorum hset hnext =>
    exact grounded.count same (grounded.finalized.append _) (grounded.source shape e)
      (htarget e.toMatches) (fun _ h => by cases h)
  | finalized e hquorum hset hnext hmissing =>
    -- a finalized source is not below the finalized slot, so it is that slot or a justified one
    have hsource : history.Ground att.data.source.slot := by
      have hle := finalized_le_source hnext e.finalized_lt_target
      rw [shape.sync] at hle
      rcases shape.isSlotJustified_iff_mem.mp e.source_justified with hge | hmem
      · rw [Nat.le_antisymm hge hle]
        exact grounded.finalized
      · exact .inr hmem
    refine grounded.count same (hsource.append _) (grounded.source shape e)
      (htarget e.toMatches) fun link hmem => ?_
    rw [List.mem_singleton.mp hmem]
    exact ⟨hsource, e.source_lt_target, e.source_matches⟩

end Grounded

/-- **On every chain without self reference the loop is grounded.** -/
theorem grounded_invariant (ssz : Ssz) (genesisTime : Nat)
    (validators : Validators) :
    Invariant ssz (generateGenesis ssz genesisTime validators) (NotSelf ssz)
      (fun h n loop => Shape h n loop ∧ Grounded h n loop) := by
  refine (shape_invariant ssz genesisTime validators (NotSelf ssz)).along ?_ ?_ ?_ ?_
  · exact ⟨.inl rfl, by simp [History.empty], by simp [History.empty], by simp [History.empty]⟩
  · intro h state header staged shape grounded hstaged
    refine ⟨?_, ?_, ?_, ?_⟩
    · have hfin := hstaged.finalizedSlot_eq
      simp only [AttestationLoop.start, hfin]
      exact grounded.finalized.append _
    · intro att hmem
      simp only [stageHistory, History.counted_append, History.empty, List.append_nil] at hmem
      obtain ⟨low, hground, hrest⟩ := grounded.votes att hmem
      exact ⟨low, hground.append _, hrest⟩
    · intro checkpoint hmem
      simp only [stageHistory, History.justified_append, History.empty, List.append_nil] at hmem
      exact (grounded.justified checkpoint hmem).imp_right hstaged.history_grows
    · intro link hmem
      simp only [stageHistory, History.links_append, History.empty, List.append_nil] at hmem
      obtain ⟨hground, hlt, hget⟩ := grounded.links link hmem
      exact ⟨hground.append _, hlt, hstaged.history_grows hget⟩
  · intro n h att hs loop loop' shape grounded hn hroot hself hstep
    exact grounded.step shape hself hstep
  · intro n h state' loop shape grounded hn hfinished
    have same := hfinished.sameCheckpoints
    refine ⟨?_, grounded.votes, ?_, ?_⟩ <;>
      simp only [AttestationLoop.start, same.history_eq, same.finalized_eq]
    · exact grounded.finalized
    · exact grounded.justified
    · exact grounded.links

/-! ## Chains as views -/

open Accountability

/-- Validator `i` has a bit in a counted attestation from `source` to `target`. -/
def VotedLink (counted : List Attestation) (i : Nat) (source target : Checkpoint) : Prop :=
  ∃ att ∈ counted, att.data.source = source ∧ att.data.target = target ∧
    att.aggregationBits.get i = true
  deriving Decidable

/-- The registry indices that voted for exactly this link. -/
def linkVoters (counted : List Attestation) (n : Nat) (source target : Checkpoint) : Finset Nat :=
  (Finset.range n).filter fun i => VotedLink counted i source target

/-- A pair of attestations no validator may sign both: two targets in one slot, or one interval
strictly around the other. -/
def ConflictingVotes (a b : AttestationData) : Prop :=
  a.target.slot = b.target.slot ∧ a.target.root ≠ b.target.root ∨
    a.source.slot < b.source.slot ∧ b.target.slot < a.target.slot
  deriving Decidable

/-- The registry indices with a slashable pair among these votes. -/
def slashable (votes : List Attestation) (n : Nat) : Finset Nat :=
  (Finset.range n).filter fun i => ∃ a ∈ votes, ∃ b ∈ votes,
    a.aggregationBits.get i = true ∧ b.aggregationBits.get i = true ∧
      ConflictingVotes a.data b.data

private theorem Backed.quorum {n : Nat} {checkpoint : Checkpoint}
    (backed : Backed counted n checkpoint) :
    Quorum (Finset.range n) (supporters counted n checkpoint) where
  subset := Finset.filter_subset _ _
  enough := by
    rw [Finset.card_range]
    exact backed

/-- What a chain has seen, as a view of the abstract rule. -/
def chainView {history : History} {n : Nat} {loop : AttestationLoop n}
    (shape : Shape history n loop) (grounded : Grounded history n loop)
    (backed : ∀ checkpoint ∈ history.justified, Backed history.counted n checkpoint) :
    View Checkpoint.slot (Finset.range n) where
  voted i source target := VotedLink history.counted i source target
  line checkpoint :=
    loop.state.historicalBlockHashes.items[checkpoint.slot]? = some checkpoint.root
  justified checkpoint := checkpoint ∈ history.justified
  line_unique {c d} hc hd hslot := by
    rw [hslot, hd] at hc
    exact Checkpoint.ext (Option.some.inj hc).symm hslot
  justified_line hmem := (grounded.justified _ hmem).2
  justified_pos hmem := (shape.justified_bounds _ hmem).1
  quorum {c} hmem := by
    refine ⟨supporters history.counted n c, (backed c hmem).quorum, fun i hi => ?_⟩
    obtain ⟨-, att, hatt, htarget, hbit⟩ := Finset.mem_filter.mp hi
    exact ⟨att.data.source, att, hatt, rfl, htarget, hbit⟩
  source_low := by
    rintro i source c ⟨att, hatt, rfl, rfl, -⟩
    exact grounded.votes att hatt

/-- A slashable voter of the abstract rule has a slashable pair of attestations. -/
theorem mem_slashable {more : List Attestation} {n i : Nat} (hi : i < n)
    (h : Slashable Checkpoint.slot
      (fun i s t => VotedLink counted i s t ∨ VotedLink more i s t) i) :
    i ∈ slashable (counted ++ more) n := by
  have attestation : ∀ {s t}, VotedLink counted i s t ∨ VotedLink more i s t →
      ∃ att ∈ counted ++ more, att.data.source = s ∧ att.data.target = t ∧
        att.aggregationBits.get i = true := by
    rintro s t (⟨att, hatt, hrest⟩ | ⟨att, hatt, hrest⟩)
    · exact ⟨att, List.mem_append_left _ hatt, hrest⟩
    · exact ⟨att, List.mem_append_right _ hatt, hrest⟩
  obtain ⟨s, t, s', t', hvote, hvote', hpair⟩ := h
  obtain ⟨a, ha, rfl, rfl, hbit⟩ := attestation hvote
  obtain ⟨b, hb, rfl, rfl, hbit'⟩ := attestation hvote'
  refine Finset.mem_filter.mpr ⟨Finset.mem_range.mpr hi, a, ha, b, hb, hbit, hbit', ?_⟩
  exact hpair.imp_left fun ⟨hslot, hne⟩ => ⟨hslot, fun hroot => hne (Checkpoint.ext hroot hslot)⟩

/-! ## The law -/

/-- The checkpoint is an ancestor of, or equal to, what the state has finalized. Slot zero is
genesis, which all chains share. -/
def IsFinalizedAncestor (checkpoint : Checkpoint) (state : State) : Prop :=
  checkpoint.slot ≤ state.latestFinalized.slot ∧
    (checkpoint.slot = 0 ∨
      state.historicalBlockHashes.items[checkpoint.slot]? = some checkpoint.root)
  deriving Decidable

/-- Neither state's finalized checkpoint is an ancestor of the other's. -/
def ConflictingFinality (a b : State) : Prop :=
  ¬ IsFinalizedAncestor a.latestFinalized b ∧ ¬ IsFinalizedAncestor b.latestFinalized a
  deriving Decidable

/-- The checkpoint was finalized by a link with a supermajority of its own, and the other chain
justified no slot strictly inside it. -/
def FirmlyFinalized (history other : History) (n : Nat) (checkpoint : Checkpoint) : Prop :=
  ∃ link ∈ history.links, link.1 = checkpoint ∧
    2 * n ≤ 3 * (linkVoters history.counted n link.1 link.2).card ∧
    ∀ justified ∈ other.justified, link.1.slot < justified.slot → link.2.slot ≤ justified.slot
  deriving Decidable

section Law

variable {verifier : SignatureVerifier} {genesisTime : Nat}
  {validators : Validators}

private theorem CollisionFree.rootsFixSlots (fix : CollisionFree ssz headers)
    (h : history.headers ⊆ headers) : history.RootsFixSlots ssz :=
  fun a ha b hb hroot => congrArg BlockHeader.slot (fix a (h ha) b (h hb) hroot)

/-- What the law needs of one chain, over the registry of its genesis. -/
structure Accounted (ssz : Ssz) (genesis : State) (headers : List BlockHeader) (history : History)
    (loop : AttestationLoop genesis.validators.items.length) : Prop where
  shape : Shape history _ loop
  grounded : Grounded history _ loop
  backed : ∀ checkpoint ∈ history.justified,
    Backed history.counted genesis.validators.items.length checkpoint
  line : Line ssz genesis.latestBlockHeader headers loop.state.historicalBlockHashes.items
    loop.state.latestBlockHeader.staged

private theorem accounted_of_chain {blocks : List SignedBlockWithAttestation}
    {state : State}
    (reached : Chain ssz verifier (generateGenesis ssz genesisTime validators) blocks history state)
    (noSelf : NoSelfReference ssz blocks) (fix : CollisionFree ssz headers)
    (hheaders : history.headers ⊆ headers) : ∃ loop, loop.state = state ∧
      Accounted ssz (generateGenesis ssz genesisTime validators) headers history loop := by
  have inv := ((grounded_invariant ssz genesisTime validators).and
    (justified_invariant ssz genesisTime validators (NotSelf ssz))).and
    (line_invariant ssz genesisTime validators (NotSelf ssz))
  obtain ⟨loop, hloop, ⟨⟨shape, grounded⟩, -, tallied⟩, line⟩ := inv.chain_registry reached noSelf
  exact ⟨loop, hloop, shape, grounded, tallied.backed (fix.rootsFixSlots hheaders),
    line.mono hheaders⟩

/-- The law for the chain whose finalized slot is the lower one. -/
theorem Accounted.slashable_of_le {genesis : State} {history history' : History}
    {loop loop' : AttestationLoop genesis.validators.items.length}
    (hzero : genesis.latestBlockHeader.slot = 0) (fix : CollisionFree ssz headers)
    (a : Accounted ssz genesis headers history loop)
    (b : Accounted ssz genesis headers history' loop')
    (hle : loop.state.latestFinalized.slot ≤ loop'.state.latestFinalized.slot)
    (hconflict : ¬ IsFinalizedAncestor loop.state.latestFinalized loop'.state)
    (firm : (∃ other ∈ history'.justified, other.slot = loop.state.latestFinalized.slot) ∨
      FirmlyFinalized history history' genesis.validators.items.length loop.state.latestFinalized) :
    genesis.validators.items.length ≤ 3 * (slashable (history.counted ++ history'.counted)
      genesis.validators.items.length).card := by
  have hoff : ¬ loop'.state.historicalBlockHashes.items[loop.state.latestFinalized.slot]? =
      some loop.state.latestFinalized.root := fun h => hconflict ⟨hle, .inr h⟩
  have hpos : loop.state.latestFinalized.slot ≠ 0 := fun h => hconflict ⟨hle, .inl h⟩
  let viewA := chainView a.shape a.grounded a.backed
  let viewB := chainView b.shape b.grounded b.backed
  -- what was finalized on both chains was justified there
  have hc : viewA.justified loop.state.latestFinalized := by
    obtain ⟨checkpoint, hmem, hslot⟩ := a.grounded.finalized.resolve_left hpos
    have hlast := a.shape.latest_finalized.resolve_left fun h => hpos h.2
    obtain ⟨link, hlink, hfinalized⟩ := Option.map_eq_some_iff.mp hlast
    have hline := (a.grounded.links link (List.mem_of_getLast? hlink)).2.2
    rw [hfinalized] at hline
    have : checkpoint = _ := viewA.line_unique (viewA.justified_line hmem) hline hslot
    exact this ▸ hmem
  obtain ⟨e, he, heslot⟩ := b.grounded.finalized.resolve_left (by omega)
  have hfirm : (∃ g, viewB.justified g ∧ g.slot = loop.state.latestFinalized.slot) ∨
      ∃ d, viewA.FirmLink viewB loop.state.latestFinalized d := by
    refine firm.imp_right ?_
    rintro ⟨⟨c, d⟩, hlink, rfl, hquorum, hgap⟩
    obtain ⟨-, hlt, hline⟩ := a.grounded.links _ hlink
    refine ⟨d, ⟨linkVoters history.counted genesis.validators.items.length
      loop.state.latestFinalized d, ⟨Finset.filter_subset _ _, ?_⟩, fun i hi => ?_⟩,
      fun hd => ?_, hgap⟩
    · rw [Finset.card_range]
      exact hquorum
    · have hvoted := (Finset.mem_filter.mp hi).2
      exact hvoted
    · -- a common target would put the source on both chains
      obtain ⟨hne, hd'⟩ := a.grounded.justified d (a.shape.links_justified _ hlink)
      have hagree := a.line.agree_below hzero fix b.line hd' hd hne
      show loop'.state.historicalBlockHashes.items[loop.state.latestFinalized.slot]? = _
      rw [← List.getElem?_take_of_lt hlt, ← hagree, List.getElem?_take_of_lt hlt]
      exact hline
  obtain ⟨guilty, hsub, hcard, hguilty⟩ :=
    viewA.accountable viewB hc hoff he (heslot ▸ hle) hfirm
  have hall : guilty ⊆ slashable (history.counted ++ history'.counted)
      genesis.validators.items.length := fun i hi =>
    mem_slashable (Finset.mem_range.mp (hsub hi)) (hguilty i hi)
  have := Finset.card_le_card hall
  rw [Finset.card_range] at hcard
  omega

/-- **Accountable safety of firm finality.** Two chains of one genesis that finalized conflicting
checkpoints convict a third of the registry, if the second justified the slot the first finalized, or
the first, whose slot is not the later one, finalized it by a link with a supermajority of its own
and none of the second chain's justified slots strictly inside. -/
theorem accountable_safety {blocks blocks' : List SignedBlockWithAttestation}
    {history history' : History} {state state' : State}
    (reached : Chain ssz verifier (generateGenesis ssz genesisTime validators) blocks history state)
    (reached' : Chain ssz verifier (generateGenesis ssz genesisTime validators) blocks' history'
      state')
    (noSelf : NoSelfReference ssz blocks) (noSelf' : NoSelfReference ssz blocks')
    (fix : CollisionFree ssz (history.headers ++ history'.headers))
    (conflict : ConflictingFinality state state')
    (lower : state.latestFinalized.slot ≤ state'.latestFinalized.slot)
    (firm : (∃ other ∈ history'.justified, other.slot = state.latestFinalized.slot) ∨
      FirmlyFinalized history history' validators.items.length state.latestFinalized) :
    validators.items.length ≤
      3 * (slashable (history.counted ++ history'.counted) validators.items.length).card := by
  obtain ⟨loop, rfl, a⟩ := accounted_of_chain reached noSelf fix (List.subset_append_left _ _)
  obtain ⟨loop', rfl, b⟩ := accounted_of_chain reached' noSelf' fix (List.subset_append_right _ _)
  exact a.slashable_of_le rfl fix b lower conflict.1 firm

/-- Validator 0 votes from genesis throughout; the finalizing link of each chain has one vote. -/
def looseLow : List PlannedBlock :=
  [⟨1, []⟩, ⟨2, [⟨0, 1, voters 3 3#8⟩]⟩, ⟨3, [⟨0, 2, voters 3 1#8⟩, ⟨1, 2, voters 3 2#8⟩]⟩]

def looseHigh : List PlannedBlock :=
  [⟨3, []⟩, ⟨4, [⟨0, 3, voters 3 5#8⟩]⟩, ⟨5, [⟨0, 4, voters 3 1#8⟩, ⟨3, 4, voters 3 4#8⟩]⟩]

/-- Two thirds finalize slot 1. -/
def firmLow : List PlannedBlock :=
  [⟨1, []⟩, ⟨2, [⟨0, 1, voters 3 3#8⟩]⟩, ⟨3, [⟨1, 2, voters 3 3#8⟩]⟩]

/-- The link of the higher chain need not be firm. -/
theorem accountable_safety_firm :
    ¬ FirmlyFinalized (sampleEnd threeValidators looseHigh).1 (sampleEnd threeValidators firmLow).1
        threeValidators.items.length (sampleEnd threeValidators looseHigh).2.latestFinalized ∧
      threeValidators.items.length ≤ 3 * (slashable
        ((sampleEnd threeValidators firmLow).1.counted ++
          (sampleEnd threeValidators looseHigh).1.counted) threeValidators.items.length).card := by
  obtain ⟨hself, hself', hfix, hconflict, hlower, hloose, hfirm⟩ :
      NoSelfReference sampleSsz (sampleBlocks threeValidators firmLow) ∧
      NoSelfReference sampleSsz (sampleBlocks threeValidators looseHigh) ∧
      CollisionFree sampleSsz ((sampleEnd threeValidators firmLow).1.headers ++
        (sampleEnd threeValidators looseHigh).1.headers) ∧
      ConflictingFinality (sampleEnd threeValidators firmLow).2
        (sampleEnd threeValidators looseHigh).2 ∧
      (sampleEnd threeValidators firmLow).2.latestFinalized.slot ≤
        (sampleEnd threeValidators looseHigh).2.latestFinalized.slot ∧
      ¬ FirmlyFinalized (sampleEnd threeValidators looseHigh).1
        (sampleEnd threeValidators firmLow).1 threeValidators.items.length
        (sampleEnd threeValidators looseHigh).2.latestFinalized ∧
      FirmlyFinalized (sampleEnd threeValidators firmLow).1 (sampleEnd threeValidators looseHigh).1
        threeValidators.items.length (sampleEnd threeValidators firmLow).2.latestFinalized := by
    decide +kernel
  exact ⟨hloose, accountable_safety
    (sampleEnd_chain threeValidators firmLow (by decide +kernel))
    (sampleEnd_chain threeValidators looseHigh (by decide +kernel)) hself hself' hfix hconflict
    hlower (.inr hfirm)⟩

/-- Two conflicting finalizations of a registry of three, without a single slashable vote. -/
theorem conflict_without_slashing :
    ∃ blocks history state blocks' history' state',
      Chain sampleSsz noopSignatureVerifier (generateGenesis sampleSsz 0 threeValidators) blocks
        history state ∧
      Chain sampleSsz noopSignatureVerifier (generateGenesis sampleSsz 0 threeValidators) blocks'
        history' state' ∧
      NoSelfReference sampleSsz blocks ∧ NoSelfReference sampleSsz blocks' ∧
      CollisionFree sampleSsz (history.headers ++ history'.headers) ∧
      ConflictingFinality state state' ∧
      slashable (history.counted ++ history'.counted) threeValidators.items.length = ∅ := by
  refine ⟨_, _, _, _, _, _, sampleEnd_chain threeValidators looseLow ?_,
    sampleEnd_chain threeValidators looseHigh ?_, ?_⟩ <;>
  decide +kernel

/-- One chain finalizes slot 1 on the way and links 7 to 10 over slots it cannot justify; the other
has not finalized slot 1 and can justify slot 9. -/
def crossingLow : List PlannedBlock :=
  [⟨1, []⟩, ⟨2, []⟩, ⟨3, [⟨0, 1, voters 3 7#8⟩, ⟨1, 2, voters 3 7#8⟩]⟩, ⟨7, []⟩,
    ⟨8, [⟨2, 7, voters 3 7#8⟩]⟩, ⟨10, []⟩, ⟨11, [⟨7, 10, voters 3 7#8⟩]⟩]

def crossingHigh : List PlannedBlock :=
  [⟨1, []⟩, ⟨2, []⟩, ⟨3, [⟨0, 2, voters 3 7#8⟩]⟩, ⟨9, []⟩, ⟨10, [⟨2, 9, voters 3 7#8⟩]⟩,
    ⟨12, []⟩, ⟨13, [⟨9, 12, voters 3 7#8⟩]⟩]

/-- The condition on slots inside a link is needed: here every vote has the whole registry behind
it, the links of the two chains cross, and nobody is slashable. -/
theorem conflict_of_crossing_links :
    ∃ blocks history state blocks' history' state',
      Chain sampleSsz noopSignatureVerifier (generateGenesis sampleSsz 0 threeValidators) blocks
        history state ∧
      Chain sampleSsz noopSignatureVerifier (generateGenesis sampleSsz 0 threeValidators) blocks'
        history' state' ∧
      ConflictingFinality state state' ∧
      (∃ link ∈ history.links, link.1 = state.latestFinalized ∧
        linkVoters history.counted 3 link.1 link.2 = Finset.range 3) ∧
      (∃ link ∈ history'.links, link.1 = state'.latestFinalized ∧
        linkVoters history'.counted 3 link.1 link.2 = Finset.range 3) ∧
      slashable (history.counted ++ history'.counted) 3 = ∅ := by
  refine ⟨_, _, _, _, _, _, sampleEnd_chain threeValidators crossingLow ?_,
    sampleEnd_chain threeValidators crossingHigh ?_, ?_⟩ <;>
  decide +kernel

/-! ## Two roots in one slot -/

/-- **No silent double justification.** If two chains of one genesis justify a root each at the same
slot, whether or not the roots agree, then a third of the registry has a bit in a counted
attestation for the one and in a counted attestation for the other. -/
theorem double_justification {verifier' : SignatureVerifier} {history history' : History}
    {state state' : State} {root root' : Bytes32} {slot : Nat}
    (reached : Moment ssz verifier (generateGenesis ssz genesisTime validators) history state)
    (reached' : Moment ssz verifier' (generateGenesis ssz genesisTime validators) history' state')
    (fix : history.RootsFixSlots ssz) (fix' : history'.RootsFixSlots ssz)
    (justified : ⟨root, slot⟩ ∈ history.justified)
    (justified' : ⟨root', slot⟩ ∈ history'.justified) :
    validators.items.length ≤
      3 * (supporters history.counted validators.items.length ⟨root, slot⟩ ∩
        supporters history'.counted validators.items.length ⟨root', slot⟩).card := by
  have backed := backed_of_justified reached fix justified
  have backed' := backed_of_justified reached' fix' justified'
  have shared := backed.quorum.inter backed'.quorum
  rwa [Finset.card_range] at shared

/-- Two chains with their own block at slot 3, and votes for it by two validators each. -/
def forkLeft : List PlannedBlock := [⟨1, []⟩, ⟨3, []⟩, ⟨4, [⟨0, 3, voters 3 3#8⟩]⟩]

def forkRight : List PlannedBlock := [⟨3, []⟩, ⟨4, [⟨0, 3, voters 3 6#8⟩]⟩]

/-- The law at two chains that justify slot 3 each. -/
theorem double_justification_fork :
    ∃ root root', root ≠ root' ∧
      ⟨root, 3⟩ ∈ (sampleEnd threeValidators forkLeft).1.justified ∧
      ⟨root', 3⟩ ∈ (sampleEnd threeValidators forkRight).1.justified ∧
      threeValidators.items.length ≤
        3 * (supporters (sampleEnd threeValidators forkLeft).1.counted
            threeValidators.items.length ⟨root, 3⟩ ∩
          supporters (sampleEnd threeValidators forkRight).1.counted
            threeValidators.items.length ⟨root', 3⟩).card := by
  have hleft := sampleEnd_chain threeValidators forkLeft (by decide +kernel)
  have hright := sampleEnd_chain threeValidators forkRight (by decide +kernel)
  obtain ⟨hne, hj, hj', hfix, hfix'⟩ :
      (sampleEnd threeValidators forkLeft).2.latestJustified.root ≠
        (sampleEnd threeValidators forkRight).2.latestJustified.root ∧
      ⟨(sampleEnd threeValidators forkLeft).2.latestJustified.root, 3⟩ ∈
        (sampleEnd threeValidators forkLeft).1.justified ∧
      ⟨(sampleEnd threeValidators forkRight).2.latestJustified.root, 3⟩ ∈
        (sampleEnd threeValidators forkRight).1.justified ∧
      (sampleEnd threeValidators forkLeft).1.RootsFixSlots sampleSsz ∧
      (sampleEnd threeValidators forkRight).1.RootsFixSlots sampleSsz := by
    decide +kernel
  have shared := double_justification (.idle hleft) (.idle hright) hfix hfix' hj hj'
  exact ⟨_, _, hne, hj, hj', shared⟩

end Law

end Peam
