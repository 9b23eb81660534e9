import Peam.Lib.Latest
import Peam.Laws.Ghost

/-!
# The latest message of a validator

The fork choice stores a validator's vote without its slot, so the vote that stands is the one that
came last: a gossip vote when it is accepted, a vote from a block at once.

`latestVotes_of_orderly` says when the last vote is the latest one: every validator's attestations
come in the order of their slots, a block brings no vote of a validator who has another one staged,
and pruning keeps the blocks voted for. Then the head is a function of the tree, the justified root
and the set of attestations heard. `olderVote_stands` is what happens otherwise.
-/

namespace Peam

open Forests
open Messages
open ForkChoiceStore (stateMatchesBlockRoot blockVotes)
open Option (some_or none_or some_inj)

/-! ## What is heard -/

/-- A validator and the data they attest. -/
abbrev Message := Nat × AttestationData

/-- The vote a message is for. -/
def Message.ballot (message : Message) : Sigma fun _ : Nat => Bytes32 :=
  ⟨message.1, message.2.head.root⟩

/-- The messages of an attestation, if its head is known. -/
def messagesOf (blocks : RapidHashMap SignedBlockWithAttestation) (attestation : Attestation) :
    List Message :=
  if attestation.data.head.root ∈ blocks then
    (setBits attestation.aggregationBits).map (·, attestation.data)
  else []

section Steps

variable (ssz : Ssz)

/-- The messages a call brings whose head is known when they arrive. A block's own votes arrive when
the block is stored. -/
def Step.hears (step : Step) : List Message :=
  match step.event with
  | .block signed postState =>
    if stateMatchesBlockRoot ssz postState signed.message.block.stateRoot then
      (blockVotes signed true).flatMap (messagesOf
        (step.before.blocks.insert (signed.message.block.hashTreeRoot ssz) signed))
    else []
  | .attestation attestation => messagesOf step.before.blocks attestation
  | .accept => []
  | .propose => []
  | .proposeWith pendingVotes => pendingVotes.flatMap (messagesOf step.before.blocks)

/-- What a run hears, in the order of arrival. -/
def heardOf (steps : List Step) : List Message := steps.flatMap (·.hears ssz)

/-- The vote of each validator once the staged votes are accepted. -/
def standingVote (votes newVotes : VoteMap) (v : Nat) : Option Bytes32 :=
  (newVotes.lookup v).or (votes.lookup v)

/-- A block brings no vote of a validator who has another one staged. -/
def Step.Unstaged (step : Step) : Prop :=
  (step.enters ssz).isSome → ∀ message ∈ step.hears ssz,
    ∀ root ∈ step.before.latestNewVotes.lookup message.1, message.2.head.root = root
  deriving Decidable

/-- The blocks voted for are at or below what history is pruned to. -/
def Step.KeepsVotes (step : Step) : Prop :=
  ∀ signed postState, step.event = .block signed postState →
    ∀ finalized ∈ step.prunes ssz, ∀ v, ∀ root ∈ standingVote
        (castVotes step.before.latestVotes ((step.hears ssz).map Message.ballot))
        step.before.latestNewVotes v,
      Climbs (step.before.recordBlock ssz signed postState).storedParent root finalized

/-- A run in which the last vote is the latest one. -/
structure Orderly (steps : List Step) : Prop where
  inOrder : InOrder (·.slot) (heardOf ssz steps)
  unstaged : ∀ step ∈ steps, step.Unstaged ssz
  keeps : ∀ step ∈ steps, step.KeepsVotes ssz

end Steps

/-- What a validator's vote should be: the head root of their latest message. -/
abbrev IsLatestVote (heard : List Message) (v : Nat) (vote : Option Bytes32) : Prop :=
  IsLatest (fun data : AttestationData => data.slot) (·.head.root) heard v vote

variable {ssz : Ssz} {rank : Bytes32 → Nat} {first store next : ForkChoiceStore}
variable {steps : List Step} {heard more : List Message} {votes newVotes : VoteMap}

private theorem stageVote_eq (store : ForkChoiceStore) (votes : VoteMap)
    (attestation : Attestation) : stageVote store votes attestation =
      castVotes votes ((messagesOf store.blocks attestation).map Message.ballot) := by
  rw [stageVote, messagesOf]
  split
  · rw [ballots, List.map_map]
    rfl
  · rfl

private theorem foldl_stageVote (store : ForkChoiceStore) (attestations : List Attestation)
    (votes : VoteMap) :
    attestations.foldl (stageVote store) votes =
      castVotes votes ((attestations.flatMap (messagesOf store.blocks)).map Message.ballot) := by
  induction attestations generalizing votes with
  | nil => rfl
  | cons attestation attestations ih =>
    rw [List.foldl_cons, ih, stageVote_eq, List.flatMap_cons, List.map_append, castVotes, castVotes,
      castVotes, List.foldl_append]

/-! ## Votes that are cast -/

private theorem lookup_castMessages_cases (votes : VoteMap) (more : List Message) (v : Nat) :
    ((∀ message ∈ more, message.1 ≠ v) ∧
        (castVotes votes (more.map Message.ballot)).lookup v = votes.lookup v) ∨
      ∃ before data after, more = before ++ (v, data) :: after ∧
        (∀ message ∈ after, message.1 ≠ v) ∧
        (castVotes votes (more.map Message.ballot)).lookup v = some data.head.root := by
  rcases lookup_castVotes_cases votes (more.map Message.ballot) v with
    ⟨hsilent, hlook⟩ | ⟨before, root, after, hcast, hsilent, hlook⟩
  · exact .inl ⟨fun message hmem => hsilent _ (List.mem_map_of_mem hmem), hlook⟩
  · obtain ⟨before, rest, rfl, rfl, hrest⟩ := List.map_eq_append_iff.mp hcast
    obtain ⟨⟨u, data⟩, after, rfl, hballot, rfl⟩ := List.map_eq_cons_iff.mp hrest
    cases hballot
    exact .inr ⟨before, data, after, rfl,
      fun message hmem => hsilent _ (List.mem_map_of_mem hmem), hlook⟩

private theorem isLatestVote_staged
    (latest : ∀ v, IsLatestVote heard v (standingVote votes newVotes v))
    (order : InOrder (·.slot) (heard ++ more)) (v : Nat) :
    IsLatestVote (heard ++ more) v
      (standingVote votes (castVotes newVotes (more.map Message.ballot)) v) := by
  rw [standingVote]
  rcases lookup_castMessages_cases newVotes more v with
    ⟨hsilent, hlook⟩ | ⟨before, data, after, rfl, hsilent, hlook⟩
  · rw [hlook]
    exact (latest v).append_of_silent hsilent
  · rw [hlook, some_or]
    rw [← List.append_assoc] at order ⊢
    exact order.isLatest hsilent

private theorem isLatestVote_active
    (latest : ∀ v, IsLatestVote heard v (standingVote votes newVotes v))
    (order : InOrder (·.slot) (heard ++ more))
    (unstaged : ∀ message ∈ more, ∀ root ∈ newVotes.lookup message.1, message.2.head.root = root)
    (v : Nat) :
    IsLatestVote (heard ++ more) v
      (standingVote (castVotes votes (more.map Message.ballot)) newVotes v) := by
  rw [standingVote]
  rcases lookup_castMessages_cases votes more v with
    ⟨hsilent, hlook⟩ | ⟨before, data, after, rfl, hsilent, hlook⟩
  · rw [hlook]
    exact (latest v).append_of_silent hsilent
  · have hstands : (newVotes.lookup v).or (some data.head.root) = some data.head.root := by
      cases hnew : newVotes.lookup v with
      | none => rfl
      | some root => rw [some_or, unstaged (v, data) (by simp) root hnew]
    rw [hlook, hstands]
    rw [← List.append_assoc] at order ⊢
    exact order.isLatest hsilent

private theorem standingVote_accepted (votes newVotes : VoteMap) (v : Nat) :
    standingVote (castVotes votes newVotes.entries) ∅ v = standingVote votes newVotes v := by
  rw [standingVote, standingVote, AList.lookup_empty, none_or]
  rcases lookup_castVotes_cases votes newVotes.entries v with
    ⟨hsilent, hlook⟩ | ⟨before, root, after, hentries, _, hlook⟩
  · have hnone : newVotes.lookup v = none := by
      cases hnew : newVotes.lookup v with
      | none => rfl
      | some root => exact absurd rfl (hsilent _ (AList.mem_lookup_iff.mp hnew))
    rw [hlook, hnone, none_or]
  · have hsome : newVotes.lookup v = some root :=
      AList.mem_lookup_iff.mpr (hentries ▸ by simp)
    rw [hlook, hsome, some_or]

private theorem standingVote_normalized {kept : List Bytes32} {finalized : Bytes32}
    {votes' newVotes' : VoteMap} (active : Normalized kept finalized votes votes')
    (staged : Normalized kept finalized newVotes newVotes') {v : Nat}
    (stays : ∀ root ∈ standingVote votes newVotes v, root ∈ kept) :
    standingVote votes' newVotes' v = standingVote votes newVotes v := by
  unfold standingVote at stays ⊢
  cases hnew : newVotes.lookup v with
  | some root =>
    rw [hnew, some_or] at stays
    rw [staged.stays hnew (stays root rfl), some_or, some_or]
  | none =>
    rw [hnew, none_or] at stays
    rw [staged.silent hnew, none_or, none_or]
    cases hold : votes.lookup v with
    | none => exact active.silent hold
    | some root => exact active.stays hold (stays root hold)

/-! ## One call -/

section Calls

variable {blocks : List Block} {retired : Bytes32 → Prop}
variable {signed : SignedBlockWithAttestation} {postState : State}

private theorem storedParent_adopted {adopted : ForkChoiceStore}
    (h : Adopted ssz signed postState true store adopted) :
    adopted.storedParent = (store.recordBlock ssz signed postState).storedParent := by
  funext root
  rw [ForkChoiceStore.storedParent, ForkChoiceStore.storedParent, h.parents, h.blocks]
  rfl

/-- An import leaves the latest votes standing. -/
theorem isLatestVote_block (tracked : Tracked ssz rank blocks retired store)
    (matching : stateMatchesBlockRoot ssz postState signed.message.block.stateRoot = true)
    (fits : Tracked.Fits ssz rank blocks retired signed.message.block)
    (handled : store.handle ssz (.block signed postState) = some next)
    (latest : ∀ v, IsLatestVote heard v (standingVote store.latestVotes store.latestNewVotes v))
    (order : InOrder (·.slot) (heard ++ Step.hears ssz ⟨store, .block signed postState⟩))
    (unstaged : Step.Unstaged ssz ⟨store, .block signed postState⟩)
    (keeps : Step.KeepsVotes ssz ⟨store, .block signed postState⟩) (v : Nat) :
    IsLatestVote (heard ++ Step.hears ssz ⟨store, .block signed postState⟩) v
      (standingVote next.latestVotes next.latestNewVotes v) := by
  obtain ⟨adopted, next', himport, hadopted, hconsistent, hsettled, _⟩ :=
    import_spec tracked.consistent fits.nonzero fits.below (tracked.link fits) postState true
      tracked.headed
  rw [handle_block, if_pos matching, himport] at handled
  obtain rfl : next' = next := some_inj.mp handled
  have hhears : Step.hears ssz ⟨store, .block signed postState⟩ =
      (blockVotes signed true).flatMap (messagesOf adopted.blocks) := by
    rw [hadopted.blocks]
    exact if_pos matching
  have hvotes : adopted.latestVotes = castVotes store.latestVotes
      ((Step.hears ssz ⟨store, .block signed postState⟩).map Message.ballot) := by
    rw [hadopted.votes, foldl_stageVote, hhears]
  have henters : Step.enters ssz ⟨store, .block signed postState⟩ = some signed := if_pos matching
  have hlatest := isLatestVote_active latest order (unstaged (henters ▸ rfl)) v
  rw [← hvotes, ← hadopted.newVotes] at hlatest
  cases hsettled with
  | kept _ hkept =>
    rw [hkept.votes, hkept.newVotes]
    exact hlatest
  | pruned hmoved hstored hpruned =>
    obtain ⟨kept, hkept, hactive, hstaged⟩ := hpruned.votes
    rw [standingVote_normalized hactive hstaged]
    · exact hlatest
    · -- what is voted for is stored, and below what history is pruned to
      intro root hroot
      have hfinal : adopted.latestFinalized = postState.latestFinalized := by
        rw [hadopted.finalized, higher, if_pos hmoved]
      have hprunes : Step.prunes ssz ⟨store, .block signed postState⟩ =
          some adopted.latestFinalized.root := by
        rw [hadopted.blocks, AList.mem_insert, hfinal] at hstored
        rw [hfinal]
        exact if_pos ⟨matching, hmoved, hstored⟩
      have hclimbs := keeps signed postState rfl _ hprunes v root
        (by rw [← hvotes, ← hadopted.newVotes]; exact hroot)
      rw [← storedParent_adopted hadopted] at hclimbs
      refine (hkept root).mpr (hpruned.trimmed.kept.mpr
        ⟨hconsistent.skeleton.stored.mpr ?_, hclimbs⟩)
      rcases Option.or_eq_some_iff.mp hroot with hnew | ⟨_, hold⟩
      · exact hconsistent.newVotes hnew
      · exact hconsistent.votes hold

private theorem isLatestVote_handle (tracked : Tracked ssz rank blocks retired store)
    {event : Event} (fits : ∀ signed ∈ Step.enters ssz ⟨store, event⟩,
      Tracked.Fits ssz rank blocks retired signed.message.block)
    (handled : store.handle ssz event = some next)
    (latest : ∀ v, IsLatestVote heard v (standingVote store.latestVotes store.latestNewVotes v))
    (order : InOrder (·.slot) (heard ++ Step.hears ssz ⟨store, event⟩))
    (unstaged : Step.Unstaged ssz ⟨store, event⟩) (keeps : Step.KeepsVotes ssz ⟨store, event⟩)
    (v : Nat) :
    IsLatestVote (heard ++ Step.hears ssz ⟨store, event⟩) v
      (standingVote next.latestVotes next.latestNewVotes v) := by
  cases event with
  | block signed postState =>
    by_cases hmatch : stateMatchesBlockRoot ssz postState signed.message.block.stateRoot = true
    · exact isLatestVote_block tracked hmatch (fits signed (if_pos hmatch)) handled latest order
        unstaged keeps v
    · rw [handle_block, if_neg hmatch, some_inj] at handled
      have hhears : Step.hears ssz ⟨store, .block signed postState⟩ = [] := if_neg hmatch
      rw [hhears, List.append_nil, ← handled]
      exact latest v
  | attestation attestation =>
    rw [ForkChoiceStore.handle, ForkChoiceStore.onAttestation, applyPending_eq,
      some_inj] at handled
    have hlatest := isLatestVote_staged latest order v
    rw [← handled]
    show IsLatestVote _ v (standingVote store.latestVotes (stageVote _ _ attestation) v)
    rw [stageVote_eq]
    exact hlatest
  | accept =>
    obtain ⟨next', hnext, _, _, hvotes, hnew⟩ := acceptNewVotes_spec tracked.consistent
    obtain rfl : next' = next := some_inj.mp (hnext.symm.trans handled)
    rw [hvotes, hnew, standingVote_accepted]
    exact (latest v).append_of_silent (by simp [Step.hears])
  | propose =>
    obtain ⟨next', hnext, _, _, hvotes, hnew⟩ := getProposalHead_spec tracked.consistent
    obtain rfl : next' = next := some_inj.mp (hnext.symm.trans handled)
    rw [hvotes, hnew, standingVote_accepted]
    exact (latest v).append_of_silent (by simp [Step.hears])
  | proposeWith pendingVotes =>
    obtain ⟨next', hnext, _, _, hvotes, hnew⟩ :=
      getProposalHeadWithPending_spec tracked.consistent pendingVotes
    obtain rfl : next' = next := some_inj.mp (hnext.symm.trans handled)
    rw [hvotes, hnew, standingVote_accepted, foldl_stageVote]
    exact isLatestVote_staged latest order v

end Calls

/-! ## Runs -/

section Runs

variable {anchor : SignedBlockWithAttestation} {anchorState : State}

private theorem heardOf_concat (steps : List Step) (step : Step) :
    heardOf ssz (steps ++ [step]) = heardOf ssz steps ++ step.hears ssz := by
  rw [heardOf, heardOf, List.flatMap_append, List.flatMap_singleton]

/-- An orderly run keeps the latest votes standing. -/
theorem Run.isLatestVote (accepted : ForkChoiceStore.new ssz anchor anchorState = .ok first)
    (run : Run ssz first steps store) (sound : SoundTree ssz (blocksOf ssz anchor steps))
    (once : PrunedOnce ssz steps) (orderly : Orderly ssz steps) (v : Nat) :
    IsLatestVote (heardOf ssz steps) v (standingVote store.latestVotes store.latestNewVotes v) := by
  obtain ⟨rank, hfalls⟩ := sound.exists_rank
  induction run generalizing v with
  | start =>
    rw [new_eq accepted]
    exact fun _ h => (List.not_mem_nil h).elim
  | @step steps store next event run handled ih =>
    have hsub := @blocksOf_subset ssz anchor steps ⟨store, event⟩
    have hsound := sound.mono hsub
    have honce := (List.pairwise_append.mp once).1
    have horder := orderly.inOrder
    rw [heardOf_concat] at horder
    have hlatest := fun v => ih hsound honce
      ⟨(List.pairwise_append.mp horder).1,
        fun step h => orderly.unstaged step (List.mem_append_left _ h),
        fun step h => orderly.keeps step (List.mem_append_left _ h)⟩
      v fun block hblock => hfalls block (hsub block hblock)
    have htracked := run.tracked accepted hsound honce
      fun block hblock => hfalls block (hsub block hblock)
    rw [heardOf_concat]
    exact isLatestVote_handle htracked (fun signed h => fits_of_sound sound once hfalls h) handled
      hlatest horder (orderly.unstaged _ (by simp)) (orderly.keeps _ (by simp)) v

/-- The same blocks under the same justified root. -/
structure SameForest (store store' : ForkChoiceStore) : Prop where
  blocks : ∀ root, root ∈ store.blocks ↔ root ∈ store'.blocks
  parents : store.storedParent = store'.storedParent
  justified : store.latestJustified.root = store'.latestJustified.root

/-- What `accept_new_votes` leaves after an orderly run: the latest votes, and the head they
have. -/
theorem Run.accepts (accepted : ForkChoiceStore.new ssz anchor anchorState = .ok first)
    (run : Run ssz first steps store) (sound : SoundTree ssz (blocksOf ssz anchor steps))
    (once : PrunedOnce ssz steps) (orderly : Orderly ssz steps) :
    ∃ next, store.acceptNewVotes = some next ∧
      (∀ v, IsLatestVote (heardOf ssz steps) v (next.activeVote v)) ∧
      (store.latestJustified.root ∈ store.blocks →
        GhostHead store.storedParent next.activeVote store.latestJustified.root next.head) := by
  obtain ⟨rank, hfalls⟩ := sound.exists_rank
  have htracked := run.tracked accepted sound once hfalls
  obtain ⟨next, haccept, hconsistent, hrevoted, hvotes, _⟩ :=
    acceptNewVotes_spec htracked.consistent
  refine ⟨next, haccept, ?_, ?_⟩
  · intro v
    have hlatest := run.isLatestVote accepted sound once orderly v
    rw [← standingVote_accepted, ← hvotes] at hlatest
    exact hlatest
  · intro hjustified
    rw [← hrevoted.tree.storedParent_eq, ← hrevoted.justified]
    refine (hconsistent.naiveGhost.head ?_ next.head).mp (hrevoted.headed htracked.headed).found
    rw [hrevoted.justified, hrevoted.tree.blocks]
    exact hjustified

/-- **The last vote is the latest one, along a run in order.** Once the staged votes are accepted,
every validator's vote is the head root of their latest message, and the head is the same as after
any other run in order that hears the same and has the same tree. -/
theorem latestVotes_of_orderly (accepted : ForkChoiceStore.new ssz anchor anchorState = .ok first)
    (run : Run ssz first steps store) (sound : SoundTree ssz (blocksOf ssz anchor steps))
    (once : PrunedOnce ssz steps) (orderly : Orderly ssz steps) :
    ∃ next, store.acceptNewVotes = some next ∧
      (∀ v, IsLatestVote (heardOf ssz steps) v (next.activeVote v)) ∧
      ∀ steps' store', Run ssz first steps' store' → SoundTree ssz (blocksOf ssz anchor steps') →
        PrunedOnce ssz steps' → Orderly ssz steps' →
        (∀ message, message ∈ heardOf ssz steps ↔ message ∈ heardOf ssz steps') →
        OneVoice (fun data : AttestationData => data.slot) (·.head.root) (heardOf ssz steps) →
        SameForest store store' → store.latestJustified.root ∈ store.blocks →
        ∃ next', store'.acceptNewVotes = some next' ∧ next'.head = next.head := by
  obtain ⟨next, haccept, hlatest, hghost⟩ := run.accepts accepted sound once orderly
  refine ⟨next, haccept, hlatest, ?_⟩
  intro steps' store' run' sound' once' orderly' same voice forest justified
  obtain ⟨next', haccept', hlatest', hghost'⟩ := run'.accepts accepted sound' once' orderly'
  have hvotes : next'.activeVote = next.activeVote := by
    funext v
    exact ((hlatest' v).congr fun message _ => (same message).symm).unique voice (hlatest v)
  have hhead := hghost' (forest.justified ▸ (forest.blocks _).mp justified)
  rw [hvotes, ← forest.parents, ← forest.justified] at hhead
  exact ⟨next', haccept', hhead.unique (hghost justified)⟩

/-! ## Two blocks side by side -/

/-- Two blocks on genesis, in slots 1 and 2. -/
def siblings : List Event :=
  plannedEvents [⟨1, []⟩] anchorGenesis ++ plannedEvents [⟨2, []⟩] anchorGenesis

/-- The root of the block of a slot. -/
def siblingRoot (slot : Nat) : Bytes32 := (plannedRoots [⟨slot, []⟩] anchorGenesis).getD 0 0#256

/-- A vote in the slot of one of the two blocks, for that block. -/
def siblingVote (slot : Nat) (bits : Packed.Byte) : Event :=
  .attestation (headVote slot (siblingRoot slot) (voters 3 bits))

/-- The two blocks and then some votes. -/
def siblingRun (votes : List Event) : List Step × ForkChoiceStore :=
  (play anchorSsz (anchoredStore anchorGenesis) (siblings ++ votes)).getD
    ([], anchoredStore anchorGenesis)

/-- Two validators vote in both slots, one after the other. -/
def oneByOne : List Event :=
  [siblingVote 1 1#8, siblingVote 2 1#8, siblingVote 1 2#8, siblingVote 2 2#8]

/-- The two vote together in slot 1, and in slot 2 the second one comes first. -/
def slotBySlot : List Event := [siblingVote 1 3#8, .accept, siblingVote 2 2#8, siblingVote 2 1#8]

private theorem siblingRun_orderly {votes : List Event}
    (played : (play anchorSsz (anchoredStore anchorGenesis) (siblings ++ votes)).isSome = true)
    (blocks : blocksOf anchorSsz (anchorOf anchorGenesis) (siblingRun votes).1 =
      blocksOf anchorSsz (anchorOf anchorGenesis) (siblingRun []).1)
    (prunes : ∀ step ∈ (siblingRun votes).1, step.prunes anchorSsz = none)
    (inOrder : InOrder (·.slot) (heardOf anchorSsz (siblingRun votes).1))
    (unstaged : ∀ step ∈ (siblingRun votes).1, step.Unstaged anchorSsz) :
    Run anchorSsz (anchoredStore anchorGenesis) (siblingRun votes).1 (siblingRun votes).2 ∧
      SoundTree anchorSsz (blocksOf anchorSsz (anchorOf anchorGenesis) (siblingRun votes).1) ∧
      PrunedOnce anchorSsz (siblingRun votes).1 ∧ Orderly anchorSsz (siblingRun votes).1 := by
  have hfalls : ∀ link ∈ linksOf anchorSsz
      (blocksOf anchorSsz (anchorOf anchorGenesis) (siblingRun []).1),
      placeIn [(anchorOf anchorGenesis).message.block.hashTreeRoot anchorSsz, siblingRoot 1,
          siblingRoot 2] link.2 <
        placeIn [(anchorOf anchorGenesis).message.block.hashTreeRoot anchorSsz, siblingRoot 1,
          siblingRoot 2] link.1 := by
    decide +kernel
  rw [blocks]
  refine ⟨Run.of_play played, ⟨acyclic_of_rank hfalls, by decide +kernel, by decide +kernel⟩, ?_,
    inOrder, unstaged, ?_⟩
  · refine List.pairwise_of_forall_mem_list fun earlier hearlier later _ signed _ => ?_
    rw [prunes earlier hearlier]
    exact (Option.some_ne_none _).symm
  · intro step hstep signed postState _ finalized hprunes
    rw [prunes step hstep] at hprunes
    cases hprunes

/-- The law at two orders of one set of votes. -/
theorem latestVotes_of_orderly_siblings :
    ∃ next next', (siblingRun oneByOne).2.acceptNewVotes = some next ∧
      (siblingRun slotBySlot).2.acceptNewVotes = some next' ∧
      (∀ v, IsLatestVote (heardOf anchorSsz (siblingRun oneByOne).1) v (next.activeVote v)) ∧
      next'.head = next.head := by
  obtain ⟨hrun, hsound, honce, horderly⟩ := @siblingRun_orderly oneByOne (by decide +kernel)
    (by decide +kernel) (by decide +kernel) (by decide +kernel) (by decide +kernel)
  obtain ⟨hrun', hsound', honce', horderly'⟩ := @siblingRun_orderly slotBySlot (by decide +kernel)
    (by decide +kernel) (by decide +kernel) (by decide +kernel) (by decide +kernel)
  obtain ⟨next, haccept, hlatest, hsame⟩ :=
    latestVotes_of_orderly (new_anchoredStore (by decide +kernel)) hrun hsound honce horderly
  have hblocks : (siblingRun oneByOne).2.blocks = (siblingRun slotBySlot).2.blocks :=
    AList.ext (by decide +kernel)
  have hparents : (siblingRun oneByOne).2.parents = (siblingRun slotBySlot).2.parents :=
    AList.ext (by decide +kernel)
  have hheard : heardOf anchorSsz (siblingRun oneByOne).1 ⊆
        heardOf anchorSsz (siblingRun slotBySlot).1 ∧
      heardOf anchorSsz (siblingRun slotBySlot).1 ⊆ heardOf anchorSsz (siblingRun oneByOne).1 := by
    decide +kernel
  have hforest : SameForest (siblingRun oneByOne).2 (siblingRun slotBySlot).2 := by
    refine ⟨fun root => by rw [hblocks], ?_, by decide +kernel⟩
    funext root
    rw [ForkChoiceStore.storedParent, ForkChoiceStore.storedParent, hparents, hblocks]
  obtain ⟨next', haccept', hhead⟩ := hsame _ _ hrun' hsound' honce' horderly'
    (fun message => ⟨fun h => hheard.1 h, fun h => hheard.2 h⟩) (by unfold OneVoice; decide +kernel)
    hforest (by decide +kernel)
  exact ⟨next, next', haccept, haccept', hlatest, hhead⟩

/-- The two validators vote in slot 1 for the first block and in slot 2 for the second. -/
def inTurn : List Event := [siblingVote 1 3#8, siblingVote 2 3#8]

/-- **An older vote that comes later stands.** The same two attestations the other way round: the
votes of slot 1 replace those of slot 2, and the head is another one. -/
theorem olderVote_stands :
    ∃ next next',
      Run anchorSsz (anchoredStore anchorGenesis) (siblingRun inTurn).1 (siblingRun inTurn).2 ∧
      Run anchorSsz (anchoredStore anchorGenesis) (siblingRun inTurn.reverse).1
        (siblingRun inTurn.reverse).2 ∧
      (siblingRun inTurn).2.acceptNewVotes = some next ∧ next.head = siblingRoot 2 ∧
      (siblingRun inTurn.reverse).2.acceptNewVotes = some next' ∧ next'.head = siblingRoot 1 ∧
      ¬ IsLatestVote (heardOf anchorSsz (siblingRun inTurn.reverse).1) 0 (next'.activeVote 0) ∧
      next'.head ≠ next.head := by
  obtain ⟨next, haccept⟩ := Option.isSome_iff_exists.mp
    (by decide +kernel : (siblingRun inTurn).2.acceptNewVotes.isSome = true)
  obtain ⟨next', haccept'⟩ := Option.isSome_iff_exists.mp
    (by decide +kernel : (siblingRun inTurn.reverse).2.acceptNewVotes.isSome = true)
  have hhead : (siblingRun inTurn).2.acceptNewVotes.map (·.head) = some (siblingRoot 2) := by
    decide +kernel
  have hhead' : (siblingRun inTurn.reverse).2.acceptNewVotes.map (·.head) =
      some (siblingRoot 1) := by
    decide +kernel
  have hlate : ∀ vote ∈ (siblingRun inTurn.reverse).2.acceptNewVotes.map (·.activeVote 0),
      ¬ IsLatestVote (heardOf anchorSsz (siblingRun inTurn.reverse).1) 0 vote := by
    decide +kernel
  rw [haccept, Option.map_some, some_inj] at hhead
  rw [haccept', Option.map_some, some_inj] at hhead'
  refine ⟨next, next', Run.of_play (by decide +kernel), Run.of_play (by decide +kernel), haccept,
    hhead, haccept', hhead', hlate _ (by rw [haccept']; rfl), ?_⟩
  rw [hhead, hhead']
  decide +kernel

end Runs

end Peam
