import Peam.Import
import Peam.Laws.FileStore
import Peam.Laws.Identity

/-!
# The three views after an import

A fetched chain is imported over the live state, the store and the fork choice (`Together` relates
them). Two things pull the store away from the live state. `put_backfill_signed_block` makes every
block it writes the head of the store, where its sibling for gossip asks whether the block is as far
as the live state. And the live state takes part only at the end, so an import that fails half way
leaves it where it was.

So the relations survive only if nothing is written, or the chain replays to its end and reaches
past the live state (`importBackfillChain_together_iff`).
-/

namespace Peam

open Loops (iterate_keeps foldlM_keeps)
open Calls (Outcome)
open Calls.Attempt (Returns returns_bind returns_pure returns_ofLoop not_returns_throw)
open Option (bind_eq_some_iff some_inj)

variable {r : Bytes32} {forkChoice : Option ForkChoiceStore} {final : Replay}

/-! ## The blocks of a fork choice

On any tree, reachable or not: what an operation that returns leaves in the block table. -/

namespace ForkChoiceStore

variable {ssz : Ssz} {store store' : ForkChoiceStore}

variable {root : Bytes32}

private theorem applyVoteDelta_blocks {delta : Int}
    (h : store.applyVoteDelta root delta = some store') : store'.blocks = store.blocks := by
  unfold applyVoteDelta at h
  split at h
  · cases h
    rfl
  · obtain ⟨nodes, -, h⟩ := bind_eq_some_iff.mp h
    cases h
    rfl

private theorem setLatestVote_blocks {validatorId : Nat}
    (h : store.setLatestVote validatorId root = some store') : store'.blocks = store.blocks := by
  unfold setLatestVote at h
  dsimp only at h
  split at h
  · cases h
    rfl
  · split at h
    · obtain ⟨mid, hmid, h⟩ := bind_eq_some_iff.mp h
      exact (applyVoteDelta_blocks h).trans ((applyVoteDelta_blocks hmid).trans rfl)
    · exact (applyVoteDelta_blocks h).trans rfl

private theorem applyAttestationVotes_blocks {attestation : Attestation}
    {disposition : VoteDisposition}
    (h : store.applyAttestationVotes attestation disposition = some store') :
    store'.blocks = store.blocks := by
  unfold applyAttestationVotes at h
  split at h
  · cases h
    rfl
  · cases disposition with
    | active =>
      exact foldlM_keeps (fun next => next.blocks = store.blocks)
        (fun _ _ _ hsame hstep => (setLatestVote_blocks hstep).trans hsame) _ rfl h
    | pending =>
      cases h
      rfl

private theorem insertProtoNode_blocks {parentRoot : Bytes32} {slot proposerIndex : Nat}
    (h : store.insertProtoNode root parentRoot slot proposerIndex = some store') :
    store'.blocks = store.blocks := by
  unfold insertProtoNode at h
  split at h
  · cases h
    rfl
  · obtain ⟨attached, -, h⟩ := bind_eq_some_iff.mp h
    obtain ⟨nodes, -, h⟩ := bind_eq_some_iff.mp h
    cases h
    rfl

private theorem refreshSafeTarget_blocks (h : store.refreshSafeTarget = some store') :
    store'.blocks = store.blocks := by
  unfold refreshSafeTarget at h
  split at h
  · cases h
    rfl
  · obtain ⟨best, -, h⟩ := bind_eq_some_iff.mp h
    cases h
    rfl

private theorem settleHead_blocks {oldHead : Bytes32} (h : store.settleHead oldHead = some store') :
    store'.blocks = store.blocks := by
  obtain ⟨reorg, -, h⟩ := bind_eq_some_iff.mp h
  exact (refreshSafeTarget_blocks h).trans rfl

private theorem importHead_blocks (head root : Bytes32) (slot : Nat) :
    (store.importHead head root slot).blocks = store.blocks := by
  unfold importHead moveHead
  repeat' split
  all_goals rfl

private theorem adoptCheckpoints_blocks (postState : State) :
    (store.adoptCheckpoints postState).blocks = store.blocks := by
  unfold adoptCheckpoints
  dsimp only
  repeat' split
  all_goals rfl

private theorem resetHead_blocks (head : Bytes32) :
    (store.resetHead head).blocks = store.blocks := by
  unfold resetHead
  split <;> rfl

/-- Every block of the table is one of `old`. -/
def Within (old store : ForkChoiceStore) : Prop :=
  ∀ ⦃r signed⦄, store.blocks.lookup r = some signed → old.blocks.lookup r = some signed

private theorem addKept_blocks (root : Bytes32) (parentIdx : Option Nat)
    (signed : SignedBlockWithAttestation) (state : State) :
    (store.addKept root parentIdx signed state).blocks = store.blocks.insert root signed := by
  unfold addKept
  cases parentIdx <;> rfl

private theorem rebuild_within {kept : List Bytes32} {finalizedRoot : Bytes32}
    (h : store.rebuild kept finalizedRoot = some store') : Within store store' := by
  obtain ⟨rebuilt, hrun, h⟩ := bind_eq_some_iff.mp h
  have within : Within store rebuilt := by
    refine iterate_keeps (fun state : List (Bytes32 × Option Nat) × ForkChoiceStore =>
      Within store state.2) (Within store) ?_ ?_ ?_ hrun
    · rintro ⟨stack, partly⟩ next inv hturn
      cases stack with
      | nil => cases hturn
      | cons entry stack =>
        unfold rebuildTurn at hturn
        dsimp only at hturn
        split at hturn
        · cases hturn
          exact inv
        · split at hturn
          · rename_i signed state hblock hstate
            cases hturn
            intro r other hother
            rw [addKept_blocks] at hother
            rcases lookup_insert_some.mp hother with ⟨rfl, rfl⟩ | ⟨-, hother⟩
            · exact hblock
            · exact inv hother
          · cases hturn
            exact inv
    · rintro ⟨stack, partly⟩ result inv hturn
      cases stack with
      | nil =>
        cases hturn
        exact inv
      | cons entry stack =>
        unfold rebuildTurn at hturn
        dsimp only at hturn
        split at hturn
        · cases hturn
        · split at hturn <;> cases hturn
    · intro r signed hr
      cases hr
  cases h
  exact within

private theorem pruneFinalizedHistory_within (h : store.pruneFinalizedHistory = some store') :
    Within store store' := by
  unfold pruneFinalizedHistory at h
  dsimp only at h
  split at h
  · cases h
    exact fun _ _ hr => hr
  · obtain ⟨kept, -, h⟩ := bind_eq_some_iff.mp h
    obtain ⟨rebuilt, hrebuild, h⟩ := bind_eq_some_iff.mp h
    obtain ⟨latestVotes, -, h⟩ := bind_eq_some_iff.mp h
    obtain ⟨latestNewVotes, -, h⟩ := bind_eq_some_iff.mp h
    obtain ⟨voted, hvoted, h⟩ := bind_eq_some_iff.mp h
    obtain ⟨head, -, h⟩ := bind_eq_some_iff.mp h
    have hsame : voted.blocks = rebuilt.blocks :=
      foldlM_keeps (fun next => next.blocks = rebuilt.blocks)
        (fun _ _ _ hsame hstep => (applyVoteDelta_blocks hstep).trans hsame) _ rfl hvoted
    have hblocks : store'.blocks = rebuilt.blocks := by
      rw [refreshSafeTarget_blocks h, resetHead_blocks]
      exact hsame
    intro r signed hr
    rw [hblocks] at hr
    exact rebuild_within hrebuild hr

/-- **An import adds the block under its root and nothing else.** -/
theorem onBlock_blocks {signed : SignedBlockWithAttestation} {postState : State}
    (h : store.onBlock ssz signed postState = some (.ok store'))
    {other : SignedBlockWithAttestation} (hr : store'.blocks.lookup r = some other) :
    store.blocks.lookup r = some other ∨
      r = signed.message.block.hashTreeRoot ssz ∧ other = signed := by
  unfold onBlock importBlockInternal at h
  split at h
  · obtain ⟨imported, himport, heq⟩ := Option.map_eq_some_iff.mp h
    cases heq
    obtain ⟨entered, hentered, himport⟩ := bind_eq_some_iff.mp himport
    obtain ⟨voted, hvoted, himport⟩ := bind_eq_some_iff.mp himport
    have hentered' : entered.blocks =
        store.blocks.insert (signed.message.block.hashTreeRoot ssz) signed :=
      insertProtoNode_blocks hentered
    have hvoted' : voted.blocks = entered.blocks :=
      foldlM_keeps (fun next => next.blocks = entered.blocks)
        (fun _ _ _ hsame hstep => (applyAttestationVotes_blocks hstep).trans hsame) _ rfl hvoted
    have within : Within (voted.adoptCheckpoints postState) store' := by
      dsimp only at himport
      split at himport
      · obtain ⟨pruned, hpruned, himport⟩ := bind_eq_some_iff.mp himport
        obtain ⟨head, -, himport⟩ := bind_eq_some_iff.mp himport
        intro r signed hr
        rw [settleHead_blocks himport, importHead_blocks] at hr
        exact pruneFinalizedHistory_within hpruned hr
      · obtain ⟨kept, hkept, himport⟩ := bind_eq_some_iff.mp himport
        obtain ⟨head, -, himport⟩ := bind_eq_some_iff.mp himport
        cases hkept
        intro r signed hr
        rw [settleHead_blocks himport, importHead_blocks] at hr
        exact hr
    have hr := within hr
    rw [adoptCheckpoints_blocks, hvoted', hentered'] at hr
    rcases lookup_insert_some.mp hr with ⟨hroot, hr⟩ | ⟨-, hr⟩
    · exact .inr ⟨hroot, hr.symm⟩
    · exact .inl hr
  · cases h

end ForkChoiceStore

/-! ## The relations -/

variable {ssz : Ssz} {verifier : SignatureVerifier}

/-- The root of the live state's latest header. -/
def Views.headRoot (ssz : Ssz) (views : Views) : Bytes32 :=
  views.live.latestBlockHeader.hashTreeRoot ssz

/-- The views belong together: the head of the store is the block of the live state's latest header,
the live state is as far as every block of the fork choice, and the store has the state of each of
them. -/
structure Together (ssz : Ssz) (views : Views) : Prop where
  head : views.store.live.head = some (views.headRoot ssz)
  stored : (views.store.getBlock (views.headRoot ssz)).isSome
  slots : ∀ known ∈ views.forkChoice, ∀ {r signed}, known.blocks.lookup r = some signed →
    signed.message.block.slot ≤ views.live.slot
  states : ∀ known ∈ views.forkChoice, ∀ {r signed}, known.blocks.lookup r = some signed →
    (views.store.loadStateByBlockRoot r).isSome

/-! ## One turn -/

/-- The root a block is imported under. -/
def SignedBlockWithAttestation.root (ssz : Ssz) (signed : SignedBlockWithAttestation) : Bytes32 :=
  signed.message.block.hashTreeRoot ssz

/-- The block is stored already, or it looks like an anchor and the replay is past it. -/
def PassedOver (ssz : Ssz) (store : FileStore) (slot : Nat) (signed : SignedBlockWithAttestation) :
    Prop :=
  (store.getBlock (signed.root ssz)).isSome ∨
    signed.message.block.slot ≤ slot ∧
      (signed.message.block.slot = 0 ∨ signed.message.block.parentRoot = Bytes32.zero)

/-- The block is later than the replay and leads on from the stored state of its parent. -/
def LeadsOn (ssz : Ssz) (verifier : SignatureVerifier) (store : FileStore) (slot : Nat)
    (signed : SignedBlockWithAttestation) : Prop :=
  slot < signed.message.block.slot ∧
    ∃ post, store.replaySignedBlockFromParent ssz verifier signed = .ok post

/-- What a put of backfill writes. -/
theorem putBackfill_ok {store store' : FileStore} {root : Bytes32}
    {signed : SignedBlockWithAttestation} {state post : State} :
    store.putBackfillSignedBlock ssz verifier root signed state = .ok (store', post) ↔
      store.replaySignedBlockFromParent ssz verifier signed = .ok post ∧ state.slot ≤ post.slot ∧
        store' = store.persistSignedBlockBundleFromState root signed post post.latestJustified
          post.latestFinalized := by
  constructor
  · intro h
    obtain ⟨replayed, hreplay, h⟩ := Outcome.bind_ok.mp h
    obtain ⟨⟨⟩, hslot, h⟩ := Outcome.bind_ok.mp h
    cases h
    exact ⟨hreplay, Nat.not_lt.mp (Outcome.failIf_ok.mp hslot), rfl⟩
  · rintro ⟨hreplay, hslot, rfl⟩
    refine Outcome.bind_ok.mpr ⟨post, hreplay, ?_⟩
    exact Outcome.bind_ok.mpr ⟨(), Outcome.failIf_ok.mpr (Nat.not_lt.mpr hslot), rfl⟩

variable {signed : SignedBlockWithAttestation} {post : State} {replay : Replay} {views : Views}

/-- The replay of a block ends with the block's own header, at its slot. -/
theorem replay_header {store : FileStore}
    (h : store.replaySignedBlockFromParent ssz verifier signed = .ok post) :
    post.slot = signed.message.block.slot ∧
      post.latestBlockHeader = signed.message.block.header ssz := by
  unfold FileStore.replaySignedBlockFromParent at h
  split at h
  · cases h
  · split at h
    · cases h
    · rename_i parent hparent replayed hreplay
      cases h
      exact stateTransitionInner_header (processSignedBlock_transition hreplay)

/-- A block has the root of its header. -/
theorem header_root (block : Block) :
    (block.header ssz).hashTreeRoot ssz = block.hashTreeRoot ssz := rfl

/-- The replay after a block is put. -/
def Replay.put (ssz : Ssz) (replay : Replay) (signed : SignedBlockWithAttestation) (post : State)
    (forkChoice : Option ForkChoiceStore) : Replay where
  store := replay.store.persistSignedBlockBundleFromState (signed.root ssz) signed post
    post.latestJustified post.latestFinalized
  forkChoice
  state := post
  imported := replay.imported + 1

/-- **What a turn does**: it passes the block over, or puts it, or ends the import. -/
inductive TurnOf (ssz : Ssz) (verifier : SignatureVerifier) (replay : Replay)
    (signed : SignedBlockWithAttestation) : Option Replay → Prop
  | passed : PassedOver ssz replay.store replay.state.slot signed →
      TurnOf ssz verifier replay signed (some replay)
  | put (post : State) (forkChoice : Option ForkChoiceStore) :
      ¬ PassedOver ssz replay.store replay.state.slot signed →
      replay.state.slot < signed.message.block.slot →
      replay.store.replaySignedBlockFromParent ssz verifier signed = .ok post →
      Returns (noteBlock ssz replay.forkChoice signed post) forkChoice →
      TurnOf ssz verifier replay signed (some (replay.put ssz signed post forkChoice))
  | refused : ¬ PassedOver ssz replay.store replay.state.slot signed →
      ¬ LeadsOn ssz verifier replay.store replay.state.slot signed →
      TurnOf ssz verifier replay signed none

/-- What one turn of the import loop leaves. -/
theorem importTurn_cases {turn : Option Replay}
    (h : Returns (importTurn ssz verifier replay signed) turn) :
    TurnOf ssz verifier replay signed turn := by
  unfold importTurn at h
  dsimp only at h
  split at h
  · rename_i stored
    cases returns_pure.mp h
    exact .passed (.inl stored)
  · rename_i unstored
    split at h
    · rename_i past
      split at h
      · rename_i anchorLike
        cases returns_pure.mp h
        exact .passed (.inr ⟨past, anchorLike⟩)
      · rename_i ordinary
        cases returns_pure.mp h
        refine .refused ?_ fun leads => absurd leads.1 (Nat.not_lt.mpr past)
        exact fun passed => passed.elim unstored fun anchor => ordinary anchor.2
    · rename_i later
      have hlater : replay.state.slot < signed.message.block.slot := Nat.not_le.mp later
      have notPassed : ¬ PassedOver ssz replay.store replay.state.slot signed :=
        fun passed => passed.elim unstored fun anchor => later anchor.1
      split at h
      · rename_i text hput
        cases returns_pure.mp h
        refine .refused notPassed fun ⟨_, post, hreplay⟩ => ?_
        have hslot : replay.state.slot ≤ post.slot := by
          rw [(replay_header hreplay).1]
          exact hlater.le
        cases hput.symm.trans (putBackfill_ok.mpr ⟨hreplay, hslot, rfl⟩)
      · exact absurd h not_returns_throw
      · rename_i store state hput
        obtain ⟨hreplay, -, rfl⟩ := putBackfill_ok.mp hput
        obtain ⟨forkChoice, hnote, h⟩ := returns_bind.mp h
        cases returns_pure.mp h
        exact .put _ _ notPassed hlater hreplay hnote

/-! ## The loop -/

/-- The first block that is not passed over, if there is one, is refused. -/
def Idle (ssz : Ssz) (verifier : SignatureVerifier) (store : FileStore) (slot : Nat) :
    List SignedBlockWithAttestation → Prop
  | [] => True
  | signed :: rest =>
    (PassedOver ssz store slot signed → Idle ssz verifier store slot rest) ∧
      (¬ PassedOver ssz store slot signed → ¬ LeadsOn ssz verifier store slot signed)

/-- Every block in turn is passed over or leads on, and the replay ends at the last slot. -/
inductive ReplaysTo (ssz : Ssz) (verifier : SignatureVerifier) :
    FileStore → Nat → List SignedBlockWithAttestation → Nat → Prop
  | nil {store : FileStore} {slot : Nat} : ReplaysTo ssz verifier store slot [] slot
  | pass {store : FileStore} {slot reached : Nat} {signed : SignedBlockWithAttestation}
      {rest : List SignedBlockWithAttestation} : PassedOver ssz store slot signed →
      ReplaysTo ssz verifier store slot rest reached →
      ReplaysTo ssz verifier store slot (signed :: rest) reached
  | put {store : FileStore} {slot reached : Nat} {signed : SignedBlockWithAttestation}
      {rest : List SignedBlockWithAttestation} {post : State} :
      ¬ PassedOver ssz store slot signed → slot < signed.message.block.slot →
      store.replaySignedBlockFromParent ssz verifier signed = .ok post →
      ReplaysTo ssz verifier
        (store.persistSignedBlockBundleFromState (signed.root ssz) signed post
          post.latestJustified post.latestFinalized)
        signed.message.block.slot rest reached →
      ReplaysTo ssz verifier store slot (signed :: rest) reached

/-- The block a loop wrote last. -/
structure Wrote (ssz : Ssz) (start now : Replay) (signed : SignedBlockWithAttestation) : Prop where
  unstored : start.store.getBlock (signed.root ssz) = none
  head : now.store.live.head = some (signed.root ssz)
  stored : (now.store.getBlock (signed.root ssz)).isSome
  slot : now.state.slot = signed.message.block.slot
  header : now.state.latestBlockHeader = signed.message.block.header ssz
  counted : start.imported < now.imported

/-- What a loop leaves of what it found. -/
structure Grown (start now : Replay) : Prop where
  blocks : ∀ {r}, (start.store.getBlock r).isSome → (now.store.getBlock r).isSome
  states : ∀ {r}, (start.store.loadStateByBlockRoot r).isSome →
    (now.store.loadStateByBlockRoot r).isSome
  slot : start.state.slot ≤ now.state.slot
  tree : ∀ known ∈ now.forkChoice, ∀ {r signed}, known.blocks.lookup r = some signed →
    (∃ old ∈ start.forkChoice, old.blocks.lookup r = some signed) ∨
      signed.message.block.slot ≤ now.state.slot ∧ (now.store.loadStateByBlockRoot r).isSome

private theorem Grown.refl (replay : Replay) : Grown replay replay :=
  ⟨id, id, Nat.le_refl _, fun known hknown _ _ hlookup => .inl ⟨known, hknown, hlookup⟩⟩

private theorem Grown.trans {first second third : Replay} (h : Grown first second)
    (h' : Grown second third) : Grown first third where
  blocks hr := h'.blocks (h.blocks hr)
  states hr := h'.states (h.states hr)
  slot := h.slot.trans h'.slot
  tree known hknown r signed hlookup := by
    rcases h'.tree known hknown hlookup with ⟨old, hold, hlookup⟩ | hnew
    · exact (h.tree old hold hlookup).imp_right fun hnew =>
        ⟨hnew.1.trans h'.slot, h'.states hnew.2⟩
    · exact .inr hnew

private theorem isSome_lookup_insert {α : Type} {table : RapidHashMap α} {key : Bytes32} {value : α}
    (h : (table.lookup r).isSome) : ((table.insert key value).lookup r).isSome := by
  rw [AList.lookup_isSome] at h ⊢
  exact (AList.mem_insert _).mpr (.inr h)

private theorem isSome_lookup_insert_self {α : Type} (table : RapidHashMap α) (key : Bytes32)
    (value : α) : ((table.insert key value).lookup key).isSome := by
  rw [AList.lookup_insert]
  rfl

private theorem noteBlock_blocks {noted : Option ForkChoiceStore}
    (h : Returns (noteBlock ssz forkChoice signed post) noted) :
    ∀ known ∈ noted, ∀ {r other}, known.blocks.lookup r = some other →
      (∃ old ∈ forkChoice, old.blocks.lookup r = some other) ∨
        r = signed.root ssz ∧ other = signed := by
  intro known hknown r other hlookup
  unfold noteBlock at h
  cases forkChoice with
  | none =>
    dsimp only at h
    split at h
    · rename_i first hnew
      cases returns_pure.mp h
      cases hknown
      unfold ForkChoiceStore.new at hnew
      dsimp only at hnew
      split at hnew
      · cases hnew
        have hanchor : (AList.insert (signed.root ssz) signed ∅ :
            RapidHashMap SignedBlockWithAttestation).lookup r = some other := hlookup
        rcases lookup_insert_some.mp hanchor with ⟨hr, rfl⟩ | ⟨-, hempty⟩
        · exact .inr ⟨hr, rfl⟩
        · cases hempty
      · cases hnew
    · cases returns_pure.mp h
      cases hknown
  | some old =>
    obtain ⟨outcome, hloop, h⟩ := returns_bind.mp h
    have hblock := returns_ofLoop.mp hloop
    cases outcome with
    | error e =>
      cases returns_pure.mp h
      cases hknown
      exact .inl ⟨known, rfl, hlookup⟩
    | ok next =>
      cases returns_pure.mp h
      cases hknown
      exact (ForkChoiceStore.onBlock_blocks hblock hlookup).imp_left fun h => ⟨old, rfl, h⟩

private theorem grown_put (notPassed : ¬ PassedOver ssz replay.store replay.state.slot signed)
    (later : replay.state.slot < signed.message.block.slot)
    (hreplay : replay.store.replaySignedBlockFromParent ssz verifier signed = .ok post)
    (hnote : Returns (noteBlock ssz replay.forkChoice signed post) forkChoice) :
    Grown replay (replay.put ssz signed post forkChoice) ∧
      Wrote ssz replay (replay.put ssz signed post forkChoice) signed := by
  obtain ⟨hslot, hheader⟩ := replay_header hreplay
  constructor
  · refine ⟨isSome_lookup_insert, isSome_lookup_insert, ?_, fun known hknown r other hlookup => ?_⟩
    · show replay.state.slot ≤ post.slot
      rw [hslot]
      exact later.le
    · rcases noteBlock_blocks hnote known hknown hlookup with hold | ⟨rfl, rfl⟩
      · exact .inl hold
      · exact .inr ⟨hslot.ge, isSome_lookup_insert_self ..⟩
  · refine ⟨?_, rfl, isSome_lookup_insert_self .., hslot, hheader, Nat.lt_succ_self _⟩
    exact Option.not_isSome_iff_eq_none.mp fun stored => notPassed (.inl stored)

private theorem Wrote.after {start mid now : Replay} (grown : Grown start mid)
    (counted : start.imported ≤ mid.imported) (wrote : Wrote ssz mid now signed) :
    Wrote ssz start now signed where
  unstored := by
    refine Option.not_isSome_iff_eq_none.mp fun stored => ?_
    have := grown.blocks stored
    rw [wrote.unstored] at this
    cases this
  head := wrote.head
  stored := wrote.stored
  slot := wrote.slot
  header := wrote.header
  counted := counted.trans_lt wrote.counted

/-- **The loop**: it grows the replay; idle it leaves it alone, and otherwise it wrote something; it
comes to its end when the blocks replay, and then where they replay to. -/
theorem importLoop_spec {blocks : List SignedBlockWithAttestation} {completed : Bool}
    (h : Returns (importLoop ssz verifier blocks replay) (final, completed)) : Grown replay final ∧
      (Idle ssz verifier replay.store replay.state.slot blocks → final = replay) ∧
      (¬ Idle ssz verifier replay.store replay.state.slot blocks →
        ∃ signed, Wrote ssz replay final signed) ∧
      ∀ reached, ReplaysTo ssz verifier replay.store replay.state.slot blocks reached ↔
        completed = true ∧ final.state.slot = reached := by
  induction blocks generalizing replay with
  | nil =>
    cases returns_pure.mp h
    refine ⟨.refl _, fun _ => rfl, fun busy => absurd trivial busy, fun reached => ?_⟩
    constructor
    · intro replays
      cases replays
      exact ⟨rfl, rfl⟩
    · rintro ⟨-, rfl⟩
      exact .nil
  | cons signed rest ih =>
    obtain ⟨turn, hturn, h⟩ := returns_bind.mp h
    cases importTurn_cases hturn with
    | passed passed =>
      obtain ⟨grown, idle, busy, replays⟩ := ih h
      refine ⟨grown, fun hidle => idle (hidle.1 passed), fun hbusy => busy fun hrest => ?_,
        fun reached => ?_⟩
      · exact hbusy ⟨fun _ => hrest, fun notPassed => absurd passed notPassed⟩
      · rw [← replays]
        constructor
        · intro hreplays
          cases hreplays with
          | pass _ hrest => exact hrest
          | put notPassed => exact absurd passed notPassed
        · exact .pass passed
    | put post forkChoice notPassed later hreplay hnote =>
      obtain ⟨grown, idle, busy, replays⟩ := ih h
      obtain ⟨put, wrote⟩ := grown_put notPassed later hreplay hnote
      have leads : LeadsOn ssz verifier replay.store replay.state.slot signed :=
        ⟨later, _, hreplay⟩
      refine ⟨put.trans grown, fun hidle => absurd leads (hidle.2 notPassed), fun _ => ?_,
        fun reached => ?_⟩
      · -- the last block written is this one, unless a later one follows
        by_cases hrest : Idle ssz verifier (replay.put ssz signed post forkChoice).store
            (replay.put ssz signed post forkChoice).state.slot rest
        · rw [idle hrest]
          exact ⟨signed, wrote⟩
        · obtain ⟨later, hlater⟩ := busy hrest
          exact ⟨later, hlater.after put (Nat.le_succ _)⟩
      · rw [← replays]
        have hslot := (replay_header hreplay).1
        constructor
        · intro hreplays
          cases hreplays with
          | pass passed => exact absurd passed notPassed
          | put _ _ hreplay' hrest =>
            cases hreplay.symm.trans hreplay'
            rw [← hslot] at hrest
            exact hrest
        · intro hrest
          refine .put notPassed later hreplay ?_
          rw [← hslot]
          exact hrest
    | refused notPassed notLeading =>
      cases returns_pure.mp h
      refine ⟨.refl _, fun _ => rfl, fun hbusy => ?_, fun reached => ?_⟩
      · exact absurd ⟨fun passed => absurd passed notPassed, fun _ => notLeading⟩ hbusy
      · refine iff_of_false (fun hreplays => ?_) fun hdone => by cases hdone.1
        cases hreplays with
        | pass passed => exact notPassed passed
        | put _ later hreplay => exact notLeading ⟨later, _, hreplay⟩

/-! ## The merge -/

/-- A later replay replaces the live state, except for checkpoints that would go back. -/
theorem mergeReplay_of_later {live replay : State} (later : live.slot < replay.slot) :
    mergeReplay ssz live replay =
      { replay with
        latestJustified :=
          if replay.latestJustified.slot < live.latestJustified.slot then live.latestJustified
          else replay.latestJustified
        latestFinalized :=
          if replay.latestFinalized.slot < live.latestFinalized.slot then live.latestFinalized
          else replay.latestFinalized } := by
  have hextends : replayExtendsLive ssz live replay = true := if_pos later
  have hslot : ¬ replay.slot < live.slot := Nat.not_lt.mpr later.le
  unfold mergeReplay
  rw [if_pos hextends]
  dsimp only
  rw [if_neg hslot]

private theorem mergeReplay_root {live replay : State} (notLater : ¬ live.slot < replay.slot) :
    (mergeReplay ssz live replay).latestBlockHeader.hashTreeRoot ssz =
      live.latestBlockHeader.hashTreeRoot ssz := by
  unfold mergeReplay
  by_cases hextends : replayExtendsLive ssz live replay = true
  · rw [if_pos hextends]
    unfold replayExtendsLive at hextends
    rw [if_neg notLater] at hextends
    split at hextends
    · rename_i heq
      have hslot : ¬ replay.slot < live.slot := heq.not_lt
      dsimp only
      rw [if_neg hslot]
      exact of_decide_eq_true hextends
    · cases hextends
  · rw [if_neg hextends]
    dsimp only
    rw [if_neg (Nat.lt_irrefl _)]

/-! ## The import -/

/-- The slot the replay of a fetched chain starts at. -/
def replaySlot (ssz : Ssz) (views : Views) (fetched : List SignedBlockWithAttestation) : Nat :=
  match fetched.getLast? with
  | none => views.live.slot
  | some oldest => (replayStart ssz views.live views.store oldest.message.block).value.slot

private theorem together_of_later {state : State} (before : Together ssz views)
    (grown : Grown ⟨views.store, views.forkChoice, state, 0⟩ final)
    (wrote : Wrote ssz ⟨views.store, views.forkChoice, state, 0⟩ final signed)
    (later : views.live.slot < final.state.slot) : Together ssz
      { live := mergeReplay ssz views.live final.state
        store := final.store
        forkChoice := final.forkChoice } := by
  have hmerged := @mergeReplay_of_later ssz views.live final.state later
  have hslot : (mergeReplay ssz views.live final.state).slot = final.state.slot := by rw [hmerged]
  have hheader : (mergeReplay ssz views.live final.state).latestBlockHeader =
      final.state.latestBlockHeader := by rw [hmerged]
  have hroot : (mergeReplay ssz views.live final.state).latestBlockHeader.hashTreeRoot ssz =
      signed.root ssz := by
    rw [hheader, wrote.header]
    rfl
  refine ⟨?_, ?_, fun known hknown r other hlookup => ?_, fun known hknown r other hlookup => ?_⟩
  · show final.store.live.head = some _
    rw [Views.headRoot, hroot]
    exact wrote.head
  · show (final.store.getBlock _).isSome
    rw [Views.headRoot, hroot]
    exact wrote.stored
  · show _ ≤ (mergeReplay ssz views.live final.state).slot
    rw [hslot]
    rcases grown.tree known hknown hlookup with ⟨old, hold, hlookup⟩ | hnew
    · exact (before.slots old hold hlookup).trans later.le
    · exact hnew.1
  · rcases grown.tree known hknown hlookup with ⟨old, hold, hlookup⟩ | hnew
    · exact grown.states (before.states old hold hlookup)
    · exact hnew.2

/-- **When an import keeps the views together**: exactly when the first block it does not pass over
is refused, or the chain replays to its end and past the live state. -/
theorem importBackfillChain_together_iff (ssz : Ssz) (verifier : SignatureVerifier)
    (views after : Views) (fetched : List SignedBlockWithAttestation) (result : Option Nat)
    (before : Together ssz views)
    (returns : Returns (importBackfillChain ssz verifier views fetched) (result, after)) :
    Together ssz after ↔
      Idle ssz verifier views.store (replaySlot ssz views fetched) fetched.reverse ∨
        ∃ reached, ReplaysTo ssz verifier views.store (replaySlot ssz views fetched)
          fetched.reverse reached ∧ views.live.slot < reached := by
  unfold importBackfillChain at returns
  split at returns
  · rename_i hnone
    cases returns_pure.mp returns
    rw [List.getLast?_eq_none_iff.mp hnone]
    exact iff_of_true before (.inl trivial)
  · rename_i oldest holdest
    obtain ⟨⟨final, completed⟩, hloop, returns⟩ := returns_bind.mp returns
    obtain ⟨grown, idle, busy, replays⟩ := importLoop_spec hloop
    unfold replaySlot
    rw [holdest]
    dsimp only at idle busy replays returns ⊢
    by_cases hidle : Idle ssz verifier views.store
        (replayStart ssz views.live views.store oldest.message.block).value.slot fetched.reverse
    · have hafter : after = views := by
        rw [idle hidle] at returns
        dsimp only at returns
        split at returns
        · cases returns_pure.mp returns
          rfl
        · cases returns_pure.mp returns
          rfl
      rw [hafter]
      exact iff_of_true before (.inl hidle)
    obtain ⟨signed, wrote⟩ := busy hidle
    have hne : signed.root ssz ≠ views.headRoot ssz := by
      intro heq
      have hstored := before.stored
      rw [← heq, wrote.unstored] at hstored
      cases hstored
    split at returns
    · -- the import ended half way, and the live state is where it was
      rename_i hopen
      cases returns_pure.mp returns
      refine iff_of_false (fun together => ?_) ?_
      · exact hne (some_inj.mp (wrote.head.symm.trans together.head))
      · rintro (h | ⟨reached, hreplays, -⟩)
        · exact hidle h
        · exact hopen ((replays reached).mp hreplays).1
    · rename_i hdone
      have hcompleted : completed = true := not_not.mp hdone
      rw [if_neg wrote.counted.ne'] at returns
      cases returns_pure.mp returns
      by_cases later : views.live.slot < final.state.slot
      · refine iff_of_true ?_ (.inr ⟨_, (replays _).mpr ⟨hcompleted, rfl⟩, later⟩)
        exact together_of_later before grown wrote later
      · refine iff_of_false (fun together => ?_) ?_
        · have hroot := @mergeReplay_root ssz views.live final.state later
          refine hne (some_inj.mp (wrote.head.symm.trans (together.head.trans ?_)))
          exact congrArg some hroot
        · rintro (h | ⟨reached, hreplays, hlater⟩)
          · exact hidle h
          · exact later (((replays reached).mp hreplays).2 ▸ hlater)

/-! ## A chain ahead of the live state, and one behind it -/

/-- A node that starts from genesis. -/
def genesisViews : Views :=
  match seedAnchorStoreAndForkChoice anchorSsz FileStore.fresh anchorGenesis with
  | .ok (store, live, forkChoice) => ⟨live, store, some forkChoice⟩
  | .error _ => ⟨anchorGenesis, FileStore.fresh, none⟩

/-- The views after an import, if it returns. -/
def viewsAfter (views : Views) (fetched : List SignedBlockWithAttestation) : Option Nat × Views :=
  (importBackfillChain anchorSsz noopSignatureVerifier views fetched).value?.getD (none, views)

/-- The blocks of a plan from genesis, newest first. -/
def fetchedPlan (plan : List PlannedBlock) : List SignedBlockWithAttestation :=
  (buildBlocks anchorSsz noopSignatureVerifier plan anchorGenesis).reverse

def aheadPlan : List PlannedBlock := [⟨1, []⟩, ⟨3, []⟩]

/-- The node once it has fetched blocks at slots 1 and 3. -/
def aheadViews : Views := (viewsAfter genesisViews (fetchedPlan aheadPlan)).2

/-- A block at slot 2 beside the one at slot 3. -/
def besideBlock : List SignedBlockWithAttestation := (fetchedPlan [⟨1, []⟩, ⟨2, []⟩]).take 1

private theorem returns_viewsAfter {fetched : List SignedBlockWithAttestation}
    (h : (importBackfillChain anchorSsz noopSignatureVerifier views fetched).value?.isSome = true) :
    Returns (importBackfillChain anchorSsz noopSignatureVerifier views fetched)
      ((viewsAfter views fetched).1, (viewsAfter views fetched).2) :=
  Calls.Attempt.returns_getD h

private theorem together_of_entries (head : views.store.live.head = some (views.headRoot ssz))
    (stored : (views.store.getBlock (views.headRoot ssz)).isSome)
    (entries : ∀ known ∈ views.forkChoice.toList, ∀ entry ∈ known.blocks.entries,
      entry.2.message.block.slot ≤ views.live.slot ∧
        (views.store.loadStateByBlockRoot entry.1).isSome = true) : Together ssz views := by
  have listed {known : ForkChoiceStore} (hknown : known ∈ views.forkChoice) {r : Bytes32}
      {signed : SignedBlockWithAttestation} (h : known.blocks.lookup r = some signed) :=
    entries known (Option.mem_toList.mpr hknown) ⟨r, signed⟩ (List.of_mem_dlookup h)
  exact ⟨head, stored, fun _ hknown _ _ hlookup => (listed hknown hlookup).1,
    fun _ hknown _ _ hlookup => (listed hknown hlookup).2⟩

private theorem together_genesisViews : Together anchorSsz genesisViews :=
  together_of_entries (by decide +kernel) (by decide +kernel) (by decide +kernel)

/-- A chain ahead of the live state takes it along. -/
theorem importBackfillChain_together_iff_ahead :
    Together anchorSsz genesisViews ∧
      (Together anchorSsz aheadViews ↔
        Idle anchorSsz noopSignatureVerifier genesisViews.store
            (replaySlot anchorSsz genesisViews (fetchedPlan aheadPlan))
            (fetchedPlan aheadPlan).reverse ∨
          ∃ reached, ReplaysTo anchorSsz noopSignatureVerifier genesisViews.store
            (replaySlot anchorSsz genesisViews (fetchedPlan aheadPlan))
            (fetchedPlan aheadPlan).reverse reached ∧ genesisViews.live.slot < reached) ∧
      Together anchorSsz aheadViews := by
  refine ⟨together_genesisViews, ?_, ?_⟩
  · exact importBackfillChain_together_iff anchorSsz noopSignatureVerifier genesisViews aheadViews
      (fetchedPlan aheadPlan) _ together_genesisViews (returns_viewsAfter (by decide +kernel))
  · exact together_of_entries (by decide +kernel) (by decide +kernel) (by decide +kernel)

/-- **A chain behind the live state takes the head of the store back.** The node is at slot 3; a
block at slot 2 on the same parent becomes the store's head, and the live state stays. -/
theorem besideBlock_moves_head :
    Together anchorSsz aheadViews ∧
      Returns (importBackfillChain anchorSsz noopSignatureVerifier aheadViews besideBlock)
        ((viewsAfter aheadViews besideBlock).1, (viewsAfter aheadViews besideBlock).2) ∧
      ¬ Together anchorSsz (viewsAfter aheadViews besideBlock).2 := by
  refine ⟨?_, returns_viewsAfter (by decide +kernel), fun together => ?_⟩
  · exact together_of_entries (by decide +kernel) (by decide +kernel) (by decide +kernel)
  · exact absurd together.head (by decide +kernel)

end Peam
