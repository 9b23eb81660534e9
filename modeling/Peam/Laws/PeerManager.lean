import Peam.PeerManager

/-!
# Deadlock of the peer manager

`connect` and `disconnect` take the scores while they hold the peers. `decay_and_prune` takes the
scores first and then the peers. Without one of the two sides the rest has a lock order, and no
number of callers can block one another; with both, two callers can
(`peerManager_noDeadlock_iff`).
-/

namespace Peam

open Locking hiding Task

/-- The order of `connect` and `disconnect`. -/
def PeerLock.rank : PeerLock → Nat
  | .peers => 0
  | .scores => 1
  | .backoff => 2

/-- The order of `decay_and_prune`. -/
def PeerLock.pruneRank : PeerLock → Nat
  | .scores => 0
  | .peers => 1
  | .backoff => 2

/-- The call takes the scores with the peers in its hands. -/
def PeerCall.Nests (call : PeerCall) : Prop := call = .connect true ∨ call = .disconnect true

/-- The operation lists of the calls that are made. -/
def peerLists (made : PeerCall → Prop) (ops : List (Op PeerLock)) : Prop :=
  ∃ call, made call ∧ call.ops = ops

variable {call : PeerCall}

private theorem PeerCall.ordered (other : call ≠ .decayAndPrune) :
    Ordered PeerLock.rank [] call.ops := by
  cases call with
  | connect inserted => cases inserted <;> decide
  | disconnect removed => cases removed <;> decide
  | decayAndPrune => exact absurd rfl other
  | scoreDelta => decide
  | score => decide
  | list => decide

private theorem PeerCall.pruneOrdered (flat : ¬ call.Nests) :
    Ordered PeerLock.pruneRank [] call.ops := by
  cases call with
  | connect inserted =>
    cases inserted with
    | false => decide
    | true => exact absurd (.inl rfl) flat
  | disconnect removed =>
    cases removed with
    | false => decide
    | true => exact absurd (.inr rfl) flat
  | decayAndPrune => decide
  | scoreDelta => decide
  | score => decide
  | list => decide

/-- A caller that has the peers, and a pruning one that has the scores. -/
def crossedPeers (call : PeerCall) : Fin 2 → Locking.Task PeerLock :=
  twoOf ⟨[(.peers, .write)], call.ops.tail⟩ ⟨[(.scores, .write)], PeerCall.decayAndPrune.ops.tail⟩

private theorem crossedPeers_deadlock {made : PeerCall → Prop} (nests : call.Nests)
    (nested : made call) (prunes : made .decayAndPrune) :
    Reachable (peerLists made) (crossedPeers call) ∧ Deadlock (crossedPeers call) := by
  obtain rfl | rfl := nests
  · exact ⟨crossed_reachable (by decide) ⟨_, nested, rfl⟩ ⟨_, prunes, rfl⟩,
      crossed_deadlock (by decide) (by decide)⟩
  · exact ⟨crossed_reachable (by decide) ⟨_, nested, rfl⟩ ⟨_, prunes, rfl⟩,
      crossed_deadlock (by decide) (by decide)⟩

/-- **Two lock orders.** Whatever the number of callers, no interleaving of the calls made ends in a
cycle of callers, unless the calls include both `decay_and_prune` and a `connect` or `disconnect`
that changes the set of peers. -/
theorem peerManager_noDeadlock_iff (made : PeerCall → Prop) :
    (∀ (ι : Type) [DecidableEq ι] (tasks : ι → Locking.Task PeerLock),
        Reachable (peerLists made) tasks → ¬ Deadlock tasks) ↔
      ¬ (made .decayAndPrune ∧ ∃ call, made call ∧ call.Nests) := by
  constructor
  · rintro free ⟨prunes, call, nested, nests⟩
    obtain ⟨reachable, deadlock⟩ := crossedPeers_deadlock nests nested prunes
    exact free (Fin 2) (crossedPeers call) reachable deadlock
  · intro apart ι _ tasks reachable
    by_cases prunes : made .decayAndPrune
    · have ordered : ∀ ops, peerLists made ops → Ordered PeerLock.pruneRank [] ops := by
        rintro ops ⟨call, called, rfl⟩
        exact PeerCall.pruneOrdered fun nests => apart ⟨prunes, call, called, nests⟩
      exact reachable.no_deadlock ordered
    · have ordered : ∀ ops, peerLists made ops → Ordered PeerLock.rank [] ops := by
        rintro ops ⟨call, called, rfl⟩
        exact PeerCall.ordered fun same => prunes (same ▸ called)
      exact reachable.no_deadlock ordered

/-- A new peer connects while the scores decay. -/
theorem peerManager_deadlock :
    Reachable (peerLists fun _ => True) (crossedPeers (.connect true)) ∧
      Deadlock (crossedPeers (.connect true)) :=
  crossedPeers_deadlock (.inl rfl) trivial trivial

end Peam
