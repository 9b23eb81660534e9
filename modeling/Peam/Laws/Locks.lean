import Peam.Locks

/-!
# Deadlock of the node's tasks

All passes but one take their locks in the order deferred gossip, state, store, fork choice. The
exception is the parent check of the sync task: with the store guard still alive,
`parent_matches_sync_anchor` takes the state. An import that holds the state and asks for the store
then waits for the check, and the check for the import.

A parent check that finds the parent, or a zero parent root, never gets there. Runs in which every
parent check is of that kind have no deadlock, whatever the number of tasks and the interleaving.
-/

namespace Peam

open Locking hiding Task

/-- The place of each lock in the order the imports take them. -/
def Lock.rank : Lock → Nat
  | .deferredGossip => 0
  | .state => 1
  | .store => 2
  | .forkChoice => 3
  | .pendingAttestations => 4
  | .recentRoots => 4

/-- The parent check settles its question without the anchor. -/
def Pass.ParentSettled : Pass → Prop
  | .parentCheck parentRoot known => parentRoot = Bytes32.zero ∨ known = true
  | _ => True

private theorem Attempt.ordered (attempt : Attempt) : Ordered Lock.rank [] attempt.ops := by
  obtain ⟨stored, built, imported⟩ := attempt
  cases stored <;> cases built <;> cases imported <;> decide

private theorem ContextQuery.ordered (query : ContextQuery) : Ordered Lock.rank [] query.ops := by
  cases query with
  | slot => decide
  | knowsBlockRoot direct recent => cases direct <;> cases recent <;> decide

private theorem ContextQuery.above (query : ContextQuery) :
    ∀ op ∈ query.ops, Lock.deferredGossip.rank < op.lock.rank := by
  cases query with
  | slot => decide
  | knowsBlockRoot direct recent => cases direct <;> cases recent <;> decide

/-- **A pass takes its locks in order**, unless it is a parent check that comes to the anchor. -/
theorem Pass.ordered (pass : Pass) (settled : pass.ParentSettled) :
    Ordered Lock.rank [] pass.ops := by
  cases pass with
  | gossipBlock imported => cases imported <;> decide
  | backfillImport fetched => cases fetched <;> decide
  | rangeImport fetched => cases fetched <;> decide
  | parentCheck parentRoot known =>
    have inStore : parentRoot = Bytes32.zero ∨ known = true := settled
    rw [Pass.ops, if_pos inStore]
    decide
  | produce attempts =>
    have first : Ordered Lock.rank [] (guarding .state .read []) := by decide
    exact first.append (.flatMap Attempt.ordered _)
  | lifecycle unresolved => cases unresolved <;> decide
  | loadAttestationData initialized => cases initialized <;> decide
  | proposalHead => decide
  | readState => decide
  | buildStatus => decide
  | serveBlocks => decide
  | validate queries => exact .flatMap ContextQuery.ordered queries
  | deferGossip => decide
  | retryDeferred queries =>
    refine .guarding .write (.flatMap ContextQuery.ordered queries) fun op h => ?_
    obtain ⟨query, -, hop⟩ := List.mem_flatMap.mp h
    exact query.above op hop
  | metrics => decide
  | readForkChoice => decide

/-- **No deadlock while every parent check settles in the store.** -/
theorem no_deadlock_of_parentSettled {ι : Type} [DecidableEq ι] (tasks : ι → Locking.Task Lock)
    (reachable : Reachable (fun ops => ∃ pass : Pass, pass.ParentSettled ∧ pass.ops = ops) tasks) :
    ¬ Deadlock tasks := by
  have ordered : ∀ ops, (∃ pass : Pass, pass.ParentSettled ∧ pass.ops = ops) →
      Ordered Lock.rank [] ops := by
    rintro ops ⟨pass, settled, rfl⟩
    exact pass.ordered settled
  exact reachable.no_deadlock ordered

/-- A gossip import that holds the state and a parent check that holds the store. -/
def crossedTasks (parentRoot : Bytes32) (known : Bool) : Fin 2 → Locking.Task Lock :=
  twoOf ⟨[(.state, .write)], (Pass.gossipBlock true).ops.tail⟩
    ⟨[(.store, .read)], (Pass.parentCheck parentRoot known).ops.tail⟩

private theorem crossedTasks_reachable {lists : List (Op Lock) → Prop} {parentRoot : Bytes32}
    {known : Bool} (gossip : lists (Pass.gossipBlock true).ops)
    (check : lists (Pass.parentCheck parentRoot known).ops) :
    Reachable lists (crossedTasks parentRoot known) :=
  crossed_reachable (by decide) gossip check

/-- The law at an import beside a parent check. -/
theorem no_deadlock_crossedTasks : ¬ Deadlock (crossedTasks 1#256 true) :=
  no_deadlock_of_parentSettled (crossedTasks 1#256 true)
    (crossedTasks_reachable ⟨.gossipBlock true, trivial, rfl⟩
      ⟨.parentCheck 1#256 true, Or.inr rfl, rfl⟩)

/-- **A reachable deadlock.** The parent is neither zero nor in the store, so the check asks for the
state the import holds, and the import asks for the store the check holds. -/
theorem deadlock_of_unknownParent :
    Reachable (fun ops => ∃ pass : Pass, pass.ops = ops) (crossedTasks 1#256 false) ∧
      Deadlock (crossedTasks 1#256 false) := by
  refine ⟨crossedTasks_reachable ⟨_, rfl⟩ ⟨_, rfl⟩, ?_⟩
  exact crossed_deadlock (by decide) (by decide)

end Peam
