import Mathlib.Logic.Relation
import Mathlib.Logic.Function.Basic

/-!
# Reader-writer locks and lock order

Tasks that take and release locks. A lock has many readers or one writer; a request that conflicts
with a holder waits until all conflicting holders have released. A task runs one straight list of
operations after another; a branch on data is a choice between lists.

The rule is the classical one. If every list takes its locks in the order of a rank, no reachable
configuration holds a cycle of tasks each waiting for the next (`Reachable.no_deadlock`). Conversely
two lists whose first locks each is the other's second reach such a cycle (`crossed_reachable`,
`crossed_deadlock`).
-/

namespace Locking

/-- How a lock is held. A mutex is a lock that is only written. -/
inductive Mode where
  | read
  | write
  deriving DecidableEq

/-- Two holders exclude each other unless both read. -/
def Mode.Conflicts (m m' : Mode) : Prop := ¬ (m = .read ∧ m' = .read)
  deriving Decidable

inductive Op (L : Type) where
  | acquire (lock : L) (mode : Mode)
  | release (lock : L)
  deriving DecidableEq

def Op.lock {L : Type} : Op L → L
  | .acquire lock _ => lock
  | .release lock => lock

/-- A guard held around `body`. -/
def guarding {L : Type} (lock : L) (mode : Mode) (body : List (Op L)) : List (Op L) :=
  .acquire lock mode :: body ++ [.release lock]

/-- The locks a task holds and the operations left of its list. -/
structure Task (L : Type) where
  held : List (L × Mode)
  rest : List (Op L)
  deriving DecidableEq

section System

variable {ι L : Type} [DecidableEq ι] [DecidableEq L]

/-- Every task is between two lists. -/
def idle : ι → Task L := fun _ => ⟨[], []⟩

/-- No task holds the lock in a conflicting mode. -/
def Free (tasks : ι → Task L) (lock : L) (mode : Mode) : Prop :=
  ∀ i, ∀ holding ∈ (tasks i).held, holding.1 = lock → ¬ mode.Conflicts holding.2

/-- One task makes one move. `lists` are the operation lists a task may start. -/
inductive Step (lists : List (Op L) → Prop) (tasks : ι → Task L) : (ι → Task L) → Prop where
  | start (i : ι) (ops : List (Op L)) (done : (tasks i).rest = []) (allowed : lists ops) :
    Step lists tasks (Function.update tasks i ⟨(tasks i).held, ops⟩)
  | acquire (i : ι) (lock : L) (mode : Mode) (rest : List (Op L))
    (next : (tasks i).rest = .acquire lock mode :: rest) (free : Free tasks lock mode) :
    Step lists tasks (Function.update tasks i ⟨(lock, mode) :: (tasks i).held, rest⟩)
  | release (i : ι) (lock : L) (rest : List (Op L))
    (next : (tasks i).rest = .release lock :: rest) :
    Step lists tasks
      (Function.update tasks i ⟨(tasks i).held.filter fun holding => holding.1 ≠ lock, rest⟩)

/-- A configuration some interleaving leads to. -/
def Reachable (lists : List (Op L) → Prop) (tasks : ι → Task L) : Prop :=
  Relation.ReflTransGen (Step lists) idle tasks

omit [DecidableEq ι] [DecidableEq L] in
/-- Task `i` asks for a lock that task `j` holds in a conflicting mode. -/
def Waits (tasks : ι → Task L) (i j : ι) : Prop :=
  ∃ lock mode rest, (tasks i).rest = .acquire lock mode :: rest ∧
    ∃ holding ∈ (tasks j).held, holding.1 = lock ∧ mode.Conflicts holding.2

/-- A cycle of tasks each waiting for the next. -/
def Deadlock (tasks : ι → Task L) : Prop := ∃ i, Relation.TransGen (Waits tasks) i i

/-! ## Lock order -/

variable (rank : L → Nat)

/-- Taken up with these locks held, the list asks only for locks above all it holds, and ends
holding nothing. -/
def Ordered : List (L × Mode) → List (Op L) → Prop
  | held, [] => held = []
  | held, .acquire lock mode :: rest =>
    (∀ holding ∈ held, rank holding.1 < rank lock) ∧ Ordered ((lock, mode) :: held) rest
  | held, .release lock :: rest =>
    Ordered (held.filter fun holding => holding.1 ≠ lock) rest

instance Ordered.decidable : (held : List (L × Mode)) → (ops : List (Op L)) →
    Decidable (Ordered rank held ops)
  | held, [] => inferInstanceAs (Decidable (held = []))
  | held, .acquire lock mode :: rest =>
    have := Ordered.decidable ((lock, mode) :: held) rest
    inferInstanceAs (Decidable (_ ∧ Ordered rank ((lock, mode) :: held) rest))
  | held, .release lock :: rest =>
    Ordered.decidable (held.filter fun holding => holding.1 ≠ lock) rest

variable {rank} {lists : List (Op L) → Prop} {tasks : ι → Task L}

/-- Ordered lists follow one another. -/
theorem Ordered.append {held : List (L × Mode)} {ops ops' : List (Op L)}
    (first : Ordered rank held ops) (second : Ordered rank [] ops') :
    Ordered rank held (ops ++ ops') := by
  induction ops generalizing held with
  | nil =>
    have empty : held = [] := first
    rw [empty]
    exact second
  | cons op rest ih =>
    cases op with
    | acquire lock mode => exact ⟨first.1, ih first.2⟩
    | release lock => exact ih first

/-- Ordered lists one for each element follow one another. -/
theorem Ordered.flatMap {α : Type} {f : α → List (Op L)} (each : ∀ x, Ordered rank [] (f x))
    (xs : List α) : Ordered rank [] (xs.flatMap f) := by
  induction xs with
  | nil => rfl
  | cons x rest ih =>
    rw [List.flatMap_cons]
    exact (each x).append ih

/-- An outermost lock below all others may be held on. -/
private theorem Ordered.under {held : List (L × Mode)} {ops : List (Op L)} {lock : L} {mode : Mode}
    (ordered : Ordered rank held ops) (above : ∀ op ∈ ops, rank lock < rank op.lock) :
    Ordered rank (held ++ [(lock, mode)]) (ops ++ [.release lock]) := by
  induction ops generalizing held with
  | nil =>
    have empty : held = [] := ordered
    simp [empty, Ordered]
  | cons op rest ih =>
    have here := above op List.mem_cons_self
    have later : ∀ op ∈ rest, rank lock < rank op.lock := fun op h =>
      above op (List.mem_cons_of_mem _ h)
    cases op with
    | acquire lock' mode' =>
      refine ⟨fun holding h => ?_, ih ordered.2 later⟩
      rcases List.mem_append.mp h with h | h
      · exact ordered.1 holding h
      · rw [List.mem_singleton.mp h]
        exact here
    | release lock' =>
      have hne : lock ≠ lock' := fun h => by simp [h, Op.lock] at here
      have kept := ih ordered later
      simpa [Ordered, List.filter_append, hne] using kept

/-- **A guard around an ordered list** whose locks are all above its own. -/
theorem Ordered.guarding {ops : List (Op L)} {lock : L} (mode : Mode)
    (ordered : Ordered rank [] ops) (above : ∀ op ∈ ops, rank lock < rank op.lock) :
    Ordered rank [] (guarding lock mode ops) :=
  ⟨List.forall_mem_nil _, ordered.under above⟩

/-- Every task is somewhere inside an ordered list. -/
def AllOrdered (rank : L → Nat) (tasks : ι → Task L) : Prop :=
  ∀ i, Ordered rank (tasks i).held (tasks i).rest

omit [DecidableEq L] in
private theorem forall_update {p : Task L → Prop} {i : ι} {task : Task L}
    (all : ∀ j, p (tasks j)) (new : p task) (j : ι) : p (Function.update tasks i task j) := by
  by_cases h : j = i
  · subst h
    rw [Function.update_self]
    exact new
  · rw [Function.update_of_ne h]
    exact all j

private theorem AllOrdered.step {tasks' : ι → Task L}
    (ordered : ∀ ops, lists ops → Ordered rank [] ops)
    (all : AllOrdered rank tasks) (step : Step lists tasks tasks') : AllOrdered rank tasks' := by
  cases step with
  | start i ops done allowed =>
    have here := all i
    rw [done] at here
    -- A finished list holds nothing, so the next one starts from scratch.
    have empty : (tasks i).held = [] := here
    refine forall_update (p := fun t => Ordered rank t.held t.rest) all ?_
    show Ordered rank (tasks i).held ops
    rw [empty]
    exact ordered ops allowed
  | acquire i lock mode rest next free =>
    have here := all i
    rw [next] at here
    exact forall_update (p := fun t => Ordered rank t.held t.rest) all here.2
  | release i lock rest next =>
    have here := all i
    rw [next] at here
    exact forall_update (p := fun t => Ordered rank t.held t.rest) all here

private theorem Reachable.allOrdered (ordered : ∀ ops, lists ops → Ordered rank [] ops)
    (reachable : Reachable lists tasks) : AllOrdered rank tasks := by
  induction reachable with
  | refl => exact fun _ => rfl
  | tail _ step ih => exact ih.step ordered step

omit [DecidableEq ι] in
/-- A waiting task asks for a lock above all it holds. -/
private theorem AllOrdered.above (all : AllOrdered rank tasks) {i : ι} {lock : L} {mode : Mode}
    {rest : List (Op L)} (asks : (tasks i).rest = .acquire lock mode :: rest)
    {holding : L × Mode} (held : holding ∈ (tasks i).held) : rank holding.1 < rank lock := by
  have here := all i
  rw [asks] at here
  exact here.1 holding held

omit [DecidableEq ι] in
/-- Along a path of waiting tasks the locks asked for rise: whoever holds what I ask for asks for
something above it. -/
private theorem rank_rises (all : AllOrdered rank tasks) {i j : ι}
    (path : Relation.TransGen (Waits tasks) i j) {lock lock' : L} {mode mode' : Mode}
    {rest rest' : List (Op L)} (asks : (tasks i).rest = .acquire lock mode :: rest)
    (asks' : (tasks j).rest = .acquire lock' mode' :: rest') : rank lock < rank lock' := by
  induction path generalizing lock' mode' rest' with
  | single waits =>
    obtain ⟨_, _, _, next, holding, held, same, _⟩ := waits
    rw [asks] at next
    cases next
    exact same ▸ all.above asks' held
  | tail _ waits ih =>
    obtain ⟨between, _, _, next, holding, held, same, _⟩ := waits
    exact Nat.lt_trans (ih next) (same ▸ all.above asks' held)

/-- **Lock order prevents deadlock.** -/
theorem Reachable.no_deadlock (ordered : ∀ ops, lists ops → Ordered rank [] ops)
    (reachable : Reachable lists tasks) : ¬ Deadlock tasks := by
  rintro ⟨i, cycle⟩
  -- The first task of the cycle waits, so it asks for a lock, and that lock is below itself.
  obtain ⟨j, ⟨lock, mode, rest, asks, _⟩, _⟩ := Relation.TransGen.head'_iff.mp cycle
  exact absurd (rank_rises (reachable.allOrdered ordered) cycle asks asks) (Nat.lt_irrefl _)

end System

/-! ## Crossing -/

section Crossing

variable {L : Type} [DecidableEq L] {lists : List (Op L) → Prop} {a b : L} {m n : Mode}
  {ops ops' : List (Op L)}

/-- A configuration of two tasks. -/
def twoOf (first second : Task L) : Fin 2 → Task L
  | 0 => first
  | 1 => second

omit [DecidableEq L] in
private theorem update_first (first second next : Task L) :
    Function.update (twoOf first second) 0 next = twoOf next second := by
  funext i
  match i with
  | 0 => rfl
  | 1 => rfl

omit [DecidableEq L] in
private theorem update_second (first second next : Task L) :
    Function.update (twoOf first second) 1 next = twoOf first next := by
  funext i
  match i with
  | 0 => rfl
  | 1 => rfl

/-- Both tasks get their first lock if these are two locks. -/
theorem crossed_reachable (ne : a ≠ b) (first : lists (.acquire a m :: ops))
    (second : lists (.acquire b n :: ops')) :
    Reachable lists (twoOf ⟨[(a, m)], ops⟩ ⟨[(b, n)], ops'⟩) := by
  have start : (idle : Fin 2 → Task L) = twoOf ⟨[], []⟩ ⟨[], []⟩ := by
    funext i
    match i with
    | 0 => rfl
    | 1 => rfl
  have free : Free (twoOf ⟨[], .acquire a m :: ops⟩ ⟨[], .acquire b n :: ops'⟩) a m := by
    intro i
    match i with
    | 0 => exact List.forall_mem_nil _
    | 1 => exact List.forall_mem_nil _
  have free' : Free (twoOf ⟨[(a, m)], ops⟩ ⟨[], .acquire b n :: ops'⟩) b n := by
    intro i
    match i with
    | 0 => exact List.forall_mem_singleton.mpr fun same => absurd same ne
    | 1 => exact List.forall_mem_nil _
  have one := @Step.start _ L _ _ lists (twoOf ⟨[], []⟩ ⟨[], []⟩) 0 _ rfl first
  rw [update_first] at one
  have two := @Step.start _ L _ _ lists (twoOf ⟨[], .acquire a m :: ops⟩ ⟨[], []⟩) 1 _ rfl second
  rw [update_second] at two
  have three := @Step.acquire _ L _ _ lists _ 0 a m _ rfl free
  rw [update_first] at three
  have four := @Step.acquire _ L _ _ lists _ 1 b n _ rfl free'
  rw [update_second] at four
  unfold Reachable
  rw [start]
  exact (((Relation.ReflTransGen.single one).tail two).tail three).tail four

omit [DecidableEq L] in
/-- **A crossing.** Each of the two asks for the lock the other has. -/
theorem crossed_deadlock {m' n' : Mode} (conflicts : m'.Conflicts n) (conflicts' : n'.Conflicts m) :
    Deadlock (twoOf ⟨[(a, m)], .acquire b m' :: ops⟩ ⟨[(b, n)], .acquire a n' :: ops'⟩) := by
  refine ⟨0, (Relation.TransGen.single (b := 1) ?_).tail ?_⟩
  · exact ⟨b, m', _, rfl, (b, n), List.mem_singleton_self _, rfl, conflicts⟩
  · exact ⟨a, n', _, rfl, (a, m), List.mem_singleton_self _, rfl, conflicts'⟩

end Crossing

end Locking
