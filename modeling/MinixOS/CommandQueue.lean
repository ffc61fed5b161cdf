import MinixOS.StableQueues
import Mathlib.Algebra.Order.Group.Unbundled.Int
import Mathlib.Data.Int.Notation
import Mathlib.Data.Nat.Notation

/-!
# The command queue of the shell

The functions of queuestruct.c, as far as they move nodes. The chain of nodes behind `first` is the
list of them, and NULL ends it. A string is the list of its bytes in front of the terminator, and
`command` is here the string that `qenqueue` was called with. What is read of its copy in memory
depends on the block it was copied to, and is in `QueueBlocks`.

The chain is the stable arrangement of the commands that wait: by priority number, and the
earlier one first among equals.
-/
namespace MinixOS.CommandQueue
open StableQueues

structure QueueNode where
  command : List UInt8
  priority : ℤ
deriving DecidableEq, Repr

/-- The globals `first` and `count`. -/
structure Queue where
  first : List QueueNode
  count : ℤ
deriving DecidableEq, Repr

inductive Output where
  | printf (format : String)
deriving DecidableEq, Repr

structure Dequeued where
  queue : Queue
  log : List Output
  dqcmd : Option (List UInt8)
deriving DecidableEq, Repr

def qcreate : Queue := { first := [], count := 0 }

def firstelement (q : Queue) : List QueueNode := q.first

section Chain
variable {N : Type*} (priority : N → ℤ)

/-- The `while` loop of `qenqueue`, with `qcmd` at a node in front of the list, and the
two assignments behind the loop. -/
def linkBehind (newnode qcmd : N) : List N → List N
  | [] => [qcmd, newnode]
  | next :: rest =>
      if priority next ≤ priority newnode then qcmd :: linkBehind newnode next rest
      else qcmd :: newnode :: next :: rest

/-- What `qenqueue` does with its new node. -/
def linkNode (newnode : N) : List N → List N
  | [] => [newnode]
  | first :: rest =>
      if priority newnode < priority first then newnode :: first :: rest
      else linkBehind priority newnode first rest

theorem linkBehind_eq (newnode qcmd : N) (rest : List N) :
    linkBehind priority newnode qcmd rest = qcmd :: insertBehind priority newnode rest := by
  unfold insertBehind
  induction rest generalizing qcmd with
  | nil => rfl
  | cons next rest ih =>
      rw [linkBehind, List.orderedInsert_cons]
      split_ifs with hle hlt
      · omega
      · rw [ih]
      · rfl
      · omega

theorem linkNode_eq (newnode : N) (chain : List N) :
    linkNode priority newnode chain = insertBehind priority newnode chain := by
  cases chain with
  | nil => rfl
  | cons first rest =>
      simp only [linkNode, linkBehind_eq, insertBehind, List.orderedInsert_cons]

end Chain

def qenqueue (command : List UInt8) (priority : ℤ) (q : Queue) : Queue :=
  let newnode : QueueNode := { command := command, priority := priority }
  { first := linkNode QueueNode.priority newnode q.first, count := q.count + 1 }

def qdequeue (q : Queue) : Dequeued :=
  match q.first with
  | [] =>
      { queue := q, log := [.printf "Error: Cannot dequeue from empty queue.\n"], dqcmd := none }
  | dqnode :: rest =>
      { queue := { first := rest, count := q.count - 1 }, log := [], dqcmd := some dqnode.command }

/-- Every node of the list passed is freed and counted off. -/
def qdelete (qcmdlist : List QueueNode) (q : Queue) : Queue :=
  { first := [], count := q.count - qcmdlist.length }

/-! ## Enqueueing -/

theorem qenqueue_first (command : List UInt8) (priority : ℤ) (q : Queue) :
    (qenqueue command priority q).first =
      insertBehind QueueNode.priority ⟨command, priority⟩ q.first :=
  linkNode_eq QueueNode.priority _ q.first

theorem length_insertBehind (node : QueueNode) (l : List QueueNode) :
    (insertBehind QueueNode.priority node l).length = l.length + 1 :=
  List.orderedInsert_length _ l node

/-! ## What is kept -/

/-- The invariant of the queue. -/
def Kept (waiting : List QueueNode) (q : Queue) : Prop :=
  Stable QueueNode.priority waiting q.first ∧ q.count = q.first.length

variable {q : Queue} {l : List QueueNode}

theorem Kept.enqueue (h : Kept l q) (command : List UInt8) (priority : ℤ) :
    Kept (l ++ [⟨command, priority⟩]) (qenqueue command priority q) := by
  constructor
  · rw [qenqueue_first]
    exact h.1.insert _
  · rw [qenqueue_first, length_insertBehind]
    have hcount := h.2
    change q.count + 1 = _
    push_cast
    omega

theorem Kept.dequeue (h : Kept l q) :
    Kept (withoutEarliest QueueNode.priority l) (qdequeue q).queue ∧
      (qdequeue q).dqcmd = (earliest QueueNode.priority l).map QueueNode.command := by
  obtain ⟨hstable, hcount⟩ := h
  unfold qdequeue
  cases hq : q.first with
  | nil =>
      rw [hq] at hstable
      have hl : l = [] := hstable.perm.symm.eq_nil
      have hempty : Stable QueueNode.priority [] q.first := by
        rw [hq]
        exact stable_nil
      rw [hl]
      exact ⟨⟨hempty, hcount⟩, rfl⟩
  | cons dqnode rest =>
      rw [hq] at hstable hcount
      constructor
      · constructor
        · exact hstable.tail
        · simp only [List.length_cons] at hcount
          push_cast at hcount
          simp only [hcount]
          omega
      · rw [hstable.earliest_eq]
        rfl

end MinixOS.CommandQueue
