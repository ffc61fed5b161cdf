import MinixOS.CommandQueue
import MinixOS.SystemRuns

/-!
# The texts of the queue in memory

`qenqueue` and `qdequeue` allocate `strlen` bytes for the copy of a command, and `strcpy` puts its
terminator behind them. `malloc` may have given a block with more bytes. Where it has not, the
terminator stands in memory that is not of the block, and is there only until `malloc` or `free` is
called again. From then on the string ends where the memory behind the block happens to have
a null byte.

In every run of enqueues and dequeues in which each command that is enqueued finds room for its
terminator, the chain is the stable arrangement of the commands that wait.
-/
namespace MinixOS.QueueBlocks
open StableQueues SystemRuns CommandQueue

/-! ## Blocks -/

/-- What is not in the source: how many bytes the block of `malloc(n)` has, and what stands behind
a block, up to a null byte. A block is told by the number of calls of `malloc` and `free` in front
of its copy, and what stands behind it depends on the number of those calls so far. -/
structure Allocator where
  room : ℕ → ℕ
  enough : ∀ n, n ≤ room n
  behind : ℕ → ℕ → List UInt8

/-- The terminator of the text is in the block that `malloc(strlen)` gives for it. -/
def HasRoom (room : ℕ → ℕ) (text : List UInt8) : Prop := text.length < room text.length

instance (room : ℕ → ℕ) (text : List UInt8) : Decidable (HasRoom room text) :=
  inferInstanceAs (Decidable (text.length < room text.length))

/-- A block of so many bytes, the string that was copied to it, and when. -/
structure Block where
  copied : List UInt8
  size : ℕ
  time : ℕ
deriving DecidableEq, Repr

/-- The string that is read in the block after so many calls of `malloc` and `free`. -/
def Block.string (a : Allocator) (now : ℕ) (block : Block) : List UInt8 :=
  if block.copied.length < block.size ∨ now ≤ block.time then block.copied
  else block.copied.take block.size ++ a.behind block.time now

/-- The block was given for the string that was copied to it. -/
structure Block.Made (a : Allocator) (now : ℕ) (block : Block) : Prop where
  size : block.size = a.room block.copied.length
  time : block.time ≤ now

section Strings
variable {a : Allocator} {now : ℕ} {block : Block}

/-- A string that is terminated in its block is read as it was copied. -/
theorem Block.Made.string (h : block.Made a now) (hroom : HasRoom a.room block.copied)
    (later : ℕ) : block.string a later = block.copied := by
  apply if_pos
  left
  rw [h.size]
  exact hroom

/-- One that is not is read with what stands behind the block. -/
theorem Block.Made.string_ne (h : block.Made a now) (hroom : ¬ HasRoom a.room block.copied)
    {later : ℕ} (hlater : now < later) (hbehind : a.behind block.time later ≠ []) :
    block.string a later ≠ block.copied := by
  have hsize : block.copied.length ≤ block.size := by
    rw [h.size]
    exact a.enough _
  have hnot : ¬ (block.copied.length < block.size ∨ later ≤ block.time) := by
    rw [h.size]
    have htime := h.time
    rintro (hlt | hle)
    · exact hroom hlt
    · omega
  intro hsame
  unfold Block.string at hsame
  rw [if_neg hnot, List.take_of_length_le hsize] at hsame
  exact hbehind (List.append_right_eq_self.mp hsame)

end Strings

/-! ## queuestruct.c -/

structure BlockNode where
  command : Block
  priority : ℤ
deriving DecidableEq, Repr

/-- The globals `first` and `count`, and the number of calls of `malloc` and `free` so far. -/
structure BlockQueue where
  first : List BlockNode
  count : ℤ
  calls : ℕ
deriving DecidableEq, Repr

structure Taken where
  queue : BlockQueue
  log : List Output
  dqcmd : Option Block
deriving DecidableEq, Repr

def qcreate (q : BlockQueue) : BlockQueue := { q with first := [], count := 0 }

/-- The node is allocated, and then the block for `command`. -/
def qenqueue (a : Allocator) (command : List UInt8) (priority : ℤ) (q : BlockQueue) : BlockQueue :=
  let block : Block :=
    { copied := command, size := a.room command.length, time := q.calls + 2 }
  let newnode : BlockNode := { command := block, priority := priority }
  { first := linkNode BlockNode.priority newnode q.first, count := q.count + 1
    calls := q.calls + 2 }

/-- The string in `dqnode` is read for `strlen`, and once more by `strcpy` after `malloc`. Then the
node is freed, and its string is not. -/
def qdequeue (a : Allocator) (q : BlockQueue) : Taken :=
  match q.first with
  | [] =>
      { queue := q, log := [.printf "Error: Cannot dequeue from empty queue.\n"], dqcmd := none }
  | dqnode :: rest =>
      let length := (dqnode.command.string a q.calls).length
      let dqcmd : Block :=
        { copied := dqnode.command.string a (q.calls + 1), size := a.room length
          time := q.calls + 1 }
      { queue := { first := rest, count := q.count - 1, calls := q.calls + 2 }, log := []
        dqcmd := some dqcmd }

/-- What `qdequeue` returns, as it is read afterwards. -/
def Taken.string (a : Allocator) (taken : Taken) : Option (List UInt8) :=
  taken.dqcmd.map (Block.string a taken.queue.calls)

/-! ## What is read -/

/-- The node as it is read now. -/
def BlockNode.string (a : Allocator) (now : ℕ) (node : BlockNode) : QueueNode :=
  ⟨node.command.string a now, node.priority⟩

def BlockQueue.strings (a : Allocator) (q : BlockQueue) : List QueueNode :=
  q.first.map (BlockNode.string a q.calls)

/-- The node with the string that it was made for. -/
def BlockNode.argument (node : BlockNode) : QueueNode := ⟨node.command.copied, node.priority⟩

def BlockQueue.arguments (q : BlockQueue) : Queue :=
  { first := q.first.map BlockNode.argument, count := q.count }

variable {a : Allocator} {q : BlockQueue} {l : List QueueNode}

/-- The nodes are linked as their arguments say. -/
theorem arguments_qenqueue (a : Allocator) (command : List UInt8) (priority : ℤ) (q : BlockQueue) :
    (qenqueue a command priority q).arguments =
      CommandQueue.qenqueue command priority q.arguments := by
  have hpriority : ∀ node : BlockNode, node.argument.priority = node.priority := fun _ => rfl
  unfold qenqueue CommandQueue.qenqueue BlockQueue.arguments
  simp only [linkNode_eq, map_insertBehind hpriority]
  rfl

theorem arguments_qdequeue (a : Allocator) (q : BlockQueue) :
    (qdequeue a q).queue.arguments = (CommandQueue.qdequeue q.arguments).queue ∧
      (qdequeue a q).log = (CommandQueue.qdequeue q.arguments).log := by
  unfold qdequeue CommandQueue.qdequeue BlockQueue.arguments
  cases hq : q.first with
  | nil =>
      rw [hq]
      exact ⟨rfl, rfl⟩
  | cons dqnode rest => exact ⟨rfl, rfl⟩

theorem mem_qenqueue {command : List UInt8} {priority : ℤ} {node : BlockNode} :
    node ∈ (qenqueue a command priority q).first ↔
      node = ⟨⟨command, a.room command.length, q.calls + 2⟩, priority⟩ ∨ node ∈ q.first := by
  unfold qenqueue
  simp only [linkNode_eq, insertBehind, List.mem_orderedInsert]

/-- The blocks of the queue were given for the strings that were copied to them. -/
def AllMade (a : Allocator) (q : BlockQueue) : Prop :=
  ∀ node ∈ q.first, node.command.Made a q.calls

/-- Each string that was passed finds room for its terminator. -/
def AllRoom (room : ℕ → ℕ) (nodes : List QueueNode) : Prop :=
  ∀ node ∈ nodes, HasRoom room node.command

theorem AllMade.enqueue (h : AllMade a q) (command : List UInt8) (priority : ℤ) :
    AllMade a (qenqueue a command priority q) := by
  intro node hnode
  rcases mem_qenqueue.mp hnode with rfl | hnode
  · exact ⟨rfl, le_refl _⟩
  · exact ⟨(h node hnode).size, (h node hnode).time.trans (Nat.le_add_right _ _)⟩

theorem AllMade.dequeue (h : AllMade a q) : AllMade a (qdequeue a q).queue := by
  obtain ⟨first, count, calls⟩ := q
  cases first with
  | nil => exact h
  | cons dqnode rest =>
      intro node hnode
      have hmade := h node (List.mem_cons_of_mem _ hnode)
      exact ⟨hmade.size, hmade.time.trans (Nat.le_add_right _ _)⟩

/-- Where there is room the strings are those that were passed. -/
theorem AllMade.strings (h : AllMade a q) (hroom : AllRoom a.room q.arguments.first) :
    q.strings a = q.arguments.first := by
  apply List.map_congr_left
  intro node hnode
  have hstring := (h node hnode).string (hroom _ (List.mem_map_of_mem hnode)) q.calls
  unfold BlockNode.string BlockNode.argument
  rw [hstring]

/-- A dequeue returns the string that was passed. -/
theorem AllMade.string_qdequeue (h : AllMade a q) (hroom : AllRoom a.room q.arguments.first) :
    (qdequeue a q).string a = (CommandQueue.qdequeue q.arguments).dqcmd := by
  obtain ⟨first, count, calls⟩ := q
  cases first with
  | nil => rfl
  | cons dqnode rest =>
      have hmade := h dqnode List.mem_cons_self
      have hfits : HasRoom a.room dqnode.command.copied := hroom _ List.mem_cons_self
      have hcopy : Block.Made a (calls + 1)
          ⟨dqnode.command.copied, a.room dqnode.command.copied.length, calls + 1⟩ :=
        ⟨rfl, le_refl _⟩
      have hstring : (qdequeue a ⟨dqnode :: rest, count, calls⟩).string a =
          some (Block.string a (calls + 2)
            ⟨dqnode.command.string a (calls + 1), a.room (dqnode.command.string a calls).length,
              calls + 1⟩) := rfl
      rw [hstring, hmade.string hfits, hmade.string hfits, hcopy.string hfits]
      rfl

/-! ## Runs -/

inductive Request where
  | qenqueue (command : List UInt8) (priority : ℤ)
  | qdequeue
deriving DecidableEq, Repr

/-- What was printed, and the string returned. -/
structure Answer where
  log : List Output
  dqcmd : Option (List UInt8)
deriving DecidableEq, Repr

def execute (a : Allocator) : Request → BlockQueue → Answer × BlockQueue
  | .qenqueue command priority, q => (⟨[], none⟩, qenqueue a command priority q)
  | .qdequeue, q =>
      (⟨(qdequeue a q).log, (qdequeue a q).string a⟩, (qdequeue a q).queue)

def system (a : Allocator) (start : BlockQueue) : System BlockQueue Request Answer where
  init := qcreate start
  returns q call answer q' := execute a call q = (answer, q')

abbrev Call := Step BlockQueue Request Answer

variable {start : BlockQueue}

theorem replay_run (calls : List Request) {history history' : List Call} {q q' : BlockQueue}
    (hr : Run (system a start) history q)
    (h : replay (fun call q => some (execute a call q)) calls history q = some (history', q')) :
    Run (system a start) history' q' :=
  hr.replay Option.some.inj calls h

/-- What one more call does to the sequence of the waiting commands. -/
def advance (waiting : List QueueNode) : Request → List QueueNode
  | .qenqueue command priority => waiting ++ [⟨command, priority⟩]
  | .qdequeue => withoutEarliest QueueNode.priority waiting

/-- The commands enqueued and not yet dequeued, in the order of their enqueueing. A
dequeue takes the first of those with the smallest priority number. -/
def waiting : List Call → List QueueNode
  | [] => []
  | e :: history => advance (waiting history) e.call

/-- The chain holds the waiting commands by priority, the earlier one first among
equals, and a dequeue returns the earliest of the smallest priority number. -/
structure Arranges (a : Allocator) (waiting : List QueueNode) (q : BlockQueue) : Prop where
  sorted : (q.strings a).Pairwise fun m n => m.priority ≤ n.priority
  fifo : ∀ p, (q.strings a).filter (fun m => m.priority = p) =
    waiting.filter fun m => m.priority = p
  exact : (q.strings a).Perm waiting
  count : q.count = q.first.length
  dequeue : (qdequeue a q).string a = (earliest QueueNode.priority waiting).map QueueNode.command

/-- The command that the call enqueues, if any, finds room for its terminator. -/
def FindsRoom (room : ℕ → ℕ) : Request → Prop
  | .qenqueue command _ => HasRoom room command
  | .qdequeue => True

instance (room : ℕ → ℕ) : DecidablePred (FindsRoom room)
  | .qenqueue command _ => inferInstanceAs (Decidable (HasRoom room command))
  | .qdequeue => inferInstanceAs (Decidable True)

/-- The invariant of the queue: the strings that were passed are arranged, and are there. -/
structure Sound (a : Allocator) (waiting : List QueueNode) (q : BlockQueue) : Prop where
  kept : Kept waiting q.arguments
  made : AllMade a q
  room : AllRoom a.room waiting

theorem Sound.allRoom (h : Sound a l q) : AllRoom a.room q.arguments.first := fun node hnode =>
  h.room node (h.kept.1.perm.mem_iff.mp hnode)

theorem Sound.next (h : Sound a l q) {call : Request} (hroom : FindsRoom a.room call) :
    Sound a (advance l call) (execute a call q).2 := by
  cases call with
  | qenqueue command priority =>
      constructor
      · change Kept _ (qenqueue a command priority q).arguments
        rw [arguments_qenqueue]
        exact h.kept.enqueue command priority
      · exact h.made.enqueue command priority
      · intro node hnode
        rcases List.mem_append.mp hnode with hnode | hnode
        · exact h.room node hnode
        · rw [List.mem_singleton.mp hnode]
          exact hroom
  | qdequeue =>
      constructor
      · change Kept _ (qdequeue a q).queue.arguments
        rw [(arguments_qdequeue a q).1]
        exact h.kept.dequeue.1
      · exact h.made.dequeue
      · exact fun node hnode => h.room node (List.mem_of_mem_eraseP hnode)

theorem sound_run {history : List Call} (hr : Run (system a start) history q)
    (hroom : ∀ e ∈ history, FindsRoom a.room e.call) : Sound a (waiting history) q := by
  have hinit : Sound a (waiting []) (qcreate start) := ⟨⟨stable_nil, rfl⟩, nofun, nofun⟩
  refine hr.guarded_invariant (I := fun history q => Sound a (waiting history) q) hinit ?_ hroom
  intro history s call answer t _ ih hs hfits
  have hnext := ih.next hfits
  change execute a call s = (answer, t) at hs
  rw [hs] at hnext
  exact hnext

theorem Sound.arranges (h : Sound a l q) : Arranges a l q := by
  have hstrings := h.made.strings h.allRoom
  have hcount := h.kept.2
  constructor
  · rw [hstrings]
    exact h.kept.1.sorted
  · rw [hstrings]
    exact h.kept.1.fifo
  · rw [hstrings]
    exact h.kept.1.perm
  · change q.count = (q.first.map BlockNode.argument).length at hcount
    rw [hcount, List.length_map]
  · rw [h.made.string_qdequeue h.allRoom]
    exact h.kept.dequeue.2

/-- In a run in which each command that is enqueued finds room for its terminator. -/
theorem stable_priority_queue {history : List Call} (hr : Run (system a start) history q)
    (hroom : ∀ e ∈ history, FindsRoom a.room e.call) : Arranges a (waiting history) q :=
  (sound_run hr hroom).arranges

/-! ## Blocks of 24 bytes and more -/

/-- Blocks have 24, 40, 56 and so on bytes, and behind a block there is the size of the next one,
of which the first byte is 33 when that is a block of 24. So it is in the C library of GNU on a
machine of 64 bits. -/
def chunks : Allocator where
  room n := max 24 ((n + 23) / 16 * 16 - 8)
  enough n := by omega
  behind _ _ := [33]

def emptyQueue : BlockQueue := { first := [], count := 0, calls := 0 }

/-- Of two commands with the priority number 254 the one enqueued first is taken. -/
theorem stable_priority_queue_five :
    ∃ q : BlockQueue, Arranges chunks [⟨[97], 255⟩, ⟨[99], 254⟩] q ∧
      q.strings chunks = [⟨[99], 254⟩, ⟨[97], 255⟩] := by
  have hr : ∃ (history : List Call) (q : BlockQueue), Run (system chunks emptyQueue) history q ∧
      (∀ e ∈ history, FindsRoom chunks.room e.call) ∧
      waiting history = [⟨[97], 255⟩, ⟨[99], 254⟩] ∧
      q.strings chunks = [⟨[99], 254⟩, ⟨[97], 255⟩] :=
    ⟨_, _, replay_run
      [.qdequeue, .qenqueue [97] 255, .qenqueue [98] 254, .qenqueue [99] 254, .qdequeue]
      .init rfl, by decide, by decide, by decide⟩
  obtain ⟨history, q, hrun, hroom, hwaiting, hstrings⟩ := hr
  have h := stable_priority_queue hrun hroom
  rw [hwaiting] at h
  exact ⟨q, h, hstrings⟩

/-- A command of 24 letters is enqueued and then `b`, and a dequeue returns 25 characters. -/
theorem stable_priority_queue_fails :
    ¬ ∀ history q, Run (system chunks emptyQueue) history q →
      Arranges chunks (waiting history) q := by
  intro h
  have hr : ∃ (history : List Call) (q : BlockQueue), Run (system chunks emptyQueue) history q ∧
      waiting history = [⟨.replicate 24 97, 255⟩, ⟨[98], 255⟩] ∧
      (qdequeue chunks q).string chunks ≠ some (.replicate 24 97) :=
    ⟨_, _, replay_run [.qenqueue (.replicate 24 97) 255, .qenqueue [98] 255] .init rfl,
      by decide, by decide⟩
  obtain ⟨history, q, hrun, hwaiting, hreturned⟩ := hr
  have hdequeue := (h history q hrun).dequeue
  rw [hwaiting] at hdequeue
  exact hreturned hdequeue

end MinixOS.QueueBlocks
