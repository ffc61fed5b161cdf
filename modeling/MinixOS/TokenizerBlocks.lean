import MinixOS.QueueBlocks
import MinixOS.TokenizerConservation
import MinixOS.TokenizerForest

/-!
# The queue that the tokenizer leaves

The tokenizer calls `qenqueue` and asks the queue for nothing but its first node. So the nodes are
where the arguments of the calls put them, and each text is what is read of its block: the command
that was passed, if the block has room for its terminator.
-/
namespace MinixOS.TokenizerBlocks
open LoopExecution CheckedExecution StableQueues CommandQueue Tokenizer TokenizerConservation
  TokenizerForest QueueBlocks

/-! ## The calls -/

/-- After one more call of `malloc` or `free`. -/
def called (q : BlockQueue) : BlockQueue := { q with calls := q.calls + 1 }

def enqueueBlocks (a : Allocator) (calls : List QueueNode) (q : BlockQueue) : BlockQueue :=
  calls.foldl (fun q call => QueueBlocks.qenqueue a call.command call.priority q) q

/-- The function `tokenizer` with the blocks of the queue. `token` is allocated before the calls of
`qenqueue` and freed after them. -/
def tokenizer (a : Allocator) (fuel : ℕ) (before argv : List UInt8) (stack : Stack)
    (q : BlockQueue) : Except Stop (Outcome × BlockQueue) := do
  let out ← Tokenizer.tokenizer fuel before argv stack q.arguments
  let calls := qenqueueCalls fuel before argv stack q.arguments
  return (out, called (enqueueBlocks a calls (called q)))

variable {a : Allocator} {q : BlockQueue} {before argv : List UInt8} {stack : Stack}
  {out : Outcome}

theorem arguments_enqueueBlocks (a : Allocator) (calls : List QueueNode) (q : BlockQueue) :
    (enqueueBlocks a calls q).arguments = enqueueCalls calls q.arguments := by
  induction calls generalizing q with
  | nil => rfl
  | cons call calls ih =>
      have hrest := ih (QueueBlocks.qenqueue a call.command call.priority q)
      rw [arguments_qenqueue] at hrest
      exact hrest

theorem allMade_enqueueBlocks (h : AllMade a q) (calls : List QueueNode) :
    AllMade a (enqueueBlocks a calls q) := by
  induction calls generalizing q with
  | nil => exact h
  | cons call calls ih => exact ih (h.enqueue call.command call.priority)

/-- What was enqueued is read as it was passed where there is room for it. -/
theorem strings_called (h : AllMade a q) (hroom : AllRoom a.room q.arguments.first) :
    (called q).strings a = q.arguments.first := by
  have hcalled : AllMade a (called q) := fun node hnode =>
    ⟨(h node hnode).size, (h node hnode).time.trans (Nat.le_succ _)⟩
  exact hcalled.strings hroom

/-- It is not after one more call where there is no room. -/
theorem allRoom_of_strings (h : AllMade a q) (hbehind : ∀ time now, a.behind time now ≠ [])
    (hstrings : (called q).strings a = q.arguments.first) :
    AllRoom a.room q.arguments.first := by
  intro node hnode
  obtain ⟨blockNode, hblock, rfl⟩ := List.mem_map.mp hnode
  have hsame : blockNode.string a (called q).calls = blockNode.argument :=
    List.map_inj_left.mp hstrings blockNode hblock
  by_contra hnot
  exact (h blockNode hblock).string_ne hnot (Nat.lt_succ_self _) (hbehind _ _)
    (congrArg QueueNode.command hsame)

/-- The call returns with the blocks as well. -/
theorem tokenizer_comes (a : Allocator) (q : BlockQueue)
    (h : ComesTo (fun fuel => Tokenizer.tokenizer fuel before argv stack q.arguments) out) :
    ∃ calls, out.scan.queue = enqueueCalls calls q.arguments ∧
      ComesTo (fun fuel => tokenizer a fuel before argv stack q)
        (out, called (enqueueBlocks a calls (called q))) := by
  obtain ⟨enough, hcomes⟩ := h
  refine ⟨qenqueueCalls enough before argv stack q.arguments,
    queue_of_calls (hcomes enough (le_refl _)), enough, fun fuel hle => ?_⟩
  have hfirst := hcomes enough (le_refl _)
  unfold Tokenizer.tokenizer at hfirst
  obtain ⟨last, hloop, _⟩ := bind_eq_ok.mp hfirst
  have hcalls : qenqueueCalls fuel before argv stack q.arguments =
      qenqueueCalls enough before argv stack q.arguments := by
    unfold qenqueueCalls
    rw [← Nat.add_sub_of_le hle]
    exact observed_mono (loop_eq_ok.mp hloop) _
  have hcall : Tokenizer.tokenizer fuel before argv stack q.arguments = .ok out := hcomes fuel hle
  unfold tokenizer
  dsimp only
  rw [hcall, ok_bind, hcalls]
  rfl

/-- So it does with an empty queue. -/
theorem tokenizer_blocks (a : Allocator) (q : BlockQueue)
    (h : ComesTo (fun fuel => Tokenizer.tokenizer fuel before argv stack qcreate) out) :
    ∃ t, ComesTo (fun fuel => tokenizer a fuel before argv stack (QueueBlocks.qcreate q))
        (out, called t) ∧ t.arguments = out.scan.queue ∧ AllMade a t := by
  obtain ⟨calls, hqueue, hcomes⟩ := tokenizer_comes a (QueueBlocks.qcreate q) h
  have hempty : AllMade a (called (QueueBlocks.qcreate q)) := fun _ hnode =>
    absurd hnode List.not_mem_nil
  refine ⟨_, hcomes, ?_, allMade_enqueueBlocks hempty calls⟩
  rw [arguments_enqueueBlocks]
  exact hqueue.symm

/-! ## Canonical lines -/

/-- The canonical line of the forest is tokenized without a message, and every command is read in
the queue once. -/
def Queues (a : Allocator) (f : Forest) (before : List UInt8) (s : Stack) (q : BlockQueue) : Prop :=
  ∃ out t, ComesTo (fun fuel => tokenizer a fuel before f.line (screate s) (QueueBlocks.qcreate q))
      (out, t) ∧
    out.scan.log = [] ∧ out.scan.inputvalidity = true ∧ t.strings a = f.byDepth

theorem allRoom_byDepth {f : Forest} (hdepth : f.depth ≤ MAXSIZE) {room : ℕ → ℕ} :
    AllRoom room f.byDepth ↔ ∀ c ∈ f.commands 0, HasRoom room c.2 := by
  have hperm := (f.stable_byDepth hdepth).perm
  constructor
  · exact fun h c hc => h (entry c) (hperm.mem_iff.mpr (List.mem_map_of_mem hc))
  · intro h node hnode
    obtain ⟨c, hc, rfl⟩ := List.mem_map.mp (hperm.mem_iff.mp hnode)
    exact h c hc

/-- The list of the arguments is right for every forest. -/
theorem forest_comes (f : Forest) (hdepth : f.depth ≤ MAXSIZE) (before : List UInt8) (s : Stack) :
    ∃ out, ComesTo (fun fuel => Tokenizer.tokenizer fuel before f.line (screate s) qcreate) out ∧
      out.scan.log = [] ∧ out.scan.inputvalidity = true ∧ out.scan.queue.first = f.byDepth := by
  obtain ⟨fuel, out, hout, hlog, hvalid, hqueue, _⟩ := tokenizer_forest f hdepth before s
  refine ⟨out, ?_, hlog, hvalid, hqueue⟩
  unfold Tokenizer.tokenizer at hout ⊢
  obtain ⟨last, hloop, hrest⟩ := bind_eq_ok.mp hout
  exact (comesTo_of_leaves (leaves_of_loop hloop)).bind ⟨0, fun _ _ => hrest⟩

theorem queues_of_room {f : Forest} (hdepth : f.depth ≤ MAXSIZE)
    (hroom : ∀ c ∈ f.commands 0, HasRoom a.room c.2) (before : List UInt8) (s : Stack)
    (q : BlockQueue) : Queues a f before s q := by
  obtain ⟨out, hout, hlog, hvalid, hqueue⟩ := forest_comes f hdepth before s
  obtain ⟨t, ht, harguments, hmade⟩ := tokenizer_blocks a q hout
  rw [← harguments] at hqueue
  have hstrings := strings_called hmade (hqueue ▸ (allRoom_byDepth hdepth).mpr hroom)
  exact ⟨out, called t, ht, hlog, hvalid, hstrings.trans hqueue⟩

/-- Where there is no room for a terminator, and no null byte stands behind the blocks, the
text of a command is not right. -/
theorem Queues.room {f : Forest} (hdepth : f.depth ≤ MAXSIZE) {s : Stack}
    (h : Queues a f before s q) (hbehind : ∀ time now, a.behind time now ≠ []) :
    ∀ c ∈ f.commands 0, HasRoom a.room c.2 := by
  obtain ⟨out, t, ht, _, _, hright⟩ := h
  obtain ⟨out', hout', _, _, hqueue⟩ := forest_comes f hdepth before s
  obtain ⟨t', ht', harguments, hmade⟩ := tokenizer_blocks a q hout'
  cases ht.unique ht'
  rw [← harguments] at hqueue
  have hroom := allRoom_of_strings hmade hbehind (hright.trans hqueue.symm)
  exact (allRoom_byDepth hdepth).mp (hqueue ▸ hroom)

/-- The commands are in the queue, whatever stands behind the blocks, exactly if each
block has room for the terminator of its command. -/
theorem forest_queued_iff (f : Forest) (hdepth : f.depth ≤ MAXSIZE) (room : ℕ → ℕ)
    (enough : ∀ n, n ≤ room n) (before : List UInt8) (s : Stack) (q : BlockQueue) :
    (∀ behind, Queues ⟨room, enough, behind⟩ f before s q) ↔
      ∀ c ∈ f.commands 0, HasRoom room c.2 := by
  constructor
  · intro h
    exact (h fun _ _ => [33]).room hdepth fun _ _ => List.cons_ne_nil _ _
  · exact fun hroom behind => queues_of_room hdepth hroom before s q

def threeCommands : Forest :=
  let pq : Command := ⟨[[112], [113]], by decide, by decide +kernel, [112, 32], 113, rfl, rfl⟩
  let r : Command := ⟨[[114]], by decide, by decide +kernel, [], 114, rfl, rfl⟩
  let s : Command := ⟨[[115]], by decide, by decide +kernel, [], 115, rfl, rfl⟩
  .beside (.group (.beside (.group (.command pq)) (.command r))) (.command s)

/-- The line `((p q),r),s,`. -/
theorem forest_queued_three :
    ∃ out t, ComesTo (fun fuel => tokenizer chunks fuel []
        [40, 40, 112, 32, 113, 41, 44, 114, 41, 44, 115, 44]
        (screate ⟨Vector.replicate MAXSIZE .null, 0⟩) (QueueBlocks.qcreate emptyQueue)) (out, t) ∧
      out.scan.log = [] ∧ out.scan.inputvalidity = true ∧
      t.strings chunks = [⟨[112, 32, 113], 253⟩, ⟨[114], 254⟩, ⟨[115], 255⟩] :=
  (forest_queued_iff threeCommands (by decide) chunks.room chunks.enough [] _ emptyQueue).mpr (by decide)
    chunks.behind

def lettersB : Forest :=
  let letters : Command := ⟨[.replicate 24 97], by decide, by decide +kernel, .replicate 23 97, 97,
    rfl, rfl⟩
  let b : Command := ⟨[[98]], by decide, by decide +kernel, [], 98, rfl, rfl⟩
  .beside (.command letters) (.command b)

/-- The line of a command of 24 letters and `b`. The block of the first one is full. -/
theorem forest_queued_fails :
    ¬ ∀ f : Forest, f.depth ≤ MAXSIZE → ∀ before s q, Queues chunks f before s q := by
  intro h
  have hqueues := h lettersB (by decide) [] ⟨Vector.replicate MAXSIZE .null, 0⟩ emptyQueue
  have hroom := hqueues.room (by decide) fun _ _ => List.cons_ne_nil _ _
  exact absurd hroom (by decide)

end MinixOS.TokenizerBlocks
