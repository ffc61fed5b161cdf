import MinixOS.ShellSession
import MinixOS.TokenizerForest

/-!
# The meaning of a script

What a line of commands and parenthesised groups is for, said by recursion on the groups and without
a queue, priorities or characters: the commands that stand deepest are run at once, then those one
level above them, and the commands outside of all parentheses one after the other. In front of each
stage the shell waits for all the commands of the stage before.

A script of such lines that is typed into the shell is run line by line in just this way.
-/
namespace MinixOS.ScriptMeaning
open LoopExecution CheckedExecution SystemRuns StableQueues Tokenizer TokenizerForest ShellExecution
  CommandSplitting ExecutionBarrier CommandLine TypedCommands ShellSession
open CommandQueue
open QueueBlocks (Allocator BlockQueue HasRoom)
open TokenizerBlocks (Queues queues_of_room)

/-! ## Stages -/

/-- The commands at a depth, from left to right. -/
def commandsAt : Forest → ℕ → List Word
  | .command c, 0 => [c.text]
  | .command _, _ + 1 => []
  | .group _, 0 => []
  | .group inner, depth + 1 => commandsAt inner depth
  | .beside left right, depth => commandsAt left depth ++ commandsAt right depth

/-- The stages of the levels from `depth` up to the outermost one. -/
def stagesFrom (f : Forest) : ℕ → List (List Word)
  | 0 => (commandsAt f 0).map fun text => [text]
  | depth + 1 =>
      if commandsAt f (depth + 1) = [] then stagesFrom f depth
      else commandsAt f (depth + 1) :: stagesFrom f depth

/-- What is run one after the other. The commands of one stage are run at once. -/
def stages (f : Forest) : List (List Word) := stagesFrom f f.depth

/-! ## The groups of the queue -/

section Groups
variable {f : Forest} {q : List QueueNode}

theorem le_of_commands (f : Forest) {base : ℕ} : ∀ c ∈ f.commands base, base ≤ c.1 := by
  induction f generalizing base with
  | command c => simp [Forest.commands]
  | group inner ih => exact fun c hc => Nat.le_of_succ_le (ih c hc)
  | beside left right ihl ihr =>
      intro c hc
      rcases List.mem_append.mp hc with hc | hc
      · exact ihl c hc
      · exact ihr c hc

theorem filter_commands (f : Forest) (base depth : ℕ) :
    (f.commands base).filter (fun c => c.1 = base + depth) =
      (commandsAt f depth).map fun text => (base + depth, text) := by
  induction f generalizing base depth with
  | command c =>
      cases depth with
      | zero => simp [Forest.commands, commandsAt]
      | succ depth => simp [Forest.commands, commandsAt]
  | group inner ih =>
      cases depth with
      | zero =>
          apply List.filter_eq_nil_iff.mpr
          intro c hc
          have hle := le_of_commands inner c hc
          rw [decide_eq_true_eq]
          omega
      | succ depth =>
          have hsum : base + (depth + 1) = base + 1 + depth := by omega
          rw [hsum]
          exact ih (base + 1) depth
  | beside left right ihl ihr =>
      simp only [Forest.commands, commandsAt, List.filter_append, ihl, ihr, List.map_append]

/-- Nothing stands deeper than the groups are nested. -/
theorem commandsAt_deep (f : Forest) {depth : ℕ} (h : f.depth < depth) : commandsAt f depth = [] := by
  induction f generalizing depth with
  | command c =>
      cases depth with
      | zero => exact absurd h (Nat.not_lt_zero _)
      | succ depth => rfl
  | group inner ih =>
      cases depth with
      | zero => rfl
      | succ depth => exact ih (Nat.lt_of_succ_lt_succ h)
  | beside left right ihl ihr =>
      obtain ⟨hl, hr⟩ := max_lt_iff.mp h
      rw [commandsAt, ihl hl, ihr hr]
      rfl

/-- The entries of the queue for the commands of a level. -/
def entriesAt (f : Forest) (depth : ℕ) : List QueueNode :=
  (commandsAt f depth).map fun text => ⟨text, 255 - depth⟩

/-- The entries of the levels from `depth` up to the outermost one. -/
def entriesFrom (f : Forest) : ℕ → List QueueNode
  | 0 => entriesAt f 0
  | depth + 1 => entriesAt f (depth + 1) ++ entriesFrom f depth

theorem byDepth_eq (f : Forest) : f.byDepth = entriesFrom f MAXSIZE := by
  have hlevel : ∀ depth, ((f.commands 0).filter fun c => c.1 = depth).map entry =
      entriesAt f depth := by
    intro depth
    have hfilter := filter_commands f 0 depth
    rw [Nat.zero_add] at hfilter
    rw [hfilter, List.map_map]
    rfl
  unfold Forest.byDepth
  simp only [hlevel]
  generalize MAXSIZE = deepest
  induction deepest with
  | zero => simp [entriesFrom]
  | succ deepest ih =>
      rw [List.range_succ, List.reverse_append, List.reverse_singleton, List.singleton_append,
        List.flatMap_cons, ih]
      rfl

theorem mem_entriesFrom {depth : ℕ} {node : QueueNode} (h : node ∈ entriesFrom f depth) :
    ∃ level ≤ depth, node.priority = 255 - level ∧ node.command ∈ commandsAt f level := by
  induction depth with
  | zero =>
      obtain ⟨text, htext, rfl⟩ := List.mem_map.mp h
      exact ⟨0, Nat.le_refl 0, rfl, htext⟩
  | succ depth ih =>
      rcases List.mem_append.mp h with h | h
      · obtain ⟨text, htext, rfl⟩ := List.mem_map.mp h
        exact ⟨depth + 1, Nat.le_refl _, rfl, htext⟩
      · obtain ⟨level, hle, hnode⟩ := ih h
        exact ⟨level, Nat.le_succ_of_le hle, hnode⟩

/-- Outside of all parentheses every command is a group of its own. -/
theorem groups_outermost (texts : List Word) :
    groups (texts.map fun text => ⟨text, 255⟩) = texts.map fun text => [⟨text, 255⟩] := by
  induction texts with
  | nil => rfl
  | cons text texts ih =>
      have htake : takeLevel ⟨text, 255⟩ (texts.map fun text => ⟨text, 255⟩) =
          ([⟨text, 255⟩], texts.map fun text => ⟨text, 255⟩) := by
        cases texts with
        | nil => rfl
        | cons next texts => simp [takeLevel, sameLevel]
      rw [List.map_cons, groups_cons, htake, ih]
      rfl

theorem sameLevel_entriesAt {depth : ℕ} {a b : QueueNode} (ha : a ∈ entriesAt f (depth + 1))
    (hb : b ∈ entriesAt f (depth + 1)) : sameLevel a b = true := by
  obtain ⟨_, _, rfl⟩ := List.mem_map.mp ha
  obtain ⟨_, _, rfl⟩ := List.mem_map.mp hb
  unfold sameLevel
  rw [Bool.and_eq_true, decide_eq_true_eq, decide_eq_true_eq]
  refine ⟨rfl, ?_⟩
  push_cast
  omega

/-- The commands of a deeper level are one group. -/
theorem groups_deeper {depth : ℕ} (hne : commandsAt f (depth + 1) ≠ []) :
    groups (entriesFrom f (depth + 1)) = entriesAt f (depth + 1) :: groups (entriesFrom f depth) := by
  have hentries : entriesAt f (depth + 1) ≠ [] := by
    unfold entriesAt
    rw [ne_eq, List.map_eq_nil_iff]
    exact hne
  have hchain : (entriesAt f (depth + 1)).IsChain fun a b => sameLevel a b = true := by
    apply List.Pairwise.isChain
    exact List.pairwise_of_forall_mem_list fun a ha b hb => sameLevel_entriesAt ha hb
  have hends : ∀ a ∈ (entriesAt f (depth + 1)).getLast?, ∀ b ∈ (entriesFrom f depth).head?,
      sameLevel a b = false := by
    intro a ha b hb
    obtain ⟨_, _, rfl⟩ := List.mem_map.mp (List.mem_of_mem_getLast? ha)
    obtain ⟨level, hle, hpriority, _⟩ := mem_entriesFrom (List.mem_of_mem_head? hb)
    unfold sameLevel
    rw [Bool.and_eq_false_iff, hpriority]
    left
    apply decide_eq_false
    push_cast
    omega
  unfold groups
  rw [entriesFrom, List.splitBy_append hends, List.splitBy_of_isChain hentries hchain]
  rfl

/-- The groups of the queue are the stages. -/
theorem groups_entriesFrom (f : Forest) (depth : ℕ) :
    (groups (entriesFrom f depth)).map (fun g => g.map QueueNode.command) = stagesFrom f depth := by
  induction depth with
  | zero =>
      have houter := groups_outermost (commandsAt f 0)
      change (groups ((commandsAt f 0).map fun text => ⟨text, 255⟩)).map _ = _
      rw [houter, List.map_map]
      rfl
  | succ depth ih =>
      unfold stagesFrom
      split_ifs with hnil
      · have hnone : entriesFrom f (depth + 1) = entriesFrom f depth := by
          rw [entriesFrom, entriesAt, hnil]
          rfl
        rw [hnone, ih]
      · rw [groups_deeper hnil, List.map_cons, ih, entriesAt, List.map_map]
        congr 1
        exact List.map_id _

theorem stagesFrom_deep (f : Forest) {depth : ℕ} (h : f.depth ≤ depth) :
    stagesFrom f depth = stages f := by
  induction depth, h using Nat.le_induction with
  | base => rfl
  | succ depth hle ih =>
      rw [stagesFrom, if_pos (commandsAt_deep f (Nat.lt_succ_of_le hle)), ih]

theorem groups_byDepth (hdepth : f.depth ≤ MAXSIZE) :
    (groups f.byDepth).map (fun g => g.map QueueNode.command) = stages f := by
  rw [byDepth_eq, groups_entriesFrom, stagesFrom_deep f hdepth]

/-- The arrays have room for the words of each command and for the processes of each stage, with one
more behind a stage that is not the last. -/
structure Room (plan : List (List Word)) : Prop where
  commands : ∀ stage ∈ plan, ∀ text ∈ stage, (words text).length < argsSize
  stages : ∀ stage ∈ plan, stage.length ≤ MAX_CMD_NUM
  later : ∀ stage ∈ plan.dropLast, stage.length < MAX_CMD_NUM

theorem groupsFit_iff (gs : List (List QueueNode)) :
    GroupsFit gs ↔ (∀ g ∈ gs, g.length ≤ MAX_CMD_NUM) ∧ ∀ g ∈ gs.dropLast, g.length < MAX_CMD_NUM := by
  induction gs with
  | nil => simp [GroupsFit]
  | cons g gs ih =>
      cases gs with
      | nil => simp [GroupsFit]
      | cons g' gs =>
          rw [GroupsFit, ih, List.dropLast_cons_cons, @List.forall_mem_cons _ _ g,
            @List.forall_mem_cons _ _ g]
          constructor
          · exact fun h => ⟨⟨h.1.le, h.2.1⟩, h.1, h.2.2⟩
          · exact fun h => ⟨h.2.1, h.1.2, h.2.2⟩

theorem terminated_byDepth (hdepth : f.depth ≤ MAXSIZE)
    (hwords : ∀ c ∈ f.commands 0, Terminated (words c.2)) :
    ∀ node ∈ f.byDepth, Terminated (words node.command) := by
  intro node hnode
  rw [(f.stable_byDepth hdepth).perm.mem_iff] at hnode
  obtain ⟨c, hc, rfl⟩ := List.mem_map.mp hnode
  exact hwords c hc

theorem fits_iff_room (hdepth : f.depth ≤ MAXSIZE)
    (hwords : ∀ c ∈ f.commands 0, Terminated (words c.2)) : Fits f.byDepth ↔ Room (stages f) := by
  have hterminated := terminated_byDepth hdepth hwords
  have hfew : (∀ node ∈ f.byDepth, CommandFits node.command) ↔
      ∀ node ∈ f.byDepth, (words node.command).length < argsSize :=
    forall₂_congr fun node hnode =>
      and_iff_left fun w hw => (hterminated node hnode w hw).le
  have hcommands : (∀ node ∈ f.byDepth, CommandFits node.command) ↔
      ∀ stage ∈ stages f, ∀ text ∈ stage, (words text).length < argsSize := by
    rw [hfew, ← groups_byDepth hdepth]
    conv_lhs => rw [← List.flatten_splitBy sameLevel f.byDepth]
    simp only [List.forall_mem_flatten, List.forall_mem_map]
    rfl
  have hlengths : GroupsFit (groups f.byDepth) ↔
      (∀ stage ∈ stages f, stage.length ≤ MAX_CMD_NUM) ∧
        ∀ stage ∈ (stages f).dropLast, stage.length < MAX_CMD_NUM := by
    rw [groupsFit_iff, ← groups_byDepth hdepth, ← List.map_dropLast]
    simp only [List.forall_mem_map, List.length_map]
  unfold ExecutionBarrier.Fits
  rw [hcommands, hlengths]
  exact ⟨fun h => ⟨h.1, h.2.1, h.2.2⟩, fun h => ⟨h.commands, h.stages, h.later⟩⟩

theorem mem_byDepth {node : QueueNode} (h : node ∈ f.byDepth) :
    ∃ depth, node.command ∈ commandsAt f depth := by
  rw [byDepth_eq] at h
  obtain ⟨depth, _, _, htext⟩ := mem_entriesFrom h
  exact ⟨depth, htext⟩

end Groups

/-! ## Texts -/

section Texts
variable {f : Forest} {c : UInt8} {text : Word}

theorem mem_spaced {words : List (List UInt8)} (h : c ∈ spaced words) :
    c = blank ∨ ∃ w ∈ words, c ∈ w := by
  unfold spaced at h
  induction words with
  | nil => cases h
  | cons w words ih =>
      cases words with
      | nil =>
          rw [List.intercalate_singleton] at h
          exact .inr ⟨w, List.mem_cons_self, h⟩
      | cons w' words =>
          rw [List.intercalate_cons_cons, List.mem_append, List.mem_append, List.mem_singleton] at h
          rcases h with (h | h) | h
          · exact .inr ⟨w, List.mem_cons_self, h⟩
          · exact .inl h
          · rcases ih h with hblank | ⟨v, hv, hc⟩
            · exact .inl hblank
            · exact .inr ⟨v, List.mem_cons_of_mem w hv, hc⟩

/-- What a line is made of. -/
def lineChar (c : UInt8) : Bool :=
  wordChar c || c == blank || c == comma || c == leftParen || c == rightParen

theorem lineChar_render (h : c ∈ f.render) : lineChar c = true := by
  induction f with
  | command command =>
      rcases mem_spaced h with rfl | ⟨w, hw, hc⟩
      · rfl
      · unfold lineChar
        rw [(command.word w hw).2 c hc]
        rfl
  | group inner ih =>
      simp only [Forest.render, List.mem_cons, List.mem_append, List.not_mem_nil, or_false] at h
      rcases h with rfl | h | rfl
      · rfl
      · exact ih h
      · rfl
  | beside left right ihl ihr =>
      simp only [Forest.render, List.mem_append, List.mem_cons] at h
      rcases h with h | rfl | h
      · exact ihl h
      · rfl
      · exact ihr h

theorem notMem_render (f : Forest) (h : lineChar c = false) : c ∉ f.render := by
  intro hmem
  rw [lineChar_render hmem] at h
  cases h

/-- A line ends with a command or a parenthesis. -/
theorem render_last (f : Forest) : ∃ front c, c ≠ comma ∧ f.render = front ++ [c] := by
  induction f with
  | command command =>
      obtain ⟨front, c, hfront, hc⟩ := command.final
      exact ⟨front, c, (isalnum_facts hc).2.1, hfront⟩
  | group inner _ => exact ⟨leftParen :: inner.render, rightParen, by decide, rfl⟩
  | beside left right _ ihr =>
      obtain ⟨front, c, hc, hrender⟩ := ihr
      refine ⟨left.render ++ comma :: front, c, hc, ?_⟩
      rw [Forest.render, hrender, List.append_assoc, List.cons_append]

theorem text_of_mem {depth : ℕ} (h : text ∈ commandsAt f depth) : ∃ c : Command, text = c.text := by
  induction f generalizing depth with
  | command c =>
      cases depth with
      | zero => exact ⟨c, List.mem_singleton.mp h⟩
      | succ depth => cases h
  | group inner ih =>
      cases depth with
      | zero => cases h
      | succ depth => exact ih h
  | beside left right ihl ihr =>
      rcases List.mem_append.mp h with h | h
      · exact ihl h
      · exact ihr h

theorem words_text (c : Command) : words c.text = c.words := by
  apply List.splitOn_intercalate blank _ c.nonempty
  intro w hw hblank
  exact absurd ((c.word w hw).2 blank hblank) (by decide)

theorem singleSpaced_of_mem {depth : ℕ} (h : text ∈ commandsAt f depth) : SingleSpaced text := by
  obtain ⟨c, rfl⟩ := text_of_mem h
  intro w hw
  rw [words_text] at hw
  exact (c.word w hw).1

end Texts

/-! ## Typing a line -/

section Typing
variable {before line rest text : List UInt8} {command : Buffer} {f : Forest} {c : UInt8}

/-- The last character but one is no comma. That of a single character is in memory in front of the
buffer. -/
def Closes (before text : List UInt8) : Prop := ∃ d ∈ (text.reverse ++ before)[1]?, d ≠ comma

/-- The comma at the end may be typed, or left to `main`. -/
inductive Typed (before : List UInt8) (f : Forest) : List UInt8 → Prop
  | comma : Typed before f f.line
  | closed (h : Closes before f.render) : Typed before f f.render

theorem appendComma_closes (h : Holds command (line ++ [c])) (hc : c ≠ comma)
    (hroom : (line ++ [c]).length + 1 < SIZE_BUF) (hcloses : Closes before (line ++ [c])) :
    ∃ closed, appendComma before command = .ok closed ∧ Holds closed (line ++ [c] ++ [comma]) := by
  obtain ⟨closed, hclose, hholds⟩ := h.close hroom
  refine ⟨closed, ?_, hholds⟩
  obtain ⟨d, hd, hne⟩ := hcloses
  rcases List.eq_nil_or_concat line with rfl | ⟨line, d', rfl⟩
  · have hone : Holds command [c] := h
    have hread : charAt before command (-1) = .ok d := by
      cases before with
      | nil => cases hd
      | cons d' before =>
          cases hd
          rfl
    rw [hone.append_one hc, hread, ok_bind, if_neg hne]
    exact hclose
  · rw [List.concat_eq_append] at h hclose hd
    rw [List.append_assoc, List.singleton_append] at h hclose hd
    have hsame : d' = d := by simpa using hd
    rw [h.append_two hc, hsame, if_neg hne]
    rw [hsame] at hclose
    exact hclose

theorem appendComma_typed (ht : Typed before f text) (hlength : f.line.length < SIZE_BUF)
    (h : Holds command text) :
    ∃ closed, appendComma before command = .ok closed ∧ Holds closed f.line := by
  cases ht with
  | comma => exact ⟨command, h.append_comma before, h⟩
  | closed hcloses =>
      obtain ⟨line, c, hc, hrender⟩ := render_last f
      have hline : f.line = line ++ [c] ++ [comma] := by rw [Forest.line, hrender]
      rw [hline, List.length_append, List.length_singleton] at hlength
      rw [hrender] at h hcloses
      rw [hline]
      exact appendComma_closes h hc hlength hcloses

theorem typed_fits (ht : Typed before f text) (hlength : f.line.length < SIZE_BUF) :
    newline ∉ text ∧ CommandLine.Fits text := by
  have hline : ∀ c, lineChar c = false → c ∉ f.line := by
    intro c hc hmem
    rcases List.mem_append.mp hmem with hmem | hmem
    · exact notMem_render f hc hmem
    · rw [List.mem_singleton.mp hmem] at hc
      cases hc
  have hfront : text <+: f.line := by
    cases ht with
    | comma => exact List.prefix_refl f.line
    | closed _ => exact List.prefix_append f.render [comma]
  have hle := hfront.length_le
  exact ⟨fun h => hline newline rfl (hfront.subset h), by omega,
    fun h => hline 0 rfl (hfront.subset h)⟩

/-- The line is in the buffer with a comma at its end. -/
theorem readLine_yields (ht : Typed before f text) (hlength : f.line.length < SIZE_BUF)
    (rest : List UInt8) (command : Buffer) :
    ∃ closed, Yields (fun fuel => readLine fuel before (text ++ newline :: rest) command)
      (rest, closed) ∧ Holds closed f.line := by
  obtain ⟨hline, hfits⟩ := typed_fits ht hlength
  obtain ⟨s, ret, tail, hyields, hstream, htoList⟩ := readCmdLine_comes hline rest command
  rw [drop_line, if_pos hfits.1] at hstream
  rw [List.take_of_length_le hfits.1] at htoList
  obtain ⟨closed, hclose, hholds⟩ := appendComma_typed ht hlength ⟨hfits.2, tail, htoList⟩
  refine ⟨closed, hyields.bind ?_, hholds⟩
  dsimp only
  rw [hclose, ok_bind, hstream]
  rfl

/-- All the commands of the line are queued, the deepest in front. -/
theorem tokenizer_yields (f : Forest) (hdepth : f.depth ≤ MAXSIZE) (before : List UInt8)
    (stack : Stack) :
    ∃ out, Yields (fun fuel => tokenizer fuel before f.line (screate stack) qcreate) out ∧
      out.scan.log = [] ∧ out.scan.queue.first = f.byDepth ∧ out.scan.stack.top = -1 := by
  have hline : f.line = [] ++ f.render ++ comma :: [] := rfl
  have hbegins : Begins 0 (Scan.initial (screate stack) qcreate) :=
    ⟨Or.inr (Or.inr rfl), rfl, rfl, rfl, rfl, level_screate stack⟩
  obtain ⟨t, hwalk, hends⟩ := forest_walks f before hline rfl hbegins (by omega)
  obtain ⟨u, hcomma, hstate, hbegins', hi, hqueue⟩ := hends.comma_walks before hline rfl
  have hover : f.line[u.i]? = none := by
    rw [hi, List.getElem?_eq_none_iff]
    exact Nat.le_refl _
  have hleave : scanPass before f.line u = .leave (.ok u) := by
    simp only [scanPass, hover]
  have htop : u.stack.top = -1 := hbegins'.level.top
  have hpop : spop u.stack = .ok (u.stack, .null) := by
    unfold spop
    rw [if_pos htop]
    rfl
  have hfirst : u.queue.first = f.byDepth := by
    have hstable := stable_enqueueAll (f.commands 0) (q := qcreate) stable_nil
    rw [hqueue]
    exact hstable.unique (f.stable_byDepth hdepth)
  have hmatched : ¬ (Pointer.null ≠ Pointer.null ∨ u.state = .error) := by
    simp [hstate]
  refine ⟨⟨u, u.queue.first⟩, (yields_of_leaves ((hwalk.trans hcomma).leaves hleave)).bind ?_,
    hbegins'.silent, hfirst, htop⟩
  rw [hpop, ok_bind]
  simp only [if_neg hmatched]
  rfl

/-- Up to the call of `qexecution`. -/
theorem enterLine_yields (ht : Typed before f text) (hlength : f.line.length < SIZE_BUF)
    (hdepth : f.depth ≤ MAXSIZE) (rest : List UInt8) (command : Buffer) (stack : Stack) :
    ∃ closed out,
      Yields (fun fuel => enterLine fuel before (text ++ newline :: rest) command stack)
        (rest, closed, out) ∧ textOf closed.toList = f.line ∧
      out.scan.log = [] ∧ out.scan.queue.first = f.byDepth ∧ out.scan.stack.top = -1 := by
  obtain ⟨closed, hread, hholds⟩ := readLine_yields ht hlength rest command
  obtain ⟨out, hout, hlog, hqueue, htop⟩ := tokenizer_yields f hdepth before stack
  rw [← hholds.textOf_eq] at hout
  exact ⟨closed, out, hread.followed (hout.bind rfl), hholds.textOf_eq, hlog, hqueue, htop⟩

end Typing

/-! ## Running a line -/

/-- The commands of a stage are forked from left to right, each with its words, which the child can
read. Then all of them are waited for, and only then comes the next stage. -/
def Performs (aliases : List Alias) (plan : List (List Word)) (events : List Event) : Prop :=
  ∃ blocks : List Block, events = blocks.flatMap Block.events ∧
    blocks.map (fun b => b.forks.map Prod.fst) = plan.map (fun stage => stage.map (argsOf aliases)) ∧
    (∀ b ∈ blocks, ∀ f ∈ b.forks, Terminated f.1) ∧ ∀ b ∈ blocks, ∀ f ∈ b.forks, f.2 ∈ b.waits

/-- What the shell prints and does for a line. -/
def Means (aliases : List Alias) (f : Forest) (log : List MainEvent) : Prop :=
  ∃ events, log = .prompt :: .contains f.line :: events.map .executed ∧
    Performs aliases (stages f) events

section Running
variable {env : Environment} {fuel : ℕ} {aliases : List Alias} {s u : Exec} {f : Forest}

theorem forkLog_positive {forks : List (List Word × ℤ)} (h : ∀ f ∈ forks, 0 < f.2) :
    (forks.flatMap fun f => forkLog f.1 f.2) = forks.map fun f => .fork f.1 f.2 := by
  induction forks with
  | nil => rfl
  | cons f forks ih =>
      obtain ⟨hf, hforks⟩ := List.forall_mem_cons.mp h
      have hlog : forkLog f.1 f.2 = [.fork f.1 f.2] := by
        unfold forkLog
        rw [if_neg (by omega)]
      rw [List.flatMap_cons, ih hforks, hlog]
      rfl

/-- External commands are forked group by group, and nothing else is done. -/
theorem executes_blocks (hfork : ∀ n, 0 < env.fork n) (h : Executes env fuel s u)
    (hext : ∀ a ∈ s.qforexecution, External s.aliases a.command) :
    u.aliases = s.aliases ∧ ∃ blocks : List Block, u.log = s.log ++ blocks.flatMap Block.events ∧
      blocks.map (fun b => b.forks.map Prod.fst) =
        (groups s.qforexecution).map (fun g => g.map fun node => argsOf s.aliases node.command) ∧
      ∀ b ∈ blocks, ∀ f ∈ b.forks, f.2 ∈ b.waits := by
  induction h with
  | finished hq =>
      rw [hq]
      exact ⟨rfl, [], (List.append_nil _).symm, rfl, fun b hb => absurd hb List.not_mem_nil⟩
  | @group s t u node rest hq _ _ hrun _ ih =>
      rw [hrun.rest, hrun.aliases] at ih
      rw [hq] at hext ⊢
      obtain ⟨haliases, blocks, hlog, hgroups, hwaits⟩ := ih fun a ha => hext a (mem_rest ha)
      obtain ⟨waits, hgroup, hwaited⟩ := hrun.log
      have hpids : ∀ f ∈ forksOf env s.aliases s.forks (takeLevel node rest).1, 0 < f.2 := by
        intro f hf
        obtain ⟨i, _, he⟩ := exists_of_mem_forksOf hf
        rw [he]
        exact hfork _
      refine ⟨haliases, ⟨forksOf env s.aliases s.forks (takeLevel node rest).1, waits⟩ :: blocks,
        ?_, ?_, List.forall_mem_cons.mpr ⟨hwaited, hwaits⟩⟩
      · rw [hlog, hgroup, forkLog_positive hpids, List.flatMap_cons, Block.events]
        simp only [List.append_assoc]
      · rw [groups_cons, List.map_cons, List.map_cons, forksOf_args, hgroups]
  | builtin hq h =>
      obtain ⟨a, ha, hnot⟩ := h.not_external
      rw [hq] at hext
      exact absurd (hext a (mem_group ha)) hnot

theorem byDepth_ne_nil (f : Forest) (hdepth : f.depth ≤ MAXSIZE) : f.byDepth ≠ [] := by
  intro hnil
  have hperm := (f.stable_byDepth hdepth).perm
  rw [hnil, f.commands_eq, List.map_append] at hperm
  exact List.append_ne_nil_of_right_ne_nil _ (List.cons_ne_nil _ _) hperm.symm.eq_nil

theorem byDepth_singleSpaced : ∀ a ∈ f.byDepth, SingleSpaced a.command := by
  intro a ha
  obtain ⟨depth, htext⟩ := mem_byDepth ha
  exact singleSpaced_of_mem htext

theorem byDepth_external (hdepth : f.depth ≤ MAXSIZE)
    (hext : ∀ c ∈ f.commands 0, External aliases c.2) :
    ∀ a ∈ f.byDepth, External aliases a.command := by
  intro a ha
  rw [(f.stable_byDepth hdepth).perm.mem_iff] at ha
  obtain ⟨c, hc, rfl⟩ := List.mem_map.mp ha
  exact hext c hc

/-- The queue of a forest is run in its stages. -/
theorem qexecution_performs (hfork : ∀ n, 0 < env.fork n) (hdepth : f.depth ≤ MAXSIZE)
    (hext : ∀ c ∈ f.commands 0, External aliases c.2)
    (hwords : ∀ c ∈ f.commands 0, Terminated (words c.2))
    (h : qexecution env fuel aliases f.byDepth = .ok u) :
    Fits f.byDepth ∧ u.aliases = aliases ∧ Performs aliases (stages f) u.log := by
  have hshell : ∀ n, env.fork n ≠ 0 := fun n => (hfork n).ne'
  have hext' := byDepth_external hdepth hext
  have hexecutes := executes_of_ok hshell (byDepth_ne_nil f hdepth) h byDepth_singleSpaced
  obtain ⟨haliases, blocks, hlog, hgroups, hwaits⟩ := executes_blocks hfork hexecutes hext'
  have hreadable := (terminated_blocks hgroups).mpr (terminated_byDepth hdepth hwords)
  refine ⟨(hexecutes.barrier hext').1, haliases, blocks, hlog, ?_, hreadable, hwaits⟩
  rw [hgroups, ← groups_byDepth hdepth, List.map_map]
  congr 1
  funext g
  rw [Function.comp_apply, List.map_map]
  rfl

theorem performs_quiet {plan : List (List Word)} {events : List Event}
    (h : Performs aliases plan events) {e : Event} (he : e ∈ events) : isProcessCall e = true := by
  obtain ⟨blocks, rfl, _⟩ := h
  obtain ⟨b, _, he⟩ := List.mem_flatMap.mp he
  rcases List.mem_append.mp he with he | he
  · obtain ⟨_, _, rfl⟩ := List.mem_map.mp he
    rfl
  · obtain ⟨_, _, rfl⟩ := List.mem_map.mp he
    rfl

/-- Behind such commands the loop of `main` goes on. -/
theorem fateOf_loops {opened : Bool} {shell : Shell} {plan : List (List Word)}
    (h : Performs aliases plan u.log) (htop : shell.stack.top = -1) :
    fateOf opened shell u = .ok (.loops { shell with aliases := u.aliases }) := by
  have hdelete : sdelete shell.stack = .ok shell.stack := by
    obtain ⟨stream, command, ⟨stackmem, top⟩, aliases⟩ := shell
    cases htop
    rfl
  unfold fateOf
  split_ifs with hexit hchild
  · exact absurd (performs_quiet h hexit) (by decide)
  · obtain ⟨e, he, hexec⟩ := List.any_eq_true.mp hchild
    have hcall := performs_quiet h he
    cases e with
    | execvp args => cases hcall
    | _ => cases hexec
  · rw [hdelete]
    rfl

theorem qexecution_exists (hfork : ∀ n, 0 < env.fork n) (hdepth : f.depth ≤ MAXSIZE)
    (hext : ∀ c ∈ f.commands 0, External aliases c.2) (hfits : Fits f.byDepth)
    (hfuel : f.byDepth.length + argsSize < fuel) :
    ∃ u, qexecution env fuel aliases f.byDepth = .ok u := by
  have hshell : ∀ n, env.fork n ≠ 0 := fun n => (hfork n).ne'
  have hext' := byDepth_external hdepth hext
  have hlast : LastLaunches env fuel
      { qforexecution := f.byDepth, aliases := aliases, forks := 0, log := [] } := by
    intro b hb hnot
    exact absurd (hext' b (List.mem_of_getLast? hb)) hnot
  have hpasses : (Exec.mk f.byDepth aliases 0 []).qforexecution.length < fuel := by
    change f.byDepth.length < fuel
    omega
  obtain ⟨u, hu⟩ := queue_fits hshell hpasses byDepth_singleSpaced hfits
    (builtinLast_of_external hext') hlast (by omega)
  refine ⟨u, ?_⟩
  unfold qexecution
  split
  · rename_i hnil
    exact absurd hnil (byDepth_ne_nil f hdepth)
  · exact loop_eq_ok.mpr hu

end Running

/-! ## Scripts -/

/-- A line of a script, as it is typed, and what the kernel answers and the memory in front of the
buffer holds when it is run. -/
structure TypedLine where
  forest : Forest
  text : List UInt8
  env : Environment
  before : List UInt8

def TypedLine.request (l : TypedLine) : Request := .line l.env l.before

/-- The line fits the buffer and the stack, its commands are external, their copies and words have room
for their terminators, and no fork fails. -/
structure TypedLine.Plain (room : ℕ → ℕ) (aliases : List Alias) (l : TypedLine) : Prop where
  typed : Typed l.before l.forest l.text
  length : l.forest.line.length < SIZE_BUF
  depth : l.forest.depth ≤ MAXSIZE
  external : ∀ c ∈ l.forest.commands 0, External aliases c.2
  copied : ∀ c ∈ l.forest.commands 0, HasRoom room c.2
  words : ∀ c ∈ l.forest.commands 0, Terminated (words c.2)
  parent : ∀ n, 0 < l.env.fork n

section Scripts
variable {room : ℕ → ℕ} {aliases : List Alias} {l : TypedLine} {rest : List UInt8} {s t : Shell}
  {opened : Bool}

theorem mainPass_means {fuel : ℕ} {log : List MainEvent} (hl : l.Plain room s.aliases)
    (hstream : s.stream = l.text ++ newline :: rest)
    (h : mainPass l.env opened l.before fuel s = .ok (log, .loops t)) :
    Fits l.forest.byDepth ∧ Means s.aliases l.forest log ∧ t.stream = rest ∧
      t.aliases = s.aliases := by
  obtain ⟨closed, out, hyields, htext, hlog, hqueue, htop⟩ :=
    enterLine_yields hl.typed hl.length hl.depth rest s.command s.stack
  unfold mainPass at h
  obtain ⟨entered, henter, h⟩ := bind_eq_ok.mp h
  rw [hstream] at henter
  rcases hyields.only fuel with hok | hout
  · rw [hok] at henter
    cases henter
    obtain ⟨exec, hexec, h⟩ := bind_eq_ok.mp h
    rw [hqueue] at hexec
    obtain ⟨hfits, haliases, hperforms⟩ :=
      qexecution_performs hl.parent hl.depth hl.external hl.words hexec
    obtain ⟨fate, hfate, h⟩ := bind_eq_ok.mp h
    rw [fateOf_loops hperforms htop] at hfate
    cases hfate
    cases h
    refine ⟨hfits, ⟨exec.log, ?_, hperforms⟩, rfl, haliases⟩
    rw [htext, hlog]
    rfl
  · rw [hout] at henter
    cases henter

theorem mainPass_exists (opened : Bool) (hl : l.Plain room s.aliases)
    (hfits : Fits l.forest.byDepth) (hstream : s.stream = l.text ++ newline :: rest) :
    ∃ fuel log t, mainPass l.env opened l.before fuel s = .ok (log, .loops t) := by
  obtain ⟨closed, out, hyields, _, _, hqueue, htop⟩ :=
    enterLine_yields hl.typed hl.length hl.depth rest s.command s.stack
  obtain ⟨enough, hcomes⟩ := hyields.comes
  let fuel := enough + (l.forest.byDepth.length + argsSize + 1)
  have henter := hcomes fuel (Nat.le_add_right _ _)
  have hfuel : l.forest.byDepth.length + argsSize < fuel := by
    simp only [fuel]
    omega
  obtain ⟨exec, hexec⟩ := qexecution_exists hl.parent hl.depth hl.external hfits hfuel
  have hperforms := (qexecution_performs hl.parent hl.depth hl.external hl.words hexec).2.2
  rw [← hstream] at henter
  rw [← hqueue] at hexec
  exact ⟨fuel, _, _, bind_eq_ok.mpr ⟨_, henter, bind_eq_ok.mpr ⟨_, hexec,
    bind_eq_ok.mpr ⟨_, fateOf_loops hperforms htop, rfl⟩⟩⟩⟩

/-- The lines with their newlines. -/
def scriptOf (lines : List TypedLine) : List UInt8 := lines.flatMap fun l => l.text ++ [newline]

theorem scriptOf_append (front lines : List TypedLine) :
    scriptOf (front ++ lines) = scriptOf front ++ scriptOf lines := List.flatMap_append

theorem scriptOf_singleton (l : TypedLine) (rest : List UInt8) :
    scriptOf [l] ++ rest = l.text ++ newline :: rest := by
  unfold scriptOf
  rw [List.flatMap_singleton, List.append_assoc]
  rfl

/-- The answers, one for each line. -/
def Answers (aliases : List Alias) (l : TypedLine) (e : SessionStep) : Prop :=
  Means aliases l.forest e.answer.1 ∧ e.answer.2 = []

variable {start : Shell} {lines : List TypedLine} {history : List SessionStep}

theorem script_runs (hlines : ∀ l ∈ lines, l.Plain room start.aliases)
    (hstream : start.stream = scriptOf lines ++ rest) (hr : Run (sessions start) history s)
    (hcalls : history.reverse.map Step.call = lines.map TypedLine.request) :
    s.stream = rest ∧ s.aliases = start.aliases ∧
      List.Forall₂ (Answers start.aliases) lines history.reverse ∧
      ∀ l ∈ lines, Fits l.forest.byDepth := by
  induction hr generalizing lines rest with
  | init =>
      obtain rfl := List.map_eq_nil_iff.mp hcalls.symm
      exact ⟨hstream, rfl, .nil, fun _ hl => absurd hl List.not_mem_nil⟩
  | @call history s t request answer hr hserves ih =>
      rw [List.reverse_cons, List.map_append] at hcalls
      obtain ⟨front, last, rfl, hfront, hlast⟩ := List.append_eq_map_iff.mp hcalls
      obtain ⟨l, rfl, hrequest⟩ := List.map_eq_singleton_iff.mp hlast
      rw [scriptOf_append, List.append_assoc, scriptOf_singleton] at hstream
      rw [List.forall_mem_append, List.forall_mem_singleton] at hlines
      obtain ⟨hstream', haliases, hanswers, hfits⟩ := ih hlines.1 hstream hfront.symm
      have hplain : l.Plain room s.aliases := haliases ▸ hlines.2
      change Serves s request answer t at hserves
      change TypedLine.request l = request at hrequest
      subst hrequest
      cases hserves with
      | line hpass =>
          obtain ⟨hfit, hmeans, hleft, hkept⟩ := mainPass_means hplain hstream' hpass
          rw [haliases] at hmeans hkept
          refine ⟨hleft, hkept, ?_, ?_⟩
          · rw [List.reverse_cons]
            exact List.rel_append hanswers (.cons ⟨hmeans, rfl⟩ .nil)
          · rw [List.forall_mem_append, List.forall_mem_singleton]
            exact ⟨hfits, hfit⟩

theorem script_exists (hlines : ∀ l ∈ lines, l.Plain room start.aliases)
    (hfits : ∀ l ∈ lines, Fits l.forest.byDepth) (hstream : start.stream = scriptOf lines ++ rest) :
    ∃ history s, Run (sessions start) history s ∧
      history.reverse.map Step.call = lines.map TypedLine.request := by
  induction lines using List.reverseRecOn generalizing rest with
  | nil => exact ⟨[], start, .init, rfl⟩
  | append_singleton front l ih =>
      rw [scriptOf_append, List.append_assoc, scriptOf_singleton] at hstream
      rw [List.forall_mem_append, List.forall_mem_singleton] at hlines hfits
      obtain ⟨history, s, hr, hcalls⟩ := ih hlines.1 hfits.1 hstream
      obtain ⟨hstream', haliases, _, _⟩ := script_runs hlines.1 hstream hr hcalls
      have hplain : l.Plain room s.aliases := haliases ▸ hlines.2
      obtain ⟨fuel, log, t, hpass⟩ := mainPass_exists true hplain hfits.2 hstream'
      have hserves : Serves s l.request (log, []) t := .line hpass
      refine ⟨_, t, hr.call hserves, ?_⟩
      rw [List.reverse_cons, List.map_append, List.map_append, hcalls]
      rfl

end Scripts

/-- The queue holds the commands of each line. A script is run to its end exactly if there is room for
the stages of its lines, and then every line is run as its groups say, whatever was on the lines
before. -/
theorem script_meaning (a : Allocator) {start : Shell} {lines : List TypedLine} {rest : List UInt8}
    (hstream : start.stream = scriptOf lines ++ rest)
    (hlines : ∀ l ∈ lines, l.Plain a.room start.aliases) :
    (∀ l ∈ lines, ∀ stack queue, Queues a l.forest l.before stack queue) ∧
    ((∃ history s, Run (sessions start) history s ∧
        history.reverse.map Step.call = lines.map TypedLine.request) ↔
      ∀ l ∈ lines, Room (stages l.forest)) ∧
    ∀ history s, Run (sessions start) history s →
      history.reverse.map Step.call = lines.map TypedLine.request →
      s.stream = rest ∧ s.aliases = start.aliases ∧
        List.Forall₂ (Answers start.aliases) lines history.reverse := by
  have hroom : ∀ l ∈ lines, Fits l.forest.byDepth ↔ Room (stages l.forest) := fun l hl =>
    fits_iff_room (hlines l hl).depth (hlines l hl).words
  refine ⟨fun l hl stack queue => ?_, ⟨?_, ?_⟩, ?_⟩
  · exact queues_of_room (hlines l hl).depth (hlines l hl).copied l.before stack queue
  · rintro ⟨history, s, hr, hcalls⟩ l hl
    obtain ⟨_, _, _, hfits⟩ := script_runs hlines hstream hr hcalls
    exact (hroom l hl).mp (hfits l hl)
  · intro hfits
    exact script_exists hlines (fun l hl => (hroom l hl).mpr (hfits l hl)) hstream
  · intro history s hr hcalls
    obtain ⟨hleft, haliases, hanswers, _⟩ := script_runs hlines hstream hr hcalls
    exact ⟨hleft, haliases, hanswers⟩

/-- The line `((a b),c),dd` without a comma at its end, and the line `show e,` with one. -/
def twoLines : List TypedLine :=
  let ab : Command := ⟨[[97], [98]], by decide, by decide +kernel, [97, 32], 98, rfl, rfl⟩
  let c : Command := ⟨[[99]], by decide, by decide +kernel, [], 99, rfl, rfl⟩
  let dd : Command := ⟨[[100, 100]], by decide, by decide +kernel, [100], 100, rfl, rfl⟩
  let show_e : Command := ⟨[[115, 104, 111, 119], [101]], by decide, by decide +kernel,
    [115, 104, 111, 119, 32], 101, rfl, rfl⟩
  [⟨.beside (.group (.beside (.group (.command ab)) (.command c))) (.command dd),
      [40, 40, 97, 32, 98, 41, 44, 99, 41, 44, 100, 100], plainEnvironment, []⟩,
    ⟨.command show_e, [115, 104, 111, 119, 32, 101, 44], plainEnvironment, []⟩]

theorem plain_twoLines : ∀ l ∈ twoLines, l.Plain QueueBlocks.chunks.room fileAliases := by
  intro l hl
  rcases List.mem_pair.mp hl with rfl | rfl
  · exact ⟨.closed ⟨100, rfl, by decide⟩, by decide, by decide, by decide, by decide, by decide,
      plainEnvironment_fork⟩
  · exact ⟨.comma, by decide, by decide, by decide, by decide, by decide, plainEnvironment_fork⟩

theorem room_twoLines : ∀ l ∈ twoLines, Room (stages l.forest) := by
  intro l hl
  rcases List.mem_pair.mp hl with rfl | rfl
  · exact ⟨by decide, by decide, by decide⟩
  · exact ⟨by decide, by decide, by decide⟩

/-- Each of the four commands is a stage of its own. -/
theorem script_meaning_two :
    (twoLines.map fun l => stages l.forest) =
        [[[[97, 32, 98]], [[99]], [[100, 100]]], [[[115, 104, 111, 119, 32, 101]]]] ∧
      ∃ history s, Run (sessions ⟨scriptOf twoLines, .replicate _ 0, ⟨.replicate _ .null, -1⟩,
          fileAliases⟩) history s ∧ s.stream = [] ∧
        List.Forall₂ (Answers fileAliases) twoLines history.reverse := by
  obtain ⟨_, hruns, hmeans⟩ := @script_meaning QueueBlocks.chunks ⟨scriptOf twoLines,
    .replicate _ 0, ⟨.replicate _ .null, -1⟩, fileAliases⟩ twoLines [] (List.append_nil _).symm
    plain_twoLines
  obtain ⟨history, s, hr, hcalls⟩ := hruns.mpr room_twoLines
  obtain ⟨hleft, _, hanswers⟩ := hmeans history s hr hcalls
  exact ⟨rfl, history, s, hr, hleft, hanswers⟩

end MinixOS.ScriptMeaning
