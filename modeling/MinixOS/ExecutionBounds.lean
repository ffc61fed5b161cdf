import MinixOS.ExecutionBarrier
import MinixOS.SplittingBounds
import MinixOS.TypedCommands

/-!
# Accesses while the queue is executed

The elements of `pid_child`, of `args` and of the buffers of the words that are used when a queue
is executed. What the arrays held before, the aliases and the answers of `fork` are left open, so
that a command is followed by the next one unless its text alone keeps the shell from that.
-/
namespace MinixOS.ExecutionBounds
open LoopExecution CheckedExecution CommandQueue Tokenizer ShellExecution CommandSplitting
  ExecutionBarrier WordSlots SplittingBounds TokenizerConservation TokenizerText

/-- The variables with which the command is launched. -/
def Level.launching (node : QueueNode) (l : Level) : Level :=
  { l with paral := if node.priority = 255 then false else l.paral }

/-- The variables with which the loop comes to the next command. -/
def Level.following (node next : QueueNode) (l : Level) : Level :=
  { l with eqprio := node.priority = next.priority, no_process := l.no_process + 1 }

section Reached
variable (env : Environment) (aliases : List Alias) (q : List QueueNode)

/-- The loop over the queue is reached with these variables. -/
inductive AtGroup : Exec → Prop
  | start : AtGroup { qforexecution := q, aliases := aliases, forks := 0, log := [] }
  | next {s t : Exec} {fuel : ℕ} (hs : AtGroup s) (hp : queuePass env fuel s = .again t) : AtGroup t

/-- The loop over the commands of one priority is entered for the command. -/
inductive AtCommand : QueueNode → List QueueNode → Level → Prop
  | first {s : Exec} {node : QueueNode} {rest : List QueueNode} (hs : AtGroup env aliases q s)
      (hq : s.qforexecution = node :: rest) : AtCommand node rest (Level.start env s)
  | next {node next : QueueNode} {more : List QueueNode} {l m : Level} {fuel : ℕ}
      (hl : AtCommand node (next :: more) l)
      (hlaunch : launch env fuel node.command (Level.launching node l) = .ok (.proceeds m))
      (hgo : (Level.following node next m).eqprio ∧ (Level.following node next m).paral) :
      AtCommand next more (Level.following node next m)

/-- The words are split off, and the first one is no builtin. -/
def ReachesFork (command : Word) (l : Level) : Prop :=
  ∃ fuel args first, splitCommand fuel (env.leftover l.exec.forks).args command = .ok args ∧
    readAt args 0 = .ok (some first) ∧ first ≠ aliasLiteral ∧
    (isAlias first l.exec.aliases).1 ≠ exitLiteral ∧ (isAlias first l.exec.aliases).1 ≠ cdLiteral

/-- The elements that are used: those of the loop over the words, the first two of `args`, and
those of `pid_child` for the answer of `fork` and for `waitpid`. -/
inductive Uses : Access → Prop
  | split {node : QueueNode} {rest : List QueueNode} {l : Level} {access : Access}
      (hl : AtCommand env aliases q node rest l)
      (ha : SplitUses (env.leftover l.exec.forks).args node.command access) : Uses access
  | parameter {node : QueueNode} {rest : List QueueNode} {l : Level} {index : ℕ}
      (hl : AtCommand env aliases q node rest l) (hi : index ≤ 1) : Uses (.args index)
  | fork {node : QueueNode} {rest : List QueueNode} {l : Level}
      (hl : AtCommand env aliases q node rest l) (hfork : ReachesFork env node.command l) :
      Uses (.pid_child l.no_process)
  | wait {s : Exec} {node : QueueNode} {rest : List QueueNode} {l : Level} {fuel index : ℕ}
      (hs : AtGroup env aliases q s) (hq : s.qforexecution = node :: rest)
      (hloop : levelLoop env fuel (node :: rest) (Level.start env s) = .ok (.proceeds l))
      (hi : index ≤ l.no_process) : Uses (.pid_child index)

end Reached

/-! ## Room in the arrays -/

/-- The text keeps the shell from the next command: it ends or begins with a blank, or it is an
`alias` command. -/
def Stops (command : Word) : Prop :=
  command.getLast? = some blank ∨ command.head? = some blank ∨
    (words command).head? = some aliasLiteral

instance : DecidablePred Stops := fun command =>
  inferInstanceAs (Decidable (command.getLast? = some blank ∨ command.head? = some blank ∨
    (words command).head? = some aliasLiteral))

/-- The commands have room in the arrays, where `n` commands of the group were launched. -/
def FitsFrom : ℕ → List QueueNode → Prop
  | _, [] => True
  | n, [node] => CommandInRange node.command ∧ (Stops node.command ∨ n < MAX_CMD_NUM)
  | n, node :: next :: more =>
      CommandInRange node.command ∧
        (Stops node.command ∨ n < MAX_CMD_NUM ∧
          if sameLevel node next then FitsFrom (n + 1) (next :: more)
          else n + 1 < MAX_CMD_NUM ∧ FitsFrom 0 (next :: more))

variable {env : Environment} {aliases : List Alias} {q rest : List QueueNode} {node : QueueNode}
  {text : Word} {l m : Level} {s t : Exec} {fuel n : ℕ}

theorem FitsFrom.command (h : FitsFrom n (node :: rest)) : CommandInRange node.command := by
  cases rest with
  | nil => exact h.1
  | cons next more => exact h.1

theorem FitsFrom.room (h : FitsFrom n (node :: rest)) (hstops : ¬ Stops node.command) :
    n < MAX_CMD_NUM := by
  cases rest with
  | nil => exact h.2.resolve_left hstops
  | cons next more => exact (h.2.resolve_left hstops).1

/-! ## One command -/

theorem fork_proceeds {name : Word} {args : Args}
    (h : forkCommand env name args l = .ok (.proceeds m)) :
    l.no_process < MAX_CMD_NUM ∧ m.no_process = l.no_process ∧ m.paral = l.paral ∧
      m.exec.aliases = l.exec.aliases := by
  unfold forkCommand at h
  rcases bind_eq_ok.mp h with ⟨pid_child, hwrite, h⟩
  have hroom : l.no_process < MAX_CMD_NUM := by
    unfold writeAt at hwrite
    split_ifs at hwrite with hrange
    rw [Int.toNat_natCast] at hrange
    exact hrange.2
  refine ⟨hroom, ?_⟩
  dsimp only at h
  by_cases hfailed : env.fork l.exec.forks = -1
  · rw [if_pos hfailed] at h
    cases h
    exact ⟨rfl, rfl, rfl⟩
  · rw [if_neg hfailed] at h
    by_cases hchild : env.fork l.exec.forks = 0
    · rw [if_pos hchild] at h
      split_ifs at h
      all_goals cases h
    · rw [if_neg hchild] at h
      cases h
      exact ⟨rfl, rfl, rfl⟩

theorem launch_proceeds (h : launch env fuel text l = .ok (.proceeds m)) :
    ReachesFork env text l ∧ l.no_process < MAX_CMD_NUM ∧ m.no_process = l.no_process ∧
      m.paral = l.paral ∧ m.exec.aliases = l.exec.aliases := by
  unfold launch at h
  rcases bind_eq_ok.mp h with ⟨args, hsplit, h⟩
  rcases bind_eq_ok.mp h with ⟨first, hfirst, h⟩
  cases first with
  | none => cases h
  | some first =>
      dsimp only at h
      by_cases halias : first = aliasLiteral
      · rw [if_pos halias] at h
        rcases bind_eq_ok.mp h with ⟨parameter, _, h⟩
        rcases bind_eq_ok.mp h with ⟨string, _, h⟩
        rcases bind_eq_ok.mp h with ⟨out, _, h⟩
        cases h
      · rw [if_neg halias] at h
        rcases bind_eq_ok.mp h with ⟨args', hwrite, h⟩
        by_cases hexit : (isAlias first l.exec.aliases).1 = exitLiteral
        · rw [if_pos hexit] at h
          cases h
        · rw [if_neg hexit] at h
          by_cases hcd : (isAlias first l.exec.aliases).1 = cdLiteral
          · rw [if_pos hcd] at h
            rcases bind_eq_ok.mp h with ⟨parameter, _, h⟩
            rcases bind_eq_ok.mp h with ⟨path, _, h⟩
            cases path with
            | none => cases h
            | some path => cases h
          · rw [if_neg hcd] at h
            exact ⟨⟨fuel, args, first, hsplit, hfirst, halias, hexit, hcd⟩, fork_proceeds h⟩

/-- A command of which the first word is read is not one that stops the shell. -/
theorem not_stops_of_fork (hrange : CommandInRange text) (h : ReachesFork env text l) :
    ¬ Stops text := by
  rcases h with ⟨fuel, args, first, hsplit, hfirst, halias, _, _⟩
  rcases leaves_of_split (comesTo_of_split hsplit) with ⟨r, hleaves, _⟩
  intro hstops
  have htrailing : text.getLast? ≠ some blank := fun hlast => ends_in_blank hlast hleaves
  rcases hstops with hlast | hrest
  · exact htrailing hlast
  have hne : text ≠ [] := by
    rintro rfl
    rcases hrest with hhead | hword
    · cases hhead
    · exact absurd hword (by decide)
  cases hwords : words text with
  | nil => exact words_ne_nil text hwords
  | cons w ws =>
      have hmem : w ∈ words text := by
        rw [hwords]
        exact List.mem_cons_self
      have hslot := first_slot hne hwords (hrange.short w hmem).le hsplit
      have hget : args.toList[0]? = some (some first) := (readAt_eq_ok_iff (i := 0)).mp hfirst
      rw [hget] at hslot
      have he : slot w = some first := (Option.some.inj hslot).symm
      unfold slot at he
      split_ifs at he with hnil
      cases he
      rcases hrest with hhead | hword
      · rcases List.head?_eq_some_iff.mp hhead with ⟨more, htext⟩
        have hempty := words_behind List.not_mem_nil more
        rw [List.nil_append, ← htext, hwords] at hempty
        exact hnil (List.cons.inj hempty).1
      · rw [hwords] at hword
        exact halias (Option.some.inj hword)

/-- From there on only the answer of `fork` is to be stored. -/
theorem launch_of_fork (hshell : ∀ n, env.fork n ≠ 0) (h : ReachesFork env text l)
    (hroom : l.no_process < MAX_CMD_NUM) :
    ∃ m, ComesTo (fun fuel => launch env fuel text l) (.proceeds m) := by
  rcases h with ⟨fuel, args, first, hsplit, hfirst, halias, hexit, hcd⟩
  have hzero : 0 < argsSize := by decide
  have hwrite : writeAt args 0 (some (isAlias first l.exec.aliases).1) =
      .ok (args.set 0 (some (isAlias first l.exec.aliases).1) hzero) :=
    writeAt_fin args ⟨0, hzero⟩ _
  refine ⟨Level.forked env
    (argvOf (args.set 0 (some (isAlias first l.exec.aliases).1) hzero)) l hroom, ?_⟩
  apply (comesTo_of_split hsplit).bind
  refine ⟨0, fun more _ => ?_⟩
  simp only [hfirst, ok_bind, if_neg halias, hwrite, if_neg hexit, if_neg hcd,
    forkCommand_eq hshell, dif_pos hroom]

/-! ## An environment in which nothing else stops the shell -/

/-- What is left over in `args` is taken for a command. -/
def exposedEnvironment : Environment where
  fork n := 100 + n
  execvpFails _ := false
  leftover _ :=
    { pid_child := .replicate _ 0, args := .replicate _ (some [97]), tmp := .replicate _ 0 }

theorem exit_fits : exitLiteral.length < bufferSize := by decide

theorem cd_fits : cdLiteral.length < bufferSize := by decide

theorem letter_fits : ([97] : Word).length < bufferSize := by decide

/-- `exit` and `cd` stand for another command. -/
def exposedAliases : List Alias :=
  [⟨exitLiteral, [97], exit_fits, letter_fits⟩, ⟨cdLiteral, [97], cd_fits, letter_fits⟩]

theorem exposed_fork (n : ℕ) : exposedEnvironment.fork n ≠ 0 := by
  change (100 : ℤ) + n ≠ 0
  omega

theorem exposed_alias (w : Word) :
    (isAlias w exposedAliases).1 ≠ exitLiteral ∧ (isAlias w exposedAliases).1 ≠ cdLiteral := by
  have hshort : ([97] : Word) ≠ exitLiteral ∧ ([97] : Word) ≠ cdLiteral := by decide
  simp only [exposedAliases, isAlias]
  split_ifs with hexit hcd
  · exact hshort
  · exact hshort
  · exact ⟨hexit, hcd⟩

/-- The words of a text in range are split off. -/
theorem exists_split (hrange : CommandInRange text) (hlast : text.getLast? ≠ some blank)
    (leftover : Args) : ∃ fuel args, splitCommand fuel leftover text = .ok args := by
  have hfew := hrange.few
  rw [if_neg hlast] at hfew
  rcases text_eq text with ⟨init, last, hwords, htext⟩
  rw [hwords, List.length_append, List.length_singleton] at hfew
  have hmem : ∀ v ∈ init ++ [last], blank ∉ v ∧ v.length < bufferSize := by
    intro v hv
    rw [← hwords] at hv
    exact ⟨blank_notMem_words hv, hrange.short v hv⟩
  have hleaves : ∃ r : Split, Leaves splitPass ⟨text, 0, 0, leftover⟩ (.ok r) ∧
      r.argument = init.length := by
    by_cases hnil : last = []
    · rcases List.eq_nil_or_concat init with rfl | ⟨front, v, rfl⟩
      · rw [htext, hnil]
        exact ⟨_, (Walks.refl _).leaves rfl, rfl⟩
      · rw [hnil, List.append_nil] at htext
        rw [htext, ended_getLast? (by simp)] at hlast
        exact absurd rfl hlast
    · have hlastmem := hmem last (List.mem_append_right _ (List.mem_singleton.mpr rfl))
      have hfront : ∀ v ∈ init, blank ∉ v := fun v hv => (hmem v (List.mem_append_left _ hv)).1
      have hshort : ∀ v ∈ init, v.length < bufferSize :=
        fun v hv => (hmem v (List.mem_append_left _ hv)).2
      rcases walk_front hfront (room_front (by omega) hshort) hnil leftover with ⟨args, hwalks⟩
      rw [Nat.zero_add, ← htext] at hwalks
      have hne : last ++ [] ≠ [] := by rwa [List.append_nil]
      have hcount : init.length < argsSize := by omega
      have hpass := slot_end hcount hlastmem.1 hlastmem.2.le (.inl rfl) hne args
      rw [List.append_nil] at hpass
      exact ⟨_, (hwalks.trans (.one hpass)).leaves rfl, rfl⟩
  rcases hleaves with ⟨r, hr, hargument⟩
  rcases exists_loop_of_leaves hr with ⟨fuel, hloop⟩
  have hroom : r.argument + 1 < argsSize := by omega
  have hwrite := writeAt_fin r.args ⟨r.argument + 1, hroom⟩ none
  refine ⟨fuel, r.args.set (r.argument + 1) none hroom, ?_⟩
  unfold splitCommand
  rw [hloop, ok_bind, hwrite]

/-- In this environment every other command is forked. -/
theorem exposed_reaches (hrange : CommandInRange text) (hstops : ¬ Stops text)
    (haliases : l.exec.aliases = exposedAliases) : ReachesFork exposedEnvironment text l := by
  unfold Stops at hstops
  rw [not_or, not_or] at hstops
  rcases hstops with ⟨hlast, hhead, halias⟩
  rcases exists_split hrange hlast (exposedEnvironment.leftover l.exec.forks).args with
    ⟨fuel, args, hsplit⟩
  have hfirst : ∃ first, args.toList[0]? = some (some first) ∧ first ≠ aliasLiteral := by
    by_cases hne : text = []
    · subst hne
      refine ⟨[97], ?_, by decide⟩
      cases fuel with
      | zero => cases hsplit
      | succ fuel =>
          cases hsplit
          rfl
    · cases hwords : words text with
      | nil => exact absurd hwords (words_ne_nil text)
      | cons w ws =>
          have hmem : w ∈ words text := by
            rw [hwords]
            exact List.mem_cons_self
          have hslot := first_slot hne hwords (hrange.short w hmem).le hsplit
          have hw : w ≠ [] := by
            rintro rfl
            have htext := intercalate_words text
            rw [hwords] at htext
            cases ws with
            | nil => exact hne htext.symm
            | cons v ws =>
                rw [List.intercalate_cons_cons] at htext
                apply hhead
                rw [← htext]
                rfl
          refine ⟨w, ?_, ?_⟩
          · rw [hslot, slot, if_neg hw]
          · intro he
            rw [hwords, he] at halias
            exact halias rfl
  rcases hfirst with ⟨first, hget, hne⟩
  have hread : readAt args 0 = .ok (some first) := (readAt_eq_ok_iff (i := 0)).mpr hget
  have hname := exposed_alias first
  rw [← haliases] at hname
  exact ⟨fuel, args, first, hsplit, hread, hne, hname.1, hname.2⟩

/-! ## The loop over a group -/

section Groups
variable {next : QueueNode} {more : List QueueNode}

/-- Behind a launched command the loop goes on at the next one. -/
theorem levelLoop_following (hgo : l.eqprio = true ∧ l.paral = true)
    (hlaunch : launch env fuel node.command (Level.launching node l) = .ok (.proceeds m)) :
    levelLoop env fuel (node :: next :: more) l =
      levelLoop env fuel (next :: more) (Level.following node next m) := by
  unfold Level.launching at hlaunch
  rw [levelLoop, if_pos hgo]
  simp only [hlaunch, ok_bind]
  rfl

theorem comesTo_following {r : Progress} (hgo : l.eqprio = true ∧ l.paral = true)
    (hlaunch : ComesTo (fun fuel => launch env fuel node.command (Level.launching node l))
      (.proceeds m))
    (hloop : ComesTo (fun fuel => levelLoop env fuel (next :: more) (Level.following node next m))
      r) : ComesTo (fun fuel => levelLoop env fuel (node :: next :: more) l) r := by
  rcases hlaunch with ⟨enough, hlaunch⟩
  rcases hloop with ⟨enough', hloop⟩
  refine ⟨max enough enough', fun fuel hle => ?_⟩
  have hfirst := hlaunch fuel ((Nat.le_max_left _ _).trans hle)
  exact (levelLoop_following hgo hfirst).trans (hloop fuel ((Nat.le_max_right _ _).trans hle))

theorem levelLoop_last (hgo : l.eqprio = true ∧ l.paral = true)
    (hlaunch : launch env fuel node.command (Level.launching node l) = .ok (.proceeds m)) :
    levelLoop env fuel [node] l =
      .ok (.proceeds { m with exec := { m.exec with qforexecution := [] } }) := by
  unfold Level.launching at hlaunch
  rw [levelLoop, if_pos hgo]
  simp only [hlaunch, ok_bind]
  rfl

/-- A loop that is left behind its group launched its first command. -/
theorem levelLoop_launches {l' : Level} (hgo : l.eqprio = true ∧ l.paral = true)
    (h : levelLoop env fuel (node :: rest) l = .ok (.proceeds l')) :
    ∃ m, launch env fuel node.command (Level.launching node l) = .ok (.proceeds m) := by
  rw [levelLoop, if_pos hgo] at h
  rcases bind_eq_ok.mp h with ⟨progress, hlaunch, h⟩
  cases progress with
  | returns s => cases h
  | proceeds m => exact ⟨m, hlaunch⟩

theorem following_go (hparal : m.paral = if node.priority = 255 then false else true) :
    ((Level.following node next m).eqprio = true ∧ (Level.following node next m).paral = true) ↔
      sameLevel node next = true := by
  unfold Level.following sameLevel
  simp only [hparal, Bool.and_eq_true, decide_eq_true_eq]
  split_ifs with h255
  · simp [h255]
  · simp [h255]

/-- What is launched when the loop is entered for a command. -/
theorem launched (hparal : l.paral = true)
    (hlaunch : launch env fuel node.command (Level.launching node l) = .ok (.proceeds m)) :
    ReachesFork env node.command (Level.launching node l) ∧ l.no_process < MAX_CMD_NUM ∧
      m.no_process = l.no_process ∧ (m.paral = if node.priority = 255 then false else true) ∧
      m.exec.aliases = l.exec.aliases := by
  rcases launch_proceeds hlaunch with ⟨hreaches, hroom, hcount, hm, haliases⟩
  refine ⟨hreaches, hroom, hcount, ?_, haliases⟩
  rw [hm]
  unfold Level.launching
  rw [hparal]

/-- Behind a group that fits the rest of the queue fits. -/
theorem levelLoop_fits_rest {l' : Level} (hgo : l.eqprio = true ∧ l.paral = true)
    (hfits : FitsFrom l.no_process (node :: rest))
    (h : levelLoop env fuel (node :: rest) l = .ok (.proceeds l')) :
    l'.no_process < MAX_CMD_NUM ∧ FitsFrom 0 l'.exec.qforexecution := by
  induction rest generalizing node l with
  | nil =>
      rcases levelLoop_launches hgo h with ⟨m, hlaunch⟩
      rcases launched hgo.2 hlaunch with ⟨_, hroom, hcount, _, _⟩
      rw [levelLoop_last hgo hlaunch] at h
      cases h
      exact ⟨hcount.trans_lt hroom, trivial⟩
  | cons next more ih =>
      rcases levelLoop_launches hgo h with ⟨m, hlaunch⟩
      rcases launched hgo.2 hlaunch with ⟨hreaches, hroom, hcount, hparal, _⟩
      have hstops := not_stops_of_fork hfits.command hreaches
      have hnext := (hfits.2.resolve_left hstops).2
      rw [levelLoop_following hgo hlaunch] at h
      by_cases hsame : sameLevel node next = true
      · rw [if_pos hsame, ← hcount] at hnext
        exact ih ((following_go hparal).mpr hsame) hnext h
      · rw [if_neg hsame] at hnext
        rw [levelLoop_stop (mt (following_go hparal).mp hsame)] at h
        cases h
        refine ⟨?_, hnext.2⟩
        rw [← hcount] at hnext
        exact hnext.1

/-- The aliases stay, and the rest of the queue is shorter. -/
theorem levelLoop_shorter {l' : Level} (hgo : l.eqprio = true ∧ l.paral = true)
    (h : levelLoop env fuel (node :: rest) l = .ok (.proceeds l')) :
    l'.exec.aliases = l.exec.aliases ∧ l'.exec.qforexecution.length ≤ rest.length := by
  induction rest generalizing node l with
  | nil =>
      rcases levelLoop_launches hgo h with ⟨m, hlaunch⟩
      rcases launched hgo.2 hlaunch with ⟨_, _, _, _, haliases⟩
      rw [levelLoop_last hgo hlaunch] at h
      cases h
      exact ⟨haliases, Nat.le_refl 0⟩
  | cons next more ih =>
      rcases levelLoop_launches hgo h with ⟨m, hlaunch⟩
      rcases launched hgo.2 hlaunch with ⟨_, _, _, hparal, haliases⟩
      rw [levelLoop_following hgo hlaunch] at h
      by_cases hsame : sameLevel node next = true
      · rcases ih ((following_go hparal).mpr hsame) h with ⟨hkept, hlength⟩
        exact ⟨hkept.trans haliases, Nat.le_succ_of_le hlength⟩
      · rw [levelLoop_stop (mt (following_go hparal).mp hsame)] at h
        cases h
        exact ⟨haliases, Nat.le_refl _⟩

end Groups

/-! ## A queue that fits -/

theorem pass_cases (hp : queuePass env fuel s = .again t) :
    ∃ node rest l waits, s.qforexecution = node :: rest ∧
      levelLoop env fuel (node :: rest) (Level.start env s) = .ok (.proceeds l) ∧
      t = l.exec.print waits := by
  unfold queuePass at hp
  cases hq : s.qforexecution with
  | nil =>
      rw [hq] at hp
      cases hp
  | cons node rest =>
      rw [hq] at hp
      dsimp only at hp
      cases hloop : levelLoop env fuel (node :: rest) (Level.start env s) with
      | error stop =>
          unfold Level.start at hloop
          rw [hloop] at hp
          cases hp
      | ok progress =>
          unfold Level.start at hloop
          rw [hloop] at hp
          cases progress with
          | returns u => cases hp
          | proceeds l =>
              dsimp only at hp
              cases hwait : waitLoop l.pid_child (l.no_process + 1) 0 with
              | error stop =>
                  rw [hwait] at hp
                  cases hp
              | ok waits =>
                  rw [hwait] at hp
                  cases hp
                  exact ⟨node, rest, l, waits, rfl, hloop, rfl⟩

theorem start_go (env : Environment) (s : Exec) :
    (Level.start env s).eqprio = true ∧ (Level.start env s).paral = true := ⟨rfl, rfl⟩

theorem AtGroup.fits (h : AtGroup env aliases q s) (hq : FitsFrom 0 q) :
    FitsFrom 0 s.qforexecution := by
  induction h with
  | start => exact hq
  | @next s t fuel _ hp ih =>
      rcases pass_cases hp with ⟨node, rest, l, waits, hs, hloop, rfl⟩
      rw [hs] at ih
      exact (levelLoop_fits_rest (start_go env s) ih hloop).2

theorem AtCommand.fits (h : AtCommand env aliases q node rest l) (hq : FitsFrom 0 q) :
    FitsFrom l.no_process (node :: rest) ∧ l.eqprio = true ∧ l.paral = true := by
  induction h with
  | @first s node rest hs hchain =>
      have hfits := hs.fits hq
      rw [hchain] at hfits
      exact ⟨hfits, rfl, rfl⟩
  | @next node next more l m fuel _ hlaunch hgo ih =>
      rcases ih with ⟨hfits, _, hparal⟩
      rcases launched hparal hlaunch with ⟨hreaches, _, hcount, hm, _⟩
      have hstops := not_stops_of_fork hfits.command hreaches
      have hnext := (hfits.2.resolve_left hstops).2
      rw [if_pos ((following_go hm).mp hgo), ← hcount] at hnext
      exact ⟨hnext, hgo⟩

theorem uses_in_range (hq : FitsFrom 0 q) {access : Access} (h : Uses env aliases q access) :
    access.InRange := by
  cases h with
  | split hl ha => exact (hl.fits hq).1.command.uses ha
  | parameter hl hi => exact hi.trans_lt (by decide)
  | fork hl hfork =>
      have hfits := (hl.fits hq).1
      exact hfits.room (not_stops_of_fork hfits.command hfork)
  | @wait s node rest l fuel index hs hchain hloop hi =>
      have hfits := hs.fits hq
      rw [hchain] at hfits
      exact hi.trans_lt (levelLoop_fits_rest (start_go env s) hfits hloop).1

/-! ## A queue that does not fit -/

section Exposed
variable (h : ∀ access, Uses exposedEnvironment exposedAliases q access → access.InRange)
include h

theorem command_in_range (hl : AtCommand exposedEnvironment exposedAliases q node rest l) :
    CommandInRange node.command :=
  commandInRange_of_uses fun access ha => h access (.split hl ha)

/-- The commands of the group fit, if behind the group the queue fits. -/
theorem group_fits (hl : AtCommand exposedEnvironment exposedAliases q node rest l)
    (hgo : l.eqprio = true ∧ l.paral = true) (haliases : l.exec.aliases = exposedAliases)
    (hrest : ∀ l', ComesTo (fun fuel => levelLoop exposedEnvironment fuel (node :: rest) l)
        (.proceeds l') → l'.no_process < MAX_CMD_NUM ∧ FitsFrom 0 l'.exec.qforexecution) :
    FitsFrom l.no_process (node :: rest) := by
  induction rest generalizing node l with
  | nil =>
      have hrange := command_in_range h hl
      refine ⟨hrange, ?_⟩
      by_cases hstops : Stops node.command
      · exact .inl hstops
      · exact .inr (h _ (.fork hl (exposed_reaches hrange hstops haliases)))
  | cons next more ih =>
      have hrange := command_in_range h hl
      refine ⟨hrange, ?_⟩
      by_cases hstops : Stops node.command
      · exact .inl hstops
      · right
        have hreaches : ReachesFork exposedEnvironment node.command (Level.launching node l) :=
          exposed_reaches hrange hstops haliases
        have hroom : l.no_process < MAX_CMD_NUM := h _ (.fork hl hreaches)
        refine ⟨hroom, ?_⟩
        rcases launch_of_fork exposed_fork hreaches hroom with ⟨m, hcomes⟩
        have hlaunch := hcomes.choose_spec _ (Nat.le_refl _)
        rcases launched hgo.2 hlaunch with ⟨_, _, hcount, hparal, hkept⟩
        by_cases hsame : sameLevel node next = true
        · rw [if_pos hsame, ← hcount]
          have hgo' := (following_go hparal).mpr hsame
          exact ih (.next hl hlaunch hgo') hgo' (hkept.trans haliases)
            fun l' hloop => hrest l' (comesTo_following hgo hcomes hloop)
        · rw [if_neg hsame, ← hcount]
          have hstop : ComesTo (fun fuel => levelLoop exposedEnvironment fuel (next :: more)
              (Level.following node next m)) (.proceeds
                { Level.following node next m with
                  exec := { m.exec with qforexecution := next :: more } }) :=
            ⟨0, fun fuel _ => levelLoop_stop (mt (following_go hparal).mp hsame)⟩
          exact hrest _ (comesTo_following hgo hcomes hstop)

/-- Behind a group the loop over the queue is reached again. -/
theorem group_ends (hs : AtGroup exposedEnvironment exposedAliases q s)
    (hq : s.qforexecution = node :: rest)
    (hloop : levelLoop exposedEnvironment fuel (node :: rest) (Level.start exposedEnvironment s) =
      .ok (.proceeds l)) :
    l.no_process < MAX_CMD_NUM ∧ ∃ waits,
      AtGroup exposedEnvironment exposedAliases q (l.exec.print waits) := by
  have hroom : l.no_process < MAX_CMD_NUM := h _ (.wait hs hq hloop (Nat.le_refl _))
  have hwait : waitLoop l.pid_child (l.no_process + 1) 0 =
      .ok (((l.pid_child.toList.drop 0).take (l.no_process + 1)).map Event.waitpid) :=
    (waitLoop_eq_ok (Nat.zero_le _)).mpr ⟨by omega, rfl⟩
  exact ⟨hroom, _, .next hs (queuePass_again hq hloop hwait)⟩

theorem fits_of_in_range (hs : AtGroup exposedEnvironment exposedAliases q s)
    (haliases : s.aliases = exposedAliases) : FitsFrom 0 s.qforexecution := by
  induction hn : s.qforexecution.length using Nat.strong_induction_on generalizing s with
  | _ n ih =>
      subst hn
      cases hq : s.qforexecution with
      | nil => trivial
      | cons node rest =>
          apply group_fits h (.first hs hq) (start_go _ s) haliases
          rintro l' ⟨enough, hcomes⟩
          have hloop := hcomes enough (Nat.le_refl _)
          rcases levelLoop_shorter (start_go _ s) hloop with ⟨hkept, hlength⟩
          rcases group_ends h hs hq hloop with ⟨hroom, waits, hnext⟩
          have hshorter : l'.exec.qforexecution.length < s.qforexecution.length := by
            rw [hq]
            exact Nat.lt_succ_of_le hlength
          exact ⟨hroom, ih _ hshorter (s := l'.exec.print waits) hnext (hkept.trans haliases) rfl⟩

end Exposed

/-- Whatever the aliases are and the arrays held before, all indices are in range exactly if the
queue fits. -/
theorem queue_in_range_iff (q : List QueueNode) :
    (∀ env aliases access, Uses env aliases q access → access.InRange) ↔ FitsFrom 0 q :=
  ⟨fun h => fits_of_in_range (fun access => h exposedEnvironment exposedAliases access) .start rfl,
    fun h _ _ _ ha => uses_in_range h ha⟩

/-! ## Accepted lines -/

/-- The queue of the commands of a line. -/
def queueOf (before line : List UInt8) : List QueueNode :=
  (enqueueCalls (readOf before line).calls qcreate).first

end MinixOS.ExecutionBounds
