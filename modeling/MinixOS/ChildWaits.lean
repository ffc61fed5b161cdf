import MinixOS.ExecutionBarrier
import Mathlib.Algebra.Ring.Nat

/-!
# Whom the shell waits for

Behind the loop over one group the elements of `pid_child` up to the index `no_process` are
waited for. The loop increments this index behind every command but the last one of the
queue. So behind the last group the elements are the process ids of the group. Behind
another one they are these and one more, which was not assigned to.
-/
namespace MinixOS.ChildWaits
open LoopExecution CheckedExecution CommandQueue Tokenizer ShellExecution CommandSplitting
  ExecutionBarrier

/-- Every block of calls forks commands with words that the child can read, and waits for the processes
forked in it, with one call for each. -/
def OwnChildren (aliases : List Alias) (q : List QueueNode) (log : List Event) : Prop :=
  ∃ blocks : List Block, log.filter isProcessCall = blocks.flatMap Block.events ∧
    blocks.map (fun b => b.forks.map Prod.fst) =
      (groups q).map (fun g => g.map fun node => argsOf aliases node.command) ∧
    (∀ b ∈ blocks, ∀ f ∈ b.forks, Terminated f.1) ∧
    ∀ b ∈ blocks, b.waits.Perm (b.forks.map Prod.snd)

/-- Behind every block but the last one there is a call too many. -/
def OneTooMany : List Block → Prop
  | [] => True
  | [b] => b.waits = b.forks.map Prod.snd
  | b :: b' :: rest =>
      (∃ pid, b.waits = b.forks.map Prod.snd ++ [pid]) ∧ OneTooMany (b' :: rest)

section Waits
variable {env : Environment} {fuel : ℕ} {g rem : List QueueNode} {s t : Exec} {l : Level}

/-- The elements that are waited for begin with the ids of the group. -/
theorem waits_begin (h : LevelRun env g rem (Level.start env s) l)
    (hroom : l.no_process + 1 ≤ MAX_CMD_NUM) :
    ∃ more : List ℤ, more.length = (if rem = [] then 0 else 1) ∧
      l.pid_child.toList.take (l.no_process + 1) =
        (forksOf env s.aliases s.forks g).map Prod.snd ++ more := by
  have hcounted := h.counted
  have hstart : (Level.start env s).no_process = 0 := rfl
  have hforks : (Level.start env s).exec.forks = s.forks := rfl
  have hsize : l.pid_child.toList.length = MAX_CMD_NUM := Vector.length_toList
  have hle : g.length ≤ l.no_process + 1 := by
    split_ifs at hcounted <;> omega
  have hids : l.pid_child.toList.take g.length =
      (forksOf env s.aliases s.forks g).map Prod.snd := by
    apply List.ext_getElem?
    intro i
    rw [List.getElem?_map, forksOf_getElem?]
    rcases Nat.lt_or_ge i g.length with hi | hi
    · have hpid := h.pids i hi
      rw [hstart, Nat.zero_add, hforks] at hpid
      rw [List.getElem?_take_of_lt hi, hpid, List.getElem?_eq_getElem hi]
      rfl
    · rw [List.getElem?_eq_none hi, List.getElem?_eq_none]
      · rfl
      · exact (List.length_take_le _ _).trans hi
  refine ⟨(l.pid_child.toList.take (l.no_process + 1)).drop g.length, ?_, ?_⟩
  · rw [List.length_drop, List.length_take, hsize]
    split_ifs at hcounted ⊢ <;> omega
  · have hall := List.take_append_drop g.length (l.pid_child.toList.take (l.no_process + 1))
    rw [List.take_take, Nat.min_eq_left hle, hids] at hall
    exact hall.symm

variable {node : QueueNode} {rest : List QueueNode}

/-- What one pass over the group `g` adds, where `rem` is what follows in the chain. -/
structure BlockRun (g rem : List QueueNode) (s t : Exec) (b : Block) : Prop where
  rest : t.qforexecution = rem
  aliases : t.aliases = s.aliases
  log : t.log.filter isProcessCall = s.log.filter isProcessCall ++ b.events
  forks : b.forks.map Prod.fst = g.map fun node => argsOf s.aliases node.command
  waits : ∃ more : List ℤ, more.length = (if rem = [] then 0 else 1) ∧
    b.waits = b.forks.map Prod.snd ++ more

theorem blockRun_of_levelRun (h : LevelRun env g rem (Level.start env s) l)
    (hroom : l.no_process + 1 ≤ MAX_CMD_NUM) :
    ∃ b, BlockRun g rem s
      (l.exec.print ((l.pid_child.toList.take (l.no_process + 1)).map Event.waitpid)) b := by
  have hlog := h.launches.log
  rcases waits_begin h hroom with ⟨more, hlength, hwaits⟩
  refine ⟨⟨forksOf env s.aliases s.forks g, l.pid_child.toList.take (l.no_process + 1)⟩, ?_⟩
  constructor
  · exact h.rest
  · exact h.launches.aliases
  · unfold Exec.print Block.events
    rw [hlog, List.filter_append, List.filter_append, filter_waits, List.append_assoc]
    congr 2
    exact filter_forkLog _
  · exact forksOf_args env s.aliases s.forks g
  · exact ⟨more, hlength, hwaits⟩

theorem groups_eq_nil {q : List QueueNode} (h : (groups q).length = 0) : q = [] := by
  cases q with
  | nil => rfl
  | cons node rest =>
      rw [groups_cons] at h
      cases h

theorem oneTooMany_cons {b : Block} {blocks : List Block}
    (hcount : blocks.length = (groups rem).length)
    (hwaits : ∃ more : List ℤ, more.length = (if rem = [] then 0 else 1) ∧
      b.waits = b.forks.map Prod.snd ++ more)
    (h : OneTooMany blocks) : OneTooMany (b :: blocks) := by
  rcases hwaits with ⟨more, hlength, hwaits⟩
  cases blocks with
  | nil =>
      rw [if_pos (groups_eq_nil hcount.symm)] at hlength
      rw [List.eq_nil_of_length_eq_zero hlength, List.append_nil] at hwaits
      exact hwaits
  | cons b' blocks =>
      have hrem : rem ≠ [] := by
        intro hrem
        rw [hrem] at hcount
        cases hcount
      rw [if_neg hrem] at hlength
      rcases List.length_eq_one_iff.mp hlength with ⟨pid, rfl⟩
      exact ⟨⟨pid, hwaits⟩, h⟩

variable (hfork : ∀ n, env.fork n ≠ 0)
include hfork

/-- Without a builtin a pass is stopped, or it is one block of calls. -/
theorem pass_block (fuel : ℕ) (hq : s.qforexecution = node :: rest)
    (hs : ∀ a ∈ node :: rest, SingleSpaced a.command)
    (hext : ∀ a ∈ node :: rest, External s.aliases a.command) :
    (∃ stop, queuePass env fuel s = .leave (.error stop)) ∨
    ∃ t b, queuePass env fuel s = .again t ∧
      BlockRun (takeLevel node rest).1 (takeLevel node rest).2 s t b := by
  have hgo : (Level.start env s).eqprio = true ∧ (Level.start env s).paral = true := ⟨rfl, rfl⟩
  cases hloop : levelLoop env fuel (node :: rest) (Level.start env s) with
  | error stop => exact .inl ⟨stop, queuePass_stops hq hloop⟩
  | ok r =>
      rcases levelLoop_cases hfork node rest hgo hs hloop with
        ⟨_, _, l, rfl, hrun⟩ | ⟨t, _, hreturns⟩
      · cases hwait : waitLoop l.pid_child (l.no_process + 1) 0 with
        | error stop => exact .inl ⟨stop, queuePass_waits hq hloop hwait⟩
        | ok waits =>
            right
            obtain ⟨hroom, rfl⟩ := (waitLoop_eq_ok (Nat.zero_le _)).mp hwait
            rw [Nat.zero_add] at hroom
            rcases blockRun_of_levelRun hrun hroom with ⟨b, hb⟩
            exact ⟨_, b, queuePass_again hq hloop hwait, hb⟩
      · rcases hreturns.not_external with ⟨a, ha, hnot⟩
        exact absurd (hext a (mem_group ha)) hnot

/-- An execution that comes to an end is a block of calls for each group. -/
theorem blocks_of_run {passes : ℕ} {out : Exec}
    (hs : ∀ a ∈ s.qforexecution, SingleSpaced a.command)
    (hext : ∀ a ∈ s.qforexecution, External s.aliases a.command)
    (h : run (queuePass env fuel) passes s = some (.ok out)) :
    ∃ blocks : List Block,
      out.log.filter isProcessCall = s.log.filter isProcessCall ++ blocks.flatMap Block.events ∧
      blocks.map (fun b => b.forks.map Prod.fst) =
        (groups s.qforexecution).map (fun g => g.map fun node => argsOf s.aliases node.command) ∧
      OneTooMany blocks := by
  induction passes generalizing s with
  | zero => cases h
  | succ passes ih =>
      cases hq : s.qforexecution with
      | nil =>
          rw [run_succ_of_leave (queuePass_nil hq)] at h
          cases h
          exact ⟨[], (List.append_nil _).symm, rfl, trivial⟩
      | cons node rest =>
          rw [hq] at hs hext
          rcases pass_block hfork fuel hq hs hext with ⟨stop, hstop⟩ | ⟨t, b, hagain, hb⟩
          · rw [run_succ_of_leave hstop] at h
            cases h
          · rw [run_succ_of_again hagain] at h
            have hs' : ∀ a ∈ t.qforexecution, SingleSpaced a.command := by
              rw [hb.rest]
              exact fun a ha => hs a (mem_rest ha)
            have hext' : ∀ a ∈ t.qforexecution, External t.aliases a.command := by
              rw [hb.rest, hb.aliases]
              exact fun a ha => hext a (mem_rest ha)
            rcases ih hs' hext' h with ⟨blocks, hlog, hforks, hmany⟩
            rw [hb.rest, hb.aliases] at hforks
            refine ⟨b :: blocks, ?_, ?_, ?_⟩
            · rw [hlog, hb.log, List.flatMap_cons, List.append_assoc]
            · rw [groups_cons, List.map_cons, List.map_cons, hb.forks, hforks]
            · have hcount := congrArg List.length hforks
              rw [List.length_map, List.length_map] at hcount
              exact oneTooMany_cons hcount hb.waits hmany

theorem blocks_of_ok {q : List QueueNode} {aliases : List Alias} {out : Exec}
    (h : qexecution env fuel aliases q = .ok out) (hext : ∀ a ∈ q, External aliases a.command)
    (hs : ∀ a ∈ q, SingleSpaced a.command) :
    ∃ blocks : List Block, out.log.filter isProcessCall = blocks.flatMap Block.events ∧
      blocks.map (fun b => b.forks.map Prod.fst) =
        (groups q).map (fun g => g.map fun node => argsOf aliases node.command) ∧
      OneTooMany blocks := by
  cases q with
  | nil =>
      cases h
      exact ⟨[], rfl, rfl, trivial⟩
  | cons first chain => exact blocks_of_run hfork hs hext (loop_eq_ok.mp h)

end Waits

/-! ## The number of calls -/

def forkCount (blocks : List Block) : ℕ := (blocks.map fun b => b.forks.length).sum
def waitCount (blocks : List Block) : ℕ := (blocks.map fun b => b.waits.length).sum

theorem length_events (blocks : List Block) :
    (blocks.flatMap Block.events).length = forkCount blocks + waitCount blocks := by
  unfold forkCount waitCount
  induction blocks with
  | nil => rfl
  | cons b blocks ih =>
      have hb : b.events.length = b.forks.length + b.waits.length := by
        simp [Block.events]
      rw [List.flatMap_cons, List.length_append, ih, hb]
      simp only [List.map_cons, List.sum_cons]
      omega

/-- The forks are those of the groups, so that their number is known. -/
theorem forkCount_eq {aliases : List Alias} {q : List QueueNode} {blocks : List Block}
    (h : blocks.map (fun b => b.forks.map Prod.fst) =
      (groups q).map (fun g => g.map fun node => argsOf aliases node.command)) :
    forkCount blocks = ((groups q).map List.length).sum := by
  have hlengths := congrArg (fun l => (l.map List.length).sum) h
  simp only [List.map_map, Function.comp_def, List.length_map] at hlengths
  exact hlengths

theorem waitCount_own {blocks : List Block}
    (h : ∀ b ∈ blocks, b.waits.Perm (b.forks.map Prod.snd)) :
    waitCount blocks = forkCount blocks := by
  unfold waitCount forkCount
  congr 1
  apply List.map_congr_left
  intro b hb
  rw [(h b hb).length_eq, List.length_map]

theorem waitCount_oneTooMany {blocks : List Block} (h : OneTooMany blocks) (hne : blocks ≠ []) :
    waitCount blocks + 1 = forkCount blocks + blocks.length := by
  induction blocks with
  | nil => exact absurd rfl hne
  | cons b blocks ih =>
      cases blocks with
      | nil =>
          have hwaits : b.waits = b.forks.map Prod.snd := h
          have hb : b.waits.length = b.forks.length := by
            rw [hwaits, List.length_map]
          simp [waitCount, forkCount, hb]
      | cons b' blocks =>
          rcases h with ⟨⟨pid, hwaits⟩, hmany⟩
          have hb : b.waits.length = b.forks.length + 1 := by
            rw [hwaits, List.length_append, List.length_map]
            rfl
          have hrest := ih hmany (List.cons_ne_nil b' blocks)
          change b.waits.length + waitCount (b' :: blocks) + 1 =
            b.forks.length + forkCount (b' :: blocks) + ((b' :: blocks).length + 1)
          omega

/-- With a second group there are more calls than processes. -/
theorem one_group {aliases : List Alias} {q : List QueueNode} {log : List Event}
    {blocks : List Block} (hlog : log.filter isProcessCall = blocks.flatMap Block.events)
    (hforks : blocks.map (fun b => b.forks.map Prod.fst) =
      (groups q).map (fun g => g.map fun node => argsOf aliases node.command))
    (hmany : OneTooMany blocks) (hown : OwnChildren aliases q log) : (groups q).length ≤ 1 := by
  rcases hown with ⟨own, hlog', hforks', _, hwaits⟩
  have hcalls := congrArg List.length (hlog.symm.trans hlog')
  rw [length_events, length_events, forkCount_eq hforks, forkCount_eq hforks',
    waitCount_own hwaits, forkCount_eq hforks'] at hcalls
  have hcount := congrArg List.length hforks
  rw [List.length_map, List.length_map] at hcount
  cases blocks with
  | nil =>
      rw [← hcount]
      exact Nat.zero_le 1
  | cons b blocks =>
      have hmore := waitCount_oneTooMany hmany (List.cons_ne_nil b blocks)
      rw [forkCount_eq hforks] at hmore
      omega

/-- An execution comes to an end and waits for its own children only, and for each of them once,
exactly if there is room in the arrays, the words end in their buffers, and all commands are executed at
once. -/
theorem own_children_iff {env : Environment} (hfork : ∀ n, 0 < env.fork n)
    {aliases : List Alias} {q : List QueueNode} (hext : ∀ a ∈ q, External aliases a.command)
    (hs : ∀ a ∈ q, SingleSpaced a.command) :
    (∃ fuel out, qexecution env fuel aliases q = .ok out ∧ OwnChildren aliases q out.log) ↔
      Runs q ∧ (groups q).length ≤ 1 := by
  have hshell : ∀ n, env.fork n ≠ 0 := fun n => (hfork n).ne'
  constructor
  · rintro ⟨fuel, out, hout, hown⟩
    rcases blocks_of_ok hshell hout hext hs with ⟨blocks, hlog, hforks, hmany⟩
    have hone := one_group hlog hforks hmany hown
    rcases hown with ⟨_, _, hforks', hterminated, _⟩
    exact ⟨⟨(blocks_of_external hshell hout hext hs).1, (terminated_blocks hforks').mp hterminated⟩,
      hone⟩
  · rintro ⟨⟨hfits, hterminated⟩, hgroups⟩
    have hlast : ∀ fuel, argsSize < fuel → LastLaunches env fuel
        { qforexecution := q, aliases := aliases, forks := 0, log := [] } := by
      intro fuel _ b hb hnot
      exact absurd (hext b (List.mem_of_getLast? hb)) hnot
    rcases exists_ok_of_fits hshell hs hfits (builtinLast_of_external hext) hlast with
      ⟨fuel, out, hout⟩
    rcases blocks_of_ok hshell hout hext hs with ⟨blocks, hlog, hforks, hmany⟩
    refine ⟨fuel, out, hout, blocks, hlog, hforks, (terminated_blocks hforks).mpr hterminated, ?_⟩
    have hcount := congrArg List.length hforks
    rw [List.length_map, List.length_map] at hcount
    intro b hb
    cases blocks with
    | nil => cases hb
    | cons first blocks =>
        have hnil : blocks = [] := by
          rw [List.length_cons] at hcount
          exact List.eq_nil_of_length_eq_zero (by omega)
        subst hnil
        have hwaits : first.waits = first.forks.map Prod.snd := hmany
        rw [List.mem_singleton] at hb
        rw [hb, hwaits]

/-- Two commands that are executed at once. -/
theorem own_children_two :
    ∃ fuel out, qexecution plainEnvironment fuel [] [⟨[97], 254⟩, ⟨[98], 254⟩] = .ok out ∧
      OwnChildren [] [⟨[97], 254⟩, ⟨[98], 254⟩] out.log :=
  (own_children_iff plainEnvironment_fork (by decide) (by decide)).mpr (by decide)

/-- Two commands one behind the other, as the line `a,b,` gives them. -/
theorem own_children_fails :
    ¬ ∀ (env : Environment) (aliases : List Alias) (q : List QueueNode), (∀ n, 0 < env.fork n) →
      (∀ a ∈ q, External aliases a.command) → (∀ a ∈ q, SingleSpaced a.command) →
      ∃ fuel out, qexecution env fuel aliases q = .ok out ∧ OwnChildren aliases q out.log := by
  intro h
  rcases h plainEnvironment [] [⟨[97], 255⟩, ⟨[98], 255⟩] plainEnvironment_fork (by decide)
    (by decide) with ⟨fuel, out, hout, hown⟩
  have hshell : ∀ n, plainEnvironment.fork n ≠ 0 := fun n => (plainEnvironment_fork n).ne'
  rcases blocks_of_ok hshell hout (by decide) (by decide) with ⟨blocks, hlog, hforks, hmany⟩
  have hgroups := one_group hlog hforks hmany hown
  exact absurd hgroups (by decide)

end MinixOS.ChildWaits
