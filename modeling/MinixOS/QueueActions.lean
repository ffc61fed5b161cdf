import MinixOS.AliasDefinition
import MinixOS.ExecutionBarrier

/-!
# Builtins among the commands of a queue

`qexecution` handles `alias` and `cd` itself, and returns from within its loops when it
has done so. The commands behind such a builtin are never looked at, and the children
that were forked in front of it in the same group are never waited for. Every command is
acted upon just if a builtin is the last command of the queue and alone in its group,
and everything fits.

The abstract view of an execution is the sequence of its acts: commands that were
forked, changes of the directory, and definitions of aliases.
-/
namespace MinixOS.QueueActions
open LoopExecution CheckedExecution CommandQueue Tokenizer ShellExecution CommandSplitting
  ExecutionBarrier AliasFile AliasDefinition

/-! ## What is to be done -/

/-- The names of the aliases, each with its command. -/
abbrev Table := List (Word × Word)

def entries (aliases : List Alias) : Table := aliases.map fun a => (a.name, a.command)

def substituted (table : Table) (w : Word) : Word := (table.lookup w).getD w

inductive Act where
  | forks (argv : List Word)
  | changesDirectory (path : Option Word)
  | definesAlias
deriving DecidableEq, Repr

/-- The parameter of a command `alias`. -/
def parameterOf (command : Word) : Option Word :=
  match words command with
  | first :: parameter :: _ => if first = aliasLiteral then some parameter else none
  | _ => none

/-- The table when a command was acted upon. A name keeps its first definition. -/
def define (table : Table) (command : Word) : Table :=
  match parameterOf command with
  | none => table
  | some parameter =>
      if nameOf parameter ∈ table.map Prod.fst then table
      else table ++ [(nameOf parameter, commandOf parameter)]

def actOf (table : Table) (command : Word) : Act :=
  match words command with
  | [] => .forks []
  | first :: rest =>
      if first = aliasLiteral then .definesAlias
      else if substituted table first = cdLiteral then .changesDirectory rest.head?
      else .forks (substituted table first :: rest)

/-- One act for each command, in the order of the queue. -/
def actsOf (table : Table) : List QueueNode → List Act
  | [] => []
  | node :: q => actOf table node.command :: actsOf (define table node.command) q

def tableBehind (table : Table) (q : List QueueNode) : Table :=
  q.foldl (fun table node => define table node.command) table

/-! ## What was done -/

/-- The act that an event is part of. A fork that fails is none. -/
def observe : Event → Option Act
  | .fork argv pid => if pid = -1 then none else some (.forks argv)
  | .chdir path => some (.changesDirectory (some path))
  | .chdirHome => some (.changesDirectory none)
  | .printf text =>
      if text = "Alias created" ∨ text = "An alias with this name already exits \n" then
        some .definesAlias
      else none
  | _ => none

def actsIn (log : List Event) : List Act := log.filterMap observe

/-- Behind the fork of every child is a `waitpid` for it. -/
def Waited : List Event → Prop
  | [] => True
  | .fork _ pid :: log => (pid ≠ -1 → .waitpid pid ∈ log) ∧ Waited log
  | _ :: log => Waited log

/-- Every command of the queue was acted upon once, in order, each child can read the words it was
forked for, and no child is left. -/
structure ActsOnAll (aliases : List Alias) (q : List QueueNode) (out : Exec) : Prop where
  acts : actsIn out.log = actsOf (entries aliases) q
  readable : ∀ argv, .forks argv ∈ actsIn out.log → Terminated argv
  table : entries out.aliases = tableBehind (entries aliases) q
  waited : Waited out.log

/-- The command is one line of words with single blanks, and `alias` has a parameter with
an equals sign. -/
structure WellFormed (command : Word) : Prop where
  spaced : SingleSpaced command
  string : 0 ∉ command
  line : newline ∉ command
  parameter : (words command).head? = some aliasLiteral →
    ∃ parameter, parameterOf command = some parameter ∧ equalsSign ∈ parameter

def Exits (aliases : List Alias) (command : Word) : Prop :=
  (words command).head? ≠ some aliasLiteral ∧
    (argsOf aliases command).head? = some exitLiteral

instance (aliases : List Alias) : DecidablePred (Exits aliases) := fun command =>
  inferInstanceAs (Decidable ((words command).head? ≠ some aliasLiteral ∧
    (argsOf aliases command).head? = some exitLiteral))

/-! ## What can be done -/

/-- A word behind a builtin is a terminated string, and an alias can be defined. -/
structure BuiltinFits (tmp : Vector UInt8 512) (aliases : List Alias) (command : Word) :
    Prop where
  terminated : ∀ w ∈ (words command)[1]?, w.length < bufferSize
  defined : ∀ parameter ∈ parameterOf command, CanDefine tmp aliases parameter

/-- No fork fails, the arrays have room, and a builtin is the last command and alone in
its group. The execution was entered with `forks` forks made. -/
structure Actionable (env : Environment) (aliases : List Alias) (forks : ℕ)
    (q : List QueueNode) : Prop where
  fits : Fits q
  builtin : BuiltinLast aliases (groups q)
  forked : ∀ i, ∀ a ∈ q[i]?, External aliases a.command → env.fork (forks + i) ≠ -1
  last : ∀ b ∈ q.getLast?, ¬ External aliases b.command →
    BuiltinFits (env.leftover (forks + (q.length - 1))).tmp aliases b.command

/-- The words of the commands that are forked end in their buffers. -/
def Readable (aliases : List Alias) (q : List QueueNode) : Prop :=
  ∀ a ∈ q, External aliases a.command → Terminated (words a.command)

instance (aliases : List Alias) : DecidablePred (Readable aliases) := fun q =>
  inferInstanceAs (Decidable (∀ a ∈ q, External aliases a.command → Terminated (words a.command)))

/-! ## The specification and the code's predicates -/

section Specification
variable {aliases : List Alias} {command : Word}

theorem substituted_entries (aliases : List Alias) (w : Word) :
    substituted (entries aliases) w = (isAlias w aliases).1 := by
  induction aliases with
  | nil => rfl
  | cons entry aliases ih =>
      unfold substituted entries isAlias
      rw [List.map_cons, List.lookup_cons]
      split_ifs with h
      · simp [h]
      · rw [beq_false_of_ne h]
        exact ih

theorem actOf_external (h : External aliases command) :
    actOf (entries aliases) command = .forks (argsOf aliases command) := by
  obtain ⟨halias, _, hcd⟩ := h
  unfold argsOf at hcd ⊢
  unfold actOf
  cases hwords : words command with
  | nil => rfl
  | cons first rest =>
      simp only [hwords, List.head?_cons, ne_eq, Option.some.injEq] at halias hcd
      simp only [if_neg halias, substituted_entries, if_neg hcd]

theorem define_external (h : External aliases command) (table : Table) :
    define table command = table := by
  have hnone : parameterOf command = none := by
    unfold parameterOf
    split
    · next first parameter rest hwords =>
        have halias := h.1
        rw [hwords] at halias
        exact if_neg fun he => halias (congrArg some he)
    · rfl
  simp only [define, hnone]

theorem not_external_cases (hext : ¬ External aliases command) (hexit : ¬ Exits aliases command) :
    ∃ w ws, words command = w :: ws ∧
      (w = aliasLiteral ∨ w ≠ aliasLiteral ∧ (isAlias w aliases).1 = cdLiteral) := by
  unfold External at hext
  unfold Exits at hexit
  unfold argsOf at hext hexit
  cases hwords : words command with
  | nil => exact absurd hwords (words_ne_nil command)
  | cons w ws =>
      refine ⟨w, ws, rfl, ?_⟩
      simp only [hwords, List.head?_cons, ne_eq, Option.some.injEq] at hext hexit
      by_cases halias : w = aliasLiteral
      · exact .inl halias
      · by_cases hcd : (isAlias w aliases).1 = cdLiteral
        · exact .inr ⟨halias, hcd⟩
        · exact absurd ⟨halias, fun h => hexit ⟨halias, h⟩, hcd⟩ hext

theorem actOf_builtin (hext : ¬ External aliases command) (hexit : ¬ Exits aliases command)
    (argv : List Word) : actOf (entries aliases) command ≠ .forks argv := by
  obtain ⟨w, ws, hwords, hcase⟩ := not_external_cases hext hexit
  unfold actOf
  rw [hwords]
  rcases hcase with halias | ⟨hne, hcd⟩
  · simp only [if_pos halias]
    exact nofun
  · simp only [if_neg hne, substituted_entries, if_pos hcd]
    exact nofun

end Specification

/-! ## One builtin -/

/-- What a builtin does to the variables that the loops carry along. -/
structure Done (command : Word) (s t : Exec) : Prop where
  acts : actsIn t.log = actsIn s.log ++ [actOf (entries s.aliases) command]
  table : entries t.aliases = define (entries s.aliases) command
  quiet : ∃ events, t.log = s.log ++ events ∧ ∀ e ∈ events, isProcessCall e = false

/-- What `cd` logs. -/
def cdEvents : Option Word → List Event
  | none => [.chdirHome, .printf "Directory has been changed to /root"]
  | some path => [.chdir path]

section Builtins
variable {env : Environment} {fuel : ℕ} {command w : Word} {ws : List Word} {l : Level}
  {args : Args}

theorem launch_alias
    (hsplit : splitCommand fuel (env.leftover l.exec.forks).args command = .ok args)
    (hholds : Holds (w :: ws) args) (hw : w = aliasLiteral) :
    launch env fuel command l =
      (asString ws.head? >>= fun parameter =>
        createAlias (env.leftover l.exec.forks).tmp parameter l.exec.aliases >>= fun out =>
          pure (.returns
            { l.exec with aliases := out.aliases, log := l.exec.log ++ out.log })) := by
  have hread : readAt args 1 = .ok ws.head? := by
    rw [List.head?_eq_getElem?]
    exact hholds.read (i := 1) (Nat.le_add_left 1 ws.length)
  simp only [launch, hsplit, ok_bind, hholds.first, if_pos hw, hread]

theorem launch_cd (hsplit : splitCommand fuel (env.leftover l.exec.forks).args command = .ok args)
    (hholds : Holds (w :: ws) args) (hw : w ≠ aliasLiteral)
    (hcd : (isAlias w l.exec.aliases).1 = cdLiteral) :
    launch env fuel command l =
      (asString ws.head? >>= fun path => pure (.returns (l.exec.print (cdEvents path)))) := by
  obtain ⟨args', hwrite, hholds'⟩ := hholds.substitute (isAlias w l.exec.aliases).1
  have hread : readAt args' 1 = .ok ws.head? := by
    rw [List.head?_eq_getElem?]
    exact hholds'.read (i := 1) (Nat.le_add_left 1 ws.length)
  have hexit : ¬ cdLiteral = exitLiteral := by decide
  rw [hcd] at hwrite
  simp only [launch, hsplit, ok_bind, hholds.first, if_neg hw, hcd, hwrite, if_neg hexit, if_true,
    hread]
  cases asString ws.head? with
  | error stop => rfl
  | ok path =>
      cases path with
      | none => rfl
      | some path => rfl

theorem asString_eq_ok {word string : Option Word} :
    asString word = .ok string ↔ string = word ∧ ∀ v ∈ word, v.length < bufferSize := by
  cases word with
  | none =>
      unfold asString
      simp [eq_comm]
  | some v =>
      simp only [asString]
      split_ifs with h
      · simp [h, eq_comm]
      · simp [h]

theorem WellFormed.definition (h : WellFormed command) (hwords : words command = w :: ws)
    (hw : w = aliasLiteral) : ∃ parameter, ws.head? = some parameter ∧
      parameterOf command = some parameter ∧
      (parameter.length < bufferSize → Definition parameter) := by
  obtain ⟨parameter, hparameter, hequals⟩ := h.parameter (by rw [hwords, hw]; rfl)
  have hhead : ws.head? = some parameter := by
    unfold parameterOf at hparameter
    rw [hwords, hw] at hparameter
    cases ws with
    | nil => cases hparameter
    | cons v ws => exact hparameter
  have hmem : parameter ∈ words command := by
    rw [hwords]
    exact List.mem_cons_of_mem w (List.mem_of_head? hhead)
  have hin : ∀ c ∈ parameter, c ∈ command := by
    intro c hc
    rw [← intercalate_words command]
    exact mem_intercalate hmem hc
  refine ⟨parameter, hhead, hparameter, fun hfits => ⟨hequals, ?_, ?_, hfits⟩⟩
  · exact fun hzero => h.string (hin 0 hzero)
  · exact fun hnewline => h.line (hin newline hnewline)

theorem parameterOf_eq_none (hwords : words command = w :: ws) (hw : w ≠ aliasLiteral) :
    parameterOf command = none := by
  unfold parameterOf
  rw [hwords]
  cases ws with
  | nil => rfl
  | cons v ws => exact if_neg hw

theorem entries_names (aliases : List Alias) :
    (entries aliases).map Prod.fst = aliases.map Alias.name := by
  simp [entries]

theorem alias_done {s : Exec} {parameter : Word} {out : AliasesOutcome}
    {tmp : Vector UInt8 512} (hdefinition : Definition parameter)
    (hparameter : parameterOf command = some parameter)
    (hact : actOf (entries s.aliases) command = .definesAlias)
    (hcall : createAlias tmp (some parameter) s.aliases = .ok out) :
    CanDefine tmp s.aliases parameter ∧
      Done command s { s with aliases := out.aliases, log := s.log ++ out.log } := by
  obtain ⟨hcan, hresult⟩ := createAlias_cases hdefinition hcall
  refine ⟨hcan, ?_⟩
  rw [← entries_names] at hresult
  rcases hresult with ⟨hdefined, haliases, hlog⟩ | ⟨hnew, entry, hname, hcommand, haliases, hlog⟩
  · constructor
    · rw [hact, hlog]
      unfold actsIn
      rw [List.filterMap_append]
      rfl
    · simp only [haliases, define, hparameter, if_pos hdefined]
    · refine ⟨out.log, rfl, ?_⟩
      rw [hlog]
      simp [isProcessCall]
  · have hentries : entries (s.aliases ++ [entry]) =
        entries s.aliases ++ [(nameOf parameter, commandOf parameter)] := by
      simp [entries, hname, hcommand]
    constructor
    · rw [hact, hlog]
      unfold actsIn
      rw [List.filterMap_append]
      rfl
    · simp only [haliases, define, hparameter, if_neg hnew]
      exact hentries
    · refine ⟨out.log, rfl, ?_⟩
      rw [hlog]
      simp [isProcessCall]

theorem cd_done {s : Exec} {path : Option Word} (hparameter : parameterOf command = none)
    (hact : actOf (entries s.aliases) command = .changesDirectory path) :
    Done command s (s.print (cdEvents path)) := by
  constructor
  · rw [hact]
    unfold Exec.print actsIn
    rw [List.filterMap_append]
    cases path with
    | none => rfl
    | some path => rfl
  · simp only [Exec.print, define, hparameter]
  · refine ⟨cdEvents path, rfl, ?_⟩
    cases path with
    | none => simp [cdEvents, isProcessCall]
    | some path => simp [cdEvents, isProcessCall]

/-- A builtin that comes to a result did what it is for. -/
theorem launch_done (hwell : WellFormed command)
    (hext : ¬ External l.exec.aliases command) (hexit : ¬ Exits l.exec.aliases command) {t : Exec}
    (h : launch env fuel command l = .ok (.returns t)) :
    CommandFits command ∧
      BuiltinFits (env.leftover l.exec.forks).tmp l.exec.aliases command ∧
      Done command l.exec t := by
  obtain ⟨hf, args, hsplit, hholds⟩ := launch_splits h hwell.spaced
  obtain ⟨w, ws, hwords, hkind⟩ := not_external_cases hext hexit
  have hsecond : (words command)[1]? = ws.head? := by
    rw [hwords, List.head?_eq_getElem?]
    rfl
  rw [hwords] at hholds
  rcases hkind with halias | ⟨halias, hcd⟩
  · obtain ⟨parameter, hhead, hparameter, hdefinition⟩ := hwell.definition hwords halias
    have hact : actOf (entries l.exec.aliases) command = .definesAlias := by
      unfold actOf
      rw [hwords]
      exact if_pos halias
    rw [launch_alias hsplit hholds halias] at h
    obtain ⟨string, hstring, h⟩ := bind_eq_ok.mp h
    obtain ⟨rfl, hterminated⟩ := asString_eq_ok.mp hstring
    obtain ⟨out, hcall, h⟩ := bind_eq_ok.mp h
    cases h
    rw [hhead] at hcall
    obtain ⟨hcan, hdone⟩ :=
      alias_done (hdefinition (hterminated parameter hhead)) hparameter hact hcall
    refine ⟨hf, ⟨by rw [hsecond]; exact hterminated, fun p hp => ?_⟩, hdone⟩
    rw [hparameter, Option.mem_some_iff] at hp
    rw [← hp]
    exact hcan
  · have hnone := parameterOf_eq_none hwords halias
    have hact : actOf (entries l.exec.aliases) command = .changesDirectory ws.head? := by
      simp only [actOf, hwords, if_neg halias, substituted_entries, if_pos hcd]
    rw [launch_cd hsplit hholds halias hcd] at h
    obtain ⟨path, hpath, h⟩ := bind_eq_ok.mp h
    obtain ⟨rfl, hterminated⟩ := asString_eq_ok.mp hpath
    cases h
    refine ⟨hf, ⟨by rw [hsecond]; exact hterminated, fun p hp => ?_⟩, cd_done hnone hact⟩
    rw [hnone] at hp
    cases hp

theorem launch_returns (hwell : WellFormed command) (hf : CommandFits command)
    (hext : ¬ External l.exec.aliases command) (hexit : ¬ Exits l.exec.aliases command)
    (hfits : BuiltinFits (env.leftover l.exec.forks).tmp l.exec.aliases command)
    (hfuel : argsSize < fuel) : ∃ t, launch env fuel command l = .ok (.returns t) := by
  obtain ⟨args, hsplit⟩ := splitCommand_fits hwell.spaced hf hfuel
    (env.leftover l.exec.forks).args
  have hholds := (splitCommand_cases hwell.spaced hsplit).2
  obtain ⟨w, ws, hwords, hkind⟩ := not_external_cases hext hexit
  have hsecond : (words command)[1]? = ws.head? := by
    rw [hwords, List.head?_eq_getElem?]
    rfl
  have hterminated := hfits.terminated
  rw [hsecond] at hterminated
  have hstring : asString ws.head? = .ok ws.head? := asString_eq_ok.mpr ⟨rfl, hterminated⟩
  rw [hwords] at hholds
  rcases hkind with halias | ⟨halias, hcd⟩
  · obtain ⟨parameter, hhead, hparameter, hdefinition⟩ := hwell.definition hwords halias
    obtain ⟨out, hcall⟩ := createAlias_fits (hdefinition (hterminated parameter hhead))
      (hfits.defined parameter hparameter)
    rw [launch_alias hsplit hholds halias, hstring, ok_bind, hhead, hcall]
    exact ⟨_, rfl⟩
  · rw [launch_cd hsplit hholds halias hcd, hstring]
    exact ⟨_, rfl⟩

end Builtins

/-! ## The logs of a group -/

section Logs
variable {env : Environment} {aliases : List Alias} {n : ℕ} {g : List QueueNode}
  {log log' : List Event}

theorem actsIn_append (log log' : List Event) : actsIn (log ++ log') = actsIn log ++ actsIn log' :=
  List.filterMap_append ..

theorem actsIn_waits (waits : List ℤ) : actsIn (waits.map Event.waitpid) = [] := by
  unfold actsIn
  rw [List.filterMap_eq_nil_iff]
  intro e he
  obtain ⟨pid, _, rfl⟩ := List.mem_map.mp he
  rfl

/-- The forks that succeeded are the acts. -/
theorem actsIn_forks (forks : List (List Word × ℤ)) :
    actsIn (forks.flatMap fun f => forkLog f.1 f.2) =
      (forks.filter fun f => f.2 ≠ -1).map fun f => .forks f.1 := by
  induction forks with
  | nil => rfl
  | cons f forks ih =>
      rw [List.flatMap_cons, actsIn_append, ih, List.filter_cons, forkLog]
      by_cases hfailed : f.2 = -1
      · simp [actsIn, observe, hfailed]
      · simp [actsIn, observe, hfailed]

/-- No fork of the group fails. -/
def AllForked (env : Environment) (n : ℕ) (g : List QueueNode) : Prop :=
  ∀ i < g.length, env.fork (n + i) ≠ -1

theorem allForked_iff (aliases : List Alias) :
    AllForked env n g ↔ ∀ f ∈ forksOf env aliases n g, f.2 ≠ -1 := by
  constructor
  · intro h f hf
    obtain ⟨i, hi, he⟩ := exists_of_mem_forksOf hf
    rw [he]
    exact h i hi
  · intro h i hi
    have hget := forksOf_getElem? env aliases n g i
    rw [List.getElem?_eq_getElem hi] at hget
    exact h _ (List.mem_of_getElem? hget)

theorem acts_forked (h : AllForked env n g) :
    actsIn ((forksOf env aliases n g).flatMap fun f => forkLog f.1 f.2) =
      g.map fun node => .forks (argsOf aliases node.command) := by
  have hall := (allForked_iff aliases).mp h
  have hfilter : ((forksOf env aliases n g).filter fun f => f.2 ≠ -1) = forksOf env aliases n g :=
    List.filter_eq_self.mpr fun f hf => decide_eq_true (hall f hf)
  have hmap := congrArg (List.map Act.forks) (forksOf_args env aliases n g)
  rw [List.map_map, List.map_map] at hmap
  rw [actsIn_forks, hfilter]
  exact hmap

theorem acts_bound (env : Environment) (aliases : List Alias) (n : ℕ) (g : List QueueNode) :
    (actsIn ((forksOf env aliases n g).flatMap fun f => forkLog f.1 f.2)).length ≤ g.length ∧
      ((actsIn ((forksOf env aliases n g).flatMap fun f => forkLog f.1 f.2)).length = g.length →
        AllForked env n g) := by
  rw [actsIn_forks, List.length_map, ← length_forksOf env aliases n g]
  refine ⟨List.length_filter_le _ _, fun h => ?_⟩
  rw [allForked_iff aliases]
  intro f hf
  have hall := List.length_filter_eq_length_iff.mp h f hf
  exact of_decide_eq_true hall

theorem waited_append (hlog : ∀ argv pid, .fork argv pid ∈ log → pid ≠ -1 → .waitpid pid ∈ log')
    (hlog' : Waited log') : Waited (log ++ log') := by
  induction log with
  | nil => exact hlog'
  | cons e log ih =>
      have hrest := ih fun argv pid he => hlog argv pid (List.mem_cons_of_mem e he)
      cases e with
      | fork argv pid =>
          refine ⟨fun hne => List.mem_append_right _ ?_, hrest⟩
          exact hlog argv pid List.mem_cons_self hne
      | _ => exact hrest

theorem Waited.right (h : Waited (log ++ log')) : Waited log' := by
  induction log with
  | nil => exact h
  | cons e log ih =>
      cases e with
      | fork argv pid => exact ih h.2
      | _ => exact ih h

theorem mem_forkLogs {forks : List (List Word × ℤ)} {e : Event}
    (he : e ∈ forks.flatMap fun f => forkLog f.1 f.2) :
    (∃ f ∈ forks, e = .fork f.1 f.2) ∨ e = .perror "Error in fork" := by
  obtain ⟨f, hf, he⟩ := List.mem_flatMap.mp he
  unfold forkLog at he
  rcases List.mem_cons.mp he with rfl | he
  · exact .inl ⟨f, hf, rfl⟩
  · split_ifs at he
    · exact .inr (List.mem_singleton.mp he)
    · cases he

theorem waited_quiet (hquiet : ∀ e ∈ log, isProcessCall e = false) : Waited log := by
  rw [← List.append_nil log]
  refine waited_append (fun argv pid he => ?_) trivial
  cases hquiet _ he

/-- The forks of a group and the calls that wait for them. -/
theorem waited_group {forks : List (List Word × ℤ)} {waits : List ℤ}
    (hwaits : ∀ f ∈ forks, f.2 ∈ waits) (h : Waited log) :
    Waited (forks.flatMap (fun f => forkLog f.1 f.2) ++ (waits.map Event.waitpid ++ log)) := by
  have hlater : Waited (waits.map Event.waitpid ++ log) := by
    refine waited_append (fun argv pid he => ?_) h
    obtain ⟨_, _, he⟩ := List.mem_map.mp he
    cases he
  refine waited_append (fun argv pid he _ => ?_) hlater
  rcases mem_forkLogs he with ⟨f, hf, he⟩ | he
  · cases he
    exact List.mem_append_left _ (List.mem_map_of_mem (hwaits f hf))
  · cases he

/-- A child that a builtin follows is not waited for. -/
theorem not_waited {f : List Word × ℤ} (forks : List (List Word × ℤ)) (hforked : f.2 ≠ -1)
    (hquiet : ∀ e ∈ log, isProcessCall e = false) :
    ¬ Waited ((f :: forks).flatMap (fun f => forkLog f.1 f.2) ++ log) := by
  intro h
  rw [List.flatMap_cons, forkLog, if_neg hforked, List.cons_append, List.cons_append] at h
  rcases List.mem_append.mp (h.1 hforked) with he | he
  · rcases mem_forkLogs he with ⟨_, _, he⟩ | he
    · cases he
    · cases he
  · cases hquiet _ he

end Logs

/-! ## The condition, group by group -/

section Conditions
variable {env : Environment} {aliases : List Alias} {forks : ℕ} {node : QueueNode}
  {rest : List QueueNode}

theorem actionable_nil (env : Environment) (aliases : List Alias) (forks : ℕ) :
    Actionable env aliases forks [] := by
  constructor
  · exact fits_nil
  · trivial
  · intro i a ha
    cases ha
  · intro b hb
    cases hb

/-- The forks of the commands `g` and of those behind them. -/
theorem forked_append {g rem : List QueueNode} (hext : ∀ a ∈ g, External aliases a.command) :
    (∀ i, ∀ a ∈ (g ++ rem)[i]?, External aliases a.command → env.fork (forks + i) ≠ -1) ↔
      AllForked env forks g ∧ ∀ i, ∀ a ∈ rem[i]?, External aliases a.command →
        env.fork (forks + g.length + i) ≠ -1 := by
  constructor
  · intro h
    constructor
    · intro i hi
      have hget : (g ++ rem)[i]? = some g[i] := by
        rw [List.getElem?_append_left hi, List.getElem?_eq_getElem hi]
      exact h i _ hget (hext _ (List.getElem_mem hi))
    · intro i a ha hexternal
      have hget : (g ++ rem)[g.length + i]? = some a := by
        rw [List.getElem?_append_right (Nat.le_add_right _ _), Nat.add_sub_cancel_left]
        exact ha
      rw [Nat.add_assoc]
      exact h _ a hget hexternal
  · rintro ⟨hforked, h⟩ i a ha hexternal
    rcases Nat.lt_or_ge i g.length with hlt | hge
    · exact hforked i hlt
    · rw [List.getElem?_append_right hge] at ha
      have hlater := h _ a ha hexternal
      have hindex : forks + g.length + (i - g.length) = forks + i := by omega
      rwa [hindex] at hlater

/-- A builtin at the end is behind the external commands `g`. -/
theorem last_append {g rem : List QueueNode} (hext : ∀ a ∈ g, External aliases a.command) :
    (∀ b ∈ (g ++ rem).getLast?, ¬ External aliases b.command →
      BuiltinFits (env.leftover (forks + ((g ++ rem).length - 1))).tmp aliases b.command) ↔
    ∀ b ∈ rem.getLast?, ¬ External aliases b.command →
      BuiltinFits (env.leftover (forks + g.length + (rem.length - 1))).tmp aliases b.command := by
  by_cases hnil : rem = []
  · rw [hnil, List.append_nil]
    apply iff_of_true
    · exact fun b hb hexternal => absurd (hext b (List.mem_of_getLast? hb)) hexternal
    · intro b hb
      cases hb
  · have hpos := List.length_pos_of_ne_nil hnil
    have hindex : forks + ((g ++ rem).length - 1) = forks + g.length + (rem.length - 1) := by
      rw [List.length_append]
      omega
    rw [hindex, List.getLast?_append_of_ne_nil _ hnil]

/-- A group of external commands needs that it fits and that no fork fails. -/
theorem actionable_group (hext : ∀ a ∈ (takeLevel node rest).1, External aliases a.command) :
    Actionable env aliases forks (node :: rest) ↔
      GroupFits (takeLevel node rest).1 (takeLevel node rest).2 ∧
      AllForked env forks (takeLevel node rest).1 ∧
      Actionable env aliases (forks + (takeLevel node rest).1.length) (takeLevel node rest).2 := by
  have happend := takeLevel_append node rest
  constructor
  · intro h
    obtain ⟨hgroup, hrest⟩ := (fits_cons node rest).mp h.fits
    have hbuiltin := h.builtin
    have hforked := h.forked
    have hlast := h.last
    rw [groups_cons, builtinLast_cons] at hbuiltin
    rw [← happend, forked_append hext] at hforked
    rw [← happend, last_append hext] at hlast
    refine ⟨hgroup, hforked.1, hrest, ?_, hforked.2, hlast⟩
    rcases hbuiltin with ⟨_, hlater⟩ | ⟨hnil, _⟩
    · exact hlater
    · rw [hnil]
      trivial
  · rintro ⟨hgroup, hforked, h⟩
    constructor
    · exact (fits_cons node rest).mpr ⟨hgroup, h.fits⟩
    · rw [groups_cons, builtinLast_cons]
      exact .inl ⟨hext, h.builtin⟩
    · rw [← happend, forked_append hext]
      exact ⟨hforked, h.forked⟩
    · rw [← happend, last_append hext]
      exact h.last

theorem actionable_builtin (hf : CommandFits node.command)
    (hext : ¬ External aliases node.command)
    (hfits : BuiltinFits (env.leftover forks).tmp aliases node.command) :
    Actionable env aliases forks [node] := by
  constructor
  · refine ⟨List.forall_mem_singleton.mpr hf, ?_⟩
    change 1 ≤ MAX_CMD_NUM
    decide
  · exact .inr rfl
  · intro i a ha hexternal
    cases i with
    | zero =>
        cases ha
        exact absurd hexternal hext
    | succ i => cases ha
  · intro b hb _
    cases hb
    exact hfits

theorem actsOf_external {g : List QueueNode} (table : List Alias) (rem : List QueueNode)
    (hext : ∀ a ∈ g, External table a.command) :
    actsOf (entries table) (g ++ rem) =
        (g.map fun node => .forks (argsOf table node.command)) ++ actsOf (entries table) rem ∧
      tableBehind (entries table) (g ++ rem) = tableBehind (entries table) rem := by
  induction g with
  | nil => exact ⟨rfl, rfl⟩
  | cons node g ih =>
      rw [List.forall_mem_cons] at hext
      obtain ⟨hacts, htable⟩ := ih hext.2
      constructor
      · simp only [List.cons_append, actsOf, actOf_external hext.1, define_external hext.1,
          hacts, List.map_cons]
      · simp only [List.cons_append, tableBehind, List.foldl_cons, define_external hext.1]
        exact htable

/-- In front of the builtin, if there is one, all commands are external. -/
theorem builtin_last {gs : List (List QueueNode)} (h : BuiltinLast aliases gs) :
    ∃ front last, gs.flatten = front ++ last ∧ (∀ a ∈ front, External aliases a.command) ∧
      (last = [] ∨ ∃ b, last = [b] ∧ ¬ External aliases b.command) := by
  induction gs with
  | nil => exact ⟨[], [], rfl, nofun, .inl rfl⟩
  | cons g gs ih =>
      cases gs with
      | nil =>
          rw [List.flatten_singleton]
          rcases h with hext | hone
          · exact ⟨g, [], (List.append_nil g).symm, hext, .inl rfl⟩
          · obtain ⟨b, rfl⟩ := List.length_eq_one_iff.mp hone
            by_cases hb : External aliases b.command
            · exact ⟨[b], [], rfl, List.forall_mem_singleton.mpr hb, .inl rfl⟩
            · exact ⟨[], [b], rfl, nofun, .inr ⟨b, rfl, hb⟩⟩
      | cons g' gs =>
          obtain ⟨hext, hlater⟩ := h
          obtain ⟨front, last, hflatten, hfront, hlast⟩ := ih hlater
          refine ⟨g ++ front, last, ?_, List.forall_mem_append.mpr ⟨hext, hfront⟩, hlast⟩
          rw [List.flatten_cons, hflatten, List.append_assoc]

/-- What is to be forked are the external commands. -/
theorem forks_mem_actsOf {q : List QueueNode} (hbuiltin : BuiltinLast aliases (groups q))
    (hexit : ∀ a ∈ q, ¬ Exits aliases a.command) {argv : List Word} :
    .forks argv ∈ actsOf (entries aliases) q ↔
      ∃ a ∈ q, External aliases a.command ∧ argsOf aliases a.command = argv := by
  obtain ⟨front, last, hflatten, hext, hlast⟩ := builtin_last hbuiltin
  rw [groups, List.flatten_splitBy] at hflatten
  have hacts := (actsOf_external aliases last hext).1
  have hforks : Act.forks argv ∈ (front.map fun node => Act.forks (argsOf aliases node.command)) ↔
      ∃ a ∈ front, External aliases a.command ∧ argsOf aliases a.command = argv := by
    simp only [List.mem_map, Act.forks.injEq]
    exact exists_congr fun a => and_congr_right fun ha => (and_iff_right (hext a ha)).symm
  rw [hflatten, hacts]
  rcases hlast with rfl | ⟨b, rfl, hb⟩
  · rw [List.append_nil, actsOf, List.append_nil]
    exact hforks
  · have hnot : ∀ argv, actOf (entries aliases) b.command ≠ .forks argv :=
      actOf_builtin hb (hexit b (by rw [hflatten]; exact List.mem_append_right _ List.mem_cons_self))
    have hsingle : Act.forks argv ∉ actsOf (entries aliases) [b] := by
      rw [actsOf, actsOf, List.mem_singleton]
      exact fun he => hnot argv he.symm
    rw [List.mem_append, or_iff_left hsingle, hforks]
    constructor
    · rintro ⟨a, ha, h⟩
      exact ⟨a, List.mem_append_left _ ha, h⟩
    · rintro ⟨a, ha, hexternal, he⟩
      rcases List.mem_append.mp ha with ha | ha
      · exact ⟨a, ha, hexternal, he⟩
      · rw [List.mem_singleton.mp ha] at hexternal
        exact absurd hexternal hb

theorem readable_iff {q : List QueueNode} (hbuiltin : BuiltinLast aliases (groups q))
    (hexit : ∀ a ∈ q, ¬ Exits aliases a.command) :
    (∀ argv, .forks argv ∈ actsOf (entries aliases) q → Terminated argv) ↔ Readable aliases q := by
  constructor
  · intro h a ha hext
    exact (terminated_argsOf aliases a.command).mp
      (h _ ((forks_mem_actsOf hbuiltin hexit).mpr ⟨a, ha, hext, rfl⟩))
  · intro h argv hargv
    obtain ⟨a, ha, hext, rfl⟩ := (forks_mem_actsOf hbuiltin hexit).mp hargv
    exact (terminated_argsOf aliases a.command).mpr (h a ha hext)

end Conditions

/-! ## Whole executions -/

section Executions
variable {env : Environment} {fuel : ℕ} {aliases : List Alias}

/-- The builtin behind the commands `front` of a group returned `u`. -/
structure Returned (env : Environment) (front : List QueueNode) (builtin : QueueNode)
    (s u : Exec) : Prop where
  external : ¬ External s.aliases builtin.command
  fits : CommandFits builtin.command
  builtinFits : BuiltinFits (env.leftover (s.forks + front.length)).tmp s.aliases builtin.command
  table : entries u.aliases = define (entries s.aliases) builtin.command
  log : ∃ events, u.log = s.log ++
      ((forksOf env s.aliases s.forks front).flatMap (fun f => forkLog f.1 f.2) ++ events) ∧
    actsIn events = [actOf (entries s.aliases) builtin.command] ∧
    ∀ e ∈ events, isProcessCall e = false

theorem returned_of_returnsAt {g : List QueueNode} {s u : Exec}
    (h : ReturnsAt env fuel g (Level.start env s) u)
    (hwell : ∀ a ∈ g, WellFormed a.command) (hexit : ∀ a ∈ g, ¬ Exits s.aliases a.command) :
    ∃ front builtin more, g = front ++ builtin :: more ∧ Returned env front builtin s u := by
  obtain ⟨front, builtin, more, m, rfl, _, hbuiltin, hlaunches, hlaunch⟩ := h
  have hmem : builtin ∈ front ++ builtin :: more := List.mem_append_right _ List.mem_cons_self
  have haliases : m.exec.aliases = s.aliases := hlaunches.aliases
  have hforks : m.exec.forks = s.forks + front.length := hlaunches.forks
  have hlog : m.exec.log = s.log ++
      (forksOf env s.aliases s.forks front).flatMap fun f => forkLog f.1 f.2 := hlaunches.log
  have hexit' : ¬ Exits m.exec.aliases builtin.command := by
    rw [haliases]
    exact hexit builtin hmem
  have hbuiltin' : ¬ External m.exec.aliases builtin.command := by
    rw [haliases]
    exact hbuiltin
  obtain ⟨hf, hfits, hdone⟩ := launch_done (hwell builtin hmem) hbuiltin' hexit' hlaunch
  obtain ⟨events, hevents, hquiet⟩ := hdone.quiet
  have hacts := hdone.acts
  have htable := hdone.table
  rw [hevents, actsIn_append, haliases] at hacts
  rw [haliases] at htable
  rw [haliases, hforks] at hfits
  refine ⟨front, builtin, more, rfl, hbuiltin, hf, hfits, htable, events, ?_,
    List.append_cancel_left hacts, hquiet⟩
  rw [hevents, hlog, List.append_assoc]

/-- There are no more acts than commands. If there are as many and all children were waited
for, the condition holds. -/
theorem executes_bound {s u : Exec} (h : Executes env fuel s u)
    (hwell : ∀ a ∈ s.qforexecution, WellFormed a.command)
    (hexit : ∀ a ∈ s.qforexecution, ¬ Exits s.aliases a.command) :
    (actsIn u.log).length ≤ (actsIn s.log).length + s.qforexecution.length ∧
      ((actsIn u.log).length = (actsIn s.log).length + s.qforexecution.length → Waited u.log →
        Actionable env s.aliases s.forks s.qforexecution) := by
  induction h with
  | finished hq =>
      rw [hq]
      exact ⟨Nat.le_refl _, fun _ _ => actionable_nil _ _ _⟩
  | @group s t u node rest hq hext hfits hrun _ ih =>
      obtain ⟨waits, hlog, _⟩ := hrun.log
      rw [hrun.rest, hrun.aliases, hrun.forks] at ih
      rw [hq] at hwell hexit ⊢
      obtain ⟨hle, hactionable⟩ :=
        ih (fun a ha => hwell a (mem_rest ha)) fun a ha => hexit a (mem_rest ha)
      obtain ⟨hforks, hall⟩ := acts_bound env s.aliases s.forks (takeLevel node rest).1
      have hacts := congrArg List.length (congrArg actsIn hlog)
      rw [actsIn_append, actsIn_append, actsIn_waits, List.append_nil, List.length_append] at hacts
      have hlength := congrArg List.length (takeLevel_append node rest)
      rw [List.length_append] at hlength
      refine ⟨by omega, fun hequal hwaited => ?_⟩
      exact (actionable_group hext).mpr
        ⟨hfits, hall (by omega), hactionable (by omega) hwaited⟩
  | @builtin s u node rest hq hreturns =>
      rw [hq] at hwell hexit ⊢
      obtain ⟨front, builtin, more, hgroup, hreturned⟩ := returned_of_returnsAt hreturns
        (fun a ha => hwell a (mem_group ha)) fun a ha => hexit a (mem_group ha)
      obtain ⟨events, hlog, hact, hquiet⟩ := hreturned.log
      obtain ⟨hforks, hall⟩ := acts_bound env s.aliases s.forks front
      have hacts := congrArg List.length (congrArg actsIn hlog)
      rw [actsIn_append, actsIn_append, hact, List.length_append, List.length_append,
        List.length_singleton] at hacts
      have happend := takeLevel_append node rest
      have hlength := congrArg List.length happend
      rw [hgroup, List.length_append, List.length_append, List.length_cons] at hlength
      refine ⟨by omega, fun hequal hwaited => ?_⟩
      have hnil : front = [] := by
        cases front with
        | nil => rfl
        | cons first front =>
            have hforked := hall (by omega) 0 (Nat.succ_pos _)
            rw [hlog] at hwaited
            exact absurd hwaited.right (not_waited _ hforked hquiet)
      have hmore : more = [] := List.length_eq_zero_iff.mp (by omega)
      have hrest : (takeLevel node rest).2 = [] := List.length_eq_zero_iff.mp (by omega)
      subst hnil
      rw [hgroup, hmore, hrest] at happend
      rw [← happend]
      exact actionable_builtin hreturned.fits hreturned.external hreturned.builtinFits

/-- Under the condition every command is acted upon, and every child is waited for. -/
theorem executes_acts {s u : Exec} (h : Executes env fuel s u)
    (hwell : ∀ a ∈ s.qforexecution, WellFormed a.command)
    (hexit : ∀ a ∈ s.qforexecution, ¬ Exits s.aliases a.command)
    (hact : Actionable env s.aliases s.forks s.qforexecution) :
    actsIn u.log = actsIn s.log ++ actsOf (entries s.aliases) s.qforexecution ∧
      entries u.aliases = tableBehind (entries s.aliases) s.qforexecution ∧
      ∃ log, u.log = s.log ++ log ∧ Waited log := by
  induction h with
  | finished hq =>
      rw [hq]
      exact ⟨(List.append_nil _).symm, rfl, [], (List.append_nil _).symm, trivial⟩
  | @group s t u node rest hq hext hfits hrun _ ih =>
      obtain ⟨waits, hlog, hwaits⟩ := hrun.log
      rw [hrun.rest, hrun.aliases, hrun.forks] at ih
      rw [hq] at hwell hexit hact ⊢
      obtain ⟨_, hforked, hlater⟩ := (actionable_group hext).mp hact
      obtain ⟨hacts, htable, log, hu, hwaited⟩ :=
        ih (fun a ha => hwell a (mem_rest ha)) (fun a ha => hexit a (mem_rest ha)) hlater
      obtain ⟨hgroupActs, hgroupTable⟩ :=
        actsOf_external s.aliases (takeLevel node rest).2 hext
      rw [takeLevel_append] at hgroupActs hgroupTable
      refine ⟨?_, ?_, (forksOf env s.aliases s.forks (takeLevel node rest).1).flatMap
        (fun f => forkLog f.1 f.2) ++ (waits.map Event.waitpid ++ log), ?_, ?_⟩
      · rw [hacts, hlog, actsIn_append, actsIn_append, actsIn_waits, acts_forked hforked,
          hgroupActs, List.append_nil, List.append_assoc]
      · rw [htable, hgroupTable]
      · rw [hu, hlog]
        simp
      · exact waited_group hwaits hwaited
  | @builtin s u node rest hq hreturns =>
      rw [hq] at hwell hexit hact ⊢
      obtain ⟨front, builtin, more, hgroup, hreturned⟩ := returned_of_returnsAt hreturns
        (fun a ha => hwell a (mem_group ha)) fun a ha => hexit a (mem_group ha)
      obtain ⟨events, hlog, hacts, hquiet⟩ := hreturned.log
      have hmem : builtin ∈ (takeLevel node rest).1 := by
        rw [hgroup]
        exact List.mem_append_right _ List.mem_cons_self
      have hlast := hact.builtin
      rw [groups_cons, builtinLast_cons] at hlast
      rcases hlast with ⟨hext, _⟩ | ⟨hrest, hone⟩
      · exact absurd (hext builtin hmem) hreturned.external
      · rw [hgroup, List.length_append, List.length_cons] at hone
        have hnil : front = [] := List.length_eq_zero_iff.mp (by omega)
        have hmore : more = [] := List.length_eq_zero_iff.mp (by omega)
        have happend := takeLevel_append node rest
        rw [hgroup, hnil, hmore, hrest] at happend
        rw [hnil] at hlog
        have hsame : u.log = s.log ++ events := hlog
        rw [← happend]
        refine ⟨?_, hreturned.table, events, hsame, waited_quiet hquiet⟩
        rw [hsame, actsIn_append, hacts]
        rfl

theorem length_actsOf (table : Table) (q : List QueueNode) :
    (actsOf table q).length = q.length := by
  induction q generalizing table with
  | nil => rfl
  | cons node q ih => exact congrArg (· + 1) (ih _)

variable (hshell : ∀ n, env.fork n ≠ 0) {q : List QueueNode}
  (hwell : ∀ a ∈ q, WellFormed a.command) (hexit : ∀ a ∈ q, ¬ Exits aliases a.command)
include hshell hwell hexit

theorem actionable_of_acts {out : Exec} (h : qexecution env fuel aliases q = .ok out)
    (hacts : actsIn out.log = actsOf (entries aliases) q) (hwaited : Waited out.log) :
    Actionable env aliases 0 q := by
  by_cases hne : q = []
  · rw [hne]
    exact actionable_nil env aliases 0
  · have hexecutes := executes_of_ok hshell hne h fun a ha => (hwell a ha).spaced
    have hlength := congrArg List.length hacts
    rw [length_actsOf] at hlength
    refine (executes_bound hexecutes hwell hexit).2 ?_ hwaited
    change _ = 0 + q.length
    rw [hlength, Nat.zero_add]

theorem acts_of_ok {out : Exec} (h : qexecution env fuel aliases q = .ok out)
    (hact : Actionable env aliases 0 q) (hreadable : Readable aliases q) :
    ActsOnAll aliases q out := by
  by_cases hne : q = []
  · subst hne
    cases h
    exact ⟨rfl, nofun, rfl, trivial⟩
  · have hexecutes := executes_of_ok hshell hne h fun a ha => (hwell a ha).spaced
    obtain ⟨hacts, htable, log, hlog, hwaited⟩ := executes_acts hexecutes hwell hexit hact
    have hsame : actsIn out.log = actsOf (entries aliases) q := hacts
    refine ⟨hsame, ?_, htable, ?_⟩
    · rw [hsame]
      exact (readable_iff hact.builtin hexit).mpr hreadable
    · rw [hlog]
      exact hwaited

theorem ok_of_actionable (hact : Actionable env aliases 0 q) :
    ∃ fuel out, qexecution env fuel aliases q = .ok out := by
  refine exists_ok_of_fits hshell (fun a ha => (hwell a ha).spaced) hact.fits hact.builtin ?_
  intro fuel hfuel b hb hext l haliases hforks
  dsimp only at hb hext haliases hforks
  have hmem : b ∈ q := List.mem_of_getLast? hb
  have hfits := hact.last b hb hext
  rw [← hforks, ← haliases] at hfits
  rw [← haliases] at hext
  have hnot := hexit b hmem
  rw [← haliases] at hnot
  exact launch_returns (hwell b hmem) (hact.fits.1 b hmem) hext hnot hfits hfuel

end Executions

theorem wellFormed_of_plain {command : Word} (h : SingleSpaced command ∧ 0 ∉ command ∧
    newline ∉ command ∧ (words command).head? ≠ some aliasLiteral) : WellFormed command :=
  ⟨h.1, h.2.1, h.2.2.1, fun halias => absurd halias h.2.2.2⟩

end MinixOS.QueueActions
