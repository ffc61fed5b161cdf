import MinixOS.SystemRuns
import MinixOS.AliasDefinition
import MinixOS.ProfileFile
import MinixOS.QueueActions
import MinixOS.TypedCommands

/-!
# Sessions of the shell

The loop of `main` reads line after line, and what one line leaves behind for the next one is the
table of the aliases. It is written to a file when the shell is left, and read from there when the
shell is started again. However long this goes on, the table only grows at its end: a name is
defined once, and stands for the same command from then on.
-/
namespace MinixOS.ShellSession
open LoopExecution CheckedExecution SystemRuns StableQueues CommandQueue Tokenizer
  TokenizerSteps TokenizerConservation TokenizerText ShellExecution WordSlots AliasFile
  AliasDefinition ProfileFile CommandLine TypedCommands ExecutionBarrier

/-! ## main -/

/-- `s.stackmem[i] = '\0'` for as many indices from `i` on. -/
def clearFrom (stackmem : Vector Pointer MAXSIZE) : ℕ → ℕ → Except Stop (Vector Pointer MAXSIZE)
  | 0, _ => .ok stackmem
  | left + 1, i => do
      let stackmem ← writeAt stackmem i .null
      clearFrom stackmem left (i + 1)

/-- The element on the top is not cleared. -/
def sdelete (s : Stack) : Except Stop Stack := do
  let stackmem ← clearFrom s.stackmem s.top.toNat 0
  return { stackmem := stackmem, top := -1 }

/-- What is printed by `main` and the tokenizer, and what is done in `qexecution`. The prompt is made
of `SIGN` and the working directory. -/
inductive MainEvent where
  | prompt
  | contains (command : Word)
  | scanned (printed : Output)
  | executed (event : Event)
deriving DecidableEq, Repr

/-- What the loop of `main` carries along, and the input that waits for it. -/
structure Shell where
  stream : List UInt8
  command : Buffer
  stack : Stack
  aliases : List Alias

/-- What comes after a line: the next one, the end of the shell with this text in the file of the
aliases, or, in a child, another program or the signal. -/
inductive Fate where
  | loops (s : Shell)
  | exits (file : List UInt8)
  | child

/-- Neither `exit` nor `execvp` comes back, and what the child prints before is printed. -/
def fateOf (opened : Bool) (s : Shell) (exec : Exec) : Except Stop Fate :=
  if .exit ∈ exec.log then do
    let saved ← saveAlias opened exec.aliases
    return .exits saved.file
  else if exec.log.any (fun | .execvp _ => true | _ => false) then return .child
  else do
    let stack ← sdelete s.stack
    return .loops { s with stack := stack, aliases := exec.aliases }

/-- The body of the loop of `main`. The nodes that `qdelete` frees are not used any more, since the
next pass begins with `qcreate`. -/
def mainPass (env : Environment) (opened : Bool) (before : List UInt8) (fuel : ℕ) (s : Shell) :
    Except Stop (List MainEvent × Fate) := do
  let (stream, command, out) ← enterLine fuel before s.stream s.command s.stack
  let exec ← qexecution env fuel s.aliases out.scan.queue.first
  let log := .prompt :: .contains (textOf command.toList) ::
    (out.scan.log.map .scanned ++ exec.log.map .executed)
  let fate ← fateOf opened { s with stream := stream, command := command, stack := out.scan.stack } exec
  return (log, fate)

/-- What the arrays of `read_file` and `restaure_alias` hold at first. -/
structure Uninitialised where
  env_variable : Vector UInt8 variableSize
  env_path : EnvPath
  line : Vector UInt8 lineSize

/-- Behind the call of `signal`. There are no aliases when the shell is started. -/
def shellInitialization (fuel : ℕ) (fresh : Uninitialised) (profile alias_txt : Option (List UInt8)) :
    Except Stop (List Effect × List Alias) := do
  let effects ← readFile fuel fresh.env_variable fresh.env_path profile
  let aliases ← restaureAlias fuel fresh.line alias_txt []
  return (effects, aliases)

/-! ## Sessions -/

/-- A line is run, or the line that is run ends the shell and it is started again: with this input,
these contents of its arrays and this profile. -/
inductive Request where
  | line (env : Environment) (before : List UInt8)
  | restart (env : Environment) (before : List UInt8) (fresh : Uninitialised)
      (profile : Option (List UInt8)) (stream : List UInt8) (command : Buffer) (stack : Stack)

inductive Serves : Shell → Request → List MainEvent × List Effect → Shell → Prop
  | line {env : Environment} {opened : Bool} {before : List UInt8} {fuel : ℕ} {s t : Shell}
      {log : List MainEvent} (hpass : mainPass env opened before fuel s = .ok (log, .loops t)) :
      Serves s (.line env before) (log, []) t
  | restart {env : Environment} {opened : Bool} {before : List UInt8} {fuel fuel' : ℕ} {s : Shell}
      {log : List MainEvent} {alias_txt : List UInt8} {fresh : Uninitialised}
      {profile : Option (List UInt8)} {stream : List UInt8} {command : Buffer} {stack : Stack}
      {effects : List Effect} {aliases : List Alias}
      (hpass : mainPass env opened before fuel s = .ok (log, .exits alias_txt))
      (hstart : shellInitialization fuel' fresh profile (some alias_txt) = .ok (effects, aliases)) :
      Serves s (.restart env before fresh profile stream command stack) (log, effects)
        ⟨stream, command, stack, aliases⟩

/-- Sessions that begin in this state of the shell. -/
def sessions (start : Shell) : System Shell Request (List MainEvent × List Effect) where
  init := start
  returns := Serves

abbrev SessionStep := Step Shell Request (List MainEvent × List Effect)

/-! ## The texts in the queue -/

section Texts
variable {fuel : ℕ} {before argv : List UInt8} {stack : Stack} {out : Outcome} {node : QueueNode}

theorem mem_textual {calls : List QueueNode} {s : Scan} {c : UInt8}
    (h : TokenizerConservation.Reads argv calls s) (hc : c ∈ enqueuedText calls) (hblank : c ≠ blank) :
    c ∈ argv ∧ textual c = true := by
  have hkept : c ∈ withoutBlanks (enqueuedText calls ++ s.token) := by
    unfold withoutBlanks
    rw [List.mem_filter]
    exact ⟨List.mem_append_left _ hc, bne_iff_ne.mpr hblank⟩
  rw [h.text, List.mem_filter] at hkept
  exact ⟨List.mem_of_mem_take hkept.1, hkept.2⟩

/-- The queue holds texts of the line, with blanks for other white space. -/
theorem queued_text (h : tokenizer fuel before argv (screate stack) qcreate = .ok out)
    (hnode : node ∈ out.scan.queue.first) {c : UInt8} (hc : c ∈ node.command) (hblank : c ≠ blank) :
    c ∈ argv ∧ textual c = true := by
  have hqueue := queue_of_calls h
  unfold tokenizer at h
  obtain ⟨last, hloop, h⟩ := bind_eq_ok.mp h
  obtain ⟨popped, _, h⟩ := bind_eq_ok.mp h
  cases h
  obtain ⟨calls, s, hreads, hleave, hcalls⟩ := calls_read (loop_eq_ok.mp hloop)
  have hmem : node ∈ calls := by
    rw [hqueue, hcalls, (enqueues_of_leave hreads.valid hleave).1, List.append_nil] at hnode
    exact (stable_calls calls).perm.mem_iff.mp hnode
  exact mem_textual hreads (List.mem_flatMap.mpr ⟨node, hmem, hc⟩) hblank

end Texts

/-! ## The words of a command -/

section Words
variable {fuel argument j j' : ℕ} {text rest rest' buffer : Word} {args args' leftover : Args}
  {s t : Split}

theorem written_self {n : ℕ} {A : Type} {a a' : Vector A n} {x : A} (h : writeAt a j x = .ok a') :
    a'.toList[j]? = some x := by
  unfold writeAt at h
  split_ifs at h with hj
  cases h
  rw [Vector.toList_set, Int.toNat_natCast, List.getElem?_set_self]
  rw [Vector.length_toList]
  exact hj.2

/-- A word that is copied is made of characters of the command. -/
theorem fillWord_drawn (h : fillWord argument rest j buffer args = .ok (rest', j', args'))
    (hbuffer : ∀ c ∈ buffer, c ∈ text) (hrest : ∀ c ∈ rest, c ∈ text) {i : ℕ} {w : Word}
    (hw : args'.toList[i]? = some (some w)) :
    args.toList[i]? = some (some w) ∨ ∀ c ∈ w, c ∈ text := by
  induction rest generalizing j buffer args with
  | nil =>
      cases h
      exact .inl hw
  | cons c rest ih =>
      unfold fillWord at h
      split_ifs at h with hc hroom
      · cases h
        exact .inl hw
      · obtain ⟨written, hwrite, hfill⟩ := bind_eq_ok.mp h
        rw [List.forall_mem_cons] at hrest
        have hlonger : ∀ d ∈ buffer ++ [c], d ∈ text := by
          intro d hd
          rcases List.mem_append.mp hd with hd | hd
          · exact hbuffer d hd
          · rw [List.mem_singleton.mp hd]
            exact hrest.1
        rcases ih hfill hlonger hrest.2 with hold | hdrawn
        · by_cases hi : i = argument
          · right
            rw [hi, written_self hwrite] at hold
            cases hold
            exact hlonger
          · exact .inl ((written_kept hwrite hi).symm.trans hold)
        · exact .inr hdrawn

theorem fill_of_again (h : splitPass s = .again t) :
    ∃ args rest' j', writeAt s.args s.argument none = .ok args ∧
      fillWord s.argument s.rest s.j [] args = .ok (rest', j', t.args) := by
  cases hrest : s.rest with
  | nil => simp [splitPass, hrest] at h
  | cons c text =>
      cases hwrite : writeAt s.args s.argument none with
      | error stop => simp [splitPass, hrest, hwrite] at h
      | ok args =>
          cases hfill : fillWord s.argument (c :: text) s.j [] args with
          | error stop => simp [splitPass, hrest, hwrite, hfill] at h
          | ok filled =>
              obtain ⟨rest', j', args'⟩ := filled
              have hargs : t.args = args' := by
                simp only [splitPass, hrest, hwrite, hfill] at h
                split at h
                · cases h
                · rename_i heq
                  cases heq
                  split_ifs at h <;> cases h <;> rfl
                · rename_i heq
                  cases heq
                  cases h
                  rfl
              rw [hargs]
              exact ⟨args, rest', j', rfl, hfill⟩

/-- The words behind the first are made of characters of the command, as far as they are read. -/
structure Drawn (text : Word) (s : Split) : Prop where
  rest : ∀ c ∈ s.rest, c ∈ text
  words : ∀ i w, 0 < i → (i < s.argument ∨ i = s.argument ∧ s.rest = []) →
    s.args.toList[i]? = some (some w) → ∀ c ∈ w, c ∈ text

theorem drawn_start (text : Word) (leftover : Args) : Drawn text ⟨text, 0, 0, leftover⟩ := by
  refine ⟨fun _ hc => hc, ?_⟩
  rintro i w hi (hlt | ⟨rfl, _⟩)
  · exact absurd hlt (Nat.not_lt_zero i)
  · exact absurd hi (Nat.lt_irrefl 0)

theorem Drawn.again (h : Drawn text s) (hp : splitPass s = .again t) : Drawn text t := by
  obtain ⟨args, rest', j', hwrite, hfill⟩ := fill_of_again hp
  obtain ⟨v, behind, hrest, _, hcases⟩ := (passed_of_again hp).word
  constructor
  · intro c hc
    apply h.rest
    rw [hrest]
    rcases hcases with ⟨rfl, _, _⟩ | ⟨rfl, _, _⟩
    · exact List.mem_append_right v hc
    · exact List.mem_append_right v (List.mem_cons_of_mem blank hc)
  · intro i w hi hread hw
    rcases fillWord_drawn hfill (fun c hc => absurd hc List.not_mem_nil) h.rest hw with hold | hdrawn
    · by_cases he : i = s.argument
      · rw [he, written_self hwrite] at hold
        cases hold
      · rw [written_kept hwrite he] at hold
        apply h.words i w hi _ hold
        left
        rcases hcases with ⟨_, _, hsame⟩ | ⟨_, hmore, hnext⟩
        · omega
        · rcases hread with hlt | ⟨_, hnone⟩
          · omega
          · exact absurd hnone hmore
    · exact hdrawn

/-- No parameter of a command comes from what `args` held before. -/
theorem parameter_drawn (h : splitCommand fuel leftover text = .ok args) {w : Word}
    (hw : readAt args 1 = .ok (some w)) : ∀ c ∈ w, c ∈ text := by
  obtain ⟨s, hleaves, hlast⟩ := leaves_of_split (comesTo_of_split h)
  obtain ⟨u, hu, hleave⟩ := hleaves.invariant (I := Drawn text) (drawn_start text leftover)
    fun _ _ hs hp => hs.again hp
  obtain ⟨hend, rfl⟩ := leave_ok hleave
  have hget : args.toList[1]? = some (some w) := readAt_eq_ok_iff.mp hw
  by_cases hargument : s.argument = 0
  · rw [hargument] at hlast
    rw [written_self hlast] at hget
    cases hget
  · have hne : 1 ≠ s.argument + 1 := by omega
    rw [written_kept hlast hne] at hget
    refine hu.words 1 w Nat.one_pos ?_ hget
    by_cases hone : s.argument = 1
    · exact .inr ⟨hone.symm, hend⟩
    · exact .inl (by omega)

end Words

/-! ## What becomes of the table -/

section Tables
variable {env : Environment} {fuel : ℕ} {aliases aliases' : List Alias} {q : List QueueNode}

/-- The names differ, and each alias has a line in the file of its own. -/
structure Sound (aliases : List Alias) : Prop where
  names : (aliases.map Alias.name).Nodup
  storable : ∀ entry ∈ aliases, Storable entry
  room : aliases.length ≤ 512

/-- At most one alias is added, at the end and with a new name. -/
inductive Extended (aliases : List Alias) : List Alias → Prop
  | same : Extended aliases aliases
  | added (entry : Alias) (hstorable : Storable entry)
      (hnew : entry.name ∉ aliases.map Alias.name) (hroom : aliases.length < 512) :
      Extended aliases (aliases ++ [entry])

theorem Sound.extended (h : Sound aliases) (hext : Extended aliases aliases') : Sound aliases' := by
  cases hext with
  | same => exact h
  | added entry hstorable hnew hroom =>
      constructor
      · rw [List.map_append, List.map_singleton, ← List.concat_eq_append]
        exact h.names.concat hnew
      · intro other hother
        rcases List.mem_append.mp hother with hother | hother
        · exact h.storable other hother
        · rw [List.mem_singleton.mp hother]
          exact hstorable
      · rw [List.length_append, List.length_singleton]
        exact hroom

theorem Extended.prefix (h : Extended aliases aliases') : aliases <+: aliases' := by
  cases h with
  | same => exact List.prefix_refl aliases
  | added entry _ _ _ => exact List.prefix_append aliases [entry]

/-- The texts that the tokenizer puts into the queue. -/
def Clean (text : Word) : Prop := newline ∉ text ∧ 0 ∉ text

theorem textOf_clean {buffer : Word} : 0 ∉ textOf buffer := by
  intro hmem
  exact absurd (List.mem_takeWhile_imp hmem) (by decide)

theorem mem_textOf {buffer : Word} {c : UInt8} (h : c ∈ textOf buffer) : c ∈ buffer :=
  List.takeWhile_subset _ h

theorem front_drawn {text behind front rest : Word} {c : UInt8} (htext : 0 ∉ text)
    (h : text ++ 0 :: behind = front ++ c :: rest) {d : UInt8} (hd : d ∈ textOf front) : d ∈ text := by
  rcases List.append_eq_append_iff.mp h with ⟨more, rfl, hmore⟩ | ⟨more, rfl, _⟩
  · cases more with
    | nil =>
        rw [List.append_nil] at hd
        exact mem_textOf hd
    | cons e more =>
        obtain ⟨rfl, _⟩ := List.cons.inj hmore
        rwa [AliasFile.textOf_append htext] at hd
  · exact List.mem_append_left more (mem_textOf hd)

/-- The name is what stands in front of an equals sign, in the parameter or behind it, and the
command ends in front of a newline. -/
theorem createAlias_extends {tmp : Vector UInt8 512} {parameter : Option Word} {out : AliasesOutcome}
    (hclean : ∀ text ∈ parameter, Clean text) (h : createAlias tmp parameter aliases = .ok out) :
    Extended aliases out.aliases := by
  cases parameter with
  | none => cases h
  | some text =>
      obtain ⟨hline, hstring⟩ := hclean text rfl
      unfold createAlias at h
      dsimp only at h
      obtain ⟨⟨buffer_alias, rest⟩, hname, h⟩ := bind_eq_ok.mp h
      rw [copyUntil_eq] at hname
      obtain ⟨front, hsplit, hfront, he, _⟩ := copyUpTo_split hname (Nat.zero_le _)
      rw [List.nil_append] at he
      subst he
      dsimp only at h
      split_ifs at h with hdefined
      · cases h
        exact .same
      · obtain ⟨⟨buffer_cmd, more⟩, hcommand, hstore⟩ := bind_eq_ok.mp h
        rw [copyUntil_eq] at hcommand
        obtain ⟨copied, _, hcopied, he, _⟩ := copyUpTo_split hcommand (Nat.zero_le _)
        rw [List.nil_append] at he
        subst he
        unfold storeAlias at hstore
        split_ifs at hstore with hlengths hroom
        cases hstore
        refine .added _ ⟨⟨?_, ?_⟩, ?_, textOf_clean, textOf_clean⟩ ?_ hroom
        · exact fun hmem => hfront (mem_textOf hmem)
        · exact fun hmem => hline (front_drawn hstring hsplit hmem)
        · exact fun hmem => hcopied (mem_textOf hmem)
        · exact fun hmem => hdefined ((isAlias_eq_true _ _).mpr hmem)

/-- The loop over the commands goes on with the same table, or the call returns. -/
def Advances (aliases : List Alias) : Progress → Prop
  | .proceeds l => l.exec.aliases = aliases
  | .returns s => Extended aliases s.aliases

theorem forkCommand_advances {name : Word} {args : Args} {l : Level} :
    Ensures (forkCommand env name args l) (Advances l.exec.aliases) := by
  intro r h
  unfold forkCommand at h
  obtain ⟨pid_child, _, h⟩ := bind_eq_ok.mp h
  dsimp only at h
  split_ifs at h <;> cases h
  · rfl
  · exact .same
  · exact .same
  · rfl

theorem launch_advances {command : Word} {l : Level} (hclean : Clean command) :
    Ensures (launch env fuel command l) (Advances l.exec.aliases) := by
  intro r h
  unfold launch at h
  dsimp only at h
  obtain ⟨args, hsplit, h⟩ := bind_eq_ok.mp h
  obtain ⟨first, _, h⟩ := bind_eq_ok.mp h
  cases first with
  | none => cases h
  | some first =>
      dsimp only at h
      split_ifs at h
      · obtain ⟨element, hread, h⟩ := bind_eq_ok.mp h
        obtain ⟨parameter, hstring, h⟩ := bind_eq_ok.mp h
        obtain ⟨out, hcreate, h⟩ := bind_eq_ok.mp h
        cases h
        apply createAlias_extends _ hcreate
        rintro text rfl
        rw [← (QueueActions.asString_eq_ok.mp hstring).1] at hread
        have hdrawn := parameter_drawn hsplit hread
        exact ⟨fun hmem => hclean.1 (hdrawn _ hmem), fun hmem => hclean.2 (hdrawn _ hmem)⟩
      · obtain ⟨_, _, h⟩ := bind_eq_ok.mp h
        cases h
        exact .same
      · obtain ⟨_, _, h⟩ := bind_eq_ok.mp h
        obtain ⟨element, _, h⟩ := bind_eq_ok.mp h
        obtain ⟨path, _, h⟩ := bind_eq_ok.mp h
        cases path <;> cases h <;> exact .same
      · obtain ⟨_, _, h⟩ := bind_eq_ok.mp h
        exact forkCommand_advances _ h

/-- What is left of the queue is an end of it. -/
def LeavesRest (q : List QueueNode) : Progress → Prop
  | .proceeds l => l.exec.qforexecution <:+ q
  | .returns _ => True

theorem levelLoop_advances {l : Level} (hclean : ∀ node ∈ q, Clean node.command) :
    Ensures (levelLoop env fuel q l) fun r => Advances l.exec.aliases r ∧ LeavesRest q r := by
  induction q generalizing l with
  | nil => exact ensures_ok ⟨rfl, List.suffix_refl []⟩
  | cons node rest ih =>
      rw [List.forall_mem_cons] at hclean
      unfold levelLoop
      by_cases hgo : l.eqprio = true ∧ l.paral = true
      · rw [if_pos hgo]
        refine Ensures.bind (launch_advances hclean.1) fun r hr => ?_
        cases r with
        | returns s => exact ensures_ok ⟨hr, trivial⟩
        | proceeds m =>
            change m.exec.aliases = l.exec.aliases at hr
            cases rest with
            | nil => exact ensures_ok ⟨hr, List.nil_suffix⟩
            | cons next more =>
                refine (ih hclean.2).mono fun r hrest => ⟨?_, ?_⟩
                · rw [← hr]
                  exact hrest.1
                · cases r with
                  | returns s => trivial
                  | proceeds m' => exact hrest.2.trans (List.suffix_cons node (next :: more))
      · rw [if_neg hgo]
        exact ensures_ok ⟨rfl, List.suffix_refl _⟩

/-- What a pass over the queue comes to. -/
theorem queuePass_outcomes (env : Environment) (fuel : ℕ) (s : Exec) :
    (∃ stop, queuePass env fuel s = .leave (.error stop)) ∨
    (s.qforexecution = [] ∧ queuePass env fuel s = .leave (.ok s)) ∨
    (∃ u, levelLoop env fuel s.qforexecution (Level.start env s) = .ok (.returns u) ∧
      queuePass env fuel s = .leave (.ok u)) ∨
    ∃ l waits, levelLoop env fuel s.qforexecution (Level.start env s) = .ok (.proceeds l) ∧
      queuePass env fuel s = .again (l.exec.print waits) := by
  cases hq : s.qforexecution with
  | nil => exact .inr (.inl ⟨rfl, queuePass_nil hq⟩)
  | cons node rest =>
      cases hlevel : levelLoop env fuel (node :: rest) (Level.start env s) with
      | error stop => exact .inl ⟨stop, queuePass_stops hq hlevel⟩
      | ok r =>
          cases r with
          | returns u => exact .inr (.inr (.inl ⟨u, rfl, queuePass_returns hq hlevel⟩))
          | proceeds l =>
              cases hwait : waitLoop l.pid_child (l.no_process + 1) 0 with
              | error stop => exact .inl ⟨stop, queuePass_waits hq hlevel hwait⟩
              | ok waits =>
                  exact .inr (.inr (.inr ⟨l, waits, rfl, queuePass_again hq hlevel hwait⟩))

/-- At the head of the loop over the queue the table is as it was. -/
structure Unchanged (q : List QueueNode) (aliases : List Alias) (s : Exec) : Prop where
  rest : s.qforexecution <:+ q
  table : s.aliases = aliases

theorem Unchanged.again {s t : Exec} (h : Unchanged q aliases s)
    (hclean : ∀ node ∈ q, Clean node.command) (hp : queuePass env fuel s = .again t) :
    Unchanged q aliases t := by
  have hrest : ∀ node ∈ s.qforexecution, Clean node.command :=
    fun node hnode => hclean node (h.rest.subset hnode)
  rcases queuePass_outcomes env fuel s with ⟨_, hout⟩ | ⟨_, hout⟩ | ⟨_, _, hout⟩ | ⟨l, _, hlevel, hout⟩
  · rw [hout] at hp
    cases hp
  · rw [hout] at hp
    cases hp
  · rw [hout] at hp
    cases hp
  · rw [hout] at hp
    cases hp
    obtain ⟨hadvances, hleaves⟩ := levelLoop_advances hrest _ hlevel
    exact ⟨hleaves.trans h.rest, hadvances.trans h.table⟩

theorem Unchanged.leaves {s t : Exec} (h : Unchanged q aliases s)
    (hclean : ∀ node ∈ q, Clean node.command) (hp : queuePass env fuel s = .leave (.ok t)) :
    Extended aliases t.aliases := by
  have hrest : ∀ node ∈ s.qforexecution, Clean node.command :=
    fun node hnode => hclean node (h.rest.subset hnode)
  rcases queuePass_outcomes env fuel s with ⟨_, hout⟩ | ⟨_, hout⟩ | ⟨_, hlevel, hout⟩ | ⟨_, _, _, hout⟩
  · rw [hout] at hp
    cases hp
  · rw [hout] at hp
    cases hp
    rw [h.table]
    exact .same
  · rw [hout] at hp
    cases hp
    obtain ⟨hadvances, _⟩ := levelLoop_advances hrest _ hlevel
    rw [← h.table]
    exact hadvances
  · rw [hout] at hp
    cases hp

/-- Whatever the line is, it defines at most one alias. -/
theorem qexecution_extends (hclean : ∀ node ∈ q, Clean node.command) :
    Ensures (qexecution env fuel aliases q) fun exec => Extended aliases exec.aliases := by
  intro exec h
  cases q with
  | nil =>
      cases h
      exact .same
  | cons node rest =>
      have hstart : Unchanged (node :: rest) aliases
          { qforexecution := node :: rest, aliases := aliases, forks := 0, log := [] } :=
        ⟨List.suffix_refl _, rfl⟩
      obtain ⟨t, ht, hleave⟩ := (leaves_of_loop h).invariant hstart
        fun _ _ hs hp => hs.again hclean hp
      exact ht.leaves hclean hleave

end Tables

/-! ## The table over a session -/

section Sessions
variable {env : Environment} {opened : Bool} {before : List UInt8} {fuel : ℕ} {s t start : Shell}
  {log : List MainEvent}

theorem enterLine_clean {stream stream' : List UInt8} {command command' : Buffer} {stack : Stack}
    {out : Outcome} (h : enterLine fuel before stream command stack = .ok (stream', command', out)) :
    ∀ node ∈ out.scan.queue.first, Clean node.command := by
  unfold enterLine at h
  obtain ⟨⟨stream'', command''⟩, _, h⟩ := bind_eq_ok.mp h
  obtain ⟨out', htokens, h⟩ := bind_eq_ok.mp h
  cases h
  intro node hnode
  have hdrawn := fun c => queued_text (c := c) htokens hnode
  constructor
  · intro hmem
    exact absurd (hdrawn newline hmem (by decide)).2 (by decide)
  · intro hmem
    exact textOf_clean (hdrawn 0 hmem (by decide)).1

theorem mainPass_loops (h : mainPass env opened before fuel s = .ok (log, .loops t)) :
    Extended s.aliases t.aliases := by
  unfold mainPass at h
  obtain ⟨⟨stream, command, out⟩, henter, h⟩ := bind_eq_ok.mp h
  obtain ⟨exec, hexec, h⟩ := bind_eq_ok.mp h
  obtain ⟨fate, hfate, h⟩ := bind_eq_ok.mp h
  cases h
  unfold fateOf at hfate
  split_ifs at hfate
  · obtain ⟨saved, _, hfate⟩ := bind_eq_ok.mp hfate
    cases hfate
  · cases hfate
  · obtain ⟨stack, _, hfate⟩ := bind_eq_ok.mp hfate
    cases hfate
    exact qexecution_extends (enterLine_clean henter) _ hexec

/-- The shell is left with the aliases of its table in the file, in their order. -/
theorem mainPass_exits {file : List UInt8}
    (h : mainPass env opened before fuel s = .ok (log, .exits file)) :
    ∃ aliases, Extended s.aliases aliases ∧ file = aliases.flatMap savedLine := by
  unfold mainPass at h
  obtain ⟨⟨stream, command, out⟩, henter, h⟩ := bind_eq_ok.mp h
  obtain ⟨exec, hexec, h⟩ := bind_eq_ok.mp h
  obtain ⟨fate, hfate, h⟩ := bind_eq_ok.mp h
  cases h
  unfold fateOf at hfate
  split_ifs at hfate
  · obtain ⟨saved, hsaved, hfate⟩ := bind_eq_ok.mp hfate
    cases hfate
    refine ⟨exec.aliases, qexecution_extends (enterLine_clean henter) _ hexec, ?_⟩
    cases opened with
    | true =>
        cases hsaved
        rfl
    | false => cases hsaved
  · cases hfate
  · obtain ⟨stack, _, hfate⟩ := bind_eq_ok.mp hfate
    cases hfate

/-- What is read back is what was saved, unless a line of the file does not fit. -/
theorem restaure_saved {aliases aliases' : List Alias} {line : Vector UInt8 lineSize}
    (hsound : Sound aliases)
    (h : restaureAlias fuel line (some (aliases.flatMap savedLine)) [] = .ok aliases') :
    aliases' = aliases := by
  have hleaves := leaves_of_loop h
  have hroom : ([] : List Alias).length + aliases.length ≤ 512 := by
    rw [List.length_nil, Nat.zero_add]
    exact hsound.room
  by_cases hfits : ∀ entry ∈ aliases, FitsLine entry
  · have hall := restaure_fits [] line.toList hsound.storable hfits hroom line.length_toList
    cases hleaves.unique hall
    rfl
  · push Not at hfits
    obtain ⟨stop, hstop⟩ :=
      restaure_stops [] line.toList hsound.storable hfits hroom line.length_toList
    cases hleaves.unique hstop

/-- A step adds one alias at most. -/
theorem Serves.extends {request : Request} {answer : List MainEvent × List Effect}
    (h : Serves s request answer t) (hsound : Sound s.aliases) : Extended s.aliases t.aliases := by
  cases h with
  | line hpass => exact mainPass_loops hpass
  | restart hpass hstart =>
      obtain ⟨aliases, hext, rfl⟩ := mainPass_exits hpass
      unfold shellInitialization at hstart
      obtain ⟨effects, _, hstart⟩ := bind_eq_ok.mp hstart
      obtain ⟨restored, hrestored, hstart⟩ := bind_eq_ok.mp hstart
      cases hstart
      rw [restaure_saved (hsound.extended hext) hrestored]
      exact hext

theorem sound_of_run {history : List SessionStep} (hr : Run (sessions start) history s)
    (hstart : Sound start.aliases) : Sound s.aliases :=
  hr.invariant (I := fun s => Sound s.aliases) hstart
    fun hs hserves => hs.extended (Serves.extends hserves hs)

/-- A name stands for the command of the first alias with that name. -/
theorem isAlias_prefix {aliases aliases' : List Alias} (h : aliases <+: aliases') {name : Word}
    (hname : (isAlias name aliases).2 = true) : isAlias name aliases' = isAlias name aliases := by
  obtain ⟨more, rfl⟩ := h
  induction aliases with
  | nil => cases hname
  | cons entry aliases ih =>
      rw [List.cons_append]
      unfold isAlias at hname ⊢
      split_ifs at hname ⊢
      · rfl
      · exact ih hname

end Sessions

/-- Over the lines of a session, and when the shell is left and started again, every name keeps the
command it was defined for, and no line defines more than one. -/
theorem aliases_kept {start s : Shell} {history : List SessionStep}
    (hr : Run (sessions start) history s) (hstart : Sound start.aliases) :
    Sound s.aliases ∧ ∀ e ∈ history, Extended e.before.aliases e.after.aliases ∧
      ∀ name, (isAlias name e.before.aliases).2 = true →
        isAlias name s.aliases = isAlias name e.before.aliases := by
  have hkept : ∀ e ∈ history, Extended e.before.aliases e.after.aliases ∧
      e.before.aliases <+: s.aliases := by
    refine hr.history_invariant (I := fun history s =>
      ∀ e ∈ history, Extended e.before.aliases e.after.aliases ∧ e.before.aliases <+: s.aliases) ?_ ?_
    · exact fun e he => absurd he List.not_mem_nil
    · intro history u request answer v hu hkept hserves
      have hext : Extended u.aliases v.aliases := Serves.extends hserves (sound_of_run hu hstart)
      rw [List.forall_mem_cons]
      exact ⟨⟨hext, hext.prefix⟩, fun e he => ⟨(hkept e he).1, (hkept e he).2.trans hext.prefix⟩⟩
  exact ⟨sound_of_run hr hstart, fun e he => ⟨(hkept e he).1, fun _ => isAlias_prefix (hkept e he).2⟩⟩

/-! ## Leaving the shell -/

section Leaving
variable {env : Environment} {aliases : List Alias} {before : List UInt8} {fuel : ℕ}

theorem words_exit : CommandSplitting.words exitLiteral = [exitLiteral] := by decide

theorem exit_singleSpaced : CommandSplitting.SingleSpaced exitLiteral := by
  intro w hw
  rw [words_exit, List.mem_singleton] at hw
  rw [hw]
  decide

theorem exit_commandFits : CommandSplitting.CommandFits exitLiteral := by
  unfold CommandSplitting.CommandFits
  rw [words_exit]
  decide

theorem launch_exit {l : Level} (hname : (isAlias exitLiteral l.exec.aliases).1 = exitLiteral)
    (hfuel : argsSize < fuel) :
    launch env fuel exitLiteral l = .ok (.returns
      (l.exec.print [.saveAlias, .printf "Shell is closing, bye :-) \n", .exit])) := by
  obtain ⟨args, hsplit⟩ := CommandSplitting.splitCommand_fits exit_singleSpaced exit_commandFits hfuel
    (env.leftover l.exec.forks).args
  have hholds := (CommandSplitting.splitCommand_cases exit_singleSpaced hsplit).2
  rw [words_exit] at hholds
  obtain ⟨args', hwrite, _⟩ := hholds.substitute exitLiteral
  have halias : exitLiteral ≠ aliasLiteral := by decide
  simp only [launch, hsplit, ok_bind, hholds.first, if_neg halias, hname, hwrite, if_true, pure_eq_ok]

/-- The word `exit` ends the shell, unless it stands for something else. -/
theorem qexecution_exit (hname : (isAlias exitLiteral aliases).1 = exitLiteral)
    (hfuel : argsSize < fuel) :
    qexecution env fuel aliases (commandsOf [exitLiteral]) =
      .ok (Exec.print ⟨commandsOf [exitLiteral], aliases, 0, []⟩
        [.saveAlias, .printf "Shell is closing, bye :-) \n", .exit]) := by
  obtain ⟨passes, rfl⟩ : ∃ passes, fuel = passes + 1 := ⟨fuel - 1, by omega⟩
  apply loop_eq_ok.mpr
  apply run_succ_of_leave
  have hnodes : commandsOf [exitLiteral] = [⟨exitLiteral, 255⟩] := rfl
  apply queuePass_returns hnodes
  unfold levelLoop
  rw [if_pos ⟨rfl, rfl⟩]
  exact bind_eq_ok.mpr ⟨_, launch_exit hname hfuel, rfl⟩

/-- The line `exit` is run to the end of the shell. -/
theorem mainPass_exit (before rest : List UInt8) (command : Buffer) (stack : Stack)
    (hname : (isAlias exitLiteral aliases).1 = exitLiteral) :
    ∃ fuel log, mainPass env true before fuel
      ⟨exitLiteral ++ newline :: rest, command, stack, aliases⟩ =
        .ok (log, .exits (aliases.flatMap savedLine)) := by
  have hword : IsWord exitLiteral := isWord_of_all (by decide) (by decide)
  have hlength : (listed [] ++ exitLiteral).length ≤ 509 := by decide
  have htaken : LastTaken before ([] ++ [exitLiteral]) :=
    (lastTaken_concat before [] exitLiteral).mpr (.inl (by decide))
  rcases enterLine_closed (fun _ hw => absurd hw List.not_mem_nil) hword hlength rest command stack
    htaken with ⟨⟨stream, command', out⟩, ⟨enough, henter⟩, hqueue⟩
  change ∀ fuel, enough ≤ fuel → enterLine fuel before (exitLiteral ++ newline :: rest) command stack =
    .ok (stream, command', out) at henter
  change out.scan.queue.first = commandsOf [exitLiteral] at hqueue
  have hfuel : argsSize < enough + argsSize + 1 := by omega
  have hexec := @qexecution_exit env aliases _ hname hfuel
  rw [← hqueue] at hexec
  exact ⟨_, _, bind_eq_ok.mpr ⟨_, henter _ (by omega), bind_eq_ok.mpr ⟨_, hexec, rfl⟩⟩⟩

end Leaving

/-- The aliases of the file alias.txt. -/
def fileAliases : List Alias :=
  [⟨[99, 111, 110, 116, 101, 110, 116], [108, 115], by decide, by decide⟩,
    ⟨[115, 104, 111, 119], [99, 97, 116], by decide, by decide⟩]

/-- The shell with these aliases, where `exit` is typed. -/
def leftShell : Shell :=
  ⟨exitLiteral ++ [newline], .replicate _ 0, ⟨.replicate _ .null, -1⟩, fileAliases⟩

theorem sound_fileAliases : Sound fileAliases := by
  refine ⟨by decide, ?_, by decide⟩
  intro entry hentry
  rcases List.mem_pair.mp hentry with rfl | rfl
  · exact ⟨by decide, by decide, by decide⟩
  · exact ⟨by decide, by decide, by decide⟩

/-- When the shell is left and started again, `show` stands for `cat` as before. -/
theorem aliases_kept_exit :
    ∃ request answer t, Serves leftShell request answer t ∧
      isAlias [115, 104, 111, 119] t.aliases = ([99, 97, 116], true) := by
  have hname : (isAlias exitLiteral fileAliases).1 = exitLiteral := rfl
  obtain ⟨fuel, log, hpass⟩ := @mainPass_exit plainEnvironment fileAliases [] [] (.replicate _ 0)
    ⟨.replicate _ .null, -1⟩ hname
  have hfits : ∀ entry ∈ fileAliases, FitsLine entry := by
    intro entry hentry
    unfold FitsLine
    rcases List.mem_pair.mp hentry with rfl | rfl
    · decide
    · decide
  have hroom : ([] : List Alias).length + fileAliases.length ≤ 512 := by decide
  have hleaves := restaure_fits [] (Vector.replicate lineSize 0).toList sound_fileAliases.storable
    hfits hroom (Vector.length_toList)
  obtain ⟨enough, hloop⟩ := exists_loop_of_leaves hleaves
  have hstart : shellInitialization (enough + 1) ⟨.replicate _ 0, .replicate _ 0, .replicate _ 0⟩
      (some []) (some (fileAliases.flatMap savedLine)) = .ok ([], fileAliases) := by
    have hrestored := loop_mono hloop 1
    exact bind_eq_ok.mpr ⟨[], rfl, bind_eq_ok.mpr ⟨fileAliases, hrestored, rfl⟩⟩
  have hserves : Serves leftShell (.restart _ [] _ (some []) [] (.replicate _ 0)
      ⟨.replicate _ .null, -1⟩) (log, []) _ := .restart hpass hstart
  refine ⟨_, _, _, hserves, ?_⟩
  exact ((aliases_kept (Run.init.call hserves) sound_fileAliases).2 _ List.mem_cons_self).2 _ rfl

end MinixOS.ShellSession
