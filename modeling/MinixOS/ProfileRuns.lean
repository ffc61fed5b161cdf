import MinixOS.ProfileLines

/-!
# The profile as a whole

The function sets the variables the way the lines of the file say if each of the lines is read
right, with what the two arrays hold when the line is come to. No line makes fewer calls of `setenv`
than it is to make, so that one call too many is not made up for by a later line, and every line has
to be read right for the calls to be those that are due.
-/
namespace MinixOS.ProfileRuns
open LoopExecution CheckedExecution Tokenizer ShellExecution AliasFile AliasDefinition ProfileFile
  ProfileLines

/-! ## What the file says -/

/-- The calls of `setenv` that are due. -/
def dues (file : List UInt8) : List (Word × Word) := (file.splitOn newline).filterMap due

/-- Behind the first equals sign of the last line with the name in front of it. -/
def lastValue (name : Word) (file : List UInt8) : Option Word :=
  ((file.splitOn newline).filterMap fun line =>
    if equalsSign ∈ line ∧ nameOf line = name then some (commandOf line) else none).getLast?

/-- What the variables of the environment are after the calls. -/
def environment (env : Word → Option Word) (log : List Effect) : Word → Option Word :=
  log.foldl (fun env effect =>
    match effect with
    | .setenv name value => Function.update env name (some value)
    | .chdir _ => env) env

/-- The three variables are set by the last lines of their names, or as before. -/
def SetsVariables (file : List UInt8) (log : List Effect) : Prop :=
  ∀ env, ∀ name ∈ names, environment env log name = (lastValue name file).or (env name)

/-- The call comes to an end. It makes the calls of `setenv` that are due for the lines, in their
order and no others, so that the variables are set by the last ones. -/
def ReadsProfile (env_variable : Vector UInt8 variableSize) (env_path : EnvPath)
    (file : List UInt8) : Prop :=
  ∃ log, ComesTo (fun fuel => readFile fuel env_variable env_path (some file)) log ∧
    setenvs log = dues file ∧ SetsVariables file log

/-- Each line has at most 108 characters. -/
def ShortLines (file : List UInt8) : Prop := ∀ line ∈ file.splitOn newline, line.length ≤ 108

/-- Each line is read right, where the two arrays hold this in front of the first one. What stands
behind the last newline is a line unless it is empty. -/
def FineLines : List UInt8 → List UInt8 → List Word → Prop
  | _, _, [] => True
  | env_variable, env_path, [line] =>
      line = [] ∨ FineLine line false (written line env_variable) env_path
  | env_variable, env_path, line :: next :: lines =>
      let received := written (line ++ [newline]) env_variable
      FineLine line true received env_path ∧
        FineLines received (pathBehind line received env_path) (next :: lines)

/-! ## One line of the file -/

/-- The lines from here on are read right. -/
def FineOn (s : Profile) : Prop :=
  FineLines s.env_variable s.env_path.toList (s.file.splitOn newline)

structure Ready (s : Profile) : Prop where
  size : s.env_variable.length = variableSize
  short : ShortLines s.file

/-- What `fgets` leaves in the array, for the line that is next in the file. -/
structure NextLine (before file : List UInt8) (line : Word) (ended : Bool)
    (env_variable rest : List UInt8) : Prop where
  fgets : fgets before variableSize file = some (env_variable, rest)
  string : newline ∉ line
  received : Received line ended env_variable
  size : env_variable.length = variableSize
  short : ShortLines rest
  less : rest.length < file.length
  dues : dues file = (due line).toList ++ dues rest
  fine : ∀ env_path, FineLines before env_path (file.splitOn newline) ↔
    FineLine line ended env_variable env_path ∧
      FineLines env_variable (pathBehind line env_variable env_path) (rest.splitOn newline)

section Lines
variable {file env_variable line rest : List UInt8} {s t : Profile} {log : List Effect}

theorem fineLines_cons {env_path : List UInt8} {lines : List Word} (hne : lines ≠ []) :
    FineLines env_variable env_path (line :: lines) ↔
      FineLine line true (written (line ++ [newline]) env_variable) env_path ∧
        FineLines (written (line ++ [newline]) env_variable)
          (pathBehind line (written (line ++ [newline]) env_variable) env_path) lines := by
  cases lines with
  | nil => exact absurd rfl hne
  | cons next lines => exact Iff.rfl

theorem fineLines_nil (env_variable env_path : List UInt8) :
    FineLines env_variable env_path (([] : List UInt8).splitOn newline) := .inl rfl

theorem dues_nil : dues [] = [] := rfl

/-- A line that has its newline. -/
theorem nextLine_ended (hsize : env_variable.length = variableSize) (hline : newline ∉ line)
    (hshort : ShortLines (line ++ newline :: rest)) :
    NextLine env_variable (line ++ newline :: rest) line true
      (written (line ++ [newline]) env_variable) rest := by
  have hsplit : (line ++ newline :: rest).splitOn newline = line :: rest.splitOn newline :=
    List.splitOn_append_cons_self_of_not_mem hline rest
  unfold ShortLines at hshort
  rw [hsplit, List.forall_mem_cons] at hshort
  have hcount : line.length < variableSize - 1 := Nat.lt_succ_of_le hshort.1
  have hne : line ++ newline :: rest ≠ [] := by simp
  have hfgets := fgets_eq env_variable hne variableSize
  rw [takeLine_fits hline hcount] at hfgets
  constructor
  · exact hfgets
  · exact hline
  · have hshape : written (line ++ [newline]) env_variable =
        line ++ newline :: 0 :: env_variable.drop ((line ++ [newline]).length + 1) := by
      rw [written, List.append_assoc, List.singleton_append]
    rw [hshape]
    exact .ended _
  · unfold variableSize at hsize hcount
    unfold written variableSize
    simp only [List.length_append, List.length_cons, List.length_drop, List.length_nil]
    omega
  · exact hshort.2
  · simp only [List.length_append, List.length_cons]
    omega
  · unfold dues
    rw [hsplit, List.filterMap_cons]
    cases due line <;> rfl
  · intro env_path
    rw [hsplit]
    exact fineLines_cons (List.splitOn_ne_nil newline rest)

/-- The last line without a newline. -/
theorem nextLine_last (hsize : env_variable.length = variableSize) (hne : line ≠ [])
    (hline : newline ∉ line) (hshort : ShortLines line) :
    NextLine env_variable line line false (written line env_variable) [] := by
  have hsplit : line.splitOn newline = [line] := List.splitOn_eq_singleton hline
  have hcount : line.length ≤ 108 := by
    apply hshort
    rw [hsplit]
    exact List.mem_singleton_self line
  have hroom : line.length ≤ variableSize - 1 := Nat.le_succ_of_le hcount
  have hfgets := fgets_eq env_variable hne variableSize
  rw [takeLine_last hline hroom] at hfgets
  constructor
  · exact hfgets
  · exact hline
  · exact .last _
  · unfold variableSize at hsize
    unfold written variableSize
    simp only [List.length_append, List.length_cons, List.length_drop]
    omega
  · intro line' hmem
    rw [List.splitOn_nil, List.mem_singleton] at hmem
    rw [hmem]
    exact Nat.zero_le _
  · exact List.length_pos_iff.mpr hne
  · rw [dues_nil, List.append_nil]
    unfold dues
    rw [hsplit, List.filterMap_cons]
    cases due line <;> rfl
  · intro env_path
    rw [hsplit, and_iff_left (fineLines_nil _ _)]
    exact or_iff_right hne

theorem exists_nextLine (h : Ready s) (hne : s.file ≠ []) :
    ∃ line ended env_variable rest,
      NextLine s.env_variable s.file line ended env_variable rest := by
  by_cases hend : newline ∈ s.file
  · rcases List.eq_append_cons_of_mem hend with ⟨line, rest, hfile, hline⟩
    have hshort := h.short
    rw [hfile] at hshort ⊢
    exact ⟨line, true, _, rest, nextLine_ended h.size hline hshort⟩
  · exact ⟨s.file, false, _, [], nextLine_last h.size hne hend h.short⟩

/-- The pass over a line is stopped, or makes at least the calls that are due. They are the
calls that are due exactly if the line is read right. -/
inductive LinePass (s : Profile) : Prop
  | stops (stop : Stop) (hp : profilePass s = .leave (.error stop)) (hnot : ¬ FineOn s)
  | reads (t : Profile) (hp : profilePass s = .again t) (ht : Ready t)
      (hless : t.file.length < s.file.length) (calls line : List (Word × Word))
      (hlog : setenvs t.log = setenvs s.log ++ calls) (hdues : dues s.file = line ++ dues t.file)
      (hlength : line.length ≤ calls.length) (hfine : FineOn s ↔ calls = line ∧ FineOn t)

theorem linePass (h : Ready s) (hne : s.file ≠ []) : LinePass s := by
  rcases exists_nextLine h hne with ⟨line, ended, env_variable, rest, hnext⟩
  have hfgets := hnext.fgets
  have hsize : env_variable.length ≤ 512 := by
    rw [hnext.size]
    decide
  have hfine := hnext.fine s.env_path.toList
  cases hentry : readEntry env_variable s.env_path s.log with
  | error stop =>
      refine .stops stop ?_ ?_
      · simp only [profilePass, hfgets, hentry]
      · intro hright
        rcases entry_fine (hfine.mp hright).1 hnext.string hnext.received hsize s.log with
          ⟨r, hok, _⟩
        rw [hentry] at hok
        cases hok
  | ok r =>
      rcases entry_calls hentry hnext.string hnext.received hsize with
        ⟨calls, hlog, hlength, hcalls⟩
      -- a line that is read right leaves the arrays as they are said to be
      have hkept : FineLine line ended env_variable s.env_path.toList →
          calls = (due line).toList ∧
            r.env_path.toList = pathBehind line env_variable s.env_path.toList := by
        intro hright
        rcases entry_fine hright hnext.string hnext.received hsize s.log with
          ⟨r', hok, hlog', hpath⟩
        rw [hentry] at hok
        cases hok
        exact ⟨List.append_cancel_left (hlog.symm.trans hlog'), hpath⟩
      refine .reads ⟨env_variable, r.env_path, rest, r.log⟩ ?_ ⟨hnext.size, hnext.short⟩ hnext.less
        calls (due line).toList hlog hnext.dues hlength ?_
      · simp only [profilePass, hfgets, hentry]
      · refine hfine.trans ?_
        unfold FineOn
        constructor
        · rintro ⟨hright, hlater⟩
          rw [← (hkept hright).2] at hlater
          exact ⟨(hkept hright).1, hlater⟩
        · rintro ⟨hsame, hlater⟩
          have hright := hcalls hsame
          dsimp only at hlater
          rw [(hkept hright).2] at hlater
          exact ⟨hright, hlater⟩

end Lines

/-! ## The values -/

section Values
variable {name : Word} {env : Word → Option Word} {log : List Effect} {file : List UInt8}

/-- The values of one variable among the calls. -/
def valuesOf (name : Word) (calls : List (Word × Word)) : List Word :=
  calls.filterMap fun call => if call.1 = name then some call.2 else none

theorem environment_eq (env : Word → Option Word) (log : List Effect) (name : Word) :
    environment env log name = (valuesOf name (setenvs log)).getLast?.or (env name) := by
  induction log generalizing env with
  | nil => rfl
  | cons effect log ih =>
      cases effect with
      | chdir path => exact ih env
      | setenv name' value =>
          have hrest : environment env (.setenv name' value :: log) name =
              environment (Function.update env name' (some value)) log name := rfl
          have hcalls : setenvs (.setenv name' value :: log) = (name', value) :: setenvs log := rfl
          rw [hrest, ih, hcalls, valuesOf, valuesOf, List.filterMap_cons]
          by_cases hname : name' = name
          · subst hname
            rw [Function.update_self, if_pos rfl, List.getLast?_cons]
            cases (List.filterMap _ (setenvs log)).getLast? <;> rfl
          · rw [Function.update_of_ne (Ne.symm hname), if_neg hname]

theorem lastValue_eq (hname : name ∈ names) (file : List UInt8) :
    lastValue name file = (valuesOf name (dues file)).getLast? := by
  unfold lastValue valuesOf dues
  rw [List.filterMap_filterMap]
  congr 1
  apply List.filterMap_congr
  intro line _
  unfold due
  by_cases hequals : equalsSign ∈ line
  · by_cases he : nameOf line = name
    · simp [hequals, he, hname]
    · by_cases hmem : nameOf line ∈ names
      · simp [hequals, he, hmem]
      · simp [hequals, he, hmem]
  · simp [hequals]

/-- The last calls decide. -/
theorem setsVariables_of_calls (h : setenvs log = dues file) : SetsVariables file log := by
  intro env name hname
  rw [environment_eq, h, lastValue_eq hname]

end Values

/-! ## The run -/

section Runs
variable {s : Profile} {log : List Effect} {file : List UInt8}

/-- From here on the calls that are due are made. -/
def ReadsOn (s : Profile) : Prop :=
  ∃ log, Leaves profilePass s (.ok log) ∧ setenvs log = setenvs s.log ++ dues s.file

theorem profilePass_end (hfile : s.file = []) : profilePass s = .leave (.ok s.log) := by
  simp only [profilePass, hfile, fgets]

/-- No run makes fewer calls than are due. -/
theorem calls_of_leaves (h : Ready s) (hleaves : Leaves profilePass s (.ok log)) :
    ∃ calls, setenvs log = setenvs s.log ++ calls ∧ (dues s.file).length ≤ calls.length := by
  induction hlength : s.file.length using Nat.strong_induction_on generalizing s with
  | h length ih =>
      by_cases hfile : s.file = []
      · have hend : Leaves profilePass s (.ok s.log) :=
          ⟨1, run_succ_of_leave (profilePass_end hfile) 0⟩
        cases hend.unique hleaves
        refine ⟨[], (List.append_nil _).symm, ?_⟩
        rw [hfile]
        exact Nat.le_refl 0
      · cases linePass h hfile with
        | stops stop hp _ =>
            have hstop : Leaves profilePass s (.error stop) := ⟨1, run_succ_of_leave hp 0⟩
            cases hstop.unique hleaves
        | reads t hp ht hless calls line hlog hdues hcount _ =>
            have hrest := hleaves.of_walks (.one hp)
            rcases ih t.file.length (hlength ▸ hless) ht hrest rfl with ⟨calls', hlog', hcount'⟩
            refine ⟨calls ++ calls', ?_, ?_⟩
            · rw [hlog', hlog, List.append_assoc]
            · rw [hdues, List.length_append, List.length_append]
              exact Nat.add_le_add hcount hcount'

theorem finishes_nil (hfile : s.file = []) : ReadsOn s ∧ FineOn s := by
  constructor
  · refine ⟨s.log, ⟨1, run_succ_of_leave (profilePass_end hfile) 0⟩, ?_⟩
    rw [hfile, dues_nil, List.append_nil]
  · unfold FineOn
    rw [hfile]
    exact fineLines_nil _ _

theorem readsOn_iff (h : Ready s) : ReadsOn s ↔ FineOn s := by
  induction hlength : s.file.length using Nat.strong_induction_on generalizing s with
  | h length ih =>
      by_cases hfile : s.file = []
      · exact iff_of_true (finishes_nil hfile).1 (finishes_nil hfile).2
      · cases linePass h hfile with
        | stops stop hp hnot =>
            refine iff_of_false ?_ hnot
            rintro ⟨log, hleaves, _⟩
            have hstop : Leaves profilePass s (.error stop) := ⟨1, run_succ_of_leave hp 0⟩
            cases hstop.unique hleaves
        | reads t hp ht hless calls line hlog hdues hcount hfine =>
            have hrest := ih t.file.length (hlength ▸ hless) ht rfl
            rw [hfine, ← hrest]
            constructor
            · rintro ⟨log, hleaves, hcalls⟩
              have hleaves' := hleaves.of_walks (.one hp)
              rcases calls_of_leaves ht hleaves' with ⟨calls', hlog', hcount'⟩
              have hall : calls ++ calls' = line ++ dues t.file := by
                rw [hlog', hlog, hdues, List.append_assoc] at hcalls
                exact List.append_cancel_left hcalls
              have hsame := congrArg List.length hall
              rw [List.length_append, List.length_append] at hsame
              rcases List.append_inj hall (by omega) with ⟨hcall, hlater⟩
              rw [hlater] at hlog'
              exact ⟨hcall, log, hleaves', hlog'⟩
            · rintro ⟨hcall, log, hleaves, hcalls⟩
              refine ⟨log, hleaves.pass hp, ?_⟩
              rw [hcalls, hlog, hcall, hdues, List.append_assoc]

end Runs

/-! ## Plain lines -/

/-- A line with an equals sign that neither sets PATH nor gives a name for a value that is
looked for later. -/
structure PlainLine (line : Word) : Prop where
  equals : equalsSign ∈ line
  string : 0 ∉ line
  ended : newline ∉ line
  fits : line.length ≤ 108
  path : nameOf line ≠ PATH
  later : commandOf line ∉ laterNames (nameOf line)

section Plain
variable {line env_variable env_path : List UInt8} {ended : Bool} {lines : List Word}

/-- Such a line is read right whatever the arrays hold. -/
theorem PlainLine.fine (h : PlainLine line) (hb : Received line ended env_variable) :
    FineLine line ended env_variable env_path := by
  rcases hb.split with ⟨d, more, rfl, _, _⟩
  rcases parameter_eq h.equals with ⟨hsplit, hname⟩
  have hnamed : nameOf (line ++ d :: more) = nameOf line := by
    conv_lhs => rw [hsplit, List.append_assoc]
    exact (nameOf_append _ hname).1
  have hstring := h.string
  rw [hsplit, List.mem_append, not_or] at hstring
  constructor
  · exact List.mem_append_left _ h.equals
  · rw [hnamed, textOf_eq hstring.1]
    intro hmem hnone
    rw [due, if_pos ⟨h.equals, hmem⟩] at hnone
    cases hnone
  · intro name value hdue
    rw [due, Option.ite_none_right_eq_some] at hdue
    rcases hdue with ⟨_, hdue⟩
    cases hdue
    exact ⟨fun hmem => hstring.2 (List.mem_cons_of_mem _ hmem), fun hpath => absurd hpath h.path⟩
  · intro name value hdue
    rw [due, Option.ite_none_right_eq_some] at hdue
    rcases hdue with ⟨_, hdue⟩
    cases hdue
    exact h.later

/-- The file with these lines. -/
def fileOf (lines : List Word) : List UInt8 := lines.flatMap (· ++ [newline])

theorem fileOf_cons (line : Word) (lines : List Word) :
    fileOf (line :: lines) = line ++ newline :: fileOf lines := by
  simp [fileOf]

theorem shortLines_fileOf (h : ∀ line ∈ lines, PlainLine line) : ShortLines (fileOf lines) := by
  induction lines with
  | nil =>
      intro line hmem
      rw [fileOf, List.flatMap_nil, List.splitOn_nil, List.mem_singleton] at hmem
      rw [hmem]
      exact Nat.zero_le _
  | cons line lines ih =>
      rw [List.forall_mem_cons] at h
      rw [ShortLines, fileOf_cons, List.splitOn_append_cons_self_of_not_mem h.1.ended,
        List.forall_mem_cons]
      exact ⟨h.1.fits, ih h.2⟩

theorem splitOn_fileOf (h : ∀ line ∈ lines, PlainLine line) :
    (fileOf lines).splitOn newline = lines ++ [[]] := by
  induction lines with
  | nil => rfl
  | cons line lines ih =>
      rw [List.forall_mem_cons] at h
      rw [fileOf_cons, List.splitOn_append_cons_self_of_not_mem h.1.ended, ih h.2]
      rfl

/-- A file of such lines is read right. -/
theorem fine_plain (h : ∀ line ∈ lines, PlainLine line) (env_variable env_path : List UInt8) :
    FineLines env_variable env_path (lines ++ [[]]) := by
  induction lines generalizing env_variable env_path with
  | nil => exact .inl rfl
  | cons line lines ih =>
      rw [List.forall_mem_cons] at h
      have hreceived : Received line true (written (line ++ [newline]) env_variable) := by
        rw [written, List.append_assoc, List.singleton_append]
        exact .ended _
      rw [List.cons_append]
      exact (fineLines_cons (by simp)).mpr ⟨h.1.fine hreceived, ih h.2 _ _⟩

end Plain

/-! ## The file -/

/-- The profile is read right exactly if each of its lines is. -/
theorem reads_profile_iff {file : List UInt8} (hshort : ShortLines file)
    (env_variable : Vector UInt8 variableSize) (env_path : EnvPath) :
    ReadsProfile env_variable env_path file ↔
      FineLines env_variable.toList env_path.toList (file.splitOn newline) := by
  have hready : Ready ⟨env_variable.toList, env_path, file, []⟩ :=
    ⟨env_variable.length_toList, hshort⟩
  refine Iff.trans ?_ (readsOn_iff hready)
  constructor
  · rintro ⟨log, ⟨enough, hcomes⟩, hcalls, _⟩
    exact ⟨log, leaves_of_loop (hcomes enough (Nat.le_refl enough)), hcalls⟩
  · rintro ⟨log, hleaves, hcalls⟩
    exact ⟨log, comesTo_of_leaves hleaves, hcalls, setsVariables_of_calls hcalls⟩

/-- The lines `SIGN=$` and `HOME=/a`. -/
theorem reads_profile_two :
    ReadsProfile (.replicate _ 0) (.replicate _ 0)
      [83, 73, 71, 78, 61, 36, 10, 72, 79, 77, 69, 61, 47, 97, 10] := by
  have hlines : ∀ line ∈ [[83, 73, 71, 78, 61, 36], [72, 79, 77, 69, 61, 47, 97]],
      PlainLine line := by
    rw [List.forall_mem_cons, List.forall_mem_singleton]
    constructor <;> constructor <;> decide
  have hshort := shortLines_fileOf hlines
  have hfine := fine_plain hlines (List.replicate variableSize 0) (List.replicate 512 0)
  rw [← splitOn_fileOf hlines] at hfine
  exact (reads_profile_iff hshort _ _).mpr hfine

/-- The line `PATH=/bin`. The newline becomes a part of the value. -/
theorem reads_profile_fails :
    ¬ ∀ (env_variable : Vector UInt8 variableSize) (env_path : EnvPath) (file : List UInt8),
      ShortLines file →
        ∃ log, ComesTo (fun fuel => readFile fuel env_variable env_path (some file)) log ∧
          SetsVariables file log := by
  intro h
  let file : List UInt8 := [80, 65, 84, 72, 61, 47, 98, 105, 110, 10]
  have hshort : ShortLines file := by
    unfold ShortLines
    decide
  have hrun : readFile 2 (.replicate _ 0) (.replicate _ 0) (some file) =
      .ok [.setenv PATH [47, 98, 105, 110, 10]] := by
    decide +kernel
  rcases h (.replicate _ 0) (.replicate _ 0) file hshort with ⟨log, ⟨enough, hcomes⟩, hsets⟩
  cases (leaves_of_loop hrun).unique (leaves_of_loop (hcomes enough (Nat.le_refl enough)))
  have hpath := hsets (fun _ => none) PATH (by decide)
  exact absurd hpath (by decide)

end MinixOS.ProfileRuns
