import MinixOS.AliasFile

/-!
# The definition of an alias

What `create_alias` comes to on a parameter with an equals sign. It copies the
parameter into the array `tmp` and takes what stands in front of the next newline of
`tmp` as the command. The parameter has no newline, so the scan goes on behind its
terminator, over what the array held before. It comes to an end if a newline is
there early enough, and the bytes copied behind the terminator do not matter then.
-/
namespace MinixOS.AliasDefinition
open CheckedExecution Tokenizer ShellExecution AliasFile

theorem copyUntil_eq (stop : UInt8) (l : List UInt8) (j : ℕ) (buffer : Word) :
    copyUntil stop l j buffer = copyUpTo 512 stop l j buffer := by
  induction l generalizing j buffer with
  | nil => rfl
  | cons c l ih =>
      unfold copyUntil copyUpTo
      rw [ih]

/-- What stands in front of the equals sign of a parameter, and what stands behind it. -/
def nameOf (parameter : Word) : Word := parameter.takeWhile (· ≠ equalsSign)
def commandOf (parameter : Word) : Word := (parameter.dropWhile (· ≠ equalsSign)).tail

theorem nameOf_append {name : Word} (command : Word) (h : equalsSign ∉ name) :
    nameOf (name ++ equalsSign :: command) = name ∧
      commandOf (name ++ equalsSign :: command) = command := by
  constructor
  · exact takeWhile_front h command
  · rw [commandOf, dropWhile_front h, List.tail_cons]

theorem parameter_eq {parameter : Word} (h : equalsSign ∈ parameter) :
    parameter = nameOf parameter ++ equalsSign :: commandOf parameter ∧
      equalsSign ∉ nameOf parameter := by
  obtain ⟨name, command, rfl, hname⟩ := List.eq_append_cons_of_mem h
  obtain ⟨hn, hc⟩ := nameOf_append command hname
  rw [hn, hc]
  exact ⟨rfl, hname⟩

/-- A newline is left in `tmp` behind the parameter, and within the reach of the buffer. -/
def NewlineBehind (tmp : Vector UInt8 512) (parameter : Word) : Prop :=
  ∃ k, tmp.toList[parameter.length + 1 + k]? = some newline ∧
    (commandOf parameter).length + 1 + k ≤ bufferSize

/-- The alias is already there, or there is room for it and its end is found. -/
def CanDefine (tmp : Vector UInt8 512) (aliases : List Alias) (parameter : Word) : Prop :=
  nameOf parameter ∈ aliases.map Alias.name ∨
    (aliases.length < 512 ∧ NewlineBehind tmp parameter)

/-- The parameter is a string of one line with an equals sign, in the buffer of a word. -/
structure Definition (parameter : Word) : Prop where
  equals : equalsSign ∈ parameter
  string : 0 ∉ parameter
  line : newline ∉ parameter
  fits : parameter.length < bufferSize

section Definitions
variable {tmp : Vector UInt8 512} {aliases : List Alias} {parameter : Word}

theorem isAlias_eq_true (cmd : Word) (aliases : List Alias) :
    (isAlias cmd aliases).2 = true ↔ cmd ∈ aliases.map Alias.name := by
  induction aliases with
  | nil => simp [isAlias]
  | cons entry aliases ih =>
      unfold isAlias
      split_ifs with h
      · simp [h]
      · rw [ih, List.map_cons, List.mem_cons, or_iff_right h]

/-- What `tmp` holds behind the terminator of the parameter. -/
def behindParameter (tmp : Vector UInt8 512) (parameter : Word) : List UInt8 :=
  tmp.toList.drop (parameter.length + 1)

theorem Definition.mem_command (h : Definition parameter) {c : UInt8} (hc : c ∉ parameter) :
    c ∉ commandOf parameter := by
  rw [(parameter_eq h.equals).1] at hc
  exact fun hmem => hc (List.mem_append_right _ (List.mem_cons_of_mem _ hmem))

theorem Definition.lengths (h : Definition parameter) :
    (nameOf parameter).length + (commandOf parameter).length + 1 < bufferSize := by
  have hlength := congrArg List.length (parameter_eq h.equals).1
  have hfits := h.fits
  rw [List.length_append, List.length_cons] at hlength
  omega

/-- The copy of the command ends at the first newline behind the parameter. -/
theorem copy_cases {copied rest : Word} (h : Definition parameter)
    (hcopy : copyUntil newline (commandOf parameter ++ 0 :: behindParameter tmp parameter) 0 [] =
      .ok (copied, rest)) :
    NewlineBehind tmp parameter ∧ textOf copied = commandOf parameter := by
  have hline := h.mem_command h.line
  have hstring := h.mem_command h.string
  rw [copyUntil_eq] at hcopy
  obtain ⟨w, hsplit, _, rfl, hlength⟩ := copyUpTo_split hcopy (Nat.zero_le _)
  rcases List.append_eq_append_iff.mp hsplit with ⟨front, rfl, hrest⟩ | ⟨back, hcommand, hrest⟩
  · cases front with
    | nil => cases hrest
    | cons c front =>
        obtain ⟨rfl, hbehind⟩ := List.cons.inj hrest
        refine ⟨⟨front.length, ?_, ?_⟩, ?_⟩
        · have hget : (behindParameter tmp parameter)[front.length]? = some newline := by
            rw [hbehind]
            simp
          rw [behindParameter, List.getElem?_drop] at hget
          exact hget
        · rw [List.length_append, List.length_cons] at hlength
          omega
        · exact textOf_append hstring
  · cases back with
    | nil => cases hrest
    | cons c back =>
        obtain ⟨rfl, _⟩ := List.cons.inj hrest
        rw [hcommand] at hline
        exact absurd (List.mem_append_right _ List.mem_cons_self) hline

theorem copy_found (h : Definition parameter) (hnewline : NewlineBehind tmp parameter) :
    ∃ copied rest, copyUntil newline
      (commandOf parameter ++ 0 :: behindParameter tmp parameter) 0 [] = .ok (copied, rest) := by
  have hline := h.mem_command h.line
  obtain ⟨k, hk, hroom⟩ := hnewline
  have hbehind : (behindParameter tmp parameter)[k]? = some newline := by
    rw [behindParameter, List.getElem?_drop]
    exact hk
  have hmem : newline ∈ (behindParameter tmp parameter).take (k + 1) := by
    apply List.mem_of_getElem? (i := k)
    rw [List.getElem?_take_of_lt (Nat.lt_succ_self k)]
    exact hbehind
  obtain ⟨front, back, hsplit, hfront⟩ := List.eq_append_cons_of_mem hmem
  have hlength : front.length ≤ k := by
    have hle := List.length_take_le (k + 1) (behindParameter tmp parameter)
    rw [hsplit, List.length_append, List.length_cons] at hle
    omega
  have hall : commandOf parameter ++ 0 :: behindParameter tmp parameter =
      (commandOf parameter ++ 0 :: front) ++
        newline :: (back ++ (behindParameter tmp parameter).drop (k + 1)) := by
    conv => lhs; rw [← List.take_append_drop (k + 1) (behindParameter tmp parameter), hsplit]
    simp
  have hnot : newline ∉ commandOf parameter ++ 0 :: front := by
    rw [List.mem_append, List.mem_cons]
    rintro (hmem | he | hmem)
    · exact hline hmem
    · cases he
    · exact hfront hmem
  have hfits : 0 + (commandOf parameter ++ 0 :: front).length ≤ bufferSize := by
    rw [List.length_append, List.length_cons]
    omega
  rw [copyUntil_eq, hall, copyUpTo_found 512 [] hnot hfits]
  exact ⟨_, _, rfl⟩

/-- The first scan ends at the equals sign, whatever the length of the parameter. -/
theorem createAlias_scan (hequals : equalsSign ∈ parameter) (hstring : 0 ∉ parameter)
    (hfits : (nameOf parameter).length ≤ bufferSize) :
    createAlias tmp (some parameter) aliases =
      if nameOf parameter ∈ aliases.map Alias.name then
        .ok { aliases := aliases, log := [.printf "An alias with this name already exits \n"] }
      else
        copyUntil newline (commandOf parameter ++ 0 :: behindParameter tmp parameter) 0 [] >>=
          fun result => storeAlias (nameOf parameter) (textOf result.1) aliases := by
  obtain ⟨hparameter, hname⟩ := parameter_eq hequals
  have hnul : 0 ∉ nameOf parameter := fun hmem =>
    hstring (List.takeWhile_subset _ hmem)
  have hsplit : parameter ++ 0 :: behindParameter tmp parameter =
      nameOf parameter ++
        equalsSign :: (commandOf parameter ++ 0 :: behindParameter tmp parameter) := by
    calc parameter ++ 0 :: behindParameter tmp parameter
        = (nameOf parameter ++ equalsSign :: commandOf parameter) ++
            0 :: behindParameter tmp parameter := by rw [← hparameter]
      _ = nameOf parameter ++
            equalsSign :: (commandOf parameter ++ 0 :: behindParameter tmp parameter) := by simp
  have hfound : copyUntil 61 (parameter ++ 0 :: tmp.toList.drop (parameter.length + 1)) 0 [] =
      .ok (nameOf parameter, commandOf parameter ++ 0 :: behindParameter tmp parameter) := by
    unfold behindParameter at hsplit ⊢
    rw [copyUntil_eq, hsplit]
    exact copyUpTo_found 512 [] hname (by omega)
  simp only [createAlias, hfound, ok_bind, textOf_eq hnul, isAlias_eq_true]
  rfl

theorem createAlias_eq (h : Definition parameter) :
    createAlias tmp (some parameter) aliases =
      if nameOf parameter ∈ aliases.map Alias.name then
        .ok { aliases := aliases, log := [.printf "An alias with this name already exits \n"] }
      else
        copyUntil newline (commandOf parameter ++ 0 :: behindParameter tmp parameter) 0 [] >>=
          fun result => storeAlias (nameOf parameter) (textOf result.1) aliases := by
  have hlengths := h.lengths
  exact createAlias_scan h.equals h.string (by omega)

theorem createAlias_fits (h : Definition parameter) (hcan : CanDefine tmp aliases parameter) :
    ∃ out, createAlias tmp (some parameter) aliases = .ok out := by
  rw [createAlias_eq h]
  split_ifs with hdefined
  · exact ⟨_, rfl⟩
  · obtain ⟨hroom, hnewline⟩ := hcan.resolve_left hdefined
    obtain ⟨copied, rest, hcopy⟩ := copy_found h hnewline
    have hlengths := h.lengths
    have hstore : (nameOf parameter).length < bufferSize ∧
        (commandOf parameter).length < bufferSize := by omega
    rw [hcopy, ok_bind, (copy_cases h hcopy).2, storeAlias, dif_pos hstore, if_pos hroom]
    exact ⟨_, rfl⟩

/-- The two results of a definition. -/
theorem createAlias_cases {out : AliasesOutcome} (h : Definition parameter)
    (hcall : createAlias tmp (some parameter) aliases = .ok out) :
    CanDefine tmp aliases parameter ∧
      ((nameOf parameter ∈ aliases.map Alias.name ∧ out.aliases = aliases ∧
          out.log = [.printf "An alias with this name already exits \n"]) ∨
        (nameOf parameter ∉ aliases.map Alias.name ∧ ∃ entry : Alias,
          entry.name = nameOf parameter ∧ entry.command = commandOf parameter ∧
          out.aliases = aliases ++ [entry] ∧
          out.log = [.printfWord "%s\n" entry.name, .printfWord "%s\n" entry.command,
            .printf "Alias created"])) := by
  rw [createAlias_eq h] at hcall
  split_ifs at hcall with hdefined
  · cases hcall
    exact ⟨.inl hdefined, .inl ⟨hdefined, rfl, rfl⟩⟩
  · obtain ⟨⟨copied, rest⟩, hcopy, hstore⟩ := bind_eq_ok.mp hcall
    obtain ⟨hnewline, htext⟩ := copy_cases h hcopy
    rw [htext] at hstore
    unfold storeAlias at hstore
    split_ifs at hstore with hlengths hroom
    cases hstore
    exact ⟨.inr ⟨hroom, hnewline⟩, .inr
      ⟨hdefined, ⟨_, _, hlengths.1, hlengths.2⟩, rfl, rfl, rfl, rfl⟩⟩

/-! ## Reading nothing but the parameter -/

/-- A string of one line, whose name and value fit into their buffers. -/
structure Parameter (parameter : Word) : Prop where
  string : 0 ∉ parameter
  line : newline ∉ parameter
  name : (nameOf parameter).length < bufferSize
  value : (commandOf parameter).length < bufferSize

/-- What the array `tmp` held before is not read, and the alias is in the table afterwards,
unless its name was there already or the parameter defines none. -/
structure Defines (aliases : List Alias) (parameter : Word) (out : AliasesOutcome) : Prop where
  reads : ∀ tmp, createAlias tmp (some parameter) aliases = .ok out
  added : equalsSign ∈ parameter → nameOf parameter ∉ aliases.map Alias.name →
    (∃ entry : Alias, entry.name = nameOf parameter ∧ entry.command = commandOf parameter ∧
      out.aliases = aliases ++ [entry]) ∧
    isAlias (nameOf parameter) out.aliases = (commandOf parameter, true)
  defined : nameOf parameter ∈ aliases.map Alias.name → out.aliases = aliases
  other : equalsSign ∉ parameter → out.aliases = aliases

/-- The array as it may be found at the start, without a character that a scan waits for. -/
def zeros : Vector UInt8 512 := .replicate 512 0

theorem notMem_zeros {c : UInt8} (hc : c ≠ 0) (n : ℕ) : c ∉ zeros.toList.drop n := by
  intro hmem
  have hzero : c ∈ List.replicate 512 0 := by
    have hall := List.mem_of_mem_drop hmem
    unfold zeros at hall
    rwa [Vector.toList_replicate] at hall
  exact hc (List.eq_of_mem_replicate hzero)

theorem copy_misses {text : Word} {c : UInt8} (hc : c ≠ 0) (htext : c ∉ text) (n : ℕ) :
    ∃ stop, copyUntil c (text ++ 0 :: zeros.toList.drop n) 0 [] = .error stop := by
  have hnot : c ∉ text ++ 0 :: zeros.toList.drop n := by
    rw [List.mem_append, List.mem_cons]
    rintro (hmem | he | hmem)
    · exact htext hmem
    · exact hc he
    · exact notMem_zeros hc n hmem
  rw [copyUntil_eq]
  exact copyUpTo_missing 512 [] hnot

/-- Without an equals sign the first scan runs on behind the terminator. -/
theorem scan_runs_on (hequals : equalsSign ∉ parameter) (aliases : List Alias) :
    ∃ stop, createAlias zeros (some parameter) aliases = .error stop := by
  have hne : equalsSign ≠ 0 := by decide
  rcases copy_misses hne hequals (parameter.length + 1) with ⟨stop, hstop⟩
  unfold equalsSign at hstop
  refine ⟨stop, ?_⟩
  simp only [createAlias, hstop, error_bind]

/-- For a new name the second scan does. -/
theorem value_runs_on (h : Parameter parameter) (hequals : equalsSign ∈ parameter)
    (hnew : nameOf parameter ∉ aliases.map Alias.name) :
    ∃ stop, createAlias zeros (some parameter) aliases = .error stop := by
  have hne : newline ≠ 0 := by decide
  have hvalue : newline ∉ commandOf parameter := by
    have hline := h.line
    rw [(parameter_eq hequals).1] at hline
    exact fun hmem => hline (List.mem_append_right _ (List.mem_cons_of_mem _ hmem))
  rcases copy_misses hne hvalue (parameter.length + 1) with ⟨stop, hstop⟩
  refine ⟨stop, ?_⟩
  rw [createAlias_scan hequals h.string h.name.le, if_neg hnew, behindParameter, hstop]
  rfl

end Definitions

/-- `create_alias` reads nothing but its parameter and does what it is to do exactly if the parameter
names an alias that is there already. -/
theorem create_alias_iff {aliases : List Alias} {parameter : Word} (h : Parameter parameter) :
    (∃ out, Defines aliases parameter out) ↔
      equalsSign ∈ parameter ∧ nameOf parameter ∈ aliases.map Alias.name := by
  constructor
  · rintro ⟨out, hdefines⟩
    have hzeros := hdefines.reads zeros
    by_cases hequals : equalsSign ∈ parameter
    · by_cases hdefined : nameOf parameter ∈ aliases.map Alias.name
      · exact ⟨hequals, hdefined⟩
      · rcases value_runs_on h hequals hdefined with ⟨stop, hstop⟩
        rw [hstop] at hzeros
        cases hzeros
    · rcases scan_runs_on hequals aliases with ⟨stop, hstop⟩
      rw [hstop] at hzeros
      cases hzeros
  · rintro ⟨hequals, hdefined⟩
    refine ⟨⟨aliases, [.printf "An alias with this name already exits \n"]⟩, ?_⟩
    constructor
    · intro tmp
      rw [createAlias_scan hequals h.string h.name.le, if_pos hdefined]
    · exact fun _ hnew => absurd hdefined hnew
    · exact fun _ => rfl
    · exact fun _ => rfl

/-- `alias ll=ls` where `ll` is defined already. -/
theorem create_alias_defined :
    ∃ out, Defines [⟨[108, 108], [112, 115], by decide, by decide⟩] [108, 108, 61, 108, 115] out :=
  (create_alias_iff (by constructor <;> decide)).mpr (by decide)

/-- `alias ll=ls` with an empty table. -/
theorem create_alias_fails :
    ¬ ∀ (aliases : List Alias) (name value : Word), name ≠ [] → equalsSign ∉ name →
      Parameter (name ++ equalsSign :: value) →
      ∃ out, Defines aliases (name ++ equalsSign :: value) out := by
  intro h
  have hparameter : Parameter ([108, 108] ++ equalsSign :: [108, 115]) := by
    constructor <;> decide
  rcases h [] [108, 108] [108, 115] (by decide) (by decide) hparameter with ⟨out, hdefines⟩
  have hequals : equalsSign ∈ ([108, 108] ++ equalsSign :: [108, 115] : Word) := by decide
  have hnew : nameOf ([108, 108] ++ equalsSign :: [108, 115]) ∉ ([] : List Alias).map Alias.name :=
    List.not_mem_nil
  rcases value_runs_on hparameter hequals hnew with ⟨stop, hstop⟩
  have hzeros := hdefines.reads zeros
  rw [hstop] at hzeros
  cases hzeros

end MinixOS.AliasDefinition
