import MinixOS.AliasDefinition
import MinixOS.ProfileFile

/-!
# What the lines of the profile set

A line is to set a variable if one of the three names stands in front of its first equals sign,
and the value is what stands behind it. The function does so for a line of the name SIGN or HOME, as
a rule. The end of a line of the name PATH is not looked for in the line but in what `env_path`
held before. Whether it is right about a line is a matter of the line and of the two arrays.
-/
namespace MinixOS.ProfileLines
open LoopExecution CheckedExecution Tokenizer ShellExecution AliasFile AliasDefinition ProfileFile

/-! ## What is due -/

def names : List Word := [PATH, SIGN, HOME]

theorem mem_names {name : Word} : name ∈ names ↔ name = PATH ∨ name = SIGN ∨ name = HOME := by
  simp [names]

instance : DecidablePred (· ∈ names) := fun _ => decidable_of_iff _ mem_names.symm

/-- The variable that the line is to set, and its value. -/
def due (line : Word) : Option (Word × Word) :=
  if equalsSign ∈ line ∧ nameOf line ∈ names then some (nameOf line, commandOf line) else none

/-- The names that `env_path` is compared with when this one has been found. -/
def laterNames (name : Word) : List Word := (names.dropWhile (· ≠ name)).tail

/-- The calls of `setenv`, by their arguments. -/
def setenvs (log : List Effect) : List (Word × Word) :=
  log.filterMap fun
    | .setenv name value => some (name, value)
    | .chdir _ => none

/-- The line as `fgets` leaves it in the array, with its newline or without one. -/
inductive Received (line : Word) : Bool → List UInt8 → Prop
  | ended (leftover : List UInt8) : Received line true (line ++ newline :: 0 :: leftover)
  | last (leftover : List UInt8) : Received line false (line ++ 0 :: leftover)

/-- The array when this string was copied to its front. -/
def written (text : Word) (array : List UInt8) : List UInt8 :=
  text ++ 0 :: array.drop (text.length + 1)

/-- The value is a string, and `env_path` has a newline just where the line of a PATH ends. -/
structure CopiesValue (name value : Word) (ended : Bool) (env_path : List UInt8) : Prop where
  string : 0 ∉ value
  path : name = PATH →
    (∀ index, 5 ≤ index → index < 5 + value.length → env_path[index]? ≠ some newline) ∧
      (ended = true → env_path[5 + value.length]? = some newline)

/-- The line is read right: an equals sign is found, what is in front of it is not
mistaken for a name, and the value is copied as it is and not mistaken for a later name. -/
structure FineLine (line : Word) (ended : Bool) (env_variable env_path : List UInt8) : Prop where
  equals : equalsSign ∈ env_variable
  named : textOf (nameOf env_variable) ∈ names → due line ≠ none
  copies : ∀ name value, due line = some (name, value) → CopiesValue name value ended env_path
  later : ∀ name value, due line = some (name, value) → value ∉ laterNames name

/-- What is in `env_path` when such a line was read: the text in front of the equals sign, and over it
the value that is due. -/
def pathBehind (line : Word) (env_variable env_path : List UInt8) : List UInt8 :=
  match due line with
  | some (_, value) => written value (written (nameOf env_variable) env_path)
  | none => written (nameOf env_variable) env_path

section Lines
variable {line name value text back more env_variable : List UInt8} {env_path env_path' : EnvPath}
  {log : List Effect} {ended : Bool} {c d : UInt8} {r r' : Reading}

theorem setenvs_append (log log' : List Effect) :
    setenvs (log ++ log') = setenvs log ++ setenvs log' :=
  List.filterMap_append

theorem due_eq_some (h : due line = some (name, value)) :
    line = name ++ equalsSign :: value ∧ equalsSign ∉ name ∧ name ∈ names := by
  unfold due at h
  split_ifs at h with hline
  cases h
  rcases parameter_eq hline.1 with ⟨hsplit, hname⟩
  exact ⟨hsplit, hname, hline.2⟩

theorem names_string (h : name ∈ names) : 0 ∉ name := by
  rcases mem_names.mp h with rfl | rfl | rfl <;> decide

theorem textOf_front (text back : Word) : textOf (text ++ 0 :: back) = textOf text := by
  induction text with
  | nil => rfl
  | cons c text ih =>
      unfold textOf at ih ⊢
      rw [List.cons_append, List.takeWhile_cons, List.takeWhile_cons, ih]

theorem textOf_written (text array : Word) : textOf (written text array) = textOf text :=
  textOf_front text _

/-! ## The comparisons -/

/-- The function does nothing unless one of the names is in `env_path`. Then something is set. -/
structure Compares (names : List Word) (f : Reading → Except Stop Reading) : Prop where
  skips : ∀ r, textOf r.env_path.toList ∉ names → f r = .ok r
  calls : ∀ r r', f r = .ok r' → ∃ calls, setenvs r'.log = setenvs r.log ++ calls ∧
    (calls = [] → textOf r.env_path.toList ∉ names)

theorem compares_none : Compares [] .ok := by
  constructor
  · exact fun r _ => rfl
  · intro r r' h
    cases h
    exact ⟨[], (List.append_nil _).symm, fun _ => List.not_mem_nil⟩

section Blocks
variable {ends : ℕ → UInt8 → EnvPath → Bool} {effects : Word → List Effect}

theorem calls_of_setVariable (heffects : ∀ value, setenvs (effects value) = [(name, value)])
    (h : setVariable name ends effects r = .ok r') :
    ∃ calls, setenvs r'.log = setenvs r.log ++ calls ∧
      (calls = [] → textOf r.env_path.toList ≠ name ∧ r' = r) := by
  rcases setVariable_cases h with ⟨hne, rfl⟩ | ⟨_, value, hlog⟩
  · exact ⟨[], (List.append_nil _).symm, fun _ => ⟨hne, rfl⟩⟩
  · refine ⟨[(name, value)], ?_, nofun⟩
    rw [hlog, setenvs_append, heffects]

theorem compares_one (heffects : ∀ value, setenvs (effects value) = [(name, value)]) :
    Compares [name] (setVariable name ends effects) := by
  constructor
  · intro r hr
    exact setVariable_skips fun he => hr (List.mem_singleton.mpr he)
  · intro r r' h
    rcases calls_of_setVariable heffects h with ⟨calls, hlog, hnil⟩
    refine ⟨calls, hlog, fun he hmem => ?_⟩
    exact (hnil he).1 (List.mem_singleton.mp hmem)

theorem Compares.cons {later : List Word} {f : Reading → Except Stop Reading}
    (hf : Compares later f) (heffects : ∀ value, setenvs (effects value) = [(name, value)]) :
    Compares (name :: later) fun r => setVariable name ends effects r >>= f := by
  constructor
  · intro r hr
    rw [List.mem_cons, not_or] at hr
    rw [setVariable_skips hr.1, ok_bind, hf.skips r hr.2]
  · intro r r' h
    rcases bind_eq_ok.mp h with ⟨r₁, hset, hrest⟩
    rcases calls_of_setVariable heffects hset with ⟨calls, hlog, hnil⟩
    rcases hf.calls r₁ r' hrest with ⟨calls', hlog', hnil'⟩
    refine ⟨calls ++ calls', ?_, ?_⟩
    · rw [hlog', hlog, List.append_assoc]
    · intro he
      rcases List.append_eq_nil_iff.mp he with ⟨hcalls, hcalls'⟩
      rcases hnil hcalls with ⟨hne, rfl⟩
      rw [List.mem_cons, not_or]
      exact ⟨hne, hnil' hcalls'⟩

end Blocks

theorem compares_home : Compares [HOME] setHome := by
  have hhome : Compares [HOME]
      (setVariable HOME endsLine fun value => [.setenv HOME value, .chdir value]) :=
    compares_one fun _ => rfl
  exact hhome

theorem compares_sign : Compares [SIGN, HOME] fun r => setSign r >>= setHome := by
  have hsign : Compares [SIGN, HOME] fun r =>
      setVariable SIGN endsLine (fun value => [.setenv SIGN value]) r >>= setHome :=
    compares_home.cons fun _ => rfl
  exact hsign

theorem compares_path : Compares names fun r => setPath r >>= fun r => setSign r >>= setHome := by
  have hpath : Compares names fun r =>
      setVariable PATH endsPath (fun value => [.setenv PATH value]) r >>= fun r =>
        setSign r >>= setHome :=
    compares_sign.cons fun _ => rfl
  exact hpath

/-! ## The name -/

/-- The array `env_path` holds what stands in front of the equals sign. -/
theorem readEntry_start (hname : equalsSign ∉ text) (hroom : text.length < 512)
    (back : List UInt8) (env_path : EnvPath) (log : List Effect) :
    ∃ env_path', env_path'.toList = text ++ 0 :: env_path.toList.drop (text.length + 1) ∧
      readEntry (text ++ equalsSign :: back) env_path log =
        (setPath ⟨equalsSign :: back, text.length, 0, env_path', log⟩ >>= fun r =>
          setSign r >>= setHome) := by
  have hlength : ([] : List UInt8).length + text.length < 512 := by simpa using hroom
  rcases copyName_eq hname (List.nil_append env_path.toList).symm hlength back with
    ⟨env_path₁, hcopy, h₁⟩
  rw [List.nil_append] at h₁
  rcases tail_of_room h₁ hroom with ⟨x, tail, htail⟩
  rw [htail] at h₁
  rcases write_tail h₁ 0 with ⟨env_path', hwrite, h'⟩
  have hdrop : tail = env_path.toList.drop (text.length + 1) := by
    rw [← List.tail_drop, htail, List.tail_cons]
  refine ⟨env_path', by rw [h', hdrop], ?_⟩
  rw [List.length_nil, Nat.zero_add] at hcopy
  rw [readEntry]
  simp only [hcopy, ok_bind, hwrite]

/-- What is behind the name in `env_path` is as before. -/
theorem behind_name (h : env_path'.toList = text ++ 0 :: env_path.toList.drop (text.length + 1))
    {k : ℕ} (hk : text.length + 1 ≤ k) : env_path'.toList[k]? = env_path.toList[k]? := by
  obtain ⟨m, rfl⟩ := Nat.exists_eq_add_of_le hk
  rw [h, List.getElem?_append_right (by omega), ← List.getElem?_drop]
  have hindex : text.length + 1 + m - text.length = m + 1 := by omega
  rw [hindex, List.getElem?_cons_succ]

/-! ## The value -/

theorem goesOver_endsLine {i : ℕ} (hline : newline ∉ value) :
    GoesOver endsLine env_path i value ↔ 0 ∉ value := by
  constructor
  · intro h hmem
    rcases List.getElem?_of_mem hmem with ⟨k, hk⟩
    exact (h k 0 hk).1 rfl
  · intro hstring k c hc
    have hmem := List.mem_of_getElem? hc
    refine ⟨ne_of_mem_of_not_mem hmem hstring, ?_⟩
    rw [endsLine, beq_eq_false_iff_ne]
    exact ne_of_mem_of_not_mem hmem hline

theorem goesOver_endsPath {i : ℕ} :
    GoesOver endsPath env_path i value ↔ 0 ∉ value ∧
      ∀ index, i ≤ index → index < i + value.length → env_path.toList[index]? ≠ some newline := by
  constructor
  · intro h
    constructor
    · intro hmem
      rcases List.getElem?_of_mem hmem with ⟨k, hk⟩
      exact (h k 0 hk).1 rfl
    · intro index hle hlt hat
      obtain ⟨k, rfl⟩ := Nat.exists_eq_add_of_le hle
      have hk : k < value.length := by omega
      have hends := (h k _ (List.getElem?_eq_getElem hk)).2
      rw [endsPath, hat, beq_self_eq_true] at hends
      cases hends
  · rintro ⟨hstring, hpath⟩ k c hc
    have hlt := (List.getElem?_eq_some_iff.mp hc).choose
    refine ⟨ne_of_mem_of_not_mem (List.mem_of_getElem? hc) hstring, ?_⟩
    rw [endsPath, beq_eq_false_iff_ne]
    exact hpath (i + k) (by omega) (by omega)

theorem Received.split (h : Received line ended env_variable) :
    ∃ d more, env_variable = line ++ d :: more ∧ 0 ∈ d :: more ∧
      (d = 0 ∧ ended = false ∨ d = newline ∧ ended = true) := by
  cases h with
  | ended leftover => exact ⟨newline, _, rfl, by simp, .inr ⟨rfl, rfl⟩⟩
  | last leftover => exact ⟨0, _, rfl, by simp, .inl ⟨rfl, rfl⟩⟩

/-- The name in the array is that of the line. -/
theorem nameOf_received (hdue : due line = some (name, value))
    (h : Received line ended env_variable) : nameOf env_variable = name := by
  rcases due_eq_some hdue with ⟨rfl, hequals, _⟩
  rcases h.split with ⟨d, more, rfl, _, _⟩
  rw [List.append_assoc, List.cons_append]
  exact (nameOf_append _ hequals).1

/-- What is copied is the value if the loop goes over the value and ends behind it. -/
theorem first_copied {ends : ℕ → UInt8 → EnvPath → Bool} (effects : Word → List Effect)
    (log : List Effect) (hsteady : Steady ends) (hzero : 0 ∈ d :: more)
    (hroom : (value ++ d :: more).length < 512) (hname : 0 ∉ name)
    (h : env_path'.toList = name ++ 0 :: env_path.toList.drop (name.length + 1)) :
    ∃ copied r, setVariable name ends effects
        ⟨equalsSign :: (value ++ d :: more), name.length, 0, env_path', log⟩ = .ok r ∧
      r.env_path.toList = written copied env_path'.toList ∧
      textOf r.env_path.toList = copied ∧ r.log = log ++ effects copied ∧
      (copied = value ↔ GoesOver ends env_path (name.length + 1) value ∧
        Halts ends env_path (name.length + 1 + value.length) d) := by
  have htext : textOf env_path'.toList = name := by
    rw [h, textOf_append hname]
  rcases setVariable_first hsteady (List.mem_append_right value hzero) hroom htext with
    ⟨copied, d', more', r, hback, hover, hhalts, hset, hwritten, hcopied, hlog⟩
  have hover' := hsteady.goesOver (fun k hk => behind_name h hk) hover
  have hhalts' := hsteady.halts (fun k hk => behind_name h (by omega)) hhalts
  refine ⟨copied, r, hset, hwritten, hcopied, hlog, ?_⟩
  constructor
  · rintro rfl
    have hsame := List.append_cancel_left hback
    cases hsame
    exact ⟨hover', hhalts'⟩
  · rintro ⟨hvalue, hend⟩
    exact copied_unique hover' hhalts' hvalue hend hback.symm

theorem copiesValue_iff {value : Word} (hname : name ≠ PATH) (hline : newline ∉ value)
    {i j : ℕ} (hd : d = 0 ∨ d = newline) :
    GoesOver endsLine env_path i value ∧ Halts endsLine env_path j d ↔
      CopiesValue name value ended env_path.toList := by
  rw [goesOver_endsLine hline]
  constructor
  · rintro ⟨hstring, _⟩
    exact ⟨hstring, fun hpath => absurd hpath hname⟩
  · intro h
    refine ⟨h.string, ?_⟩
    rcases hd with rfl | rfl
    · exact .inl rfl
    · exact .inr rfl

theorem copiesPath_iff (hd : d = 0 ∧ ended = false ∨ d = newline ∧ ended = true) :
    GoesOver endsPath env_path (PATH.length + 1) value ∧
        Halts endsPath env_path (PATH.length + 1 + value.length) d ↔
      CopiesValue PATH value ended env_path.toList := by
  have hhalts : Halts endsPath env_path (PATH.length + 1 + value.length) d ↔
      (ended = true → env_path.toList[5 + value.length]? = some newline) := by
    have hfive : PATH.length + 1 = 5 := rfl
    rw [Halts, endsPath, beq_iff_eq, hfive]
    rcases hd with ⟨rfl, rfl⟩ | ⟨rfl, rfl⟩
    · exact iff_of_true (.inl rfl) nofun
    · constructor
      · intro h _
        exact h.resolve_left (by decide)
      · exact fun h => .inr (h rfl)
  rw [goesOver_endsPath, hhalts, and_assoc]
  constructor
  · rintro ⟨hstring, hpath⟩
    exact ⟨hstring, fun _ => hpath⟩
  · intro h
    exact ⟨h.string, h.path rfl⟩

/-! ## The line -/

/-- A line with a name: the variable of the name is set, and then the later names are compared. -/
theorem entry_due (hdue : due line = some (name, value)) (hline : newline ∉ line)
    (hb : Received line ended env_variable) (hlength : env_variable.length ≤ 512)
    (env_path : EnvPath) (log : List Effect) :
    ∃ copied r f, readEntry env_variable env_path log = f r ∧ Compares (laterNames name) f ∧
      setenvs r.log = setenvs log ++ [(name, copied)] ∧
      r.env_path.toList = written copied (written name env_path.toList) ∧
      textOf r.env_path.toList = copied ∧
      (copied = value ↔ CopiesValue name value ended env_path.toList) := by
  rcases due_eq_some hdue with ⟨rfl, hequals, hname⟩
  rcases hb.split with ⟨d, more, rfl, hzero, hd⟩
  rw [List.append_assoc, List.cons_append, List.length_append, List.length_cons] at hlength
  rw [List.append_assoc, List.cons_append]
  have hstring := names_string hname
  have hvalue : newline ∉ value := fun hmem => hline (by simp [hmem])
  have hd' : d = 0 ∨ d = newline := hd.imp And.left And.left
  have hroom : (value ++ d :: more).length < 512 := by omega
  rcases readEntry_start hequals (by omega) (value ++ d :: more) env_path log with
    ⟨env_path', hstart, hentry⟩
  have htext : textOf env_path'.toList = name := by
    rw [hstart, textOf_append hstring]
  rcases mem_names.mp hname with rfl | rfl | rfl
  · rcases first_copied (fun value => [.setenv PATH value]) log steady_endsPath hzero hroom hstring
      hstart with ⟨copied, r, hset, hwritten, hcopied, hlog, hiff⟩
    rw [hstart] at hwritten
    refine ⟨copied, r, _, ?_, compares_sign, ?_, hwritten, hcopied,
      hiff.trans (copiesPath_iff hd)⟩
    · rw [hentry, setPath, hset, ok_bind]
    · rw [hlog, setenvs_append]
      rfl
  · rcases first_copied (fun value => [.setenv SIGN value]) log steady_endsLine hzero hroom hstring
      hstart with ⟨copied, r, hset, hwritten, hcopied, hlog, hiff⟩
    rw [hstart] at hwritten
    have hother : SIGN ≠ PATH := by decide
    refine ⟨copied, r, _, ?_, compares_home, ?_, hwritten, hcopied,
      hiff.trans (copiesValue_iff hother hvalue hd')⟩
    · have hskip : textOf env_path'.toList ≠ PATH := by
        rw [htext]
        decide
      rw [hentry, setPath, setVariable_skips hskip, ok_bind, setSign, hset, ok_bind]
    · rw [hlog, setenvs_append]
      rfl
  · rcases first_copied (fun value => [.setenv HOME value, .chdir value]) log steady_endsLine hzero
      hroom hstring hstart with ⟨copied, r, hset, hwritten, hcopied, hlog, hiff⟩
    rw [hstart] at hwritten
    have hother : HOME ≠ PATH := by decide
    refine ⟨copied, r, _, ?_, compares_none, ?_, hwritten, hcopied,
      hiff.trans (copiesValue_iff hother hvalue hd')⟩
    · have hpath : textOf env_path'.toList ≠ PATH := by
        rw [htext]
        decide
      have hsign : textOf env_path'.toList ≠ SIGN := by
        rw [htext]
        decide
      rw [hentry, setPath, setVariable_skips hpath, ok_bind, setSign, setVariable_skips hsign,
        ok_bind, setHome, hset]
    · rw [hlog, setenvs_append]
      rfl

/-- If there is an equals sign, the three names are compared with what is in front of it. -/
theorem entry_compares (hequals : equalsSign ∈ env_variable)
    (hlength : env_variable.length ≤ 512) (env_path : EnvPath) (log : List Effect) :
    ∃ r, r.log = log ∧ r.env_path.toList = written (nameOf env_variable) env_path.toList ∧
      readEntry env_variable env_path log =
        (setPath r >>= fun r => setSign r >>= setHome) := by
  rcases parameter_eq hequals with ⟨hsplit, hname⟩
  rw [hsplit, List.length_append, List.length_cons] at hlength
  rcases readEntry_start hname (by omega) (commandOf env_variable) env_path log with
    ⟨env_path', hstart, hentry⟩
  rw [← hsplit] at hentry
  exact ⟨_, rfl, hstart, hentry⟩

/-- A line that is fine makes the call that is due, and leaves the name or the value in `env_path`. -/
theorem entry_fine (h : FineLine line ended env_variable env_path.toList) (hline : newline ∉ line)
    (hb : Received line ended env_variable) (hlength : env_variable.length ≤ 512)
    (log : List Effect) :
    ∃ r, readEntry env_variable env_path log = .ok r ∧
      setenvs r.log = setenvs log ++ (due line).toList ∧
      r.env_path.toList = pathBehind line env_variable env_path.toList := by
  cases hdue : due line with
  | some assigned =>
      rcases assigned with ⟨name, value⟩
      rcases entry_due hdue hline hb hlength env_path log with
        ⟨copied, r, f, hentry, hcompares, hlog, hwritten, htext, hiff⟩
      have hcopied := hiff.mpr (h.copies name value hdue)
      have hlater := h.later name value hdue
      rw [← hcopied, ← htext] at hlater
      refine ⟨r, ?_, ?_, ?_⟩
      · rw [hentry, hcompares.skips r hlater]
      · rw [hlog, hcopied]
        rfl
      · rw [hwritten, hcopied, pathBehind, hdue, nameOf_received hdue hb]
  | none =>
      have hnot : textOf (nameOf env_variable) ∉ names := fun hmem => h.named hmem hdue
      rcases entry_compares h.equals hlength env_path log with ⟨r, hlog, hwritten, hentry⟩
      rw [← textOf_written _ env_path.toList, ← hwritten] at hnot
      refine ⟨r, ?_, ?_, ?_⟩
      · rw [hentry, compares_path.skips r hnot]
      · rw [hlog]
        exact (List.append_nil _).symm
      · rw [hwritten, pathBehind, hdue]

/-- No call that is due is left out. A line that makes no other calls is fine. -/
theorem entry_calls (hok : readEntry env_variable env_path log = .ok r) (hline : newline ∉ line)
    (hb : Received line ended env_variable) (hlength : env_variable.length ≤ 512) :
    ∃ calls, setenvs r.log = setenvs log ++ calls ∧ (due line).toList.length ≤ calls.length ∧
      (calls = (due line).toList → FineLine line ended env_variable env_path.toList) := by
  have hequals : equalsSign ∈ env_variable := by
    by_contra hmissing
    rcases bind_eq_ok.mp hok with ⟨result, hcopy, _⟩
    exact copyName_missing hmissing result hcopy
  cases hdue : due line with
  | some assigned =>
      rcases assigned with ⟨name, value⟩
      rcases entry_due hdue hline hb hlength env_path log with
        ⟨copied, r₁, f, hentry, hcompares, hlog, _, htext, hiff⟩
      rw [hentry] at hok
      rcases hcompares.calls r₁ r hok with ⟨calls, hlog', hnil⟩
      refine ⟨(name, copied) :: calls, ?_, Nat.succ_le_succ (Nat.zero_le _), ?_⟩
      · rw [hlog', hlog, List.append_assoc]
        rfl
      · intro heq
        rw [Option.toList_some, List.cons.injEq, Prod.mk.injEq] at heq
        rcases heq with ⟨⟨_, hcopied⟩, hcalls⟩
        have hlater := hnil hcalls
        rw [htext, hcopied] at hlater
        refine ⟨hequals, fun _ => by simp [hdue], ?_, ?_⟩
        · intro name' value' hdue'
          cases hdue.symm.trans hdue'
          exact hiff.mp hcopied
        · intro name' value' hdue'
          cases hdue.symm.trans hdue'
          exact hlater
  | none =>
      rcases entry_compares hequals hlength env_path log with ⟨r₁, hstart, hwritten, hentry⟩
      rw [hok] at hentry
      rcases compares_path.calls r₁ r hentry.symm with ⟨calls, hlog, hnil⟩
      rw [hstart] at hlog
      refine ⟨calls, hlog, Nat.zero_le _, ?_⟩
      intro hcalls
      have hnot := hnil hcalls
      rw [hwritten, textOf_written] at hnot
      refine ⟨hequals, fun hmem => absurd hmem hnot, ?_, ?_⟩
      · intro name value hdue'
        rw [hdue] at hdue'
        cases hdue'
      · intro name value hdue'
        rw [hdue] at hdue'
        cases hdue'

end Lines

end MinixOS.ProfileLines
