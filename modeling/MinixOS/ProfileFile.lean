import MinixOS.AliasFile

/-!
# The profile file

The function `read_file` of functions.c. The name of a variable is copied into `env_path`, and so
is its value, while the array is still compared with the other names. What the two arrays hold
before the first line is a parameter. The search for an equals sign does not end with the line:
behind the terminator the array still holds what earlier lines have left there.
-/
namespace MinixOS.ProfileFile
open LoopExecution CheckedExecution Tokenizer ShellExecution AliasFile

/-! ## The names -/

def PATH : Word := [80, 65, 84, 72]
def SIGN : Word := [83, 73, 71, 78]
def HOME : Word := [72, 79, 77, 69]

/-- The size of the array `env_variable`. -/
def variableSize : ℕ := 110

abbrev EnvPath := Vector UInt8 512

inductive Effect where
  | setenv (name value : Word)
  | chdir (path : Word)
deriving DecidableEq, Repr

/-! ## One line -/

/-- `while(env_variable[i] != '=')`, with the part of `env_variable` from index `i` on. -/
def copyName : List UInt8 → ℕ → EnvPath → Except Stop (List UInt8 × ℕ × EnvPath)
  | [], i, _ => .error (.outOfRange i)
  | c :: rest, i, env_path =>
      if c = equalsSign then .ok (c :: rest, i, env_path)
      else do
        let env_path ← writeAt env_path i c
        copyName rest (i + 1) env_path

/-- The variables of a pass, with the part of `env_variable` from index `i` on, and what was done
so far. -/
structure Reading where
  rest : List UInt8
  i : ℕ
  j : ℕ
  env_path : EnvPath
  log : List Effect
deriving DecidableEq, Repr

/-- The loop that copies a value. It ends at a terminator, and where `ends` says so of the index,
the byte there and the array `env_path`. -/
def copyValue (ends : ℕ → UInt8 → EnvPath → Bool) :
    List UInt8 → ℕ → ℕ → EnvPath → Except Stop (List UInt8 × ℕ × ℕ × EnvPath)
  | [], i, _, _ => .error (.outOfRange i)
  | c :: rest, i, j, env_path =>
      if c = 0 ∨ ends i c env_path then .ok (c :: rest, i, j, env_path)
      else do
        let env_path ← writeAt env_path j c
        copyValue ends rest (i + 1) (j + 1) env_path

/-- What is done if `env_path` holds this name. -/
def setVariable (name : Word) (ends : ℕ → UInt8 → EnvPath → Bool) (effects : Word → List Effect)
    (r : Reading) : Except Stop Reading :=
  if textOf r.env_path.toList = name then do
    let (rest, i, j, env_path) ← copyValue ends r.rest.tail (r.i + 1) r.j r.env_path
    let env_path ← writeAt env_path j 0
    return { rest := rest, i := i, j := j, env_path := env_path
             log := r.log ++ effects (textOf env_path.toList) }
  else .ok r

/-- `env_path[i] != '\n'`, where the index is one of `env_variable`. -/
def endsPath (i : ℕ) (_ : UInt8) (env_path : EnvPath) : Bool := env_path.toList[i]? == some newline

/-- `env_variable[i] != '\n'`. -/
def endsLine (_ : ℕ) (c : UInt8) (_ : EnvPath) : Bool := c == newline

def setPath (r : Reading) : Except Stop Reading :=
  setVariable PATH endsPath (fun value => [.setenv PATH value]) r

def setSign (r : Reading) : Except Stop Reading :=
  setVariable SIGN endsLine (fun value => [.setenv SIGN value]) r

def setHome (r : Reading) : Except Stop Reading :=
  setVariable HOME endsLine (fun value => [.setenv HOME value, .chdir value]) r

/-- The body of the loop over the lines. -/
def readEntry (env_variable : List UInt8) (env_path : EnvPath) (log : List Effect) :
    Except Stop Reading := do
  let (rest, i, env_path) ← copyName env_variable 0 env_path
  let env_path ← writeAt env_path i 0
  let r ← setPath { rest := rest, i := i, j := 0, env_path := env_path, log := log }
  let r ← setSign r
  setHome r

/-! ## The file -/

structure Profile where
  env_variable : List UInt8
  env_path : EnvPath
  file : List UInt8
  log : List Effect
deriving DecidableEq, Repr

def profilePass (s : Profile) : Pass Profile (Except Stop (List Effect)) :=
  match fgets s.env_variable variableSize s.file with
  | none => .leave (.ok s.log)
  | some (env_variable, file) =>
      match readEntry env_variable s.env_path s.log with
      | .error stop => .leave (.error stop)
      | .ok r =>
          .again
            { env_variable := env_variable, env_path := r.env_path, file := file, log := r.log }

/-- If the file is not opened, `strcat` writes behind the end of a literal of 28 bytes. -/
def readFile (fuel : ℕ) (env_variable : Vector UInt8 variableSize) (env_path : EnvPath)
    (file : Option (List UInt8)) : Except Stop (List Effect) := do
  let some bytes := file | throw (.outOfRange 28)
  loop profilePass fuel
    { env_variable := env_variable.toList, env_path := env_path, file := bytes, log := [] }

/-! ## The copied name -/

section Names
variable {name front tail : List UInt8} {env_path : EnvPath} {i : ℕ}

theorem copyName_eq (hname : equalsSign ∉ name) (h : env_path.toList = front ++ tail)
    (hroom : front.length + name.length < 512) (back : List UInt8) :
    ∃ env_path', copyName (name ++ equalsSign :: back) front.length env_path =
        .ok (equalsSign :: back, front.length + name.length, env_path') ∧
      env_path'.toList = front ++ name ++ tail.drop name.length := by
  induction name generalizing front tail env_path with
  | nil => exact ⟨env_path, by simp [copyName], by simp [h]⟩
  | cons c name ih =>
      rw [List.mem_cons, not_or] at hname
      rw [List.length_cons] at hroom
      rcases tail_of_room h (by omega) with ⟨x, tail', rfl⟩
      rcases write_tail h c with ⟨env_path₁, hwrite, h₁⟩
      rw [List.append_cons] at h₁
      have hroom₁ : (front ++ [c]).length + name.length < 512 := by
        rw [List.length_append, List.length_singleton]
        omega
      rcases ih hname.2 h₁ hroom₁ with ⟨env_path', hcopy, h'⟩
      refine ⟨env_path', ?_, by simpa using h'⟩
      rw [List.length_append, List.length_singleton, Nat.add_right_comm, Nat.add_assoc] at hcopy
      rw [List.cons_append, copyName, if_neg (Ne.symm hname.1), hwrite, ok_bind]
      exact hcopy

theorem copyName_missing (h : equalsSign ∉ name) :
    ∀ result, copyName name i env_path ≠ .ok result := by
  induction name generalizing i env_path with
  | nil => exact fun result hok => by cases hok
  | cons c name ih =>
      rw [List.mem_cons, not_or] at h
      intro result hok
      rw [copyName, if_neg (Ne.symm h.1)] at hok
      rcases bind_eq_ok.mp hok with ⟨env_path', _, hcopy⟩
      exact ih h.2 result hcopy

end Names

/-! ## The copied value -/

/-- The loop goes over these bytes from index `i` on. -/
def GoesOver (ends : ℕ → UInt8 → EnvPath → Bool) (env_path : EnvPath) (i : ℕ) (value : Word) :
    Prop :=
  ∀ k c, value[k]? = some c → c ≠ 0 ∧ ends (i + k) c env_path = false

/-- The loop ends at this byte. -/
def Halts (ends : ℕ → UInt8 → EnvPath → Bool) (env_path : EnvPath) (i : ℕ) (c : UInt8) : Prop :=
  c = 0 ∨ ends i c env_path = true

/-- What is written in front of the index does not matter. -/
def Steady (ends : ℕ → UInt8 → EnvPath → Bool) : Prop :=
  ∀ i c (env_path env_path' : EnvPath),
    (∀ k, i ≤ k → env_path'.toList[k]? = env_path.toList[k]?) →
      ends i c env_path' = ends i c env_path

section Values
variable {ends : ℕ → UInt8 → EnvPath → Bool} {value value' back more rest front tail : List UInt8}
  {env_path env_path' : EnvPath} {c d : UInt8} {i j : ℕ}

theorem steady_endsPath : Steady endsPath := by
  intro i c env_path env_path' h
  unfold endsPath
  rw [h i (Nat.le_refl i)]

theorem steady_endsLine : Steady endsLine := fun _ _ _ _ _ => rfl

theorem not_halts_iff : ¬ Halts ends env_path i c ↔ c ≠ 0 ∧ ends i c env_path = false := by
  unfold Halts
  rw [not_or, Bool.not_eq_true]

theorem goesOver_nil : GoesOver ends env_path i [] := by
  intro k c hc
  cases hc

theorem GoesOver.cons (hc : ¬ Halts ends env_path i c) (h : GoesOver ends env_path (i + 1) value) :
    GoesOver ends env_path i (c :: value) := by
  intro k d hd
  cases k with
  | zero =>
      cases hd
      exact not_halts_iff.mp hc
  | succ k =>
      rw [List.getElem?_cons_succ] at hd
      have hd' := h k d hd
      rw [Nat.add_right_comm, Nat.add_assoc] at hd'
      exact hd'

/-- The bytes gone over are those in front of the first one at which the loop ends. -/
theorem GoesOver.le_of_halts (h : GoesOver ends env_path i value)
    (hhalts : Halts ends env_path (i + value'.length) d)
    (heq : value ++ c :: back = value' ++ d :: more) : value.length ≤ value'.length := by
  by_contra hlt
  have hd : (value ++ c :: back)[value'.length]? = some d := by
    rw [heq, List.getElem?_append_right (Nat.le_refl _), Nat.sub_self, List.getElem?_cons_zero]
  rw [List.getElem?_append_left (Nat.not_le.mp hlt)] at hd
  exact not_halts_iff.mpr (h _ d hd) hhalts

theorem copied_unique (h : GoesOver ends env_path i value)
    (hc : Halts ends env_path (i + value.length) c) (h' : GoesOver ends env_path i value')
    (hd : Halts ends env_path (i + value'.length) d)
    (heq : value ++ c :: back = value' ++ d :: more) : value = value' := by
  have hle := h.le_of_halts hd heq
  have hle' := h'.le_of_halts hc heq.symm
  exact List.append_inj_left heq (Nat.le_antisymm hle hle')

theorem Steady.goesOver (hsteady : Steady ends)
    (h : ∀ k, i ≤ k → env_path'.toList[k]? = env_path.toList[k]?)
    (hover : GoesOver ends env_path' i value) : GoesOver ends env_path i value := by
  intro k c hc
  rw [← hsteady (i + k) c env_path env_path' fun index hle => h index (by omega)]
  exact hover k c hc

theorem Steady.halts (hsteady : Steady ends)
    (h : ∀ k, i ≤ k → env_path'.toList[k]? = env_path.toList[k]?)
    (hhalts : Halts ends env_path' i c) : Halts ends env_path i c := by
  unfold Halts at hhalts ⊢
  rw [← hsteady i c env_path env_path' h]
  exact hhalts

theorem copyValue_halts (rest : List UInt8) (j : ℕ) (h : Halts ends env_path i c) :
    copyValue ends (c :: rest) i j env_path = .ok (c :: rest, i, j, env_path) :=
  if_pos h

theorem copyValue_step (rest : List UInt8) (h : ¬ Halts ends env_path i c)
    (hwrite : writeAt env_path (j : ℕ) c = .ok env_path') :
    copyValue ends (c :: rest) i j env_path = copyValue ends rest (i + 1) (j + 1) env_path' := by
  refine (if_neg h).trans ?_
  rw [hwrite, ok_bind]

/-- If there is a terminator, the loop ends at it or in front of it. -/
theorem copyValue_ok (hsteady : Steady ends) (hzero : 0 ∈ rest)
    (h : env_path.toList = front ++ tail) (hi : front.length ≤ i)
    (hroom : front.length + rest.length ≤ 512) :
    ∃ value c back env_path', rest = value ++ c :: back ∧ GoesOver ends env_path i value ∧
      Halts ends env_path (i + value.length) c ∧
      copyValue ends rest i front.length env_path =
        .ok (c :: back, i + value.length, front.length + value.length, env_path') ∧
      env_path'.toList = front ++ value ++ tail.drop value.length := by
  induction rest generalizing i front tail env_path with
  | nil => cases hzero
  | cons c rest ih =>
      by_cases hc : Halts ends env_path i c
      · exact ⟨[], c, rest, env_path, rfl, goesOver_nil, hc, copyValue_halts rest _ hc, by simp [h]⟩
      · have hne := (not_halts_iff.mp hc).1
        rw [List.length_cons] at hroom
        rcases tail_of_room h (by omega) with ⟨x, tail', rfl⟩
        rcases write_tail h c with ⟨env_path₁, hwrite, h₁⟩
        have hsame : ∀ k, i + 1 ≤ k → env_path₁.toList[k]? = env_path.toList[k]? := by
          intro k hk
          rw [h, h₁, List.getElem?_append_right (by omega), List.getElem?_append_right (by omega)]
          obtain ⟨m, hm⟩ : ∃ m, k - front.length = m + 1 := ⟨k - front.length - 1, by omega⟩
          rw [hm, List.getElem?_cons_succ, List.getElem?_cons_succ]
        rw [List.append_cons] at h₁
        have hlength : (front ++ [c]).length = front.length + 1 := by
          rw [List.length_append, List.length_singleton]
        rcases ih ((List.mem_cons.mp hzero).resolve_left hne.symm) h₁ (i := i + 1) (by omega)
          (by omega) with ⟨value, d, back, env_path', rfl, hover, hhalts, hcopy, h'⟩
        have hcount : i + 1 + value.length = i + (c :: value).length := by
          rw [List.length_cons]
          omega
        refine ⟨c :: value, d, back, env_path', rfl, ?_, ?_, ?_, by simpa using h'⟩
        · exact .cons hc (hsteady.goesOver hsame hover)
        · have hhalts' := hsteady.halts (fun k hk => hsame k (by omega)) hhalts
          rw [hcount] at hhalts'
          exact hhalts'
        · rw [hlength, hcount, Nat.add_assoc, Nat.add_comm 1] at hcopy
          rw [copyValue_step _ hc hwrite]
          exact hcopy

/-- The variable is set, or nothing is done. -/
theorem setVariable_cases {name : Word} {effects : Word → List Effect} {r r' : Reading}
    (h : setVariable name ends effects r = .ok r') :
    textOf r.env_path.toList ≠ name ∧ r' = r ∨
      textOf r.env_path.toList = name ∧ ∃ value, r'.log = r.log ++ effects value := by
  unfold setVariable at h
  split_ifs at h with hname
  · rcases bind_eq_ok.mp h with ⟨⟨rest, i, j, env_path⟩, _, h⟩
    rcases bind_eq_ok.mp h with ⟨env_path', _, h⟩
    cases h
    exact .inr ⟨hname, _, rfl⟩
  · cases h
    exact .inl ⟨hname, rfl⟩

theorem setVariable_skips {name : Word} {effects : Word → List Effect} {r : Reading}
    (h : textOf r.env_path.toList ≠ name) : setVariable name ends effects r = .ok r := by
  unfold setVariable
  rw [if_neg h]

/-- The first variable that is set gets the copied bytes. They are in `env_path` then. -/
theorem setVariable_first {name : Word} {effects : Word → List Effect} {log : List Effect}
    (hsteady : Steady ends) (hzero : 0 ∈ back) (hroom : back.length < 512)
    (hname : textOf env_path.toList = name) :
    ∃ value d more r, back = value ++ d :: more ∧ GoesOver ends env_path (i + 1) value ∧
      Halts ends env_path (i + 1 + value.length) d ∧
      setVariable name ends effects ⟨c :: back, i, 0, env_path, log⟩ = .ok r ∧
      r.env_path.toList = value ++ 0 :: env_path.toList.drop (value.length + 1) ∧
      textOf r.env_path.toList = value ∧ r.log = log ++ effects value := by
  rcases copyValue_ok hsteady hzero (List.nil_append env_path.toList).symm (Nat.zero_le (i + 1))
    (by simpa using hroom.le) with ⟨value, d, more, env_path₁, hback, hover, hhalts, hcopy, h₁⟩
  rw [List.nil_append] at h₁
  have hshort : value.length < 512 := by
    rw [hback, List.length_append] at hroom
    omega
  rcases tail_of_room h₁ hshort with ⟨x, tail, htail⟩
  rw [htail] at h₁
  rcases write_tail h₁ 0 with ⟨env_path₂, hwrite, h₂⟩
  have hstring : 0 ∉ value := by
    intro hmem
    rcases List.getElem?_of_mem hmem with ⟨k, hk⟩
    exact (hover k 0 hk).1 rfl
  have htext : textOf env_path₂.toList = value := by
    rw [h₂, textOf_append hstring]
  have hrest : tail = env_path.toList.drop (value.length + 1) := by
    rw [← List.tail_drop, htail, List.tail_cons]
  refine ⟨value, d, more, ⟨d :: more, i + 1 + value.length, value.length, env_path₂,
    log ++ effects value⟩, hback, hover, hhalts, ?_, by rw [h₂, hrest], htext, rfl⟩
  rw [List.length_nil, Nat.zero_add] at hcopy
  rw [setVariable, if_pos hname]
  dsimp only
  rw [List.tail_cons, hcopy, ok_bind]
  dsimp only
  rw [hwrite, ok_bind, htext]
  rfl

end Values

end MinixOS.ProfileFile
