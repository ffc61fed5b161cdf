import MinixOS.Tokenizer

/-!
# What one pass of the tokenizer does

As long as `inputvalidity` is true, a pass of the main loop takes the next character
and comes back to the loop head, or it rejects the line and leaves the loop, or the
call is stopped. The two relations say all that a pass can do, character class by
character class. Statements about every line are proved from them.
-/
namespace MinixOS.TokenizerSteps
open LoopExecution CheckedExecution CommandQueue Tokenizer

/-- Punctuation that is put into the token. -/
def plainPunct (c : UInt8) : Prop :=
  ispunct c = true ∧ c ≠ comma ∧ c ≠ leftParen ∧ c ≠ rightParen

/-- A control character, or a byte above 127. -/
def noClass (c : UInt8) : Prop := isspace c = false ∧ ispunct c = false ∧ isalnum c = false

/-- The states in which a left parenthesis may follow. -/
def mayOpen (state : CharState) : Prop :=
  state = .comma ∨ state = .lparen ∨ state = .error ∨ state = .space

/-- The states in which a right parenthesis may follow. -/
def mayClose (state : CharState) : Prop :=
  state = .alnum ∨ state = .space ∨ state = .comma ∨ state = .rparen

/-- What the code in front of right parentheses, and their number. -/
def parensBehind (before argv : List UInt8) (i : ℕ) : Except Stop (ℕ × UInt8) :=
  skipParens ((i : ℤ) - 1) (behind before argv i)

/-- The character `c` is taken, and the loop goes on. -/
inductive Takes (before argv : List UInt8) (c : UInt8) (s : Scan) : Scan → Prop
  | skip (h : isspace c = true) (hs : s.state = .comma ∨ s.state = .error ∨ s.state = .space) :
      Takes before argv c s { s with i := s.i + 1, state := .space }
  | blank (h : isspace c = true)
      (hs : ¬ (s.state = .comma ∨ s.state = .error ∨ s.state = .space)) :
      Takes before argv c s
        { s with token := s.token ++ [Tokenizer.blank], i := s.i + 1, state := .space }
  | comma (h : c = Tokenizer.comma) {passes : ℕ} {stop : UInt8}
      (hskip : parensBehind before argv s.i = .ok (passes, stop)) :
      Takes before argv c s
        { s with
          queue := qenqueue s.token (255 - s.priority) s.queue, priority := s.priority - passes
          token := [], i := s.i + 1, state := .comma }
  | left (h : c = leftParen) (hs : mayOpen s.state) {stack : Stack} {printed : List Output}
      (hpush : spush c s.stack = .ok (stack, printed)) :
      Takes before argv c s
        { s with
          stack := stack, log := s.log ++ printed, priority := s.priority + 1, state := .lparen
          i := s.i + 1 }
  | right (h : c = rightParen) (hs : mayClose s.state) {stack : Stack}
      (hpop : spop s.stack = .ok (stack, .paren leftParen)) :
      Takes before argv c s { s with stack := stack, state := .rparen, i := s.i + 1 }
  | punct (h : plainPunct c) :
      Takes before argv c s { s with token := s.token ++ [c], i := s.i + 1, state := .punct }
  | alnum (h : isalnum c = true)
      (hs : s.state = .rparen → ∃ passes, parensBehind before argv s.i = .ok (passes, comma)) :
      Takes before argv c s { s with token := s.token ++ [c], i := s.i + 1, state := .alnum }
  | noClass (h : noClass c) (hs : s.state ≠ .error) : Takes before argv c s s

/-- The message at the end of the loop body. -/
def errorMessage : Output := .printf "Error in command. Please check the input.\n"

/-- The line is rejected at the character `c`, and the loop is left. -/
inductive Rejects (before argv : List UInt8) (c : UInt8) (s : Scan) : Scan → Prop
  | left (h : c = leftParen) (hs : ¬ mayOpen s.state) {stack : Stack} {printed : List Output}
      (hpush : spush c s.stack = .ok (stack, printed)) :
      Rejects before argv c s
        { s with
          inputvalidity := false, stack := stack, log := s.log ++ printed ++ [errorMessage]
          priority := s.priority + 1, state := .lparen, i := s.i + 1 }
  | right (h : c = rightParen) (hs : ¬ mayClose s.state) {stack : Stack}
      (hpop : spop s.stack = .ok (stack, .paren leftParen)) :
      Rejects before argv c s
        { s with
          inputvalidity := false, stack := stack, log := s.log ++ [errorMessage]
          state := .rparen, i := s.i + 1 }
  | unmatched (h : c = rightParen) {stack : Stack} {popparen : Pointer}
      (hpop : spop s.stack = .ok (stack, popparen)) (hne : popparen ≠ .paren leftParen) :
      Rejects before argv c s
        { s with
          stack := stack, inputvalidity := false
          log := s.log ++ [.printf "Error: Unmatched right parentheses.\n"] }
  | word (h : isalnum c = true) (hs : s.state = .rparen) {passes : ℕ} {stop : UInt8}
      (hskip : parensBehind before argv s.i = .ok (passes, stop)) (hne : stop ≠ comma) :
      Rejects before argv c s { s with inputvalidity := false }
  | noClass (h : noClass c) (hs : s.state = .error) :
      Rejects before argv c s { s with log := s.log ++ [errorMessage] }

theorem Rejects.queue {before argv : List UInt8} {c : UInt8} {s t : Scan}
    (h : Rejects before argv c s t) : t.queue = s.queue := by
  cases h <;> rfl

section Pass
variable {before argv : List UInt8} {s : Scan} {c : UInt8}

/-- A branch that leaves the state valid and known comes back to the loop head. -/
theorem again_of_branch {t : Scan} (hc : argv[s.i]? = some c)
    (hb : branch before argv c s = .ok (.falls t)) (hv : t.inputvalidity = true)
    (hs : t.state ≠ .error) : scanPass before argv s = .again t := by
  simp [scanPass, hc, hb, hv, hs]

theorem leave_of_branch {t : Scan} (hc : argv[s.i]? = some c)
    (hb : branch before argv c s = .ok (.falls t))
    (hbad : t.inputvalidity = false ∨ t.state = .error) :
    scanPass before argv s = .leave (.ok { t with log := t.log ++ [errorMessage] }) := by
  simp [scanPass, hc, hb, hbad, errorMessage]

theorem leave_of_break {t : Scan} (hc : argv[s.i]? = some c)
    (hb : branch before argv c s = .ok (.breaks t)) :
    scanPass before argv s = .leave (.ok t) := by
  simp [scanPass, hc, hb]

theorem leave_of_stop {stop : Stop} (hc : argv[s.i]? = some c)
    (hb : branch before argv c s = .error stop) :
    scanPass before argv s = .leave (.error stop) := by
  simp [scanPass, hc, hb]

/-- What the pass does with the character `c`. -/
def PassCases (before argv : List UInt8) (c : UInt8) (s : Scan) : Prop :=
  (∃ stop, scanPass before argv s = .leave (.error stop)) ∨
  (∃ t, scanPass before argv s = .again t ∧ Takes before argv c s t) ∨
  ∃ t, scanPass before argv s = .leave (.ok t) ∧ Rejects before argv c s t

/-- The text in front of `argv[i]` grows by the character taken. -/
theorem take_next (hc : argv[s.i]? = some c) :
    s.i < argv.length ∧ argv.take (s.i + 1) = argv.take s.i ++ [c] := by
  obtain ⟨hlt, rfl⟩ := List.getElem?_eq_some_iff.mp hc
  exact ⟨hlt, List.take_succ_eq_append_getElem hlt⟩

theorem append_eq {bufferlen : ℕ} {token token' : List UInt8}
    (h : appendChar bufferlen token c = .ok token') : token' = token ++ [c] := by
  unfold appendChar at h
  split_ifs at h
  cases h
  rfl

/-- A branch that puts a character into the token, if there is room for it. -/
theorem append_cases {d : UInt8} {state : CharState} (hv : s.inputvalidity = true)
    (hc : argv[s.i]? = some c) (hstate : state ≠ .error)
    (hb : branch before argv c s = (appendChar argv.length s.token d >>= fun token =>
      pure (.falls { s with token := token, i := s.i + 1, state := state })))
    (h : Takes before argv c s
      { s with token := s.token ++ [d], i := s.i + 1, state := state }) :
    PassCases before argv c s := by
  cases happend : appendChar argv.length s.token d with
  | error stop =>
      rw [happend] at hb
      exact .inl ⟨stop, leave_of_stop hc hb⟩
  | ok token =>
      rw [append_eq happend] at happend
      rw [happend] at hb
      exact .inr (.inl ⟨_, again_of_branch hc hb hv hstate, h⟩)

theorem space_cases (hv : s.inputvalidity = true) (hc : argv[s.i]? = some c)
    (h : isspace c = true) : PassCases before argv c s := by
  have hb : branch before argv c s = spaceBranch argv s := by simp [branch, h]
  by_cases hs : s.state = .comma ∨ s.state = .error ∨ s.state = .space
  · simp only [spaceBranch, if_pos hs] at hb
    exact .inr (.inl ⟨_, again_of_branch hc hb hv (by simp), .skip h hs⟩)
  · simp only [spaceBranch, if_neg hs] at hb
    exact append_cases hv hc (by simp) hb (.blank h hs)

theorem comma_cases (hv : s.inputvalidity = true) (hc : argv[s.i]? = some c)
    (h : c = comma) : PassCases before argv c s := by
  have hb : branch before argv c s = commaBranch before argv s := by
    rw [h]
    rfl
  simp only [commaBranch, if_pos hv] at hb
  cases hskip : parensBehind before argv s.i with
  | error stop =>
      rw [parensBehind] at hskip
      rw [hskip] at hb
      exact .inl ⟨stop, leave_of_stop hc hb⟩
  | ok skipped =>
      obtain ⟨passes, stop⟩ := skipped
      have hskip' := hskip
      rw [parensBehind] at hskip'
      rw [hskip'] at hb
      exact .inr (.inl ⟨_, again_of_branch hc hb hv (by simp), .comma h hskip⟩)

theorem left_cases (hv : s.inputvalidity = true) (hc : argv[s.i]? = some c)
    (h : c = leftParen) : PassCases before argv c s := by
  have hb : branch before argv c s = leftBranch c s := by
    rw [h]
    rfl
  cases hpush : spush c s.stack with
  | error stop =>
      simp only [leftBranch, hpush] at hb
      exact .inl ⟨stop, leave_of_stop hc hb⟩
  | ok pushed =>
      obtain ⟨stack, printed⟩ := pushed
      by_cases hs : mayOpen s.state
      · have hs' := hs
        unfold mayOpen at hs'
        simp only [leftBranch, hpush, if_pos hs'] at hb
        exact .inr (.inl ⟨_, again_of_branch hc hb hv (by simp), .left h hs hpush⟩)
      · have hs' := hs
        unfold mayOpen at hs'
        simp only [leftBranch, hpush, if_neg hs'] at hb
        exact .inr (.inr ⟨_, leave_of_branch hc hb (.inl rfl), .left h hs hpush⟩)

theorem right_cases (hv : s.inputvalidity = true) (hc : argv[s.i]? = some c)
    (h : c = rightParen) : PassCases before argv c s := by
  have hb : branch before argv c s = rightBranch s := by
    rw [h]
    rfl
  cases hpop : spop s.stack with
  | error stop =>
      simp only [rightBranch, hpop] at hb
      exact .inl ⟨stop, leave_of_stop hc hb⟩
  | ok popped =>
      obtain ⟨stack, popparen⟩ := popped
      by_cases hne : popparen = .paren leftParen
      · subst hne
        by_cases hs : mayClose s.state
        · have hs' := hs
          unfold mayClose at hs'
          simp only [rightBranch, hpop, if_pos hs'] at hb
          exact .inr (.inl ⟨_, again_of_branch hc hb hv (by simp), .right h hs hpop⟩)
        · have hs' := hs
          unfold mayClose at hs'
          simp only [rightBranch, hpop, if_neg hs'] at hb
          exact .inr (.inr ⟨_, leave_of_branch hc hb (.inl rfl), .right h hs hpop⟩)
      · simp only [rightBranch, hpop, ok_bind, ne_eq, if_pos hne] at hb
        exact .inr (.inr ⟨_, leave_of_break hc hb, .unmatched h hpop hne⟩)

theorem punct_cases (hv : s.inputvalidity = true) (hc : argv[s.i]? = some c)
    (h : plainPunct c) : PassCases before argv c s := by
  obtain ⟨hpunct, hcomma, hleft, hright⟩ := h
  obtain ⟨hspace, hnewline⟩ := ispunct_facts hpunct
  have hb : branch before argv c s = punctBranch argv c s := by
    simp [branch, hspace, hcomma, hnewline, hleft, hright, hpunct]
  exact append_cases hv hc (by simp) hb (.punct ⟨hpunct, hcomma, hleft, hright⟩)

theorem alnum_cases (hv : s.inputvalidity = true) (hc : argv[s.i]? = some c)
    (h : isalnum c = true) : PassCases before argv c s := by
  obtain ⟨hspace, hcomma, hnewline, hleft, hright, hpunct⟩ := isalnum_facts h
  have hb : branch before argv c s = alnumBranch before argv c s := by
    simp [branch, hspace, hcomma, hnewline, hleft, hright, hpunct, h]
  by_cases hs : s.state = .rparen
  · cases hskip : parensBehind before argv s.i with
    | error stop =>
        have hskip' := hskip
        unfold parensBehind at hskip'
        simp only [alnumBranch, if_pos hs, hskip'] at hb
        exact .inl ⟨stop, leave_of_stop hc hb⟩
    | ok skipped =>
        obtain ⟨passes, stop⟩ := skipped
        have hskip' := hskip
        unfold parensBehind at hskip'
        simp only [alnumBranch, if_pos hs, hskip', ok_bind] at hb
        by_cases hstop : stop = comma
        · subst hstop
          simp only [ne_eq, not_true_eq_false, if_false] at hb
          exact append_cases hv hc (by simp) hb (.alnum h fun _ => ⟨passes, hskip⟩)
        · simp only [ne_eq, if_pos hstop] at hb
          exact .inr (.inr ⟨_, leave_of_break hc hb, .word h hs hskip hstop⟩)
  · simp only [alnumBranch, if_neg hs] at hb
    exact append_cases hv hc (by simp) hb (.alnum h fun he => absurd he hs)

theorem noClass_cases (hv : s.inputvalidity = true) (hc : argv[s.i]? = some c)
    (h : noClass c) : PassCases before argv c s := by
  obtain ⟨hspace, hpunct, halnum⟩ := h
  have hcomma : c ≠ comma := by
    rintro rfl
    cases hpunct
  have hnewline : c ≠ newline := by
    rintro rfl
    cases hspace
  have hleft : c ≠ leftParen := by
    rintro rfl
    cases hpunct
  have hright : c ≠ rightParen := by
    rintro rfl
    cases hpunct
  have hb : branch before argv c s = .ok (.falls s) := by
    simp [branch, hspace, hcomma, hnewline, hleft, hright, hpunct, halnum]
  by_cases hs : s.state = .error
  · exact .inr (.inr ⟨_, leave_of_branch hc hb (.inr hs), .noClass ⟨hspace, hpunct, halnum⟩ hs⟩)
  · exact .inr (.inl ⟨_, again_of_branch hc hb hv hs, .noClass ⟨hspace, hpunct, halnum⟩ hs⟩)

/-- While the line is valid, a pass takes the character or rejects the line at it. -/
theorem pass_cases (before : List UInt8) (hv : s.inputvalidity = true) (hc : argv[s.i]? = some c) :
    PassCases before argv c s := by
  by_cases hspace : isspace c = true
  · exact space_cases hv hc hspace
  by_cases hcomma : c = comma
  · exact comma_cases hv hc hcomma
  by_cases hleft : c = leftParen
  · exact left_cases hv hc hleft
  by_cases hright : c = rightParen
  · exact right_cases hv hc hright
  by_cases hpunct : ispunct c = true
  · exact punct_cases hv hc ⟨hpunct, hcomma, hleft, hright⟩
  by_cases halnum : isalnum c = true
  · exact alnum_cases hv hc halnum
  · simp only [Bool.not_eq_true] at hspace hpunct halnum
    exact noClass_cases hv hc ⟨hspace, hpunct, halnum⟩

theorem again_cases {t : Scan} (hv : s.inputvalidity = true)
    (h : scanPass before argv s = .again t) :
    ∃ c, argv[s.i]? = some c ∧ Takes before argv c s t := by
  cases hc : argv[s.i]? with
  | none => simp [scanPass, hc] at h
  | some c =>
      rcases pass_cases before hv hc with ⟨stop, hp⟩ | ⟨u, hp, htakes⟩ | ⟨u, hp, _⟩
      · rw [hp] at h
        cases h
      · rw [hp] at h
        cases h
        exact ⟨c, rfl, htakes⟩
      · rw [hp] at h
        cases h

theorem leave_cases {t : Scan} (hv : s.inputvalidity = true)
    (h : scanPass before argv s = .leave (.ok t)) :
    (argv[s.i]? = none ∧ t = s) ∨ ∃ c, argv[s.i]? = some c ∧ Rejects before argv c s t := by
  cases hc : argv[s.i]? with
  | none =>
      simp only [scanPass, hc, Pass.leave.injEq, Except.ok.injEq] at h
      exact .inl ⟨rfl, h.symm⟩
  | some c =>
      rcases pass_cases before hv hc with ⟨stop, hp⟩ | ⟨u, hp, _⟩ | ⟨u, hp, hrejects⟩
      · rw [hp] at h
        cases h
      · rw [hp] at h
        cases h
      · rw [hp] at h
        cases h
        exact .inr ⟨c, rfl, hrejects⟩

theorem Takes.valid {t : Scan} (h : Takes before argv c s t) :
    t.inputvalidity = s.inputvalidity := by
  cases h <;> rfl

end Pass

end MinixOS.TokenizerSteps
