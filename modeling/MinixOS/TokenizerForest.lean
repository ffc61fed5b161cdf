import MinixOS.TokenizerSteps

/-!
# Canonical command lines

A forest of commands and parenthesised groups is rendered with a comma between items
and one at the end. The tokenizer takes it apart: every command gets into the queue
with its own text, and with the priority number 255 less its depth.

The proof is an induction over the forest. When the tokenizer comes to the end of
an item, the last command of the item is still in `token`, and `priority` is still
higher than the depth of the item by the number of right parentheses the item ends
with. The comma that follows enqueues the command and takes that number back.
-/
namespace MinixOS.TokenizerForest
open LoopExecution CheckedExecution StableQueues CommandQueue Tokenizer TokenizerSteps

/-! ## Canonical lines -/

/-- Letters, digits, and punctuation other than parentheses and the comma. -/
def wordChar (c : UInt8) : Bool :=
  isalnum c || (ispunct c && c != leftParen && c != rightParen && c != comma)

/-- Words with one blank between them. -/
def spaced (words : List (List UInt8)) : List UInt8 := [blank].intercalate words

structure Command where
  words : List (List UInt8)
  nonempty : words ≠ []
  word : ∀ w ∈ words, w ≠ [] ∧ ∀ c ∈ w, wordChar c
  final : ∃ front c, spaced words = front ++ [c] ∧ isalnum c

def Command.text (c : Command) : List UInt8 := spaced c.words

/-- One or more commands and groups. -/
inductive Forest where
  | command (c : Command)
  | group (inner : Forest)
  | beside (left right : Forest)

/-- The items with a comma between them, and the groups in parentheses. -/
def Forest.render : Forest → List UInt8
  | .command c => c.text
  | .group inner => leftParen :: (inner.render ++ [rightParen])
  | .beside left right => left.render ++ comma :: right.render

def Forest.line (f : Forest) : List UInt8 := f.render ++ [comma]

/-- How deep groups are nested. -/
def Forest.depth : Forest → ℕ
  | .command _ => 0
  | .group inner => inner.depth + 1
  | .beside left right => max left.depth right.depth

/-- The texts of the commands from left to right, each with its depth. -/
def Forest.commands : Forest → ℕ → List (ℕ × List UInt8)
  | .command c, depth => [(depth, c.text)]
  | .group inner, depth => inner.commands (depth + 1)
  | .beside left right, depth => left.commands depth ++ right.commands depth

/-- The entry of the queue for a command at a depth. -/
def entry (command : ℕ × List UInt8) : QueueNode :=
  { command := command.2, priority := 255 - command.1 }

/-! ## One pass of the loop -/

section Passes
variable (before : List UInt8) {argv : List UInt8} {s : Scan} {c : UInt8}

/-- The state after a character of a word, or a blank. -/
def stateOf (c : UInt8) : CharState :=
  if c = blank then .space else if isalnum c then .alnum else .punct

theorem appendChar_eq {bufferlen : ℕ} {token : List UInt8} (h : token.length < bufferlen)
    (c : UInt8) : appendChar bufferlen token c = .ok (token ++ [c]) :=
  if_pos h

/-- A character of a word goes to the token, unless right parentheses stand before it. -/
theorem pass_word (hc : argv[s.i]? = some c) (hword : wordChar c) (hstate : s.state ≠ .rparen)
    (hlen : s.token.length ≤ s.i) (hvalid : s.inputvalidity = true) :
    scanPass before argv s =
      .again { s with token := s.token ++ [c], i := s.i + 1, state := stateOf c } := by
  have hlt : s.i < argv.length := (List.getElem?_eq_some_iff.mp hc).1
  have happend := appendChar_eq (hlen.trans_lt hlt) c
  unfold wordChar at hword
  cases halnum : isalnum c with
  | true =>
      obtain ⟨hspace, hcomma, hnewline, hleft, hright, hpunct⟩ := isalnum_facts halnum
      have hblank : c ≠ blank := by
        rintro rfl
        cases hspace
      have hstateOf : stateOf c = .alnum := by
        unfold stateOf
        rw [if_neg hblank, if_pos halnum]
      rw [hstateOf]
      refine again_of_branch hc ?_ hvalid (by simp)
      simp [branch, alnumBranch, hspace, hcomma, hnewline, hleft, hright, hpunct, halnum,
        hstate, happend]
  | false =>
      simp only [halnum, Bool.false_or, Bool.and_eq_true, bne_iff_ne, ne_eq] at hword
      obtain ⟨⟨⟨hpunct, hleft⟩, hright⟩, hcomma⟩ := hword
      obtain ⟨hspace, hnewline⟩ := ispunct_facts hpunct
      have hblank : c ≠ blank := by
        rintro rfl
        cases hspace
      have hstateOf : stateOf c = .punct := by
        unfold stateOf
        rw [if_neg hblank, halnum]
        rfl
      rw [hstateOf]
      refine again_of_branch hc ?_ hvalid (by simp)
      simp [branch, punctBranch, hspace, hcomma, hnewline, hleft, hright, hpunct, happend]

/-- A blank behind a word goes to the token. -/
theorem pass_blank (hc : argv[s.i]? = some blank) (hstate : s.state = .alnum ∨ s.state = .punct)
    (hlen : s.token.length ≤ s.i) (hvalid : s.inputvalidity = true) :
    scanPass before argv s =
      .again { s with token := s.token ++ [blank], i := s.i + 1, state := .space } := by
  have hlt : s.i < argv.length := (List.getElem?_eq_some_iff.mp hc).1
  have happend := appendChar_eq (hlen.trans_lt hlt) blank
  have hother : ¬ (s.state = .comma ∨ s.state = .error ∨ s.state = .space) := by
    rcases hstate with h | h
    · simp [h]
    · simp [h]
  have hspace : isspace blank = true := rfl
  refine again_of_branch hc ?_ hvalid (by simp)
  simp only [branch, hspace, if_true, spaceBranch, if_neg hother, happend]
  rfl

theorem skipParens_eq {front : List UInt8} (hc : c ≠ rightParen) (count : ℕ) (index : ℤ) :
    skipParens index (List.replicate count rightParen ++ c :: front) = .ok (count, c) := by
  induction count generalizing index with
  | zero => simp [skipParens, hc]
  | succ count ih => simp [List.replicate_succ, skipParens, ih]

/-- The comma enqueues the token, and takes back the priority of the groups that ended. -/
theorem pass_comma (hc : argv[s.i]? = some comma) (hvalid : s.inputvalidity = true)
    {count : ℕ} {front : List UInt8} {d : UInt8} (hd : d ≠ rightParen)
    (hbehind : behind before argv s.i = List.replicate count rightParen ++ d :: front) :
    scanPass before argv s =
      .again { s with
        queue := qenqueue s.token (255 - s.priority) s.queue, priority := s.priority - count,
        token := [], i := s.i + 1, state := .comma } := by
  have hspace : isspace comma = false := rfl
  refine again_of_branch hc ?_ hvalid (by simp)
  simp only [branch, hspace, commaBranch, hbehind, skipParens_eq hd, hvalid]
  rfl

/-- An opening parenthesis where an item may begin. -/
theorem pass_left (hc : argv[s.i]? = some leftParen)
    (hstate : s.state = .comma ∨ s.state = .lparen ∨ s.state = .error)
    (hvalid : s.inputvalidity = true) {stack : Stack}
    (hpush : spush leftParen s.stack = .ok (stack, [])) :
    scanPass before argv s =
      .again { s with
        stack := stack, priority := s.priority + 1, state := .lparen, i := s.i + 1 } := by
  have hallowed : s.state = .comma ∨ s.state = .lparen ∨ s.state = .error ∨ s.state = .space := by
    tauto
  refine again_of_branch hc ?_ hvalid (by simp)
  simp only [branch, leftBranch, hpush, if_pos hallowed, ok_bind, List.append_nil]
  rfl

/-- A closing parenthesis behind an item. -/
theorem pass_right (hc : argv[s.i]? = some rightParen)
    (hstate : s.state = .alnum ∨ s.state = .rparen) (hvalid : s.inputvalidity = true)
    {stack : Stack} (hpop : spop s.stack = .ok (stack, .paren leftParen)) :
    scanPass before argv s =
      .again { s with stack := stack, state := .rparen, i := s.i + 1 } := by
  have hallowed : s.state = .alnum ∨ s.state = .space ∨ s.state = .comma ∨ s.state = .rparen := by
    tauto
  refine again_of_branch hc ?_ hvalid (by simp)
  simp only [branch, rightBranch, hpop, if_pos hallowed, ok_bind, ne_eq, not_true_eq_false,
    if_false]
  rfl

end Passes

/-! ## The text of a command -/

def stateBehind (state : CharState) (text : List UInt8) : CharState :=
  text.foldl (fun _ c => stateOf c) state

/-- Every character of the text goes to the token. -/
def Flows : CharState → List UInt8 → Prop
  | _, [] => True
  | state, c :: rest =>
      (wordChar c ∧ state ≠ .rparen ∨ c = blank ∧ (state = .alnum ∨ state = .punct)) ∧
        Flows (stateOf c) rest

theorem flows_append {state : CharState} {l l' : List UInt8} :
    Flows state (l ++ l') ↔ Flows state l ∧ Flows (stateBehind state l) l' := by
  induction l generalizing state with
  | nil => simp [Flows, stateBehind]
  | cons c l ih =>
      rw [List.cons_append, Flows, Flows, ih, and_assoc]
      rfl

theorem text_walks (before : List UInt8) {argv pre suf text : List UInt8} {s : Scan}
    (hargv : argv = pre ++ text ++ suf) (hi : s.i = pre.length) (hflows : Flows s.state text)
    (hlen : s.token.length ≤ s.i) (hvalid : s.inputvalidity = true) :
    Walks (scanPass before argv) s
      { s with
        token := s.token ++ text, i := s.i + text.length, state := stateBehind s.state text } := by
  induction text generalizing s pre with
  | nil =>
      simp only [List.append_nil, List.length_nil, Nat.add_zero, stateBehind, List.foldl_nil]
      exact .refl s
  | cons c text ih =>
      obtain ⟨hfirst, hrest⟩ := hflows
      have hc : argv[s.i]? = some c := by
        rw [hargv, hi]
        simp
      let t : Scan := { s with token := s.token ++ [c], i := s.i + 1, state := stateOf c }
      have hpass : scanPass before argv s = .again t := by
        rcases hfirst with ⟨hword, hstate⟩ | ⟨rfl, hstate⟩
        · exact pass_word before hc hword hstate hlen hvalid
        · exact pass_blank before hc hstate hlen hvalid
      have hargv' : argv = (pre ++ [c]) ++ text ++ suf := by
        rw [hargv]
        simp
      have hi' : t.i = (pre ++ [c]).length := by
        rw [List.length_append, ← hi]
        rfl
      have hlen' : t.token.length ≤ t.i := by
        rw [List.length_append]
        exact Nat.succ_le_succ hlen
      have hwalk := ih hargv' hi' hrest hlen' hvalid
      have hlength : t.i + text.length = s.i + (c :: text).length := by
        rw [List.length_cons]
        exact Nat.add_right_comm s.i 1 text.length
      rw [hlength] at hwalk
      simp only [t, List.append_assoc, List.singleton_append] at hwalk
      exact .pass hpass hwalk

theorem stateOf_word {c : UInt8} (h : wordChar c) : stateOf c = .alnum ∨ stateOf c = .punct := by
  have hblank : c ≠ blank := by
    rintro rfl
    cases h
  unfold stateOf
  rw [if_neg hblank]
  split_ifs
  · exact Or.inl rfl
  · exact Or.inr rfl

theorem flows_word {w : List UInt8} (hw : ∀ c ∈ w, wordChar c) {state : CharState}
    (hstate : state ≠ .rparen) : Flows state w := by
  induction w generalizing state with
  | nil => trivial
  | cons c w ih =>
      obtain ⟨hc, hw⟩ := List.forall_mem_cons.mp hw
      constructor
      · exact Or.inl ⟨hc, hstate⟩
      · apply ih hw
        rcases stateOf_word hc with h | h
        · simp [h]
        · simp [h]

theorem stateBehind_word {w : List UInt8} (hne : w ≠ []) (hw : ∀ c ∈ w, wordChar c)
    (state : CharState) : stateBehind state w = .alnum ∨ stateBehind state w = .punct := by
  obtain ⟨front, c, rfl⟩ := (List.eq_nil_or_concat w).resolve_left hne
  rw [List.concat_eq_append] at hw ⊢
  unfold stateBehind
  rw [List.foldl_append]
  exact stateOf_word (hw c (by simp))

theorem flows_spaced {words : List (List UInt8)}
    (hwords : ∀ w ∈ words, w ≠ [] ∧ ∀ c ∈ w, wordChar c) {state : CharState}
    (hstate : state ≠ .rparen) : Flows state (spaced words) := by
  unfold spaced
  induction words generalizing state with
  | nil => trivial
  | cons w words ih =>
      obtain ⟨⟨hne, hw⟩, hrest⟩ := List.forall_mem_cons.mp hwords
      cases words with
      | nil =>
          rw [List.intercalate_singleton]
          exact flows_word hw hstate
      | cons w' words =>
          rw [List.intercalate_cons_cons, List.append_assoc, flows_append]
          constructor
          · exact flows_word hw hstate
          · constructor
            · exact Or.inr ⟨rfl, stateBehind_word hne hw state⟩
            · exact ih hrest (by decide)

/-- The tokenizer reads a command into the empty token. -/
theorem command_walks (before : List UInt8) {argv pre suf : List UInt8} {s : Scan} (c : Command)
    (hargv : argv = pre ++ c.text ++ suf) (hi : s.i = pre.length) (hstate : s.state ≠ .rparen)
    (htoken : s.token = []) (hvalid : s.inputvalidity = true) :
    Walks (scanPass before argv) s
      { s with token := c.text, i := s.i + c.text.length, state := .alnum } := by
  have hlen : s.token.length ≤ s.i := by
    rw [htoken]
    exact Nat.zero_le _
  have hwalk := text_walks before hargv hi (flows_spaced c.word hstate) hlen hvalid
  obtain ⟨front, d, hfront, hd⟩ := c.final
  have hlast : stateBehind s.state c.text = .alnum := by
    have hblank : d ≠ blank := by
      rintro rfl
      cases hd
    unfold Command.text stateBehind
    rw [hfront, List.foldl_append]
    simp [stateOf, hblank, hd]
  rw [htoken, List.nil_append, hlast] at hwalk
  exact hwalk

/-! ## The stack -/

/-- Just `level` left parentheses are on the stack. -/
structure Level (level : ℕ) (s : Stack) : Prop where
  top : s.top = level - 1
  bound : level ≤ MAXSIZE
  parens : ∀ j : Fin MAXSIZE, (j : ℕ) < level → s.stackmem.get j = .paren leftParen

theorem level_screate (s : Stack) : Level 0 (screate s) := by
  constructor
  · rfl
  · omega
  · intro j hj
    omega

theorem Level.push {level : ℕ} {s : Stack} (h : Level level s) (hroom : level < MAXSIZE) :
    ∃ s', spush leftParen s = .ok (s', []) ∧ Level (level + 1) s' := by
  have hfull : ¬ s.top = (MAXSIZE : ℤ) - 1 := by
    rw [h.top]
    omega
  have hindex : s.top + 1 = ((⟨level, hroom⟩ : Fin MAXSIZE) : ℕ) := by
    rw [h.top]
    simp
  have hwrite := writeAt_fin s.stackmem ⟨level, hroom⟩ (.paren leftParen)
  rw [← hindex] at hwrite
  refine ⟨⟨s.stackmem.set level (.paren leftParen) hroom, s.top + 1⟩, ?_, ?_, ?_, ?_⟩
  · simp only [spush, if_neg hfull, hwrite, ok_bind]
    rfl
  · change s.top + 1 = ((level + 1 : ℕ) : ℤ) - 1
    rw [h.top]
    push_cast
    omega
  · omega
  · intro j hj
    have hset := get_set s.stackmem ⟨level, hroom⟩ j (.paren leftParen)
    rw [hset]
    split_ifs with hij
    · rfl
    · have hne : (j : ℕ) ≠ level := fun he => hij (Fin.ext he.symm)
      exact h.parens j (by omega)

theorem Level.pop {level : ℕ} {s : Stack} (h : Level (level + 1) s) :
    ∃ s', spop s = .ok (s', .paren leftParen) ∧ Level level s' := by
  have hbound := h.bound
  have htop : s.top = level := by
    rw [h.top]
    push_cast
    omega
  have hlevel : level < MAXSIZE := by omega
  have hempty : ¬ s.top = -1 := by
    rw [htop]
    omega
  have hread := readAt_fin s.stackmem ⟨level, hlevel⟩
  have hwrite := writeAt_fin s.stackmem ⟨level, hlevel⟩ .emptyString
  rw [h.parens ⟨level, hlevel⟩ (Nat.lt_succ_self level)] at hread
  refine ⟨⟨s.stackmem.set level .emptyString hlevel, s.top - 1⟩, ?_, ?_, ?_, ?_⟩
  · simp only [spop, if_neg hempty]
    rw [htop] at *
    simp only [hread, ok_bind, hwrite]
    rfl
  · change s.top - 1 = (level : ℤ) - 1
    rw [htop]
  · omega
  · intro j hj
    have hset := get_set s.stackmem ⟨level, hlevel⟩ j .emptyString
    have hne : (⟨level, hlevel⟩ : Fin MAXSIZE) ≠ j := by
      intro he
      have hval := congrArg Fin.val he
      simp only at hval
      omega
    rw [hset, if_neg hne]
    exact h.parens j (by omega)

/-! ## Forests -/

/-- The command that is still in `token` at the end of the forest. -/
def Forest.last : Forest → Command
  | .command c => c
  | .group inner => inner.last
  | .beside _ right => right.last

/-- The number of right parentheses the forest ends with. -/
def Forest.trailing : Forest → ℕ
  | .command _ => 0
  | .group inner => inner.trailing + 1
  | .beside _ right => right.trailing

/-- The commands that are in the queue at the end of the forest. -/
def Forest.settled : Forest → ℕ → List (ℕ × List UInt8)
  | .command _, _ => []
  | .group inner, depth => inner.settled (depth + 1)
  | .beside left right, depth =>
      left.settled depth ++ (depth + left.trailing, left.last.text) :: right.settled depth

theorem Forest.commands_eq (f : Forest) (depth : ℕ) :
    f.commands depth = f.settled depth ++ [(depth + f.trailing, f.last.text)] := by
  induction f generalizing depth with
  | command c => rfl
  | group inner ih =>
      rw [commands, settled, ih]
      simp only [trailing, last]
      rw [Nat.add_right_comm, Nat.add_assoc]
  | beside left right ihl ihr =>
      rw [commands, settled, ihl, ihr]
      simp [trailing, last]

theorem Forest.depth_le (f : Forest) {depth : ℕ} :
    ∀ c ∈ f.commands depth, c.1 ≤ depth + f.depth := by
  induction f generalizing depth with
  | command c => simp [commands]
  | group inner ih =>
      intro c hc
      have hle := ih c hc
      simp only [Forest.depth]
      omega
  | beside left right ihl ihr =>
      intro c hc
      simp only [Forest.depth]
      rcases List.mem_append.mp hc with hc | hc
      · have hle := ihl c hc
        omega
      · have hle := ihr c hc
        omega

/-- In front of the closing parentheses stands the end of a command. -/
theorem Forest.render_ends (f : Forest) : ∃ front c, c ≠ rightParen ∧
    f.render = front ++ c :: List.replicate f.trailing rightParen := by
  induction f with
  | command c =>
      obtain ⟨front, d, hfront, hd⟩ := c.final
      exact ⟨front, d, (isalnum_facts hd).2.2.2.2.1, hfront⟩
  | group inner ih =>
      obtain ⟨front, c, hc, hrender⟩ := ih
      refine ⟨leftParen :: front, c, hc, ?_⟩
      simp [render, hrender, trailing, List.replicate_succ']
  | beside left right _ ihr =>
      obtain ⟨front, c, hc, hrender⟩ := ihr
      refine ⟨left.render ++ comma :: front, c, hc, ?_⟩
      simp [render, hrender, trailing]

def enqueueAll (commands : List (ℕ × List UInt8)) (q : Queue) : Queue :=
  commands.foldl (fun q c => qenqueue c.2 (255 - c.1) q) q

theorem enqueueAll_append (l l' : List (ℕ × List UInt8)) (q : Queue) :
    enqueueAll (l ++ l') q = enqueueAll l' (enqueueAll l q) :=
  List.foldl_append

/-- An item of the given depth begins here. -/
structure Begins (depth : ℕ) (s : Scan) : Prop where
  state : s.state = .comma ∨ s.state = .lparen ∨ s.state = .error
  token : s.token = []
  priority : s.priority = depth
  valid : s.inputvalidity = true
  silent : s.log = []
  level : Level depth s.stack

/-- The forest was read, from the state `s` on, and its last command is in `token`. -/
structure Ends (f : Forest) (depth : ℕ) (s s' : Scan) : Prop where
  i : s'.i = s.i + f.render.length
  state : s'.state = .alnum ∨ s'.state = .rparen
  token : s'.token = f.last.text
  priority : s'.priority = (depth : ℤ) + f.trailing
  queue : s'.queue = enqueueAll (f.settled depth) s.queue
  valid : s'.inputvalidity = true
  silent : s'.log = []
  level : Level depth s'.stack

/-- The comma behind a forest. -/
theorem Ends.comma_walks {f : Forest} {depth : ℕ} {s s' : Scan} (h : Ends f depth s s')
    (before : List UInt8) {argv pre suf : List UInt8} (hargv : argv = pre ++ f.render ++ comma :: suf)
    (hi : s.i = pre.length) :
    ∃ t, Walks (scanPass before argv) s' t ∧ t.state = .comma ∧ Begins depth t ∧
      t.i = (pre ++ f.render ++ [comma]).length ∧
      t.queue = enqueueAll (f.commands depth) s.queue := by
  have hi' : s'.i = (pre ++ f.render).length := by
    rw [h.i, hi, List.length_append]
  have hc : argv[s'.i]? = some comma := by
    rw [hargv, hi']
    simp
  obtain ⟨front, c, hne, hrender⟩ := f.render_ends
  have hbehind : behind before argv s'.i =
      List.replicate f.trailing rightParen ++ c :: (front.reverse ++ pre.reverse ++ before) := by
    unfold behind
    rw [hargv, hi', List.take_left', hrender]
    · simp
    · rfl
  have hpass := pass_comma before hc h.valid hne hbehind
  have hnumber : 255 - s'.priority = 255 - ((depth + f.trailing : ℕ) : ℤ) := by
    rw [h.priority]
    push_cast
    rfl
  refine ⟨_, .one hpass, rfl, ?_, ?_, ?_⟩
  · constructor
    · exact Or.inl rfl
    · rfl
    · change s'.priority - f.trailing = depth
      rw [h.priority]
      omega
    · exact h.valid
    · exact h.silent
    · exact h.level
  · change s'.i + 1 = _
    rw [hi']
    simp only [List.length_append, List.length_singleton]
  · change qenqueue s'.token (255 - s'.priority) s'.queue = _
    rw [f.commands_eq, enqueueAll_append, h.token, h.queue, hnumber]
    rfl

/-- The parenthesis in front of a group. -/
theorem Begins.opens {depth : ℕ} {s : Scan} (h : Begins depth s) (before : List UInt8)
    {argv : List UInt8} (hdepth : depth < MAXSIZE) (hc : argv[s.i]? = some leftParen) :
    ∃ u, scanPass before argv s = .again u ∧ Begins (depth + 1) u ∧ u.i = s.i + 1 ∧
      u.queue = s.queue := by
  obtain ⟨stack, hpush, hlevel⟩ := h.level.push hdepth
  have hpass := pass_left before hc h.state h.valid hpush
  refine ⟨_, hpass, ?_, rfl, rfl⟩
  constructor
  · exact Or.inr (Or.inl rfl)
  · exact h.token
  · change s.priority + 1 = _
    rw [h.priority]
    rfl
  · exact h.valid
  · exact h.silent
  · exact hlevel

/-- The parenthesis behind a group. -/
theorem Ends.closes {f : Forest} {depth : ℕ} {s u t : Scan} (h : Ends f (depth + 1) u t)
    (before : List UInt8) {argv : List UInt8} (hi : u.i = s.i + 1) (hqueue : u.queue = s.queue)
    (hc : argv[t.i]? = some rightParen) :
    ∃ v, scanPass before argv t = .again v ∧ Ends (.group f) depth s v := by
  obtain ⟨stack, hpop, hlevel⟩ := h.level.pop
  have hpass := pass_right before hc h.state h.valid hpop
  refine ⟨_, hpass, ?_⟩
  constructor
  · change t.i + 1 = _
    rw [h.i, hi]
    simp only [Forest.render, List.length_cons, List.length_append, List.length_nil]
    omega
  · exact Or.inr rfl
  · exact h.token
  · change t.priority = _
    rw [h.priority]
    simp only [Forest.trailing]
    push_cast
    omega
  · change t.queue = _
    rw [h.queue, hqueue]
    rfl
  · exact h.valid
  · exact h.silent
  · exact hlevel

theorem forest_walks (f : Forest) (before : List UInt8) {argv pre suf : List UInt8} {depth : ℕ} {s : Scan}
    (hargv : argv = pre ++ f.render ++ suf) (hi : s.i = pre.length) (hbegins : Begins depth s)
    (hdepth : depth + f.depth ≤ MAXSIZE) :
    ∃ s', Walks (scanPass before argv) s s' ∧ Ends f depth s s' := by
  induction f generalizing pre suf depth s with
  | command c =>
      have hstate : s.state ≠ .rparen := by
        rcases hbegins.state with h | h | h <;> simp [h]
      refine ⟨_, command_walks before c hargv hi hstate hbegins.token hbegins.valid, ?_⟩
      constructor
      · rfl
      · exact Or.inl rfl
      · rfl
      · simpa [Forest.trailing] using hbegins.priority
      · rfl
      · exact hbegins.valid
      · exact hbegins.silent
      · exact hbegins.level
  | group inner ih =>
      simp only [Forest.depth] at hdepth
      simp only [Forest.render] at hargv
      have hleft : argv[s.i]? = some leftParen := by
        rw [hargv, hi]
        simp
      obtain ⟨u, hpass, hbegins', hi', hqueue⟩ := hbegins.opens before (by omega) hleft
      have hargv' : argv = (pre ++ [leftParen]) ++ inner.render ++ rightParen :: suf := by
        rw [hargv]
        simp
      have hu : u.i = (pre ++ [leftParen]).length := by
        rw [hi', hi, List.length_append]
        rfl
      obtain ⟨t, hwalk, hends⟩ := ih hargv' hu hbegins' (by omega)
      have hright : argv[t.i]? = some rightParen := by
        rw [hends.i, hargv', hu, ← List.length_append]
        simp
      obtain ⟨v, hpass', hends'⟩ := hends.closes before hi' hqueue hright
      exact ⟨v, .pass hpass (hwalk.trans (.one hpass')), hends'⟩
  | beside left right ihl ihr =>
      simp only [Forest.depth] at hdepth
      simp only [Forest.render] at hargv
      have hargv' : argv = pre ++ left.render ++ comma :: (right.render ++ suf) := by
        rw [hargv]
        simp
      obtain ⟨t, hwalk, hends⟩ := ihl hargv' hi hbegins (by omega)
      obtain ⟨u, hcomma, _, hbegins', hi', hqueue⟩ := hends.comma_walks before hargv' hi
      have hargv'' : argv = (pre ++ left.render ++ [comma]) ++ right.render ++ suf := by
        rw [hargv]
        simp
      obtain ⟨v, hwalk', hends'⟩ := ihr hargv'' hi' hbegins' (by omega)
      refine ⟨v, (hwalk.trans hcomma).trans hwalk', ?_⟩
      constructor
      · rw [hends'.i, hi', hi]
        simp [Forest.render]
        omega
      · exact hends'.state
      · exact hends'.token
      · exact hends'.priority
      · rw [hends'.queue, hqueue, left.commands_eq, ← enqueueAll_append]
        simp [Forest.settled]
      · exact hends'.valid
      · exact hends'.silent
      · exact hends'.level

/-! ## The queue -/

/-- The entries of the commands, the deepest in front, and from left to right at one depth. -/
def Forest.byDepth (f : Forest) : List QueueNode :=
  (List.range (MAXSIZE + 1)).reverse.flatMap fun depth =>
    ((f.commands 0).filter fun c => c.1 = depth).map entry

theorem stable_enqueueAll (commands : List (ℕ × List UInt8)) {arrivals : List QueueNode}
    {q : Queue} (h : Stable QueueNode.priority arrivals q.first) :
    Stable QueueNode.priority (arrivals ++ commands.map entry) (enqueueAll commands q).first := by
  induction commands generalizing arrivals q with
  | nil =>
      rw [List.map_nil, List.append_nil]
      exact h
  | cons c commands ih =>
      have hfirst := h.insert (entry c)
      have hqueue : (qenqueue c.2 (255 - c.1) q).first =
          insertBehind QueueNode.priority (entry c) q.first := qenqueue_first c.2 (255 - c.1) q
      rw [← hqueue] at hfirst
      have hrest := ih hfirst
      rw [List.append_assoc, List.singleton_append, ← List.map_cons] at hrest
      exact hrest

theorem Forest.stable_byDepth (f : Forest) (hdepth : f.depth ≤ MAXSIZE) :
    Stable QueueNode.priority ((f.commands 0).map entry) f.byDepth := by
  have hlevels : ((List.range (MAXSIZE + 1)).reverse.map fun d : ℕ => (255 : ℤ) - d).Pairwise
      (· < ·) := by
    decide
  have hall : ∀ a ∈ (f.commands 0).map entry,
      a.priority ∈ (List.range (MAXSIZE + 1)).reverse.map fun d : ℕ => (255 : ℤ) - d := by
    intro a ha
    obtain ⟨c, hc, rfl⟩ := List.mem_map.mp ha
    have hle := f.depth_le c hc
    rw [List.mem_map]
    refine ⟨c.1, ?_, rfl⟩
    rw [List.mem_reverse, List.mem_range]
    omega
  have hstable := stable_levels hlevels hall
  rw [List.flatMap_map] at hstable
  have hsame : f.byDepth = (List.range (MAXSIZE + 1)).reverse.flatMap fun d : ℕ =>
      ((f.commands 0).map entry).filter fun a => a.priority = (255 : ℤ) - d := by
    unfold byDepth
    congr 1
    funext d
    rw [List.filter_map]
    congr 1
    apply List.filter_congr
    intro c _
    have hiff : c.1 = d ↔ (entry c).priority = 255 - (d : ℤ) := by
      change c.1 = d ↔ 255 - (c.1 : ℤ) = 255 - d
      omega
    exact decide_eq_decide.mpr hiff
  rw [hsame]
  exact hstable

/-- A canonical line leaves no message, and every command in the queue once. -/
theorem tokenizer_forest (f : Forest) (hdepth : f.depth ≤ MAXSIZE) (before : List UInt8)
    (s : Stack) :
    ∃ fuel out, tokenizer fuel before f.line (screate s) qcreate = .ok out ∧
      out.scan.log = [] ∧ out.scan.inputvalidity = true ∧
      out.scan.queue.first = f.byDepth ∧ out.ret = f.byDepth := by
  have hline : f.line = [] ++ f.render ++ comma :: [] := rfl
  have hbegins : Begins 0 (Scan.initial (screate s) qcreate) :=
    ⟨Or.inr (Or.inr rfl), rfl, rfl, rfl, rfl, level_screate s⟩
  obtain ⟨t, hwalk, hends⟩ := forest_walks f before hline rfl hbegins (by omega)
  obtain ⟨u, hcomma, hstate, hbegins', hi, hqueue⟩ := hends.comma_walks before hline rfl
  have hover : f.line[u.i]? = none := by
    rw [hi, List.getElem?_eq_none_iff]
    exact Nat.le_refl _
  have hleave : scanPass before f.line u = .leave (.ok u) := by
    simp only [scanPass, hover]
  obtain ⟨fuel, hfuel⟩ := exists_loop_of_leaves ((hwalk.trans hcomma).leaves hleave)
  have hpop : spop u.stack = .ok (u.stack, .null) := by
    have htop : u.stack.top = -1 := hbegins'.level.top
    simp [spop, htop]
  have hfirst : u.queue.first = f.byDepth := by
    have hstable := stable_enqueueAll (f.commands 0) (q := qcreate) stable_nil
    rw [hqueue]
    exact hstable.unique (f.stable_byDepth hdepth)
  refine ⟨fuel, ⟨u, u.queue.first⟩, ?_, hbegins'.silent, hbegins'.valid, hfirst, hfirst⟩
  have hmatched : ¬ (Pointer.null ≠ Pointer.null ∨ u.state = .error) := by
    simp [hstate]
  unfold tokenizer
  simp only [hfuel, ok_bind, hpop, if_neg hmatched]
  rfl

end MinixOS.TokenizerForest
