import MinixOS.TokenizerForest

/-!
# What a rejected line leaves in the queue

A comma enqueues the command in front of it at once. A line that is rejected further
behind has been executed in part when the user reads the message: the queue is empty
just if the line has no comma, or is rejected in front of its first one.

The invariant has two phases. In front of the first comma the loop state is a
function of the text read, and no character of it offends. Behind it the queue
has a command, and keeps one.
-/
namespace MinixOS.TokenizerRejection
open LoopExecution CheckedExecution CommandQueue Tokenizer TokenizerSteps TokenizerForest

def unmatchedLeft : Output := .printf "Error: Unmatched left parenthesis.\n"

/-- The call of `main` comes back with `inputvalidity` cleared, or with the message of the
last check. -/
structure RejectsLine (fuel : ℕ) (before argv : List UInt8) (stack : Stack) (out : Outcome) :
    Prop where
  returns : tokenizer fuel before argv (screate stack) qcreate = .ok out
  rejected : out.scan.inputvalidity = false ∨ unmatchedLeft ∈ out.scan.log

/-! ## Lines rejected in front of their first comma -/

/-- The state behind a character. -/
def classOf (c : UInt8) : CharState :=
  if isspace c then .space
  else if c = comma then .comma
  else if c = leftParen then .lparen
  else if c = rightParen then .rparen
  else if ispunct c then .punct
  else .alnum

/-- The state behind a text, which is that behind its last character. -/
def lastClass (text : List UInt8) : CharState := (text.getLast?.map classOf).getD .error

def parenStep (waiting : ℕ) (c : UInt8) : ℕ :=
  if c = leftParen then min (waiting + 1) MAXSIZE
  else if c = rightParen then waiting - 1
  else waiting

/-- How many left parentheses of the text wait for their right one. One that finds
`MAXSIZE` others waiting does not count. -/
def openParens (text : List UInt8) : ℕ := text.foldl parenStep 0

/-- The character may not stand behind the text. -/
inductive Offends (text : List UInt8) (c : UInt8) : Prop
  | left (h : c = leftParen) (hs : ¬ mayOpen (lastClass text))
  | right (h : c = rightParen) (hs : ¬ mayClose (lastClass text))
  | unmatched (h : c = rightParen) (hs : openParens text = 0)
  | word (h : isalnum c = true) (hs : lastClass text = .rparen)
  | noClass (h : noClass c) (hs : text = [])

/-- No comma is in the line, or a character in front of the first one offends. -/
def RejectedBeforeComma (argv : List UInt8) : Prop :=
  comma ∉ argv ∨
    ∃ i c, argv[i]? = some c ∧ comma ∉ argv.take i ∧ Offends (argv.take i) c

theorem lastClass_concat (text : List UInt8) (c : UInt8) :
    lastClass (text ++ [c]) = classOf c := by
  simp [lastClass]

theorem lastClass_eq_error {text : List UInt8} (h : lastClass text = .error) : text = [] := by
  rcases List.eq_nil_or_concat text with hnil | ⟨front, c, rfl⟩
  · exact hnil
  · rw [List.concat_eq_append, lastClass_concat] at h
    unfold classOf at h
    split_ifs at h

theorem openParens_concat (text : List UInt8) (c : UInt8) :
    openParens (text ++ [c]) = parenStep (openParens text) c := by
  simp [openParens]

theorem not_offends {text : List UInt8} {c : UInt8}
    (hleft : c = leftParen → mayOpen (lastClass text))
    (hright : c = rightParen → mayClose (lastClass text) ∧ 0 < openParens text)
    (hword : isalnum c = true → lastClass text ≠ .rparen) (hclass : ¬ noClass c) :
    ¬ Offends text c := by
  intro h
  cases h with
  | left he hs => exact hs (hleft he)
  | right he hs => exact hs (hright he).1
  | unmatched he hs => exact (hright he).2.ne' hs
  | word halnum hs => exact hword halnum hs
  | noClass h _ => exact hclass h

theorem not_noClass_of_ispunct {c : UInt8} (h : ispunct c = true) : ¬ noClass c := by
  intro hclass
  rw [hclass.2.1] at h
  cases h

theorem not_offends_comma (text : List UInt8) : ¬ Offends text comma :=
  not_offends nofun nofun nofun (not_noClass_of_ispunct rfl)

/-! ## The stack -/

section Stack
variable {level : ℕ} {s s' : Stack} {printed : List Output}

theorem push_level (h : Level level s) (hpush : spush leftParen s = .ok (s', printed)) :
    Level (parenStep level leftParen) s' := by
  have hbound := h.bound
  simp only [parenStep, if_true]
  by_cases hroom : level < MAXSIZE
  · obtain ⟨u, hu, hlevel⟩ := h.push hroom
    rw [hu] at hpush
    cases hpush
    rw [min_eq_left (by omega)]
    exact hlevel
  · have hfull : s.top = (MAXSIZE : ℤ) - 1 := by
      rw [h.top]
      omega
    simp only [spush, if_pos hfull, pure_eq_ok, Except.ok.injEq, Prod.mk.injEq] at hpush
    have hlevel : level = MAXSIZE := by omega
    rw [← hpush.1, min_eq_right (by omega), ← hlevel]
    exact h

theorem pop_level {popparen : Pointer} (h : Level level s)
    (hpop : spop s = .ok (s', popparen)) :
    (level = 0 ∧ popparen = .null ∧ s' = s) ∨
      0 < level ∧ popparen = .paren leftParen ∧ Level (parenStep level rightParen) s' := by
  cases level with
  | zero =>
      have hempty : s.top = -1 := h.top
      simp only [spop, if_pos hempty, pure_eq_ok, Except.ok.injEq, Prod.mk.injEq] at hpop
      exact .inl ⟨rfl, hpop.2.symm, hpop.1.symm⟩
  | succ level =>
      obtain ⟨u, hu, hlevel⟩ := h.pop
      rw [hu] at hpop
      cases hpop
      exact .inr ⟨Nat.succ_pos _, rfl, hlevel⟩

end Stack

/-! ## A character that is taken -/

section Characters
variable {before argv : List UInt8} {s t : Scan} {c : UInt8}

theorem ne_of_isspace (h : isspace c = true) {d : UInt8} (hd : isspace d = false) : c ≠ d := by
  rintro rfl
  rw [h] at hd
  cases hd

theorem classOf_space (h : isspace c = true) : classOf c = .space := by
  unfold classOf
  rw [if_pos h]

theorem classOf_punct (h : plainPunct c) : classOf c = .punct := by
  obtain ⟨hpunct, hcomma, hleft, hright⟩ := h
  simp [classOf, (ispunct_facts hpunct).1, hcomma, hleft, hright, hpunct]

theorem classOf_alnum (h : isalnum c = true) : classOf c = .alnum := by
  obtain ⟨hspace, hcomma, _, hleft, hright, hpunct⟩ := isalnum_facts h
  simp [classOf, hspace, hcomma, hleft, hright, hpunct]

/-- A character other than a parenthesis leaves the stack and its level alone. -/
theorem parenStep_other (hleft : c ≠ leftParen) (hright : c ≠ rightParen) (level : ℕ) :
    parenStep level c = level := by
  simp only [parenStep, if_neg hleft, if_neg hright]

theorem other_level {level : ℕ} {u : Stack} (h : Level level u) (hleft : c ≠ leftParen)
    (hright : c ≠ rightParen) : Level (parenStep level c) u := by
  rw [parenStep_other hleft hright]
  exact h

/-- The loop goes on at the next character. The state is the class of this one, the
stack follows the parentheses, and the token grows by one character at most. -/
theorem takes_steps (h : Takes before argv c s t) (hclass : ¬ noClass c) {level : ℕ}
    (hlevel : Level level s.stack) :
    t.i = s.i + 1 ∧ t.state = classOf c ∧ Level (parenStep level c) t.stack ∧
      t.token.length ≤ s.token.length + 1 := by
  cases h with
  | skip hspace _ =>
      have hstack := other_level hlevel (ne_of_isspace hspace rfl) (ne_of_isspace hspace rfl)
      exact ⟨rfl, (classOf_space hspace).symm, hstack, Nat.le_succ _⟩
  | blank hspace _ =>
      have hstack := other_level hlevel (ne_of_isspace hspace rfl) (ne_of_isspace hspace rfl)
      exact ⟨rfl, (classOf_space hspace).symm, hstack, List.length_append.le⟩
  | comma he _ =>
      subst he
      exact ⟨rfl, rfl, hlevel, Nat.zero_le _⟩
  | left he _ hpush =>
      subst he
      exact ⟨rfl, rfl, push_level hlevel hpush, Nat.le_succ _⟩
  | right he _ hpop =>
      subst he
      rcases pop_level hlevel hpop with ⟨_, hnull, _⟩ | ⟨_, _, hstack⟩
      · cases hnull
      · exact ⟨rfl, rfl, hstack, Nat.le_succ _⟩
  | punct hpunct =>
      have hstack := other_level hlevel hpunct.2.2.1 hpunct.2.2.2
      exact ⟨rfl, (classOf_punct hpunct).symm, hstack, List.length_append.le⟩
  | alnum halnum _ =>
      have hfacts := isalnum_facts halnum
      have hstack := other_level hlevel hfacts.2.2.2.1 hfacts.2.2.2.2.1
      exact ⟨rfl, (classOf_alnum halnum).symm, hstack, List.length_append.le⟩
  | noClass hnone _ => exact absurd hnone hclass

/-- A character of no class is met again, and not at the start of the line. -/
theorem takes_noClass (h : Takes before argv c s t) (hclass : noClass c) :
    t = s ∧ s.state ≠ .error := by
  rcases hclass with ⟨hspace, hpunct, halnum⟩
  cases h with
  | skip h _ =>
      rw [h] at hspace
      cases hspace
  | blank h _ =>
      rw [h] at hspace
      cases hspace
  | comma h _ =>
      subst h
      cases hpunct
  | left h _ _ =>
      subst h
      cases hpunct
  | right h _ _ =>
      subst h
      cases hpunct
  | punct h =>
      rw [h.1] at hpunct
      cases hpunct
  | alnum h _ =>
      rw [h] at halnum
      cases halnum
  | noClass _ hs => exact ⟨rfl, hs⟩

theorem takes_queue (h : Takes before argv c s t) (hcomma : c ≠ comma) : t.queue = s.queue := by
  cases h with
  | comma he _ => exact absurd he hcomma
  | _ => rfl

theorem takes_opens (h : Takes before argv c s t) (he : c = leftParen) : mayOpen s.state := by
  subst he
  cases h with
  | left _ hs _ => exact hs
  | skip h _ => cases h
  | blank h _ => cases h
  | comma h _ => cases h
  | right h _ _ => cases h
  | punct h => exact absurd rfl h.2.2.1
  | alnum h _ => cases h
  | noClass h _ => cases h.2.1

theorem takes_closes (h : Takes before argv c s t) (he : c = rightParen) {level : ℕ}
    (hlevel : Level level s.stack) : mayClose s.state ∧ 0 < level := by
  subst he
  cases h with
  | right _ hs hpop =>
      rcases pop_level hlevel hpop with ⟨_, hnull, _⟩ | ⟨hpos, _, _⟩
      · cases hnull
      · exact ⟨hs, hpos⟩
  | skip h _ => cases h
  | blank h _ => cases h
  | comma h _ => cases h
  | left h _ _ => cases h
  | punct h => exact absurd rfl h.2.2.2
  | alnum h _ => cases h
  | noClass h _ => cases h.2.1

/-- A word is taken behind right parentheses only if a comma is in front of them. -/
theorem takes_behind_comma (h : Takes before argv c s t) (halnum : isalnum c = true)
    (hs : s.state = .rparen) : ∃ passes, parensBehind before argv s.i = .ok (passes, comma) := by
  obtain ⟨hspace, hcomma, _, hleft, hright, hpunct⟩ := isalnum_facts halnum
  cases h with
  | alnum _ hskip => exact hskip hs
  | skip h _ =>
      rw [h] at hspace
      cases hspace
  | blank h _ =>
      rw [h] at hspace
      cases hspace
  | comma h _ => exact absurd h hcomma
  | left h _ _ => exact absurd h hleft
  | right h _ _ => exact absurd h hright
  | punct h =>
      rw [h.1] at hpunct
      cases hpunct
  | noClass h _ =>
      rw [h.2.2] at halnum
      cases halnum

end Characters

/-! ## In front of the first comma -/

/-- The text in front of `argv[i]` has been taken, and no comma was among it. -/
structure Reading (argv : List UInt8) (s : Scan) : Prop where
  valid : s.inputvalidity = true
  state : s.state = lastClass (argv.take s.i)
  level : Level (openParens (argv.take s.i)) s.stack
  empty : s.queue.first = []
  noComma : comma ∉ argv.take s.i
  inoffensive : ∀ j c, j < s.i → argv[j]? = some c → ¬ Offends (argv.take j) c

/-- The first comma has been taken. -/
structure Beyond (argv : List UInt8) (s : Scan) : Prop where
  valid : s.inputvalidity = true
  queued : s.queue.first ≠ []
  later : ¬ RejectedBeforeComma argv

section Passes
variable {before argv : List UInt8} {s t : Scan} {c : UInt8}

/-- Where right parentheses end in the text, the character in front of them is of the text. -/
theorem skipParens_mem {text : List UInt8} {index : ℤ} {passes : ℕ} {stop : UInt8}
    (hother : ∃ d ∈ text, d ≠ rightParen)
    (h : skipParens index (text ++ before) = .ok (passes, stop)) : stop ∈ text := by
  induction text generalizing index passes with
  | nil => simp at hother
  | cons d text ih =>
      simp only [List.cons_append, skipParens] at h
      by_cases hd : d = rightParen
      · rw [if_pos hd] at h
        obtain ⟨⟨passes', stop'⟩, hskip, h⟩ := bind_eq_ok.mp h
        cases h
        have hrest : ∃ e ∈ text, e ≠ rightParen := by
          obtain ⟨e, he, hne⟩ := hother
          rcases List.mem_cons.mp he with rfl | he
          · exact absurd hd hne
          · exact ⟨e, he, hne⟩
        exact List.mem_cons_of_mem _ (ih hrest hskip)
      · rw [if_neg hd] at h
        cases h
        exact List.mem_cons_self

/-- A text that does not begin with a right parenthesis has another character. -/
theorem exists_other {i : ℕ} (hne : argv.take i ≠ []) (hfirst : argv[0]? ≠ some rightParen) :
    ∃ d ∈ argv.take i, d ≠ rightParen := by
  cases htake : argv.take i with
  | nil => exact absurd htake hne
  | cons d rest =>
      refine ⟨d, List.mem_cons_self, ?_⟩
      intro hd
      apply hfirst
      rw [← List.take_append_drop i argv, htake, hd]
      rfl

theorem pos_of_take {i : ℕ} (hne : argv.take i ≠ []) : 0 < i := by
  apply Nat.pos_of_ne_zero
  intro hzero
  rw [hzero] at hne
  exact hne rfl

/-- A text that begins with a right parenthesis offends there. -/
theorem Reading.other (h : Reading argv s) (hs : s.state = .rparen) :
    ∃ d ∈ argv.take s.i, d ≠ rightParen := by
  have hne : argv.take s.i ≠ [] := by
    intro hnil
    rw [h.state, hnil] at hs
    cases hs
  apply exists_other hne
  intro hfirst
  apply h.inoffensive 0 rightParen (pos_of_take hne) hfirst
  exact .right rfl (by simp [mayClose, lastClass])

theorem Reading.not_word (h : Reading argv s) (hs : s.state = .rparen) (passes : ℕ) :
    parensBehind before argv s.i ≠ .ok (passes, comma) := by
  intro hskip
  obtain ⟨d, hd, hne⟩ := h.other hs
  have hmem := skipParens_mem ⟨d, List.mem_reverse.mpr hd, hne⟩ hskip
  exact h.noComma (List.mem_reverse.mp hmem)

theorem Reading.takes (h : Reading argv s) (hc : argv[s.i]? = some c) (hcomma : c ≠ comma)
    (hoffends : ¬ Offends (argv.take s.i) c) (hi : t.i = s.i + 1) (hv : t.inputvalidity = true)
    (hstate : t.state = classOf c)
    (hlevel : Level (parenStep (openParens (argv.take s.i)) c) t.stack)
    (hqueue : t.queue = s.queue) : Reading argv t := by
  obtain ⟨hlt, htake⟩ := take_next hc
  constructor
  · exact hv
  · rw [hi, htake, lastClass_concat, hstate]
  · rw [hi, htake, openParens_concat]
    exact hlevel
  · rw [hqueue, h.empty]
  · rw [hi, htake, List.mem_append, List.mem_singleton]
    rintro (hmem | he)
    · exact h.noComma hmem
    · exact hcomma he.symm
  · intro j d hj hd
    rcases Nat.lt_succ_iff_lt_or_eq.mp (hi ▸ hj) with hlt | rfl
    · exact h.inoffensive j d hlt hd
    · rw [hc, Option.some.injEq] at hd
      rw [← hd]
      exact hoffends

theorem Reading.next (h : Reading argv s) (hc : argv[s.i]? = some c) (hcomma : c ≠ comma)
    (htakes : Takes before argv c s t) : Reading argv t := by
  by_cases hclass : noClass c
  · rw [(takes_noClass htakes hclass).1]
    exact h
  · obtain ⟨hi, hstate, hlevel, _⟩ := takes_steps htakes hclass h.level
    have hv : t.inputvalidity = true := htakes.valid.trans h.valid
    refine h.takes hc hcomma ?_ hi hv hstate hlevel (takes_queue htakes hcomma)
    apply not_offends
    · intro he
      rw [← h.state]
      exact takes_opens htakes he
    · intro he
      rw [← h.state]
      exact takes_closes htakes he h.level
    · intro halnum hlast
      have hs := h.state.trans hlast
      obtain ⟨passes, hskip⟩ := takes_behind_comma htakes halnum hs
      exact h.not_word hs passes hskip
    · exact hclass

theorem Reading.rejects (h : Reading argv s) (hrejects : Rejects before argv c s t) :
    Offends (argv.take s.i) c ∧ t.queue = s.queue := by
  cases hrejects with
  | left he hs _ =>
      rw [h.state] at hs
      exact ⟨.left he hs, rfl⟩
  | right he hs _ =>
      rw [h.state] at hs
      exact ⟨.right he hs, rfl⟩
  | unmatched he hpop hne =>
      rcases pop_level h.level hpop with ⟨hzero, _, _⟩ | ⟨_, hparen, _⟩
      · exact ⟨.unmatched he hzero, rfl⟩
      · exact absurd hparen hne
  | word halnum hs _ _ =>
      rw [h.state] at hs
      exact ⟨.word halnum hs, rfl⟩
  | noClass hclass hs =>
      refine ⟨.noClass hclass ?_, rfl⟩
      rw [h.state] at hs
      exact lastClass_eq_error hs

/-! ## From the first comma on -/

theorem qenqueue_ne_nil (command : List UInt8) (priority : ℤ) (q : Queue) :
    (qenqueue command priority q).first ≠ [] := by
  rw [qenqueue_first]
  intro hnil
  have hlength := length_insertBehind ⟨command, priority⟩ q.first
  rw [hnil] at hlength
  cases hlength

/-- At the first comma nothing in front of it has offended. -/
theorem Reading.not_rejected (h : Reading argv s) (hc : argv[s.i]? = some comma) :
    ¬ RejectedBeforeComma argv := by
  rintro (hnone | ⟨j, c, hj, hfront, hoffends⟩)
  · exact hnone (List.mem_of_getElem? hc)
  · rcases Nat.lt_trichotomy j s.i with hlt | rfl | hgt
    · exact h.inoffensive j c hlt hj hoffends
    · rw [hc, Option.some.injEq] at hj
      subst hj
      exact not_offends_comma _ hoffends
    · apply hfront
      refine List.mem_of_getElem? (i := s.i) ?_
      rw [List.getElem?_take_of_lt hgt, hc]

theorem Reading.takes_comma (h : Reading argv s) (hc : argv[s.i]? = some comma)
    (htakes : Takes before argv comma s t) : Beyond argv t := by
  have hqueue : t.queue = qenqueue s.token (255 - s.priority) s.queue := by
    cases htakes with
    | comma _ _ => rfl
    | skip h _ => cases h
    | blank h _ => cases h
    | left h _ _ => cases h
    | right h _ _ => cases h
    | punct h => exact absurd rfl h.2.1
    | alnum h _ => cases h
    | noClass h _ => cases h.2.1
  constructor
  · rw [htakes.valid, h.valid]
  · rw [hqueue]
    exact qenqueue_ne_nil _ _ _
  · exact h.not_rejected hc

theorem Beyond.next (h : Beyond argv s) (htakes : Takes before argv c s t) : Beyond argv t := by
  constructor
  · rw [htakes.valid, h.valid]
  · cases htakes with
    | comma _ _ => exact qenqueue_ne_nil _ _ _
    | _ => exact h.queued
  · exact h.later

/-- The two phases. -/
def Phase (argv : List UInt8) (s : Scan) : Prop := Reading argv s ∨ Beyond argv s

theorem Phase.next (h : Phase argv s) (hp : scanPass before argv s = .again t) : Phase argv t := by
  rcases h with h | h
  · obtain ⟨c, hc, htakes⟩ := again_cases h.valid hp
    by_cases hcomma : c = comma
    · subst hcomma
      exact .inr (h.takes_comma hc htakes)
    · exact .inl (h.next hc hcomma htakes)
  · obtain ⟨c, _, htakes⟩ := again_cases h.valid hp
    exact .inr (h.next htakes)

/-- Where the loop is left, the queue tells the phase. -/
theorem Phase.leaves (h : Phase argv s) (hp : scanPass before argv s = .leave (.ok t)) :
    t.queue.first = [] ↔ RejectedBeforeComma argv := by
  rcases h with h | h
  · refine iff_of_true ?_ ?_
    · rcases leave_cases h.valid hp with ⟨_, rfl⟩ | ⟨c, _, hrejects⟩
      · exact h.empty
      · rw [(h.rejects hrejects).2, h.empty]
    · rcases leave_cases h.valid hp with ⟨hover, rfl⟩ | ⟨c, hc, hrejects⟩
      · have hall : argv.take t.i = argv :=
          List.take_of_length_le (List.getElem?_eq_none_iff.mp hover)
        have hcomma := h.noComma
        rw [hall] at hcomma
        exact .inl hcomma
      · exact .inr ⟨s.i, c, hc, h.noComma, (h.rejects hrejects).1⟩
  · refine iff_of_false ?_ h.later
    rcases leave_cases h.valid hp with ⟨_, rfl⟩ | ⟨c, _, hrejects⟩
    · exact h.queued
    · rw [hrejects.queue]
      exact h.queued

end Passes

theorem reading_initial (argv : List UInt8) (stack : Stack) :
    Reading argv (Scan.initial (screate stack) qcreate) := by
  constructor
  · rfl
  · rfl
  · exact level_screate stack
  · rfl
  · exact List.not_mem_nil
  · intro j c hj
    cases hj

/-- What the tokenizer leaves in the queue of `main`. -/
theorem queue_empty_iff {fuel : ℕ} {before argv : List UInt8} {stack : Stack} {out : Outcome}
    (h : tokenizer fuel before argv (screate stack) qcreate = .ok out) :
    out.scan.queue.first = [] ↔ RejectedBeforeComma argv := by
  unfold tokenizer at h
  obtain ⟨last, hloop, h⟩ := bind_eq_ok.mp h
  obtain ⟨popped, _, h⟩ := bind_eq_ok.mp h
  cases h
  obtain ⟨s, hphase, hleave⟩ := (leaves_of_loop hloop).invariant
    (I := Phase argv) (.inl (reading_initial argv stack)) fun _ _ hs hp => hs.next hp
  have hempty := hphase.leaves hleave
  exact hempty

/-- A rejected line executes nothing just if it is rejected in front of its first comma. -/
theorem rejected_executes_nothing_iff {fuel : ℕ} {before argv : List UInt8} {stack : Stack}
    {out : Outcome} (h : RejectsLine fuel before argv stack out) :
    out.scan.queue.first = [] ↔ RejectedBeforeComma argv :=
  queue_empty_iff h.returns

/-- The line `b(c,a,` is rejected at its left parenthesis. -/
theorem rejected_executes_nothing_seven :
    ∃ out, RejectsLine 7 [] [98, 40, 99, 44, 97, 44] ⟨Vector.replicate MAXSIZE .null, 0⟩ out ∧
      out.scan.queue.first = [] := by
  have hcall : ∃ out,
      RejectsLine 7 [] [98, 40, 99, 44, 97, 44] ⟨Vector.replicate MAXSIZE .null, 0⟩ out :=
    ⟨_, rfl, .inl rfl⟩
  obtain ⟨out, h⟩ := hcall
  refine ⟨out, h, (rejected_executes_nothing_iff h).mpr (.inr ⟨1, leftParen, rfl, by decide, ?_⟩)⟩
  refine .left rfl ?_
  simp [mayOpen, lastClass, classOf, isspace, ispunct, comma, leftParen, rightParen]

/-- The line `a,b(c,` is rejected at its left parenthesis, and `a` is executed. -/
theorem rejected_executes_nothing_fails :
    ∃ out, RejectsLine 7 [] [97, 44, 98, 40, 99, 44] ⟨Vector.replicate MAXSIZE .null, 0⟩ out ∧
      out.scan.queue.first = [⟨[97], 255⟩] :=
  ⟨_, ⟨rfl, .inl rfl⟩, rfl⟩

end MinixOS.TokenizerRejection
