import Mathlib.Data.List.TakeWhile
import MinixOS.TokenizerRejection

/-!
# How far the tokenizer reads a line

A line is read up to the first character that may not stand where it stands, which is a
matter of the text in front of it. The invariant of the loop says that all the
characters in front of `argv[i]` may stand there. Each pass then takes the next
character, rejects the line at it, or meets a character of no class and is back where it was.
-/
namespace MinixOS.TokenizerReading
open LoopExecution CheckedExecution CommandQueue Tokenizer TokenizerSteps TokenizerForest
  TokenizerRejection

variable {before argv text : List UInt8} {s t : Scan} {c d : UInt8}

/-! ## Characters out of place -/

/-- The character in front of the right parentheses that the text ends with. -/
def frontOfParens (text : List UInt8) : Option UInt8 :=
  (text.reverse.dropWhile fun c => c = rightParen).head?

/-- The character may not stand behind the text. A word may stand behind right
parentheses if a comma is in front of them. -/
inductive Misplaced (text : List UInt8) (c : UInt8) : Prop
  | left (h : c = leftParen) (hs : ¬ mayOpen (lastClass text))
  | right (h : c = rightParen) (hs : ¬ mayClose (lastClass text))
  | unmatched (h : c = rightParen) (hs : openParens text = 0)
  | word (h : isalnum c = true) (hs : lastClass text = .rparen)
      (hfront : frontOfParens text ≠ some comma)
  | noClass (h : noClass c) (hs : text = [])

/-- What is in front of the line has to hold a character other than a right parenthesis if
the line begins with a comma. -/
def Readable (before argv : List UInt8) : Prop :=
  argv.head? = some comma → ∃ d ∈ before, d ≠ rightParen

theorem skipParens_front {front : List UInt8}
    (h : (front.dropWhile fun c => c = rightParen).head? = some d) (before : List UInt8)
    (index : ℤ) : ∃ passes, skipParens index (front ++ before) = .ok (passes, d) := by
  induction front generalizing index with
  | nil => cases h
  | cons c front ih =>
      by_cases hc : c = rightParen
      · rw [List.dropWhile_cons, if_pos (decide_eq_true hc)] at h
        rcases ih h (index - 1) with ⟨passes, hskip⟩
        exact ⟨passes + 1, by simp [skipParens, hc, hskip]⟩
      · rw [List.dropWhile_cons, if_neg (by simp [hc])] at h
        cases h
        exact ⟨0, by simp [skipParens, hc]⟩

theorem front_of_other {front : List UInt8} (h : ∃ d ∈ front, d ≠ rightParen) :
    ∃ d, (front.dropWhile fun c => c = rightParen).head? = some d := by
  rcases h with ⟨e, he, hne⟩
  cases hdrop : front.dropWhile fun c => c = rightParen with
  | cons d rest => exact ⟨d, rfl⟩
  | nil =>
      have hall := List.dropWhile_eq_nil_iff.mp hdrop e he
      exact absurd (of_decide_eq_true hall) hne

theorem parensBehind_front {i : ℕ} (h : frontOfParens (argv.take i) = some d)
    (before : List UInt8) : ∃ passes, parensBehind before argv i = .ok (passes, d) :=
  skipParens_front h before _

/-! ## The invariant -/

/-- The text in front of `argv[i]` has been taken, and every character of it may stand where
it stands. -/
structure Scanned (argv : List UInt8) (s : Scan) : Prop where
  valid : s.inputvalidity = true
  state : s.state = lastClass (argv.take s.i)
  level : Level (openParens (argv.take s.i)) s.stack
  token : s.token.length ≤ s.i
  placed : ∀ j c, j < s.i → argv[j]? = some c → ¬ Misplaced (argv.take j) c

/-- Behind the start of the line the right parentheses have a character in front of them. -/
theorem Scanned.front (h : Scanned argv s) (hne : argv.take s.i ≠ []) :
    ∃ d, frontOfParens (argv.take s.i) = some d := by
  have hfirst : argv[0]? ≠ some rightParen := by
    intro hfirst
    apply h.placed 0 rightParen (pos_of_take hne) hfirst
    exact .right rfl (by simp [mayClose, lastClass])
  rcases exists_other hne hfirst with ⟨d, hd, hother⟩
  exact front_of_other ⟨d, List.mem_reverse.mpr hd, hother⟩

theorem Scanned.front_of_rparen (h : Scanned argv s) (before : List UInt8)
    (hs : s.state = .rparen) :
    ∃ d passes, frontOfParens (argv.take s.i) = some d ∧
      parensBehind before argv s.i = .ok (passes, d) := by
  have hne : argv.take s.i ≠ [] := by
    intro hnil
    rw [h.state, hnil] at hs
    cases hs
  rcases h.front hne with ⟨d, hfront⟩
  rcases parensBehind_front hfront before with ⟨passes, hskip⟩
  exact ⟨d, passes, hfront, hskip⟩

/-- At a comma the line or what is in front of it has such a character. -/
theorem Scanned.front_of_comma (h : Scanned argv s) (hread : Readable before argv)
    (hc : argv[s.i]? = some comma) : ∃ skipped, parensBehind before argv s.i = .ok skipped := by
  by_cases hnil : argv.take s.i = []
  · have hbehind : behind before argv s.i = before := by
      unfold behind
      rw [hnil]
      rfl
    have hfirst : argv.head? = some comma := by
      rcases List.take_eq_nil_iff.mp hnil with hzero | hargv
      · rw [hzero] at hc
        rw [List.head?_eq_getElem?]
        exact hc
      · rw [hargv] at hc
        cases hc
    rcases front_of_other (hread hfirst) with ⟨d, hfront⟩
    rcases skipParens_front hfront [] ((s.i : ℤ) - 1) with ⟨passes, hskip⟩
    rw [List.append_nil, ← hbehind] at hskip
    exact ⟨_, hskip⟩
  · rcases h.front hnil with ⟨d, hfront⟩
    rcases parensBehind_front hfront before with ⟨passes, hskip⟩
    exact ⟨_, hskip⟩

/-! ## No access is out of range -/

theorem push_ok {level : ℕ} {u : Stack} (h : Level level u) : ∃ out, spush leftParen u = .ok out := by
  by_cases hroom : level < MAXSIZE
  · rcases h.push hroom with ⟨u', hpush, _⟩
    exact ⟨_, hpush⟩
  · have hbound := h.bound
    have hfull : u.top = (MAXSIZE : ℤ) - 1 := by
      rw [h.top]
      omega
    unfold spush
    rw [if_pos hfull]
    exact ⟨_, rfl⟩

theorem pop_ok {level : ℕ} {u : Stack} (h : Level level u) : ∃ out, spop u = .ok out := by
  cases level with
  | zero =>
      have hempty : u.top = -1 := h.top
      unfold spop
      rw [if_pos hempty]
      exact ⟨_, rfl⟩
  | succ level =>
      rcases h.pop with ⟨u', hpop, _⟩
      exact ⟨_, hpop⟩

/-- There is room for the character in the buffer of the token. -/
theorem Scanned.append_ok (h : Scanned argv s) (hc : argv[s.i]? = some c) (d : UInt8) :
    appendChar argv.length s.token d = .ok (s.token ++ [d]) :=
  appendChar_eq (h.token.trans_lt (take_next hc).1) d

theorem Scanned.space_ok (h : Scanned argv s) (hc : argv[s.i]? = some c) :
    ∃ b, spaceBranch argv s = .ok b := by
  unfold spaceBranch
  split_ifs
  · exact ⟨_, rfl⟩
  · rw [h.append_ok hc]
    exact ⟨_, rfl⟩

theorem Scanned.comma_ok (h : Scanned argv s) (hc : argv[s.i]? = some comma)
    (hread : Readable before argv) : ∃ b, commaBranch before argv s = .ok b := by
  rcases h.front_of_comma hread hc with ⟨skipped, hskip⟩
  unfold parensBehind at hskip
  unfold commaBranch
  rw [hskip]
  exact ⟨_, rfl⟩

theorem Scanned.left_ok (h : Scanned argv s) : ∃ b, leftBranch leftParen s = .ok b := by
  rcases push_ok h.level with ⟨pushed, hpush⟩
  unfold leftBranch
  rw [hpush]
  exact ⟨_, rfl⟩

theorem Scanned.right_ok (h : Scanned argv s) : ∃ b, rightBranch s = .ok b := by
  rcases pop_ok h.level with ⟨popped, hpop⟩
  unfold rightBranch
  rw [hpop]
  simp only [ok_bind]
  split_ifs
  · exact ⟨_, rfl⟩
  · exact ⟨_, rfl⟩
  · exact ⟨_, rfl⟩

theorem Scanned.punct_ok (h : Scanned argv s) (hc : argv[s.i]? = some c) :
    ∃ b, punctBranch argv c s = .ok b := by
  unfold punctBranch
  rw [h.append_ok hc]
  exact ⟨_, rfl⟩

theorem Scanned.alnum_ok (h : Scanned argv s) (hc : argv[s.i]? = some c) :
    ∃ b, alnumBranch before argv c s = .ok b := by
  unfold alnumBranch
  rw [h.append_ok hc]
  split_ifs with hs
  · rcases h.front_of_rparen before hs with ⟨d, passes, _, hskip⟩
    unfold parensBehind at hskip
    rw [hskip]
    simp only [ok_bind]
    split_ifs
    · exact ⟨_, rfl⟩
    · exact ⟨_, rfl⟩
  · exact ⟨_, rfl⟩

theorem Scanned.branch_ok (h : Scanned argv s) (hread : Readable before argv)
    (hc : argv[s.i]? = some c) : ∃ b, branch before argv c s = .ok b := by
  unfold branch
  split_ifs with hspace hcomma hparen hleft hpunct halnum
  · exact h.space_ok hc
  · rcases hcomma with he | he
    · rw [he] at hc
      exact h.comma_ok hc hread
    · rw [he] at hspace
      exact absurd rfl hspace
  · rw [hleft]
    exact h.left_ok
  · exact h.right_ok
  · exact h.punct_ok hc
  · exact h.alnum_ok hc
  · exact ⟨_, rfl⟩

/-- No pass is stopped. -/
theorem Scanned.not_stopped (h : Scanned argv s) (hread : Readable before argv)
    (hc : argv[s.i]? = some c) (stop : Stop) : scanPass before argv s ≠ .leave (.error stop) := by
  rcases h.branch_ok hread hc with ⟨b, hb⟩
  intro hstop
  cases b with
  | breaks t =>
      rw [leave_of_break hc hb] at hstop
      cases hstop
  | falls t =>
      by_cases hbad : t.inputvalidity = false ∨ t.state = .error
      · rw [leave_of_branch hc hb hbad] at hstop
        cases hstop
      · rw [not_or, Bool.not_eq_false] at hbad
        rw [again_of_branch hc hb hbad.1 hbad.2] at hstop
        cases hstop

/-! ## One pass -/

/-- What is taken may stand there. -/
theorem Scanned.placed_of_takes (h : Scanned argv s) (htakes : Takes before argv c s t) :
    ¬ Misplaced (argv.take s.i) c := by
  intro hmisplaced
  cases hmisplaced with
  | left he hs =>
      rw [← h.state] at hs
      exact hs (takes_opens htakes he)
  | right he hs =>
      rw [← h.state] at hs
      exact hs (takes_closes htakes he h.level).1
  | unmatched he hs => exact (takes_closes htakes he h.level).2.ne' hs
  | word halnum hs hfront =>
      rw [← h.state] at hs
      rcases h.front_of_rparen before hs with ⟨d, passes, hd, hskip⟩
      rcases takes_behind_comma htakes halnum hs with ⟨passes', hcomma⟩
      rw [hskip] at hcomma
      cases hcomma
      exact hfront hd
  | noClass hclass hnil =>
      apply (takes_noClass htakes hclass).2
      rw [h.state, hnil]
      rfl

/-- Where the line is rejected, the character is out of place. -/
theorem Scanned.misplaced_of_rejects (h : Scanned argv s) (hrejects : Rejects before argv c s t) :
    Misplaced (argv.take s.i) c ∧ ∃ level, Level level t.stack := by
  cases hrejects with
  | left he hs hpush =>
      subst he
      rw [h.state] at hs
      exact ⟨.left rfl hs, _, push_level h.level hpush⟩
  | right he hs hpop =>
      rw [h.state] at hs
      rcases pop_level h.level hpop with ⟨_, hnull, _⟩ | ⟨_, _, hlevel⟩
      · cases hnull
      · exact ⟨.right he hs, _, hlevel⟩
  | unmatched he hpop hne =>
      rcases pop_level h.level hpop with ⟨hzero, _, hstack⟩ | ⟨_, hparen, _⟩
      · refine ⟨.unmatched he hzero, openParens (argv.take s.i), ?_⟩
        dsimp only
        rw [hstack]
        exact h.level
      · exact absurd hparen hne
  | word halnum hs hskip hne =>
      rcases h.front_of_rparen before hs with ⟨d, passes, hfront, hsame⟩
      rw [hskip] at hsame
      cases hsame
      rw [h.state] at hs
      refine ⟨.word halnum hs ?_, _, h.level⟩
      rw [hfront]
      exact fun he => hne (Option.some.inj he)
  | noClass hclass hs =>
      rw [h.state] at hs
      exact ⟨.noClass hclass (lastClass_eq_error hs), _, h.level⟩

theorem Scanned.next (h : Scanned argv s) (hc : argv[s.i]? = some c) (hclass : ¬ noClass c)
    (htakes : Takes before argv c s t) : t.i = s.i + 1 ∧ Scanned argv t := by
  rcases takes_steps htakes hclass h.level with ⟨hi, hstate, hlevel, htoken⟩
  rcases take_next hc with ⟨_, htake⟩
  have hroom := h.token
  refine ⟨hi, ?_⟩
  constructor
  · exact htakes.valid.trans h.valid
  · rw [hi, htake, lastClass_concat, hstate]
  · rw [hi, htake, openParens_concat]
    exact hlevel
  · omega
  · intro j d hj hd
    rcases Nat.lt_succ_iff_lt_or_eq.mp (hi ▸ hj) with hlt | rfl
    · exact h.placed j d hlt hd
    · rw [hc] at hd
      cases hd
      exact h.placed_of_takes htakes

/-- A pass rejects the line, or hangs, or takes the character. -/
inductive Passes (before argv : List UInt8) (c : UInt8) (s : Scan) : Prop
  | rejects (hplace : Misplaced (argv.take s.i) c) (t : Scan)
      (hp : scanPass before argv s = .leave (.ok t)) (level : ℕ) (hlevel : Level level t.stack)
  | hangs (hplace : ¬ Misplaced (argv.take s.i) c) (hclass : noClass c)
      (hp : scanPass before argv s = .again s)
  | takes (hplace : ¬ Misplaced (argv.take s.i) c) (hclass : ¬ noClass c) (t : Scan)
      (hp : scanPass before argv s = .again t) (hi : t.i = s.i + 1) (ht : Scanned argv t)

theorem Scanned.passes (h : Scanned argv s) (hread : Readable before argv)
    (hc : argv[s.i]? = some c) : Passes before argv c s := by
  rcases pass_cases before h.valid hc with ⟨stop, hp⟩ | ⟨t, hp, htakes⟩ | ⟨t, hp, hrejects⟩
  · exact absurd hp (h.not_stopped hread hc stop)
  · have hplace := h.placed_of_takes htakes
    by_cases hclass : noClass c
    · rw [(takes_noClass htakes hclass).1] at hp
      exact .hangs hplace hclass hp
    · rcases h.next hc hclass htakes with ⟨hi, ht⟩
      exact .takes hplace hclass t hp hi ht
  · rcases h.misplaced_of_rejects hrejects with ⟨hplace, level, hlevel⟩
    exact .rejects hplace t hp level hlevel

theorem scanned_initial (argv : List UInt8) (stack : Stack) (queue : Queue) :
    Scanned argv (Scan.initial (screate stack) queue) := by
  constructor
  · rfl
  · rfl
  · exact level_screate stack
  · exact Nat.le_refl 0
  · intro j c hj
    cases hj

end MinixOS.TokenizerReading
