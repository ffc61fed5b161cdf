import Mathlib.Data.List.Infix
import MinixOS.TokenizerText

/-!
# Parentheses at every depth

The stack holds ten parentheses. A left one that finds it full is not pushed, while the
right one that belongs to it takes another one off. So the stack is empty too early behind a text that
was nested more deeply: it lacks as many parentheses as the deepest point was above ten.
-/
namespace MinixOS.ParenDepth
open LoopExecution CheckedExecution CommandQueue Tokenizer TokenizerSteps TokenizerForest
  TokenizerRejection TokenizerReading TokenizerTermination TokenizerText

/-! ## Counting parentheses -/

/-- How many left parentheses the text has more than right ones. -/
def balance (text : List UInt8) : ℤ := text.count leftParen - text.count rightParen

/-- The greatest balance of a prefix of the text. -/
def deepest (text : List UInt8) : ℤ := (text.inits.map balance).foldl max 0

/-- No right parenthesis of the text stands where none is left on the stack. -/
def Unexhausted (text : List UInt8) : Prop :=
  ∀ front, front ++ [rightParen] <+: text → openParens front ≠ 0

variable {before argv text : List UInt8} {queue : Queue} {s t : Scan} {c : UInt8}

theorem balance_concat (text : List UInt8) (c : UInt8) :
    balance (text ++ [c]) =
      balance text + (if c = leftParen then 1 else if c = rightParen then -1 else 0) := by
  unfold balance
  rw [List.count_append, List.count_append]
  split_ifs with hleft hright
  · subst hleft
    have hcounts : [leftParen].count leftParen = 1 ∧ [leftParen].count rightParen = 0 := by decide
    rw [hcounts.1, hcounts.2]
    push_cast
    omega
  · subst hright
    have hcounts : [rightParen].count leftParen = 0 ∧ [rightParen].count rightParen = 1 := by decide
    rw [hcounts.1, hcounts.2]
    push_cast
    omega
  · rw [List.count_singleton, List.count_singleton, if_neg (by simpa using hleft),
      if_neg (by simpa using hright)]
    push_cast
    omega

theorem deepest_concat (text : List UInt8) (c : UInt8) :
    deepest (text ++ [c]) = max (deepest text) (balance (text ++ [c])) := by
  unfold deepest
  rw [List.inits_append]
  simp

theorem Unexhausted.front (h : Unexhausted (text ++ [c])) : Unexhausted text :=
  fun front hupto => h front (hupto.trans (List.prefix_append text [c]))

/-- The stack lacks what was not pushed. -/
theorem openParens_eq (h : Unexhausted text) :
    (openParens text : ℤ) = balance text - max 0 (deepest text - MAXSIZE) ∧
      openParens text ≤ MAXSIZE ∧ balance text ≤ deepest text := by
  induction text using List.reverseRecOn with
  | nil => exact ⟨rfl, Nat.zero_le _, Int.le_refl 0⟩
  | append_singleton text c ih =>
      rcases ih h.front with ⟨hopen, hfull, hdeep⟩
      rw [openParens_concat, deepest_concat, balance_concat]
      unfold parenStep
      split_ifs with hleft hright
      · unfold MAXSIZE at hopen hfull ⊢
        push_cast
        omega
      · have hsome : openParens text ≠ 0 := by
          apply h text
          rw [hright]
        unfold MAXSIZE at hopen hfull ⊢
        omega
      · unfold MAXSIZE at hopen hfull ⊢
        omega

/-- Nested too deeply, and back at as many levels below the deepest point as the stack holds. -/
def EmptyTooEarly (text : List UInt8) : Prop :=
  MAXSIZE < deepest text ∧ balance text = deepest text - MAXSIZE

instance : DecidablePred EmptyTooEarly := fun text =>
  inferInstanceAs (Decidable (MAXSIZE < deepest text ∧ balance text = deepest text - MAXSIZE))

theorem emptyTooEarly_iff (h : Unexhausted text) :
    EmptyTooEarly text ↔ openParens text = 0 ∧ 0 < balance text := by
  rcases openParens_eq h with ⟨hopen, hfull, hdeep⟩
  unfold EmptyTooEarly
  unfold MAXSIZE at hopen hfull ⊢
  omega

theorem Unexhausted.of_prefix (h : Unexhausted text) {front : List UInt8} (hf : front <+: text) :
    Unexhausted front :=
  fun more hupto => h more (hupto.trans hf)

theorem balance_nonneg (h : Unexhausted text) : 0 ≤ balance text := by
  rcases openParens_eq h with ⟨hopen, _, _⟩
  omega

/-- Only the last right parenthesis may be one too many. -/
theorem negative_iff (h : Unexhausted text) (c : UInt8) :
    (∃ front, front <+: text ++ [c] ∧ balance front < 0) ↔ c = rightParen ∧ balance text = 0 := by
  have hnonneg := balance_nonneg h
  have hlast := balance_concat text c
  constructor
  · rintro ⟨front, hupto, hneg⟩
    rcases List.prefix_concat_iff.mp hupto with rfl | hfront
    · split_ifs at hlast with hleft hright
      · omega
      · exact ⟨hright, by omega⟩
      · omega
    · have hfine := balance_nonneg (h.of_prefix hfront)
      omega
  · rintro ⟨rfl, hzero⟩
    have hnot : rightParen ≠ leftParen := by decide
    rw [if_neg hnot, if_pos rfl] at hlast
    exact ⟨_, List.prefix_rfl, by omega⟩

/-! ## The messages -/

def unmatchedRight : Output := .printf "Error: Unmatched right parentheses.\n"

/-- The pass leaves the loop with the message of an unmatched right parenthesis. -/
def RaisesRight (before argv : List UInt8) (s : Scan) : Prop :=
  ∃ t, scanPass before argv s = .leave (.ok t) ∧ unmatchedRight ∈ t.log

theorem unexhausted_of_placed {i : ℕ}
    (h : ∀ j c, j < i → argv[j]? = some c → ¬ Misplaced (argv.take j) c) :
    Unexhausted (argv.take i) := by
  rintro front ⟨rest, htake⟩ hzero
  have hlength := congrArg List.length htake
  rw [List.length_append, List.length_append, List.length_singleton, List.length_take] at hlength
  have hlt : front.length < i := by omega
  have hfront : argv.take front.length = front := by
    have htaken := congrArg (List.take front.length) htake
    rw [List.append_assoc, List.take_left, List.take_take, Nat.min_eq_left hlt.le] at htaken
    exact htaken.symm
  have hget : argv[front.length]? = some rightParen := by
    rw [← List.getElem?_take_of_lt hlt, ← htake, List.append_assoc]
    simp
  apply h front.length rightParen hlt hget
  rw [hfront]
  exact .unmatched rfl hzero

theorem quiet_right (h : ∀ e ∈ s.log, e = stackFull) : unmatchedRight ∉ s.log := by
  intro hmem
  exact absurd (h _ hmem) (by decide)

/-- The message is raised where the stack is empty. -/
theorem raisesRight_iff (h : ReadUp before argv queue s) (hc : argv[s.i]? = some c) :
    RaisesRight before argv s ↔ c = rightParen ∧ openParens (argv.take s.i) = 0 := by
  have hquiet := quiet_right h.quiet
  have hmessage : errorMessage ≠ unmatchedRight := by decide
  constructor
  · rintro ⟨t, hleave, hmem⟩
    rcases leave_cases h.scanned.valid hleave with ⟨hend, _⟩ | ⟨d, hd, hrejects⟩
    · rw [hc] at hend
      cases hend
    · rw [hc] at hd
      cases hd
      cases hrejects with
      | left _ _ hpush =>
          exfalso
          rcases List.mem_append.mp hmem with hmem | he
          · rcases List.mem_append.mp hmem with hmem | he
            · exact hquiet hmem
            · exact absurd (push_printed hpush _ he) (by decide)
          · exact hmessage (List.mem_singleton.mp he).symm
      | right _ _ _ =>
          exfalso
          rcases List.mem_append.mp hmem with hmem | he
          · exact hquiet hmem
          · exact hmessage (List.mem_singleton.mp he).symm
      | unmatched he hpop hne =>
          rcases pop_level h.scanned.level hpop with ⟨hzero, _, _⟩ | ⟨_, hparen, _⟩
          · exact ⟨he, hzero⟩
          · exact absurd hparen hne
      | word _ _ _ _ => exact absurd hmem hquiet
      | noClass _ _ =>
          exfalso
          rcases List.mem_append.mp hmem with hmem | he
          · exact hquiet hmem
          · exact hmessage (List.mem_singleton.mp he).symm
  · rintro ⟨rfl, hzero⟩
    have hlevel := h.scanned.level
    rw [hzero] at hlevel
    have htop : s.stack.top = -1 := hlevel.top
    have hbranch : branch before argv rightParen s =
        .ok (.breaks { s with inputvalidity := false, log := s.log ++ [unmatchedRight] }) := by
      change rightBranch s = _
      simp [rightBranch, spop, htop, unmatchedRight]
    exact ⟨_, leave_of_break hc hbranch, List.mem_append_right _ (List.mem_singleton.mpr rfl)⟩

/-! ## What the checks are to tell -/

/-- At every state of the loop the error of a right parenthesis is raised exactly if the text
processed, the next character included, has a prefix with too many of them. The last check tells
whether the line has too many left ones. -/
structure ExactParens (before argv : List UInt8) (stack : Stack) (queue : Queue) : Prop where
  right : ∀ s, Walks (scanPass before argv) (Scan.initial (screate stack) queue) s →
    (RaisesRight before argv s ↔
      ∃ front, front <+: argv.take (s.i + 1) ∧ balance front < 0)
  left : ∀ fuel out, tokenizer fuel before argv (screate stack) queue = .ok out →
    out.scan.i = argv.length → out.scan.inputvalidity = true →
    (unmatchedLeft ∈ out.scan.log ↔ 0 < balance argv)

/-- The line is read up to `argv[i]`. -/
def ReadTo (before argv : List UInt8) (i : ℕ) : Prop :=
  Readable before argv ∧
    ∀ j c, j < i → argv[j]? = some c → ¬ Misplaced (argv.take j) c ∧ ¬ noClass c

/-- Neither in front of a right parenthesis that is come to, nor at the end of a line read to its
end, the stack is empty too early. -/
def NeverEmptyTooEarly (before argv : List UInt8) : Prop :=
  ∀ i, i ≤ argv.length → ReadTo before argv i →
    (argv[i]? = some rightParen ∨ i = argv.length) → ¬ EmptyTooEarly (argv.take i)

theorem ReadTo.unexhausted {i : ℕ} (h : ReadTo before argv i) : Unexhausted (argv.take i) :=
  unexhausted_of_placed fun j c hj hc => (h.2 j c hj hc).1

section Lines
variable {stack : Stack}

theorem readTo_of_walks (hread : Readable before argv)
    (hwalks : Walks (scanPass before argv) (Scan.initial (screate stack) queue) s) :
    ReadUp before argv queue s ∧ ReadTo before argv s.i := by
  have hs := readUp_of_walks (readUp_initial before argv stack queue) hwalks
  refine ⟨hs, hread, ?_⟩
  intro j c hj hc
  have hmem : c ∈ argv.take s.i := by
    apply List.mem_of_getElem? (i := j)
    rw [List.getElem?_take_of_lt hj, hc]
  exact ⟨hs.scanned.placed j c hj hc, hs.classed c hmem⟩

/-- The pass over a right parenthesis is right about it unless the stack is empty too early. -/
theorem right_iff (hs : ReadUp before argv queue s) (hc : argv[s.i]? = some c) :
    (RaisesRight before argv s ↔ ∃ front, front <+: argv.take (s.i + 1) ∧ balance front < 0) ↔
      (c = rightParen → ¬ EmptyTooEarly (argv.take s.i)) := by
  have hunexhausted := unexhausted_of_placed hs.scanned.placed
  have hnonneg := balance_nonneg hunexhausted
  rcases openParens_eq hunexhausted with ⟨hopen, _, _⟩
  rw [raisesRight_iff hs hc, (take_next hc).2, negative_iff hunexhausted,
    emptyTooEarly_iff hunexhausted]
  constructor
  · intro h hright hempty
    have hzero := (h.mp ⟨hright, hempty.1⟩).2
    omega
  · intro h
    constructor
    · rintro ⟨hright, hzero⟩
      refine ⟨hright, ?_⟩
      by_contra hne
      exact h hright ⟨hzero, by omega⟩
    · rintro ⟨hright, hzero⟩
      exact ⟨hright, by omega⟩

/-- So is the last check. -/
theorem left_iff (h : Unexhausted argv) :
    (openParens argv ≠ 0 ↔ 0 < balance argv) ↔ ¬ EmptyTooEarly argv := by
  have hnonneg := balance_nonneg h
  rcases openParens_eq h with ⟨hopen, _, _⟩
  rw [emptyTooEarly_iff h]
  constructor
  · intro hiff hempty
    exact hiff.mpr hempty.2 hempty.1
  · intro hfine
    constructor
    · intro hsome
      omega
    · intro hpos hzero
      exact hfine ⟨hzero, hpos⟩

theorem emptyTooEarly_nil : ¬ EmptyTooEarly [] := by
  intro h
  exact absurd h.1 (by decide)

/-- In front of a line that begins with a comma nothing but parentheses may be in memory. -/
theorem unreadable_start (hread : ¬ Readable before argv)
    (hwalks : Walks (scanPass before argv) (Scan.initial (screate stack) queue) s) :
    s.i = 0 := by
  cases hwalks with
  | refl _ => rfl
  | pass hp _ =>
      rcases not_readable_stops hread stack queue with ⟨stop, hstop⟩
      rw [hstop] at hp
      cases hp

/-- Behind the last character no message is raised, and none is due. -/
theorem right_end (hs : ReadUp before argv queue s) (hend : argv[s.i]? = none) :
    RaisesRight before argv s ↔ ∃ front, front <+: argv.take (s.i + 1) ∧ balance front < 0 := by
  have hlength := List.getElem?_eq_none_iff.mp hend
  have hall : argv.take s.i = argv := List.take_of_length_le hlength
  have hmore : argv.take (s.i + 1) = argv := List.take_of_length_le (Nat.le_succ_of_le hlength)
  have hunexhausted := unexhausted_of_placed hs.scanned.placed
  rw [hall] at hunexhausted
  refine iff_of_false ?_ ?_
  · rintro ⟨t, hleave, hmem⟩
    simp only [scanPass, hend] at hleave
    cases hleave
    exact quiet_right hs.quiet hmem
  · rintro ⟨front, hupto, hneg⟩
    rw [hmore] at hupto
    exact absurd (balance_nonneg (hunexhausted.of_prefix hupto)) (by omega)

end Lines

/-- The two checks are exact on a line exactly if the stack is never empty too early. -/
theorem exact_parens_iff {before argv : List UInt8} (hne : argv ≠ []) (stack : Stack)
    (queue : Queue) : ExactParens before argv stack queue ↔ NeverEmptyTooEarly before argv := by
  constructor
  · intro h i hi hto hplace
    rcases walks_to hto.1 stack queue hi hto.2 with ⟨s, hwalks, hs, rfl⟩
    rcases hplace with hc | hend
    · exact (right_iff hs hc).mp (h.right s hwalks) rfl
    · rcases hs.returns hwalks hend hne with ⟨fuel, out, hout, hfinished, hvalid, hmessage⟩
      have hall : argv.take s.i = argv := by
        rw [hend]
        exact List.take_length
      have hunexhausted := hto.unexhausted
      rw [hall] at hunexhausted ⊢
      exact (left_iff hunexhausted).mp (hmessage.symm.trans (h.left fuel out hout hfinished hvalid))
  · intro h
    constructor
    · intro s hwalks
      have hs := readUp_of_walks (readUp_initial before argv stack queue) hwalks
      cases hc : argv[s.i]? with
      | none => exact right_end hs hc
      | some c =>
          apply (right_iff hs hc).mpr
          rintro rfl
          by_cases hread : Readable before argv
          · exact h s.i (take_next hc).1.le (readTo_of_walks hread hwalks).2 (.inl hc)
          · rw [unreadable_start hread hwalks]
            exact emptyTooEarly_nil
    · intro fuel out hout hfinished hvalid
      have hread := readable_of_returns hout
      rcases returned hout with ⟨s, t, hwalks, hs, hleave, _, _, _, hscan⟩
      rw [hscan] at hfinished hvalid
      have hend := hs.at_end hleave hfinished hvalid
      subst hend
      rcases hs.returns hwalks hfinished hne with ⟨fuel', out', hout', _, _, hmessage⟩
      rw [← tokenizer_unique hout hout'] at hmessage
      have hall : argv.take t.i = argv := by
        rw [hfinished]
        exact List.take_length
      have hto := (readTo_of_walks hread hwalks).2
      have hunexhausted := hto.unexhausted
      have hfine := h t.i hfinished.le hto (.inr hfinished)
      rw [hall] at hunexhausted hfine
      exact hmessage.trans ((left_iff hunexhausted).mpr hfine)

/-- The line `(a),`. -/
theorem exact_parens_one :
    ExactParens [] [40, 97, 41, 44] ⟨.replicate MAXSIZE .null, 0⟩ qcreate := by
  refine (exact_parens_iff (by decide) _ _).mpr ?_
  have hall : ∀ i ≤ [40, 97, 41, 44].length, ¬ EmptyTooEarly (List.take i [40, 97, 41, 44]) := by
    decide
  exact fun i hi _ _ => hall i hi

/-- Eleven pairs of parentheses. The last right one finds the stack empty. -/
theorem exact_parens_fails :
    ¬ ∀ (before argv : List UInt8) (stack : Stack) (queue : Queue), argv ≠ [] →
      ExactParens before argv stack queue := by
  intro h
  let line : List UInt8 := List.replicate 11 40 ++ 97 :: List.replicate 11 41 ++ [44]
  let stack : Stack := ⟨.replicate MAXSIZE .null, 0⟩
  have hrun : (tokenizer 23 [] line (screate stack) qcreate).map
      (fun out => decide (unmatchedRight ∈ out.scan.log)) = .ok true := by
    decide +kernel
  rcases map_eq_ok.mp hrun with ⟨out, hout, hmem⟩
  rw [decide_eq_true_eq] at hmem
  rcases returned hout with ⟨s, t, hwalks, _, hleave, _, _, _, hscan⟩
  rw [hscan] at hmem
  have hraised : unmatchedRight ∈ t.log := by
    dsimp only at hmem
    split_ifs at hmem
    · rcases List.mem_append.mp hmem with hmem | he
      · exact hmem
      · exact absurd (List.mem_singleton.mp he) (by decide)
    · exact hmem
  rcases ((h [] line stack qcreate (by decide)).right s hwalks).mp ⟨t, hleave, hraised⟩ with
    ⟨front, hupto, hneg⟩
  have hall : ∀ front ∈ line.inits, 0 ≤ balance front := by decide
  have hfine := hall front ((List.mem_inits _ _).mpr (hupto.trans (List.take_prefix _ _)))
  omega

end MinixOS.ParenDepth
