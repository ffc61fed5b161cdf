import MinixOS.TokenizerText

/-!
# Text on both sides of a parenthesis

The tokenizer looks at the character in front of a left parenthesis, and behind right ones
at the next word. White space in front of the left parenthesis hides the text there, and
white space or punctuation behind the right one hides the parenthesis. The text on the
two sides then comes into one command.
-/
namespace MinixOS.CommandMerging
open LoopExecution CheckedExecution StableQueues CommandQueue Tokenizer TokenizerSteps
  TokenizerForest TokenizerConservation TokenizerRejection TokenizerReading TokenizerText

/-! ## What is not to be merged -/

def isParen (c : UInt8) : Prop := c = leftParen ∨ c = rightParen

def HasText (text : List UInt8) : Prop := ∃ d ∈ text, textual d = true

/-- The characters of a text other than white space. -/
def inked (text : List UInt8) : List UInt8 := text.filter fun c => !isspace c

/-- Every command has the characters of a part of the line without commas and parentheses,
and no text on one side of a parenthesis is joined to text on the other side. -/
structure Unmerged (line : List UInt8) (queue : List QueueNode) : Prop where
  whole : ∀ node ∈ queue, ∃ part, part <:+: line ∧ (∀ c ∈ part, c ≠ comma ∧ ¬ isParen c) ∧
    inked part = inked node.command
  apart : ∀ x p y, x ++ p :: y <:+: line → isParen p → comma ∉ x → comma ∉ y →
    ¬ (HasText x ∧ HasText y)

/-- White space in front of a left parenthesis, or white space or punctuation behind a right one,
with text on both sides and no comma in between. -/
inductive Hidden (line : List UInt8) : Prop
  | left (x : List UInt8) (w : UInt8) (y : List UInt8) (h : x ++ w :: leftParen :: y <:+: line)
      (hw : isspace w = true) (hx : comma ∉ x) (hy : comma ∉ y) (htext : HasText x ∧ HasText y)
  | right (x : List UInt8) (c : UInt8) (y : List UInt8) (h : x ++ rightParen :: c :: y <:+: line)
      (hc : isspace c = true ∨ plainPunct c) (hx : comma ∉ x) (hy : comma ∉ c :: y)
      (htext : HasText x ∧ HasText (c :: y))

variable {before line front text : List UInt8} {c d e : UInt8} {r : Reader}

/-! ## Where text may stand -/

theorem untextual_paren (hp : isParen c) : textual c = false := by
  rcases hp with rfl | rfl
  · rfl
  · rfl

theorem text_class (htext : textual d = true) (hclass : ¬ noClass d) :
    plainPunct d ∨ isalnum d = true := by
  simp only [textual, Bool.and_eq_true, Bool.not_eq_true', bne_iff_ne] at htext
  rcases htext with ⟨⟨⟨hspace, hcomma⟩, hleft⟩, hright⟩
  by_cases hpunct : ispunct d = true
  · exact .inl ⟨hpunct, hcomma, hleft, hright⟩
  · right
    by_contra halnum
    exact hclass ⟨hspace, by simpa using hpunct, by simpa using halnum⟩

/-- A left parenthesis is not directly behind text. -/
theorem not_left_behind (h : Acceptable before line) {back : List UInt8}
    (hline : line = front ++ d :: leftParen :: back) (hd : textual d = true ∨ d = rightParen) :
    False := by
  have hsplit : line = (front ++ [d]) ++ leftParen :: back := by
    rw [hline]
    simp
  apply (h.placed_at hsplit).1
  refine .left rfl ?_
  rw [lastClass_concat]
  rcases hd with htext | rfl
  · rcases text_class htext (h.placed_at hline).2 with hpunct | halnum
    · rw [classOf_punct hpunct]
      simp [mayOpen]
    · rw [classOf_alnum halnum]
      simp [mayOpen]
  · simp [mayOpen, classOf, isspace, comma, leftParen, rightParen]

theorem frontOfParens_mem (h : ∃ d ∈ text, d ≠ rightParen)
    (hfront : frontOfParens (front ++ text) = some e) : e ∈ text := by
  induction text using List.reverseRecOn with
  | nil =>
      rcases h with ⟨d, hd, _⟩
      cases hd
  | append_singleton text c ih =>
      rw [← List.append_assoc, frontOfParens_concat] at hfront
      split_ifs at hfront with hc
      · have hother : ∃ d ∈ text, d ≠ rightParen := by
          rcases h with ⟨d, hd, hne⟩
          rcases List.mem_append.mp hd with hd | hd
          · exact ⟨d, hd, hne⟩
          · exact absurd ((List.mem_singleton.mp hd).trans hc) hne
        exact List.mem_append_left _ (ih hother hfront)
      · cases hfront
        exact List.mem_append_right _ (List.mem_singleton.mpr rfl)

/-- A word is directly behind right parentheses only with a comma in front of them. -/
theorem not_word_behind (h : Acceptable before line) {back : List UInt8}
    (hline : line = (front ++ text ++ [rightParen]) ++ e :: back) (he : isalnum e = true)
    (hother : ∃ d ∈ text, d ≠ rightParen) (hcomma : comma ∉ text) : False := by
  apply (h.placed_at hline).1
  refine .word he ?_ ?_
  · rw [lastClass_concat]
    rfl
  · intro hfront
    rw [frontOfParens_concat, if_pos rfl] at hfront
    exact hcomma (frontOfParens_mem hother hfront)

/-! ## Between two texts -/

theorem between_cases (hc : c ≠ comma) (htext : textual c = false) :
    isspace c = true ∨ c = leftParen ∨ c = rightParen := by
  rcases textual_cases c with hspace | he | hleft | hright | ht
  · exact .inl hspace
  · exact absurd he hc
  · exact .inr (.inl hleft)
  · exact .inr (.inr hright)
  · rw [htext] at ht
    cases ht

/-- A left parenthesis between two texts has white space in front of it. -/
theorem hidden_left (h : Acceptable before line) {pre x y post : List UInt8}
    (hline : line = pre ++ (x ++ d :: (text ++ leftParen :: y)) ++ post)
    (hd : textual d = true) (htext : ∀ c ∈ text, textual c = false) (hleft : leftParen ∉ text)
    (hcomma : comma ∉ x ++ d :: (text ++ leftParen :: y)) (hy : HasText y) : Hidden line := by
  rcases List.eq_nil_or_concat text with rfl | ⟨text, w, rfl⟩
  · have hbehind : line = (pre ++ x) ++ d :: leftParen :: (y ++ post) := by
      rw [hline]
      simp
    exact (not_left_behind h hbehind (.inl hd)).elim
  · rw [List.concat_eq_append] at hline htext hleft hcomma
    have hmem : w ∈ text ++ [w] := List.mem_append_right _ (List.mem_singleton.mpr rfl)
    have hw : w ≠ comma := by
      rintro rfl
      apply hcomma
      simp
    have hne : w ≠ leftParen := fun he => hleft (he ▸ hmem)
    rcases between_cases hw (htext w hmem) with hspace | he | he
    · refine .left (x ++ d :: text) w y ⟨pre, post, ?_⟩ hspace ?_ ?_ ⟨⟨d, by simp, hd⟩, hy⟩
      · rw [hline]
        simp
      · intro hx
        apply hcomma
        simp only [List.mem_append, List.mem_cons] at hx ⊢
        tauto
      · intro hx
        apply hcomma
        simp [hx]
    · exact absurd he hne
    · have hbehind : line = (pre ++ x ++ d :: text) ++ w :: leftParen :: (y ++ post) := by
        rw [hline]
        simp
      exact (not_left_behind h hbehind (.inr he)).elim

/-- A right parenthesis between two texts has white space or punctuation behind it, if it is the
last parenthesis there. -/
theorem hidden_right (h : Acceptable before line) {pre x y post back : List UInt8}
    (hline : line = pre ++ (x ++ d :: (text ++ rightParen :: (back ++ e :: y))) ++ post)
    (hd : textual d = true) (he : textual e = true)
    (hback : ∀ c ∈ back, isspace c = true)
    (hcomma : comma ∉ x ++ d :: (text ++ rightParen :: (back ++ e :: y))) : Hidden line := by
  have hfront : comma ∉ x ++ d :: text := by
    intro hx
    apply hcomma
    simp only [List.mem_append, List.mem_cons] at hx ⊢
    tauto
  have hrest : comma ∉ back ++ e :: y := by
    intro hx
    apply hcomma
    simp only [List.mem_append, List.mem_cons] at hx ⊢
    tauto
  have htext : HasText (x ++ d :: text) := ⟨d, by simp, hd⟩
  cases back with
  | cons w back =>
      have hspace := hback w List.mem_cons_self
      refine .right (x ++ d :: text) w (back ++ e :: y) ⟨pre, post, ?_⟩ (.inl hspace) hfront hrest
        ⟨htext, ⟨e, by simp, he⟩⟩
      rw [hline]
      simp
  | nil =>
      have hbehind : line = (pre ++ x ++ d :: text ++ [rightParen]) ++ e :: (y ++ post) := by
        rw [hline]
        simp
      rcases text_class he (h.placed_at hbehind).2 with hpunct | halnum
      · refine .right (x ++ d :: text) e y ⟨pre, post, ?_⟩ (.inr hpunct) hfront hrest
          ⟨htext, ⟨e, List.mem_cons_self, he⟩⟩
        rw [hline]
        simp
      · have hother : ∃ c ∈ d :: text, c ≠ rightParen := by
          refine ⟨d, List.mem_cons_self, ?_⟩
          rintro rfl
          cases hd
        have hnone : comma ∉ d :: text := fun hx => hfront (List.mem_append_right x hx)
        exact (not_word_behind h hbehind halnum hother hnone).elim

section Between
variable {pre post x middle y : List UInt8}

/-- There is no text between the two characters, but a left parenthesis. -/
theorem joined_left (h : Acceptable before line)
    (hall : line = pre ++ (x ++ d :: (middle ++ e :: y)) ++ post) (hd : textual d = true)
    (he : textual e = true) (hmiddle : ∀ c ∈ middle, textual c = false)
    (hcomma : comma ∉ x ++ d :: (middle ++ e :: y)) (hleft : leftParen ∈ middle) :
    Hidden line := by
  rcases List.eq_append_cons_of_mem hleft with ⟨front, back, rfl, hfirst⟩
  have hsplit : line = pre ++ (x ++ d :: (front ++ leftParen :: (back ++ e :: y))) ++ post := by
    rw [hall]
    simp
  have hnone : comma ∉ x ++ d :: (front ++ leftParen :: (back ++ e :: y)) := by
    simpa using hcomma
  have hfront : ∀ c ∈ front, textual c = false :=
    fun c hc => hmiddle c (List.mem_append_left _ hc)
  exact hidden_left h hsplit hd hfront hfirst hnone ⟨e, by simp, he⟩

/-- There is no text between them, and no left parenthesis, but a right one. -/
theorem joined_right (h : Acceptable before line)
    (hall : line = pre ++ (x ++ d :: (middle ++ e :: y)) ++ post) (hd : textual d = true)
    (he : textual e = true) (hmiddle : ∀ c ∈ middle, textual c = false)
    (hcomma : comma ∉ x ++ d :: (middle ++ e :: y)) (hleft : leftParen ∉ middle)
    (hright : rightParen ∈ middle) : Hidden line := by
  have hsome : ∃ c ∈ middle, (fun c => decide (c = rightParen)) c = true :=
    ⟨rightParen, hright, decide_eq_true rfl⟩
  rcases split_last hsome with ⟨front, q, back, rfl, hq, hlast⟩
  have hqright : q = rightParen := of_decide_eq_true hq
  subst hqright
  have hsplit : line = pre ++ (x ++ d :: (front ++ rightParen :: (back ++ e :: y))) ++ post := by
    rw [hall]
    simp
  have hnone : comma ∉ x ++ d :: (front ++ rightParen :: (back ++ e :: y)) := by
    simpa using hcomma
  have hback : ∀ c ∈ back, isspace c = true := by
    intro c hc
    have hin : c ∈ front ++ rightParen :: back := by simp [hc]
    have hne : c ≠ comma := by
      rintro rfl
      apply hcomma
      simp [hc]
    rcases between_cases hne (hmiddle c hin) with hspace | he' | he'
    · exact hspace
    · exact absurd (he' ▸ hin) hleft
    · exact absurd he' (of_decide_eq_false (hlast c hc))
  exact hidden_right h hsplit hd he hback hnone

end Between

/-- Text on both sides of a parenthesis is not rejected only where the parenthesis is hidden. -/
theorem hidden_of_joined (h : Acceptable before line) {x y : List UInt8} {p : UInt8}
    (hpart : x ++ p :: y <:+: line) (hp : isParen p) (hx : comma ∉ x) (hy : comma ∉ y)
    (htext : HasText x ∧ HasText y) : Hidden line := by
  rcases hpart with ⟨pre, post, hline⟩
  rcases split_last htext.1 with ⟨x, d, x', rfl, hd, hx'⟩
  rcases split_first htext.2 with ⟨y', e, y, rfl, he, hy'⟩
  have hpc : p ≠ comma := by
    rcases hp with rfl | rfl
    · decide
    · decide
  have hmiddle : ∀ c ∈ x' ++ p :: y', textual c = false := by
    intro c hc
    rcases List.mem_append.mp hc with hc | hc
    · exact hx' c hc
    · rcases List.mem_cons.mp hc with rfl | hc
      · exact untextual_paren hp
      · exact hy' c hc
  have hcomma : comma ∉ x ++ d :: ((x' ++ p :: y') ++ e :: y) := by
    have hne := hpc.symm
    simp only [List.mem_append, List.mem_cons, not_or] at hx hy ⊢
    tauto
  have hall : line = pre ++ (x ++ d :: ((x' ++ p :: y') ++ e :: y)) ++ post := by
    rw [← hline]
    simp
  have hmem : p ∈ x' ++ p :: y' := by simp
  generalize hm : x' ++ p :: y' = middle at hmiddle hcomma hall hmem
  by_cases hleft : leftParen ∈ middle
  · exact joined_left h hall hd he hmiddle hcomma hleft
  · apply joined_right h hall hd he hmiddle hcomma hleft
    rcases hp with rfl | rfl
    · exact absurd hmem hleft
    · exact hmem

/-! ## The commands -/

theorem inked_append (l l' : List UInt8) : inked (l ++ l') = inked l ++ inked l' :=
  List.filter_append ..

/-- The text has the characters of a part of the line without commas. -/
def FromPart (line text : List UInt8) : Prop :=
  ∃ part, part <:+: line ∧ comma ∉ part ∧ inked text = part.filter textual

theorem FromPart.append {line' : List UInt8} (h : FromPart line text) :
    FromPart (line ++ line') text := by
  rcases h with ⟨part, hpart, hcomma, htext⟩
  exact ⟨part, hpart.trans (List.prefix_append line line').isInfix, hcomma, htext⟩

/-- The calls so far pass parts of the text, and the token is that behind the last comma. -/
structure Parts (r : Reader) : Prop where
  calls : ∀ node ∈ r.calls, FromPart r.text node.command
  token : ∃ part, part <:+ r.text ∧ comma ∉ part ∧ inked r.token = part.filter textual

theorem Parts.grows (h : Parts r) (hc : c ≠ comma) {added : List UInt8}
    (hadded : inked added = [c].filter textual) :
    Parts { r with text := r.text ++ [c], token := r.token ++ added } := by
  rcases h.token with ⟨part, ⟨front, hpart⟩, hcomma, htoken⟩
  refine ⟨fun node hnode => (h.calls node hnode).append, part ++ [c], ⟨front, ?_⟩, ?_, ?_⟩
  · rw [← hpart, List.append_assoc]
  · rw [List.mem_append, List.mem_singleton, not_or]
    exact ⟨hcomma, hc.symm⟩
  · rw [inked_append, htoken, hadded, List.filter_append]

theorem Parts.stays (h : Parts r) (hc : c ≠ comma) (htext : textual c = false) :
    Parts { r with text := r.text ++ [c] } := by
  have hnone : inked [] = [c].filter textual := by simp [inked, htext]
  have hgrown := h.grows hc hnone
  rw [List.append_nil] at hgrown
  exact hgrown

theorem Parts.step (h : Parts r) (before : List UInt8) (c : UInt8) : Parts (r.step before c) := by
  rcases textual_cases c with hspace | rfl | rfl | rfl | htext
  · rcases textual_of_isspace hspace with ⟨hcomma, htext⟩
    by_cases hdrop : dropsSpace (lastClass r.text)
    · rw [step_drop before hspace hdrop]
      exact h.stays hcomma htext
    · have hblank : inked [blank] = [c].filter textual := by simp [inked, htext, isspace, blank]
      rw [step_blank before hspace hdrop]
      exact h.grows hcomma hblank
  · rw [step_comma]
    rcases h.token with ⟨part, hpart, hcomma, htoken⟩
    constructor
    · intro node hnode
      rcases List.mem_append.mp hnode with hnode | hnode
      · exact (h.calls node hnode).append
      · rw [List.mem_singleton.mp hnode]
        exact FromPart.append ⟨part, hpart.isInfix, hcomma, htoken⟩
    · exact ⟨[], List.nil_suffix, List.not_mem_nil, rfl⟩
  · rw [step_left]
    rcases h.stays (c := leftParen) (by decide) rfl with ⟨hcalls, htoken⟩
    exact ⟨hcalls, htoken⟩
  · rw [step_right]
    exact h.stays (by decide) rfl
  · have hkept : inked [c] = [c].filter textual := by
      have hspace : isspace c = false := by
        simp only [textual, Bool.and_eq_true, Bool.not_eq_true'] at htext
        exact htext.1.1.1
      simp [inked, htext, hspace]
    rw [step_textual before htext]
    exact h.grows (textual_facts htext).2 hkept

theorem parts_readOf (before text : List UInt8) : Parts (readOf before text) := by
  induction text using List.reverseRecOn with
  | nil =>
      constructor
      · exact fun node hnode => absurd hnode List.not_mem_nil
      · exact ⟨[], List.nil_suffix, List.not_mem_nil, rfl⟩
  | append_singleton text c ih =>
      rw [readOf_concat]
      exact ih.step before c

theorem filter_untextual (h : ∀ c ∈ text, textual c = false) : text.filter textual = [] := by
  rw [List.filter_eq_nil_iff]
  intro c hc
  rw [h c hc]
  exact Bool.false_ne_true

/-- Without commas and parentheses all but the white space is text. -/
theorem inked_plain (h : ∀ c ∈ text, c ≠ comma ∧ ¬ isParen c) :
    inked text = text.filter textual := by
  apply List.filter_congr
  intro c hc
  rcases h c hc with ⟨hne, hparen⟩
  have hcomma : (c != comma) = true := bne_iff_ne.mpr hne
  have hleft : (c != leftParen) = true := bne_iff_ne.mpr fun he => hparen (.inl he)
  have hright : (c != rightParen) = true := bne_iff_ne.mpr fun he => hparen (.inr he)
  simp only [textual, hcomma, hleft, hright, Bool.and_true]

/-- From the first text of a part to its last there is no parenthesis. -/
theorem no_paren_inside {inner rest back : List UInt8} (he : d :: rest = inner ++ e :: back)
    (hd : textual d = true) (hlast : textual e = true)
    (hpart : front ++ (inner ++ e :: back) <:+: line) (hcomma : comma ∉ front ++ (inner ++ e :: back))
    (h : ∀ x p y, x ++ p :: y <:+: line → isParen p → comma ∉ x → comma ∉ y →
      ¬ (HasText x ∧ HasText y)) :
    ∀ c ∈ inner ++ [e], ¬ isParen c := by
  intro c hc hparen
  have hnot := untextual_paren hparen
  rcases List.mem_append.mp hc with hin | hlastc
  · rcases List.append_of_mem hin with ⟨u, v, rfl⟩
    cases u with
    | nil =>
        cases he
        rw [hd] at hnot
        cases hnot
    | cons first u =>
        have hfirst : first = d := (List.cons.inj he).1.symm
        subst hfirst
        have hboth : (front ++ first :: u) ++ c :: (v ++ e :: back) =
            front ++ (first :: u ++ c :: v ++ e :: back) := by simp
        rw [← hboth] at hpart hcomma
        rw [List.mem_append, List.mem_cons, not_or, not_or] at hcomma
        exact h _ c _ hpart hparen hcomma.1 hcomma.2.2
          ⟨⟨first, by simp, hd⟩, ⟨e, by simp, hlast⟩⟩
  · rw [List.mem_singleton.mp hlastc, hlast] at hnot
    cases hnot

/-- The text of a part in which no parenthesis is between two texts lies between two parentheses. -/
theorem part_whole {part : List UInt8} (hpart : part <:+: line) (hcomma : comma ∉ part)
    (h : ∀ x p y, x ++ p :: y <:+: line → isParen p → comma ∉ x → comma ∉ y →
      ¬ (HasText x ∧ HasText y)) :
    ∃ inner, inner <:+: line ∧ (∀ c ∈ inner, c ≠ comma ∧ ¬ isParen c) ∧
      inked inner = part.filter textual := by
  by_cases htext : HasText part
  · rcases split_first htext with ⟨front, d, rest, rfl, hd, hfront⟩
    have hrest : HasText (d :: rest) := ⟨d, List.mem_cons_self, hd⟩
    rcases split_last hrest with ⟨inner, e, back, he, hlast, hback⟩
    rw [he] at hpart hcomma ⊢
    have hparens := no_paren_inside he hd hlast hpart hcomma h
    have hwhole : front ++ (inner ++ e :: back) = front ++ (inner ++ [e]) ++ back := by simp
    rw [hwhole] at hpart hcomma ⊢
    have hplain : ∀ c ∈ inner ++ [e], c ≠ comma ∧ ¬ isParen c := by
      intro c hc
      refine ⟨?_, hparens c hc⟩
      rintro rfl
      exact hcomma (List.mem_append_left _ (List.mem_append_right _ hc))
    have hinner : inner ++ [e] <:+: front ++ (inner ++ [e]) ++ back := ⟨front, back, rfl⟩
    refine ⟨inner ++ [e], hinner.trans hpart, hplain, ?_⟩
    rw [inked_plain hplain, List.filter_append _ back, List.filter_append front,
      filter_untextual hfront, filter_untextual hback, List.nil_append, List.append_nil]
  · refine ⟨[], List.nil_infix, fun c hc => absurd hc List.not_mem_nil, ?_⟩
    symm
    rw [inked, List.filter_nil, List.filter_eq_nil_iff]
    exact fun c hc ht => htext ⟨c, hc, ht⟩

/-- The commands of an accepted line are not merged exactly if none of its parentheses between two
texts is hidden. -/
theorem unmerged_iff {before line : List UInt8} {stack : Stack} {out : Outcome}
    (h : Accepts before line stack out) : Unmerged line out.scan.queue.first ↔ ¬ Hidden line := by
  rcases h.acceptable with ⟨hline, hqueue⟩
  constructor
  · intro hunmerged hhidden
    cases hhidden with
    | left x w y hpart hw hx hy htext =>
        have hpart' : (x ++ [w]) ++ leftParen :: y <:+: line := by
          rw [List.append_assoc]
          exact hpart
        have hx' : comma ∉ x ++ [w] := by
          rw [List.mem_append, List.mem_singleton, not_or]
          refine ⟨hx, ?_⟩
          rintro rfl
          cases hw
        rcases htext.1 with ⟨d, hd, ht⟩
        exact hunmerged.apart _ _ _ hpart' (.inl rfl) hx' hy
          ⟨⟨d, List.mem_append_left _ hd, ht⟩, htext.2⟩
    | right x c y hpart hc hx hy htext =>
        exact hunmerged.apart _ _ _ hpart (.inr rfl) hx hy htext
  · intro hhidden
    have hapart : ∀ x p y, x ++ p :: y <:+: line → isParen p → comma ∉ x → comma ∉ y →
        ¬ (HasText x ∧ HasText y) :=
      fun x p y hpart hp hx hy htext => hhidden (hidden_of_joined hline hpart hp hx hy htext)
    constructor
    · intro node hnode
      have hcall : node ∈ (readOf before line).calls := by
        rw [hqueue] at hnode
        exact (stable_calls _).perm.mem_iff.mp hnode
      rcases (parts_readOf before line).calls node hcall with ⟨part, hpart, hcomma, htext⟩
      rw [readOf_text] at hpart
      rw [htext]
      exact part_whole hpart hcomma hapart
    · exact hapart

theorem adjacent_of_part {x y : List UInt8} (h : x ++ c :: d :: y <:+: line) :
    (c, d) ∈ line.zip line.tail := by
  rcases h with ⟨front, back, rfl⟩
  rw [List.append_assoc, List.append_assoc, ← List.append_assoc]
  generalize front ++ x = front'
  induction front' with
  | nil => simp
  | cons e rest ih =>
      cases rest with
      | nil => simp
      | cons e' rest' => exact List.mem_cons_of_mem _ ih

/-- The line `(a b,(c)),d,`: two groups, one in the other. -/
theorem unmerged_groups :
    ∃ out, Accepts [] [40, 97, 32, 98, 44, 40, 99, 41, 41, 44, 100, 44]
        ⟨.replicate MAXSIZE .null, 0⟩ out ∧
      out.scan.queue.first = [⟨[99], 253⟩, ⟨[97, 32, 98], 254⟩, ⟨[100], 255⟩] ∧
      Unmerged [40, 97, 32, 98, 44, 40, 99, 41, 41, 44, 100, 44] out.scan.queue.first := by
  have haccepts : ∃ out, Accepts [] [40, 97, 32, 98, 44, 40, 99, 41, 41, 44, 100, 44]
      ⟨.replicate MAXSIZE .null, 0⟩ out ∧
        out.scan.queue.first = [⟨[99], 253⟩, ⟨[97, 32, 98], 254⟩, ⟨[100], 255⟩] :=
    ⟨_, ⟨⟨13, rfl⟩, rfl, rfl, by decide⟩, rfl⟩
  rcases haccepts with ⟨out, h, hqueue⟩
  refine ⟨out, h, hqueue, (unmerged_iff h).mpr ?_⟩
  -- No blank is in front of a left parenthesis, and only `)` and `,` are behind right ones.
  have hleft : (List.zip [40, 97, 32, 98, 44, 40, 99, 41, 41, 44, 100, 44]
      [97, 32, 98, 44, 40, 99, 41, 41, 44, 100, 44]).all
        (fun q => q.2 != leftParen || !isspace q.1) = true := rfl
  have hright : (List.zip [40, 97, 32, 98, 44, 40, 99, 41, 41, 44, 100, 44]
      [97, 32, 98, 44, 40, 99, 41, 41, 44, 100, 44]).all
        (fun q => q.1 != rightParen || q.2 == rightParen || q.2 == comma) = true := rfl
  rw [List.all_eq_true] at hleft hright
  intro hhidden
  cases hhidden with
  | left x w y hpart hw _ _ _ =>
      have hadjacent := hleft _ (adjacent_of_part hpart)
      rw [hw] at hadjacent
      exact absurd hadjacent Bool.false_ne_true
  | right x c y hpart hc _ hy _ =>
      have hadjacent := hright _ (adjacent_of_part hpart)
      rw [Bool.or_eq_true, Bool.or_eq_true, beq_iff_eq, beq_iff_eq] at hadjacent
      rcases hadjacent with (hother | hparen) | hcomma
      · exact absurd hother Bool.false_ne_true
      · obtain rfl : c = rightParen := hparen
        rcases hc with hspace | hpunct
        · exact absurd hspace (by decide)
        · exact hpunct.2.2.2 rfl
      · exact hy (hcomma ▸ List.mem_cons_self)

/-- The line `a (b),` gives the command `a b`. -/
theorem unmerged_fails :
    ¬ ∀ (before line : List UInt8) (stack : Stack) (out : Outcome),
      Accepts before line stack out → ∀ node ∈ out.scan.queue.first, ∃ part, part <:+: line ∧
        (∀ c ∈ part, c ≠ comma ∧ ¬ isParen c) ∧ inked part = inked node.command := by
  intro h
  have haccepts : ∃ out, Accepts [] [97, 32, 40, 98, 41, 44] ⟨.replicate MAXSIZE .null, 0⟩ out ∧
      ⟨[97, 32, 98], 254⟩ ∈ out.scan.queue.first :=
    ⟨_, ⟨⟨7, rfl⟩, rfl, rfl, by decide⟩, List.mem_cons_self⟩
  rcases haccepts with ⟨out, haccepts, hmem⟩
  rcases h _ _ _ out haccepts _ hmem with ⟨part, ⟨front, back, hline⟩, hplain, hinked⟩
  have hpart : (List.drop front.length [97, 32, 40, 98, 41, 44]).take part.length = part := by
    rw [← hline]
    simp
  have hlength := congrArg List.length hline
  simp only [List.length_append, List.length_cons, List.length_nil] at hlength
  have hall : ∀ i ≤ 6, ∀ j ≤ 6,
      leftParen ∉ (List.drop i [97, 32, 40, 98, 41, 44]).take j →
      inked ((List.drop i [97, 32, 40, 98, 41, 44]).take j) ≠ inked [97, 32, 98] := by decide
  have hnone : leftParen ∉ part := fun hin => (hplain leftParen hin).2 (.inl rfl)
  rw [← hpart] at hnone hinked
  exact hall front.length (by omega) part.length (by omega) hnone hinked

end MinixOS.CommandMerging
