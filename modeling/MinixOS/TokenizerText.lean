import Mathlib.Data.List.Induction
import MinixOS.TokenizerConservation
import MinixOS.TokenizerTermination

/-!
# What an accepted line is taken for

While no character is out of place, the token, the priority and the calls of `qenqueue` depend
on the text read so far only, and on what is in memory in front of it if the line begins with a comma.
The line is accepted exactly if each of its characters may stand where it stands and no left
parenthesis is left over. The queue is then that of the calls.
-/
namespace MinixOS.TokenizerText
open LoopExecution CheckedExecution StableQueues CommandQueue Tokenizer TokenizerSteps
  TokenizerForest TokenizerConservation TokenizerRejection TokenizerReading TokenizerTermination

/-! ## Lists -/

section Lists
variable {A : Type*} {p : A → Bool} {l : List A}

theorem split_first (h : ∃ d ∈ l, p d = true) :
    ∃ front d back, l = front ++ d :: back ∧ p d = true ∧ ∀ e ∈ front, p e = false := by
  rcases h with ⟨a, ha, hp⟩
  rcases List.exists_of_eraseP ha hp with ⟨d, front, back, hfront, hd, rfl, _⟩
  exact ⟨front, d, back, rfl, hd, fun e he => by simpa using hfront e he⟩

theorem split_last (h : ∃ d ∈ l, p d = true) :
    ∃ front d back, l = front ++ d :: back ∧ p d = true ∧ ∀ e ∈ back, p e = false := by
  have hrev : ∃ d ∈ l.reverse, p d = true := by
    rcases h with ⟨d, hd, hp⟩
    exact ⟨d, List.mem_reverse.mpr hd, hp⟩
  rcases split_first hrev with ⟨front, d, back, hl, hd, hfront⟩
  refine ⟨back.reverse, d, front.reverse, ?_, hd, ?_⟩
  · have hl' := congrArg List.reverse hl
    simpa using hl'
  · exact fun e he => hfront e (List.mem_reverse.mp he)

end Lists

/-! ## Reading a text -/

/-- The text read, and what has become of it. -/
structure Reader where
  text : List UInt8
  token : List UInt8
  priority : ℤ
  calls : List QueueNode

/-- White space is dropped behind the start of the line, a comma and other white space. -/
def dropsSpace (state : CharState) : Prop := state = .comma ∨ state = .error ∨ state = .space

instance : DecidablePred dropsSpace := fun state =>
  inferInstanceAs (Decidable (state = .comma ∨ state = .error ∨ state = .space))

/-- How many right parentheses the text ends with, those in front of the line included if there is
nothing else in it. -/
def parensEnding (before text : List UInt8) : ℕ :=
  ((text.reverse ++ before).takeWhile fun c => c = rightParen).length

/-- One more character. -/
def Reader.step (before : List UInt8) (r : Reader) (c : UInt8) : Reader :=
  if isspace c then
    { r with
      text := r.text ++ [c]
      token := if dropsSpace (lastClass r.text) then r.token else r.token ++ [blank] }
  else if c = comma then
    { text := r.text ++ [c], token := [], priority := r.priority - parensEnding before r.text
      calls := r.calls ++ [⟨r.token, 255 - r.priority⟩] }
  else if c = leftParen then { r with text := r.text ++ [c], priority := r.priority + 1 }
  else if c = rightParen then { r with text := r.text ++ [c] }
  else { r with text := r.text ++ [c], token := r.token ++ [c] }

def readOf (before text : List UInt8) : Reader :=
  text.foldl (Reader.step before) { text := [], token := [], priority := 0, calls := [] }

variable {before argv text : List UInt8} {queue : Queue} {s t : Scan} {c : UInt8} {r : Reader}

theorem parensEnding_concat (before text : List UInt8) (c : UInt8) :
    parensEnding before (text ++ [c]) =
      if c = rightParen then parensEnding before text + 1 else 0 := by
  unfold parensEnding
  rw [List.reverse_append, List.reverse_singleton, List.singleton_append, List.cons_append,
    List.takeWhile_cons]
  by_cases hc : c = rightParen
  · rw [if_pos hc, if_pos (decide_eq_true hc), List.length_cons]
  · rw [if_neg hc, if_neg (by simpa using hc), List.length_nil]

theorem frontOfParens_concat (text : List UInt8) (c : UInt8) :
    frontOfParens (text ++ [c]) = if c = rightParen then frontOfParens text else some c := by
  unfold frontOfParens
  rw [List.reverse_append, List.reverse_singleton, List.singleton_append, List.dropWhile_cons]
  by_cases hc : c = rightParen
  · rw [if_pos hc, if_pos (decide_eq_true hc)]
  · rw [if_neg hc, if_neg (by simpa using hc)]
    rfl

theorem readOf_concat (before text : List UInt8) (c : UInt8) :
    readOf before (text ++ [c]) = (readOf before text).step before c := by
  simp [readOf]

section Steps

theorem step_drop (before : List UInt8) (hspace : isspace c = true)
    (hdrop : dropsSpace (lastClass r.text)) :
    r.step before c = { r with text := r.text ++ [c] } := by
  simp only [Reader.step, if_pos hspace, if_pos hdrop]

theorem step_blank (before : List UInt8) (hspace : isspace c = true)
    (hdrop : ¬ dropsSpace (lastClass r.text)) :
    r.step before c = { r with text := r.text ++ [c], token := r.token ++ [blank] } := by
  simp only [Reader.step, if_pos hspace, if_neg hdrop]

theorem step_comma (before : List UInt8) (r : Reader) :
    r.step before comma =
      { text := r.text ++ [comma], token := [], priority := r.priority - parensEnding before r.text
        calls := r.calls ++ [⟨r.token, 255 - r.priority⟩] } :=
  rfl

theorem step_left (before : List UInt8) (r : Reader) :
    r.step before leftParen =
      { r with text := r.text ++ [leftParen], priority := r.priority + 1 } :=
  rfl

theorem step_right (before : List UInt8) (r : Reader) :
    r.step before rightParen = { r with text := r.text ++ [rightParen] } :=
  rfl

/-- A character of the text of a command. -/
theorem step_textual (before : List UInt8) (h : textual c = true) :
    r.step before c = { r with text := r.text ++ [c], token := r.token ++ [c] } := by
  simp only [textual, Bool.and_eq_true, Bool.not_eq_true', bne_iff_ne] at h
  rcases h with ⟨⟨⟨hspace, hcomma⟩, hleft⟩, hright⟩
  simp only [Reader.step, hspace, if_neg hcomma, if_neg hleft, if_neg hright, Bool.false_eq_true,
    if_false]

theorem textual_cases (c : UInt8) :
    isspace c = true ∨ c = comma ∨ c = leftParen ∨ c = rightParen ∨ textual c = true := by
  by_cases hspace : isspace c = true
  · exact .inl hspace
  · by_cases hcomma : c = comma
    · exact .inr (.inl hcomma)
    · by_cases hleft : c = leftParen
      · exact .inr (.inr (.inl hleft))
      · by_cases hright : c = rightParen
        · exact .inr (.inr (.inr (.inl hright)))
        · simp [textual, hspace, hcomma, hleft, hright]

theorem step_text (before : List UInt8) (r : Reader) (c : UInt8) :
    (r.step before c).text = r.text ++ [c] := by
  unfold Reader.step
  split_ifs <;> rfl

end Steps

theorem readOf_text (before text : List UInt8) : (readOf before text).text = text := by
  induction text using List.reverseRecOn with
  | nil => rfl
  | append_singleton text c ih => rw [readOf_concat, step_text, ih]

/-! ## The loop reads the text -/

theorem skipParens_passes {front : List UInt8} {index : ℤ} {passes : ℕ} {stop : UInt8}
    (h : skipParens index front = .ok (passes, stop)) :
    passes = (front.takeWhile fun c => c = rightParen).length := by
  induction front generalizing index passes with
  | nil => cases h
  | cons d front ih =>
      unfold skipParens at h
      split_ifs at h with hd
      · rcases bind_eq_ok.mp h with ⟨⟨passes', stop'⟩, hskip, h⟩
        cases h
        rw [List.takeWhile_cons, if_pos (decide_eq_true hd), List.length_cons, ih hskip]
      · cases h
        rw [List.takeWhile_cons, if_neg (by simpa using hd)]
        rfl

/-- The loop variables are those of the text. -/
structure Agrees (argv : List UInt8) (queue : Queue) (r : Reader) (s : Scan) : Prop where
  text : r.text = argv.take s.i
  state : s.state = lastClass (argv.take s.i)
  token : s.token = r.token
  priority : s.priority = r.priority
  queue : s.queue = enqueueCalls r.calls queue

theorem Agrees.step (h : Agrees argv queue r s) (hc : argv[s.i]? = some c)
    (hclass : ¬ noClass c) (htakes : Takes before argv c s t) (hi : t.i = s.i + 1)
    (hstate : t.state = classOf c) : Agrees argv queue (r.step before c) t := by
  have htake := (take_next hc).2
  have htext : (r.step before c).text = argv.take t.i := by
    rw [step_text, h.text, hi, htake]
  have hlast : t.state = lastClass (argv.take t.i) := by
    rw [hi, htake, lastClass_concat, hstate]
  have hbefore := h.state
  rw [← h.text] at hbefore
  cases htakes with
  | skip hspace hs =>
      rw [hbefore] at hs
      rw [step_drop before hspace hs] at htext ⊢
      exact ⟨htext, hlast, h.token, h.priority, h.queue⟩
  | blank hspace hs =>
      rw [hbefore] at hs
      rw [step_blank before hspace hs] at htext ⊢
      exact ⟨htext, hlast, congrArg (· ++ [Tokenizer.blank]) h.token, h.priority, h.queue⟩
  | comma he hskip =>
      subst he
      unfold parensBehind behind at hskip
      have hpasses := skipParens_passes hskip
      rw [step_comma] at htext ⊢
      refine ⟨htext, hlast, rfl, ?_, ?_⟩
      · dsimp only
        rw [hpasses, h.priority, h.text]
        rfl
      · dsimp only
        rw [h.queue, h.token, h.priority]
        simp [enqueueCalls]
  | left he _ _ =>
      subst he
      rw [step_left] at htext ⊢
      exact ⟨htext, hlast, h.token, congrArg (· + 1) h.priority, h.queue⟩
  | right he _ _ =>
      subst he
      rw [step_right] at htext ⊢
      exact ⟨htext, hlast, h.token, h.priority, h.queue⟩
  | punct hpunct =>
      rw [step_textual before (textual_of_plainPunct hpunct)] at htext ⊢
      exact ⟨htext, hlast, congrArg (· ++ [c]) h.token, h.priority, h.queue⟩
  | alnum halnum _ =>
      rw [step_textual before (textual_of_isalnum halnum)] at htext ⊢
      exact ⟨htext, hlast, congrArg (· ++ [c]) h.token, h.priority, h.queue⟩
  | noClass hnone _ => exact absurd hnone hclass

/-! ## The invariant -/

def stackFull : Output := .printf "Error: Stack is full.\n"

/-- The text in front of `argv[i]` was read, and nothing but a full stack was reported. -/
structure ReadUp (before argv : List UInt8) (queue : Queue) (s : Scan) : Prop where
  scanned : Scanned argv s
  classed : ∀ c ∈ argv.take s.i, ¬ noClass c
  agrees : Agrees argv queue (readOf before (argv.take s.i)) s
  quiet : ∀ e ∈ s.log, e = stackFull

theorem push_printed {paren : UInt8} {stack stack' : Stack} {printed : List Output}
    (h : spush paren stack = .ok (stack', printed)) : ∀ e ∈ printed, e = stackFull := by
  unfold spush at h
  split_ifs at h
  · cases h
    exact fun e he => List.mem_singleton.mp he
  · rcases bind_eq_ok.mp h with ⟨stackmem, _, h⟩
    cases h
    exact fun e he => absurd he List.not_mem_nil

theorem takes_quiet (h : ∀ e ∈ s.log, e = stackFull) (htakes : Takes before argv c s t) :
    ∀ e ∈ t.log, e = stackFull := by
  cases htakes with
  | left _ _ hpush =>
      intro e he
      rcases List.mem_append.mp he with he | he
      · exact h e he
      · exact push_printed hpush e he
  | _ => exact h

theorem ReadUp.next (h : ReadUp before argv queue s) (hc : argv[s.i]? = some c)
    (hclass : ¬ noClass c) (htakes : Takes before argv c s t) :
    t.i = s.i + 1 ∧ ReadUp before argv queue t := by
  have htake := (take_next hc).2
  rcases h.scanned.next hc hclass htakes with ⟨hi, hscanned⟩
  have hstate := (takes_steps htakes hclass h.scanned.level).2.1
  refine ⟨hi, hscanned, ?_, ?_, takes_quiet h.quiet htakes⟩
  · rw [hi, htake]
    intro d hd
    rcases List.mem_append.mp hd with hd | hd
    · exact h.classed d hd
    · rw [List.mem_singleton.mp hd]
      exact hclass
  · have hstep := h.agrees.step hc hclass htakes hi hstate
    rw [hi, htake, readOf_concat]
    exact hstep

theorem readUp_initial (before argv : List UInt8) (stack : Stack) (queue : Queue) :
    ReadUp before argv queue (Scan.initial (screate stack) queue) := by
  refine ⟨scanned_initial argv stack queue, ?_, ⟨rfl, rfl, rfl, rfl, rfl⟩, ?_⟩
  · exact fun c hc => absurd hc List.not_mem_nil
  · exact fun e he => absurd he List.not_mem_nil

/-- A character of no class leaves everything as it is. -/
theorem ReadUp.again (h : ReadUp before argv queue s) (hp : scanPass before argv s = .again t) :
    ReadUp before argv queue t := by
  rcases again_cases h.scanned.valid hp with ⟨c, hc, htakes⟩
  by_cases hclass : noClass c
  · rw [(takes_noClass htakes hclass).1]
    exact h
  · exact (h.next hc hclass htakes).2

theorem readUp_of_walks (h : ReadUp before argv queue s)
    (hw : Walks (scanPass before argv) s t) : ReadUp before argv queue t := by
  induction hw with
  | refl s => exact h
  | pass hp _ ih => exact ih (h.again hp)

/-- Up to the first character that is out of place or of no class the text is read. -/
theorem walks_to (hread : Readable before argv) (stack : Stack) (queue : Queue) {i : ℕ}
    (hi : i ≤ argv.length)
    (hplaced : ∀ j c, j < i → argv[j]? = some c → ¬ Misplaced (argv.take j) c ∧ ¬ noClass c) :
    ∃ s, Walks (scanPass before argv) (Scan.initial (screate stack) queue) s ∧
      ReadUp before argv queue s ∧ s.i = i := by
  induction i with
  | zero => exact ⟨_, .refl _, readUp_initial before argv stack queue, rfl⟩
  | succ i ih =>
      rcases ih (Nat.le_of_succ_le hi) fun j c hj => hplaced j c (Nat.lt_succ_of_lt hj) with
        ⟨s, hwalks, hs, rfl⟩
      have hc : argv[s.i]? = some argv[s.i] := List.getElem?_eq_getElem hi
      rcases hplaced s.i _ (Nat.lt_succ_self _) hc with ⟨hplace, hclass⟩
      cases hs.scanned.passes hread hc with
      | rejects hmisplaced _ _ _ _ => exact absurd hmisplaced hplace
      | hangs _ hnone _ => exact absurd hnone hclass
      | takes _ _ t hp hi _ => exact ⟨t, hwalks.trans (.one hp), hs.again hp, hi⟩

/-! ## The call -/

/-- How a call that returns leaves the loop. -/
theorem returned {fuel : ℕ} {stack : Stack} {out : Outcome}
    (h : tokenizer fuel before argv (screate stack) queue = .ok out) :
    ∃ s t, Walks (scanPass before argv) (Scan.initial (screate stack) queue) s ∧
      ReadUp before argv queue s ∧ scanPass before argv s = .leave (.ok t) ∧
      ∃ stack' popparen, spop t.stack = .ok (stack', popparen) ∧
        out.scan = { t with
          stack := stack'
          log := if popparen ≠ .null ∨ t.state = .error then t.log ++ [unmatchedLeft] else t.log } := by
  unfold tokenizer at h
  rcases bind_eq_ok.mp h with ⟨t, hloop, h⟩
  rcases bind_eq_ok.mp h with ⟨⟨stack', popparen⟩, hpop, h⟩
  cases h
  rcases (leaves_of_loop hloop).reached with ⟨s, hwalks, hleave⟩
  have hs := readUp_of_walks (readUp_initial before argv stack queue) hwalks
  exact ⟨s, t, hwalks, hs, hleave, stack', popparen, hpop, rfl⟩

theorem readable_of_returns {fuel : ℕ} {stack : Stack} {out : Outcome}
    (h : tokenizer fuel before argv (screate stack) queue = .ok out) : Readable before argv := by
  by_contra hread
  unfold tokenizer at h
  rcases bind_eq_ok.mp h with ⟨t, hloop, _⟩
  rcases not_readable_stops hread stack queue with ⟨stop, hp⟩
  cases (leaves_of_loop hloop).unique ((Walks.refl _).leaves hp)

theorem tokenizer_unique {fuel fuel' : ℕ} {stack : Stack} {out out' : Outcome}
    (h : tokenizer fuel before argv stack queue = .ok out)
    (h' : tokenizer fuel' before argv stack queue = .ok out') : out = out' := by
  unfold tokenizer at h h'
  rcases bind_eq_ok.mp h with ⟨t, hloop, h⟩
  rcases bind_eq_ok.mp h' with ⟨t', hloop', h'⟩
  cases (leaves_of_loop hloop).unique (leaves_of_loop hloop')
  exact Except.ok.inj (h.symm.trans h')

/-- The last check of the stack. -/
theorem popped_null {level : ℕ} {stack stack' : Stack} {popparen : Pointer}
    (h : Level level stack) (hpop : spop stack = .ok (stack', popparen)) :
    popparen = .null ↔ level = 0 := by
  rcases pop_level h hpop with ⟨hzero, hnull, _⟩ | ⟨hpos, hparen, _⟩
  · exact iff_of_true hnull hzero
  · refine iff_of_false ?_ hpos.ne'
    rw [hparen]
    exact Pointer.noConfusion

/-! ## Accepted lines -/

/-- The line is processed to its end with `inputvalidity` still true, and without the message
of the last check. -/
structure Accepts (before argv : List UInt8) (stack : Stack) (out : Outcome) : Prop where
  returns : ∃ fuel, tokenizer fuel before argv (screate stack) qcreate = .ok out
  finished : out.scan.i = argv.length
  valid : out.scan.inputvalidity = true
  matched : unmatchedLeft ∉ out.scan.log

/-- Every character may stand where it stands, and the parentheses are matched. -/
structure Acceptable (before argv : List UInt8) : Prop where
  nonempty : argv ≠ []
  readable : Readable before argv
  placed : ∀ i c, argv[i]? = some c → ¬ Misplaced (argv.take i) c ∧ ¬ noClass c
  matched : openParens argv = 0

theorem Acceptable.placed_at (h : Acceptable before argv) {front back : List UInt8}
    (hargv : argv = front ++ c :: back) : ¬ Misplaced front c ∧ ¬ noClass c := by
  have hget : argv[front.length]? = some c := by
    rw [hargv]
    simp
  have htake : argv.take front.length = front := by
    rw [hargv, List.take_left]
  have hplaced := h.placed front.length c hget
  rw [htake] at hplaced
  exact hplaced

theorem stackFull_ne : stackFull ≠ unmatchedLeft := by
  decide

/-- Behind the last character the loop is left as it is. -/
theorem leave_end (hi : s.i = argv.length) : scanPass before argv s = .leave (.ok s) := by
  have hc : argv[s.i]? = none := List.getElem?_eq_none (by omega)
  simp only [scanPass, hc]

/-- A line that is left at its end and valid was read to its end. -/
theorem ReadUp.at_end (h : ReadUp before argv queue s)
    (hp : scanPass before argv s = .leave (.ok t)) (hi : t.i = argv.length)
    (hv : t.inputvalidity = true) : t = s := by
  rcases leave_cases h.scanned.valid hp with ⟨_, he⟩ | ⟨c, hc, hrejects⟩
  · exact he
  · have hlt := (take_next hc).1
    cases hrejects with
    | left _ _ _ => cases hv
    | right _ _ _ => cases hv
    | unmatched _ _ _ => cases hv
    | word _ _ _ _ => cases hv
    | noClass _ _ => exact absurd hi hlt.ne

theorem Accepts.acceptable {stack : Stack} {out : Outcome} (h : Accepts before argv stack out) :
    Acceptable before argv ∧
      out.scan.queue = enqueueCalls (readOf before argv).calls qcreate := by
  rcases h.returns with ⟨fuel, hreturn⟩
  rcases returned hreturn with ⟨s, t, _, hs, hleave, stack', popparen, hpop, hout⟩
  have hfinished := h.finished
  have hvalid := h.valid
  have hmatched := h.matched
  rw [hout] at hfinished hvalid hmatched
  dsimp only at hfinished hvalid
  have hend := hs.at_end hleave hfinished hvalid
  subst hend
  have hall : argv.take t.i = argv := by
    rw [hfinished]
    exact List.take_length
  have hchecked : ¬ (popparen ≠ .null ∨ t.state = .error) := by
    intro hbad
    apply hmatched
    dsimp only
    rw [if_pos hbad]
    exact List.mem_append_right _ (List.mem_singleton.mpr rfl)
  rw [not_or, not_not] at hchecked
  have hlevel := hs.scanned.level
  have hagrees := hs.agrees
  rw [hall] at hlevel hagrees
  constructor
  · constructor
    · intro hnil
      apply hchecked.2
      rw [hagrees.state, hall, hnil]
      rfl
    · exact readable_of_returns hreturn
    · intro i c hc
      have hlt := (List.getElem?_eq_some_iff.mp hc).choose
      have hmem := List.mem_of_getElem? hc
      rw [← hall] at hmem
      exact ⟨hs.scanned.placed i c (by omega) hc, hs.classed c hmem⟩
    · exact (popped_null hlevel hpop).mp hchecked.1
  · rw [hout]
    exact hagrees.queue

/-- Behind the last character the call returns, and the last check tells whether a left
parenthesis is left over. -/
theorem ReadUp.returns {stack : Stack} (h : ReadUp before argv queue s)
    (hwalks : Walks (scanPass before argv) (Scan.initial (screate stack) queue) s)
    (hi : s.i = argv.length) (hne : argv ≠ []) :
    ∃ fuel out, tokenizer fuel before argv (screate stack) queue = .ok out ∧
      out.scan.i = argv.length ∧ out.scan.inputvalidity = true ∧
      (unmatchedLeft ∈ out.scan.log ↔ openParens argv ≠ 0) := by
  rcases exists_loop_of_leaves (hwalks.leaves (leave_end hi)) with ⟨fuel, hloop⟩
  rcases pop_ok h.scanned.level with ⟨⟨stack', popparen⟩, hpop⟩
  have hall : argv.take s.i = argv := by
    rw [hi]
    exact List.take_length
  have hlevel := h.scanned.level
  have hstate := h.scanned.state
  rw [hall] at hlevel hstate
  have hknown : ¬ s.state = .error := by
    rw [hstate]
    exact mt lastClass_eq_error hne
  have hquiet : unmatchedLeft ∉ s.log := fun hmem => stackFull_ne (h.quiet _ hmem).symm
  refine ⟨fuel,
    { scan := { s with
        stack := stack'
        log := if popparen ≠ .null ∨ s.state = .error then s.log ++ [unmatchedLeft] else s.log }
      ret := firstelement s.queue }, ?_, hi, h.scanned.valid, ?_⟩
  · unfold tokenizer
    rw [hloop, ok_bind, hpop]
    rfl
  · have hleft := popped_null hlevel hpop
    dsimp only
    split_ifs with hbad
    · refine iff_of_true (List.mem_append_right _ (List.mem_singleton.mpr rfl)) ?_
      exact mt hleft.mpr (hbad.resolve_right hknown)
    · rw [not_or, not_not] at hbad
      exact iff_of_false hquiet (not_not_intro (hleft.mp hbad.1))

theorem Acceptable.accepts (h : Acceptable before argv) (stack : Stack) :
    ∃ out, Accepts before argv stack out := by
  rcases walks_to h.readable stack qcreate (Nat.le_refl _) fun i c _ => h.placed i c with
    ⟨s, hwalks, hs, hi⟩
  rcases hs.returns hwalks hi h.nonempty with ⟨fuel, out, hout, hfinished, hvalid, hmessage⟩
  refine ⟨out, ⟨fuel, hout⟩, hfinished, hvalid, ?_⟩
  intro hmem
  exact hmessage.mp hmem h.matched

/-! ## The queue -/

theorem enqueueCalls_concat (calls : List QueueNode) (node : QueueNode) (q : Queue) :
    enqueueCalls (calls ++ [node]) q =
      qenqueue node.command node.priority (enqueueCalls calls q) := by
  simp [enqueueCalls]

/-- The queue holds the calls in their stable order. -/
theorem stable_calls (calls : List QueueNode) :
    Stable QueueNode.priority calls (enqueueCalls calls qcreate).first := by
  induction calls using List.reverseRecOn with
  | nil => exact stable_nil
  | append_singleton calls node ih =>
      rw [enqueueCalls_concat, qenqueue_first]
      exact ih.insert node

end MinixOS.TokenizerText
