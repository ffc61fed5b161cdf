import MinixOS.CommandLine
import MinixOS.TokenizerBlocks
import MinixOS.TokenizerText
import MinixOS.WordSlots

/-!
# Commands typed on a line

Words of letters and digits with commas between them. Only text with a comma behind it becomes a
command, so that the last word is one only if `main` appends a comma. It looks at the last two
characters for that, and the second of them may be the comma in front of the last word. The words
are in the queue as far as their blocks have room for the terminators.
-/
namespace MinixOS.TypedCommands
open LoopExecution CheckedExecution StableQueues CommandQueue Tokenizer TokenizerSteps
  TokenizerConservation TokenizerRejection TokenizerReading TokenizerText ShellExecution
  CommandLine
open QueueBlocks hiding qcreate qenqueue qdequeue
open TokenizerBlocks hiding tokenizer Queues

/-- What the loop of `main` does up to the call of `qexecution`. -/
def enterLine (fuel : ℕ) (before stream : List UInt8) (command : Buffer) (stack : Stack) :
    Except Stop (List UInt8 × Buffer × Outcome) := do
  let (stream, command) ← readLine fuel before stream command
  let out ← tokenizer fuel before (textOf command.toList) (screate stack) qcreate
  return (stream, command, out)

variable {before line rest text : List UInt8} {command : Buffer} {stack : Stack} {c d : UInt8}

/-- The calls of the loop one after the other, for a line that fits the buffer. -/
theorem enterLine_comes (hline : newline ∉ line) (hfits : Fits line) (before rest : List UInt8)
    (command : Buffer) (stack : Stack) :
    ∃ command', Holds command' line ∧ ∀ result,
      ComesTo (fun fuel => enterLine fuel before (line ++ newline :: rest) command stack) result ↔
        ∃ closed out, appendComma before command' = .ok closed ∧
          ComesTo (fun fuel => tokenizer fuel before (textOf closed.toList) (screate stack) qcreate)
            out ∧ result = (rest, closed, out) := by
  rcases readCmdLine_comes hline rest command with ⟨s, ret, tail, hyields, hstream, htoList⟩
  rw [drop_line, if_pos hfits.1] at hstream
  rw [List.take_of_length_le hfits.1] at htoList
  refine ⟨s.command_line, ⟨hfits.2, tail, htoList⟩, fun result => ⟨?_, ?_⟩⟩
  · rintro ⟨enough, hresult⟩
    have hread : ∀ fuel, enough ≤ fuel →
        ∃ closed out, appendComma before s.command_line = .ok closed ∧
          tokenizer fuel before (textOf closed.toList) (screate stack) qcreate = .ok out ∧
          result = (rest, closed, out) := by
      intro fuel hle
      have hcall := hresult fuel hle
      unfold enterLine readLine at hcall
      rcases bind_eq_ok.mp hcall with ⟨⟨stream, closed⟩, hreading, hcall⟩
      rcases bind_eq_ok.mp hcall with ⟨out, htokens, hout⟩
      rcases bind_eq_ok.mp hreading with ⟨⟨s', ret'⟩, hline', hreading⟩
      rcases bind_eq_ok.mp hreading with ⟨closed', hclose, he⟩
      cases he
      cases hout
      rcases hyields.only fuel with hok | hnone
      · rw [hok] at hline'
        cases hline'
        exact ⟨closed, out, hclose, htokens, by rw [hstream]⟩
      · rw [hnone] at hline'
        cases hline'
    rcases hread enough (Nat.le_refl _) with ⟨closed, out, hclose, _, hpair⟩
    refine ⟨closed, out, hclose, ⟨enough, fun fuel hle => ?_⟩, hpair⟩
    rcases hread fuel hle with ⟨closed', out', hclose', htokens, hpair'⟩
    rw [hpair] at hpair'
    cases hpair'
    exact htokens
  · rintro ⟨closed, out, hclose, htokens, rfl⟩
    have hreading : ComesTo (fun fuel => readLine fuel before (line ++ newline :: rest) command)
        (rest, closed) := by
      refine hyields.comes.bind ⟨0, fun fuel _ => ?_⟩
      dsimp only
      rw [hclose, ok_bind, hstream]
      rfl
    refine hreading.bind ?_
    exact htokens.bind ⟨0, fun _ _ => rfl⟩

/-! ## Words and commas -/

/-- The words with a comma behind each of them. -/
def listed (words : List Word) : List UInt8 := words.flatMap fun w => w ++ [comma]

def IsWord (w : Word) : Prop := w ≠ [] ∧ ∀ c ∈ w, isalnum c = true

theorem isWord_of_all {w : Word} (hne : w ≠ []) (hall : w.all isalnum = true) : IsWord w :=
  ⟨hne, List.all_eq_true.mp hall⟩

theorem listed_concat (front : List Word) (w : Word) :
    listed (front ++ [w]) = listed front ++ w ++ [comma] := by
  simp [listed]

/-- Letters, digits and commas. -/
def Plain (text : List UInt8) : Prop := ∀ c ∈ text, isalnum c = true ∨ c = comma

theorem plain_listed {front : List Word} (hfront : ∀ w ∈ front, IsWord w) :
    Plain (listed front) := by
  intro c hc
  rcases List.mem_flatMap.mp hc with ⟨w, hw, hc⟩
  rcases List.mem_append.mp hc with hc | hc
  · exact .inl ((hfront w hw).2 c hc)
  · exact .inr (List.mem_singleton.mp hc)

theorem Plain.append {text' : List UInt8} (h : Plain text) (h' : Plain text') :
    Plain (text ++ text') := by
  intro c hc
  rcases List.mem_append.mp hc with hc | hc
  · exact h c hc
  · exact h' c hc

theorem IsWord.plain {w : Word} (h : IsWord w) : Plain w := fun c hc => .inl (h.2 c hc)

theorem IsWord.last {w : Word} (h : IsWord w) :
    ∃ front c, w = front ++ [c] ∧ isalnum c = true := by
  rcases List.eq_nil_or_concat w with rfl | ⟨front, c, rfl⟩
  · exact absurd rfl h.1
  · rw [List.concat_eq_append] at h ⊢
    exact ⟨front, c, rfl, h.2 c (List.mem_append_right _ (List.mem_singleton.mpr rfl))⟩

theorem Plain.no_rparen (h : Plain text) : lastClass text ≠ .rparen := by
  rcases List.eq_nil_or_concat text with rfl | ⟨front, c, rfl⟩
  · exact CharState.noConfusion
  · rw [List.concat_eq_append] at h ⊢
    rw [lastClass_concat]
    rcases h c (List.mem_append_right _ (List.mem_singleton.mpr rfl)) with halnum | rfl
    · rw [classOf_alnum halnum]
      exact CharState.noConfusion
    · decide

theorem Plain.openParens (h : Plain text) : openParens text = 0 := by
  induction text using List.reverseRecOn with
  | nil => rfl
  | append_singleton text c ih =>
      have hc := h c (List.mem_append_right _ (List.mem_singleton.mpr rfl))
      rw [openParens_concat, ih fun d hd => h d (List.mem_append_left _ hd)]
      rcases hc with halnum | rfl
      · rcases isalnum_facts halnum with ⟨_, _, _, hleft, hright, _⟩
        simp [parenStep, hleft, hright]
      · rfl

/-- Such a line is accepted if it begins with a letter or a digit. -/
theorem Plain.acceptable (h : Plain text) (hhead : ∃ c ∈ text.head?, isalnum c = true)
    (before : List UInt8) : Acceptable before text := by
  rcases hhead with ⟨first, hfirst, hword⟩
  constructor
  · rintro rfl
    cases hfirst
  · intro hcomma
    rw [hcomma] at hfirst
    cases hfirst
    cases hword
  · intro i c hc
    have hfront : Plain (text.take i) := fun d hd => h d (List.mem_of_mem_take hd)
    rcases h c (List.mem_of_getElem? hc) with halnum | rfl
    · rcases isalnum_facts halnum with ⟨_, _, _, hleft, hright, _⟩
      have hclass : ¬ noClass c := by
        intro hnone
        have hnot := hnone.2.2
        rw [halnum] at hnot
        cases hnot
      refine ⟨?_, hclass⟩
      intro hplace
      cases hplace with
      | left he _ => exact hleft he
      | right he _ => exact hright he
      | unmatched he _ => exact hright he
      | word _ hs _ => exact hfront.no_rparen hs
      | noClass hnone _ => exact hclass hnone
    · have hclass : ¬ noClass comma := fun hnone => absurd hnone.2.1 (by decide)
      refine ⟨?_, hclass⟩
      intro hplace
      cases hplace with
      | left he _ => exact absurd he (by decide)
      | right he _ => exact absurd he (by decide)
      | unmatched he _ => exact absurd he (by decide)
      | word halnum _ _ => exact absurd halnum (by decide)
      | noClass hnone _ => exact hclass hnone
  · exact h.openParens

/-! ## What becomes a command -/

def commandsOf (words : List Word) : List QueueNode := words.map fun w => ⟨w, 255⟩

theorem readOf_word (before text : List UInt8) {w : Word} (hw : ∀ c ∈ w, isalnum c = true) :
    readOf before (text ++ w) =
      { readOf before text with text := text ++ w, token := (readOf before text).token ++ w } := by
  induction w using List.reverseRecOn with
  | nil =>
      have htext := readOf_text before text
      simp only [List.append_nil]
      generalize readOf before text = r at htext ⊢
      subst htext
      rfl
  | append_singleton w c ih =>
      have hc := hw c (List.mem_append_right _ (List.mem_singleton.mpr rfl))
      rw [← List.append_assoc, readOf_concat, ih fun d hd => hw d (List.mem_append_left _ hd),
        step_textual before (textual_of_isalnum hc)]
      simp

/-- Behind each comma there is a new command of the one priority. -/
theorem readOf_listed (before : List UInt8) {front : List Word} (hfront : ∀ w ∈ front, IsWord w) :
    readOf before (listed front) = ⟨listed front, [], 0, commandsOf front⟩ := by
  induction front using List.reverseRecOn with
  | nil => rfl
  | append_singleton front w ih =>
      have hw := hfront w (List.mem_append_right _ (List.mem_singleton.mpr rfl))
      have hparens : parensEnding before (listed front ++ w) = 0 := by
        rcases hw.last with ⟨init, c, rfl, hc⟩
        rw [← List.append_assoc, parensEnding_concat]
        exact if_neg (isalnum_facts hc).2.2.2.2.1
      rw [listed_concat, readOf_concat, readOf_word before _ hw.2,
        ih fun v hv => hfront v (List.mem_append_left _ hv), step_comma]
      simp [hparens, commandsOf]

theorem stable_commandsOf (words : List Word) :
    Stable QueueNode.priority (commandsOf words) (commandsOf words) := by
  refine ⟨?_, fun _ => rfl⟩
  apply List.pairwise_of_forall_mem_list
  intro node hnode other hother
  rcases List.mem_map.mp hnode with ⟨w, _, rfl⟩
  rcases List.mem_map.mp hother with ⟨v, _, rfl⟩
  exact le_refl _

/-- The tokenizer queues the commands it has been passed. -/
theorem tokenizer_commands (h : Acceptable before text) {words : List Word}
    (hcalls : (readOf before text).calls = commandsOf words) (stack : Stack) :
    ∃ out, ComesTo (fun fuel => tokenizer fuel before text (screate stack) qcreate) out ∧
      out.scan.queue.first = commandsOf words := by
  rcases h.accepts stack with ⟨out, haccepts⟩
  rcases haccepts.returns with ⟨fuel, hreturns⟩
  refine ⟨out, ?_, ?_⟩
  · unfold tokenizer at hreturns ⊢
    rcases bind_eq_ok.mp hreturns with ⟨s, hloop, hrest⟩
    exact (comesTo_of_leaves (leaves_of_loop hloop)).bind ⟨0, fun _ _ => hrest⟩
  · rw [haccepts.acceptable.2, hcalls]
    have hqueue := stable_calls (commandsOf words)
    exact hqueue.unique (stable_commandsOf words)

/-! ## The last command -/

/-- The last word has two characters, or it is the line and there is no comma in memory in front
of it. -/
def LastTaken (before : List UInt8) (words : List Word) : Prop :=
  ∃ front last, words = front ++ [last] ∧
    (2 ≤ last.length ∨ front = [] ∧ ∃ d ∈ before.head?, d ≠ comma)

theorem lastTaken_concat (before : List UInt8) (front : List Word) (last : Word) :
    LastTaken before (front ++ [last]) ↔
      2 ≤ last.length ∨ front = [] ∧ ∃ d ∈ before.head?, d ≠ comma := by
  constructor
  · rintro ⟨front', last', hwords, h⟩
    rcases List.append_inj' hwords rfl with ⟨rfl, he⟩
    cases he
    exact h
  · exact fun h => ⟨front, last, rfl, h⟩

section Typed
variable {front : List Word} {last : Word}

theorem plain_typed (hfront : ∀ w ∈ front, IsWord w) (hlast : IsWord last) :
    Plain (listed front ++ last) :=
  (plain_listed hfront).append hlast.plain

theorem head_typed (hfront : ∀ w ∈ front, IsWord w) (hlast : IsWord last) (rest : List UInt8) :
    ∃ c ∈ (listed front ++ last ++ rest).head?, isalnum c = true := by
  cases front with
  | nil =>
      cases hchars : last with
      | nil => exact absurd hchars hlast.1
      | cons c chars => exact ⟨c, rfl, hlast.2 c (by simp [hchars])⟩
  | cons w front =>
      have hw := hfront w List.mem_cons_self
      cases hchars : w with
      | nil => exact absurd hchars hw.1
      | cons c chars => exact ⟨c, by simp [listed], hw.2 c (by simp [hchars])⟩

/-- With the comma behind the last word all the words are queued. -/
theorem tokenizer_closed (hfront : ∀ w ∈ front, IsWord w) (hlast : IsWord last)
    (before : List UInt8) (stack : Stack) :
    ∃ out, ComesTo (fun fuel => tokenizer fuel before (listed front ++ last ++ [comma])
        (screate stack) qcreate) out ∧
      out.scan.queue.first = commandsOf (front ++ [last]) := by
  have hall : ∀ w ∈ front ++ [last], IsWord w := by
    intro w hw
    rcases List.mem_append.mp hw with hw | hw
    · exact hfront w hw
    · rw [List.mem_singleton.mp hw]
      exact hlast
  rw [← listed_concat]
  have hhead := head_typed hfront hlast [comma]
  rw [← listed_concat] at hhead
  apply tokenizer_commands ((plain_listed hall).acceptable hhead before)
  rw [readOf_listed before hall]

/-- Without it the last word is not. -/
theorem tokenizer_unclosed (hfront : ∀ w ∈ front, IsWord w) (hlast : IsWord last)
    (before : List UInt8) (stack : Stack) :
    ∃ out, ComesTo (fun fuel => tokenizer fuel before (listed front ++ last)
        (screate stack) qcreate) out ∧
      out.scan.queue.first = commandsOf front := by
  have hhead := head_typed hfront hlast []
  rw [List.append_nil] at hhead
  apply tokenizer_commands ((plain_typed hfront hlast).acceptable hhead before)
  rw [readOf_word before _ hlast.2, readOf_listed before hfront]

theorem appendComma_closes (hlast : IsWord last)
    (hlength : (listed front ++ last).length + 1 < SIZE_BUF)
    (h : Holds command (listed front ++ last)) (htaken : LastTaken before (front ++ [last])) :
    ∃ closed, appendComma before command = .ok closed ∧
      Holds closed (listed front ++ last ++ [comma]) := by
  rcases hlast.last with ⟨chars, c, rfl, hc⟩
  have hcomma : c ≠ comma := (isalnum_facts hc).2.1
  rcases h.close hlength with ⟨closed, hclose, hholds⟩
  refine ⟨closed, ?_, hholds⟩
  rcases List.eq_nil_or_concat chars with rfl | ⟨chars, d, rfl⟩
  · rcases (lastTaken_concat before front _).mp htaken with hlong | ⟨rfl, d, hd, hne⟩
    · exact absurd hlong (by simp)
    · have hone : Holds command [c] := h
      rcases List.head?_eq_some_iff.mp hd with ⟨further, rfl⟩
      have hread : charAt (d :: further) command (-1) = .ok d := rfl
      rw [hone.append_one hcomma, hread, ok_bind, if_neg hne]
      exact hclose
  · rw [List.concat_eq_append] at h hclose hlast
    have hd : d ≠ comma := (isalnum_facts (hlast.2 d (by simp))).2.1
    have htwo : listed front ++ (chars ++ [d] ++ [c]) = (listed front ++ chars) ++ [d, c] := by simp
    rw [htwo] at h hclose
    rw [h.append_two hcomma, if_neg hd]
    exact hclose

theorem appendComma_leaves (hlast : IsWord last) (h : Holds command (listed front ++ last))
    (hnot : ¬ LastTaken before (front ++ [last])) {closed : Buffer}
    (happend : appendComma before command = .ok closed) : Holds closed (listed front ++ last) := by
  rcases hlast.last with ⟨chars, c, rfl, hc⟩
  have hcomma : c ≠ comma := (isalnum_facts hc).2.1
  rw [lastTaken_concat, not_or] at hnot
  have hnil : chars = [] := by
    have hlong := hnot.1
    rw [List.length_append, List.length_singleton] at hlong
    exact List.length_eq_zero_iff.mp (by omega)
  subst hnil
  rcases List.eq_nil_or_concat front with rfl | ⟨front, w, rfl⟩
  · have hone : Holds command [c] := h
    rw [hone.append_one hcomma] at happend
    cases before with
    | nil => cases happend
    | cons d before =>
        have hread : charAt (d :: before) command (-1) = .ok d := rfl
        have hd : d = comma := by
          by_contra hne
          exact hnot.2 ⟨rfl, d, rfl, hne⟩
        rw [hread, ok_bind, if_pos hd] at happend
        cases happend
        exact h
  · rw [List.concat_eq_append] at h ⊢
    have htwo : listed (front ++ [w]) ++ ([] ++ [c]) = (listed front ++ w) ++ [comma, c] := by
      rw [listed_concat]
      simp
    have hcommand := h
    rw [htwo] at hcommand
    rw [hcommand.append_two hcomma, if_pos rfl] at happend
    cases happend
    exact h

theorem fits_typed (hfront : ∀ w ∈ front, IsWord w) (hlast : IsWord last)
    (hlength : (listed front ++ last).length ≤ 509) :
    newline ∉ listed front ++ last ∧ Fits (listed front ++ last) := by
  have hnot : ∀ c, isalnum c = false → c ≠ comma → c ∉ listed front ++ last := by
    intro c halnum hcomma hc
    rcases plain_typed hfront hlast c hc with h | h
    · rw [halnum] at h
      cases h
    · exact hcomma h
  have hsize : SIZE_BUF = 512 := rfl
  exact ⟨hnot newline rfl (by decide), by omega, hnot 0 rfl (by decide)⟩

/-- The line is queued with its last word where the comma is appended. -/
theorem enterLine_closed (hfront : ∀ w ∈ front, IsWord w) (hlast : IsWord last)
    (hlength : (listed front ++ last).length ≤ 509) (rest : List UInt8) (command : Buffer)
    (stack : Stack) (htaken : LastTaken before (front ++ [last])) :
    ∃ result, ComesTo (fun fuel => enterLine fuel before
        (listed front ++ last ++ newline :: rest) command stack) result ∧
      result.2.2.scan.queue.first = commandsOf (front ++ [last]) := by
  have hsize : SIZE_BUF = 512 := rfl
  rcases fits_typed hfront hlast hlength with ⟨hline, hfits⟩
  rcases enterLine_comes hline hfits before rest command stack with ⟨command', hholds, hresult⟩
  rcases appendComma_closes hlast (by omega) hholds htaken with ⟨closed, hclose, hclosed⟩
  rcases tokenizer_closed hfront hlast before stack with ⟨out, hout, hqueue⟩
  rw [← hclosed.textOf_eq] at hout
  exact ⟨_, (hresult _).mpr ⟨closed, out, hclose, hout, rfl⟩, hqueue⟩

/-- Without the comma it is queued without that word. -/
theorem enterLine_unclosed (hfront : ∀ w ∈ front, IsWord w) (hlast : IsWord last)
    (hlength : (listed front ++ last).length ≤ 509)
    (hnot : ¬ LastTaken before (front ++ [last])) {result : List UInt8 × Buffer × Outcome}
    (hcomes : ComesTo (fun fuel => enterLine fuel before
        (listed front ++ last ++ newline :: rest) command stack) result) :
    result.2.2.scan.queue.first = commandsOf front := by
  rcases fits_typed hfront hlast hlength with ⟨hline, hfits⟩
  rcases enterLine_comes hline hfits before rest command stack with ⟨command', hholds, hresult⟩
  rcases (hresult result).mp hcomes with ⟨closed, out, hclose, hout, rfl⟩
  rcases tokenizer_unclosed hfront hlast before stack with ⟨out', hout', hqueue⟩
  rw [(appendComma_leaves hlast hholds hnot hclose).textOf_eq] at hout
  cases hout.unique hout'
  exact hqueue

end Typed

/-! ## The queue in memory -/

/-- The same with the blocks of the queue. -/
def enterBlocks (a : Allocator) (fuel : ℕ) (before stream : List UInt8) (command : Buffer)
    (stack : Stack) (q : BlockQueue) : Except Stop (List UInt8 × Buffer × Outcome × BlockQueue) := do
  let (stream, command) ← readLine fuel before stream command
  let (out, q) ← TokenizerBlocks.tokenizer a fuel before (textOf command.toList) (screate stack)
    (QueueBlocks.qcreate q)
  return (stream, command, out, q)

/-- The calls return with the blocks as well. -/
theorem enterBlocks_comes {stream : List UInt8} {result : List UInt8 × Buffer × Outcome}
    (a : Allocator) (q : BlockQueue)
    (h : ComesTo (fun fuel => enterLine fuel before stream command stack) result) :
    ∃ t, ComesTo (fun fuel => enterBlocks a fuel before stream command stack q)
        (result.1, result.2.1, result.2.2, TokenizerBlocks.called t) ∧
      t.arguments = result.2.2.scan.queue ∧ AllMade a t := by
  obtain ⟨enough, hcomes⟩ := h
  have hcalls : ∀ fuel, enough ≤ fuel →
      readLine fuel before stream command = .ok (result.1, result.2.1) ∧
        tokenizer fuel before (textOf result.2.1.toList) (screate stack) qcreate =
          .ok result.2.2 := by
    intro fuel hle
    have hcall := hcomes fuel hle
    unfold enterLine at hcall
    obtain ⟨⟨stream', command'⟩, hreading, hcall⟩ := bind_eq_ok.mp hcall
    obtain ⟨out, htokens, hout⟩ := bind_eq_ok.mp hcall
    cases hout
    exact ⟨hreading, htokens⟩
  have hreads : ComesTo (fun fuel => readLine fuel before stream command)
      (result.1, result.2.1) := ⟨enough, fun fuel hle => (hcalls fuel hle).1⟩
  have htokens : ComesTo (fun fuel => tokenizer fuel before (textOf result.2.1.toList)
      (screate stack) qcreate) result.2.2 := ⟨enough, fun fuel hle => (hcalls fuel hle).2⟩
  obtain ⟨t, ht, harguments, hmade⟩ := TokenizerBlocks.tokenizer_blocks a q htokens
  refine ⟨t, ?_, harguments, hmade⟩
  exact hreads.bind (ht.bind ⟨0, fun _ _ => rfl⟩)

/-- Without the blocks they return as well. -/
theorem enterLine_of_blocks {stream : List UInt8} {a : Allocator} {q : BlockQueue}
    {result : List UInt8 × Buffer × Outcome × BlockQueue}
    (h : ComesTo (fun fuel => enterBlocks a fuel before stream command stack q) result) :
    ComesTo (fun fuel => enterLine fuel before stream command stack)
      (result.1, result.2.1, result.2.2.1) := by
  obtain ⟨enough, hcomes⟩ := h
  refine ⟨enough, fun fuel hle => ?_⟩
  have hcall := hcomes fuel hle
  unfold enterBlocks at hcall
  obtain ⟨⟨stream', command'⟩, hreading, hcall⟩ := bind_eq_ok.mp hcall
  obtain ⟨⟨out, t⟩, hblocks, hout⟩ := bind_eq_ok.mp hcall
  cases hout
  unfold TokenizerBlocks.tokenizer at hblocks
  obtain ⟨out', htokens, hpair⟩ := bind_eq_ok.mp hblocks
  cases hpair
  have htokens' : tokenizer fuel before (textOf command'.toList) (screate stack) qcreate =
      .ok out := htokens
  unfold enterLine
  dsimp only
  rw [hreading, ok_bind]
  dsimp only
  rw [htokens', ok_bind]
  rfl

/-- The words are the queue. -/
def Queues (a : Allocator) (words : List Word) (before rest : List UInt8) (command : Buffer)
    (stack : Stack) (q : BlockQueue) : Prop :=
  ∃ result, ComesTo (fun fuel => enterBlocks a fuel before
      ([comma].intercalate words ++ newline :: rest) command stack q) result ∧
    result.2.2.2.strings a = words.map fun w => ⟨w, 255⟩

section Queues
variable {a : Allocator} {q : BlockQueue} {words : List Word}

theorem allRoom_commandsOf {room : ℕ → ℕ} :
    AllRoom room (commandsOf words) ↔ ∀ w ∈ words, HasRoom room w := by
  unfold AllRoom commandsOf
  rw [List.forall_mem_map]

/-- The words in front of the last one, and the line that they are typed on. -/
theorem exists_last (hne : words ≠ [])
    (hwords : ∀ w ∈ words, w ≠ [] ∧ ∀ c ∈ w, isalnum c = true) :
    ∃ front last, words = front ++ [last] ∧ (∀ w ∈ front, IsWord w) ∧ IsWord last ∧
      [comma].intercalate words = listed front ++ last := by
  rcases List.eq_nil_or_concat words with rfl | ⟨front, last, rfl⟩
  · exact absurd rfl hne
  rw [List.concat_eq_append] at hwords ⊢
  exact ⟨front, last, rfl, fun w hw => hwords w (List.mem_append_left _ hw),
    hwords last (List.mem_append_right _ (List.mem_singleton.mpr rfl)),
    WordSlots.intercalate_flatMap comma front last⟩

theorem queues_of_taken (hne : words ≠ [])
    (hwords : ∀ w ∈ words, w ≠ [] ∧ ∀ c ∈ w, isalnum c = true)
    (hlength : ([comma].intercalate words).length ≤ 509) (htaken : LastTaken before words)
    (hroom : ∀ w ∈ words, HasRoom a.room w) (rest : List UInt8) (command : Buffer)
    (stack : Stack) (q : BlockQueue) : Queues a words before rest command stack q := by
  obtain ⟨front, last, rfl, hfront, hlast, htyped⟩ := exists_last hne hwords
  rw [htyped] at hlength
  obtain ⟨result, hcomes, hqueue⟩ :=
    enterLine_closed hfront hlast hlength rest command stack htaken
  obtain ⟨t, ht, harguments, hmade⟩ := enterBlocks_comes a q hcomes
  rw [← htyped] at ht
  rw [← harguments] at hqueue
  refine ⟨_, ht, ?_⟩
  exact (strings_called hmade (hqueue ▸ allRoom_commandsOf.mpr hroom)).trans hqueue

/-- Without the last word the queue is shorter, and with all of them in the queue each is read there
only if its block has room. -/
theorem Queues.taken (hne : words ≠ [])
    (hwords : ∀ w ∈ words, w ≠ [] ∧ ∀ c ∈ w, isalnum c = true)
    (hlength : ([comma].intercalate words).length ≤ 509)
    (h : Queues a words before rest command stack q)
    (hbehind : ∀ time now, a.behind time now ≠ []) :
    LastTaken before words ∧ ∀ w ∈ words, HasRoom a.room w := by
  obtain ⟨front, last, rfl, hfront, hlast, htyped⟩ := exists_last hne hwords
  obtain ⟨result, hblocks, hstrings⟩ := h
  rw [htyped] at hlength hblocks
  have hcomes := enterLine_of_blocks hblocks
  obtain ⟨t, ht, harguments, hmade⟩ := enterBlocks_comes a q hcomes
  have hblocks_queue : result.2.2.2 = called t := congrArg (fun r => r.2.2.2) (hblocks.unique ht)
  rw [hblocks_queue] at hstrings
  have htaken : LastTaken before (front ++ [last]) := by
    by_contra hnot
    have hqueue := enterLine_unclosed hfront hlast hlength hnot hcomes
    rw [← harguments] at hqueue
    have hall : t.first.length = (front ++ [last]).length := by
      have hlengths := congrArg List.length hstrings
      unfold BlockQueue.strings at hlengths
      rw [List.length_map, List.length_map] at hlengths
      exact hlengths
    have hfewer : t.first.length = front.length := by
      have hlengths := congrArg List.length hqueue
      unfold BlockQueue.arguments commandsOf at hlengths
      rw [List.length_map, List.length_map] at hlengths
      exact hlengths
    rw [List.length_append, List.length_singleton] at hall
    omega
  refine ⟨htaken, ?_⟩
  obtain ⟨result', hcomes', hqueue⟩ :=
    enterLine_closed hfront hlast hlength rest command stack htaken
  rw [← hcomes.unique hcomes', ← harguments] at hqueue
  have hroom := allRoom_of_strings hmade hbehind (hstrings.trans hqueue.symm)
  exact allRoom_commandsOf.mp (hqueue ▸ hroom)

end Queues

/-- Words with commas between them are all queued, whatever stands behind the blocks, exactly if
`main` appends a comma and each block has room for the terminator of its word. -/
theorem typed_commands_iff (words : List Word) (hne : words ≠ [])
    (hwords : ∀ w ∈ words, w ≠ [] ∧ ∀ c ∈ w, isalnum c = true)
    (hlength : ([comma].intercalate words).length ≤ 509) (room : ℕ → ℕ) (enough : ∀ n, n ≤ room n)
    (before rest : List UInt8) (command : Buffer) (stack : Stack) (q : BlockQueue) :
    (∀ behind, Queues ⟨room, enough, behind⟩ words before rest command stack q) ↔
      LastTaken before words ∧ ∀ w ∈ words, HasRoom room w := by
  constructor
  · intro h
    exact (h fun _ _ => [33]).taken hne hwords hlength fun _ _ => List.cons_ne_nil _ _
  · exact fun ⟨htaken, hroom⟩ behind =>
      queues_of_taken hne hwords hlength htaken hroom rest command stack q

/-- The line `a,bc`. -/
theorem typed_commands_two :
    ∃ result, ComesTo (fun fuel => enterBlocks chunks fuel [] [97, 44, 98, 99, 10]
        (Vector.replicate SIZE_BUF 0) ⟨.replicate MAXSIZE .null, 0⟩ emptyQueue) result ∧
      result.2.2.2.strings chunks = [⟨[97], 255⟩, ⟨[98, 99], 255⟩] := by
  have hwords : ∀ w ∈ [[97], [98, 99]], IsWord w := by
    intro w hw
    rcases List.mem_cons.mp hw with rfl | hw
    · exact isWord_of_all (List.cons_ne_nil _ _) rfl
    · rw [List.mem_singleton.mp hw]
      exact isWord_of_all (List.cons_ne_nil _ _) rfl
  have htaken : LastTaken [] [[97], [98, 99]] := ⟨[[97]], [98, 99], rfl, .inl (by decide)⟩
  exact (typed_commands_iff [[97], [98, 99]] (List.cons_ne_nil _ _) hwords (by decide) chunks.room
    chunks.enough [] [] _ _ emptyQueue).mpr ⟨htaken, by decide⟩ chunks.behind

/-- The line `ab,c`, of which only `ab` is queued. -/
theorem typed_commands_fails :
    ¬ ∀ (words : List Word) (before rest : List UInt8) (command : Buffer) (stack : Stack)
      (q : BlockQueue),
      words ≠ [] → (∀ w ∈ words, w ≠ [] ∧ ∀ c ∈ w, isalnum c = true) →
      ([comma].intercalate words).length ≤ 509 →
      Queues chunks words before rest command stack q := by
  intro h
  have hwords : ∀ w ∈ [[97, 98], [99]], IsWord w := by
    intro w hw
    rcases List.mem_cons.mp hw with rfl | hw
    · exact isWord_of_all (List.cons_ne_nil _ _) rfl
    · rw [List.mem_singleton.mp hw]
      exact isWord_of_all (List.cons_ne_nil _ _) rfl
  have hqueues := h [[97, 98], [99]] [] [] (Vector.replicate SIZE_BUF 0)
    ⟨.replicate MAXSIZE .null, 0⟩ emptyQueue (List.cons_ne_nil _ _) hwords (by decide)
  have htaken := (hqueues.taken (List.cons_ne_nil _ _) hwords (by decide)
    fun _ _ => List.cons_ne_nil _ _).1
  rcases (lastTaken_concat [] [[97, 98]] [99]).mp htaken with hlong | ⟨hnil, _⟩
  · exact absurd hlong (by decide)
  · cases hnil

end MinixOS.TypedCommands
