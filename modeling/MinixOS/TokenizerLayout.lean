import Mathlib.Algebra.BigOperators.Group.List.Basic
import Mathlib.Algebra.Ring.Int.Defs
import Mathlib.Algebra.Ring.Nat
import MinixOS.TokenizerText

/-!
# Blanks put into a line

A line and the line with blanks put into it are read side by side, character by
character. The blanks in front of a character add one blank to the token, unless the tokenizer
drops white space there or the character is white space itself. They may also separate right
parentheses from the comma that is looked for in front of them, and a comma at the start of the
line from the parentheses in memory in front of it.
-/
namespace MinixOS.TokenizerLayout
open LoopExecution CheckedExecution StableQueues CommandQueue Tokenizer TokenizerSteps
  TokenizerForest TokenizerConservation TokenizerRejection TokenizerReading TokenizerText

/-- A character of the line, and the number of blanks that are put in front of it. -/
structure Item where
  blanks : ℕ
  char : UInt8

def plain (items : List Item) : List UInt8 := items.map Item.char

def padded (items : List Item) : List UInt8 :=
  items.flatMap fun item => List.replicate item.blanks blank ++ [item.char]

variable {before text : List UInt8} {items front back : List Item} {item : Item} {c : UInt8}
  {n : ℕ}

theorem plain_concat (front : List Item) (item : Item) :
    plain (front ++ [item]) = plain front ++ [item.char] := by
  simp [plain]

theorem padded_concat (front : List Item) (item : Item) :
    padded (front ++ [item]) =
      (padded front ++ List.replicate item.blanks blank) ++ [item.char] := by
  simp [padded]

/-- The blanks are put in front of the characters, so that the last one stays. -/
theorem lastClass_padded (items : List Item) : lastClass (padded items) = lastClass (plain items) := by
  rcases List.eq_nil_or_concat items with rfl | ⟨front, item, rfl⟩
  · rfl
  · rw [List.concat_eq_append, padded_concat, plain_concat, lastClass_concat, lastClass_concat]

theorem lastClass_blanks (text : List UInt8) (n : ℕ) :
    lastClass (text ++ List.replicate n blank) = if n = 0 then lastClass text else .space := by
  cases n with
  | zero => simp
  | succ n =>
      rw [List.replicate_succ', ← List.append_assoc, lastClass_concat, if_neg (Nat.succ_ne_zero n)]
      rfl

/-! ## Reading one character -/

/-- What a character other than a comma adds to the token. -/
def piece (state : CharState) (c : UInt8) : List UInt8 :=
  if isspace c then if dropsSpace state then [] else [blank]
  else if textual c then [c] else []

/-- What blanks in front of a character add to the token. -/
def gap (state : CharState) (item : Item) : List UInt8 :=
  if 0 < item.blanks ∧ isspace item.char = false ∧ ¬ dropsSpace state then [blank] else []

def raised (c : UInt8) : ℤ := if c = leftParen then 1 else 0

theorem step_piece (before : List UInt8) (r : Reader) (hc : c ≠ comma) :
    r.step before c =
      { r with
        text := r.text ++ [c], token := r.token ++ piece (lastClass r.text) c
        priority := r.priority + raised c } := by
  rcases textual_cases c with hspace | he | rfl | rfl | htext
  · have hraised : raised c = 0 := if_neg (ne_of_isspace hspace rfl)
    by_cases hdrop : dropsSpace (lastClass r.text)
    · rw [step_drop before hspace hdrop, hraised, piece, if_pos hspace, if_pos hdrop]
      simp
    · rw [step_blank before hspace hdrop, hraised, piece, if_pos hspace, if_neg hdrop]
      simp
  · exact absurd he hc
  · rw [step_left]
    simp [piece, raised, isspace, textual, leftParen]
  · rw [step_right]
    simp [piece, raised, isspace, textual, leftParen, rightParen]
  · have hspace : isspace c = false := by
      simp only [textual, Bool.and_eq_true, Bool.not_eq_true'] at htext
      exact htext.1.1.1
    have hraised : raised c = 0 := by
      apply if_neg
      rintro rfl
      cases htext
    rw [step_textual before htext, hraised, piece, htext, hspace]
    simp

section Concat

theorem token_concat (before text : List UInt8) (hc : c ≠ comma) :
    (readOf before (text ++ [c])).token =
      (readOf before text).token ++ piece (lastClass text) c := by
  rw [readOf_concat, step_piece before _ hc, readOf_text]

theorem priority_concat (before text : List UInt8) (hc : c ≠ comma) :
    (readOf before (text ++ [c])).priority = (readOf before text).priority + raised c := by
  rw [readOf_concat, step_piece before _ hc]

theorem calls_concat (before text : List UInt8) (hc : c ≠ comma) :
    (readOf before (text ++ [c])).calls = (readOf before text).calls := by
  rw [readOf_concat, step_piece before _ hc]

theorem token_comma (before text : List UInt8) :
    (readOf before (text ++ [comma])).token = [] := by
  rw [readOf_concat, step_comma]

theorem priority_comma (before text : List UInt8) :
    (readOf before (text ++ [comma])).priority =
      (readOf before text).priority - parensEnding before text := by
  rw [readOf_concat, step_comma, readOf_text]

theorem calls_comma (before text : List UInt8) :
    (readOf before (text ++ [comma])).calls = (readOf before text).calls ++
      [⟨(readOf before text).token, 255 - (readOf before text).priority⟩] := by
  rw [readOf_concat, step_comma]

/-- Blanks come to one blank of the token at most. -/
theorem blanks_read (before text : List UInt8) (n : ℕ) :
    (readOf before (text ++ List.replicate n blank)).token = (readOf before text).token ++
        (if 0 < n ∧ ¬ dropsSpace (lastClass text) then [blank] else []) ∧
      (readOf before (text ++ List.replicate n blank)).priority = (readOf before text).priority ∧
      (readOf before (text ++ List.replicate n blank)).calls = (readOf before text).calls := by
  have hne : blank ≠ comma := by decide
  have hraised : raised blank = 0 := rfl
  induction n with
  | zero => simp
  | succ n ih =>
      rcases ih with ⟨htoken, hpriority, hcalls⟩
      rw [List.replicate_succ', ← List.append_assoc, token_concat _ _ hne, priority_concat _ _ hne,
        calls_concat _ _ hne, htoken, hpriority, hcalls, hraised, add_zero, lastClass_blanks,
        List.append_assoc]
      refine ⟨?_, rfl, rfl⟩
      congr 1
      have hspace : isspace blank = true := rfl
      unfold piece
      rw [if_pos hspace]
      cases n with
      | zero => by_cases hdrop : dropsSpace (lastClass text) <;> simp [hdrop]
      | succ n =>
          have hdrops : dropsSpace .space := .inr (.inr rfl)
          simp [hdrops]

end Concat

/-! ## Reading one item -/

section Items

theorem gap_of_comma (h : item.char = comma) (state : CharState) :
    gap state item = if 0 < item.blanks ∧ ¬ dropsSpace state then [blank] else [] := by
  have hspace : isspace item.char = false := by
    rw [h]
    rfl
  simp [gap, hspace]

/-- The blanks add to the token what the gap says, and the character what it adds without them. -/
theorem token_padded (before : List UInt8) (front : List Item) (hc : item.char ≠ comma) :
    (readOf before (padded (front ++ [item]))).token =
      (readOf before (padded front)).token ++ gap (lastClass (plain front)) item ++
        piece (lastClass (plain front)) item.char := by
  rw [padded_concat, token_concat _ _ hc, (blanks_read before (padded front) item.blanks).1,
    lastClass_blanks, lastClass_padded, List.append_assoc, List.append_assoc]
  congr 1
  unfold gap piece
  have hdrops : dropsSpace .space := .inr (.inr rfl)
  by_cases hspace : isspace item.char = true
  · by_cases hdrop : dropsSpace (lastClass (plain front))
    · cases item.blanks <;> simp [hspace, hdrop, hdrops]
    · cases item.blanks <;> simp [hspace, hdrop, hdrops]
  · simp [hspace]

theorem priority_padded (before : List UInt8) (front : List Item) (hc : item.char ≠ comma) :
    (readOf before (padded (front ++ [item]))).priority =
      (readOf before (padded front)).priority + raised item.char := by
  rw [padded_concat, priority_concat _ _ hc, (blanks_read before (padded front) item.blanks).2.1]

theorem calls_padded (before : List UInt8) (front : List Item) (hc : item.char ≠ comma) :
    (readOf before (padded (front ++ [item]))).calls = (readOf before (padded front)).calls := by
  rw [padded_concat, calls_concat _ _ hc, (blanks_read before (padded front) item.blanks).2.2]

theorem calls_padded_comma (before : List UInt8) (front : List Item) (hc : item.char = comma) :
    (readOf before (padded (front ++ [item]))).calls = (readOf before (padded front)).calls ++
      [⟨(readOf before (padded front)).token ++ gap (lastClass (plain front)) item,
        255 - (readOf before (padded front)).priority⟩] := by
  rcases blanks_read before (padded front) item.blanks with ⟨htoken, hpriority, hcalls⟩
  rw [padded_concat, hc, calls_comma, htoken, hpriority, hcalls, gap_of_comma hc,
    lastClass_padded]

end Items

/-! ## The length of the texts -/

def textLength (calls : List QueueNode) : ℕ := (calls.map fun call => call.command.length).sum

/-- The characters passed in the calls, and those of the token. -/
def size (r : Reader) : ℕ := textLength r.calls + r.token.length

theorem textLength_concat (calls : List QueueNode) (call : QueueNode) :
    textLength (calls ++ [call]) = textLength calls + call.command.length := by
  simp [textLength]

theorem piece_comma (state : CharState) : piece state comma = [] := rfl

theorem size_plain (before : List UInt8) (front : List Item) (item : Item) :
    size (readOf before (plain (front ++ [item]))) =
      size (readOf before (plain front)) +
        (piece (lastClass (plain front)) item.char).length := by
  unfold size
  rw [plain_concat]
  by_cases hc : item.char = comma
  · rw [hc, token_comma, calls_comma, textLength_concat, piece_comma]
  · rw [token_concat _ _ hc, calls_concat _ _ hc, List.length_append, Nat.add_assoc]

theorem size_padded (before : List UInt8) (front : List Item) (item : Item) :
    size (readOf before (padded (front ++ [item]))) =
      size (readOf before (padded front)) + (gap (lastClass (plain front)) item).length +
        (piece (lastClass (plain front)) item.char).length := by
  unfold size
  by_cases hc : item.char = comma
  · have htoken : (readOf before (padded (front ++ [item]))).token = [] := by
      rw [padded_concat, hc, token_comma]
    rw [htoken, calls_padded_comma _ _ hc, textLength_concat, hc, piece_comma, List.length_append,
      List.length_nil]
    omega
  · rw [token_padded _ _ hc, calls_padded _ _ hc, List.length_append, List.length_append]
    omega

theorem size_le (before : List UInt8) (items : List Item) :
    size (readOf before (plain items)) ≤ size (readOf before (padded items)) := by
  induction items using List.reverseRecOn with
  | nil => exact Nat.le_refl _
  | append_singleton front item ih =>
      rw [size_plain, size_padded]
      omega

/-- A blank that was added stays. -/
theorem size_lt (before : List UInt8) (hgap : gap (lastClass (plain front)) item ≠ []) :
    size (readOf before (plain (front ++ item :: back))) <
      size (readOf before (padded (front ++ item :: back))) := by
  induction back using List.reverseRecOn with
  | nil =>
      have hle := size_le before front
      have hpos := List.length_pos_iff.mpr hgap
      rw [size_plain, size_padded]
      omega
  | append_singleton back last ih =>
      rw [← List.cons_append, ← List.append_assoc, size_plain, size_padded]
      omega

/-- At a comma the token has become a call. -/
theorem textLength_comma (before : List UInt8) (hc : item.char = comma) :
    textLength (readOf before (plain (front ++ [item]))).calls =
        size (readOf before (plain (front ++ [item]))) ∧
      textLength (readOf before (padded (front ++ [item]))).calls =
        size (readOf before (padded (front ++ [item]))) := by
  unfold size
  rw [plain_concat, padded_concat, hc, token_comma, token_comma]
  exact ⟨rfl, rfl⟩

/-- Without a further comma there is no further call. -/
theorem calls_rest (before : List UInt8) (hback : ∀ item ∈ back, item.char ≠ comma) :
    (readOf before (plain (front ++ back))).calls = (readOf before (plain front)).calls ∧
      (readOf before (padded (front ++ back))).calls = (readOf before (padded front)).calls := by
  induction back using List.reverseRecOn with
  | nil =>
      rw [List.append_nil]
      exact ⟨rfl, rfl⟩
  | append_singleton back item ih =>
      have hc := hback item (List.mem_append_right _ (List.mem_singleton.mpr rfl))
      rcases ih fun other hother => hback other (List.mem_append_left _ hother) with ⟨hplain, hpadded⟩
      rw [← List.append_assoc, plain_concat, calls_concat _ _ hc, calls_padded _ _ hc]
      exact ⟨hplain, hpadded⟩

/-- The last comma of the line. -/
theorem last_comma (h : comma ∈ plain items) :
    ∃ front item back, items = front ++ item :: back ∧ item.char = comma ∧
      ∀ other ∈ back, other.char ≠ comma := by
  have hexists : ∃ item ∈ items, (fun item : Item => decide (item.char = comma)) item = true := by
    rcases List.mem_map.mp h with ⟨item, hitem, hc⟩
    exact ⟨item, hitem, decide_eq_true hc⟩
  rcases split_last hexists with ⟨front, item, back, hitems, hc, hback⟩
  exact ⟨front, item, back, hitems, of_decide_eq_true hc,
    fun other hother => of_decide_eq_false (hback other hother)⟩

/-- A blank in front of a comma, or of a character with a comma behind it, gets into a call. -/
theorem textLength_lt (before : List UInt8) (hgap : gap (lastClass (plain front)) item ≠ [])
    (hcomma : comma ∈ plain (item :: back)) :
    textLength (readOf before (plain (front ++ item :: back))).calls <
      textLength (readOf before (padded (front ++ item :: back))).calls := by
  rcases last_comma hcomma with ⟨upto, last, rest, hitems, hlast, hrest⟩
  have hsplit : front ++ item :: back = (front ++ upto ++ [last]) ++ rest := by
    rw [hitems]
    simp
  rw [hsplit, (calls_rest before hrest).1, (calls_rest before hrest).2,
    (textLength_comma before hlast).1, (textLength_comma before hlast).2]
  cases upto with
  | nil =>
      cases hitems
      rw [List.append_nil]
      exact size_lt before hgap
  | cons first upto =>
      cases hitems
      rw [List.append_assoc, List.cons_append]
      exact size_lt before hgap

/-! ## Priorities -/

section Priorities

theorem parensEnding_blanks (before text : List UInt8) (n : ℕ) :
    parensEnding before (text ++ List.replicate n blank) =
      if n = 0 then parensEnding before text else 0 := by
  cases n with
  | zero => simp
  | succ n =>
      rw [List.replicate_succ', ← List.append_assoc, parensEnding_concat,
        if_neg (Nat.succ_ne_zero n)]
      rfl

theorem parensEnding_le (before : List UInt8) (items : List Item) :
    parensEnding before (padded items) ≤ parensEnding before (plain items) := by
  induction items using List.reverseRecOn with
  | nil => exact Nat.le_refl _
  | append_singleton front item ih =>
      rw [padded_concat, plain_concat, parensEnding_concat, parensEnding_concat,
        parensEnding_blanks]
      split_ifs
      · exact Nat.succ_le_succ ih
      · exact Nat.succ_le_succ (Nat.zero_le _)
      · exact Nat.le_refl 0

theorem priority_padded_comma (before : List UInt8) (front : List Item)
    (hc : item.char = comma) :
    (readOf before (padded (front ++ [item]))).priority = (readOf before (padded front)).priority -
      parensEnding before (padded front ++ List.replicate item.blanks blank) := by
  rw [padded_concat, hc, priority_comma, (blanks_read before (padded front) item.blanks).2.1]

def prioritySum (calls : List QueueNode) : ℤ := (calls.map QueueNode.priority).sum

theorem prioritySum_concat (calls : List QueueNode) (call : QueueNode) :
    prioritySum (calls ++ [call]) = prioritySum calls + call.priority := by
  simp [prioritySum]

/-- Behind the first comma the right parentheses in memory count no more. -/
theorem priority_lt (hc : item.char = comma) (hblanks : 0 < item.blanks)
    (hparens : 0 < parensEnding before []) (back : List Item) :
    (readOf before (plain (item :: back))).priority <
      (readOf before (padded (item :: back))).priority := by
  induction back using List.reverseRecOn with
  | nil =>
      have hplain : (readOf before (plain ([] ++ [item]))).priority =
          0 - parensEnding before [] := by
        rw [plain_concat, hc, priority_comma]
        rfl
      have hpadded : (readOf before (padded ([] ++ [item]))).priority = 0 := by
        rw [priority_padded_comma before [] hc, parensEnding_blanks, if_neg hblanks.ne']
        rfl
      rw [List.nil_append] at hplain hpadded
      omega
  | append_singleton back last ih =>
      rw [← List.cons_append]
      by_cases hlast : last.char = comma
      · have hle := parensEnding_le before (item :: back)
        have hblanked : parensEnding before
            (padded (item :: back) ++ List.replicate last.blanks blank) ≤
              parensEnding before (padded (item :: back)) := by
          rw [parensEnding_blanks]
          split_ifs
          · exact Nat.le_refl _
          · exact Nat.zero_le _
        rw [priority_padded_comma before _ hlast, plain_concat, hlast, priority_comma]
        omega
      · rw [priority_padded before _ hlast, plain_concat, priority_concat _ _ hlast]
        omega

/-- The commands of all further commas come earlier with the blanks. -/
theorem prioritySum_lt (hc : item.char = comma) (hblanks : 0 < item.blanks)
    (hparens : 0 < parensEnding before []) (back : List Item) :
    prioritySum (readOf before (padded (item :: back))).calls ≤
        prioritySum (readOf before (plain (item :: back))).calls ∧
      (comma ∈ plain back → prioritySum (readOf before (padded (item :: back))).calls <
        prioritySum (readOf before (plain (item :: back))).calls) := by
  induction back using List.reverseRecOn with
  | nil =>
      have hplain : (readOf before (plain ([] ++ [item]))).calls = [⟨[], 255 - 0⟩] := by
        rw [plain_concat, hc, calls_comma]
        rfl
      have hpadded : prioritySum (readOf before (padded ([] ++ [item]))).calls = 255 := by
        rw [calls_padded_comma before [] hc]
        rfl
      rw [List.nil_append] at hplain hpadded
      rw [hplain, hpadded]
      exact ⟨le_refl _, fun hnone => absurd hnone List.not_mem_nil⟩
  | append_singleton back last ih =>
      have hpriority := priority_lt hc hblanks hparens back
      rcases ih with ⟨hle, hlt⟩
      rw [← List.cons_append]
      by_cases hlast : last.char = comma
      · rw [calls_padded_comma before _ hlast, plain_concat, hlast, calls_comma,
          prioritySum_concat, prioritySum_concat]
        dsimp only
        constructor
        · omega
        · intro _
          omega
      · rw [calls_padded before _ hlast, plain_concat, calls_concat _ _ hlast, plain_concat,
          List.mem_append, List.mem_singleton]
        refine ⟨hle, ?_⟩
        rintro (hin | he)
        · exact hlt hin
        · exact absurd he.symm hlast

end Priorities

/-! ## Blanks that change nothing -/

section Same

/-- Up to the end of the line no blank gets into a token, nor between a first comma and right
parentheses in memory. -/
structure Harmless (before : List UInt8) (items : List Item) : Prop where
  closed : (plain items).head? ≠ some rightParen
  gaps : ∀ front item back, items = front ++ item :: back →
    gap (lastClass (plain front)) item = []
  start : ∀ item back, items = item :: back → item.char = comma →
    item.blanks = 0 ∨ parensEnding before [] = 0

theorem Harmless.of_append (h : Harmless before (front ++ back)) : Harmless before front := by
  constructor
  · intro hhead
    apply h.closed
    cases front with
    | nil => cases hhead
    | cons first front => exact hhead
  · rintro upto item rest rfl
    exact h.gaps upto item (rest ++ back) (by simp)
  · rintro item rest rfl
    exact h.start item (rest ++ back) rfl

theorem parensEnding_drops (hne : text ≠ []) (hdrop : dropsSpace (lastClass text)) :
    parensEnding before text = 0 := by
  rcases List.eq_nil_or_concat text with rfl | ⟨text, c, rfl⟩
  · exact absurd rfl hne
  · rw [List.concat_eq_append] at hdrop ⊢
    rw [parensEnding_concat]
    apply if_neg
    rintro rfl
    rw [lastClass_concat] at hdrop
    simp [dropsSpace, classOf, isspace, comma, leftParen, rightParen] at hdrop

/-- Blanks that get into no token are not behind right parentheses. -/
theorem Harmless.parens (h : Harmless before (front ++ [item]))
    (hc : item.char = comma ∨ item.char = rightParen)
    (hsame : parensEnding before (padded front) = parensEnding before (plain front)) :
    parensEnding before (padded front ++ List.replicate item.blanks blank) =
      parensEnding before (plain front) := by
  have hspace : isspace item.char = false := by
    rcases hc with hc | hc <;> rw [hc] <;> rfl
  rw [parensEnding_blanks]
  split_ifs with hblanks
  · exact hsame
  · symm
    have hpos : 0 < item.blanks := Nat.pos_of_ne_zero hblanks
    have hgap := h.gaps front item [] rfl
    have hdrop : dropsSpace (lastClass (plain front)) := by
      by_contra hdrop
      rw [gap, if_pos ⟨hpos, hspace, hdrop⟩] at hgap
      cases hgap
    cases front with
    | cons first front => exact parensEnding_drops (List.cons_ne_nil _ _) hdrop
    | nil =>
        rcases hc with hc | hc
        · exact (h.start item [] rfl hc).resolve_left hblanks
        · exact absurd (congrArg some hc) h.closed

/-- The reader is the same with the blanks and without them, but for the text. -/
theorem Harmless.same (h : Harmless before items) :
    (readOf before (padded items)).token = (readOf before (plain items)).token ∧
      (readOf before (padded items)).priority = (readOf before (plain items)).priority ∧
      (readOf before (padded items)).calls = (readOf before (plain items)).calls ∧
      parensEnding before (padded items) = parensEnding before (plain items) := by
  induction items using List.reverseRecOn with
  | nil => exact ⟨rfl, rfl, rfl, rfl⟩
  | append_singleton front item ih =>
      rcases ih h.of_append with ⟨htoken, hpriority, hcalls, hparens⟩
      have hgap := h.gaps front item [] rfl
      have hending : parensEnding before (padded (front ++ [item])) =
          parensEnding before (plain (front ++ [item])) := by
        rw [padded_concat, plain_concat, parensEnding_concat, parensEnding_concat]
        split_ifs with hright
        · rw [h.parens (.inr hright) hparens]
        · rfl
      by_cases hc : item.char = comma
      · refine ⟨?_, ?_, ?_, hending⟩
        · rw [padded_concat, plain_concat, hc, token_comma, token_comma]
        · rw [priority_padded_comma _ _ hc, h.parens (.inl hc) hparens, plain_concat, hc,
            priority_comma, hpriority]
        · rw [calls_padded_comma _ _ hc, plain_concat, hc, calls_comma, hgap, List.append_nil,
            htoken, hpriority, hcalls]
      · refine ⟨?_, ?_, ?_, hending⟩
        · rw [token_padded _ _ hc, plain_concat, token_concat _ _ hc, hgap, List.append_nil,
            htoken]
        · rw [priority_padded _ _ hc, plain_concat, priority_concat _ _ hc, hpriority]
        · rw [calls_padded _ _ hc, plain_concat, calls_concat _ _ hc, hcalls]

end Same

/-! ## Where the characters stand -/

section Places

def Placed (text : List UInt8) : Prop :=
  ∀ front c back, text = front ++ c :: back → ¬ Misplaced front c ∧ ¬ noClass c

theorem placed_concat (text : List UInt8) (c : UInt8) :
    Placed (text ++ [c]) ↔ Placed text ∧ ¬ Misplaced text c ∧ ¬ noClass c := by
  constructor
  · intro h
    refine ⟨fun front d back ht => h front d (back ++ [c]) ?_, h text c [] rfl⟩
    rw [ht]
    simp
  · intro h front d back he
    rcases List.eq_nil_or_concat back with rfl | ⟨back, e, rfl⟩
    · rcases List.append_inj' he rfl with ⟨rfl, hd⟩
      cases hd
      exact h.2
    · rw [List.concat_eq_append, ← List.cons_append, ← List.append_assoc] at he
      rcases List.append_inj' he rfl with ⟨rfl, _⟩
      exact h.1 front d back rfl

theorem Placed.at (h : Placed text) (i : ℕ) (c : UInt8) (hc : text[i]? = some c) :
    ¬ Misplaced (text.take i) c ∧ ¬ noClass c := by
  rcases List.getElem?_eq_some_iff.mp hc with ⟨hi, rfl⟩
  apply h _ _ (text.drop (i + 1))
  rw [← List.drop_eq_getElem_cons hi, List.take_append_drop]

theorem blank_placed (text : List UInt8) : ¬ Misplaced text blank ∧ ¬ noClass blank := by
  have hclass : ¬ noClass blank := fun hnone => absurd hnone.1 (by decide)
  refine ⟨?_, hclass⟩
  intro hplace
  cases hplace with
  | left he _ => cases he
  | right he _ => cases he
  | unmatched he _ => cases he
  | word halnum _ _ => cases halnum
  | noClass hnone _ => exact hclass hnone

theorem placed_blanks (text : List UInt8) (n : ℕ) :
    Placed (text ++ List.replicate n blank) ↔ Placed text := by
  induction n with
  | zero => simp
  | succ n ih =>
      rw [List.replicate_succ', ← List.append_assoc, placed_concat, ih]
      exact and_iff_left (blank_placed _)

theorem openParens_blanks (text : List UInt8) (n : ℕ) :
    openParens (text ++ List.replicate n blank) = openParens text := by
  induction n with
  | zero => simp
  | succ n ih =>
      rw [List.replicate_succ', ← List.append_assoc, openParens_concat, ih]
      rfl

theorem openParens_padded (items : List Item) :
    openParens (padded items) = openParens (plain items) := by
  induction items using List.reverseRecOn with
  | nil => rfl
  | append_singleton front item ih =>
      rw [padded_concat, plain_concat, openParens_concat, openParens_concat, openParens_blanks, ih]

/-! ## Words behind right parentheses -/

/-- The items end with a comma and right parentheses, with blanks in front of one of these. -/
def Hides (items : List Item) : Prop :=
  ∃ front separator run, items = front ++ separator :: run ∧ separator.char = comma ∧
    (∀ paren ∈ run, paren.char = rightParen) ∧ ∃ paren ∈ run, 0 < paren.blanks

theorem frontOfParens_blanks (text : List UInt8) (n : ℕ) :
    frontOfParens (text ++ List.replicate n blank) =
      if n = 0 then frontOfParens text else some blank := by
  cases n with
  | zero => simp
  | succ n =>
      rw [List.replicate_succ', ← List.append_assoc, frontOfParens_concat,
        if_neg (Nat.succ_ne_zero n)]
      rfl

theorem front_comma (h : frontOfParens (plain items) = some comma) :
    ∃ front separator run, items = front ++ separator :: run ∧ separator.char = comma ∧
      ∀ paren ∈ run, paren.char = rightParen := by
  induction items using List.reverseRecOn with
  | nil => cases h
  | append_singleton front item ih =>
      rw [plain_concat, frontOfParens_concat] at h
      split_ifs at h with hright
      · rcases ih h with ⟨front, separator, run, rfl, hseparator, hrun⟩
        refine ⟨front, separator, run ++ [item], by simp, hseparator, ?_⟩
        intro paren hparen
        rcases List.mem_append.mp hparen with hparen | hparen
        · exact hrun paren hparen
        · rw [List.mem_singleton.mp hparen]
          exact hright
      · refine ⟨front, item, [], rfl, Option.some.inj h, ?_⟩
        exact fun paren hparen => absurd hparen List.not_mem_nil

theorem front_exposed {run : List Item} (hitem : item.char = comma)
    (hrun : ∀ paren ∈ run, paren.char = rightParen) (hblanks : ∀ paren ∈ run, paren.blanks = 0) :
    frontOfParens (padded (front ++ item :: run)) = some comma := by
  induction run using List.reverseRecOn with
  | nil =>
      rw [padded_concat, frontOfParens_concat, hitem]
      rfl
  | append_singleton run last ih =>
      have hlast : last ∈ run ++ [last] := List.mem_append_right _ (List.mem_singleton.mpr rfl)
      rw [← List.cons_append, ← List.append_assoc, padded_concat, frontOfParens_concat,
        if_pos (hrun last hlast), frontOfParens_blanks, if_pos (hblanks last hlast)]
      exact ih (fun paren hparen => hrun paren (List.mem_append_left _ hparen))
        fun paren hparen => hblanks paren (List.mem_append_left _ hparen)

theorem front_hidden {run : List Item} (hrun : ∀ paren ∈ run, paren.char = rightParen)
    (hblanks : ∃ paren ∈ run, 0 < paren.blanks) :
    frontOfParens (padded (front ++ run)) = some blank := by
  induction run using List.reverseRecOn with
  | nil =>
      rcases hblanks with ⟨paren, hparen, _⟩
      cases hparen
  | append_singleton run last ih =>
      have hlast : last ∈ run ++ [last] := List.mem_append_right _ (List.mem_singleton.mpr rfl)
      rw [← List.append_assoc, padded_concat, frontOfParens_concat, if_pos (hrun last hlast),
        frontOfParens_blanks]
      split_ifs with hzero
      · rcases hblanks with ⟨paren, hparen, hpos⟩
        apply ih fun paren hparen => hrun paren (List.mem_append_left _ hparen)
        rcases List.mem_append.mp hparen with hparen | hparen
        · exact ⟨paren, hparen, hpos⟩
        · rw [List.mem_singleton.mp hparen] at hpos
          omega
      · rfl

theorem hides_of_front (hplain : frontOfParens (plain items) = some comma)
    (hpadded : frontOfParens (padded items) ≠ some comma) : Hides items := by
  rcases front_comma hplain with ⟨front, separator, run, rfl, hseparator, hrun⟩
  refine ⟨front, separator, run, rfl, hseparator, hrun, ?_⟩
  by_contra hnone
  apply hpadded
  apply front_exposed hseparator hrun
  intro paren hparen
  by_contra hpos
  exact hnone ⟨paren, hparen, Nat.pos_of_ne_zero hpos⟩

/-- Such items do not end with the comma, so that a word would stand behind a parenthesis. -/
theorem Hides.behind (h : Hides items) :
    lastClass (plain items) = .rparen ∧ frontOfParens (padded items) = some blank := by
  rcases h with ⟨front, separator, run, rfl, hseparator, hrun, hblanks⟩
  constructor
  · rcases List.eq_nil_or_concat run with rfl | ⟨run, last, rfl⟩
    · rcases hblanks with ⟨paren, hparen, _⟩
      cases hparen
    · have hlast := hrun last (by simp)
      rw [List.concat_eq_append, ← List.cons_append, ← List.append_assoc, plain_concat,
        lastClass_concat, hlast]
      rfl
  · rw [List.append_cons]
    exact front_hidden hrun hblanks

/-- With the blanks a character is out of place only if it is a word behind hidden parentheses. -/
theorem misplaced_padded (hplace : ¬ Misplaced (plain front) item.char)
    (hclass : ¬ noClass item.char) :
    Misplaced (padded front ++ List.replicate item.blanks blank) item.char ↔
      Hides front ∧ isalnum item.char = true ∧ item.blanks = 0 := by
  have hlast : lastClass (padded front ++ List.replicate item.blanks blank) =
      if item.blanks = 0 then lastClass (plain front) else .space := by
    rw [lastClass_blanks, lastClass_padded]
  constructor
  · intro hpadded
    cases hpadded with
    | left hc hs =>
        rw [hlast] at hs
        split_ifs at hs with hzero
        · exact absurd (.left hc hs) hplace
        · exact absurd (by simp [mayOpen]) hs
    | right hc hs =>
        rw [hlast] at hs
        split_ifs at hs with hzero
        · exact absurd (.right hc hs) hplace
        · exact absurd (by simp [mayClose]) hs
    | unmatched hc hs =>
        rw [openParens_blanks, openParens_padded] at hs
        exact absurd (.unmatched hc hs) hplace
    | word halnum hs hfront =>
        rw [hlast] at hs
        rw [frontOfParens_blanks] at hfront
        split_ifs at hs hfront with hzero
        refine ⟨hides_of_front ?_ hfront, halnum, hzero⟩
        by_contra hplain
        exact hplace (.word halnum hs hplain)
    | noClass hnone _ => exact absurd hnone hclass
  · intro h
    rcases h with ⟨hhides, halnum, hzero⟩
    rcases hhides.behind with ⟨hrparen, hfront⟩
    apply Misplaced.word halnum
    · rw [hlast, if_pos hzero, hrparen]
    · rw [frontOfParens_blanks, if_pos hzero, hfront]
      decide

/-- A word directly behind such right parentheses. -/
def Breaks (items : List Item) : Prop :=
  ∃ front word back, items = front ++ word :: back ∧ Hides front ∧
    isalnum word.char = true ∧ word.blanks = 0

theorem breaks_concat (front : List Item) (item : Item) :
    Breaks (front ++ [item]) ↔
      Breaks front ∨ Hides front ∧ isalnum item.char = true ∧ item.blanks = 0 := by
  constructor
  · intro h
    rcases h with ⟨upto, word, back, hitems, hword⟩
    rcases List.eq_nil_or_concat back with rfl | ⟨back, last, rfl⟩
    · rcases List.append_inj' hitems rfl with ⟨rfl, he⟩
      cases he
      exact .inr hword
    · rw [List.concat_eq_append, ← List.cons_append, ← List.append_assoc] at hitems
      rcases List.append_inj' hitems rfl with ⟨rfl, _⟩
      exact .inl ⟨upto, word, back, rfl, hword⟩
  · intro h
    rcases h with ⟨upto, word, back, rfl, hword⟩ | hword
    · exact ⟨upto, word, back ++ [item], by simp, hword⟩
    · exact ⟨front, item, [], rfl, hword⟩

theorem placed_padded (h : Placed (plain items)) : Placed (padded items) ↔ ¬ Breaks items := by
  induction items using List.reverseRecOn with
  | nil =>
      apply iff_of_true h
      intro hbreaks
      rcases hbreaks with ⟨front, word, back, he, _⟩
      exact List.append_ne_nil_of_right_ne_nil front (List.cons_ne_nil word back) he.symm
  | append_singleton front item ih =>
      rw [plain_concat, placed_concat] at h
      rcases h with ⟨hfront, hplace, hclass⟩
      rw [padded_concat, placed_concat, placed_blanks, ih hfront,
        misplaced_padded hplace hclass, breaks_concat, not_or]
      exact and_congr_right fun _ => and_iff_left hclass

end Places

/-! ## The layout of a line -/

/-- A blank gets into the token of a command. -/
def Widens (items : List Item) : Prop :=
  ∃ front item back, items = front ++ item :: back ∧ 0 < item.blanks ∧
    isspace item.char = false ∧ ¬ dropsSpace (lastClass (plain front)) ∧
    comma ∈ plain (item :: back)

/-- A comma at the start of the line is parted from right parentheses in front of the line, with
further commands behind it. -/
def Shifts (before : List UInt8) (items : List Item) : Prop :=
  ∃ item back, items = item :: back ∧ item.char = comma ∧ 0 < item.blanks ∧
    before.head? = some rightParen ∧ comma ∈ plain back

theorem gap_eq_nil {state : CharState} :
    gap state item = [] ↔ ¬ (0 < item.blanks ∧ isspace item.char = false ∧ ¬ dropsSpace state) := by
  unfold gap
  split_ifs with h
  · exact iff_of_false not_false (not_not_intro h)
  · exact iff_of_true rfl h

theorem parensEnding_nil : 0 < parensEnding before [] ↔ before.head? = some rightParen := by
  unfold parensEnding
  cases before with
  | nil => exact iff_of_false (Nat.lt_irrefl 0) (by simp)
  | cons c before =>
      by_cases hc : c = rightParen
      · simp [hc]
      · simp [hc]

theorem mem_of_concat {front upto rest : List Item} {item other : Item}
    (h : front ++ [item] = upto ++ other :: rest) : item ∈ other :: rest := by
  have hlast : (other :: rest).getLast? = some item := by
    have hall := congrArg List.getLast? h
    rw [List.getLast?_concat, List.getLast?_append_of_ne_nil _ (List.cons_ne_nil _ _)] at hall
    exact hall.symm
  exact List.mem_of_getLast? hlast

/-- The calls are the same with the blanks and without them. -/
theorem same_calls (hclosed : (plain items).head? ≠ some rightParen) (hwidens : ¬ Widens items)
    (hshifts : ¬ Shifts before items) :
    (readOf before (padded items)).calls = (readOf before (plain items)).calls := by
  by_cases hcomma : comma ∈ plain items
  · rcases last_comma hcomma with ⟨front, item, back, rfl, hc, hback⟩
    rw [List.append_cons, (calls_rest before hback).1, (calls_rest before hback).2]
    cases front with
    | nil =>
        have hgap : gap (lastClass (plain [])) item = [] := by
          rw [gap_eq_nil]
          intro h
          exact h.2.2 (.inr (.inl rfl))
        rw [calls_padded_comma before [] hc, hgap, plain_concat, hc, calls_comma]
        rfl
    | cons first front =>
        have hharmless : Harmless before (first :: front ++ [item]) := by
          constructor
          · exact hclosed
          · intro upto other rest he
            rw [gap_eq_nil]
            rintro ⟨hblanks, hspace, hdrop⟩
            apply hwidens
            refine ⟨upto, other, rest ++ back, ?_, hblanks, hspace, hdrop, ?_⟩
            · rw [List.append_cons, he]
              simp
            · have hin := List.mem_append_left back (mem_of_concat he)
              exact List.mem_map.mpr ⟨item, hin, hc⟩
          · rintro other rest he hother
            cases he
            by_contra hnot
            rw [not_or] at hnot
            apply hshifts
            refine ⟨first, front ++ item :: back, rfl, hother, Nat.pos_of_ne_zero hnot.1,
              parensEnding_nil.mp (Nat.pos_of_ne_zero hnot.2), ?_⟩
            simp [plain, hc]
        exact hharmless.same.2.2.1
  · have hnone : ∀ item ∈ items, item.char ≠ comma := by
      intro item hitem hc
      exact hcomma (List.mem_map.mpr ⟨item, hitem, hc⟩)
    have hall : items = [] ++ items := rfl
    rw [hall, (calls_rest before hnone).1, (calls_rest before hnone).2]
    rfl

theorem acceptable_padded (h : Acceptable before (plain items)) (hbreaks : ¬ Breaks items) (n : ℕ) :
    Acceptable before (padded items ++ List.replicate n blank) := by
  have hplain : Placed (plain items) := fun _ _ _ hitems => h.placed_at hitems
  constructor
  · intro hnil
    rcases List.append_eq_nil_iff.mp hnil with ⟨hpadded, _⟩
    apply h.nonempty
    rcases List.eq_nil_or_concat items with rfl | ⟨front, item, rfl⟩
    · rfl
    · rw [List.concat_eq_append, padded_concat] at hpadded
      exact absurd hpadded (List.append_ne_nil_of_right_ne_nil _ (List.cons_ne_nil _ _))
  · intro hhead
    apply h.readable
    cases items with
    | nil =>
        cases n with
        | zero => cases hhead
        | succ n => exact absurd (Option.some.inj hhead) (by decide)
    | cons item items =>
        rcases item with ⟨blanks, c⟩
        cases blanks with
        | zero => exact hhead
        | succ blanks => exact absurd (Option.some.inj hhead) (by decide)
  · exact ((placed_blanks _ n).mpr ((placed_padded hplain).mpr hbreaks)).at
  · rw [openParens_blanks, openParens_padded]
    exact h.matched

theorem calls_padded_end (before : List UInt8) (items : List Item) (n : ℕ) :
    (readOf before (padded items ++ List.replicate n blank)).calls =
      (readOf before (padded items)).calls :=
  (blanks_read before (padded items) n).2.2

/-- The queue of equal sums. -/
theorem sums_of_queue {calls calls' : List QueueNode}
    (h : (enqueueCalls calls qcreate).first = (enqueueCalls calls' qcreate).first) :
    textLength calls = textLength calls' ∧ prioritySum calls = prioritySum calls' := by
  have hqueue := (stable_calls calls).perm
  rw [h] at hqueue
  have hperm := hqueue.symm.trans (stable_calls calls').perm
  exact ⟨(hperm.map _).sum_eq, (hperm.map _).sum_eq⟩

/-- Blanks put into an accepted line leave it accepted with the same queue exactly if they hide no
right parenthesis in front of a word, get into no command, and do not part the line from right
parentheses in front of it. -/
theorem layout_iff {before : List UInt8} {items : List Item} {stack : Stack} {out : Outcome}
    (h : Accepts before (plain items) stack out) (n : ℕ) :
    (∃ out', Accepts before (padded items ++ List.replicate n blank) stack out' ∧
        out'.scan.queue.first = out.scan.queue.first) ↔
      ¬ (Breaks items ∨ Widens items ∨ Shifts before items) := by
  rcases h.acceptable with ⟨hline, hqueue⟩
  have hplain : Placed (plain items) := fun _ _ _ hitems => hline.placed_at hitems
  constructor
  · rintro ⟨out', haccepts, hsame⟩ hbad
    rcases haccepts.acceptable with ⟨hpadded, hqueue'⟩
    rw [hqueue, hqueue', calls_padded_end] at hsame
    rcases sums_of_queue hsame with ⟨hlength, hpriority⟩
    rcases hbad with hbreaks | hwidens | hshifts
    · have hplaced : Placed (padded items ++ List.replicate n blank) :=
        fun _ _ _ hitems => hpadded.placed_at hitems
      exact (placed_padded hplain).mp ((placed_blanks _ n).mp hplaced) hbreaks
    · rcases hwidens with ⟨front, item, back, rfl, hblanks, hspace, hdrop, hcomma⟩
      have hgap : gap (lastClass (plain front)) item ≠ [] := by
        rw [Ne, gap_eq_nil, not_not]
        exact ⟨hblanks, hspace, hdrop⟩
      exact absurd hlength (textLength_lt before hgap hcomma).ne'
    · rcases hshifts with ⟨item, back, rfl, hc, hblanks, hhead, hcomma⟩
      have hparens := parensEnding_nil.mpr hhead
      exact absurd hpriority ((prioritySum_lt hc hblanks hparens back).2 hcomma).ne
  · intro hgood
    rw [not_or, not_or] at hgood
    rcases hgood with ⟨hbreaks, hwidens, hshifts⟩
    have hclosed : (plain items).head? ≠ some rightParen := by
      intro hhead
      rw [List.head?_eq_getElem?] at hhead
      exact (hline.placed 0 rightParen hhead).1 (.unmatched rfl rfl)
    rcases (acceptable_padded hline hbreaks n).accepts stack with ⟨out', haccepts⟩
    refine ⟨out', haccepts, ?_⟩
    rw [haccepts.acceptable.2, hqueue, calls_padded_end, same_calls hclosed hwidens hshifts]

/-- The line `a,` and the line `a, `. -/
theorem layout_behind :
    ∃ out out', Accepts [] [97, 44] ⟨.replicate MAXSIZE .null, 0⟩ out ∧
      Accepts [] [97, 44, 32] ⟨.replicate MAXSIZE .null, 0⟩ out' ∧
      out'.scan.queue.first = out.scan.queue.first := by
  have haccepts : ∃ out, Accepts [] (plain [⟨0, 97⟩, ⟨0, 44⟩]) ⟨.replicate MAXSIZE .null, 0⟩ out :=
    ⟨_, ⟨3, rfl⟩, rfl, rfl, by decide⟩
  rcases haccepts with ⟨out, h⟩
  have hgood : ¬ (Breaks [⟨0, 97⟩, ⟨0, 44⟩] ∨ Widens [⟨0, 97⟩, ⟨0, 44⟩] ∨
      Shifts [] [⟨0, 97⟩, ⟨0, 44⟩]) := by
    have hnone : ∀ item ∈ ([⟨0, 97⟩, ⟨0, 44⟩] : List Item), ¬ 0 < item.blanks := by simp
    rintro (⟨front, word, back, hitems, ⟨upto, separator, run, rfl, _, _, paren, hparen, hpos⟩, _⟩ |
      ⟨front, item, back, hitems, hpos, _⟩ | ⟨item, back, hitems, _, hpos, _⟩)
    · apply hnone paren _ hpos
      rw [hitems]
      simp [hparen]
    · apply hnone item _ hpos
      rw [hitems]
      simp
    · apply hnone item _ hpos
      rw [hitems]
      simp
  rcases (layout_iff h 1).mpr hgood with ⟨out', haccepts', hsame⟩
  exact ⟨out, out', h, haccepts', hsame⟩

/-- The blanks are next to commas and parentheses. -/
def NextToSeparators (items : List Item) (n : ℕ) : Prop :=
  (∀ front item back, items = front ++ item :: back → 0 < item.blanks →
    textual item.char = false ∧ isspace item.char = false ∨
      ∃ c ∈ (plain front).getLast?, textual c = false ∧ isspace c = false) ∧
  (0 < n → ∃ c ∈ (plain items).getLast?, textual c = false ∧ isspace c = false)

/-- The line `a,` and the line `a ,`, which gives the command `a ` with a blank. -/
theorem layout_fails :
    ¬ ∀ (before : List UInt8) (items : List Item) (n : ℕ) (stack : Stack) (out : Outcome),
      Accepts before (plain items) stack out → NextToSeparators items n →
      ∃ out', Accepts before (padded items ++ List.replicate n blank) stack out' ∧
        out'.scan.queue.first = out.scan.queue.first := by
  intro h
  have haccepts : ∃ out, Accepts [] (plain [⟨0, 97⟩, ⟨1, 44⟩]) ⟨.replicate MAXSIZE .null, 0⟩ out :=
    ⟨_, ⟨3, rfl⟩, rfl, rfl, by decide⟩
  have hnext : NextToSeparators [⟨0, 97⟩, ⟨1, 44⟩] 0 := by
    refine ⟨?_, fun hpos => absurd hpos (Nat.lt_irrefl 0)⟩
    intro front item back hitems hblanks
    have hitem : item ∈ ([⟨0, 97⟩, ⟨1, 44⟩] : List Item) := by
      rw [hitems]
      simp
    rcases List.mem_cons.mp hitem with rfl | hitem
    · cases hblanks
    · rw [List.mem_singleton.mp hitem]
      exact .inl ⟨rfl, rfl⟩
  rcases haccepts with ⟨out, haccepts⟩
  rcases h [] _ 0 _ out haccepts hnext with ⟨out', haccepts', hsame⟩
  have hcalls := hsame
  rw [haccepts'.acceptable.2, haccepts.acceptable.2] at hcalls
  exact absurd (sums_of_queue hcalls).1 (by decide)

end MinixOS.TokenizerLayout
