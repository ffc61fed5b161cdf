import MinixOS.AliasFile

/-!
# Reading a command line

The function `read_cmd_line` of functions.c, and what `main` does with the line it reads before
the tokenizer gets it. The buffer holds whatever was in it before. A read in front of the buffer
finds what stands in memory there, which is a parameter, and a read in front of that stops the
call, as every other access outside the buffer does.
-/
namespace MinixOS.CommandLine
open LoopExecution CheckedExecution Tokenizer ShellExecution AliasFile

def SIZE_BUF : ℕ := 512

/-- The array `command` of `main`. -/
abbrev Buffer := Vector UInt8 SIZE_BUF

/-- The next character of the input. At its end the byte is that of `EOF` in a `char`. -/
def getchar : List UInt8 → UInt8 × List UInt8
  | [] => (255, [])
  | c :: stream => (c, stream)

/-- The rest of the input, and the variables of `read_cmd_line`. -/
structure Reading where
  stream : List UInt8
  command_line : Buffer
  i : ℕ

/-- The character is read before it is known whether there is room for it. -/
def readPass (s : Reading) : Pass Reading (Except Stop Reading) :=
  let (c, stream) := getchar s.stream
  if c ≠ newline ∧ s.i < SIZE_BUF - 1 then
    match writeAt s.command_line s.i c with
    | .error stop => .leave (.error stop)
    | .ok command_line => .again { stream := stream, command_line := command_line, i := s.i + 1 }
  else .leave (.ok { s with stream := stream })

/-- The call, with the first character of the line as its result. -/
def readCmdLine (fuel : ℕ) (stream : List UInt8) (command_line : Buffer) :
    Except Stop (Reading × UInt8) := do
  let s ← loop readPass fuel { stream := stream, command_line := command_line, i := 0 }
  let command_line ← writeAt s.command_line s.i 0
  let ret ← readAt command_line 0
  return ({ s with command_line := command_line }, ret)

/-! ## The comma of the last command -/

def strlen (command : Buffer) : Except Stop ℕ :=
  if 0 ∈ command.toList then .ok (textOf command.toList).length
  else .error (.outOfRange (SIZE_BUF : ℕ))

/-- `command[index]`, where the buffer has these bytes in front of it, the nearest first. -/
def charAt (before : List UInt8) (command : Buffer) : ℤ → Except Stop UInt8
  | .ofNat index => readAt command (index : ℕ)
  | .negSucc index =>
      match before[index]? with
      | some c => .ok c
      | none => .error (.outOfRange (.negSucc index))

/-- A line that does not end with a comma gets one, unless there is one in front of its last
character. -/
def appendComma (before : List UInt8) (command : Buffer) : Except Stop Buffer := do
  let bufferlen ← strlen command
  if bufferlen ≠ 0 then
    let last ← charAt before command (bufferlen - 1)
    if last ≠ comma then
      let front ← charAt before command (bufferlen - 2)
      if front ≠ comma then
        let command ← writeAt command bufferlen comma
        writeAt command (bufferlen + 1) 0
      else return command
    else return command
  else return command

/-- What `main` does with the buffer before the call of `tokenizer`. -/
def readLine (fuel : ℕ) (before stream : List UInt8) (command : Buffer) :
    Except Stop (List UInt8 × Buffer) := do
  let (s, _) ← readCmdLine fuel stream command
  let command ← appendComma before s.command_line
  return (s.stream, command)

variable {before line rest text : List UInt8} {command : Buffer} {c d : UInt8}

/-! ## One line -/

/-- The loop takes the characters of the line for which there is room, and one character more. -/
theorem leaves_line {front tail : List UInt8} (hline : newline ∉ line) (rest : List UInt8)
    (hroom : front.length ≤ SIZE_BUF - 1) (h : command.toList = front ++ tail) :
    ∃ s, Leaves readPass ⟨line ++ newline :: rest, command, front.length⟩ (.ok s) ∧
      s.stream = (line ++ newline :: rest).drop
        ((line.take (SIZE_BUF - 1 - front.length)).length + 1) ∧
      s.i = front.length + (line.take (SIZE_BUF - 1 - front.length)).length ∧
      ∃ tail', s.command_line.toList =
        front ++ line.take (SIZE_BUF - 1 - front.length) ++ tail' := by
  induction line generalizing front tail command with
  | nil =>
      have hpass : readPass ⟨[] ++ newline :: rest, command, front.length⟩ =
          .leave (.ok ⟨rest, command, front.length⟩) := by
        simp [readPass, getchar]
      refine ⟨_, (Walks.refl _).leaves hpass, by simp, by simp, tail, ?_⟩
      rw [h, List.take_nil, List.append_nil]
  | cons c line ih =>
      rw [List.mem_cons, not_or] at hline
      by_cases hfull : front.length < SIZE_BUF - 1
      · rcases tail_of_room h (by omega) with ⟨x, tail', rfl⟩
        rcases write_tail h c with ⟨command', hwrite, hcommand'⟩
        have hpass : readPass ⟨c :: line ++ newline :: rest, command, front.length⟩ =
            .again ⟨line ++ newline :: rest, command', (front ++ [c]).length⟩ := by
          simp [readPass, getchar, hwrite, hfull, Ne.symm hline.1]
        rw [List.append_cons] at hcommand'
        have hroom' : (front ++ [c]).length ≤ SIZE_BUF - 1 := by
          rw [List.length_append, List.length_singleton]
          omega
        have htake : (c :: line).take (SIZE_BUF - 1 - front.length) =
            c :: line.take (SIZE_BUF - 1 - (front ++ [c]).length) := by
          rw [List.length_append, List.length_singleton, ← Nat.sub_sub]
          rw [List.take_cons (Nat.sub_pos_of_lt hfull)]
        rcases ih hline.2 hroom' hcommand' with ⟨s, hleaves, hstream, hi, tail'', htail⟩
        refine ⟨s, hleaves.pass hpass, ?_, ?_, tail'', ?_⟩
        · rw [hstream, htake]
          rfl
        · rw [hi, htake]
          simp only [List.length_append, List.length_cons, List.length_nil]
          omega
        · rw [htail, htake]
          simp
      · have hzero : SIZE_BUF - 1 - front.length = 0 := by omega
        have hpass : readPass ⟨c :: line ++ newline :: rest, command, front.length⟩ =
            .leave (.ok ⟨line ++ newline :: rest, command, front.length⟩) := by
          simp [readPass, getchar, hfull]
        refine ⟨_, (Walks.refl _).leaves hpass, ?_, ?_, tail, ?_⟩
        · rw [hzero]
          rfl
        · rw [hzero]
          rfl
        · rw [h, hzero, List.take_zero, List.append_nil]

/-- The buffer holds the string, with its terminator behind it. -/
structure Holds (command : Buffer) (text : List UInt8) : Prop where
  string : 0 ∉ text
  stored : ∃ tail, command.toList = text ++ 0 :: tail

theorem holds_textOf (h : 0 ∈ command.toList) : Holds command (textOf command.toList) := by
  rcases List.eq_append_cons_of_mem h with ⟨text, tail, htoList, hstring⟩
  rw [htoList, textOf_append hstring]
  exact ⟨hstring, tail, htoList⟩

/-- A call of `read_cmd_line`: the part of the line for which there is room is in the buffer, and
the input behind it is left but for one character. -/
theorem readCmdLine_comes (hline : newline ∉ line) (rest : List UInt8) (command : Buffer) :
    ∃ s ret tail, Yields (fun fuel => readCmdLine fuel (line ++ newline :: rest) command) (s, ret) ∧
      s.stream = (line ++ newline :: rest).drop ((line.take (SIZE_BUF - 1)).length + 1) ∧
      s.command_line.toList = line.take (SIZE_BUF - 1) ++ 0 :: tail := by
  have hbuffer : command.toList = [] ++ command.toList := rfl
  rcases leaves_line hline rest (Nat.zero_le _) hbuffer with ⟨s, hleaves, hstream, hi, tail, htail⟩
  simp only [List.length_nil, Nat.sub_zero, Nat.zero_add, List.nil_append] at hstream hi htail
  have hroom : (line.take (SIZE_BUF - 1)).length < SIZE_BUF := by
    have hsize : 0 < SIZE_BUF := by decide
    rw [List.length_take]
    omega
  rcases tail_of_room htail hroom with ⟨x, tail', rfl⟩
  rcases write_tail htail 0 with ⟨command', hwrite, hcommand'⟩
  have hfirst : 0 < SIZE_BUF := by decide
  have hret : readAt command' 0 = .ok (command'.get ⟨0, hfirst⟩) := readAt_fin command' ⟨0, hfirst⟩
  refine ⟨{ s with command_line := command' }, command'.get ⟨0, hfirst⟩, tail', ?_, hstream,
    hcommand'⟩
  apply (yields_of_leaves hleaves).bind
  rw [hi, hwrite, ok_bind, hret]
  rfl

/-! ## The end of the line -/

namespace Holds

theorem length_lt (h : Holds command text) : text.length < SIZE_BUF := by
  rcases h.stored with ⟨tail, htoList⟩
  have hlength : command.toList.length = SIZE_BUF := Vector.length_toList
  rw [htoList, List.length_append, List.length_cons] at hlength
  omega

theorem textOf_eq (h : Holds command text) : textOf command.toList = text := by
  rcases h.stored with ⟨tail, htoList⟩
  rw [htoList, textOf_append h.string]

theorem strlen_eq (h : Holds command text) : strlen command = .ok text.length := by
  rcases h.stored with ⟨tail, htoList⟩
  unfold strlen
  rw [if_pos, h.textOf_eq]
  rw [htoList]
  simp

theorem readAt_eq (h : Holds command text) {index : ℕ} (hc : text[index]? = some c) :
    readAt command (index : ℕ) = .ok c := by
  rcases h.stored with ⟨tail, htoList⟩
  have hi := (List.getElem?_eq_some_iff.mp hc).choose
  rw [readAt_eq_ok_iff, htoList, List.getElem?_append_left hi]
  exact hc

/-- The writes behind the end of the line. -/
theorem close (h : Holds command text) (hroom : text.length + 1 < SIZE_BUF) :
    ∃ command', (writeAt command (text.length : ℕ) comma >>= fun command =>
        writeAt command ((text.length : ℕ) + 1) 0) = .ok command' ∧
      Holds command' (text ++ [comma]) := by
  rcases h.stored with ⟨tail, htoList⟩
  rcases write_tail htoList comma with ⟨command', hwrite, hcommand'⟩
  rw [List.append_cons] at hcommand'
  have hlength : (text ++ [comma]).length = text.length + 1 := by simp
  have hbound : (text ++ [comma]).length < SIZE_BUF := by omega
  rcases tail_of_room hcommand' hbound with ⟨x, tail', rfl⟩
  rcases write_tail hcommand' 0 with ⟨command'', hwrite', hcommand''⟩
  refine ⟨command'', ?_, ?_, tail', hcommand''⟩
  · rw [hwrite, ok_bind, ← hwrite', hlength]
    rfl
  · rw [List.mem_append, List.mem_singleton, not_or]
    exact ⟨h.string, by decide⟩

/-- A full buffer has no room for the terminator behind the comma. -/
theorem close_full (h : Holds command text) (hfull : text.length + 1 = SIZE_BUF) :
    (writeAt command (text.length : ℕ) comma >>= fun command =>
        writeAt command ((text.length : ℕ) + 1) 0) = .error (.outOfRange (SIZE_BUF : ℕ)) := by
  rcases h.stored with ⟨tail, htoList⟩
  rcases write_tail htoList comma with ⟨command', hwrite, _⟩
  rw [hwrite, ok_bind]
  have hindex : ((text.length : ℕ) : ℤ) + 1 = (SIZE_BUF : ℕ) := by omega
  rw [hindex]
  exact dif_neg fun hrange => absurd hrange.2 (Nat.lt_irrefl _)

theorem append_nil (h : Holds command []) (before : List UInt8) :
    appendComma before command = .ok command := by
  unfold appendComma
  rw [h.strlen_eq]
  rfl

/-- Behind text the comma depends on the last two characters. -/
theorem append_end {front : List UInt8} (h : Holds command (front ++ [c])) (before : List UInt8) :
    appendComma before command =
      if c = comma then .ok command
      else charAt before command ((front.length : ℕ) - 1) >>= fun d =>
        if d = comma then .ok command
        else writeAt command ((front ++ [c]).length : ℕ) comma >>= fun command =>
          writeAt command (((front ++ [c]).length : ℕ) + 1) 0 := by
  have hlength : (front ++ [c]).length = front.length + 1 := by simp
  have hindex : (((front ++ [c]).length : ℕ) : ℤ) - 1 = (front.length : ℕ) := by omega
  have hindex' : (((front ++ [c]).length : ℕ) : ℤ) - 2 = (front.length : ℕ) - 1 := by omega
  have hlast : charAt before command (front.length : ℕ) = .ok c := h.readAt_eq (by simp)
  have hpos : (front ++ [c]).length ≠ 0 := by omega
  unfold appendComma
  rw [h.strlen_eq, ok_bind, if_pos hpos, hindex, hlast, ok_bind, hindex']
  by_cases hc : c = comma
  · rw [if_pos hc, if_neg (not_not_intro hc)]
    rfl
  · rw [if_neg hc, if_pos hc]
    congr 1
    funext d
    by_cases hd : d = comma
    · rw [if_pos hd, if_neg (not_not_intro hd)]
      rfl
    · rw [if_neg hd, if_pos hd]

theorem append_comma {front : List UInt8} (h : Holds command (front ++ [comma]))
    (before : List UInt8) : appendComma before command = .ok command := by
  rw [h.append_end, if_pos rfl]

theorem append_two {front : List UInt8} (h : Holds command (front ++ [d, c])) (hc : c ≠ comma)
    (before : List UInt8) :
    appendComma before command =
      if d = comma then .ok command
      else writeAt command ((front ++ [d, c]).length : ℕ) comma >>= fun command =>
        writeAt command (((front ++ [d, c]).length : ℕ) + 1) 0 := by
  rw [List.append_cons] at h ⊢
  have hindex : (((front ++ [d]).length : ℕ) : ℤ) - 1 = (front.length : ℕ) := by simp
  have hread : charAt before command (front.length : ℕ) = .ok d := h.readAt_eq (by simp)
  rw [h.append_end, if_neg hc, hindex, hread, ok_bind]

/-- A single character has the memory in front of the buffer in front of it. -/
theorem append_one (h : Holds command [c]) (hc : c ≠ comma) (before : List UInt8) :
    appendComma before command = charAt before command (-1) >>= fun d =>
      if d = comma then .ok command
      else writeAt command (([c].length : ℕ) : ℤ) comma >>= fun command =>
        writeAt command (([c].length : ℕ) + 1) 0 := by
  have hfront : Holds command ([] ++ [c]) := h
  have hend := hfront.append_end before
  rw [if_neg hc] at hend
  exact hend

end Holds

/-! ## Accesses to the buffer -/

/-- A line of one character is a comma, and one that fills the buffer has a comma as one of its
last two characters. -/
structure WithinBuffer (text : List UInt8) : Prop where
  front : text.length = 1 → text = [comma]
  back : text.length = SIZE_BUF - 1 → comma ∈ text.drop (SIZE_BUF - 3)

theorem ok_in_range {A : Type} (a : A) (index : ℤ) :
    (.ok a : Except Stop A) ≠ .error (.outOfRange index) := by
  intro h
  cases h

theorem withinBuffer_comma (front : List UInt8) (h : (front ++ [comma]).length < SIZE_BUF) :
    WithinBuffer (front ++ [comma]) := by
  have hsize : SIZE_BUF = 512 := rfl
  constructor
  · intro hone
    cases front with
    | nil => rfl
    | cons d front =>
        rw [List.length_append, List.length_cons, List.length_singleton] at hone
        omega
  · intro hfull
    rw [List.length_append, List.length_singleton] at hfull
    rw [List.drop_append_of_le_length (by omega)]
    exact List.mem_append_right _ (List.mem_singleton.mpr rfl)

theorem withinBuffer_two {front : List UInt8} (hc : c ≠ comma) :
    WithinBuffer (front ++ [d, c]) ↔ (front.length + 2 = SIZE_BUF - 1 → d = comma) := by
  have hsize : SIZE_BUF = 512 := rfl
  have hlength : (front ++ [d, c]).length = front.length + 2 := by simp
  have hdrop : front.length + 2 = SIZE_BUF - 1 →
      (front ++ [d, c]).drop (SIZE_BUF - 3) = [d, c] := by
    intro hfull
    exact List.drop_left' (by omega)
  constructor
  · intro h hfull
    have hmem := h.back (hlength.trans hfull)
    rw [hdrop hfull] at hmem
    rcases List.mem_cons.mp hmem with he | hmem
    · exact he.symm
    · exact absurd (List.mem_singleton.mp hmem).symm hc
  · intro h
    constructor
    · intro hone
      omega
    · intro hfull
      have hfull' := hlength.symm.trans hfull
      rw [hdrop hfull', h hfull']
      exact List.mem_cons_self

theorem appendComma_in_range (h : Holds command text) :
    (∀ index, appendComma [] command ≠ .error (.outOfRange index)) ↔ WithinBuffer text := by
  have hsize : SIZE_BUF = 512 := rfl
  have hroom := h.length_lt
  rcases List.eq_nil_or_concat text with rfl | ⟨front, c, rfl⟩
  · rw [h.append_nil]
    refine iff_of_true (ok_in_range _) ⟨?_, ?_⟩
    · exact fun hone => absurd hone (by decide)
    · exact fun hfull => absurd hfull (by decide)
  rw [List.concat_eq_append] at h hroom ⊢
  by_cases hc : c = comma
  · subst hc
    rw [h.append_comma]
    exact iff_of_true (ok_in_range _) (withinBuffer_comma front hroom)
  rcases List.eq_nil_or_concat front with rfl | ⟨front, d, rfl⟩
  · rw [List.nil_append] at h ⊢
    rw [h.append_one hc]
    refine iff_of_false (fun hrange => hrange (-1) rfl) fun hwithin => hc ?_
    exact (List.cons.inj (hwithin.front rfl)).1
  · rw [List.concat_eq_append, List.append_assoc, List.singleton_append] at h hroom ⊢
    rw [h.append_two hc, withinBuffer_two hc]
    rw [List.length_append, List.length_cons, List.length_singleton] at hroom
    by_cases hd : d = comma
    · rw [if_pos hd]
      exact iff_of_true (ok_in_range _) fun _ => hd
    · rw [if_neg hd]
      by_cases hfull : front.length + 2 = SIZE_BUF - 1
      · have hend : (front ++ [d, c]).length + 1 = SIZE_BUF := by
          rw [List.length_append, List.length_cons, List.length_singleton]
          omega
        rw [h.close_full hend]
        exact iff_of_false (fun hrange => hrange _ rfl) fun himp => hd (himp hfull)
      · have hend : (front ++ [d, c]).length + 1 < SIZE_BUF := by
          rw [List.length_append, List.length_cons, List.length_singleton]
          omega
        rcases h.close hend with ⟨command', hclose, _⟩
        rw [hclose]
        exact iff_of_true (ok_in_range _) fun himp => absurd himp hfull

theorem textOf_terminated (chars tail : List UInt8) :
    textOf (chars ++ 0 :: tail) = textOf chars := by
  induction chars with
  | nil => rfl
  | cons c chars ih =>
      unfold textOf at ih ⊢
      rw [List.cons_append, List.takeWhile_cons, List.takeWhile_cons, ih]

/-- Reading a line and ending it with a comma stays within the buffer exactly for such lines. -/
theorem line_in_buffer_iff (line rest : List UInt8) (command : Buffer) (hline : newline ∉ line) :
    (∀ fuel index, readLine fuel [] (line ++ newline :: rest) command ≠
        .error (.outOfRange index)) ↔
      WithinBuffer (textOf (line.take (SIZE_BUF - 1))) := by
  rcases readCmdLine_comes hline rest command with ⟨s, ret, tail, hyields, _, htoList⟩
  have hmem : 0 ∈ s.command_line.toList := by
    rw [htoList]
    simp
  have hholds := holds_textOf hmem
  rw [htoList, textOf_terminated] at hholds
  rw [← appendComma_in_range hholds, forall_comm]
  apply forall_congr'
  intro index
  rw [← not_exists, not_iff_not]
  unfold readLine
  rw [hyields.outOfRange_iff]
  dsimp only
  cases happend : appendComma [] s.command_line with
  | ok command' => exact iff_of_false (ok_in_range _ index) (ok_in_range _ index)
  | error stop =>
      rw [error_bind]
      exact ⟨fun h => by cases h; rfl, fun h => by cases h; rfl⟩

/-- The line `ab`. -/
theorem line_in_buffer_two :
    newline ∉ [97, 98] ∧ ∀ fuel index,
      readLine fuel [] [97, 98, 10] (Vector.replicate SIZE_BUF 0) ≠ .error (.outOfRange index) := by
  have hline : newline ∉ [97, 98] := by decide
  have hwithin : WithinBuffer (textOf (List.take (SIZE_BUF - 1) [97, 98])) :=
    ⟨fun hone => absurd hone (by decide), fun hfull => absurd hfull (by decide)⟩
  exact ⟨hline, (line_in_buffer_iff [97, 98] [] (Vector.replicate SIZE_BUF 0) hline).mpr hwithin⟩

/-- The line `a`, with a look at the byte in front of the buffer. -/
theorem line_in_buffer_fails :
    ¬ ∀ (line rest : List UInt8) (command : Buffer), newline ∉ line → ∀ fuel index,
      readLine fuel [] (line ++ newline :: rest) command ≠ .error (.outOfRange index) := by
  intro h
  have hstop : (readLine 2 [] [97, 10] (Vector.replicate SIZE_BUF 0)).map (fun _ => ()) =
      .error (.outOfRange (-1)) := by decide +kernel
  have hnever := h [97] [] (Vector.replicate SIZE_BUF 0) (by decide) 2 (-1)
  apply hnever
  rw [List.singleton_append]
  cases hread : readLine 2 [] [97, 10] (Vector.replicate SIZE_BUF 0) with
  | ok out =>
      rw [hread] at hstop
      cases hstop
  | error stop =>
      rw [hread] at hstop
      cases hstop
      exact hread

/-! ## Successive calls -/

/-- Calls of `read_cmd_line` up to the end of the input, and the strings they leave in the buffer.
What is in the buffer at the start of a call is left open. -/
inductive Reads : List UInt8 → List Word → Prop
  | done : Reads [] []
  | call {stream : List UInt8} {s : Reading} {ret : UInt8} {texts : List Word} (command : Buffer)
      (hne : stream ≠ [])
      (hread : ComesTo (fun fuel => readCmdLine fuel stream command) (s, ret))
      (hrest : Reads s.stream texts) : Reads stream (textOf s.command_line.toList :: texts)

/-- The characters of the line are all in the buffer, in front of its terminator. -/
def Fits (line : List UInt8) : Prop := line.length ≤ SIZE_BUF - 1 ∧ 0 ∉ line

/-- The lines with their newlines. -/
def streamOf (lines : List Word) : List UInt8 := lines.flatMap fun line => line ++ [newline]

theorem drop_line (line rest : List UInt8) :
    (line ++ newline :: rest).drop ((line.take (SIZE_BUF - 1)).length + 1) =
      if line.length ≤ SIZE_BUF - 1 then rest else line.drop SIZE_BUF ++ newline :: rest := by
  have hsize : SIZE_BUF = 512 := rfl
  split_ifs with hle
  · rw [List.take_of_length_le hle, ← List.drop_drop, List.drop_left]
    rfl
  · have hlength : (line.take (SIZE_BUF - 1)).length + 1 = SIZE_BUF := by
      rw [List.length_take]
      omega
    rw [hlength, List.drop_append_of_le_length (by omega)]

/-- The first call on a line. -/
theorem Reads.first (hline : newline ∉ line) {texts : List Word}
    (h : Reads (line ++ newline :: rest) texts) :
    ∃ others, texts = textOf (line.take (SIZE_BUF - 1)) :: others ∧
      Reads (if line.length ≤ SIZE_BUF - 1 then rest
        else line.drop SIZE_BUF ++ newline :: rest) others := by
  generalize hstream : line ++ newline :: rest = stream at h
  cases h with
  | done => exact absurd hstream (List.append_ne_nil_of_right_ne_nil _ (List.cons_ne_nil _ _))
  | call command _ hread hrest =>
      subst hstream
      rcases readCmdLine_comes hline rest command with ⟨s, ret, tail, hyields, hs, htoList⟩
      cases hread.unique hyields.comes
      rw [hs, drop_line] at hrest
      rw [htoList, textOf_terminated]
      exact ⟨_, rfl, hrest⟩

theorem textOf_length (text : List UInt8) : (textOf text).length ≤ text.length :=
  (List.takeWhile_sublist _).length_le

theorem textOf_length_lt (h : 0 ∈ text) : (textOf text).length < text.length := by
  rcases List.eq_append_cons_of_mem h with ⟨front, back, rfl, hfront⟩
  rw [textOf_append hfront, List.length_append, List.length_cons]
  omega

/-- The strings of one line, and those of the lines behind it. -/
theorem Reads.one_line (hline : newline ∉ line) {texts : List Word}
    (h : Reads (line ++ newline :: rest) texts) :
    ∃ first others, texts = first ++ others ∧ Reads rest others ∧
      (Fits line → first.flatten = line) ∧
      (¬ Fits line → first.flatten.length < line.length) := by
  have hsize : SIZE_BUF = 512 := rfl
  induction hn : line.length using Nat.strong_induction_on generalizing line texts with
  | _ n ih =>
      subst hn
      rcases h.first hline with ⟨others, rfl, hothers⟩
      split_ifs at hothers with hle
      · refine ⟨[textOf line], others, ?_, hothers, ?_, ?_⟩
        · rw [List.take_of_length_le hle]
          rfl
        · intro hfits
          rw [AliasFile.textOf_eq hfits.2]
          simp
        · intro hfits
          have hnull : 0 ∈ line := by
            by_contra hnull
            exact hfits ⟨hle, hnull⟩
          have hlt := textOf_length_lt hnull
          simpa using hlt
      · have hdrop : newline ∉ line.drop SIZE_BUF := fun hmem => hline (List.mem_of_mem_drop hmem)
        have hshort : (line.drop SIZE_BUF).length < line.length := by
          rw [List.length_drop]
          omega
        rcases ih _ hshort hdrop hothers rfl with ⟨first, others, rfl, hrest, hfits, hlong⟩
        have hfirst : first.flatten.length ≤ (line.drop SIZE_BUF).length := by
          by_cases hdropped : Fits (line.drop SIZE_BUF)
          · rw [hfits hdropped]
          · exact (hlong hdropped).le
        refine ⟨textOf (line.take (SIZE_BUF - 1)) :: first, others, rfl, hrest, ?_, ?_⟩
        · exact fun hfits => absurd hfits.1 hle
        · intro _
          have htaken := textOf_length (line.take (SIZE_BUF - 1))
          rw [List.length_take] at htaken
          rw [List.length_drop] at hfirst
          rw [List.flatten_cons, List.length_append]
          omega

theorem exists_reads_line (hline : newline ∉ line) {others : List Word} (h : Reads rest others) :
    ∃ texts, Reads (line ++ newline :: rest) texts := by
  have hsize : SIZE_BUF = 512 := rfl
  induction hn : line.length using Nat.strong_induction_on generalizing line with
  | _ n ih =>
      subst hn
      have hne : line ++ newline :: rest ≠ [] :=
        List.append_ne_nil_of_right_ne_nil _ (List.cons_ne_nil _ _)
      rcases readCmdLine_comes hline rest (Vector.replicate SIZE_BUF 0) with
        ⟨s, ret, tail, hyields, hs, _⟩
      have hstream : ∃ texts, Reads s.stream texts := by
        rw [hs, drop_line]
        split_ifs with hle
        · exact ⟨others, h⟩
        · have hshort : (line.drop SIZE_BUF).length < line.length := by
            rw [List.length_drop]
            omega
          exact ih _ hshort (fun hmem => hline (List.mem_of_mem_drop hmem)) rfl
      rcases hstream with ⟨texts, htexts⟩
      exact ⟨_, .call _ hne hyields.comes htexts⟩

theorem streamOf_cons (line : Word) (lines : List Word) :
    streamOf (line :: lines) = line ++ newline :: streamOf lines := by
  simp [streamOf]

theorem exists_reads {lines : List Word} (hlines : ∀ line ∈ lines, newline ∉ line) :
    ∃ texts, Reads (streamOf lines) texts := by
  induction lines with
  | nil => exact ⟨[], .done⟩
  | cons line lines ih =>
      rw [List.forall_mem_cons] at hlines
      rcases ih hlines.2 with ⟨others, hothers⟩
      rw [streamOf_cons]
      exact exists_reads_line hlines.1 hothers

theorem filter_streamOf {lines : List Word} (hlines : ∀ line ∈ lines, newline ∉ line) :
    (streamOf lines).filter (· ≠ newline) = lines.flatten := by
  induction lines with
  | nil => rfl
  | cons line lines ih =>
      rw [List.forall_mem_cons] at hlines
      have hkept : line.filter (· ≠ newline) = line :=
        List.filter_eq_self.mpr fun c hc => decide_eq_true (ne_of_mem_of_not_mem hc hlines.1)
      rw [streamOf_cons, List.filter_append, hkept, List.filter_cons_of_neg (by simp),
        ih hlines.2, List.flatten_cons]

theorem Reads.lines {lines texts : List Word} (hlines : ∀ line ∈ lines, newline ∉ line)
    (h : Reads (streamOf lines) texts) :
    ((∀ line ∈ lines, Fits line) → texts.flatten = lines.flatten) ∧
      (¬ (∀ line ∈ lines, Fits line) → texts.flatten.length < lines.flatten.length) := by
  induction lines generalizing texts with
  | nil =>
      have hnone : ∀ line ∈ ([] : List Word), Fits line := by simp
      refine ⟨fun _ => ?_, fun hnot => absurd hnone hnot⟩
      cases h with
      | done => rfl
      | call _ hne _ _ => exact absurd rfl hne
  | cons line lines ih =>
      rw [List.forall_mem_cons] at hlines ⊢
      rw [streamOf_cons] at h
      rcases h.one_line hlines.1 with ⟨first, others, rfl, hothers, hfits, hlong⟩
      rcases ih hlines.2 hothers with ⟨hall, hnot⟩
      rw [List.flatten_append, List.flatten_cons]
      constructor
      · intro hlinesFit
        rw [hfits hlinesFit.1, hall hlinesFit.2]
      · intro hlinesFit
        rw [List.length_append, List.length_append]
        have hfirst : first.flatten.length ≤ line.length := by
          by_cases hline : Fits line
          · rw [hfits hline]
          · exact (hlong hline).le
        have hrest : others.flatten.length ≤ lines.flatten.length := by
          by_cases hrest : ∀ line ∈ lines, Fits line
          · rw [hall hrest]
          · exact (hnot hrest).le
        by_cases hline : Fits line
        · have hlt := hnot fun hrest => hlinesFit ⟨hline, hrest⟩
          omega
        · have hlt := hlong hline
          omega

/-- The strings of successive calls are the input without its newlines exactly if every line fits
the buffer. -/
theorem reading_iff (lines : List Word) (hlines : ∀ line ∈ lines, newline ∉ line) :
    (∃ texts, Reads (streamOf lines) texts) ∧
      ∀ texts, Reads (streamOf lines) texts →
        (texts.flatten = (streamOf lines).filter (· ≠ newline) ↔
          ∀ line ∈ lines, line.length ≤ SIZE_BUF - 1 ∧ 0 ∉ line) := by
  refine ⟨exists_reads hlines, fun texts h => ?_⟩
  rcases h.lines hlines with ⟨hall, hnot⟩
  rw [filter_streamOf hlines]
  constructor
  · intro hflatten
    by_contra hfit
    exact absurd (congrArg List.length hflatten) (hnot hfit).ne
  · exact hall

/-- The lines `ab,` and `c,`, with an empty one between them. -/
theorem reading_three :
    (∀ line ∈ [[97, 98, 44], [], [99, 44]], newline ∉ line) ∧
      ∀ texts, Reads (streamOf [[97, 98, 44], [], [99, 44]]) texts →
        texts.flatten = [97, 98, 44, 99, 44] := by
  have hlines : ∀ line ∈ [[97, 98, 44], [], [99, 44]], newline ∉ line := by decide
  refine ⟨hlines, fun texts h => ?_⟩
  rw [((reading_iff [[97, 98, 44], [], [99, 44]] hlines).2 texts h).mpr (by decide)]
  rfl

/-- A line of `SIZE_BUF` characters, the last of which is lost. -/
theorem reading_fails :
    ¬ ∀ (lines texts : List Word), (∀ line ∈ lines, newline ∉ line) →
      Reads (streamOf lines) texts → texts.flatten = (streamOf lines).filter (· ≠ newline) := by
  intro h
  have hlines : ∀ line ∈ [List.replicate SIZE_BUF 97], newline ∉ line := by
    intro line hline hmem
    rw [List.mem_singleton.mp hline] at hmem
    exact absurd (List.eq_of_mem_replicate hmem) (by decide)
  rcases exists_reads hlines with ⟨texts, htexts⟩
  have hflatten := h _ texts hlines htexts
  rw [filter_streamOf hlines] at hflatten
  have hlong : ¬ ∀ line ∈ [List.replicate SIZE_BUF (97 : UInt8)], Fits line := by
    intro hfits
    have hfit := (hfits _ List.mem_cons_self).1
    rw [List.length_replicate] at hfit
    exact absurd hfit (by decide)
  exact absurd (congrArg List.length hflatten) ((htexts.lines hlines).2 hlong).ne

end MinixOS.CommandLine
