import MinixOS.ShellExecution
import Mathlib.Data.List.TakeWhile

/-!
# The file of the aliases

The functions `save_alias` and `restaure_alias` of functions.c. A file is the list of
its bytes. What the array `line` holds before the first line is read into it is a
parameter, and behind the terminator of a line it still holds what was there before.

An alias survives saving and restoring just if its line, with the newline, is shorter
than the array: `fgets` cuts a longer line, and the scan for the newline runs out of
the array.
-/
namespace MinixOS.AliasFile
open LoopExecution CheckedExecution Tokenizer ShellExecution

def equalsSign : UInt8 := 61

/-- The size of the array `line`. -/
def lineSize : ℕ := 128

/-! ## Saving -/

/-- What `fprintf` writes for an alias. -/
def savedLine (entry : Alias) : List UInt8 :=
  entry.name ++ equalsSign :: (entry.command ++ [newline])

structure Saved where
  file : List UInt8
  log : List Event
deriving DecidableEq, Repr

/-- If the file is not opened, `fprintf` and `fclose` read through NULL. -/
def saveAlias (opened : Bool) (aliases : List Alias) : Except Stop Saved :=
  if opened then
    .ok { file := aliases.flatMap savedLine
          log := [.printf "Alias are saved in alias.txt file\n"] }
  else .error .nullPointer

/-! ## Restoring -/

/-- At most `count` bytes of the file, up to a newline, and what is left of the file. -/
def takeLine : ℕ → List UInt8 → List UInt8 × List UInt8
  | 0, file => ([], file)
  | _ + 1, [] => ([], [])
  | count + 1, c :: file =>
      if c = newline then ([c], file)
      else (c :: (takeLine count file).1, (takeLine count file).2)

/-- The contents of `line` afterwards, and what is left of the file. The answer NULL is
given at the end of the file. -/
def fgets (line : List UInt8) (size : ℕ) : List UInt8 → Option (List UInt8 × List UInt8)
  | [] => none
  | c :: file =>
      let (text, rest) := takeLine (size - 1) (c :: file)
      some (text ++ 0 :: line.drop (text.length + 1), rest)

/-- The bytes of an array of this size up to one that is `stop`, copied into a zeroed
buffer from index `j` on, and what follows in the array. -/
def copyUpTo (size : ℕ) (stop : UInt8) : List UInt8 → ℕ → Word → Except Stop (Word × List UInt8)
  | [], _, _ => .error (.outOfRange size)
  | c :: rest, j, buffer =>
      if c = stop then .ok (buffer, rest)
      else if j < bufferSize then copyUpTo size stop rest (j + 1) (buffer ++ [c])
      else .error (.outOfRange j)

/-- What is done for one line. Nothing is printed here. -/
def restaureEntry (line : List UInt8) (aliases : List Alias) : Except Stop (List Alias) := do
  let (buffer_alias, rest) ← copyUpTo lineSize equalsSign line 0 []
  let (buffer_cmd, _) ← copyUpTo lineSize newline rest 0 []
  let out ← storeAlias (textOf buffer_alias) (textOf buffer_cmd) aliases
  return out.aliases

structure Restaure where
  line : List UInt8
  file : List UInt8
  aliases : List Alias

def restaurePass (s : Restaure) : Pass Restaure (Except Stop (List Alias)) :=
  match fgets s.line lineSize s.file with
  | none => .leave (.ok s.aliases)
  | some (line, file) =>
      match restaureEntry line s.aliases with
      | .error stop => .leave (.error stop)
      | .ok aliases => .again { line := line, file := file, aliases := aliases }

/-- If the file is not opened, `fclose` reads through NULL. -/
def restaureAlias (fuel : ℕ) (leftover : Vector UInt8 lineSize) (file : Option (List UInt8))
    (aliases : List Alias) : Except Stop (List Alias) := do
  let some bytes := file | throw .nullPointer
  loop restaurePass fuel { line := leftover.toList, file := bytes, aliases := aliases }

/-! ## One line -/

section Lines
variable {w rest : List UInt8} {stop : UInt8}

theorem takeWhile_whole (hw : stop ∉ w) : w.takeWhile (· ≠ stop) = w := by
  rw [List.takeWhile_eq_self_iff]
  exact fun c hc => decide_eq_true (ne_of_mem_of_not_mem hc hw)

/-- What stands in front of the first delimiter, and behind it. -/
theorem takeWhile_front (hw : stop ∉ w) (rest : List UInt8) :
    (w ++ stop :: rest).takeWhile (· ≠ stop) = w := by
  rw [List.takeWhile_append, takeWhile_whole hw, if_pos rfl,
    List.takeWhile_cons_of_neg (by simp), List.append_nil]

theorem dropWhile_front (hw : stop ∉ w) (rest : List UInt8) :
    (w ++ stop :: rest).dropWhile (· ≠ stop) = stop :: rest := by
  have hall : ∀ c ∈ w, decide (c ≠ stop) = true :=
    fun c hc => decide_eq_true (ne_of_mem_of_not_mem hc hw)
  rw [List.dropWhile_append_of_pos hall, List.dropWhile_cons_of_neg (by simp)]

/-- A line that fits is read whole. -/
theorem takeLine_fits {count : ℕ} (hw : newline ∉ w) (hlength : w.length < count) :
    takeLine count (w ++ newline :: rest) = (w ++ [newline], rest) := by
  induction w generalizing count with
  | nil =>
      cases count with
      | zero => cases hlength
      | succ count => simp [takeLine]
  | cons c w ih =>
      rw [List.mem_cons, not_or] at hw
      obtain ⟨hc, hw⟩ := hw
      cases count with
      | zero => cases hlength
      | succ count =>
          simp only [List.cons_append, takeLine, if_neg (Ne.symm hc),
            ih hw (Nat.lt_of_succ_lt_succ hlength)]

/-- Of a longer line only the first bytes are read. -/
theorem takeLine_cut {count : ℕ} (hw : newline ∉ w) (hlength : count ≤ w.length) :
    (takeLine count (w ++ rest)).1 = w.take count := by
  induction w generalizing count with
  | nil =>
      obtain rfl : count = 0 := Nat.le_zero.mp hlength
      rfl
  | cons c w ih =>
      rw [List.mem_cons, not_or] at hw
      obtain ⟨hc, hw⟩ := hw
      cases count with
      | zero => rfl
      | succ count =>
          simp only [List.cons_append, takeLine, if_neg (Ne.symm hc), List.take_succ_cons,
            ih hw (Nat.le_of_succ_le_succ hlength)]

/-- A last line without a newline is read whole too. -/
theorem takeLine_last {count : ℕ} (hw : newline ∉ w) (hlength : w.length ≤ count) :
    takeLine count w = (w, []) := by
  induction w generalizing count with
  | nil => cases count <;> rfl
  | cons c w ih =>
      rw [List.mem_cons, not_or] at hw
      obtain ⟨hc, hw⟩ := hw
      cases count with
      | zero => cases hlength
      | succ count =>
          simp only [takeLine, if_neg (Ne.symm hc), ih hw (Nat.le_of_succ_le_succ hlength)]

/-- The bytes in front of the delimiter are copied. -/
theorem copyUpTo_found (size : ℕ) {j : ℕ} (buffer : Word) (hw : stop ∉ w)
    (hroom : j + w.length ≤ bufferSize) :
    copyUpTo size stop (w ++ stop :: rest) j buffer = .ok (buffer ++ w, rest) := by
  induction w generalizing j buffer with
  | nil => simp [copyUpTo]
  | cons c w ih =>
      rw [List.mem_cons, not_or] at hw
      obtain ⟨hc, hw⟩ := hw
      rw [List.length_cons] at hroom
      have hj : j < bufferSize := by omega
      rw [List.cons_append, copyUpTo, if_neg (Ne.symm hc), if_pos hj, ih _ hw (by omega)]
      simp

/-- What was copied stands in front of the first delimiter of the array. -/
theorem copyUpTo_split {size j : ℕ} {l : List UInt8} {buffer copied : Word}
    (h : copyUpTo size stop l j buffer = .ok (copied, rest)) (hj : j ≤ bufferSize) :
    ∃ w, l = w ++ stop :: rest ∧ stop ∉ w ∧ copied = buffer ++ w ∧ j + w.length ≤ bufferSize := by
  induction l generalizing j buffer with
  | nil => cases h
  | cons c l ih =>
      unfold copyUpTo at h
      split_ifs at h with hc hroom
      · cases h
        exact ⟨[], by rw [hc]; rfl, List.not_mem_nil, (List.append_nil _).symm, hj⟩
      · obtain ⟨w, rfl, hw, rfl, hlength⟩ := ih h hroom
        refine ⟨c :: w, rfl, ?_, by simp, ?_⟩
        · rw [List.mem_cons, not_or]
          exact ⟨Ne.symm hc, hw⟩
        · rw [List.length_cons]
          omega

/-- Without the delimiter the scan runs out of the array. -/
theorem copyUpTo_missing (size : ℕ) (buffer : Word) (hw : stop ∉ w) :
    ∃ e, copyUpTo size stop w 0 buffer = .error e := by
  cases h : copyUpTo size stop w 0 buffer with
  | error e => exact ⟨e, rfl⟩
  | ok result =>
      obtain ⟨front, rfl, _⟩ := copyUpTo_split h (Nat.zero_le _)
      exact absurd (List.mem_append_right front List.mem_cons_self) hw

end Lines

/-! ## One alias -/

/-- What an alias is in the file format. -/
structure Storable (entry : Alias) : Prop where
  name : equalsSign ∉ entry.name ∧ newline ∉ entry.name
  command : newline ∉ entry.command
  strings : 0 ∉ entry.name ∧ 0 ∉ entry.command

/-- The line of the alias with its newline is shorter than the array. -/
def FitsLine (entry : Alias) : Prop :=
  entry.name.length + entry.command.length + 2 < lineSize

section Entries
variable {entry : Alias} {line rest : List UInt8} {aliases : List Alias}

theorem textOf_eq {text : Word} (h : 0 ∉ text) : textOf text = text := takeWhile_whole h

theorem textOf_append {text rest : Word} (h : 0 ∉ text) : textOf (text ++ 0 :: rest) = text :=
  takeWhile_front h rest

theorem storeAlias_eq (entry : Alias) (hroom : aliases.length < 512) :
    ∃ log, storeAlias entry.name entry.command aliases = .ok ⟨aliases ++ [entry], log⟩ := by
  unfold storeAlias
  rw [dif_pos ⟨entry.name_fits, entry.command_fits⟩, if_pos hroom]
  exact ⟨_, rfl⟩

/-- A line of the file in the array, with anything behind it, gives its alias. -/
theorem restaureEntry_fits (h : Storable entry) (hroom : aliases.length < 512) :
    restaureEntry (savedLine entry ++ rest) aliases = .ok (aliases ++ [entry]) := by
  have hname := entry.name_fits
  have hcommand := entry.command_fits
  have hsplit : savedLine entry ++ rest =
      entry.name ++ equalsSign :: (entry.command ++ newline :: rest) := by
    simp [savedLine]
  obtain ⟨log, hstore⟩ := storeAlias_eq entry hroom
  unfold restaureEntry
  rw [hsplit, copyUpTo_found lineSize [] h.name.1 (by omega), ok_bind]
  dsimp only
  rw [copyUpTo_found lineSize [] h.command (by omega), ok_bind]
  simp only [List.nil_append, textOf_eq h.strings.1, textOf_eq h.strings.2, hstore, ok_bind,
    pure_eq_ok]

theorem fgets_eq (line : List UInt8) {file : List UInt8} (hne : file ≠ []) (size : ℕ) :
    fgets line size file =
      some ((takeLine (size - 1) file).1 ++
        0 :: line.drop ((takeLine (size - 1) file).1.length + 1),
        (takeLine (size - 1) file).2) := by
  cases file with
  | nil => exact absurd rfl hne
  | cons c file => rfl

/-- The line of an alias without its newline. -/
def unended (entry : Alias) : List UInt8 := entry.name ++ equalsSign :: entry.command

theorem savedLine_append (entry : Alias) (rest : List UInt8) :
    savedLine entry ++ rest = unended entry ++ newline :: rest := by
  simp [savedLine, unended]

theorem savedLine_ne_nil (entry : Alias) (rest : List UInt8) : savedLine entry ++ rest ≠ [] := by
  simp [savedLine]

theorem newline_notMem (h : Storable entry) : newline ∉ unended entry := by
  unfold unended
  rw [List.mem_append, List.mem_cons]
  rintro (hmem | he | hmem)
  · exact h.name.2 hmem
  · cases he
  · exact h.command hmem

theorem length_unended (entry : Alias) :
    (unended entry).length = entry.name.length + entry.command.length + 1 := by
  simp only [unended, List.length_append, List.length_cons]
  omega

theorem restaurePass_fits (h : Storable entry) (hfits : FitsLine entry)
    (aliases : List Alias) (hroom : aliases.length < 512) (hlength : line.length = lineSize)
    (file : List UInt8) :
    ∃ line', line'.length = lineSize ∧
      restaurePass ⟨line, savedLine entry ++ file, aliases⟩ =
        .again ⟨line', file, aliases ++ [entry]⟩ := by
  have hshort : (unended entry).length < lineSize - 1 := by
    rw [length_unended]
    unfold FitsLine at hfits
    omega
  have hsaved : (savedLine entry).length = (unended entry).length + 1 := by
    rw [← List.append_nil (savedLine entry), savedLine_append]
    simp
  have hread : takeLine (lineSize - 1) (savedLine entry ++ file) = (savedLine entry, file) := by
    rw [savedLine_append, takeLine_fits (newline_notMem h) hshort, ← savedLine_append,
      List.append_nil]
  have hfgets := fgets_eq line (savedLine_ne_nil entry file) lineSize
  rw [hread] at hfgets
  refine ⟨savedLine entry ++ 0 :: line.drop ((savedLine entry).length + 1), ?_, ?_⟩
  · simp only [List.length_append, List.length_cons, List.length_drop]
    omega
  · simp only [restaurePass, hfgets, restaureEntry_fits h hroom]

/-- An array without a newline gives no alias. -/
theorem restaureEntry_missing (h : newline ∉ line) (aliases : List Alias) :
    ∃ stop, restaureEntry line aliases = .error stop := by
  unfold restaureEntry
  cases hname : copyUpTo lineSize equalsSign line 0 [] with
  | error stop => exact ⟨stop, rfl⟩
  | ok copied =>
      obtain ⟨buffer_alias, rest⟩ := copied
      obtain ⟨front, rfl, _⟩ := copyUpTo_split hname (Nat.zero_le _)
      have hrest : newline ∉ rest := fun hmem =>
        h (List.mem_append_right front (List.mem_cons_of_mem _ hmem))
      obtain ⟨stop, hstop⟩ := copyUpTo_missing lineSize [] hrest
      refine ⟨stop, ?_⟩
      rw [ok_bind]
      dsimp only
      rw [hstop, error_bind]

/-- A longer line is cut in front of its newline. -/
theorem restaurePass_stops (h : Storable entry) (hlong : ¬ FitsLine entry)
    (aliases : List Alias) (hlength : line.length = lineSize) (file : List UInt8) :
    ∃ stop, restaurePass ⟨line, savedLine entry ++ file, aliases⟩ = .leave (.error stop) := by
  have hcut : lineSize - 1 ≤ (unended entry).length := by
    rw [length_unended]
    unfold FitsLine at hlong
    omega
  have hread : (takeLine (lineSize - 1) (savedLine entry ++ file)).1 =
      (unended entry).take (lineSize - 1) := by
    rw [savedLine_append, takeLine_cut (newline_notMem h) hcut]
  have hfgets := fgets_eq line (savedLine_ne_nil entry file) lineSize
  have hfull : ((unended entry).take (lineSize - 1)).length + 1 = lineSize := by
    rw [List.length_take_of_le hcut]
    rfl
  rw [hread, hfull, ← hlength, List.drop_length] at hfgets
  have hmissing : newline ∉ (unended entry).take (line.length - 1) ++ [0] := by
    rw [List.mem_append, List.mem_singleton]
    rintro (hmem | he)
    · exact newline_notMem h (List.mem_of_mem_take hmem)
    · cases he
  obtain ⟨stop, hstop⟩ := restaureEntry_missing hmissing aliases
  refine ⟨stop, ?_⟩
  simp only [restaurePass]
  rw [← hlength, hfgets]
  simp only [hstop]

end Entries

/-! ## The whole file -/

section Files
variable {table : List Alias}

theorem restaure_fits (aliases : List Alias) (line : List UInt8)
    (hstorable : ∀ entry ∈ table, Storable entry)
    (hfits : ∀ entry ∈ table, FitsLine entry)
    (hroom : aliases.length + table.length ≤ 512) (hlength : line.length = lineSize) :
    Leaves restaurePass ⟨line, table.flatMap savedLine, aliases⟩ (.ok (aliases ++ table)) := by
  induction table generalizing aliases line with
  | nil =>
      rw [List.append_nil]
      exact ⟨1, rfl⟩
  | cons entry table ih =>
      rw [List.forall_mem_cons] at hstorable hfits
      rw [List.length_cons] at hroom
      obtain ⟨line', hlength', hp⟩ := restaurePass_fits hstorable.1 hfits.1 aliases (by omega)
        hlength (table.flatMap savedLine)
      have hroom' : (aliases ++ [entry]).length + table.length ≤ 512 := by
        rw [List.length_append, List.length_singleton]
        omega
      have hrest := ih (aliases ++ [entry]) line' hstorable.2 hfits.2 hroom' hlength'
      rw [List.append_assoc, List.singleton_append] at hrest
      exact hrest.pass hp

theorem restaure_stops (aliases : List Alias) (line : List UInt8)
    (hstorable : ∀ entry ∈ table, Storable entry)
    (hlong : ∃ entry ∈ table, ¬ FitsLine entry)
    (hroom : aliases.length + table.length ≤ 512) (hlength : line.length = lineSize) :
    ∃ stop, Leaves restaurePass ⟨line, table.flatMap savedLine, aliases⟩ (.error stop) := by
  induction table generalizing aliases line with
  | nil =>
      obtain ⟨entry, hmem, _⟩ := hlong
      cases hmem
  | cons entry table ih =>
      rw [List.forall_mem_cons] at hstorable
      rw [List.length_cons] at hroom
      by_cases hentry : FitsLine entry
      · have hlater : ∃ later ∈ table, ¬ FitsLine later := by
          obtain ⟨later, hmem, hnot⟩ := hlong
          rcases List.mem_cons.mp hmem with rfl | hmem
          · exact absurd hentry hnot
          · exact ⟨later, hmem, hnot⟩
        obtain ⟨line', hlength', hp⟩ := restaurePass_fits hstorable.1 hentry aliases (by omega)
          hlength (table.flatMap savedLine)
        have hroom' : (aliases ++ [entry]).length + table.length ≤ 512 := by
          rw [List.length_append, List.length_singleton]
          omega
        obtain ⟨stop, hstop⟩ := ih (aliases ++ [entry]) line' hstorable.2 hlater hroom' hlength'
        exact ⟨stop, hstop.pass hp⟩
      · obtain ⟨stop, hp⟩ := restaurePass_stops hstorable.1 hentry aliases hlength
          (table.flatMap savedLine)
        exact ⟨stop, 1, run_succ_of_leave hp 0⟩

end Files

/-- Saving the table and restoring it into an empty one gives the table again. -/
def RoundTrip (leftover : Vector UInt8 lineSize) (table : List Alias) : Prop :=
  ∃ saved, saveAlias true table = .ok saved ∧
    ComesTo (fun fuel => restaureAlias fuel leftover (some saved.file) []) table

/-- An alias table survives just if every line of its file fits into the array. -/
theorem round_trip_iff {table : List Alias} (hsize : table.length ≤ 512)
    (hstorable : ∀ entry ∈ table, Storable entry) (leftover : Vector UInt8 lineSize) :
    RoundTrip leftover table ↔ ∀ entry ∈ table, FitsLine entry := by
  have hlength : leftover.toList.length = lineSize := leftover.length_toList
  have hroom : ([] : List Alias).length + table.length ≤ 512 := by
    rw [List.length_nil, Nat.zero_add]
    exact hsize
  constructor
  · rintro ⟨saved, hsaved, enough, hcall⟩
    cases hsaved
    have hok := leaves_of_loop (hcall enough (Nat.le_refl enough))
    by_contra hlong
    push Not at hlong
    obtain ⟨stop, hstop⟩ := restaure_stops [] leftover.toList hstorable hlong hroom hlength
    cases hok.unique hstop
  · intro hfits
    have hleaves := restaure_fits [] leftover.toList hstorable hfits hroom hlength
    exact ⟨_, rfl, comesTo_of_leaves hleaves⟩

/-- The alias `a` for a command of so many letters `b`. -/
def repeatedAlias (count : ℕ) (h : count < bufferSize) : Alias where
  name := [97]
  command := List.replicate count 98
  name_fits := by decide
  command_fits := by rwa [List.length_replicate]

theorem storable_repeatedAlias (count : ℕ) (h : count < bufferSize) :
    Storable (repeatedAlias count h) := by
  constructor
  · simp [repeatedAlias, equalsSign, newline]
  · simp [repeatedAlias, newline]
  · simp [repeatedAlias]

theorem fitsLine_repeatedAlias (count : ℕ) (h : count < bufferSize) :
    FitsLine (repeatedAlias count h) ↔ count < 125 := by
  simp only [FitsLine, repeatedAlias, List.length_singleton, List.length_replicate, lineSize]
  omega

/-- The line of an alias with a command of 124 bytes takes 127. -/
theorem round_trip_iff_one :
    RoundTrip (Vector.replicate lineSize 0) [repeatedAlias 124 (by decide)] := by
  refine (round_trip_iff (by decide) ?_ _).mpr ?_
  · rw [List.forall_mem_singleton]
    exact storable_repeatedAlias 124 (by decide)
  · rw [List.forall_mem_singleton, fitsLine_repeatedAlias]
    decide

/-- The line of an alias with a command of 125 bytes takes 128. -/
theorem round_trip_fails :
    Storable (repeatedAlias 125 (by decide)) ∧
      ¬ RoundTrip (Vector.replicate lineSize 0) [repeatedAlias 125 (by decide)] := by
  have hstorable := storable_repeatedAlias 125 (by decide)
  have hlong : ¬ FitsLine (repeatedAlias 125 (by decide)) := by
    rw [fitsLine_repeatedAlias]
    decide
  refine ⟨hstorable, ?_⟩
  rintro ⟨saved, hsaved, enough, hcall⟩
  cases hsaved
  obtain ⟨stop, hp⟩ := restaurePass_stops hstorable hlong []
    (Vector.replicate lineSize 0).length_toList []
  have hok := leaves_of_loop (hcall enough (Nat.le_refl enough))
  have hstop : Leaves restaurePass _ (.error stop) := ⟨1, run_succ_of_leave hp 0⟩
  cases hok.unique hstop

end MinixOS.AliasFile
