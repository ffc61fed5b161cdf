import MinixOS.ShellExecution

/-!
# The launch of an external command

A command that is split into words is copied word by word into fresh buffers, and the
addresses of these go into `args`, with NULL behind them. Neither array is checked
to have room, so an external command is launched exactly if its words fit.
-/
namespace MinixOS.CommandSplitting
open LoopExecution CheckedExecution Tokenizer ShellExecution

/-! ## The words of a command -/

def words (command : Word) : List Word := command.splitOn blank

/-- One or more words with a single blank between them. -/
def SingleSpaced (command : Word) : Prop := ∀ w ∈ words command, w ≠ []

instance : DecidablePred SingleSpaced := fun command =>
  inferInstanceAs (Decidable (∀ w ∈ words command, w ≠ []))

/-- The words, with the first one replaced by what it is an alias for. -/
def argsOf (aliases : List Alias) (command : Word) : List Word :=
  match words command with
  | [] => []
  | w :: rest => (isAlias w aliases).1 :: rest

/-- No builtin, before and after the substitution of an alias. -/
def External (aliases : List Alias) (command : Word) : Prop :=
  (words command).head? ≠ some aliasLiteral ∧
    (argsOf aliases command).head? ≠ some exitLiteral ∧
    (argsOf aliases command).head? ≠ some cdLiteral

instance (aliases : List Alias) : DecidablePred (External aliases) := fun command =>
  inferInstanceAs (Decidable ((words command).head? ≠ some aliasLiteral ∧
    (argsOf aliases command).head? ≠ some exitLiteral ∧
    (argsOf aliases command).head? ≠ some cdLiteral))

/-- The words fit into the buffers, and their addresses with the final NULL into `args`. -/
def CommandFits (command : Word) : Prop :=
  (words command).length < argsSize ∧ ∀ w ∈ words command, w.length ≤ bufferSize

instance : DecidablePred CommandFits := fun command =>
  inferInstanceAs (Decidable ((words command).length < argsSize ∧
    ∀ w ∈ words command, w.length ≤ bufferSize))

/-- Each word has its terminator in its buffer, where the child of a fork reads it. -/
def Terminated (argv : List Word) : Prop := ∀ w ∈ argv, w.length < bufferSize

instance : DecidablePred Terminated := fun argv =>
  inferInstanceAs (Decidable (∀ w ∈ argv, w.length < bufferSize))

/-- An alias and what it stands for are strings in their buffers. -/
theorem isAlias_terminated (w : Word) (aliases : List Alias) :
    (isAlias w aliases).1.length < bufferSize ↔ w.length < bufferSize := by
  induction aliases with
  | nil => exact Iff.rfl
  | cons entry aliases ih =>
      unfold isAlias
      split_ifs with hname
      · rw [hname]
        exact iff_of_true entry.command_fits entry.name_fits
      · exact ih

theorem terminated_argsOf (aliases : List Alias) (command : Word) :
    Terminated (argsOf aliases command) ↔ Terminated (words command) := by
  unfold argsOf Terminated
  cases words command with
  | nil => exact Iff.rfl
  | cons w ws => simp only [List.forall_mem_cons, isAlias_terminated]

/-! ## Splitting a command -/

section Splitting
variable {w rest : Word} {j : ℕ}

/-- A word that fits is copied, and its address is in `args`. -/
theorem fillWord_fits (i : Fin argsSize) (buffer : Word) (args : Args) (hw : blank ∉ w)
    (hrest : rest = [] ∨ rest.head? = some blank) (hfits : j + w.length ≤ bufferSize) :
    fillWord i (w ++ rest) j buffer args =
      .ok (rest, j + w.length,
        if w = [] then args else args.set i (some (buffer ++ w)) i.isLt) := by
  induction w generalizing j buffer args with
  | nil =>
      cases rest with
      | nil => rfl
      | cons c rest =>
          have hc : c = blank := by simpa using hrest
          simp [fillWord, hc]
  | cons c w ih =>
      have hc : c ≠ blank := by
        intro he
        exact hw (he ▸ List.mem_cons_self)
      have hw' : blank ∉ w := fun hm => hw (List.mem_cons_of_mem c hm)
      rw [List.length_cons] at hfits
      have hj : j < bufferSize := by omega
      have hlength : j + 1 + w.length = j + (c :: w).length := by
        rw [List.length_cons]
        omega
      have hwrite := writeAt_fin args i (some (buffer ++ [c]))
      simp only [List.cons_append, fillWord, if_neg hc, if_pos hj, hwrite, ok_bind]
      rw [ih (buffer ++ [c]) _ hw' (by omega), hlength, if_neg (List.cons_ne_nil c w)]
      split_ifs with hnil
      · rw [hnil]
      · rw [Vector.set_set, List.append_assoc, List.singleton_append]

theorem fillWord_too_long (i : Fin argsSize) (buffer : Word) (args : Args) (hw : blank ∉ w)
    (hj : j ≤ bufferSize) (hlong : bufferSize < j + w.length) :
    ∃ stop, fillWord i (w ++ rest) j buffer args = .error stop := by
  induction w generalizing j buffer args with
  | nil =>
      rw [List.length_nil] at hlong
      omega
  | cons c w ih =>
      have hc : c ≠ blank := by
        intro he
        exact hw (he ▸ List.mem_cons_self)
      have hw' : blank ∉ w := fun hm => hw (List.mem_cons_of_mem c hm)
      rw [List.length_cons] at hlong
      have hwrite := writeAt_fin args i (some (buffer ++ [c]))
      simp only [List.cons_append, fillWord, if_neg hc]
      split_ifs with hroom
      · simp only [hwrite, ok_bind]
        exact ih (buffer ++ [c]) _ hw' (by omega) (by omega)
      · exact ⟨_, rfl⟩

/-- The words from the index `k` of `args` on. -/
def Copied (k : ℕ) (ws : List Word) (args args' : Args) : Prop :=
  ∀ i, args'.toList[i]? =
    if k ≤ i ∧ i < k + ws.length then some ws[i - k]? else args.toList[i]?

theorem copied_set {k : ℕ} (hk : k < argsSize) (w : Word) (args : Args) :
    Copied k [w] args ((args.set k none hk).set k (some w) hk) := by
  intro i
  rw [Vector.set_set, Vector.toList_set, List.getElem?_set, Vector.length_toList]
  simp only [List.length_singleton]
  by_cases hi : k = i
  · subst hi
    simp [hk]
  · have hnot : ¬ (k ≤ i ∧ i < k + 1) := by omega
    rw [if_neg hi, if_neg hnot]

theorem Copied.cons {k : ℕ} {w : Word} {ws : List Word} {args args' args'' : Args}
    (h : Copied k [w] args args') (h' : Copied (k + 1) ws args' args'') :
    Copied k (w :: ws) args args'' := by
  intro i
  rw [h' i, h i]
  simp only [List.length_cons, List.length_nil]
  by_cases hi : k = i
  · subst hi
    have hnot : ¬ (k + 1 ≤ k ∧ k < k + 1 + ws.length) := by omega
    have hin : k ≤ k ∧ k < k + (0 + 1) := by omega
    have hin' : k ≤ k ∧ k < k + (ws.length + 1) := by omega
    rw [if_neg hnot, if_pos hin, if_pos hin', Nat.sub_self]
    rfl
  · have hnot : ¬ (k ≤ i ∧ i < k + (0 + 1)) := by omega
    rw [if_neg hnot]
    by_cases hin : k + 1 ≤ i ∧ i < k + 1 + ws.length
    · have hin' : k ≤ i ∧ i < k + (ws.length + 1) := by omega
      have hsub : i - k = (i - (k + 1)) + 1 := by omega
      rw [if_pos hin, if_pos hin', hsub, List.getElem?_cons_succ]
    · have hout : ¬ (k ≤ i ∧ i < k + (ws.length + 1)) := by omega
      rw [if_neg hin, if_neg hout]

theorem fillWord_first {k : ℕ} (hk : k < argsSize) (hne : w ≠ []) (hw : blank ∉ w)
    (hrest : rest = [] ∨ rest.head? = some blank) (hfits : w.length ≤ bufferSize) (args : Args) :
    fillWord k (w ++ rest) 0 [] args = .ok (rest, w.length, args.set k (some w) hk) := by
  have hlength : 0 + w.length ≤ bufferSize := by omega
  have hfill := fillWord_fits ⟨k, hk⟩ [] args hw hrest hlength
  rw [if_neg hne, Nat.zero_add, List.nil_append] at hfill
  exact hfill

/-- The pass over a word, up to where it ends. -/
theorem splitPass_word {k : ℕ} (hk : k < argsSize) (hne : w ≠ []) (rest : Word) (args : Args) :
    splitPass ⟨w ++ rest, 0, k, args⟩ =
      match fillWord k (w ++ rest) 0 [] (args.set k none hk) with
      | .error stop => .leave (.error stop)
      | .ok (c :: next :: rest, _, args) =>
          if c = blank then
            .again { rest := next :: rest, j := 0, argument := k + 1, args := args }
          else .again ⟨c :: next :: rest, 0, k, args⟩
      | .ok (rest, j, args) => .again ⟨rest, j, k, args⟩ := by
  have hwrite : writeAt args k none = .ok (args.set k none hk) := writeAt_fin args ⟨k, hk⟩ none
  cases w with
  | nil => exact absurd rfl hne
  | cons c w =>
      unfold splitPass
      rewrite [hwrite]
      rfl

theorem splitPass_last {k : ℕ} (hk : k < argsSize) (hne : w ≠ []) (hw : blank ∉ w)
    (hfits : w.length ≤ bufferSize) (args : Args) :
    splitPass ⟨w, 0, k, args⟩ =
      .again ⟨[], w.length, k, (args.set k none hk).set k (some w) hk⟩ := by
  have hfill := fillWord_first hk hne hw (Or.inl rfl) hfits (args.set k none hk)
  have hpass := splitPass_word hk hne [] args
  rw [hfill, List.append_nil] at hpass
  exact hpass

theorem splitPass_next {k : ℕ} (hk : k < argsSize) (hne : w ≠ []) (hw : blank ∉ w)
    (hfits : w.length ≤ bufferSize) (hrest : rest ≠ []) (args : Args) :
    splitPass ⟨w ++ blank :: rest, 0, k, args⟩ =
      .again ⟨rest, 0, k + 1, (args.set k none hk).set k (some w) hk⟩ := by
  rw [splitPass_word hk hne _ args, fillWord_first hk hne hw (Or.inr rfl) hfits]
  cases rest with
  | nil => exact absurd rfl hrest
  | cons c rest => rfl

theorem splitPass_full {k : ℕ} (hk : argsSize ≤ k) (hne : w ≠ []) (args : Args) :
    ∃ stop, splitPass ⟨w, 0, k, args⟩ = .leave (.error stop) := by
  have hout : ¬ (0 ≤ (k : ℤ) ∧ (k : ℤ).toNat < argsSize) := by
    rw [Int.toNat_natCast]
    omega
  cases w with
  | nil => exact absurd rfl hne
  | cons c w =>
      refine ⟨.outOfRange k, ?_⟩
      simp only [splitPass, writeAt, dif_neg hout]

theorem splitPass_long {k : ℕ} (hk : k < argsSize) (hne : w ≠ []) (hw : blank ∉ w)
    (hlong : bufferSize < w.length) (rest : Word) (args : Args) :
    ∃ stop, splitPass ⟨w ++ rest, 0, k, args⟩ = .leave (.error stop) := by
  have hlength : bufferSize < 0 + w.length := by omega
  have hfill : ∃ stop, fillWord k (w ++ rest) 0 [] (args.set k none hk) = .error stop :=
    fillWord_too_long ⟨k, hk⟩ [] (args.set k none hk) hw (Nat.zero_le _) hlength
  obtain ⟨stop, hfill⟩ := hfill
  refine ⟨stop, ?_⟩
  rw [splitPass_word hk hne rest args, hfill]

/-- From the index `k` on, the words have room in `args`, and each in its buffer. -/
def Room (k : ℕ) (ws : List Word) : Prop :=
  k + ws.length ≤ argsSize ∧ ∀ w ∈ ws, w.length ≤ bufferSize

variable {ws : List Word}

theorem intercalate_ne_nil (hne : ws ≠ []) (hws : ∀ w ∈ ws, w ≠ [] ∧ blank ∉ w) :
    [blank].intercalate ws ≠ [] := by
  cases ws with
  | nil => exact absurd rfl hne
  | cons w ws =>
      have hw := (hws w List.mem_cons_self).1
      cases ws with
      | nil => rwa [List.intercalate_singleton]
      | cons w' ws =>
          rw [List.intercalate_cons_cons]
          simp [hw]

theorem split_fits (hne : ws ≠ []) (hws : ∀ w ∈ ws, w ≠ [] ∧ blank ∉ w) {k : ℕ}
    (hroom : Room k ws) (args : Args) :
    ∃ s, run splitPass (ws.length + 1) ⟨[blank].intercalate ws, 0, k, args⟩ = some (.ok s) ∧
      s.argument + 1 = k + ws.length ∧ Copied k ws args s.args := by
  induction ws generalizing k args with
  | nil => exact absurd rfl hne
  | cons w ws ih =>
      obtain ⟨hlength, hfits⟩ := hroom
      obtain ⟨hw, hrest⟩ := List.forall_mem_cons.mp hws
      obtain ⟨hfit, hfits⟩ := List.forall_mem_cons.mp hfits
      rw [List.length_cons] at hlength
      have hk : k < argsSize := by omega
      have hcopied := copied_set hk w args
      cases ws with
      | nil =>
          have hpass := splitPass_last hk hw.1 hw.2 hfit args
          rw [List.intercalate_singleton]
          refine ⟨⟨[], w.length, k, _⟩, ?_, rfl, hcopied⟩
          rw [run_succ_of_again hpass]
          rfl
      | cons w' ws =>
          have hpass := splitPass_next hk hw.1 hw.2 hfit
            (intercalate_ne_nil (List.cons_ne_nil w' ws) hrest) args
          obtain ⟨s, hrun, hargument, hcopied'⟩ :=
            ih (List.cons_ne_nil w' ws) hrest (k := k + 1) ⟨by omega, hfits⟩ _
          refine ⟨s, ?_, ?_, hcopied.cons hcopied'⟩
          · rw [List.intercalate_cons_cons, List.append_assoc, List.singleton_append, List.length_cons,
              run_succ_of_again hpass]
            exact hrun
          · rw [hargument, List.length_cons (a := w)]
            omega

theorem split_overflows (hne : ws ≠ []) (hws : ∀ w ∈ ws, w ≠ [] ∧ blank ∉ w) {k : ℕ}
    (hroom : ¬ Room k ws) (args : Args) :
    ∃ stop, Leaves splitPass ⟨[blank].intercalate ws, 0, k, args⟩ (.error stop) := by
  induction ws generalizing k args with
  | nil => exact absurd rfl hne
  | cons w ws ih =>
      obtain ⟨hw, hrest⟩ := List.forall_mem_cons.mp hws
      have htext := intercalate_ne_nil hne hws
      rcases Nat.lt_or_ge k argsSize with hk | hk
      · rcases Nat.lt_or_ge bufferSize w.length with hlong | hfit
        · have hsplit : ∃ tail, [blank].intercalate (w :: ws) = w ++ tail := by
            cases ws with
            | nil => exact ⟨[], by simp⟩
            | cons w' ws => exact ⟨_, by rw [List.intercalate_cons_cons, List.append_assoc]⟩
          obtain ⟨tail, htail⟩ := hsplit
          obtain ⟨stop, hpass⟩ := splitPass_long hk hw.1 hw.2 hlong tail args
          rw [htail]
          exact ⟨stop, 1, run_succ_of_leave hpass 0⟩
        · cases ws with
          | nil =>
              exfalso
              apply hroom
              constructor
              · exact hk
              · exact List.forall_mem_singleton.mpr hfit
          | cons w' ws =>
              have hne' := List.cons_ne_nil w' ws
              have hpass := splitPass_next hk hw.1 hw.2 hfit (intercalate_ne_nil hne' hrest) args
              have hroom' : ¬ Room (k + 1) (w' :: ws) := by
                intro h
                apply hroom
                constructor
                · have hlength := h.1
                  rw [List.length_cons] at hlength ⊢
                  rw [List.length_cons]
                  omega
                · exact List.forall_mem_cons.mpr ⟨hfit, h.2⟩
              obtain ⟨stop, fuel, hrun⟩ := ih hne' hrest hroom'
                ((args.set k none hk).set k (some w) hk)
              refine ⟨stop, fuel + 1, ?_⟩
              rw [List.intercalate_cons_cons, List.append_assoc, List.singleton_append,
                run_succ_of_again hpass]
              exact hrun
      · obtain ⟨stop, hpass⟩ := splitPass_full hk htext args
        exact ⟨stop, 1, run_succ_of_leave hpass 0⟩

end Splitting

/-! ## One command -/

theorem words_blank (command : Word) : words (blank :: command) = [] :: words command := by
  unfold words
  rw [List.splitOn_cons_eq_if_modifyHead, if_pos (beq_self_eq_true blank)]

/-- Any other character belongs to the first word. -/
theorem words_char {c : UInt8} (hc : c ≠ blank) (command : Word) :
    ∃ first rest, words command = first :: rest ∧ words (c :: command) = (c :: first) :: rest := by
  unfold words
  rcases List.exists_cons_of_ne_nil (List.splitOn_ne_nil blank command) with ⟨first, rest, hs⟩
  refine ⟨first, rest, hs, ?_⟩
  rw [List.splitOn_cons_eq_if_modifyHead, if_neg (by simpa using hc), hs]
  rfl

theorem blank_notMem_words {command w : Word} (hw : w ∈ words command) : blank ∉ w := by
  induction command generalizing w with
  | nil =>
      rw [words, List.splitOn_nil, List.mem_singleton] at hw
      simp [hw]
  | cons c command ih =>
      by_cases hc : c = blank
      · rw [hc, words_blank] at hw
        rcases List.mem_cons.mp hw with rfl | hw
        · simp
        · exact ih hw
      · rcases words_char hc command with ⟨first, rest, hs, hwords⟩
        rw [hwords] at hw
        rw [hs] at ih
        rcases List.mem_cons.mp hw with rfl | hw
        · have hfirst := ih (w := first) List.mem_cons_self
          intro hmem
          rcases List.mem_cons.mp hmem with he | hmem
          · exact hc he.symm
          · exact hfirst hmem
        · exact ih (List.mem_cons_of_mem first hw)

theorem mem_intercalate {ws : List Word} {w : Word} {c : UInt8} (hw : w ∈ ws) (hc : c ∈ w) :
    c ∈ [blank].intercalate ws := by
  induction ws with
  | nil => cases hw
  | cons v ws ih =>
      cases ws with
      | nil =>
          rw [List.mem_singleton] at hw
          rwa [List.intercalate_singleton, ← hw]
      | cons v' ws =>
          rw [List.intercalate_cons_cons, List.append_assoc, List.mem_append]
          rcases List.mem_cons.mp hw with rfl | hw
          · exact .inl hc
          · exact .inr (List.mem_append_right _ (ih hw))

/-- `args` holds the addresses of the words, and NULL behind them. -/
structure Holds (ws : List Word) (args : Args) : Prop where
  words : ∀ i, i < ws.length → args.toList[i]? = some ws[i]?
  terminated : args.toList[ws.length]? = some none

theorem takeWhile_holds {ws : List Word} {l : List (Option Word)}
    (hwords : ∀ i, i < ws.length → l[i]? = some ws[i]?) (hend : l[ws.length]? = some none) :
    (l.takeWhile Option.isSome).filterMap id = ws := by
  induction ws generalizing l with
  | nil =>
      cases l with
      | nil => rfl
      | cons a l =>
          have ha : a = none := Option.some.inj hend
          rw [ha]
          rfl
  | cons w ws ih =>
      cases l with
      | nil => cases hend
      | cons a l =>
          have ha : a = some w := Option.some.inj (hwords 0 (Nat.succ_pos _))
          have hrest := ih (fun i hi => hwords (i + 1) (Nat.succ_lt_succ hi)) hend
          have hid : id (some w) = some w := rfl
          rw [ha, List.takeWhile_cons_of_pos rfl, List.filterMap_cons_some hid, hrest]

theorem Holds.argvOf {ws : List Word} {args : Args} (h : Holds ws args) : argvOf args = ws :=
  takeWhile_holds h.words h.terminated

theorem Holds.read {ws : List Word} {args : Args} (h : Holds ws args) {i : ℕ}
    (hi : i ≤ ws.length) : readAt args i = .ok ws[i]? := by
  rw [readAt_eq_ok_iff]
  rcases Nat.lt_or_eq_of_le hi with hin | rfl
  · exact h.words i hin
  · rw [h.terminated, List.getElem?_eq_none (Nat.le_refl _)]

theorem Holds.first {w : Word} {ws : List Word} {args : Args} (h : Holds (w :: ws) args) :
    readAt args 0 = .ok (some w) :=
  h.read (Nat.zero_le _)

/-- The substitution of an alias for the first word. -/
theorem Holds.substitute {w : Word} {ws : List Word} {args : Args} (h : Holds (w :: ws) args)
    (name : Word) : ∃ args', writeAt args 0 (some name) = .ok args' ∧ Holds (name :: ws) args' := by
  have hzero : 0 < argsSize := by decide
  refine ⟨args.set 0 (some name) hzero, writeAt_fin args ⟨0, hzero⟩ (some name), ?_, ?_⟩
  · intro i hi
    rw [Vector.toList_set]
    cases i with
    | zero =>
        rw [List.getElem?_set_self (by rwa [Vector.length_toList])]
        rfl
    | succ i =>
        rw [List.getElem?_set_ne (Nat.succ_ne_zero i).symm]
        exact h.words (i + 1) hi
  · rw [Vector.toList_set, List.length_cons, List.getElem?_set_ne (Nat.succ_ne_zero _).symm]
    exact h.terminated

section Commands
variable {command : Word} {fuel : ℕ} {leftover args : Args}

theorem words_ne_nil (command : Word) : words command ≠ [] := List.splitOn_ne_nil blank command

theorem SingleSpaced.words (h : SingleSpaced command) :
    ∀ w ∈ words command, w ≠ [] ∧ blank ∉ w :=
  fun w hw => ⟨h w hw, blank_notMem_words hw⟩

theorem intercalate_words (command : Word) : [blank].intercalate (words command) = command :=
  List.intercalate_splitOn blank

theorem Copied.holds {ws : List Word} {args args' : Args} (h : Copied 0 ws args args')
    (hlt : ws.length < argsSize) : Holds ws (args'.set ws.length none hlt) := by
  constructor
  · intro i hi
    have hin : 0 ≤ i ∧ i < 0 + ws.length := by omega
    rw [Vector.toList_set, List.getElem?_set_ne (by omega), h i, if_pos hin, Nat.sub_zero]
  · rw [Vector.toList_set]
    simp [hlt]

theorem splitCommand_fits (hs : SingleSpaced command) (hf : CommandFits command)
    (hfuel : argsSize < fuel) (leftover : Args) :
    ∃ args, splitCommand fuel leftover command = .ok args := by
  have hroom : Room 0 (words command) := ⟨by have := hf.1; omega, hf.2⟩
  obtain ⟨s, hrun, hargument, _⟩ := split_fits (words_ne_nil command) hs.words hroom leftover
  rw [intercalate_words] at hrun
  have hloop := loop_mono (loop_eq_ok.mpr hrun) (fuel - ((words command).length + 1))
  have hlt := hf.1
  have hsum : (words command).length + 1 + (fuel - ((words command).length + 1)) = fuel := by
    omega
  have hindex : s.argument + 1 = (words command).length := by omega
  have hwrite := writeAt_fin s.args ⟨(words command).length, hlt⟩ none
  rw [hsum] at hloop
  simp only [splitCommand, hloop, ok_bind, hindex]
  exact ⟨_, hwrite⟩

theorem splitCommand_cases (hs : SingleSpaced command)
    (h : splitCommand fuel leftover command = .ok args) :
    CommandFits command ∧ Holds (words command) args := by
  obtain ⟨s, hloop, hwrite⟩ := bind_eq_ok.mp h
  have hleaves := leaves_of_loop hloop
  by_cases hroom : Room 0 (words command)
  · obtain ⟨t, hrun, hargument, hcopied⟩ :=
      split_fits (words_ne_nil command) hs.words hroom leftover
    rw [intercalate_words] at hrun
    obtain rfl := Except.ok.inj (hleaves.unique ⟨_, hrun⟩)
    have hindex : s.argument + 1 = (words command).length := by omega
    rw [hindex] at hwrite
    unfold writeAt at hwrite
    split_ifs at hwrite with hlt
    have hlt' : (words command).length < argsSize := hlt.2
    cases hwrite
    exact ⟨⟨hlt', hroom.2⟩, hcopied.holds hlt'⟩
  · obtain ⟨stop, hstop⟩ := split_overflows (words_ne_nil command) hs.words hroom leftover
    rw [intercalate_words] at hstop
    cases hleaves.unique hstop

/-- What is logged for the answer of `fork`. -/
def forkLog (argv : List Word) (pid : ℤ) : List Event :=
  .fork argv pid :: if pid = -1 then [.perror "Error in fork"] else []

/-- What a launched command adds. -/
def Level.forked (env : Environment) (argv : List Word) (l : Level)
    (hroom : l.no_process < MAX_CMD_NUM) : Level :=
  { l with
    exec := { l.exec with
      forks := l.exec.forks + 1
      log := l.exec.log ++ forkLog argv (env.fork l.exec.forks) }
    pid_child := l.pid_child.set l.no_process (env.fork l.exec.forks) hroom }

/-- In the shell, the answer of `fork` is only to be stored and a failure to be reported. -/
theorem forkCommand_eq {env : Environment} (hfork : ∀ n, env.fork n ≠ 0) (name : Word)
    (args : Args) (l : Level) :
    forkCommand env name args l =
      if hroom : l.no_process < MAX_CMD_NUM then
        .ok (.proceeds (Level.forked env (argvOf args) l hroom))
      else .error (.outOfRange l.no_process) := by
  have hne : ¬ env.fork l.exec.forks = 0 := hfork l.exec.forks
  unfold forkCommand
  split_ifs with hroom
  · have hstore := writeAt_fin l.pid_child ⟨l.no_process, hroom⟩ (env.fork l.exec.forks)
    simp only [hstore, ok_bind, if_neg hne]
    split_ifs with hfailed
    · simp [Level.forked, forkLog, Exec.print, hfailed]
    · simp [Level.forked, forkLog, hfailed]
  · have hout : ¬ (0 ≤ (l.no_process : ℤ) ∧ (l.no_process : ℤ).toNat < MAX_CMD_NUM) := by
      rw [Int.toNat_natCast]
      omega
    simp only [writeAt, dif_neg hout]
    rfl

/-- Once the words of an external command are split off, only the process id is left to store. -/
theorem launch_split {env : Environment} (hfork : ∀ n, env.fork n ≠ 0) {l : Level}
    (hext : External l.exec.aliases command)
    (hsplit : splitCommand fuel (env.leftover l.exec.forks).args command = .ok args)
    (hholds : Holds (words command) args) :
    launch env fuel command l =
      if hroom : l.no_process < MAX_CMD_NUM then
        .ok (.proceeds (Level.forked env (argsOf l.exec.aliases command) l hroom))
      else .error (.outOfRange l.no_process) := by
  obtain ⟨halias, hexit, hcd⟩ := hext
  unfold argsOf at hexit hcd ⊢
  cases hwords : words command with
  | nil => exact absurd hwords (words_ne_nil command)
  | cons w ws =>
      rw [hwords] at hholds halias
      simp only [hwords, List.head?_cons, ne_eq, Option.some.injEq] at halias hexit hcd
      obtain ⟨args', hwrite, hholds'⟩ := hholds.substitute (isAlias w l.exec.aliases).1
      simp only [launch, hsplit, ok_bind, hholds.first, if_neg halias, hwrite, if_neg hexit,
        if_neg hcd, forkCommand_eq hfork, hholds'.argvOf]

theorem launch_fits {env : Environment} (hfork : ∀ n, env.fork n ≠ 0) {l : Level}
    (hext : External l.exec.aliases command) (hs : SingleSpaced command)
    (hf : CommandFits command) (hfuel : argsSize < fuel) (hroom : l.no_process < MAX_CMD_NUM) :
    launch env fuel command l =
      .ok (.proceeds (Level.forked env (argsOf l.exec.aliases command) l hroom)) := by
  obtain ⟨args, hsplit⟩ := splitCommand_fits hs hf hfuel (env.leftover l.exec.forks).args
  rw [launch_split hfork hext hsplit (splitCommand_cases hs hsplit).2, dif_pos hroom]

theorem launch_splits {env : Environment} {l : Level} {r : Progress}
    (h : launch env fuel command l = .ok r) (hs : SingleSpaced command) :
    CommandFits command ∧ ∃ args,
      splitCommand fuel (env.leftover l.exec.forks).args command = .ok args ∧
        Holds (words command) args := by
  unfold launch at h
  obtain ⟨args, hsplit, _⟩ := bind_eq_ok.mp h
  obtain ⟨hf, hholds⟩ := splitCommand_cases hs hsplit
  exact ⟨hf, args, hsplit, hholds⟩

theorem launch_cases {env : Environment} (hfork : ∀ n, env.fork n ≠ 0) {l : Level} {r : Progress}
    (h : launch env fuel command l = .ok r) (hext : External l.exec.aliases command)
    (hs : SingleSpaced command) :
    CommandFits command ∧ ∃ hroom : l.no_process < MAX_CMD_NUM,
      r = .proceeds (Level.forked env (argsOf l.exec.aliases command) l hroom) := by
  obtain ⟨hf, args, hsplit, hholds⟩ := launch_splits h hs
  rw [launch_split hfork hext hsplit hholds] at h
  split_ifs at h with hroom
  cases h
  exact ⟨hf, hroom, rfl⟩

/-- Behind a builtin nothing else is launched. -/
theorem launch_builtin {env : Environment} {l : Level} {r : Progress}
    (h : launch env fuel command l = .ok r) (hext : ¬ External l.exec.aliases command)
    (hs : SingleSpaced command) : ∃ s, r = .returns s := by
  obtain ⟨_, args, hsplit, hholds⟩ := launch_splits h hs
  unfold External argsOf at hext
  cases hwords : words command with
  | nil => exact absurd hwords (words_ne_nil command)
  | cons w ws =>
      rw [hwords] at hholds
      simp only [hwords, List.head?_cons, ne_eq, Option.some.injEq] at hext
      obtain ⟨args', hwrite, _⟩ := hholds.substitute (isAlias w l.exec.aliases).1
      simp only [launch, hsplit, ok_bind, hholds.first, hwrite] at h
      split_ifs at h with halias hexit hcd
      · obtain ⟨parameter, _, h⟩ := bind_eq_ok.mp h
        obtain ⟨string, _, h⟩ := bind_eq_ok.mp h
        obtain ⟨out, _, h⟩ := bind_eq_ok.mp h
        cases h
        exact ⟨_, rfl⟩
      · cases h
        exact ⟨_, rfl⟩
      · obtain ⟨path, _, h⟩ := bind_eq_ok.mp h
        obtain ⟨string, _, h⟩ := bind_eq_ok.mp h
        cases string with
        | none =>
            cases h
            exact ⟨_, rfl⟩
        | some path =>
            cases h
            exact ⟨_, rfl⟩
      · exact absurd ⟨halias, hexit, hcd⟩ hext

end Commands

end MinixOS.CommandSplitting
