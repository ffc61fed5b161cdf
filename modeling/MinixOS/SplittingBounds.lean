import MinixOS.WordSlots

/-!
# Accesses while a command is split

The indices at which the loop over the words of a text uses `args` and the buffer of a word. They
are in range exactly if the words are short and few. A blank at the end of the text
keeps the loop from its end, so that the last NULL is not stored.
-/
namespace MinixOS.SplittingBounds
open LoopExecution CheckedExecution CommandQueue Tokenizer ShellExecution CommandSplitting WordSlots

/-- An element of one of the arrays of `qexecution`. -/
inductive Access where
  | pid_child (index : ℕ)
  | args (index : ℕ)
  | buffer (index : ℕ)

def Access.InRange : Access → Prop
  | .pid_child index => index < MAX_CMD_NUM
  | .args index => index < argsSize
  | .buffer index => index < bufferSize

/-- The elements the loop over the words uses: that of a word, those of the buffer for the
characters of the word and its terminator, and that of the NULL behind the last word. -/
inductive SplitUses (leftover : Args) (text : Word) : Access → Prop
  | word {s : Split} (hs : Walks splitPass ⟨text, 0, 0, leftover⟩ s) (hrest : s.rest ≠ []) :
      SplitUses leftover text (.args s.argument)
  | char {s : Split} {w : Word} {k : ℕ} (hs : Walks splitPass ⟨text, 0, 0, leftover⟩ s)
      (hword : (words s.rest).head? = some w) (hne : w ≠ []) (hk : k ≤ w.length) :
      SplitUses leftover text (.buffer (s.j + k))
  | last {s : Split} (hs : Walks splitPass ⟨text, 0, 0, leftover⟩ s) (hrest : s.rest = []) :
      SplitUses leftover text (.args (s.argument + 1))

/-- The words have room in their buffers, and their addresses in `args`. -/
structure CommandInRange (text : Word) : Prop where
  short : ∀ w ∈ words text, w.length < bufferSize
  few : if text.getLast? = some blank then (words text).length ≤ argsSize + 1
    else (words text).length < argsSize

section Bounds
variable {text w rest : Word} {leftover args : Args} {s t : Split} {k : ℕ}

/-! ## The words behind the position -/

theorem words_word (hw : blank ∉ w) : words w = [w] := List.splitOn_eq_singleton hw

theorem words_behind (hw : blank ∉ w) (rest : Word) : words (w ++ blank :: rest) = w :: words rest :=
  List.splitOn_append_cons_self_of_not_mem hw rest

theorem getLast?_word (hw : blank ∉ w) : w.getLast? ≠ some blank :=
  fun h => hw (List.mem_of_getLast? h)

theorem getLast?_behind (w : Word) (hrest : rest ≠ []) :
    (w ++ blank :: rest).getLast? = rest.getLast? := by
  rcases List.exists_cons_of_ne_nil hrest with ⟨c, more, rfl⟩
  rw [List.getLast?_append_cons, List.getLast?_cons_cons]

/-- A text with a blank at its end has an empty word there. -/
theorem two_words (h : text.getLast? = some blank) : 2 ≤ (words text).length := by
  rcases List.eq_nil_or_concat text with rfl | ⟨front, c, rfl⟩
  · cases h
  · rw [List.concat_eq_append, List.getLast?_concat] at h
    rw [List.concat_eq_append, Option.some.inj h]
    unfold words
    rw [List.splitOn_append_cons_self, List.length_append]
    have hfront := List.length_pos_iff.mpr (words_ne_nil front)
    have hlast := List.length_pos_iff.mpr (words_ne_nil [])
    unfold words at hfront hlast
    omega

theorem words_pos (text : Word) : 1 ≤ (words text).length :=
  List.length_pos_iff.mpr (words_ne_nil text)

/-- What is left of the text, where the words in front of it are counted by `argument`. -/
structure Behind (text : Word) (s : Split) : Prop where
  count : s.argument + (words s.rest).length = (words text).length
  mem : ∀ w ∈ words s.rest, w = [] ∨ w ∈ words text
  fresh : s.rest = [] ∨ s.rest = [blank] ∨ s.j = 0
  trailing : s.rest.getLast? = some blank ↔ text.getLast? = some blank

theorem behind_start (text : Word) (leftover : Args) : Behind text ⟨text, 0, 0, leftover⟩ :=
  ⟨Nat.zero_add _, fun _ hw => .inr hw, .inr (.inr rfl), Iff.rfl⟩

theorem Behind.again (h : Behind text s) (hp : splitPass s = .again t) : Behind text t := by
  have hpassed := passed_of_again hp
  rcases hpassed.word with ⟨w, behind, hrest, hw, hcases⟩
  rcases h with ⟨hcount, hmem, _, htrailing⟩
  rcases hcases with ⟨rfl, hnil | hblank, hargument⟩ | ⟨rfl, hne, hargument⟩
  · rw [hnil, List.append_nil] at hrest
    rw [hrest, words_word hw] at hcount hmem
    rw [hrest] at htrailing
    refine ⟨?_, ?_, hpassed.fresh, ?_⟩
    · rw [hargument, hnil, ← hcount]
      rfl
    · intro v hv
      rw [hnil] at hv
      exact .inl (List.mem_singleton.mp hv)
    · rw [hnil, ← htrailing]
      exact iff_of_false (by simp) (getLast?_word hw)
  · rw [hblank] at hrest
    rw [hrest, words_behind hw] at hcount hmem
    rw [hrest, List.getLast?_concat] at htrailing
    refine ⟨?_, ?_, hpassed.fresh, ?_⟩
    · rw [hargument, hblank, ← hcount]
      rfl
    · intro v hv
      rw [hblank] at hv
      left
      rcases List.mem_cons.mp hv with hv | hv
      · exact hv
      · exact List.mem_singleton.mp hv
    · rw [hblank, ← htrailing]
      rfl
  · rw [hrest, words_behind hw] at hcount hmem
    rw [hrest, getLast?_behind w hne] at htrailing
    refine ⟨?_, fun v hv => hmem v (List.mem_cons_of_mem w hv), hpassed.fresh, htrailing⟩
    rw [List.length_cons] at hcount
    omega

theorem behind_of_walks (h : Walks splitPass ⟨text, 0, 0, leftover⟩ s) : Behind text s := by
  have hwalks : ∀ s t : Split, Behind text s → Walks splitPass s t → Behind text t := by
    intro s t hs hw
    induction hw with
    | refl s => exact hs
    | pass hp _ ih => exact ih (hs.again hp)
  exact hwalks _ s (behind_start text leftover) h

/-! ## The indices -/

theorem CommandInRange.uses (h : CommandInRange text) {access : Access}
    (ha : SplitUses leftover text access) : access.InRange := by
  have hfew := h.few
  cases ha with
  | @word s hs hrest =>
      have hbehind := behind_of_walks hs
      have hcount := hbehind.count
      have hpos := words_pos s.rest
      unfold Access.InRange
      dsimp only
      split_ifs at hfew with htrailing
      · have htwo := two_words (hbehind.trailing.mpr htrailing)
        omega
      · omega
  | @char s w k hs hword hne hk =>
      have hbehind := behind_of_walks hs
      have hmem : w ∈ words s.rest := List.mem_of_mem_head? hword
      have hin : w ∈ words text := (hbehind.mem w hmem).resolve_left hne
      have hshort := h.short w hin
      have hj : s.j = 0 := by
        rcases hbehind.fresh with hnil | hblank | hj
        · rw [hnil] at hword
          cases hword
          exact absurd rfl hne
        · rw [hblank] at hword
          cases hword
          exact absurd rfl hne
        · exact hj
      unfold Access.InRange
      dsimp only
      omega
  | @last s hs hrest =>
      have hbehind := behind_of_walks hs
      have hcount := hbehind.count
      have hpos := words_pos s.rest
      have hnot : ¬ text.getLast? = some blank := by
        rw [← hbehind.trailing, hrest]
        simp
      rw [if_neg hnot] at hfew
      unfold Access.InRange
      dsimp only
      omega

theorem head_words (hw : blank ∉ w) (hrest : rest = [] ∨ rest.head? = some blank) :
    (words (w ++ rest)).head? = some w := by
  rcases hrest with rfl | hblank
  · rw [List.append_nil, words_word hw]
    rfl
  · rcases List.head?_eq_some_iff.mp hblank with ⟨more, rfl⟩
    rw [words_behind hw]
    rfl

/-- The indices in range show the length of every word that is not empty. -/
theorem short_of_slot {j : ℕ} (hw : blank ∉ w) (hrest : rest = [] ∨ rest.head? = some blank)
    (h : (words (w ++ rest)).head? = some w → w ≠ [] → j + w.length < bufferSize) :
    w.length < bufferSize := by
  by_cases hnil : w = []
  · rw [hnil]
    decide
  · have hlength := h (head_words hw hrest) hnil
    omega

/-- What the indices in range say of the positions the loop comes to. -/
theorem slots_of_uses (h : ∀ access, SplitUses leftover text access → access.InRange) :
    ∀ s, Walks splitPass ⟨text, 0, 0, leftover⟩ s → s.rest ≠ [] →
      s.argument < argsSize ∧
        ∀ w, (words s.rest).head? = some w → w ≠ [] → s.j + w.length < bufferSize := by
  intro s hs hrest
  exact ⟨h _ (.word hs hrest), fun w hw hne => h _ (.char hs hw hne (Nat.le_refl _))⟩

/-- As long as the indices are in range, the loop comes to every word in front of the rest. -/
theorem front_in_range {front : List Word} (hfront : ∀ v ∈ front, blank ∉ v) (hrest : rest ≠ [])
    (huses : ∀ s, Walks splitPass ⟨ended front ++ rest, 0, k, args⟩ s → s.rest ≠ [] →
      s.argument < argsSize ∧
        ∀ w, (words s.rest).head? = some w → w ≠ [] → s.j + w.length < bufferSize) :
    k + front.length < argsSize ∧ ∀ v ∈ front, v.length < bufferSize := by
  induction front generalizing k args with
  | nil =>
      refine ⟨(huses _ (.refl _) hrest).1, fun v hv => absurd hv List.not_mem_nil⟩
  | cons v front ih =>
      rcases List.forall_mem_cons.mp hfront with ⟨hv, hfront⟩
      rw [ended_cons] at huses
      have hne : ended front ++ rest ≠ [] := fun hnil => hrest (List.append_eq_nil_iff.mp hnil).2
      have hstart : v ++ blank :: (ended front ++ rest) ≠ [] :=
        List.append_ne_nil_of_right_ne_nil _ (List.cons_ne_nil _ _)
      rcases huses _ (.refl _) hstart with ⟨hk, hword⟩
      have hshort : v.length < bufferSize := short_of_slot hv (.inr rfl) (hword v)
      have hpass := slot_next hk hv hshort.le hne args
      rcases ih (k := k + 1) hfront fun s hs => huses s (.pass hpass hs) with ⟨hcount, hlengths⟩
      refine ⟨?_, List.forall_mem_cons.mpr ⟨hshort, hlengths⟩⟩
      rw [List.length_cons]
      omega

theorem room_front {front : List Word} (hcount : front.length < argsSize)
    (hshort : ∀ v ∈ front, v.length < bufferSize) : Room 0 front :=
  ⟨by omega, fun v hv => (hshort v hv).le⟩

/-- The loop comes to the last word of a text and to its end, if no blank stands there. -/
theorem inRange_of_last {init : List Word} (hinit : ∀ v ∈ init, blank ∉ v) (hlast : blank ∉ w)
    (hne : w ≠ []) (hwords : words text = init ++ [w]) (htext : text = ended init ++ w)
    (h : ∀ access, SplitUses leftover text access → access.InRange) : CommandInRange text := by
  have huses := slots_of_uses h
  rw [htext] at huses
  rcases front_in_range hinit hne huses with ⟨hcount, hshort⟩
  rw [Nat.zero_add] at hcount
  rcases walk_front hinit (room_front hcount hshort) hne leftover with ⟨args, hwalks⟩
  rw [Nat.zero_add] at hwalks
  have hhead : (words w).head? = some w := by
    rw [words_word hlast]
    rfl
  have hlength := (huses _ hwalks hne).2 w hhead hne
  have hlength' : w.length < bufferSize := by
    dsimp only at hlength
    omega
  have hrest : w ++ [] ≠ [] := by rwa [List.append_nil]
  have hpass := slot_end hcount hlast hlength'.le (.inl rfl) hrest args
  rw [List.append_nil] at hpass
  rw [← htext] at hwalks
  have hend : init.length + 1 < argsSize := h _ (.last (hwalks.trans (.one hpass)) rfl)
  constructor
  · intro u hu
    rw [hwords] at hu
    rcases List.mem_append.mp hu with hu | hu
    · exact hshort u hu
    · rw [List.mem_singleton.mp hu]
      exact hlength'
  · have htrailing : ¬ text.getLast? = some blank := by
      rw [htext, List.getLast?_append_of_ne_nil _ hne]
      exact getLast?_word hlast
    rw [if_neg htrailing, hwords, List.length_append, List.length_singleton]
    exact hend

/-- Of a text with a blank at its end the loop comes to the word in front of that blank. -/
theorem inRange_of_ended {front : List Word} (hfront : ∀ v ∈ front, blank ∉ v) (hw : blank ∉ w)
    (hwords : words text = front ++ [w] ++ [[]]) (htext : text = ended front ++ (w ++ [blank]))
    (h : ∀ access, SplitUses leftover text access → access.InRange) : CommandInRange text := by
  have huses := slots_of_uses h
  have hne : w ++ [blank] ≠ [] := List.append_ne_nil_of_right_ne_nil _ (List.cons_ne_nil _ _)
  rw [htext] at huses
  rcases front_in_range hfront hne huses with ⟨hcount, hshort⟩
  rw [Nat.zero_add] at hcount
  rcases walk_front hfront (room_front hcount hshort) hne leftover with ⟨args, hwalks⟩
  have hw' : w.length < bufferSize :=
    short_of_slot hw (.inr rfl) ((huses _ hwalks hne).2 w)
  constructor
  · intro u hu
    rw [hwords] at hu
    simp only [List.mem_append, List.mem_singleton] at hu
    rcases hu with (hu | rfl) | rfl
    · exact hshort u hu
    · exact hw'
    · decide
  · have htrailing : text.getLast? = some blank := by
      rw [htext, ← List.append_assoc, List.getLast?_concat]
    rw [if_pos htrailing, hwords]
    simp only [List.length_append, List.length_singleton]
    omega

theorem commandInRange_of_uses (h : ∀ access, SplitUses leftover text access → access.InRange) :
    CommandInRange text := by
  rcases text_eq text with ⟨init, last, hwords, htext⟩
  have hblank : ∀ v ∈ init ++ [last], blank ∉ v := by
    intro v hv
    rw [← hwords] at hv
    exact blank_notMem_words hv
  have hinit : ∀ v ∈ init, blank ∉ v := fun v hv => hblank v (List.mem_append_left _ hv)
  have hlast : blank ∉ last := hblank last (List.mem_append_right _ (List.mem_singleton.mpr rfl))
  by_cases hnil : last = []
  · subst hnil
    rw [List.append_nil] at htext
    rcases List.eq_nil_or_concat init with rfl | ⟨front, v, rfl⟩
    · rw [htext]
      constructor
      · decide
      · decide
    · rw [List.concat_eq_append] at htext hwords hinit
      have hv : blank ∉ v := hinit v (List.mem_append_right _ (List.mem_singleton.mpr rfl))
      have hfront : ∀ u ∈ front, blank ∉ u := fun u hu => hinit u (List.mem_append_left _ hu)
      have hsplit : text = ended front ++ (v ++ [blank]) := by
        rw [htext]
        simp [ended]
      exact inRange_of_ended hfront hv hwords hsplit h
  · exact inRange_of_last hinit hlast hnil hwords htext h

/-- Splitting stays within the arrays exactly for such texts, whatever `args` held before. -/
theorem split_in_range_iff (text : Word) (leftover : Args) :
    (∀ access, SplitUses leftover text access → access.InRange) ↔ CommandInRange text :=
  ⟨commandInRange_of_uses, fun h _ ha => h.uses ha⟩

/-- The copy of a word is stopped only behind the end of its buffer. -/
theorem fillWord_stopped {argument j : ℕ} {buffer : Word} {stop : Stop}
    (hargument : argument < argsSize) (h : fillWord argument text j buffer args = .error stop) :
    ∃ w, (words text).head? = some w ∧ w ≠ [] ∧ bufferSize < j + w.length := by
  induction text generalizing j buffer args with
  | nil => cases h
  | cons c text ih =>
      unfold fillWord at h
      split_ifs at h with hc hroom
      · cases h
      · rw [writeAt_fin args ⟨argument, hargument⟩, ok_bind] at h
        rcases ih h with ⟨w, hw, _, hlong⟩
        rcases words_char hc text with ⟨first, rest, hs, hwords⟩
        rw [hs] at hw
        cases hw
        refine ⟨c :: w, ?_, List.cons_ne_nil c w, ?_⟩
        · rw [hwords]
          rfl
        · rw [List.length_cons]
          omega
      · rcases words_char hc text with ⟨first, rest, _, hwords⟩
        refine ⟨c :: first, ?_, List.cons_ne_nil c first, ?_⟩
        · rw [hwords]
          rfl
        · rw [List.length_cons]
          omega

/-- A pass is stopped only at an element out of range. -/
theorem pass_stopped {stop : Stop} (hs : Walks splitPass ⟨text, 0, 0, leftover⟩ s)
    (h : splitPass s = .leave (.error stop)) :
    ∃ access, SplitUses leftover text access ∧ ¬ access.InRange := by
  cases hrest : s.rest with
  | nil =>
      simp only [splitPass, hrest] at h
      cases h
  | cons c more =>
      have hne : s.rest ≠ [] := by
        rw [hrest]
        exact List.cons_ne_nil c more
      by_cases hroom : s.argument < argsSize
      · have hwrite := writeAt_fin s.args ⟨s.argument, hroom⟩ none
        cases hfill : fillWord s.argument s.rest s.j [] (s.args.set s.argument none hroom) with
        | error stop' =>
            rcases fillWord_stopped hroom hfill with ⟨w, hw, hword, hlong⟩
            refine ⟨_, .char hs hw hword (Nat.le_refl _), ?_⟩
            exact fun hrange => absurd (hrange.trans hlong) (Nat.lt_irrefl _)
        | ok filled =>
            rcases filled with ⟨behind, j, args'⟩
            rw [hrest] at hfill
            simp only [splitPass, hrest, hwrite, hfill] at h
            cases behind with
            | nil => cases h
            | cons d behind =>
                cases behind with
                | nil => cases h
                | cons next behind =>
                    dsimp only at h
                    split_ifs at h
      · exact ⟨_, .word hs hne, hroom⟩

/-- A text is not split off only if one of the elements is out of range. -/
theorem split_stopped {fuel : ℕ} {index : ℤ}
    (h : splitCommand fuel leftover text = .error (.outOfRange index)) :
    ∃ access, SplitUses leftover text access ∧ ¬ access.InRange := by
  unfold splitCommand at h
  cases hloop : loop splitPass fuel ⟨text, 0, 0, leftover⟩ with
  | ok s =>
      rw [hloop, ok_bind] at h
      rcases (leaves_of_loop hloop).reached with ⟨t, ht, hleave⟩
      rcases leave_ok hleave with ⟨hrest, rfl⟩
      refine ⟨_, .last ht hrest, ?_⟩
      intro hroom
      rw [writeAt_fin s.args ⟨s.argument + 1, hroom⟩] at h
      cases h
  | error stop =>
      rw [hloop, error_bind] at h
      cases h
      cases hrun : run splitPass fuel ⟨text, 0, 0, leftover⟩ with
      | none =>
          rw [loop, hrun] at hloop
          cases hloop
      | some r =>
          rw [loop, hrun] at hloop
          have hleaves : Leaves splitPass ⟨text, 0, 0, leftover⟩ r := ⟨fuel, hrun⟩
          rcases hleaves.reached with ⟨t, ht, hleave⟩
          cases hloop
          exact pass_stopped ht hleave

/-! ## The first word -/

/-- The first element of `args` is that of the first word. -/
theorem first_slot {fuel : ℕ} {ws : List Word} (hne : text ≠ []) (hwords : words text = w :: ws)
    (hshort : w.length ≤ bufferSize) (h : splitCommand fuel leftover text = .ok args) :
    args.toList[0]? = some (slot w) := by
  rcases leaves_of_split (comesTo_of_split h) with ⟨r, hleaves, hwrite⟩
  have hmem : w ∈ words text := by
    rw [hwords]
    exact List.mem_cons_self
  have hw : blank ∉ w := blank_notMem_words hmem
  have hzero : 0 < argsSize := by decide
  have hset : ∀ (args : Args) (x : Option Word), (args.set 0 x hzero).toList[0]? = some x := by
    intro args x
    rw [Vector.toList_set, List.getElem?_set_self (by rw [Vector.length_toList]; exact hzero)]
  have hkept : args.toList[0]? = r.args.toList[0]? := written_kept hwrite (Nat.succ_ne_zero _).symm
  rw [hkept]
  cases ws with
  | nil =>
      have htext : text = w := by
        rw [← intercalate_words text, hwords]
        exact List.intercalate_singleton
      subst htext
      have hend : text ++ [] ≠ [] := by rwa [List.append_nil]
      have hpass := slot_end hzero hw hshort (.inl rfl) hend leftover
      rw [List.append_nil] at hpass
      have hleave : splitPass ⟨[], text.length, 0, leftover.set 0 (slot text) hzero⟩ =
          .leave (.ok ⟨[], text.length, 0, leftover.set 0 (slot text) hzero⟩) := rfl
      cases ((Walks.one hpass).leaves hleave).unique hleaves
      exact hset leftover _
  | cons v ws =>
      have htext : text = w ++ blank :: [blank].intercalate (v :: ws) := by
        rw [← intercalate_words text, hwords, List.intercalate_cons_cons]
        simp
      by_cases hrest : [blank].intercalate (v :: ws) = []
      · rw [hrest] at htext
        refine absurd hleaves (ends_in_blank ?_)
        rw [htext]
        exact List.getLast?_concat
      · have hpass := slot_next hzero hw hshort hrest leftover
        rw [← htext] at hpass
        exact (passed_kept (hleaves.of_walks (.one hpass)) (Nat.zero_lt_one) (hset leftover _)).2

end Bounds

end MinixOS.SplittingBounds
