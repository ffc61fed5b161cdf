import MinixOS.CommandSplitting

/-!
# Splitting any text

A text of the queue may have blanks at its ends and doubled ones. The loop over the words then
meets empty words, for which it leaves NULL in `args`. A blank at the end of the text is
not passed, so that the loop is not left there. What follows describes a pass from the
outside, and the passes over the words of a text one by one.
-/
namespace MinixOS.WordSlots
open LoopExecution CheckedExecution CommandQueue Tokenizer ShellExecution CommandSplitting

/-- The words that are not empty. -/
def properWords (text : Word) : List Word := (words text).filter fun w => w ≠ []

/-- What the loop leaves in `args` for a word. -/
def slot (w : Word) : Option Word := if w = [] then none else some w

/-- The words with a blank behind each of them. -/
def ended (front : List Word) : Word := front.flatMap fun w => w ++ [blank]

section Passes
variable {w rest : Word} {j k : ℕ} {args : Args} {s t : Split}

/-! ## One pass -/

theorem written_kept {x : Option Word} {args' : Args} (h : writeAt args j x = .ok args') {i : ℕ}
    (hi : i ≠ j) : args'.toList[i]? = args.toList[i]? := by
  unfold writeAt at h
  split_ifs at h
  cases h
  rw [Vector.toList_set, List.getElem?_set_ne]
  rw [Int.toNat_natCast]
  exact hi.symm

/-- A word is copied, and nothing but its element of `args` is written to. -/
theorem fillWord_cases {argument j' : ℕ} {rest' buffer : Word} {args' : Args}
    (h : fillWord argument rest j buffer args = .ok (rest', j', args')) :
    (∃ w, rest = w ++ rest' ∧ blank ∉ w) ∧ (rest' = [] ∨ rest'.head? = some blank) ∧
      ∀ i, i ≠ argument → args'.toList[i]? = args.toList[i]? := by
  induction rest generalizing j buffer args with
  | nil =>
      cases h
      exact ⟨⟨[], rfl, List.not_mem_nil⟩, .inl rfl, fun _ _ => rfl⟩
  | cons c rest ih =>
      unfold fillWord at h
      split_ifs at h with hc hroom
      · cases h
        exact ⟨⟨[], rfl, List.not_mem_nil⟩, .inr (by rw [hc]; rfl), fun _ _ => rfl⟩
      · rcases bind_eq_ok.mp h with ⟨written, hwrite, hfill⟩
        rcases ih hfill with ⟨⟨w, rfl, hw⟩, hhead, hkept⟩
        refine ⟨⟨c :: w, rfl, ?_⟩, hhead, ?_⟩
        · rw [List.mem_cons, not_or]
          exact ⟨Ne.symm hc, hw⟩
        · intro i hi
          exact (hkept i hi).trans (written_kept hwrite hi)

/-- A pass that comes back to the loop head. -/
structure Passed (s t : Split) : Prop where
  word : ∃ w behind, s.rest = w ++ behind ∧ blank ∉ w ∧
    ((behind = t.rest ∧ (t.rest = [] ∨ t.rest = [blank]) ∧ t.argument = s.argument) ∨
      (behind = blank :: t.rest ∧ t.rest ≠ [] ∧ t.argument = s.argument + 1))
  fresh : t.rest = [] ∨ t.rest = [blank] ∨ t.j = 0
  kept : ∀ i, i ≠ s.argument → t.args.toList[i]? = s.args.toList[i]?

/-- The loop is left behind the text, or the pass is stopped, or it comes back. -/
theorem splitPass_cases (s : Split) :
    (s.rest = [] ∧ splitPass s = .leave (.ok s)) ∨
    (s.rest ≠ [] ∧ ∃ stop, splitPass s = .leave (.error stop)) ∨
    ∃ t, splitPass s = .again t ∧ Passed s t := by
  cases hrest : s.rest with
  | nil =>
      left
      unfold splitPass
      rw [hrest]
      exact ⟨rfl, rfl⟩
  | cons c text =>
      right
      cases hwrite : writeAt s.args s.argument none with
      | error stop =>
          left
          refine ⟨List.cons_ne_nil c text, stop, ?_⟩
          simp only [splitPass, hrest, hwrite]
      | ok args =>
          cases hfill : fillWord s.argument (c :: text) s.j [] args with
          | error stop =>
              left
              refine ⟨List.cons_ne_nil c text, stop, ?_⟩
              simp only [splitPass, hrest, hwrite, hfill]
          | ok filled =>
              right
              rcases filled with ⟨behind, j, args'⟩
              rcases fillWord_cases hfill with ⟨⟨w, hw, hblank⟩, hhead, hkept⟩
              have hall : ∀ i, i ≠ s.argument → args'.toList[i]? = s.args.toList[i]? :=
                fun i hi => (hkept i hi).trans (written_kept hwrite hi)
              simp only [splitPass, hrest, hwrite, hfill]
              cases behind with
              | nil =>
                  refine ⟨_, rfl, ⟨w, [], hrest.trans hw, hblank, ?_⟩, .inl rfl, hall⟩
                  exact .inl ⟨rfl, .inl rfl, rfl⟩
              | cons d more =>
                  have hd : d = blank := by simpa using hhead
                  subst hd
                  cases more with
                  | nil =>
                      refine ⟨_, rfl, ⟨w, [blank], hrest.trans hw, hblank, ?_⟩, .inr (.inl rfl), hall⟩
                      exact .inl ⟨rfl, .inr rfl, rfl⟩
                  | cons next more =>
                      simp only [if_true]
                      refine ⟨_, rfl, ⟨w, _, hrest.trans hw, hblank, ?_⟩, .inr (.inr rfl), hall⟩
                      exact .inr ⟨rfl, List.cons_ne_nil next more, rfl⟩

theorem passed_of_again (h : splitPass s = .again t) : Passed s t := by
  rcases splitPass_cases s with ⟨_, hleave⟩ | ⟨_, stop, hstop⟩ | ⟨u, hagain, hpassed⟩
  · rw [hleave] at h
    cases h
  · rw [hstop] at h
    cases h
  · rw [hagain] at h
    cases h
    exact hpassed

theorem leave_ok {r : Split} (h : splitPass s = .leave (.ok r)) : s.rest = [] ∧ r = s := by
  rcases splitPass_cases s with ⟨hrest, hleave⟩ | ⟨_, stop, hstop⟩ | ⟨u, hagain, _⟩
  · rw [hleave] at h
    cases h
    exact ⟨hrest, rfl⟩
  · rw [hstop] at h
    cases h
  · rw [hagain] at h
    cases h

/-- A blank at the end of the text is never passed. -/
theorem ends_in_blank {r : Split} (hs : s.rest.getLast? = some blank) :
    ¬ Leaves splitPass s (.ok r) := by
  intro h
  have step : ∀ s t : Split, s.rest.getLast? = some blank → splitPass s = .again t →
      t.rest.getLast? = some blank := by
    intro s t hs hp
    rcases (passed_of_again hp).word with ⟨w, behind, hrest, hw, hcases⟩
    rw [hrest] at hs
    rcases hcases with ⟨rfl, hnil | hblank, _⟩ | ⟨rfl, hne, _⟩
    · rw [hnil, List.append_nil] at hs
      exact absurd (List.mem_of_getLast? hs) hw
    · rw [hblank]
      rfl
    · rcases List.exists_cons_of_ne_nil hne with ⟨c, more, he⟩
      rw [he] at hs ⊢
      rw [List.getLast?_append_cons, List.getLast?_cons_cons] at hs
      exact hs
  rcases h.invariant (I := fun s => s.rest.getLast? = some blank) hs step with ⟨u, hu, hleave⟩
  rw [(leave_ok hleave).1] at hu
  cases hu

/-- An element of `args` that was passed is not written to any more. -/
theorem passed_kept {r : Split} {x : Option Word} (h : Leaves splitPass s (.ok r))
    (hk : k < s.argument) (hx : s.args.toList[k]? = some x) :
    k < r.argument ∧ r.args.toList[k]? = some x := by
  have step : ∀ s t : Split, (k < s.argument ∧ s.args.toList[k]? = some x) →
      splitPass s = .again t → k < t.argument ∧ t.args.toList[k]? = some x := by
    intro s t hs hp
    have hpassed := passed_of_again hp
    rcases hpassed.word with ⟨_, _, _, _, hcases⟩
    constructor
    · rcases hcases with ⟨_, _, hsame⟩ | ⟨_, _, hnext⟩ <;> omega
    · rw [hpassed.kept k (by omega)]
      exact hs.2
  rcases h.invariant (I := fun s => k < s.argument ∧ s.args.toList[k]? = some x) ⟨hk, hx⟩ step with
    ⟨u, hu, hleave⟩
  rw [(leave_ok hleave).2]
  exact hu

/-! ## The words of a text -/

theorem fillWord_slot (hk : k < argsSize) (hw : blank ∉ w)
    (hrest : rest = [] ∨ rest.head? = some blank) (hfits : w.length ≤ bufferSize) (args : Args) :
    fillWord k (w ++ rest) 0 [] (args.set k none hk) =
      .ok (rest, w.length, args.set k (slot w) hk) := by
  have hlength : 0 + w.length ≤ bufferSize := by omega
  have hfill := fillWord_fits ⟨k, hk⟩ [] (args.set k none hk) hw hrest hlength
  unfold slot
  split_ifs at hfill ⊢
  · rw [Nat.zero_add] at hfill
    exact hfill
  · rw [Nat.zero_add, Vector.set_set, List.nil_append] at hfill
    exact hfill

/-- The pass over a word with more than a blank behind it. -/
theorem slot_next (hk : k < argsSize) (hw : blank ∉ w) (hfits : w.length ≤ bufferSize)
    (hrest : rest ≠ []) (args : Args) :
    splitPass ⟨w ++ blank :: rest, 0, k, args⟩ =
      .again ⟨rest, 0, k + 1, args.set k (slot w) hk⟩ := by
  have hwrite : writeAt args k none = .ok (args.set k none hk) := writeAt_fin args ⟨k, hk⟩ none
  have hhead : blank :: rest = [] ∨ (blank :: rest).head? = some blank := .inr rfl
  have hfill := fillWord_slot hk hw hhead hfits args
  rcases List.exists_cons_of_ne_nil hrest with ⟨next, more, rfl⟩
  cases htext : w ++ blank :: next :: more with
  | nil => cases w <;> cases htext
  | cons c text =>
      rw [htext] at hfill
      simp only [splitPass, hwrite, hfill, if_true]

/-- The pass over the last word, which stops in front of a blank at the end of the text. -/
theorem slot_end {tail : Word} (hk : k < argsSize) (hw : blank ∉ w)
    (hfits : w.length ≤ bufferSize) (htail : tail = [] ∨ tail = [blank]) (hne : w ++ tail ≠ [])
    (args : Args) :
    splitPass ⟨w ++ tail, 0, k, args⟩ = .again ⟨tail, w.length, k, args.set k (slot w) hk⟩ := by
  have hwrite : writeAt args k none = .ok (args.set k none hk) := writeAt_fin args ⟨k, hk⟩ none
  have hhead : tail = [] ∨ tail.head? = some blank := by
    rcases htail with rfl | rfl
    · exact .inl rfl
    · exact .inr rfl
  have hfill := fillWord_slot hk hw hhead hfits args
  cases htext : w ++ tail with
  | nil => exact absurd htext hne
  | cons c text =>
      rw [htext] at hfill
      simp only [splitPass, hwrite, hfill]
      rcases htail with rfl | rfl
      · rfl
      · rfl

theorem room_cons {v : Word} {front : List Word} (h : Room k (v :: front)) :
    k < argsSize ∧ v.length ≤ bufferSize ∧ Room (k + 1) front := by
  rcases h with ⟨hlength, hfits⟩
  rw [List.length_cons] at hlength
  rcases List.forall_mem_cons.mp hfits with ⟨hv, hfront⟩
  exact ⟨by omega, hv, by omega, hfront⟩

theorem ended_cons (v : Word) (front : List Word) (rest : Word) :
    ended (v :: front) ++ rest = v ++ blank :: (ended front ++ rest) := by
  simp [ended]

/-- The passes over the words in front of the rest of the text. -/
theorem walk_front {front : List Word} (hfront : ∀ v ∈ front, blank ∉ v) (hroom : Room k front)
    (hrest : rest ≠ []) (args : Args) :
    ∃ args', Walks splitPass ⟨ended front ++ rest, 0, k, args⟩
      ⟨rest, 0, k + front.length, args'⟩ := by
  induction front generalizing k args with
  | nil => exact ⟨args, .refl _⟩
  | cons v front ih =>
      rcases List.forall_mem_cons.mp hfront with ⟨hv, hfront⟩
      rcases room_cons hroom with ⟨hk, hfits, hroom⟩
      have hne : ended front ++ rest ≠ [] := fun hnil => hrest (List.append_eq_nil_iff.mp hnil).2
      have hpass := slot_next hk hv hfits hne args
      rcases ih hfront hroom (args.set k (slot v) hk) with ⟨args', hwalks⟩
      have hsum : k + 1 + front.length = k + (v :: front).length := by
        rw [List.length_cons]
        omega
      rw [hsum] at hwalks
      rw [ended_cons]
      exact ⟨args', .pass hpass hwalks⟩

theorem intercalate_flatMap (separator : UInt8) (init : List Word) (last : Word) :
    [separator].intercalate (init ++ [last]) = init.flatMap (fun w => w ++ [separator]) ++ last := by
  induction init with
  | nil => exact List.intercalate_singleton
  | cons v init ih =>
      cases init with
      | nil => simp
      | cons v' init =>
          rw [List.flatMap_cons, List.append_assoc, ← ih]
          simp only [List.cons_append, List.intercalate_cons_cons, List.append_assoc]

theorem intercalate_concat (init : List Word) (last : Word) :
    [blank].intercalate (init ++ [last]) = ended init ++ last :=
  intercalate_flatMap blank init last

/-- The text is its words with a blank behind each of them but the last. -/
theorem text_eq (text : Word) :
    ∃ init last, words text = init ++ [last] ∧ text = ended init ++ last := by
  rcases List.eq_nil_or_concat (words text) with hnil | ⟨init, last, hwords⟩
  · exact absurd hnil (words_ne_nil text)
  · rw [List.concat_eq_append] at hwords
    refine ⟨init, last, hwords, ?_⟩
    rw [← intercalate_concat, ← hwords, intercalate_words]

end Passes

/-! ## What the arguments are to be -/

/-- The loop over the words of the text ends with its words in `args`, whatever `args` held before,
and without words nothing is read through NULL. -/
structure Splits (text : Word) : Prop where
  args : ∀ leftover, ∃ args, ComesTo (fun fuel => splitCommand fuel leftover text) args ∧
    Holds (properWords text) args
  proper : properWords text = [] → ∀ env fuel l, launch env fuel text l ≠ .error .nullPointer

/-- The tokenizer can put the text into the queue of `main`. -/
def Queueable (text : Word) : Prop :=
  ∃ fuel before argv stack out, tokenizer fuel before argv (screate stack) qcreate = .ok out ∧
    ∃ node ∈ out.scan.queue.first, node.command = text

section Texts
variable {text : Word} {leftover args : Args}

theorem leaves_of_split (h : ComesTo (fun fuel => splitCommand fuel leftover text) args) :
    ∃ s : Split, Leaves splitPass ⟨text, 0, 0, leftover⟩ (.ok s) ∧
      writeAt s.args (s.argument + 1 : ℕ) none = .ok args := by
  rcases h with ⟨fuel, hcall⟩
  rcases bind_eq_ok.mp (hcall fuel (Nat.le_refl _)) with ⟨s, hloop, hwrite⟩
  exact ⟨s, leaves_of_loop hloop, hwrite⟩

theorem comesTo_of_split {fuel : ℕ} (h : splitCommand fuel leftover text = .ok args) :
    ComesTo (fun fuel => splitCommand fuel leftover text) args := by
  rcases bind_eq_ok.mp h with ⟨s, hloop, hwrite⟩
  have hcomes := comesTo_of_leaves (leaves_of_loop hloop)
  have hlast : ComesTo (fun _ => writeAt s.args (s.argument + 1 : ℕ) none) args :=
    ⟨0, fun _ _ => hwrite⟩
  exact hcomes.bind hlast

theorem ended_getLast? {init : List Word} (hne : init ≠ []) :
    (ended init).getLast? = some blank := by
  rcases List.eq_nil_or_concat init with hnil | ⟨front, w, rfl⟩
  · exact absurd hnil hne
  · rw [List.concat_eq_append]
    simp [ended]

/-- What was in `args[0]` before is taken for the command of an empty text. -/
theorem not_splits_nil : ¬ Splits [] := by
  intro h
  rcases h.args (.replicate argsSize (some [97])) with ⟨args, hcomes, hholds⟩
  rcases hcomes with ⟨fuel, hcall⟩
  have hsplit := hcall (fuel + 1) (Nat.le_succ fuel)
  have hend := hholds.terminated
  cases hsplit
  revert hend
  decide

theorem not_splits_trailing {init : List Word} (hne : init ≠ []) : ¬ Splits (ended init) := by
  intro h
  rcases h.args (.replicate argsSize none) with ⟨args, hcomes, _⟩
  rcases leaves_of_split hcomes with ⟨s, hleaves, _⟩
  exact ends_in_blank (ended_getLast? hne) hleaves

theorem properWords_append {init : List Word} {last : Word} (hwords : words text = init ++ [last])
    (hlast : last ≠ []) : properWords text = (init.filter fun w => w ≠ []) ++ [last] := by
  unfold properWords
  rw [hwords, List.filter_append]
  simp [hlast]

/-- NULL stays at the place of an empty word, where the next word should be. -/
theorem not_splits_empty {front back : List Word} {last : Word}
    (hwords : words text = (front ++ [] :: back) ++ [last])
    (htext : text = ended (front ++ [] :: back) ++ last) (hlast : last ≠ [])
    (hfront : ∀ w ∈ front, w ≠ []) (hcount : (properWords text).length < argsSize)
    (hlength : ∀ w ∈ properWords text, w.length < bufferSize) : ¬ Splits text := by
  intro h
  rcases h.args (.replicate argsSize none) with ⟨args, hcomes, hholds⟩
  rcases leaves_of_split hcomes with ⟨s, hleaves, hwrite⟩
  have hproper := properWords_append hwords hlast
  have hkept : front.filter (fun w => w ≠ []) = front :=
    List.filter_eq_self.mpr fun w hw => decide_eq_true (hfront w hw)
  rw [List.filter_append, hkept] at hproper
  have hlonger : front.length < (properWords text).length := by
    rw [hproper, List.length_append, List.length_append, List.length_singleton]
    omega
  have hblank : ∀ v ∈ front, blank ∉ v := by
    intro v hv
    have hmem : v ∈ words text := by
      rw [hwords]
      exact List.mem_append_left _ (List.mem_append_left _ hv)
    exact blank_notMem_words hmem
  have hroom : Room 0 front := by
    refine ⟨by omega, ?_⟩
    intro v hv
    apply (hlength v _).le
    rw [hproper]
    exact List.mem_append_left _ (List.mem_append_left _ hv)
  have hrest : ended back ++ last ≠ [] := fun hnil => hlast (List.append_eq_nil_iff.mp hnil).2
  have hsplit : text = ended front ++ blank :: (ended back ++ last) := by
    rw [htext]
    simp [ended]
  rcases walk_front hblank hroom (List.cons_ne_nil blank (ended back ++ last))
    (.replicate argsSize none) with ⟨args', hwalks⟩
  rw [Nat.zero_add, ← hsplit] at hwalks
  have hk : front.length < argsSize := by omega
  have hpass := slot_next hk (w := []) List.not_mem_nil (Nat.zero_le _) hrest args'
  have hrun := hwalks.trans (.one hpass)
  have hleft := hleaves.of_walks hrun
  have hnone : (args'.set front.length (slot []) hk).toList[front.length]? = some none := by
    rw [Vector.toList_set, List.getElem?_set_self (by rwa [Vector.length_toList])]
    rfl
  rcases passed_kept hleft (Nat.lt_succ_self _) hnone with ⟨hlt, hend⟩
  have hword := hholds.words front.length hlonger
  rw [written_kept hwrite (by omega), hend, List.getElem?_eq_getElem hlonger] at hword
  cases hword

end Texts

end MinixOS.WordSlots
