import MinixOS.ParenDepth

/-!
# What holds at every pass of the tokenizer

The token is no longer than the text read, so that it fits its buffer. The priority is lowered
at commas only, by the right parentheses in front of the comma, and each of these was taken off the
stack before. So it never falls below the number of parentheses on the stack. Those that end
the text are the ones that may still be counted.
-/
namespace MinixOS.TokenizerInvariant
open LoopExecution CheckedExecution CommandQueue Tokenizer TokenizerSteps TokenizerForest
  TokenizerConservation TokenizerRejection TokenizerReading TokenizerText ParenDepth

/-! ## Writes to the token -/

/-- The next pass puts this character behind the token. -/
inductive Appends (before argv : List UInt8) (s : Scan) : UInt8 → Prop
  | space {c : UInt8} (hc : argv[s.i]? = some c) (h : isspace c = true)
      (hs : ¬ dropsSpace s.state) : Appends before argv s blank
  | punct {c : UInt8} (hc : argv[s.i]? = some c) (h : plainPunct c) : Appends before argv s c
  | alnum {c : UInt8} (hc : argv[s.i]? = some c) (h : isalnum c = true)
      (hs : s.state = .rparen → ∃ passes, parensBehind before argv s.i = .ok (passes, comma)) :
      Appends before argv s c

/-- The elements of `token` that the next pass writes: for a character and the terminator behind
it, or for the terminator of the empty token. -/
inductive WritesToken (before argv : List UInt8) (s : Scan) : ℕ → Prop
  | char {c : UInt8} (h : Appends before argv s c) : WritesToken before argv s s.token.length
  | terminator {c : UInt8} (h : Appends before argv s c) :
      WritesToken before argv s (s.token.length + 1)
  | first (hc : argv[s.i]? = some comma) : WritesToken before argv s 0

variable {before argv text : List UInt8} {queue : Queue} {s t : Scan} {c : UInt8}

theorem Appends.next (h : Appends before argv s c) : s.i < argv.length := by
  cases h with
  | space hc _ _ => exact (take_next hc).1
  | punct hc _ => exact (take_next hc).1
  | alnum hc _ _ => exact (take_next hc).1

/-- A token is changed by these writes only. -/
theorem token_written (hv : s.inputvalidity = true) (hp : scanPass before argv s = .again t) :
    t.token = s.token ∨ (∃ c, Appends before argv s c ∧ t.token = s.token ++ [c]) ∨
      argv[s.i]? = some comma ∧ t.token = [] := by
  rcases again_cases hv hp with ⟨c, hc, htakes⟩
  cases htakes with
  | blank hspace hs => exact .inr (.inl ⟨blank, .space hc hspace hs, rfl⟩)
  | comma he _ =>
      rw [he] at hc
      exact .inr (.inr ⟨hc, rfl⟩)
  | punct hpunct => exact .inr (.inl ⟨c, .punct hc hpunct, rfl⟩)
  | alnum halnum hs => exact .inr (.inl ⟨c, .alnum hc halnum hs, rfl⟩)
  | _ => exact .inl rfl

/-- A pass that leaves the loop does not change it. -/
theorem token_left (hv : s.inputvalidity = true) (hp : scanPass before argv s = .leave (.ok t)) :
    t.token = s.token := by
  rcases leave_cases hv hp with ⟨_, rfl⟩ | ⟨c, _, hrejects⟩
  · rfl
  · cases hrejects with
    | _ => rfl

/-! ## The priority -/

theorem parensEnding_nil (hbefore : before.head? ≠ some rightParen) :
    parensEnding before [] = 0 := by
  unfold parensEnding
  rw [List.reverse_nil, List.nil_append]
  cases before with
  | nil => rfl
  | cons d before =>
      rw [List.takeWhile_cons, if_neg]
      · rfl
      · intro hd
        exact hbefore (congrArg some (of_decide_eq_true hd))

theorem count_concat (text : List UInt8) (c d : UInt8) :
    (text ++ [c]).count d = text.count d + if c = d then 1 else 0 := by
  rw [List.count_append, List.count_singleton]
  simp only [beq_iff_eq]

/-- Characters other than commas and parentheses leave the priority as it is. -/
theorem step_priority (before : List UInt8) (r : Reader) (hcomma : c ≠ comma)
    (hleft : c ≠ leftParen) : (r.step before c).priority = r.priority := by
  unfold Reader.step
  split_ifs <;> rfl

/-- The right parentheses at the end of the text are not counted yet, but off the stack. -/
theorem openParens_le_priority (hbefore : before.head? ≠ some rightParen)
    (h : Unexhausted text) :
    (openParens text : ℤ) + parensEnding before text ≤ (readOf before text).priority ∧
      (readOf before text).priority ≤ text.count leftParen := by
  induction text using List.reverseRecOn with
  | nil =>
      rw [parensEnding_nil hbefore]
      exact ⟨Int.le_refl 0, Int.le_refl 0⟩
  | append_singleton text c ih =>
      rcases ih h.front with ⟨hstack, hcount⟩
      rw [readOf_concat, openParens_concat, parensEnding_concat, count_concat]
      by_cases hcomma : c = comma
      · subst hcomma
        have hright : comma ≠ rightParen := by decide
        have hleft : comma ≠ leftParen := by decide
        rw [step_comma, parenStep_other hleft hright, if_neg hright, if_neg hleft, readOf_text]
        dsimp only
        omega
      · by_cases hleft : c = leftParen
        · subst hleft
          have hright : leftParen ≠ rightParen := by decide
          have hpushed : parenStep (openParens text) leftParen ≤ openParens text + 1 :=
            min_le_left _ _
          rw [step_left, if_neg hright, if_pos rfl]
          dsimp only
          push_cast
          omega
        · rw [step_priority before _ hcomma hleft, if_neg hleft]
          by_cases hright : c = rightParen
          · subst hright
            have hsome : openParens text ≠ 0 := h text List.prefix_rfl
            have hpopped : parenStep (openParens text) rightParen = openParens text - 1 := rfl
            rw [hpopped, if_pos rfl]
            omega
          · rw [parenStep_other hleft hright, if_neg hright]
            omega

/-! ## The loop -/

/-- What holds at the head of the loop, and of the pass that follows. -/
structure LoopInvariant (before argv : List UInt8) (s : Scan) : Prop where
  token : s.token.length ≤ s.i
  writes : ∀ index, WritesToken before argv s index → index < argv.length + 1
  stack : 0 ≤ ssize s.stack ∧ ssize s.stack ≤ min s.priority MAXSIZE
  calls : ∀ call ∈ enqueues argv s,
    255 - ((argv.take s.i).count leftParen : ℤ) ≤ call.priority ∧ call.priority ≤ 255

theorem enqueues_priority {call : QueueNode} (h : call ∈ enqueues argv s) :
    call.priority = 255 - s.priority := by
  unfold enqueues at h
  split at h
  · exact absurd h List.not_mem_nil
  · split_ifs at h
    · rw [List.mem_singleton.mp h]
    · exact absurd h List.not_mem_nil

theorem writes_in_range (h : s.token.length ≤ s.i) {index : ℕ}
    (hwrites : WritesToken before argv s index) : index < argv.length + 1 := by
  cases hwrites with
  | char happends =>
      have hi := happends.next
      omega
  | terminator happends =>
      have hi := happends.next
      omega
  | first _ => exact Nat.succ_pos _

/-- The invariant at every iteration. -/
theorem loop_invariant {before argv : List UInt8} (hbefore : before.head? ≠ some rightParen)
    (stack : Stack) (queue : Queue) {s : Scan}
    (hwalks : Walks (scanPass before argv) (Scan.initial (screate stack) queue) s) :
    LoopInvariant before argv s := by
  have hs := readUp_of_walks (readUp_initial before argv stack queue) hwalks
  have hunexhausted := unexhausted_of_placed hs.scanned.placed
  rcases openParens_le_priority hbefore hunexhausted with ⟨hstack, hcount⟩
  rw [← hs.agrees.priority] at hstack hcount
  have htop := hs.scanned.level.top
  have hbound := hs.scanned.level.bound
  constructor
  · exact hs.scanned.token
  · exact fun index => writes_in_range hs.scanned.token
  · unfold ssize
    rw [htop, le_min_iff]
    omega
  · intro call hcall
    rw [enqueues_priority hcall]
    omega

/-- The line `(a),` at its comma. -/
theorem loop_invariant_one :
    ([] : List UInt8).head? ≠ some rightParen ∧ ∃ s,
      Walks (scanPass [] [40, 97, 41, 44])
        (Scan.initial (screate ⟨.replicate MAXSIZE .null, 0⟩) qcreate) s ∧
      s.i = 3 ∧ LoopInvariant [] [40, 97, 41, 44] s := by
  have hbefore : ([] : List UInt8).head? ≠ some rightParen := by decide
  have hwalks : Walks (scanPass [] [40, 97, 41, 44])
      (Scan.initial (screate ⟨.replicate MAXSIZE .null, 0⟩) qcreate) _ :=
    .pass rfl (.pass rfl (.pass rfl (.refl _)))
  exact ⟨hbefore, _, hwalks, rfl, loop_invariant hbefore _ _ hwalks⟩

end MinixOS.TokenizerInvariant
