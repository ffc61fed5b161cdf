import MinixOS.TokenizerReading

/-!
# When the tokenizer returns

The branches of the main loop take their character or leave the loop, but the last one does
nothing. A control character, or a byte above 127, that the loop comes to behind the start of the line
is met again in every pass. The loop is left exactly if the line is rejected in front of
the first of them.
-/
namespace MinixOS.TokenizerTermination
open LoopExecution CheckedExecution CommandQueue Tokenizer TokenizerSteps TokenizerForest
  TokenizerRejection TokenizerReading

variable {before argv : List UInt8} {s t : Scan} {c : UInt8} {i : ℕ}

/-- After some number of passes the call comes back, and nothing was read out of range. -/
def Returns (before argv : List UInt8) (stack : Stack) (queue : Queue) : Prop :=
  ∃ fuel out, tokenizer fuel before argv (screate stack) queue = .ok out

/-- From `argv[start]` on, each character of no class is out of place or behind one that is. -/
def RejectedFirst (argv : List UInt8) (start : ℕ) : Prop :=
  ∀ i c, start ≤ i → argv[i]? = some c → noClass c →
    ∃ j d, start ≤ j ∧ j ≤ i ∧ argv[j]? = some d ∧ Misplaced (argv.take j) d

theorem rejectedFirst_end (hc : argv[i]? = none) : RejectedFirst argv i := by
  intro k d hk hd
  have hlength := List.getElem?_eq_none_iff.mp hc
  rw [List.getElem?_eq_none (hlength.trans hk)] at hd
  cases hd

theorem rejectedFirst_misplaced (hc : argv[i]? = some c) (hplace : Misplaced (argv.take i) c) :
    RejectedFirst argv i :=
  fun _ _ hk _ _ => ⟨i, c, Nat.le_refl i, hk, hc, hplace⟩

theorem not_rejectedFirst (hc : argv[i]? = some c) (hplace : ¬ Misplaced (argv.take i) c)
    (hclass : noClass c) : ¬ RejectedFirst argv i := by
  intro h
  rcases h i c (Nat.le_refl i) hc hclass with ⟨j, d, hij, hji, hd, hmisplaced⟩
  have he : j = i := Nat.le_antisymm hji hij
  subst he
  rw [hc] at hd
  cases hd
  exact hplace hmisplaced

theorem rejectedFirst_next (hc : argv[i]? = some c) (hplace : ¬ Misplaced (argv.take i) c)
    (hclass : ¬ noClass c) : RejectedFirst argv (i + 1) ↔ RejectedFirst argv i := by
  constructor
  · intro h k d hk hd hnone
    rcases Nat.eq_or_lt_of_le hk with he | hlt
    · subst he
      rw [hc] at hd
      cases hd
      exact absurd hnone hclass
    · rcases h k d hlt hd hnone with ⟨j, e, hij, hrest⟩
      exact ⟨j, e, Nat.le_of_succ_le hij, hrest⟩
  · intro h k d hk hd hnone
    rcases h k d (Nat.le_of_succ_le hk) hd hnone with ⟨j, e, hij, hjk, he, hmisplaced⟩
    refine ⟨j, e, ?_, hjk, he, hmisplaced⟩
    rcases Nat.eq_or_lt_of_le hij with hsame | hlt
    · subst hsame
      rw [hc] at he
      cases he
      exact absurd hmisplaced hplace
    · exact hlt

/-- The loop is left with the stack in order, or it is never left. The induction is on how much of
the line is still to be read. -/
theorem ends_of_scanned (h : Scanned argv s) (hread : Readable before argv) :
    (RejectedFirst argv s.i ∧
      ∃ t level, Leaves (scanPass before argv) s (.ok t) ∧ Level level t.stack) ∨
    (¬ RejectedFirst argv s.i ∧ Diverges (scanPass before argv) s) := by
  induction hleft : argv.length - s.i generalizing s with
  | zero =>
      have hc : argv[s.i]? = none := List.getElem?_eq_none (by omega)
      have hp : scanPass before argv s = .leave (.ok s) := by simp [scanPass, hc]
      left
      exact ⟨rejectedFirst_end hc, s, _, (Walks.refl s).leaves hp, h.level⟩
  | succ left ih =>
      have hlt : s.i < argv.length := by omega
      have hc : argv[s.i]? = some argv[s.i] := List.getElem?_eq_getElem hlt
      cases h.passes hread hc with
      | rejects hplace t hp level hlevel =>
          left
          exact ⟨rejectedFirst_misplaced hc hplace, t, level, (Walks.refl s).leaves hp, hlevel⟩
      | hangs hplace hclass hp =>
          right
          exact ⟨not_rejectedFirst hc hplace hclass, diverges_of_again_self hp⟩
      | takes hplace hclass t hp hi ht =>
          have hnext := rejectedFirst_next hc hplace hclass
          rw [← hi] at hnext
          rw [← hnext]
          rcases ih ht (by omega) with ⟨hfirst, u, level, hleaves, hlevel⟩ | ⟨hfirst, hdiverges⟩
          · left
            exact ⟨hfirst, u, level, hleaves.pass hp, hlevel⟩
          · right
            exact ⟨hfirst, hdiverges.pass hp⟩

/-! ## A comma at the start of the line -/

theorem skipParens_stops {front : List UInt8} (h : ∀ d ∈ front, d = rightParen) (index : ℤ) :
    ∃ stop, skipParens index front = .error stop := by
  induction front generalizing index with
  | nil => exact ⟨_, rfl⟩
  | cons c front ih =>
      rcases List.forall_mem_cons.mp h with ⟨hc, hrest⟩
      rcases ih hrest (index - 1) with ⟨stop, hstop⟩
      exact ⟨stop, by simp [skipParens, hc, hstop]⟩

theorem not_readable_stops (h : ¬ Readable before argv) (stack : Stack) (queue : Queue) :
    ∃ stop, scanPass before argv (Scan.initial (screate stack) queue) = .leave (.error stop) := by
  unfold Readable at h
  rcases Classical.not_imp.mp h with ⟨hfirst, hother⟩
  have hbefore : ∀ d ∈ before, d = rightParen := by
    intro d hd
    by_contra hne
    exact hother ⟨d, hd, hne⟩
  rcases skipParens_stops hbefore (-1) with ⟨stop, hstop⟩
  rcases List.head?_eq_some_iff.mp hfirst with ⟨rest, rfl⟩
  refine ⟨stop, leave_of_stop (c := comma) rfl ?_⟩
  change (skipParens (-1) before >>= _) = _
  rw [hstop]
  rfl

/-- `tokenizer` returns exactly if each character of no class is out of place or behind a character
that is, and what is read in front of the line ends. -/
theorem tokenizer_returns_iff (before argv : List UInt8) (stack : Stack) (queue : Queue) :
    Returns before argv stack queue ↔ Readable before argv ∧ RejectedFirst argv 0 := by
  have hscanned := scanned_initial argv stack queue
  constructor
  · rintro ⟨fuel, out, hreturn⟩
    unfold tokenizer at hreturn
    rcases bind_eq_ok.mp hreturn with ⟨t, hloop, _⟩
    have hleaves := leaves_of_loop hloop
    have hread : Readable before argv := by
      by_contra hread
      rcases not_readable_stops hread stack queue with ⟨stop, hp⟩
      cases hleaves.unique ((Walks.refl _).leaves hp)
    refine ⟨hread, ?_⟩
    rcases ends_of_scanned hscanned hread with ⟨hfirst, _⟩ | ⟨_, hdiverges⟩
    · exact hfirst
    · exact absurd hleaves hdiverges.not_leaves
  · rintro ⟨hread, hfirst⟩
    rcases ends_of_scanned hscanned hread with ⟨_, t, level, hleaves, hlevel⟩ | ⟨hnot, _⟩
    · rcases exists_loop_of_leaves hleaves with ⟨fuel, hloop⟩
      rcases pop_ok hlevel with ⟨popped, hpop⟩
      unfold Returns tokenizer
      refine ⟨fuel, ?_⟩
      rw [hloop, ok_bind, hpop]
      exact ⟨_, rfl⟩
    · exact absurd hfirst hnot

/-- The line `aé` in UTF-8. The first byte of the second letter is of no class. -/
theorem tokenizer_returns_fails :
    ¬ Returns [0] [97, 195, 169] ⟨Vector.replicate MAXSIZE .null, 0⟩ qcreate := by
  have hfirst : scanPass [0] [97, 195, 169]
      (Scan.initial (screate ⟨Vector.replicate MAXSIZE .null, 0⟩) qcreate) =
        .again { Scan.initial (screate ⟨Vector.replicate MAXSIZE .null, 0⟩) qcreate with
          token := [97], i := 1, state := .alnum } := rfl
  have hsecond : scanPass [0] [97, 195, 169]
      { Scan.initial (screate ⟨Vector.replicate MAXSIZE .null, 0⟩) qcreate with
        token := [97], i := 1, state := .alnum } =
        .again { Scan.initial (screate ⟨Vector.replicate MAXSIZE .null, 0⟩) qcreate with
          token := [97], i := 1, state := .alnum } := rfl
  have hdiverges := (diverges_of_again_self hsecond).pass hfirst
  rintro ⟨fuel, out, hreturn⟩
  unfold tokenizer at hreturn
  rcases bind_eq_ok.mp hreturn with ⟨t, hloop, _⟩
  exact hdiverges.not_leaves (leaves_of_loop hloop)

end MinixOS.TokenizerTermination
