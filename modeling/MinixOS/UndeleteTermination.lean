import MinixOS.UndeleteLookup

/-!
# When the removal of a key ends

The loop of `deleteFromHashTable` goes on to the next cell until it meets the key or
NULL. It goes round the table, and nothing else stops it. A cell that was used once
never becomes NULL again, so that a table that was full once has no NULL left,
and the removal of a key it does not hold goes round it forever.
-/
namespace MinixOS.UndeleteTermination
open LoopExecution CheckedExecution SystemRuns LinearProbing UndeleteTable UndeleteProbing
open UndeleteSystem UndeleteLookup

variable {SIZE : ℕ}

/-! ## The loop -/

section Loop
variable {a : Vector (Option DataItem) SIZE} {key : ℤ}

theorem deletePass_pass {i : Fin SIZE} (h : Passes key (a.get i)) :
    deletePass a key (i : ℕ) = .again (visit i 1 : ℕ) := by
  rcases h with ⟨item, hitem, hne⟩
  simp only [deletePass, readAt_fin, hitem, if_neg hne, nextIndex_fin]

theorem not_passes {c : Option DataItem} :
    ¬ Passes key c ↔ c = none ∨ ∃ item, c = some item ∧ item.key = key := by
  unfold Passes
  cases c <;> simp

/-- Where every cell has an item of another key the loop goes round. -/
theorem deleteLoop_diverges (h : ∀ i, Passes key (a.get i)) (i : Fin SIZE) :
    Diverges (deletePass a key) (i : ℕ) := by
  apply diverges_of_invariant (I := fun j : ℤ => ∃ i : Fin SIZE, j = (i : ℕ))
  · rintro _ ⟨i, rfl⟩
    exact ⟨_, ⟨visit i 1, rfl⟩, deletePass_pass (h i)⟩
  · exact ⟨i, rfl⟩

/-- The loop along the cells it passes. -/
theorem deleteLoop_leaves {h : Fin SIZE} {d : ℕ} {r : Except Stop (Option (ℤ × DataItem))}
    (hwalk : ∀ j < d, Passes key (a.get (visit h j)))
    (hlast : deletePass a key (visit h d : ℕ) = .leave r) :
    Leaves (deletePass a key) (h : ℕ) r := by
  have hpath := run_of_path d (fun j => ((visit h j : ℕ) : ℤ)) (fun j hj => by
    rw [deletePass_pass (hwalk j hj), visit_visit]) hlast
  rw [visit_zero] at hpath
  exact ⟨d + 1, hpath⟩

/-- The first cell that is not passed decides. -/
theorem deleteLoop_cases (a : Vector (Option DataItem) SIZE) (key : ℤ) (h : Fin SIZE) :
    (∃ d < SIZE, (∀ j < d, Passes key (a.get (visit h j))) ∧ a.get (visit h d) = none ∧
        Leaves (deletePass a key) (h : ℕ) (.ok none)) ∨
      (∃ d < SIZE, ∃ item, (∀ j < d, Passes key (a.get (visit h j))) ∧
        a.get (visit h d) = some item ∧ item.key = key ∧
        Leaves (deletePass a key) (h : ℕ) (.ok (some ((visit h d : ℕ), item)))) ∨
      ∀ i, Passes key (a.get i) := by
  by_cases hall : ∀ i, Passes key (a.get i)
  · exact .inr (.inr hall)
  · have hex : ∃ i, ¬ Passes key (a.get i) := not_forall.mp hall
    rcases exists_first_visit h hex with ⟨d, hd, hstop, hfirst⟩
    have hwalk : ∀ j < d, Passes key (a.get (visit h j)) := fun j hj => not_not.mp (hfirst j hj)
    rcases not_passes.mp hstop with hnone | ⟨item, hitem, hkey⟩
    · have hlast : deletePass a key (visit h d : ℕ) = .leave (.ok none) := by
        simp only [deletePass, readAt_fin, hnone]
      exact .inl ⟨d, hd, hwalk, hnone, deleteLoop_leaves hwalk hlast⟩
    · have hlast : deletePass a key (visit h d : ℕ) =
          .leave (.ok (some ((visit h d : ℕ), item))) := by
        simp only [deletePass, readAt_fin, hitem, if_pos hkey]
      exact .inr (.inl ⟨d, hd, item, hwalk, hitem, hkey, deleteLoop_leaves hwalk hlast⟩)

end Loop

/-! ## The call -/

variable {t : Table SIZE}

/-- Some cell holds an item of the key. -/
def Holds (t : Table SIZE) (key : ℤ) : Prop := ∃ i, ∃ item ∈ t.hashArray.get i, item.key = key

instance (t : Table SIZE) (key : ℤ) : Decidable (Holds t key) :=
  inferInstanceAs (Decidable (∃ i, ∃ item ∈ t.hashArray.get i, item.key = key))

/-- The removal of the key ends. If no entry has the key it answers NULL and changes nothing. -/
def RemovalEnds (t : Table SIZE) (key : ℤ) : Prop :=
  ∃ out, Returns (.deleteFromHashTable key) t out ∧
    (¬ Holds t key → out.ret = none ∧ out.table = t)

variable {key : ℤ}

theorem returns_of_missed (hsize : ¬ t.hashSize < 1)
    (hloop : Leaves (deletePass t.hashArray key) (hashCode SIZE key) (.ok none)) :
    Returns (.deleteFromHashTable key) t ⟨t, [], none⟩ := by
  rcases exists_loop_of_leaves hloop with ⟨fuel, hfuel⟩
  refine ⟨fuel, ?_⟩
  simp only [execute, deleteFromHashTable, if_neg hsize, hfuel, ok_bind]
  rfl

theorem returns_of_found (hsize : ¬ t.hashSize < 1) {i : Fin SIZE} {item : DataItem}
    (hloop : Leaves (deletePass t.hashArray key) (hashCode SIZE key)
      (.ok (some ((i : ℕ), item)))) :
    Returns (.deleteFromHashTable key) t ⟨eraseAt t i, [], some item⟩ := by
  rcases exists_loop_of_leaves hloop with ⟨fuel, hfuel⟩
  refine ⟨fuel, ?_⟩
  simp only [execute, deleteFromHashTable, if_neg hsize, hfuel, ok_bind, writeAt_fin]
  rfl

variable [NeZero SIZE]

theorem removal_hangs (hkey : 0 ≤ key) (hsize : ¬ t.hashSize < 1)
    (hnot : ¬ (Holds t key ∨ ∃ i, t.hashArray.get i = none)) : ¬ RemovalEnds t key := by
  have hall : ∀ i, Passes key (t.hashArray.get i) := by
    intro i
    by_contra hstop
    apply hnot
    rcases not_passes.mp hstop with hnone | ⟨item, hitem, hk⟩
    · exact .inr ⟨i, hnone⟩
    · exact .inl ⟨i, item, hitem, hk⟩
  rintro ⟨out, ⟨fuel, hout⟩, _⟩
  simp only [execute, deleteFromHashTable, if_neg hsize] at hout
  rcases bind_eq_ok.mp hout with ⟨found, hfound, _⟩
  rw [hashCode_of_nonneg hkey] at hfound
  exact (deleteLoop_diverges hall _).not_leaves (leaves_of_loop hfound)

/-- The removal of a key ends exactly when the table is empty, holds the key, or has a cell
that was never used. -/
theorem removal_ends_iff (t : Table SIZE) (hkey : 0 ≤ key) :
    RemovalEnds t key ↔
      t.hashSize < 1 ∨ Holds t key ∨ ∃ i, t.hashArray.get i = none := by
  by_cases hsize : t.hashSize < 1
  · apply iff_of_true _ (.inl hsize)
    refine ⟨⟨t, [.printf "no elements to delete"], none⟩, ⟨0, ?_⟩, fun _ => ⟨rfl, rfl⟩⟩
    simp only [execute, deleteFromHashTable, if_pos hsize]
    rfl
  rw [or_iff_right hsize]
  rcases deleteLoop_cases t.hashArray key (home SIZE key) with
    ⟨d, _, _, hnone, hloop⟩ | ⟨d, _, item, _, hitem, hk, hloop⟩ | hall
  · rw [← hashCode_of_nonneg hkey] at hloop
    exact iff_of_true ⟨_, returns_of_missed hsize hloop, fun _ => ⟨rfl, rfl⟩⟩ (.inr ⟨_, hnone⟩)
  · rw [← hashCode_of_nonneg hkey] at hloop
    have hholds : Holds t key := ⟨_, item, hitem, hk⟩
    have hret := returns_of_found hsize hloop
    exact iff_of_true ⟨_, hret, fun hnot => absurd hholds hnot⟩ (.inl hholds)
  · have hnot : ¬ (Holds t key ∨ ∃ i, t.hashArray.get i = none) := by
      rintro (⟨i, item, hitem, hk⟩ | ⟨i, hnone⟩)
      · exact not_passes.mpr (.inr ⟨item, hitem, hk⟩) (hall i)
      · exact not_passes.mpr (.inl hnone) (hall i)
    exact iff_of_false (removal_hangs hkey hsize hnot) hnot

/-- A table for three after keys 3, 4 and 8 were put in. -/
def filled : Table 3 :=
  ⟨#v[some ⟨[97], 3⟩, some ⟨[98], 4⟩, some ⟨[99], 8⟩], 3, #v[3, 4, 8]⟩

theorem removal_ends_iff_filled : RemovalEnds filled 4 ∧ ¬ RemovalEnds filled 5 := by
  constructor
  · exact (removal_ends_iff filled (by decide)).mpr (by decide)
  · exact (removal_ends_iff filled (by decide)).not.mpr (by decide)

theorem filled_run : ∃ history, Run (system 3) history filled ∧
    ∀ e ∈ history, KeyNonneg e.call :=
  ⟨_, replay_run 4
    [.insertToHash 3 [97], .insertToHash 4 [98], .insertToHash 8 [99]] .init rfl, by decide⟩

/-- The removal of a fourth key goes round the table. -/
theorem removal_ends_fails :
    ¬ ∀ (history : List (Call 3)) (t : Table 3), Run (system 3) history t →
      (∀ e ∈ history, KeyNonneg e.call) → ∀ key, 0 ≤ key → RemovalEnds t key := by
  intro h
  rcases filled_run with ⟨history, hrun, hcalls⟩
  exact removal_hangs (by decide) (by decide) (by decide)
    (h history filled hrun hcalls 5 (by decide))

end MinixOS.UndeleteTermination
