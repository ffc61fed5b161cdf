import MinixOS.LinearProbing
import MinixOS.UndeleteTable

/-!
# Probing the undelete table

A cell that holds NULL is unused, one that holds an item with the key -1 is erased,
and every other cell is live. Read in this way the array is a table with linear
probing. Each of the three loops stops at the cell the probing describes, and each
of the two functions that write the table does to its entries what their
names say.
-/
namespace MinixOS.UndeleteProbing
open LoopExecution CheckedExecution LinearProbing UndeleteTable

def cellOf : Option DataItem → Cell DataItem
  | none => .unused
  | some item => if item.key = -1 then .erased else .live item

theorem cellOf_eq_unused {c : Option DataItem} : cellOf c = .unused ↔ c = none := by
  cases c with
  | none => exact iff_of_true rfl rfl
  | some item =>
      simp only [cellOf]
      split_ifs <;> simp

theorem cellOf_eq_live {c : Option DataItem} {item : DataItem} :
    cellOf c = .live item ↔ c = some item ∧ item.key ≠ -1 := by
  cases c with
  | none => simp [cellOf]
  | some other =>
      simp only [cellOf, Option.some.injEq]
      split_ifs with h
      · simp only [false_iff, not_and, not_not]
        intro he
        exact he ▸ h
      · simp only [Cell.live.injEq]
        constructor
        · intro he
          exact ⟨he, he ▸ h⟩
        · exact And.left

theorem held_cellOf_eq_zero {c : Option DataItem} :
    (cellOf c).held = 0 ↔ ∀ item, c = some item → item.key = -1 := by
  cases c with
  | none => simp [cellOf, Cell.held]
  | some other =>
      simp only [cellOf]
      split_ifs with h
      · simp [Cell.held, h]
      · simp [Cell.held, h]

variable {SIZE : ℕ}

def cells (a : Vector (Option DataItem) SIZE) (i : Fin SIZE) : Cell DataItem := cellOf (a.get i)

/-- The items in the live cells. -/
def entries (t : Table SIZE) : Multiset DataItem := contents (cells t.hashArray)

theorem mem_entries {t : Table SIZE} {item : DataItem} :
    item ∈ entries t ↔ ∃ i, t.hashArray.get i = some item ∧ item.key ≠ -1 := by
  simp only [entries, mem_contents, cells, cellOf_eq_live]

theorem cells_set (a : Vector (Option DataItem) SIZE) (i : Fin SIZE) (c : Option DataItem) :
    cells (a.set i c i.isLt) = Function.update (cells a) i (cellOf c) := by
  funext j
  by_cases hj : j = i
  · subst hj
    simp [cells, get_set]
  · simp [cells, get_set, hj, Ne.symm hj]

/-! ## Indices -/

theorem nextIndex_fin (i : Fin SIZE) : nextIndex SIZE (i : ℕ) = (visit i 1 : ℕ) := by
  rw [nextIndex, visit, ← Nat.cast_succ]
  rfl

/-- Where the search for a key starts. -/
def home (SIZE : ℕ) [NeZero SIZE] (key : ℤ) : Fin SIZE := Fin.ofNat SIZE key.toNat

theorem hashCode_of_nonneg [NeZero SIZE] {key : ℤ} (h : 0 ≤ key) :
    hashCode SIZE key = (home SIZE key : ℕ) := by
  obtain ⟨k, rfl⟩ := Int.eq_ofNat_of_zero_le h
  rfl

/-! ## Where the loops stop -/

section Loops
variable {a : Vector (Option DataItem) SIZE} {key : ℤ}

/-- A cell with an item of another key, which a loop that looks for `key` goes on from. -/
def Passes (key : ℤ) (c : Option DataItem) : Prop := ∃ item, c = some item ∧ item.key ≠ key

theorem passes_of_held {c : Option DataItem} (h : (cellOf c).held ≠ 0) : Passes (-1) c := by
  rw [Ne, held_cellOf_eq_zero] at h
  push Not at h
  exact h

theorem searchLoop_pass (left : ℕ) (h : Fin SIZE) (hp : Passes key (a.get h)) :
    searchLoop a key (left + 1) (h : ℕ) = searchLoop a key left (visit h 1 : ℕ) := by
  obtain ⟨item, hitem, hne⟩ := hp
  simp only [searchLoop, readAt_fin, hitem, ok_bind, if_neg hne, nextIndex_fin]

theorem searchLoop_hit {item : DataItem} {d left : ℕ} {h : Fin SIZE} (hd : d < left)
    (hwalk : ∀ j < d, Passes key (a.get (visit h j)))
    (hitem : a.get (visit h d) = some item) (hkey : item.key = key) :
    searchLoop a key left (h : ℕ) = .ok (some ((visit h d : ℕ), item)) := by
  obtain ⟨more, rfl⟩ := Nat.exists_eq_add_of_lt hd
  have hw := loop_walk (f := fun left h => searchLoop a key left (h : ℕ))
    searchLoop_pass hwalk (more + 1)
  have he : d + more + 1 = more + 1 + d := by omega
  rw [he, hw]
  simp [searchLoop, readAt_fin, hitem, hkey]

theorem searchLoop_miss (hmiss : ∀ i item, a.get i = some item → item.key ≠ key)
    (left : ℕ) (h : Fin SIZE) : searchLoop a key left (h : ℕ) = .ok none := by
  induction left generalizing h with
  | zero => simp [searchLoop, readAt_fin]
  | succ left ih =>
      cases hc : a.get h with
      | none => simp [searchLoop, readAt_fin, hc]
      | some item =>
          have hne := hmiss h item hc
          simp only [searchLoop, readAt_fin, hc, ok_bind, if_neg hne, nextIndex_fin, ih]

/-- What a search returns is in the table, whatever the key. -/
theorem searchLoop_sound {left : ℕ} {i j : ℤ} {item : DataItem}
    (h : searchLoop a key left i = .ok (some (j, item))) :
    item.key = key ∧ readAt a j = .ok (some item) := by
  induction left generalizing i with
  | zero =>
      obtain ⟨_, _, h⟩ := bind_eq_ok.mp h
      cases h
  | succ left ih =>
      obtain ⟨c, hc, h⟩ := bind_eq_ok.mp h
      cases c with
      | none => cases h
      | some other =>
          by_cases hkey : other.key = key
          · simp only [if_pos hkey] at h
            cases h
            exact ⟨hkey, hc⟩
          · simp only [if_neg hkey] at h
            exact ih h

theorem insertLoop_pass (left : ℕ) (h : Fin SIZE) (hp : Passes (-1) (a.get h)) :
    insertLoop a (left + 1) (h : ℕ) = insertLoop a left (visit h 1 : ℕ) := by
  obtain ⟨item, hitem, hne⟩ := hp
  simp only [insertLoop, readAt_fin, hitem, ok_bind, if_neg hne, nextIndex_fin]

theorem insertLoop_free {d left : ℕ} {h : Fin SIZE} (hd : d < left)
    (hwalk : ∀ j < d, Passes (-1) (a.get (visit h j)))
    (hfree : ∀ item, a.get (visit h d) = some item → item.key = -1) :
    insertLoop a left (h : ℕ) = .ok (visit h d : ℕ) := by
  obtain ⟨more, rfl⟩ := Nat.exists_eq_add_of_lt hd
  have hw := loop_walk (f := fun left h => insertLoop a left (h : ℕ))
    insertLoop_pass hwalk (more + 1)
  have he : d + more + 1 = more + 1 + d := by omega
  rw [he, hw]
  cases hc : a.get (visit h d) with
  | none => simp [insertLoop, readAt_fin, hc]
  | some item => simp [insertLoop, readAt_fin, hc, hfree item hc]

theorem deleteLoop_run {item : DataItem} {d : ℕ} {h : Fin SIZE}
    (hwalk : ∀ j < d, Passes key (a.get (visit h j)))
    (hitem : a.get (visit h d) = some item) (hkey : item.key = key) :
    run (deletePass a key) (d + 1) (h : ℕ) = some (.ok (some ((visit h d : ℕ), item))) := by
  have hwalk' : ∀ i < d, deletePass a key (visit h i : ℕ) = .again ((visit h (i + 1) : ℕ) : ℤ) := by
    intro i hi
    obtain ⟨other, hother, hne⟩ := hwalk i hi
    simp only [deletePass, readAt_fin, hother, if_neg hne, nextIndex_fin, visit_visit]
  have hlast : deletePass a key (visit h d : ℕ) = .leave (.ok (some ((visit h d : ℕ), item))) := by
    simp only [deletePass, readAt_fin, hitem, if_pos hkey]
  have hpath := run_of_path d (fun i => ((visit h i : ℕ) : ℤ)) hwalk' hlast
  simpa only [visit_zero] using hpath

end Loops

/-! ## What the functions do to the entries -/

variable {t : Table SIZE}

/-- The two writes that `insertToHashTable` ends with. -/
def storeAt (t : Table SIZE) (i : Fin SIZE) (item : DataItem) : Table SIZE :=
  { t with hashArray := t.hashArray.set i (some item) i.isLt, hashSize := t.hashSize + 1 }

/-- The two writes that `deleteFromHashTable` ends with. -/
def eraseAt (t : Table SIZE) (i : Fin SIZE) : Table SIZE :=
  { t with hashArray := t.hashArray.set i (some dummyItem) i.isLt, hashSize := t.hashSize - 1 }

theorem entries_storeAt {i : Fin SIZE} {item : DataItem}
    (hfree : (cells t.hashArray i).held = 0) (hkey : item.key ≠ -1) :
    entries (storeAt t i item) = item ::ₘ entries t := by
  have hlive : cellOf (some item) = .live item := cellOf_eq_live.mpr ⟨rfl, hkey⟩
  unfold entries storeAt
  rw [cells_set, hlive]
  exact contents_store hfree item

theorem entries_eraseAt {i : Fin SIZE} {item : DataItem}
    (hlive : cells t.hashArray i = .live item) : item ::ₘ entries (eraseAt t i) = entries t := by
  have herased : cellOf (some dummyItem) = .erased := rfl
  unfold entries eraseAt
  rw [cells_set, herased]
  exact contents_erase hlive

/-- The table is chained, counts its entries, and holds no negative keys. -/
structure WellFormed [NeZero SIZE] (t : Table SIZE) : Prop where
  chained : Chained (home SIZE) DataItem.key (cells t.hashArray)
  size : Multiset.card (entries t) = t.hashSize
  nonneg : ∀ item ∈ entries t, 0 ≤ item.key

theorem cells_initial : cells (Table.initial SIZE).hashArray = fun _ => .unused := by
  funext i
  simp only [cells, Table.initial, get_replicate, cellOf]

theorem entries_initial : entries (Table.initial SIZE) = 0 := by
  simp [entries, cells_initial, contents, Cell.held]

theorem wellFormed_initial [NeZero SIZE] : WellFormed (Table.initial SIZE) := by
  constructor
  · rw [cells_initial]
    exact chained_unused
  · rw [entries_initial]
    rfl
  · simp [entries_initial]

variable [NeZero SIZE] {key : ℤ}

theorem WellFormed.size_le (h : WellFormed t) : t.hashSize ≤ SIZE := by
  rw [← h.size]
  exact card_contents_le _

/-- The item goes to the first cell from its home on that holds none. -/
theorem WellFormed.store (h : WellFormed t) (item : DataItem) (hkey : 0 ≤ item.key) {d : ℕ}
    (hd : d < SIZE) (hfree : (cells t.hashArray (visit (home SIZE item.key) d)).held = 0)
    (hwalk : ∀ j < d, (cells t.hashArray (visit (home SIZE item.key) j)).held ≠ 0) :
    WellFormed (storeAt t (visit (home SIZE item.key) d) item) := by
  have hne : item.key ≠ -1 := by omega
  have hentries := entries_storeAt hfree hne
  constructor
  · have hlive : cellOf (some item) = .live item := cellOf_eq_live.mpr ⟨rfl, hne⟩
    unfold storeAt
    rw [cells_set, hlive]
    exact h.chained.store hd hwalk
  · rw [hentries, Multiset.card_cons, h.size]
    rfl
  · intro other hother
    rw [hentries] at hother
    rcases Multiset.mem_cons.mp hother with rfl | hother
    · exact hkey
    · exact h.nonneg other hother

theorem WellFormed.erase (h : WellFormed t) {i : Fin SIZE} {item : DataItem}
    (hlive : cells t.hashArray i = .live item) : WellFormed (eraseAt t i) := by
  have hentries := entries_eraseAt hlive
  constructor
  · unfold eraseAt
    rw [cells_set]
    exact h.chained.erase i
  · have hsize := congrArg Multiset.card hentries
    rw [Multiset.card_cons, h.size] at hsize
    exact Nat.eq_sub_of_add_eq hsize
  · intro other hother
    apply h.nonneg other
    rw [← hentries]
    exact Multiset.mem_cons_of_mem hother

/-- An insertion stores the item in the first cell from its home that holds none. -/
theorem insertToHashTable_at (hkey : 0 ≤ key) {d : ℕ} (hd : d < SIZE)
    (hfree : (cells t.hashArray (visit (home SIZE key) d)).held = 0)
    (hwalk : ∀ j < d, (cells t.hashArray (visit (home SIZE key) j)).held ≠ 0)
    (data : List UInt8) :
    insertToHashTable key data t = .ok (storeAt t (visit (home SIZE key) d) ⟨data, key⟩) := by
  have hloop := insertLoop_free hd (fun j hj => passes_of_held (hwalk j hj))
    (held_cellOf_eq_zero.mp hfree)
  unfold insertToHashTable
  simp only [hashCode_of_nonneg hkey, hloop, ok_bind, writeAt_fin]
  rfl

/-- Where there is room, an insertion stores the item in a cell that holds none. -/
theorem insertToHashTable_stores (h : WellFormed t) (hkey : 0 ≤ key) (hroom : t.hashSize < SIZE)
    (data : List UInt8) :
    ∃ d < SIZE,
      insertToHashTable key data t = .ok (storeAt t (visit (home SIZE key) d) ⟨data, key⟩) ∧
      (cells t.hashArray (visit (home SIZE key) d)).held = 0 ∧
      (∀ j < d, (cells t.hashArray (visit (home SIZE key) j)).held ≠ 0) ∧
      WellFormed (storeAt t (visit (home SIZE key) d) ⟨data, key⟩) := by
  have hcard : Multiset.card (entries t) < SIZE := by rwa [h.size]
  obtain ⟨d, hd, hfree, hwalk⟩ := exists_first_free hcard (home SIZE key)
  have hinsert := insertToHashTable_at hkey hd hfree hwalk data
  exact ⟨d, hd, hinsert, hfree, hwalk, h.store ⟨data, key⟩ hkey hd hfree hwalk⟩

/-- The insertion adds the item to the entries. -/
theorem insertToHashTable_spec (h : WellFormed t) (hkey : 0 ≤ key) (hroom : t.hashSize < SIZE)
    (data : List UInt8) :
    ∃ t', insertToHashTable key data t = .ok t' ∧ WellFormed t' ∧
      entries t' = ⟨data, key⟩ ::ₘ entries t ∧ t'.inodeArray = t.inodeArray := by
  obtain ⟨d, _, hinsert, hfree, _, hwell⟩ := insertToHashTable_stores h hkey hroom data
  have hne : key ≠ -1 := by omega
  exact ⟨_, hinsert, hwell, entries_storeAt hfree hne, rfl⟩

/-- The first cell with an item of the key, before any cell that holds NULL. -/
theorem WellFormed.exists_first_item (h : WellFormed t) (hkey : 0 ≤ key)
    (hmem : ∃ item ∈ entries t, item.key = key) :
    ∃ d < SIZE, ∃ item, t.hashArray.get (visit (home SIZE key) d) = some item ∧
      item.key = key ∧ ∀ j < d, Passes key (t.hashArray.get (visit (home SIZE key) j)) := by
  obtain ⟨first, hfirst, rfl⟩ := hmem
  obtain ⟨d, hd, item, hlive, hitem, hwalk⟩ := h.chained.exists_first_match hfirst
  refine ⟨d, hd, item, (cellOf_eq_live.mp hlive).1, hitem, fun j hj => ?_⟩
  obtain ⟨hused, hother⟩ := hwalk j hj
  cases hc : t.hashArray.get (visit (home SIZE first.key) j) with
  | none =>
      exfalso
      exact hused (cellOf_eq_unused.mpr hc)
  | some other =>
      refine ⟨other, rfl, fun he => ?_⟩
      have hkey' : other.key ≠ -1 := by omega
      exact hother other (cellOf_eq_live.mpr ⟨hc, hkey'⟩) he

/-- The removal of a key that some entry has takes out an entry with that key. -/
theorem deleteFromHashTable_found (h : WellFormed t) (hkey : 0 ≤ key)
    (hmem : ∃ item ∈ entries t, item.key = key) :
    ∃ t' item, deleteFromHashTable SIZE key t = .ok ⟨t', [], some item⟩ ∧ item.key = key ∧
      WellFormed t' ∧ item ::ₘ entries t' = entries t ∧ t'.inodeArray = t.inodeArray := by
  obtain ⟨d, hd, item, hitem, hk, hwalk⟩ := h.exists_first_item hkey hmem
  have hloop := loop_mono (loop_eq_ok.mpr (deleteLoop_run hwalk hitem hk)) (SIZE - (d + 1))
  rw [Nat.add_sub_of_le hd] at hloop
  have hne : item.key ≠ -1 := by omega
  have hlive : cells t.hashArray (visit (home SIZE key) d) = .live item :=
    cellOf_eq_live.mpr ⟨hitem, hne⟩
  have hentries := entries_eraseAt hlive
  have hpos : ¬ t.hashSize < 1 := by
    have hsize := congrArg Multiset.card hentries
    rw [Multiset.card_cons, h.size] at hsize
    omega
  have hdelete : deleteFromHashTable SIZE key t =
      .ok ⟨eraseAt t (visit (home SIZE key) d), [], some item⟩ := by
    rw [← hashCode_of_nonneg hkey] at hloop
    unfold deleteFromHashTable
    simp only [if_neg hpos, hloop, ok_bind, writeAt_fin]
    rfl
  exact ⟨_, item, hdelete, hk, h.erase hlive, hentries, rfl⟩

/-- A search for the key of an entry finds an entry with that key. -/
theorem searchLoop_found (h : WellFormed t) (hkey : 0 ≤ key)
    (hmem : ∃ item ∈ entries t, item.key = key) :
    ∃ i item, searchLoop t.hashArray key SIZE (hashCode SIZE key) = .ok (some (i, item)) := by
  obtain ⟨d, hd, item, hitem, hk, hwalk⟩ := h.exists_first_item hkey hmem
  rw [hashCode_of_nonneg hkey]
  exact ⟨_, item, searchLoop_hit hd hwalk hitem hk⟩

/-- A search for another key, which is not negative, ends without an item. -/
theorem searchLoop_absent (hkey : 0 ≤ key) (habsent : ∀ item ∈ entries t, item.key ≠ key) :
    searchLoop t.hashArray key SIZE (hashCode SIZE key) = .ok none := by
  rw [hashCode_of_nonneg hkey]
  refine searchLoop_miss (fun i item hi hk => ?_) SIZE _
  have hne : item.key ≠ -1 := by omega
  exact habsent item (mem_entries.mpr ⟨i, hi, hne⟩) hk

end MinixOS.UndeleteProbing
