import MinixOS.UndeleteFifo

/-!
# Lookups in every reachable undelete table

Runs of all three functions that change the table, with keys that are not negative.
The removal of a single key leaves the array `inodeArray` behind, so that a
later eviction can look for a key that is gone and be stopped at NULL. Such a call does
not return. Every call that does return leaves a table that is well formed, and
in a well-formed table a search finds a key if and only if a live cell holds it.
-/
namespace MinixOS.UndeleteLookup
open LoopExecution CheckedExecution SystemRuns LinearProbing UndeleteTable UndeleteProbing
open UndeleteSystem UndeleteFifo

variable {SIZE : ℕ}

/-- A slot that is not NULL and not erased. -/
def Live (t : Table SIZE) (i : Fin SIZE) : Prop := ∃ item ∈ t.hashArray.get i, item.key ≠ -1

instance (t : Table SIZE) (i : Fin SIZE) : Decidable (Live t i) :=
  inferInstanceAs (Decidable (∃ item ∈ t.hashArray.get i, item.key ≠ -1))

def KeyNonneg : Request → Prop
  | .insertToHash key _ => 0 ≤ key
  | .deleteFromHash => True
  | .deleteFromHashTable keyDel => 0 ≤ keyDel

instance : DecidablePred KeyNonneg
  | .insertToHash key _ => inferInstanceAs (Decidable (0 ≤ key))
  | .deleteFromHash => instDecidableTrue
  | .deleteFromHashTable keyDel => inferInstanceAs (Decidable (0 ≤ keyDel))

theorem keyNonneg_of_fifoCall {call : Request} (h : FifoCall call) : KeyNonneg call := by
  cases call with
  | insertToHash key data => exact h
  | deleteFromHash => trivial
  | deleteFromHashTable keyDel => exact h.elim

variable {t : Table SIZE}

theorem held_ne_zero {i : Fin SIZE} : (cells t.hashArray i).held ≠ 0 ↔ Live t i := by
  unfold cells Live
  rw [Ne, held_cellOf_eq_zero]
  push Not
  rfl

theorem live_iff {i : Fin SIZE} : Live t i ↔ ∃ item, cells t.hashArray i = .live item := by
  unfold cells Live
  simp only [cellOf_eq_live, Option.mem_def]

/-- The key in a slot, and -1 for NULL. -/
def keyAt (t : Table SIZE) (i : Fin SIZE) : ℤ :=
  match t.hashArray.get i with
  | none => -1
  | some item => item.key

theorem live_iff_keyAt {i : Fin SIZE} : Live t i ↔ keyAt t i ≠ -1 := by
  unfold Live keyAt
  cases t.hashArray.get i <;> simp

/-- The keys of the entries are those of the live slots, each as often. -/
theorem entries_map_key (t : Table SIZE) :
    (entries t).map DataItem.key = (Finset.univ.filter (Live t)).val.map (keyAt t) := by
  have hone : ∀ i, (cells t.hashArray i).held.map DataItem.key =
      if Live t i then {keyAt t i} else 0 := by
    intro i
    split_ifs with h
    · obtain ⟨item, hitem⟩ := live_iff.mp h
      have hkey : keyAt t i = item.key := by
        unfold keyAt
        rw [(cellOf_eq_live.mp hitem).1]
      rw [hitem, hkey]
      rfl
    · rw [Multiset.map_eq_zero]
      by_contra hne
      exact h (held_ne_zero.mp hne)
  have hsum := map_sum (Multiset.mapAddMonoidHom DataItem.key)
    (fun i => (cells t.hashArray i).held) Finset.univ
  simp only [Multiset.coe_mapAddMonoidHom] at hsum
  unfold entries contents
  have hsingle := Multiset.sum_map_singleton ((Finset.univ.filter (Live t)).val.map (keyAt t))
  rw [Multiset.map_map] at hsingle
  rw [hsum, Finset.sum_congr rfl fun i _ => hone i, ← Finset.sum_filter]
  exact hsingle

theorem card_entries (t : Table SIZE) :
    Multiset.card (entries t) = (Finset.univ.filter (Live t)).card := by
  have hcard := congrArg Multiset.card (entries_map_key t)
  rw [Multiset.card_map, Multiset.card_map] at hcard
  exact hcard

/-! ## What the calls that return leave behind -/

/-- What the removal finds is in the table, whatever the key. -/
theorem deleteLoop_sound {a : Vector (Option DataItem) SIZE} {key : ℤ} {fuel : ℕ} {i j : ℤ} {item : DataItem}
    (h : loop (deletePass a key) fuel i = .ok (some (j, item))) :
    item.key = key ∧ readAt a j = .ok (some item) := by
  obtain ⟨k, _, hlast⟩ := (leaves_of_loop h).invariant (I := fun _ => True) trivial
    fun _ _ _ _ => trivial
  unfold deletePass at hlast
  split at hlast
  · cases hlast
  · cases hlast
  · next other hread =>
      split_ifs at hlast with hother
      cases hlast
      exact ⟨hother, hread⟩

/-- The shift only moves keys of the array. -/
theorem shiftLoop_nonneg {a b : Vector ℤ SIZE} {left i : ℕ} (hroom : i + left < SIZE)
    (hshift : shiftLoop a left i = .ok b) (ha : ∀ j, 0 ≤ a.get j) (j : Fin SIZE) :
    0 ≤ b.get j := by
  obtain ⟨b', hshift', hget⟩ := shiftLoop_spec a left i hroom
  rw [hshift] at hshift'
  cases hshift'
  have hj := hget j
  rw [getElem?_toList] at hj
  split_ifs at hj with hmoved
  · have hlt : (j : ℕ) + 1 < SIZE := by omega
    rw [getElem?_toList a ⟨j + 1, hlt⟩] at hj
    rw [Option.some.inj hj]
    exact ha _
  · rw [getElem?_toList] at hj
    rw [Option.some.inj hj]
    exact ha _

section Inversion
variable [NeZero SIZE] {fuel : ℕ} {key : ℤ} {out : Outcome SIZE}

/-- A removal takes out the entry a search for the key meets, and changes nothing if there
is none. -/
theorem deleteFromHashTable_cases (h : WellFormed t) (hkey : 0 ≤ key)
    (hr : deleteFromHashTable fuel key t = .ok out) :
    (searchLoop t.hashArray key SIZE (hashCode SIZE key) = .ok none ∧ out.table = t ∧
        out.ret = none) ∨
      ∃ (i : Fin SIZE) (item : DataItem),
        searchLoop t.hashArray key SIZE (hashCode SIZE key) = .ok (some ((i : ℕ), item)) ∧
        cells t.hashArray i = .live item ∧ item.key = key ∧
        out = ⟨eraseAt t i, [], some item⟩ := by
  by_cases hmem : ∃ item ∈ entries t, item.key = key
  · right
    obtain ⟨d, hd, item, hitem, hk, hwalk⟩ := h.exists_first_item hkey hmem
    have hne : item.key ≠ -1 := by omega
    have hlive : cells t.hashArray (visit (home SIZE key) d) = .live item :=
      cellOf_eq_live.mpr ⟨hitem, hne⟩
    have hsearch := searchLoop_hit hd hwalk hitem hk
    rw [← hashCode_of_nonneg hkey] at hsearch
    have hpos : ¬ t.hashSize < 1 := by
      have hsize := congrArg Multiset.card (entries_eraseAt hlive)
      rw [Multiset.card_cons, h.size] at hsize
      omega
    simp only [deleteFromHashTable, if_neg hpos] at hr
    obtain ⟨found, hloop, hrest⟩ := bind_eq_ok.mp hr
    have hrun := deleteLoop_run hwalk hitem hk
    rw [← hashCode_of_nonneg hkey] at hrun
    obtain rfl := Except.ok.inj (Leaves.unique ⟨d + 1, hrun⟩ (leaves_of_loop hloop))
    simp only [writeAt_fin, ok_bind, pure_eq_ok, Except.ok.injEq] at hrest
    exact ⟨visit (home SIZE key) d, item, hsearch, hlive, hk, hrest.symm⟩
  · left
    have habsent : ∀ item ∈ entries t, item.key ≠ key := fun item hitem he =>
      hmem ⟨item, hitem, he⟩
    refine ⟨searchLoop_absent hkey habsent, ?_⟩
    unfold deleteFromHashTable at hr
    split_ifs at hr with hsize
    · cases hr
      exact ⟨rfl, rfl⟩
    · obtain ⟨found, hloop, hrest⟩ := bind_eq_ok.mp hr
      cases found with
      | none =>
          cases hrest
          exact ⟨rfl, rfl⟩
      | some found =>
          obtain ⟨hitem, hread⟩ := deleteLoop_sound hloop
          obtain ⟨j, _, hcell⟩ := readAt_eq_ok.mp hread
          have hne : found.2.key ≠ -1 := by omega
          exact absurd hitem (habsent found.2 (mem_entries.mpr ⟨j, hcell, hne⟩))

/-- The table is well formed, and so are all keys that could still be evicted. -/
structure Sound (t : Table SIZE) : Prop where
  wellFormed : WellFormed t
  inodes : ∀ i, 0 ≤ t.inodeArray.get i

/-- An eviction that returns takes out an entry with the oldest key of the array. -/
theorem deleteFromHash_cases (h : Sound t) (hr : deleteFromHash fuel t = .ok out) :
    (t.hashSize = 0 ∧ out.table = t) ∨
      ∃ (a : Vector ℤ SIZE) (i : Fin SIZE) (item : DataItem),
        1 ≤ t.hashSize ∧ shiftLoop t.inodeArray (t.hashSize - 1) 0 = .ok a ∧
        readAt t.inodeArray 0 = .ok item.key ∧ 
        searchLoop t.hashArray item.key SIZE (hashCode SIZE item.key) =
          .ok (some ((i : ℕ), item)) ∧
        cells t.hashArray i = .live item ∧
        out = ⟨eraseAt { t with inodeArray := a } i,
          [.printfItem "File %d deleted: %s\n" item.key item.data], some item⟩ := by
  unfold deleteFromHash at hr
  split_ifs at hr with hsize
  · right
    obtain ⟨key, hread, hr⟩ := bind_eq_ok.mp hr
    obtain ⟨a, hshift, hr⟩ := bind_eq_ok.mp hr
    obtain ⟨deleted, hdelete, hr⟩ := bind_eq_ok.mp hr
    obtain ⟨first, _, hfirst⟩ := readAt_eq_ok.mp hread
    have hkey : 0 ≤ key := hfirst ▸ h.inodes first
    have hwell : WellFormed { t with inodeArray := a } :=
      ⟨h.wellFormed.chained, h.wellFormed.size, h.wellFormed.nonneg⟩
    rcases deleteFromHashTable_cases hwell hkey hdelete with
      ⟨_, _, hnone⟩ | ⟨i, item, hsearch, hlive, rfl, rfl⟩
    · rw [hnone] at hr
      cases hr
    · cases hr
      exact ⟨a, i, item, hsize, hshift, hread, hsearch, hlive, rfl⟩
  · left
    cases hr
    exact ⟨by omega, rfl⟩

/-- The writes that every insertion ends with. -/
def appendAt (t : Table SIZE) (hroom : t.hashSize < SIZE) (i : Fin SIZE) (item : DataItem) :
    Table SIZE :=
  storeAt { t with inodeArray := t.inodeArray.set t.hashSize item.key hroom } i item

theorem append_cases (h : WellFormed t) (hkey : 0 ≤ key) (hroom : t.hashSize < SIZE)
    (data : List UInt8) {a : Vector ℤ SIZE} {t' : Table SIZE}
    (hwrite : writeAt t.inodeArray t.hashSize key = .ok a)
    (hinsert : insertToHashTable key data { t with inodeArray := a } = .ok t') :
    ∃ d < SIZE, ¬ Live t (visit (home SIZE key) d) ∧
      (∀ j < d, Live t (visit (home SIZE key) j)) ∧
      t' = appendAt t hroom (visit (home SIZE key) d) ⟨data, key⟩ ∧ WellFormed t' := by
  rw [writeAt_fin t.inodeArray ⟨t.hashSize, hroom⟩] at hwrite
  cases hwrite
  have hwell : WellFormed { t with inodeArray := t.inodeArray.set t.hashSize key hroom } :=
    ⟨h.chained, h.size, h.nonneg⟩
  obtain ⟨d, hd, hstore, hfree, hwalk, hwell'⟩ := insertToHashTable_stores hwell hkey hroom data
  rw [hstore] at hinsert
  cases hinsert
  refine ⟨d, hd, ?_, fun j hj => held_ne_zero.mp (hwalk j hj), rfl, hwell'⟩
  intro hlive
  exact held_ne_zero.mpr hlive hfree

/-- An insertion that returns stores the item in the first cell from its home that is not
live, after an eviction if the table is full. -/
theorem insertToHash_cases (h : Sound t) (hkey : 0 ≤ key) {data : List UInt8}
    (hr : insertToHash fuel key data t = .ok out) :
    ∃ (mid : Table SIZE) (hroom : mid.hashSize < SIZE) (d : ℕ),
      (t.hashSize < SIZE ∧ mid = t ∨
        t.hashSize = SIZE ∧ ∃ evicted, deleteFromHash fuel t = .ok evicted ∧
          evicted.table = mid) ∧
      d < SIZE ∧ ¬ Live mid (visit (home SIZE key) d) ∧
      (∀ j < d, Live mid (visit (home SIZE key) j)) ∧
      out.table = appendAt mid hroom (visit (home SIZE key) d) ⟨data, key⟩ ∧
      WellFormed out.table := by
  have hle := h.wellFormed.size_le
  unfold insertToHash at hr
  split_ifs at hr with hroom
  · obtain ⟨a, hwrite, hr⟩ := bind_eq_ok.mp hr
    obtain ⟨t', hinsert, hr⟩ := bind_eq_ok.mp hr
    cases hr
    obtain ⟨d, hat⟩ := append_cases h.wellFormed hkey hroom data hwrite hinsert
    exact ⟨t, hroom, d, Or.inl ⟨hroom, rfl⟩, hat⟩
  · obtain ⟨evicted, hevict, hr⟩ := bind_eq_ok.mp hr
    obtain ⟨a, hwrite, hr⟩ := bind_eq_ok.mp hr
    obtain ⟨t', hinsert, hr⟩ := bind_eq_ok.mp hr
    cases hr
    have hfull : t.hashSize = SIZE := by omega
    have hpos : 0 < SIZE := Nat.pos_of_neZero SIZE
    rcases deleteFromHash_cases h hevict with
      ⟨hzero, _⟩ | ⟨b, j, item, _, _, _, _, hlive, rfl⟩
    · omega
    · have hwell : WellFormed { t with inodeArray := b } :=
        ⟨h.wellFormed.chained, h.wellFormed.size, h.wellFormed.nonneg⟩
      have hroom' : (eraseAt { t with inodeArray := b } j).hashSize < SIZE := by
        change t.hashSize - 1 < SIZE
        omega
      obtain ⟨d, hat⟩ := append_cases (hwell.erase hlive) hkey hroom' data hwrite hinsert
      exact ⟨_, hroom', d, Or.inr ⟨hfull, _, hevict, rfl⟩, hat⟩

end Inversion

/-! ## The invariant -/

section Invariant
variable [NeZero SIZE]

theorem sound_initial : Sound (Table.initial SIZE) := by
  constructor
  · exact wellFormed_initial
  · intro i
    simp only [Table.initial, get_replicate, le_refl]

theorem Sound.remove (h : Sound t) {fuel : ℕ} {key : ℤ} (hkey : 0 ≤ key) {out : Outcome SIZE}
    (hr : deleteFromHashTable fuel key t = .ok out) : Sound out.table := by
  rcases deleteFromHashTable_cases h.wellFormed hkey hr with
    ⟨_, htable, _⟩ | ⟨i, item, _, hlive, _, rfl⟩
  · rw [htable]
    exact h
  · constructor
    · exact h.wellFormed.erase hlive
    · exact h.inodes

theorem Sound.evict (h : Sound t) {fuel : ℕ} {out : Outcome SIZE}
    (hr : deleteFromHash fuel t = .ok out) : Sound out.table := by
  rcases deleteFromHash_cases h hr with
    ⟨_, htable⟩ | ⟨a, i, item, hsize, hshift, _, _, hlive, rfl⟩
  · rw [htable]
    exact h
  · have hle := h.wellFormed.size_le
    have hwell : WellFormed { t with inodeArray := a } :=
      ⟨h.wellFormed.chained, h.wellFormed.size, h.wellFormed.nonneg⟩
    constructor
    · exact hwell.erase hlive
    · exact shiftLoop_nonneg (by omega) hshift h.inodes

theorem Sound.insert (h : Sound t) {fuel : ℕ} {key : ℤ} (hkey : 0 ≤ key) {data : List UInt8}
    {out : Outcome SIZE} (hr : insertToHash fuel key data t = .ok out) : Sound out.table := by
  obtain ⟨mid, hroom, d, hmid, _, _, _, htable, hwell⟩ := insertToHash_cases h hkey hr
  have hsound : Sound mid := by
    rcases hmid with ⟨_, rfl⟩ | ⟨_, evicted, hevict, rfl⟩
    · exact h
    · exact h.evict hevict
  constructor
  · exact hwell
  · intro j
    have hset := get_set mid.inodeArray ⟨mid.hashSize, hroom⟩ j key
    have harray : out.table.inodeArray = mid.inodeArray.set mid.hashSize key hroom := by
      rw [htable]
      rfl
    rw [harray, hset]
    split_ifs
    · exact hkey
    · exact hsound.inodes j

/-- Every call that returns keeps the invariant. -/
theorem Sound.call (h : Sound t) {call : Request} (hcall : KeyNonneg call) {out : Outcome SIZE}
    (hr : Returns call t out) : Sound out.table := by
  obtain ⟨fuel, hr⟩ := hr
  cases call with
  | insertToHash key data => exact h.insert hcall hr
  | deleteFromHash => exact h.evict hr
  | deleteFromHashTable keyDel => exact h.remove hcall hr

theorem sound_run {history : List (Call SIZE)} (hr : Run (system SIZE) history t)
    (hc : ∀ e ∈ history, KeyNonneg e.call) : Sound t := by
  have hinit : Sound (system SIZE).init := sound_initial
  refine hr.guarded_invariant (I := fun _ t => Sound t) hinit ?_ hc
  intro history s call answer t' _ ih hs hcall
  exact ih.call hcall hs

end Invariant

/-! ## What a search returns -/

/-- The count is the number of live slots, and a search for a key, other than the
marker of erased slots, tells whether a live slot holds it. -/
structure Represents (t : Table SIZE) : Prop where
  size : t.hashSize = (Finset.univ.filter (Live t)).card
  bounded : t.hashSize ≤ SIZE
  found : ∀ key, 0 ≤ key → (∃ i, ∃ item ∈ t.hashArray.get i, item.key = key) →
    ∃ i item, searchHashTable key t = .ok (some item) ∧ item ∈ t.hashArray.get i ∧
      item.key = key
  absent : ∀ key, 0 ≤ key → (∀ i, ∀ item ∈ t.hashArray.get i, item.key ≠ key) →
    searchHashTable key t = .ok none

theorem Sound.represents [NeZero SIZE] (h : Sound t) : Represents t := by
  constructor
  · rw [← card_entries, h.wellFormed.size]
  · exact h.wellFormed.size_le
  · intro key hkey hmem
    obtain ⟨i, item, hcell, hitem⟩ := hmem
    have hne : item.key ≠ -1 := by omega
    have hentry : item ∈ entries t := mem_entries.mpr ⟨i, hcell, hne⟩
    obtain ⟨j, met, hsearch⟩ := searchLoop_found h.wellFormed hkey ⟨item, hentry, hitem⟩
    obtain ⟨hmet, hread⟩ := searchLoop_sound hsearch
    obtain ⟨k, _, hcell'⟩ := readAt_eq_ok.mp hread
    refine ⟨k, met, ?_, hcell', hmet⟩
    simp [searchHashTable, hsearch]
  · intro key hkey habsent
    have hentries : ∀ item ∈ entries t, item.key ≠ key := by
      intro item hitem
      obtain ⟨i, hcell, _⟩ := mem_entries.mp hitem
      exact habsent i item hcell
    simp [searchHashTable, searchLoop_absent hkey hentries]

/-- In every run, however insertions, evictions and removals of single keys follow
each other. -/
theorem search_iff_live [NeZero SIZE] {history : List (Call SIZE)}
    (hr : Run (system SIZE) history t) (hc : ∀ e ∈ history, KeyNonneg e.call) :
    Represents t :=
  (sound_run hr hc).represents

/-- Three colliding keys, of which the first is removed and its slot used again. -/
theorem search_iff_live_three :
    ∃ (history : List (Call 3)) (t : Table 3), Run (system 3) history t ∧
      history.length = 5 ∧ Represents t := by
  have hr : ∃ (history : List (Call 3)) (t : Table 3), Run (system 3) history t ∧
      history.length = 5 ∧ ∀ e ∈ history, KeyNonneg e.call :=
    ⟨_, _, replay_run 4
      [.insertToHash 4 [97], .insertToHash 7 [98], .insertToHash 10 [99],
        .deleteFromHashTable 4, .insertToHash 1 [100]] .init rfl, by decide, by decide⟩
  obtain ⟨history, t, hrun, hlength, hcalls⟩ := hr
  exact ⟨history, t, hrun, hlength, search_iff_live hrun hcalls⟩

end MinixOS.UndeleteLookup
