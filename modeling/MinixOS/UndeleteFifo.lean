import MinixOS.UndeleteProbing
import MinixOS.UndeleteSystem

/-!
# The undelete table as a bounded queue

Insertions and evictions, in any order, leave the table as a bounded queue of keys:
the array `inodeArray` lists the keys from the oldest on, and the table holds the same
keys as often. The removal of a single key is kept out of the runs here.
-/
namespace MinixOS.UndeleteFifo
open LoopExecution CheckedExecution SystemRuns LinearProbing UndeleteTable UndeleteProbing
open UndeleteSystem

/-! ## The queue -/

/-- In a full queue the oldest element makes room. -/
def enqueue {A : Type*} (capacity : ℕ) (a : A) (q : List A) : List A :=
  if q.length < capacity then q ++ [a] else q.tail ++ [a]

/-- The keys in the order of their insertion, after one more call. -/
def advance (SIZE : ℕ) (q : List ℤ) : Request → List ℤ
  | .insertToHash key _ => enqueue SIZE key q
  | .deleteFromHash => q.tail
  | .deleteFromHashTable keyDel => q.erase keyDel

/-- The keys inserted and not yet taken out, the oldest first. -/
def sequence {SIZE : ℕ} : List (Call SIZE) → List ℤ
  | [] => []
  | e :: history => advance SIZE (sequence history) e.call

/-- The calls of a run that only inserts inodes and evicts the oldest. -/
def FifoCall : Request → Prop
  | .insertToHash key _ => 0 ≤ key
  | .deleteFromHash => True
  | .deleteFromHashTable _ => False

instance : DecidablePred FifoCall
  | .insertToHash key _ => inferInstanceAs (Decidable (0 ≤ key))
  | .deleteFromHash => instDecidableTrue
  | .deleteFromHashTable _ => instDecidableFalse

variable {SIZE : ℕ}

/-- `inodeArray[0..hashSize)`. -/
def inodes (t : Table SIZE) : List ℤ := t.inodeArray.toList.take t.hashSize

/-! ## The array -/

/-- The loop moves a stretch of the array one place to the front. -/
theorem shiftLoop_spec (a : Vector ℤ SIZE) (left i : ℕ) (h : i + left < SIZE) :
    ∃ b, shiftLoop a left i = .ok b ∧ ∀ j, b.toList[j]? =
      if i ≤ j ∧ j < i + left then a.toList[j + 1]? else a.toList[j]? := by
  induction left generalizing a i with
  | zero =>
      refine ⟨a, rfl, fun j => ?_⟩
      have hnot : ¬ (i ≤ j ∧ j < i + 0) := by omega
      rw [if_neg hnot]
  | succ left ih =>
      have hi : i < SIZE := by omega
      have hi' : i + 1 < SIZE := by omega
      have hmoved : ∀ j, (a.set i (a.get ⟨i + 1, hi'⟩)).toList[j]? =
          if i = j then a.toList[i + 1]? else a.toList[j]? := by
        intro j
        have hinode : a.toList[i + 1]? = some (a.get ⟨i + 1, hi'⟩) :=
          getElem?_toList a ⟨i + 1, hi'⟩
        simp only [Vector.toList_set, List.getElem?_set, Vector.length_toList, if_pos hi, hinode]
      obtain ⟨b, hb, hget⟩ := ih (a.set i (a.get ⟨i + 1, hi'⟩)) (i + 1) (by omega)
      refine ⟨b, ?_, fun j => ?_⟩
      · have hread : readAt a (i + 1 : ℕ) = .ok (a.get ⟨i + 1, hi'⟩) := readAt_fin a ⟨i + 1, hi'⟩
        have hwrite := writeAt_fin a ⟨i, hi⟩ (a.get ⟨i + 1, hi'⟩)
        simp only [shiftLoop, hread, ok_bind, hwrite, hb]
      · rw [hget j, hmoved, hmoved]
        grind

/-- The first element leaves the stretch the loop moves over. -/
theorem shiftLoop_take (a : Vector ℤ SIZE) {m : ℕ} (h : m + 1 ≤ SIZE) :
    ∃ b, shiftLoop a m 0 = .ok b ∧ b.toList.take m = (a.toList.take (m + 1)).tail := by
  obtain ⟨b, hb, hget⟩ := shiftLoop_spec a m 0 (by omega)
  refine ⟨b, hb, List.ext_getElem? fun j => ?_⟩
  rw [List.getElem?_take, List.getElem?_tail, List.getElem?_take, hget j]
  grind

/-- A key written behind the others. -/
theorem inodes_set {t : Table SIZE} (hroom : t.hashSize < SIZE) (key : ℤ) :
    (t.inodeArray.set t.hashSize key hroom).toList.take (t.hashSize + 1) =
      inodes t ++ [key] := by
  rw [Vector.toList_set, List.take_add_one, List.take_set_of_le (Nat.le_refl _)]
  simp [inodes, hroom]

/-! ## The table follows the queue -/

/-- The array lists the queue, and the table holds the keys of the queue. -/
structure InStep [NeZero SIZE] (q : List ℤ) (t : Table SIZE) : Prop where
  wellFormed : WellFormed t
  inodes : inodes t = q
  live : (entries t).map DataItem.key = q

variable [NeZero SIZE] {q : List ℤ} {t : Table SIZE}

theorem InStep.length (h : InStep q t) : q.length = t.hashSize := by
  have hcard := congrArg Multiset.card h.live
  rw [Multiset.card_map, h.wellFormed.size, Multiset.coe_card] at hcard
  exact hcard.symm

theorem InStep.mem_iff (h : InStep q t) {key : ℤ} :
    key ∈ q ↔ ∃ item ∈ entries t, item.key = key := by
  rw [← Multiset.mem_coe, ← h.live, Multiset.mem_map]

theorem InStep.nonneg (h : InStep q t) {key : ℤ} (hkey : key ∈ q) : 0 ≤ key := by
  obtain ⟨item, hitem, rfl⟩ := h.mem_iff.mp hkey
  exact h.wellFormed.nonneg item hitem

theorem inStep_initial : InStep [] (Table.initial SIZE) := by
  refine ⟨wellFormed_initial, ?_, ?_⟩
  · exact List.take_zero
  · rw [entries_initial]
    rfl

/-- The two writes that every insertion ends with. -/
theorem InStep.append (h : InStep q t) {key : ℤ} (hkey : 0 ≤ key) (hroom : t.hashSize < SIZE)
    (data : List UInt8) :
    ∃ inodeArray t', writeAt t.inodeArray t.hashSize key = .ok inodeArray ∧
      insertToHashTable key data { t with inodeArray := inodeArray } = .ok t' ∧
      InStep (q ++ [key]) t' := by
  have hwrite := writeAt_fin t.inodeArray ⟨t.hashSize, hroom⟩ key
  have hwell : WellFormed { t with inodeArray := t.inodeArray.set t.hashSize key } :=
    ⟨h.wellFormed.chained, h.wellFormed.size, h.wellFormed.nonneg⟩
  obtain ⟨t', hinsert, hwell', hentries, hinodes⟩ := insertToHashTable_spec hwell hkey hroom data
  refine ⟨_, t', hwrite, hinsert, hwell', ?_, ?_⟩
  · have hsize : t'.hashSize = t.hashSize + 1 := by
      rw [← hwell'.size, hentries, Multiset.card_cons]
      exact congrArg (· + 1) h.wellFormed.size
    rw [UndeleteFifo.inodes, hsize, hinodes, ← h.inodes]
    exact inodes_set hroom key
  · rw [hentries, Multiset.map_cons]
    have hlive : (entries { t with inodeArray := t.inodeArray.set t.hashSize key }).map
        DataItem.key = q := h.live
    rw [hlive, Multiset.cons_coe, Multiset.coe_eq_coe]
    exact (List.perm_append_singleton key q).symm

/-- The oldest key leaves the array, and an item with that key leaves the table. -/
theorem InStep.evict {oldest : ℤ} {rest : List ℤ} (h : InStep (oldest :: rest) t) :
    ∃ item ∈ entries t, ∃ t', deleteFromHash SIZE t =
        .ok ⟨t', [.printfItem "File %d deleted: %s\n" item.key item.data], some item⟩ ∧
      item.key = oldest ∧ InStep rest t' := by
  have hlength : rest.length + 1 = t.hashSize := h.length
  have hle := h.wellFormed.size_le
  have hread : readAt t.inodeArray 0 = .ok oldest := by
    have hhead : (t.inodeArray.toList.take t.hashSize)[0]? = some oldest :=
      congrArg (·[0]?) h.inodes
    rw [List.getElem?_take, if_pos (by omega)] at hhead
    exact (readAt_eq_ok_iff (i := 0)).mpr hhead
  obtain ⟨b, hshift, htake⟩ := shiftLoop_take t.inodeArray (m := rest.length) (by omega)
  have hwell : WellFormed { t with inodeArray := b } :=
    ⟨h.wellFormed.chained, h.wellFormed.size, h.wellFormed.nonneg⟩
  have holdest : oldest ∈ oldest :: rest := List.mem_cons_self
  obtain ⟨t', item, hdelete, hkey, hwell', hentries, hinodes⟩ :=
    deleteFromHashTable_found hwell (h.nonneg holdest) (h.mem_iff.mp holdest)
  have hentry : item ∈ entries t := by
    have hmem : item ∈ item ::ₘ entries t' := Multiset.mem_cons_self item _
    rwa [hentries] at hmem
  refine ⟨item, hentry, t', ?_, hkey, hwell', ?_, ?_⟩
  · have hpos : 1 ≤ t.hashSize := by omega
    have hpasses : t.hashSize - 1 = rest.length := by omega
    simp only [deleteFromHash, if_pos hpos, hread, ok_bind, hpasses, hshift, hdelete]
    rfl
  · have hsize : t'.hashSize = rest.length := by
      have hcard := congrArg Multiset.card hentries
      rw [Multiset.card_cons, hwell'.size, hwell.size] at hcard
      exact Nat.succ_injective (hcard.trans hlength.symm)
    have htail : (t.inodeArray.toList.take t.hashSize).tail = rest := congrArg List.tail h.inodes
    rw [UndeleteFifo.inodes, hsize, hinodes]
    rw [← hlength] at htail
    exact htake.trans htail
  · have hkeys := congrArg (Multiset.map DataItem.key) hentries
    have hlive : (entries { t with inodeArray := b }).map DataItem.key =
        ((oldest :: rest : List ℤ) : Multiset ℤ) := h.live
    rw [Multiset.map_cons, hkey, hlive, ← Multiset.cons_coe] at hkeys
    exact (Multiset.cons_inj_right oldest).mp hkeys

/-- An insertion into a full table, which evicts first. -/
theorem InStep.insert_full {oldest : ℤ} {rest : List ℤ} (h : InStep (oldest :: rest) t)
    (hfull : t.hashSize = SIZE) {key : ℤ} (hkey : 0 ≤ key) (data : List UInt8) :
    ∃ item ∈ entries t, ∃ fuel out, insertToHash fuel key data t = .ok out ∧
      InStep (rest ++ [key]) out.table ∧ item.key = oldest ∧
      out.log = [.printfItem "File %d deleted: %s\n" item.key item.data] := by
  have hlength : rest.length + 1 = t.hashSize := h.length
  obtain ⟨item, hentry, evicted, hdelete, hitem, hevicted⟩ := h.evict
  have hroom : evicted.hashSize < SIZE := by
    rw [← hevicted.length]
    omega
  obtain ⟨inodeArray, t', hwrite, hinsert, hstep⟩ := hevicted.append hkey hroom data
  have hnot : ¬ t.hashSize < SIZE := by omega
  refine ⟨item, hentry, SIZE,
    ⟨t', [.printfItem "File %d deleted: %s\n" item.key item.data], none⟩, ?_, hstep, hitem, rfl⟩
  simp only [insertToHash, if_neg hnot, hdelete, ok_bind, hwrite, hinsert]
  rfl

theorem InStep.insert (h : InStep q t) {key : ℤ} (hkey : 0 ≤ key) (data : List UInt8) :
    ∃ fuel out, insertToHash fuel key data t = .ok out ∧
      InStep (enqueue SIZE key q) out.table := by
  have hle := h.wellFormed.size_le
  by_cases hroom : t.hashSize < SIZE
  · obtain ⟨inodeArray, t', hwrite, hinsert, hstep⟩ := h.append hkey hroom data
    have hq : enqueue SIZE key q = q ++ [key] := if_pos (h.length ▸ hroom)
    refine ⟨0, ⟨t', [], none⟩, ?_, hq ▸ hstep⟩
    simp only [insertToHash, if_pos hroom, hwrite, ok_bind, hinsert]
    rfl
  · have hq : enqueue SIZE key q = q.tail ++ [key] := if_neg (h.length ▸ hroom)
    have hpos : 0 < SIZE := Nat.pos_of_neZero SIZE
    have hlength := h.length
    cases q with
    | nil =>
        rw [List.length_nil] at hlength
        omega
    | cons oldest rest =>
        rw [hq]
        obtain ⟨_, _, fuel, out, hout, hstep, _⟩ := h.insert_full (by omega) hkey data
        exact ⟨fuel, out, hout, hstep⟩

/-- What one call does: it returns, and the table follows the queue. -/
theorem InStep.call (h : InStep q t) {call : Request} (hc : FifoCall call) :
    ∃ out, Returns call t out ∧ InStep (advance SIZE q call) out.table := by
  cases call with
  | insertToHash key data =>
      obtain ⟨fuel, out, hout, hstep⟩ := h.insert hc data
      exact ⟨out, ⟨fuel, hout⟩, hstep⟩
  | deleteFromHash =>
      cases q with
      | nil =>
          have hsize : t.hashSize = 0 := h.length.symm
          have hnot : ¬ 1 ≤ t.hashSize := by omega
          refine ⟨⟨t, [.printf "hashtable is empty"], none⟩, ⟨0, ?_⟩, h⟩
          simp only [execute, deleteFromHash, if_neg hnot]
          rfl
      | cons oldest rest =>
          obtain ⟨item, _, t', hout, _, hstep⟩ := h.evict
          exact ⟨_, ⟨SIZE, hout⟩, hstep⟩
  | deleteFromHashTable _ => exact hc.elim

theorem inStep_run {history : List (Call SIZE)} (hr : Run (system SIZE) history t)
    (hc : ∀ e ∈ history, FifoCall e.call) : InStep (sequence history) t := by
  have hinit : InStep [] (system SIZE).init := inStep_initial
  refine hr.guarded_invariant (I := fun history t => InStep (sequence history) t) hinit ?_ hc
  intro history s call answer t' _ ih hs hcall
  obtain ⟨out, hout, hstep⟩ := ih.call hcall
  obtain rfl := hout.unique hs
  exact hstep

/-- Every search, for whichever key, goes through the cells from its home on. -/
theorem InStep.searchLoop_iff (h : InStep q t) {key : ℤ} (hkey : key ≠ -1) :
    (∃ found, searchLoop t.hashArray key SIZE (hashCode SIZE key) = .ok (some found)) ↔
      key ∈ q := by
  constructor
  · rintro ⟨⟨i, item⟩, hfound⟩
    obtain ⟨hitem, hread⟩ := searchLoop_sound hfound
    obtain ⟨j, _, hcell⟩ := readAt_eq_ok.mp hread
    have hentry : item ∈ entries t := mem_entries.mpr ⟨j, hcell, hitem ▸ hkey⟩
    exact h.mem_iff.mpr ⟨item, hentry, hitem⟩
  · intro hmem
    obtain ⟨i, item, hfound⟩ :=
      searchLoop_found h.wellFormed (h.nonneg hmem) (h.mem_iff.mp hmem)
    exact ⟨_, hfound⟩

theorem InStep.searchHashTable_iff (h : InStep q t) {key : ℤ} (hkey : key ≠ -1) :
    (∃ item, searchHashTable key t = .ok (some item)) ↔ key ∈ q := by
  rw [← h.searchLoop_iff hkey]
  constructor
  · rintro ⟨item, hitem⟩
    obtain ⟨found, hfound, hmap⟩ := bind_eq_ok.mp hitem
    cases found with
    | none => cases hmap
    | some found => exact ⟨found, hfound⟩
  · rintro ⟨found, hfound⟩
    exact ⟨found.2, by simp [searchHashTable, hfound]⟩

theorem InStep.searchOnInode_iff (h : InStep q t) {key : ℤ} (hkey : key ≠ -1) :
    searchOnInode key t = .ok true ↔ key ∈ q := by
  rw [← h.searchLoop_iff hkey]
  constructor
  · intro htrue
    obtain ⟨found, hfound, hsome⟩ := bind_eq_ok.mp htrue
    cases found with
    | none => cases hsome
    | some found => exact ⟨found, hfound⟩
  · rintro ⟨found, hfound⟩
    simp [searchOnInode, hfound]

theorem InStep.search_absent (h : InStep q t) {key : ℤ} (hkey : 0 ≤ key) (hmem : key ∉ q) :
    searchHashTable key t = .ok none ∧ searchOnInode key t = .ok false := by
  have habsent : ∀ item ∈ entries t, item.key ≠ key := fun item hitem he =>
    hmem (h.mem_iff.mpr ⟨item, hitem, he⟩)
  have hnone := searchLoop_absent hkey habsent
  simp [searchHashTable, searchOnInode, hnone]

/-! ## The refinement -/

/-- The table stands for the queue, and the functions serve it as one. The key -1 marks
erased cells, so a search for it is not a search for an inode. -/
structure Refines (q : List ℤ) (t : Table SIZE) : Prop where
  order : inodes t = q
  bounded : t.hashSize ≤ SIZE
  live : (entries t).map DataItem.key = q
  insertion : ∀ key data, 0 ≤ key → ∃ out, Returns (.insertToHash key data) t out ∧
    inodes out.table = enqueue SIZE key q ∧
    (entries out.table).map DataItem.key = enqueue SIZE key q
  eviction : ∀ key data, 0 ≤ key → t.hashSize = SIZE → ∃ oldest rest out,
    q = oldest :: rest ∧ Returns (.insertToHash key data) t out ∧
    inodes out.table = rest ++ [key] ∧
    (entries out.table).map DataItem.key = (rest ++ [key] : List ℤ)
  deletion : t.hashSize ≠ 0 → ∃ item out, Returns .deleteFromHash t out ∧
    out.ret = some item ∧ q.head? = some item.key
  found : ∀ key ≠ -1, ((∃ item, searchHashTable key t = .ok (some item)) ↔ key ∈ q) ∧
    (searchOnInode key t = .ok true ↔ key ∈ q)
  absent : ∀ key, 0 ≤ key → key ∉ q →
    searchHashTable key t = .ok none ∧ searchOnInode key t = .ok false

/-- In every run of insertions and evictions from the empty table. -/
theorem refines_fifo {history : List (Call SIZE)} (hr : Run (system SIZE) history t)
    (hc : ∀ e ∈ history, FifoCall e.call) : Refines (sequence history) t := by
  have h := inStep_run hr hc
  refine
    { order := h.inodes
      bounded := h.wellFormed.size_le
      live := h.live
      insertion := fun key data hkey => ?_
      eviction := fun key data hkey hfull => ?_
      deletion := fun hsize => ?_
      found := fun key hkey => ⟨h.searchHashTable_iff hkey, h.searchOnInode_iff hkey⟩
      absent := fun key hkey hmem => h.search_absent hkey hmem }
  · obtain ⟨fuel, out, hout, hstep⟩ := h.insert hkey data
    exact ⟨out, ⟨fuel, hout⟩, hstep.inodes, hstep.live⟩
  · have hlength := h.length
    have hpos : 0 < SIZE := Nat.pos_of_neZero SIZE
    obtain ⟨oldest, rest, hq⟩ := List.exists_cons_of_length_pos (l := sequence history) (by omega)
    rw [hq] at h
    obtain ⟨_, _, fuel, out, hout, hstep, _⟩ := h.insert_full hfull hkey data
    exact ⟨oldest, rest, out, hq, ⟨fuel, hout⟩, hstep.inodes, hstep.live⟩
  · have hlength := h.length
    obtain ⟨oldest, rest, hq⟩ := List.exists_cons_of_length_pos (l := sequence history) (by omega)
    rw [hq] at h
    obtain ⟨item, _, t', hout, hkey, _⟩ := h.evict
    refine ⟨item, _, ⟨SIZE, hout⟩, rfl, ?_⟩
    rw [hq, List.head?_cons, hkey]

/-- Four insertions into a table for three, with one key twice. The first is evicted. -/
theorem refines_fifo_three :
    ∃ (history : List (Call 3)) (t : Table 3), Run (system 3) history t ∧
      Refines [7, 7, 9] t := by
  have hr : ∃ (history : List (Call 3)) (t : Table 3), Run (system 3) history t ∧
      sequence history = [7, 7, 9] ∧ ∀ e ∈ history, FifoCall e.call :=
    ⟨_, _, replay_run 4
      [.insertToHash 4 [47, 97], .insertToHash 7 [47, 98], .insertToHash 7 [47, 98],
        .insertToHash 9 [47, 99]] .init rfl, by decide, by decide⟩
  obtain ⟨history, t, hrun, hseq, hcalls⟩ := hr
  have h := refines_fifo hrun hcalls
  rw [hseq] at h
  exact ⟨history, t, hrun, h⟩

end MinixOS.UndeleteFifo
