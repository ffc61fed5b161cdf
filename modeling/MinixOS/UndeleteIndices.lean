import MinixOS.UndeleteLookup
import MinixOS.UndeletePaths

/-!
# The slots that are visited

The five functions that probe the table start at the remainder of the key and go round the table
from there. The next index of a slot is a slot again. A remainder of C has the sign of the key, so
that the first index is none where the key is negative, unless `SIZE` divides it.
-/
namespace MinixOS.UndeleteIndices
open LoopExecution CheckedExecution SystemRuns UndeleteTable UndeleteProbing UndeleteSystem
open UndeleteLookup UndeletePaths

variable {SIZE : ℕ}

/-- An index of the arrays of `SIZE` elements. -/
def InRange (SIZE : ℕ) (index : ℤ) : Prop := 0 ≤ index ∧ index < SIZE

/-- `Visits a ends left start index`: from `start` on the probing comes to `index` within `left`
passes. An item that `ends` says so of ends it, and so does NULL. -/
inductive Visits (a : Vector (Option DataItem) SIZE) (ends : DataItem → Prop) : ℕ → ℤ → ℤ → Prop
  | here (left : ℕ) (start : ℤ) : Visits a ends left start start
  | next {left : ℕ} {start index : ℤ} {item : DataItem}
      (hread : readAt a start = .ok (some item)) (hends : ¬ ends item)
      (h : Visits a ends left (nextIndex SIZE start) index) :
      Visits a ends (left + 1) start index

/-- The functions with a loop that probes. -/
inductive Probe where
  | searchHashTable
  | searchOnInode
  | returnFileName
  | insertToHashTable
  | deleteFromHashTable

/-- The slots the call of the function for this key visits. Only the loop of the removal has no
bound, and it is not come to where the table counts no items. -/
def VisitedBy (key : ℤ) (t : Table SIZE) (index : ℤ) : Probe → Prop
  | .searchHashTable | .searchOnInode | .returnFileName =>
      Visits t.hashArray (fun item => item.key = key) SIZE (hashCode SIZE key) index
  | .insertToHashTable =>
      Visits t.hashArray (fun item => item.key = -1) SIZE (hashCode SIZE key) index
  | .deleteFromHashTable =>
      1 ≤ t.hashSize ∧ ∃ left,
        Visits t.hashArray (fun item => item.key = key) left (hashCode SIZE key) index

/-! ## Indices -/

section Indices
variable {a : Vector (Option DataItem) SIZE} {ends : DataItem → Prop} {left : ℕ}
  {start index key : ℤ}

theorem InRange.next (h : InRange SIZE index) : InRange SIZE (nextIndex SIZE index) := by
  rcases h with ⟨hnonneg, hlt⟩
  constructor
  · exact Int.tmod_nonneg _ (by omega)
  · exact Int.tmod_lt_of_pos _ (by omega)

/-- From a slot on only slots are visited. -/
theorem Visits.in_range (h : Visits a ends left start index) (hstart : InRange SIZE start) :
    InRange SIZE index := by
  induction h with
  | here left start => exact hstart
  | next _ _ _ ih => exact ih hstart.next

/-- The remainder of C has the sign of the key. -/
theorem hashCode_nonneg_iff (SIZE : ℕ) (key : ℤ) :
    0 ≤ hashCode SIZE key ↔ 0 ≤ key ∨ (SIZE : ℤ) ∣ key := by
  unfold hashCode
  constructor
  · intro hcode
    by_contra hneg
    rw [not_or] at hneg
    have hopposite : 0 ≤ (-key).tmod SIZE := Int.tmod_nonneg _ (by omega)
    rw [Int.neg_tmod] at hopposite
    have hzero : key.tmod SIZE = 0 := by omega
    exact hneg.2 (Int.dvd_of_tmod_eq_zero hzero)
  · rintro (hkey | hdvd)
    · exact Int.tmod_nonneg _ hkey
    · rw [Int.tmod_eq_zero_of_dvd hdvd]

theorem hashCode_in_range_iff (hsize : 0 < SIZE) (key : ℤ) :
    InRange SIZE (hashCode SIZE key) ↔ 0 ≤ key ∨ (SIZE : ℤ) ∣ key := by
  rw [← hashCode_nonneg_iff]
  have hlt : hashCode SIZE key < SIZE := Int.tmod_lt_of_pos _ (by omega)
  exact and_iff_left hlt

end Indices

/-! ## The calls are stopped at the other indices -/

section Loops
variable {a : Vector (Option DataItem) SIZE} {ends : DataItem → Prop} {left : ℕ}
  {start index key : ℤ}

theorem readAt_stops {A : Type} {a : Vector A SIZE} (h : ¬ InRange SIZE start) :
    readAt a start = .error (.outOfRange start) := by
  unfold readAt
  rw [dif_neg]
  rintro ⟨hnonneg, hlt⟩
  exact h ⟨hnonneg, by omega⟩

theorem in_range_of_read {A : Type} {a : Vector A SIZE} {x : A} (h : readAt a start = .ok x) :
    InRange SIZE start := by
  by_contra hout
  rw [readAt_stops hout] at h
  cases h

theorem readAt_reads {A : Type} (a : Vector A SIZE) (h : InRange SIZE start) :
    ∃ x, readAt a start = .ok x := by
  rcases h with ⟨hnonneg, hlt⟩
  obtain ⟨i, rfl⟩ := Int.eq_ofNat_of_zero_le hnonneg
  have hi : i < SIZE := by omega
  exact ⟨a.get ⟨i, hi⟩, readAt_fin a ⟨i, hi⟩⟩

theorem writeAt_writes {A : Type} (a : Vector A SIZE) (x : A) (h : InRange SIZE start) :
    ∃ b, writeAt a start x = .ok b := by
  rcases h with ⟨hnonneg, hlt⟩
  obtain ⟨i, rfl⟩ := Int.eq_ofNat_of_zero_le hnonneg
  have hi : i < SIZE := by omega
  exact ⟨_, writeAt_fin a ⟨i, hi⟩ x⟩

def StopsAt {A : Type} (call : Except Stop A) (index : ℤ) : Prop :=
  call = .error (.outOfRange index)

theorem not_stopsAt_ok {A : Type} (x : A) : ¬ StopsAt (.ok x) index := by
  intro h
  cases h

/-- A loop that probes, with its passes left and the index it has come to. -/
structure Probing {A : Type} (a : Vector (Option DataItem) SIZE) (ends : DataItem → Prop)
    (f : ℕ → ℤ → Except Stop A) : Prop where
  outside : ∀ left start, ¬ InRange SIZE start → StopsAt (f left start) start
  last : ∀ start index, InRange SIZE start → ¬ StopsAt (f 0 start) index
  ended : ∀ left start index, InRange SIZE start →
    (∀ item, readAt a start = .ok (some item) → ends item) → ¬ StopsAt (f left start) index
  passes : ∀ left start item, readAt a start = .ok (some item) → ¬ ends item →
    f (left + 1) start = f left (nextIndex SIZE start)

/-- From a slot on such a loop is not stopped. -/
theorem Probing.not_stopped {A : Type} {f : ℕ → ℤ → Except Stop A} (h : Probing a ends f)
    (hstart : InRange SIZE start) (left : ℕ) (index : ℤ) : ¬ StopsAt (f left start) index := by
  induction left generalizing start with
  | zero => exact h.last start index hstart
  | succ left ih =>
      by_cases hended : ∀ item, readAt a start = .ok (some item) → ends item
      · exact h.ended _ _ _ hstart hended
      · push Not at hended
        rcases hended with ⟨item, hread, hends⟩
        rw [h.passes left start item hread hends]
        exact ih hstart.next

/-- It is stopped at the indices visited that are none of a slot. -/
theorem Probing.stops_iff {A : Type} {f : ℕ → ℤ → Except Stop A} (h : Probing a ends f)
    (left : ℕ) (start index : ℤ) :
    StopsAt (f left start) index ↔ Visits a ends left start index ∧ ¬ InRange SIZE index := by
  by_cases hstart : InRange SIZE start
  · refine iff_of_false (h.not_stopped hstart left index) ?_
    rintro ⟨hvisits, hout⟩
    exact hout (hvisits.in_range hstart)
  · have hstop := h.outside left start hstart
    constructor
    · intro hindex
      unfold StopsAt at hstop hindex
      rw [hstop] at hindex
      cases hindex
      exact ⟨.here left start, hstart⟩
    · rintro ⟨hvisits, _⟩
      cases hvisits with
      | here => exact hstop
      | next hread _ _ => exact absurd (in_range_of_read hread) hstart

/-- A loop that reads a slot in each of its passes, and after the last one too. -/
theorem Probing.of_reads {A : Type} {f : ℕ → ℤ → Except Stop A}
    (hlast : ∀ start, ∃ x, f 0 start = (readAt a start >>= fun _ => .ok x))
    (hnext : ∀ left start, ∃ body, f (left + 1) start = (readAt a start >>= body) ∧
      (∀ c, (∀ item, c = some item → ends item) → ∃ x, body c = .ok x) ∧
      ∀ item, ¬ ends item → body (some item) = f left (nextIndex SIZE start)) :
    Probing a ends f := by
  have hzero : ∀ start index, InRange SIZE start → ¬ StopsAt (f 0 start) index := by
    intro start index hstart
    rcases readAt_reads a hstart with ⟨c, hread⟩
    rcases hlast start with ⟨x, hx⟩
    rw [hx, hread, ok_bind]
    exact not_stopsAt_ok x
  constructor
  · intro left start hout
    cases left with
    | zero =>
        rcases hlast start with ⟨x, hx⟩
        rw [StopsAt, hx, readAt_stops hout, error_bind]
    | succ left =>
        rcases hnext left start with ⟨body, hbody, _, _⟩
        rw [StopsAt, hbody, readAt_stops hout, error_bind]
  · exact hzero
  · intro left start index hstart hended
    cases left with
    | zero => exact hzero start index hstart
    | succ left =>
        rcases readAt_reads a hstart with ⟨c, hread⟩
        rcases hnext left start with ⟨body, hbody, hends, _⟩
        have hitem : ∀ item, c = some item → ends item := by
          rintro item rfl
          exact hended item hread
        rcases hends c hitem with ⟨x, hx⟩
        rw [hbody, hread, ok_bind, hx]
        exact not_stopsAt_ok x
  · intro left start item hread hends
    rcases hnext left start with ⟨body, hbody, _, hpasses⟩
    rw [hbody, hread, ok_bind, hpasses item hends]

theorem probing_searchLoop (a : Vector (Option DataItem) SIZE) (key : ℤ) :
    Probing a (fun item => item.key = key) (searchLoop a key) := by
  apply Probing.of_reads
  · exact fun start => ⟨none, rfl⟩
  · intro left start
    refine ⟨_, rfl, ?_, fun item hkey => if_neg hkey⟩
    intro c hended
    cases c with
    | none => exact ⟨none, rfl⟩
    | some item => exact ⟨some (start, item), if_pos (hended item rfl)⟩

theorem probing_insertLoop (a : Vector (Option DataItem) SIZE) :
    Probing a (fun item => item.key = -1) (insertLoop a) := by
  apply Probing.of_reads
  · exact fun start => ⟨start, rfl⟩
  · intro left start
    refine ⟨_, rfl, ?_, fun item hkey => if_neg hkey⟩
    intro c hended
    cases c with
    | none => exact ⟨start, rfl⟩
    | some item => exact ⟨start, if_pos (hended item rfl)⟩

/-- The removal has a pass for each of the indices it visits. -/
theorem probing_deletePass (a : Vector (Option DataItem) SIZE) (key : ℤ) :
    Probing a (fun item => item.key = key)
      fun left start => loop (deletePass a key) (left + 1) start := by
  constructor
  · intro left start hout
    have hpass : deletePass a key start = .leave (.error (.outOfRange start)) := by
      rw [deletePass, readAt_stops hout]
    rw [StopsAt, loop, run_succ_of_leave hpass]
    rfl
  · intro start index hstart hstop
    rcases readAt_reads a hstart with ⟨c, hread⟩
    unfold StopsAt loop run at hstop
    rw [deletePass, hread] at hstop
    cases c with
    | none => cases hstop
    | some item =>
        by_cases hkey : item.key = key
        · simp only [if_pos hkey] at hstop
          cases hstop
        · simp only [if_neg hkey] at hstop
          cases hstop
  · intro left start index hstart hended hstop
    rcases readAt_reads a hstart with ⟨c, hread⟩
    unfold StopsAt loop run at hstop
    rw [deletePass, hread] at hstop
    cases c with
    | none => cases hstop
    | some item =>
        simp only [if_pos (hended item hread)] at hstop
        cases hstop
  · intro left start item hread hends
    have hpass : deletePass a key start = .again (nextIndex SIZE start) := by
      simp only [deletePass, hread, if_neg hends]
    rw [loop, run_succ_of_again hpass]
    rfl

end Loops

/-! ## The five functions -/

section Functions
variable {t : Table SIZE} {key index : ℤ}

theorem stopsAt_bind {A B : Type} {x : Except Stop A} {f : A → Except Stop B}
    (hf : ∀ a, x = .ok a → ¬ StopsAt (f a) index) : StopsAt (x >>= f) index ↔ StopsAt x index := by
  cases x with
  | error stop =>
      unfold StopsAt
      rw [error_bind, Except.error.injEq, Except.error.injEq]
  | ok a => exact iff_of_false (hf a rfl) (not_stopsAt_ok a)

/-- Where the insertion stops it has read. -/
theorem insertLoop_read {a : Vector (Option DataItem) SIZE} {left : ℕ} {start : ℤ}
    (h : insertLoop a left start = .ok index) : InRange SIZE index := by
  induction left generalizing start with
  | zero =>
      rcases bind_eq_ok.mp h with ⟨c, hread, h⟩
      cases h
      exact in_range_of_read hread
  | succ left ih =>
      rcases bind_eq_ok.mp h with ⟨c, hread, h⟩
      cases c with
      | none =>
          cases h
          exact in_range_of_read hread
      | some item =>
          by_cases hkey : item.key = -1
          · simp only [if_pos hkey] at h
            cases h
            exact in_range_of_read hread
          · simp only [if_neg hkey] at h
            exact ih h

/-- The call of the function for this key is stopped at this index. -/
def Stops (key : ℤ) (t : Table SIZE) (index : ℤ) : Probe → Prop
  | .searchHashTable => StopsAt (searchHashTable key t) index
  | .searchOnInode => StopsAt (searchOnInode key t) index
  | .returnFileName => StopsAt (returnFileName key t) index
  | .insertToHashTable => ∃ data, StopsAt (insertToHashTable key data t) index
  | .deleteFromHashTable => ∃ fuel, StopsAt (deleteFromHashTable fuel key t) index

theorem returnFileName_stops :
    StopsAt (returnFileName key t) index ↔
      StopsAt (searchLoop t.hashArray key SIZE (hashCode SIZE key)) index := by
  unfold returnFileName
  apply stopsAt_bind
  intro found hfound hstop
  cases found with
  | none => cases hstop
  | some found =>
      rcases found with ⟨hashIndex, item⟩
      have hslot := in_range_of_read (searchLoop_sound hfound).2
      dsimp only at hstop
      cases hloc : strrchr slash item.data with
      | none =>
          rw [hloc] at hstop
          cases hstop
      | some pathLoc =>
          rw [hloc] at hstop
          rcases writeAt_writes t.hashArray (some { item with data := moveDown item.data pathLoc })
            hslot with ⟨b, hwrite⟩
          simp only [hwrite] at hstop
          cases hstop

theorem insertToHashTable_stops (data : List UInt8) :
    StopsAt (insertToHashTable key data t) index ↔
      StopsAt (insertLoop t.hashArray SIZE (hashCode SIZE key)) index := by
  unfold insertToHashTable
  apply stopsAt_bind
  intro hashIndex hfound hstop
  rcases writeAt_writes t.hashArray (some ⟨data, key⟩) (insertLoop_read hfound) with ⟨b, hwrite⟩
  rw [StopsAt, hwrite] at hstop
  cases hstop

theorem deleteFromHashTable_stops (hsize : 1 ≤ t.hashSize) (fuel : ℕ) :
    StopsAt (deleteFromHashTable fuel key t) index ↔
      StopsAt (loop (deletePass t.hashArray key) fuel (hashCode SIZE key)) index := by
  unfold deleteFromHashTable
  rw [if_neg (Nat.not_lt.mpr hsize)]
  apply stopsAt_bind
  intro found hfound hstop
  cases found with
  | none => cases hstop
  | some found =>
      rcases found with ⟨hashIndex, item⟩
      have hslot := in_range_of_read (deleteLoop_sound hfound).2
      rcases writeAt_writes t.hashArray (some dummyItem) hslot with ⟨b, hwrite⟩
      simp only [StopsAt, hwrite] at hstop
      cases hstop

/-- A call is stopped just at the visited indices that are none of a slot. -/
theorem stops_iff (key : ℤ) (t : Table SIZE) (index : ℤ) (probe : Probe) :
    Stops key t index probe ↔ VisitedBy key t index probe ∧ ¬ InRange SIZE index := by
  have hsearch := (probing_searchLoop t.hashArray key).stops_iff SIZE (hashCode SIZE key) index
  cases probe with
  | searchHashTable =>
      refine Iff.trans ?_ hsearch
      exact stopsAt_bind fun _ _ => not_stopsAt_ok _
  | searchOnInode =>
      refine Iff.trans ?_ hsearch
      exact stopsAt_bind fun _ _ => not_stopsAt_ok _
  | returnFileName => exact returnFileName_stops.trans hsearch
  | insertToHashTable =>
      have hinsert := (probing_insertLoop t.hashArray).stops_iff SIZE (hashCode SIZE key) index
      constructor
      · rintro ⟨data, hstop⟩
        exact hinsert.mp ((insertToHashTable_stops data).mp hstop)
      · intro h
        exact ⟨[], (insertToHashTable_stops []).mpr (hinsert.mpr h)⟩
  | deleteFromHashTable =>
      have hdelete := fun left =>
        (probing_deletePass t.hashArray key).stops_iff left (hashCode SIZE key) index
      by_cases hsize : 1 ≤ t.hashSize
      · constructor
        · rintro ⟨fuel, hstop⟩
          rw [deleteFromHashTable_stops hsize] at hstop
          cases fuel with
          | zero => cases hstop
          | succ left =>
              rcases (hdelete left).mp hstop with ⟨hvisits, hout⟩
              exact ⟨⟨hsize, left, hvisits⟩, hout⟩
        · rintro ⟨⟨_, left, hvisits⟩, hout⟩
          refine ⟨left + 1, (deleteFromHashTable_stops hsize _).mpr ?_⟩
          exact (hdelete left).mpr ⟨hvisits, hout⟩
      · refine iff_of_false ?_ fun hvisited => hsize hvisited.1.1
        rintro ⟨fuel, hstop⟩
        rw [deleteFromHashTable, if_pos (Nat.not_le.mp hsize)] at hstop
        exact not_stopsAt_ok _ hstop

end Functions

/-! ## The range of the indices -/

/-- For this key only slots are visited, and no call is stopped at another index. -/
structure ProbesInRange (key : ℤ) (t : Table SIZE) : Prop where
  visited : ∀ probe index, VisitedBy key t index probe → InRange SIZE index
  calls : ∀ probe index, ¬ Stops key t index probe

theorem visitedBy_in_range {key index : ℤ} {t : Table SIZE} (h : InRange SIZE (hashCode SIZE key))
    {probe : Probe} (hvisited : VisitedBy key t index probe) : InRange SIZE index := by
  cases probe with
  | searchHashTable => exact Visits.in_range hvisited h
  | searchOnInode => exact Visits.in_range hvisited h
  | returnFileName => exact Visits.in_range hvisited h
  | insertToHashTable => exact Visits.in_range hvisited h
  | deleteFromHashTable =>
      rcases hvisited with ⟨_, left, hvisits⟩
      exact hvisits.in_range h

/-- The indices are in range for the keys that are not negative and the multiples of `SIZE`,
whatever is in the table. -/
theorem probes_in_range_iff (hsize : 0 < SIZE) (key : ℤ) (t : Table SIZE) :
    ProbesInRange key t ↔ 0 ≤ key ∨ (SIZE : ℤ) ∣ key := by
  rw [← hashCode_in_range_iff hsize key]
  constructor
  · intro h
    exact h.visited .searchHashTable _ (.here SIZE _)
  · intro h
    constructor
    · exact fun probe index hvisited => visitedBy_in_range h hvisited
    · intro probe index hstop
      rcases (stops_iff key t index probe).mp hstop with ⟨hvisited, hout⟩
      exact hout (visitedBy_in_range h hvisited)

/-- A full table, and a key whose probes go around it. -/
theorem probes_in_range_three :
    ProbesInRange 5
      ⟨#v[some ⟨[97], 3⟩, some ⟨[98], 7⟩, some ⟨[99], 2⟩], 3, #v[3, 7, 2]⟩ :=
  (probes_in_range_iff (by decide) 5 _).mpr (.inl (by decide))

/-- The inode number -1, which `undelete` may read from the user. -/
theorem probes_in_range_fails :
    ¬ ∀ (SIZE : ℕ) (key : ℤ) (t : Table SIZE), 0 < SIZE → Reachable (system SIZE) t →
      ProbesInRange key t := by
  intro h
  have hinitial : Reachable (system 3) (Table.initial 3) := ⟨[], .init⟩
  have hvisited := (h 3 (-1) (Table.initial 3) (by decide) hinitial).visited .returnFileName
    (hashCode 3 (-1)) (.here 3 _)
  exact absurd hvisited.1 (by decide)

end MinixOS.UndeleteIndices
