import MinixOS.UndeleteLookup
import MinixOS.UndeletePaths
import Mathlib.Algebra.BigOperators.Fin

/-!
# Looking up paths

The two scans go over the first `hashSize` slots, wherever the entries are. A slot that
was never used stops the call, and an entry further back is not seen. The first scan
takes a path that differs in the case of its letters for the path asked for, and the
second one takes every path that begins with the directory for one that lies under it.

The results say on which tables the answers are right, by what stands in the slots. They hold for
whatever strings are read in the slots as paths: the copy of a path has its terminator behind its
allocation, so that a string that is read need not be the one that was passed.
-/
namespace MinixOS.UndeleteScans
open LoopExecution CheckedExecution SystemRuns LinearProbing UndeleteTable UndeleteProbing
open UndeleteSystem UndeleteLookup UndeletePaths

variable {SIZE : ℕ}

/-- The slots the scans go over. -/
def scanned (t : Table SIZE) : List (Option DataItem) := t.hashArray.toList.take t.hashSize

theorem stretch_succ (a : Vector (Option DataItem) SIZE) {left i : ℕ} (h : i < SIZE) :
    (a.toList.drop i).take (left + 1) =
      a.get ⟨i, h⟩ :: (a.toList.drop (i + 1)).take left := by
  have hlen : i < a.toList.length := by rwa [Vector.length_toList]
  rw [List.drop_eq_getElem_cons hlen, List.take_succ_cons]
  congr 1

/-! ## What stands in the slots -/

/-- The erased slots hold the item of `deleteFromHashTable`. -/
def Blank (t : Table SIZE) : Prop :=
  ∀ i, ∀ item, t.hashArray.get i = some item → item.key = -1 → item = dummyItem

theorem Blank.store {t : Table SIZE} (h : Blank t) (i : Fin SIZE) {item : DataItem}
    (hkey : item.key ≠ -1) : Blank (storeAt t i item) := by
  intro j other hother herased
  change (t.hashArray.set i (some item) i.isLt).get j = some other at hother
  rw [get_set] at hother
  split_ifs at hother
  · cases hother
    exact absurd herased hkey
  · exact h j other hother herased

theorem Blank.erase {t : Table SIZE} (h : Blank t) (i : Fin SIZE) : Blank (eraseAt t i) := by
  intro j other hother herased
  change (t.hashArray.set i (some dummyItem) i.isLt).get j = some other at hother
  rw [get_set] at hother
  split_ifs at hother
  · exact (Option.some.inj hother).symm
  · exact h j other hother herased

theorem Blank.evict [NeZero SIZE] {t : Table SIZE} (h : Blank t) (hs : Sound t) {fuel : ℕ}
    {out : Outcome SIZE} (hr : deleteFromHash fuel t = .ok out) : Blank out.table := by
  rcases deleteFromHash_cases hs hr with ⟨_, htable⟩ | ⟨a, i, _, _, _, _, _, _, rfl⟩
  · rw [htable]
    exact h
  · have hshifted : Blank { t with inodeArray := a } := h
    exact hshifted.erase i

theorem Blank.call [NeZero SIZE] {t : Table SIZE} (h : Blank t) (hs : Sound t) {call : Request}
    (hcall : KeyNonneg call) {out : Outcome SIZE} (hr : Returns call t out) : Blank out.table := by
  obtain ⟨fuel, hr⟩ := hr
  cases call with
  | insertToHash key data =>
      obtain ⟨mid, hroom, d, hmid, _, _, _, htable, _⟩ := insertToHash_cases hs hcall hr
      have hblank : Blank mid := by
        rcases hmid with ⟨_, rfl⟩ | ⟨_, evicted, hevict, rfl⟩
        · exact h
        · exact h.evict hs hevict
      have hkey : key ≠ -1 := by
        have hnonneg : 0 ≤ key := hcall
        omega
      have hlisted : Blank { mid with
          inodeArray := mid.inodeArray.set mid.hashSize key hroom } := hblank
      rw [htable]
      exact hlisted.store _ hkey
  | deleteFromHash => exact h.evict hs hr
  | deleteFromHashTable keyDel =>
      rcases deleteFromHashTable_cases hs.wellFormed hcall hr with
        ⟨_, htable, _⟩ | ⟨i, _, _, _, _, rfl⟩
      · rw [htable]
        exact h
      · exact h.erase i

theorem blank_run [NeZero SIZE] {history : List (Call SIZE)} {t : Table SIZE}
    (hr : Run (system SIZE) history t) (hc : ∀ e ∈ history, KeyNonneg e.call) : Blank t := by
  have hinit : Sound (Table.initial SIZE) ∧ Blank (Table.initial SIZE) := by
    refine ⟨sound_initial, fun i item hitem => ?_⟩
    unfold Table.initial at hitem
    rw [get_replicate] at hitem
    cases hitem
  have hinv : Sound t ∧ Blank t := by
    refine hr.guarded_invariant (I := fun _ t => Sound t ∧ Blank t) hinit ?_ hc
    intro history s call answer t' _ ih hs hcall
    exact ⟨ih.1.call hcall hs, ih.2.call ih.1 hcall hs⟩
  exact hinv.2

/-- The table as it is read: the live slots with any strings for their paths. -/
structure Reread (t t' : Table SIZE) : Prop where
  size : t'.hashSize = t.hashSize
  keys : ∀ i, (t'.hashArray.get i).map DataItem.key = (t.hashArray.get i).map DataItem.key
  erased : ∀ i, t.hashArray.get i = some dummyItem → t'.hashArray.get i = some dummyItem

theorem Reread.refl (t : Table SIZE) : Reread t t := ⟨rfl, fun _ => rfl, fun _ => id⟩

theorem Reread.blank {t t' : Table SIZE} (h : Reread t t') (hb : Blank t) : Blank t' := by
  intro i item hitem hkey
  have hkeys := h.keys i
  rw [hitem] at hkeys
  obtain ⟨other, hother, hsame⟩ := Option.map_eq_some_iff.mp hkeys.symm
  have hdummy := hb i other hother (hsame.trans hkey)
  rw [hdummy] at hother
  exact Option.some.inj (hitem.symm.trans (h.erased i hother))

/-! ## One path -/

/-- The scan for a path does not go on from the slot. -/
def EndsAt (data : List UInt8) (c : Option DataItem) : Prop :=
  ∀ item ∈ c, strcasecmp item.data data = 0

instance (data : List UInt8) : DecidablePred (EndsAt data) :=
  fun c => inferInstanceAs (Decidable (∀ item ∈ c, _))

/-- What the scan answers where it ends, and behind the last slot. -/
def answerAt : Option (Option DataItem) → Except Stop KeyFound
  | none => .ok ⟨-1, []⟩
  | some none => .error .nullPointer
  | some (some item) => .ok ⟨item.key, [entryFound item]⟩

theorem searchOnDataLoop_eq (a : Vector (Option DataItem) SIZE) (data : List UInt8)
    (left i : ℕ) (h : i + left ≤ SIZE) :
    searchOnDataLoop a data left i =
      answerAt (((a.toList.drop i).take left).find? fun c => EndsAt data c) := by
  induction left generalizing i with
  | zero => rfl
  | succ left ih =>
      have hi : i < SIZE := by omega
      have hread := readAt_fin a ⟨i, hi⟩
      rw [stretch_succ a hi]
      unfold searchOnDataLoop
      rw [hread, ok_bind]
      cases hc : a.get ⟨i, hi⟩ with
      | none =>
          rw [List.find?_cons_of_pos (by simp [EndsAt])]
          rfl
      | some item =>
          by_cases hm : strcasecmp item.data data = 0
          · rw [List.find?_cons_of_pos (by simp [EndsAt, hm])]
            simp only [if_pos hm]
            rfl
          · rw [List.find?_cons_of_neg (by simp [EndsAt, hm])]
            simp only [if_neg hm]
            exact ih (i + 1) (by omega)

/-- The slot at which the scan for a path ends. -/
def firstMet (data : List UInt8) (t : Table SIZE) : Option (Option DataItem) :=
  (scanned t).find? fun c => EndsAt data c

theorem searchOnData_eq {t : Table SIZE} (h : t.hashSize ≤ SIZE) (data : List UInt8) :
    searchOnData data t = answerAt (firstMet data t) := by
  have hloop := searchOnDataLoop_eq t.hashArray data t.hashSize 0 (by omega)
  rwa [List.drop_zero] at hloop

/-- The key of an entry with this path, and -1 if there is none. -/
def Names (t : Table SIZE) (data : List UInt8) (key : ℤ) : Prop :=
  (∃ item ∈ entries t, item.data = data ∧ item.key = key) ∨
    key = -1 ∧ ∀ item ∈ entries t, item.data ≠ data

/-- The lookup of the path returns what it names. -/
def FindsPath (t : Table SIZE) (data : List UInt8) : Prop :=
  ∃ found, searchOnData data t = .ok found ∧ Names t data found.ret

/-- The path of the item is this one, up to the case of letters. -/
def Alike (data : List UInt8) (item : DataItem) : Prop :=
  item.data.map tolower = data.map tolower

/-- A slot below `hashSize` holds a path like this one, up to it no slot is NULL, and the paths like
this one are those of items that share their key with an entry of this path. -/
def Reaches (t : Table SIZE) (data : List UInt8) : Prop :=
  ∃ i : Fin SIZE, (i : ℕ) < t.hashSize ∧
    (∃ item, t.hashArray.get i = some item ∧ Alike data item) ∧
    ∀ j ≤ i, ∃ item, t.hashArray.get j = some item ∧
      (Alike data item → ∃ other ∈ entries t, other.data = data ∧ other.key = item.key)

/-- The slots below `hashSize` hold other paths, and none of them is NULL. If the path is empty they
need to be so only in front of an erased one. -/
def PassesOver (t : Table SIZE) (data : List UInt8) : Prop :=
  (∀ i : Fin SIZE, (i : ℕ) < t.hashSize →
      ∃ item, t.hashArray.get i = some item ∧ ¬ Alike data item) ∨
    data = [] ∧ ∃ i : Fin SIZE, (i : ℕ) < t.hashSize ∧ t.hashArray.get i = some dummyItem ∧
      ∀ j < i, t.hashArray.get j ≠ none

/-- The slots are as the scan needs them. -/
def MeetsPath (t : Table SIZE) (data : List UInt8) : Prop :=
  (∃ item ∈ entries t, item.data = data) ∧ Reaches t data ∨
    (∀ item ∈ entries t, item.data ≠ data) ∧ PassesOver t data

theorem endsAt_some {data : List UInt8} {item : DataItem} :
    EndsAt data (some item) ↔ Alike data item := by
  unfold EndsAt Alike
  rw [← strcasecmp_eq_zero]
  simp

theorem not_endsAt {data : List UInt8} {c : Option DataItem} :
    ¬ EndsAt data c ↔ ∃ item, c = some item ∧ ¬ Alike data item := by
  cases c with
  | none => simp [EndsAt]
  | some item =>
      rw [endsAt_some]
      simp

theorem scanned_get {t : Table SIZE} {i : ℕ} (hi : i < SIZE) (hlt : i < t.hashSize) :
    (scanned t)[i]? = some (t.hashArray.get ⟨i, hi⟩) := by
  unfold scanned
  rw [List.getElem?_take_of_lt hlt, List.getElem?_eq_getElem (by rwa [Vector.length_toList])]
  rfl

/-- The scan ends at the first slot that is NULL or holds a path like the one looked for. -/
theorem firstMet_some {t : Table SIZE} {data : List UInt8} {c : Option DataItem}
    (h : firstMet data t = some c) :
    ∃ i : Fin SIZE, (i : ℕ) < t.hashSize ∧ t.hashArray.get i = c ∧ EndsAt data c ∧
      ∀ j < i, ¬ EndsAt data (t.hashArray.get j) := by
  obtain ⟨hends, i, hi, hget, hbefore⟩ := List.find?_eq_some_iff_getElem.mp h
  have hlength : i < t.hashSize ∧ i < SIZE := by
    unfold scanned at hi
    rw [List.length_take, Vector.length_toList] at hi
    omega
  have hslot (j : ℕ) (hj : j < SIZE) (hjs : j < (scanned t).length) (hlt : j < t.hashSize) :
      (scanned t)[j] = t.hashArray.get ⟨j, hj⟩ := by
    have hsome := scanned_get hj hlt
    rw [List.getElem?_eq_getElem hjs] at hsome
    exact Option.some.inj hsome
  refine ⟨⟨i, hlength.2⟩, hlength.1, (hslot i hlength.2 hi hlength.1).symm.trans hget,
    of_decide_eq_true hends, fun j hj hmeets => ?_⟩
  have hnot := hbefore j hj
  rw [hslot j j.isLt (Nat.lt_trans hj hi) (Nat.lt_trans hj hlength.1)] at hnot
  simp [hmeets] at hnot

theorem firstMet_none {t : Table SIZE} {data : List UInt8} (h : firstMet data t = none)
    {i : Fin SIZE} (hi : (i : ℕ) < t.hashSize) : ¬ EndsAt data (t.hashArray.get i) := by
  have hmem : t.hashArray.get i ∈ scanned t := List.mem_of_getElem? (scanned_get i.isLt hi)
  intro hends
  exact List.find?_eq_none.mp h _ hmem (decide_eq_true hends)

theorem names_iff {t : Table SIZE} {data : List UInt8} {key : ℤ} :
    Names t data key ↔
      (key = -1 → ∀ item ∈ entries t, item.data ≠ data) ∧
      (key ≠ -1 → ∃ item ∈ entries t, item.data = data ∧ item.key = key) := by
  unfold Names
  by_cases hk : key = -1
  · have hnone : ¬ ∃ item ∈ entries t, item.data = data ∧ item.key = key := by
      rintro ⟨item, hitem, _, he⟩
      rcases mem_entries.mp hitem with ⟨_, _, hne⟩
      exact hne (he.trans hk)
    rw [or_iff_right hnone]
    simp [hk]
  · simp [hk]

section Ends
variable {t : Table SIZE} {data : List UInt8} {i : Fin SIZE} {item : DataItem}

/-- The scan ends at NULL. -/
theorem not_meetsPath_of_null (hslot : t.hashArray.get i = none) (hi : (i : ℕ) < t.hashSize)
    (hbefore : ∀ j < i, ¬ EndsAt data (t.hashArray.get j)) : ¬ MeetsPath t data := by
  rintro (⟨_, k, _, ⟨other, hother, halike⟩, hall⟩ | ⟨_, hpasses | ⟨rfl, k, _, hdummy, hall⟩⟩)
  · by_cases hk : k < i
    · exact hbefore k hk (hother ▸ endsAt_some.mpr halike)
    · obtain ⟨other, hother, _⟩ := hall i (not_lt.mp hk)
      rw [hslot] at hother
      cases hother
  · obtain ⟨other, hother, _⟩ := hpasses i hi
    rw [hslot] at hother
    cases hother
  · rcases lt_trichotomy k i with hk | rfl | hk
    · exact hbefore k hk (hdummy ▸ endsAt_some.mpr rfl)
    · rw [hslot] at hdummy
      cases hdummy
    · exact hall i hk hslot

/-- The scan ends at an item. -/
theorem names_iff_meetsPath (hb : Blank t) (hslot : t.hashArray.get i = some item)
    (hi : (i : ℕ) < t.hashSize) (halike : Alike data item)
    (hbefore : ∀ j < i, ¬ EndsAt data (t.hashArray.get j)) :
    Names t data item.key ↔ MeetsPath t data := by
  have hupTo : ∀ j < i, ∃ other, t.hashArray.get j = some other ∧ ¬ Alike data other :=
    fun j hj => not_endsAt.mp (hbefore j hj)
  rw [names_iff]
  constructor
  · rintro ⟨herased, hlive⟩
    by_cases hkey : item.key = -1
    · right
      have hdummy := hb i item hslot hkey
      rw [hdummy] at halike hslot
      have hempty : data = [] := List.map_eq_nil_iff.mp halike.symm
      refine ⟨herased hkey, .inr ⟨hempty, i, hi, hslot, fun j hj hnull => ?_⟩⟩
      obtain ⟨other, hother, _⟩ := hupTo j hj
      rw [hnull] at hother
      cases hother
    · left
      obtain ⟨entry, hentry, hdata, hsame⟩ := hlive hkey
      refine ⟨⟨entry, hentry, hdata⟩, i, hi, ⟨item, hslot, halike⟩, fun j hj => ?_⟩
      rcases hj.eq_or_lt with rfl | hlt
      · exact ⟨item, hslot, fun _ => ⟨entry, hentry, hdata, hsame⟩⟩
      · obtain ⟨other, hother, hnot⟩ := hupTo j hlt
        exact ⟨other, hother, fun h => absurd h hnot⟩
  · rintro (⟨_, k, _, ⟨other, hother, hlike⟩, hall⟩ | ⟨habsent, hpasses | ⟨rfl, k, _⟩⟩)
    · have hik : i ≤ k := by
        by_contra hlt
        exact hbefore k (not_le.mp hlt) (hother ▸ endsAt_some.mpr hlike)
      obtain ⟨met, hmet, hshares⟩ := hall i hik
      rw [hslot] at hmet
      cases hmet
      obtain ⟨entry, hentry, hdata, hsame⟩ := hshares halike
      obtain ⟨_, _, hlive⟩ := mem_entries.mp hentry
      refine ⟨fun hkey => absurd (hsame.trans hkey) hlive, fun _ => ⟨entry, hentry, hdata, hsame⟩⟩
    · obtain ⟨other, hother, hnot⟩ := hpasses i hi
      rw [hslot] at hother
      cases hother
      exact absurd halike hnot
    · refine ⟨fun _ => habsent, fun hkey => ?_⟩
      have hentry : item ∈ entries t := mem_entries.mpr ⟨i, hslot, hkey⟩
      exact absurd (List.map_eq_nil_iff.mp halike) (habsent item hentry)

end Ends

theorem findsPath_iff {t : Table SIZE} (h : t.hashSize ≤ SIZE) (hb : Blank t) (data : List UInt8) :
    FindsPath t data ↔ MeetsPath t data := by
  unfold FindsPath
  rw [searchOnData_eq h]
  cases hmet : firstMet data t with
  | none =>
      have hother : ∀ i : Fin SIZE, (i : ℕ) < t.hashSize →
          ∃ item, t.hashArray.get i = some item ∧ ¬ Alike data item := fun i hi =>
        not_endsAt.mp (firstMet_none hmet hi)
      have hnames : (∃ found, answerAt none = .ok found ∧ Names t data found.ret) ↔
          ∀ item ∈ entries t, item.data ≠ data := by simp [answerAt, names_iff]
      rw [hnames]
      constructor
      · exact fun habsent => .inr ⟨habsent, .inl hother⟩
      · rintro (⟨_, i, hi, ⟨item, hitem, halike⟩, _⟩ | ⟨habsent, _⟩)
        · obtain ⟨met, hmet', hnot⟩ := hother i hi
          rw [hitem] at hmet'
          cases hmet'
          exact absurd halike hnot
        · exact habsent
  | some c =>
      obtain ⟨i, hi, hslot, hends, hbefore⟩ := firstMet_some hmet
      cases c with
      | none =>
          have hnot := not_meetsPath_of_null hslot hi hbefore
          simp [answerAt, hnot]
      | some item =>
          rw [← names_iff_meetsPath hb hslot hi (endsAt_some.mp hends) hbefore]
          simp [answerAt]

/-- In every reachable table, the lookup of a path is right exactly when the slots are as its
scan needs them. -/
theorem finds_path_iff [NeZero SIZE] {history : List (Call SIZE)} {t t' : Table SIZE}
    (hr : Run (system SIZE) history t) (hc : ∀ e ∈ history, KeyNonneg e.call)
    (hread : Reread t t') (data : List UInt8) : FindsPath t' data ↔ MeetsPath t' data := by
  have hle : t'.hashSize ≤ SIZE := by
    rw [hread.size]
    exact (sound_run hr hc).wellFormed.size_le
  exact findsPath_iff hle (hread.blank (blank_run hr hc)) data

/-- Of two files `/a` and `/b`, in the first two slots, the second one is found. -/
theorem finds_path_iff_two :
    ∃ (history : List (Call 3)) (t : Table 3), Run (system 3) history t ∧ t.hashSize = 2 ∧
      (FindsPath t [47, 98] ↔ MeetsPath t [47, 98]) ∧ FindsPath t [47, 98] := by
  have hr : ∃ (history : List (Call 3)) (t : Table 3), Run (system 3) history t ∧
      t.hashSize = 2 ∧ (∀ e ∈ history, KeyNonneg e.call) ∧
      t.hashArray.get 0 = some ⟨[47, 97], 3⟩ ∧ t.hashArray.get 1 = some ⟨[47, 98], 4⟩ :=
    ⟨_, _, replay_run 4
      [.insertToHash 3 [47, 97], .insertToHash 4 [47, 98]] .init rfl, rfl, by decide, rfl, rfl⟩
  obtain ⟨history, t, hrun, hsize, hcalls, hfirst, hsecond⟩ := hr
  have hiff := finds_path_iff hrun hcalls (.refl t) [47, 98]
  have hentry : (⟨[47, 98], 4⟩ : DataItem) ∈ entries t := mem_entries.mpr ⟨1, hsecond, by decide⟩
  have hmeets : MeetsPath t [47, 98] := by
    left
    have hnot : ¬ Alike [47, 98] ⟨[47, 97], 3⟩ := by
      unfold Alike
      decide
    have hcases : ∀ j : Fin 3, j ≤ 1 → j = 0 ∨ j = 1 := by decide
    refine ⟨⟨_, hentry, rfl⟩, 1, by rw [hsize]; decide, ⟨_, hsecond, rfl⟩, fun j hj => ?_⟩
    rcases hcases j hj with rfl | rfl
    · exact ⟨_, hfirst, fun halike => absurd halike hnot⟩
    · exact ⟨_, hsecond, fun _ => ⟨_, hentry, rfl, rfl⟩⟩
  exact ⟨history, t, hrun, hsize, hiff, hiff.mpr hmeets⟩

/-- The only entry is in the second slot, and the first one is read through NULL. -/
theorem finds_path_fails :
    ¬ ∀ (history : List (Call 3)) (t : Table 3), Run (system 3) history t →
      (∀ e ∈ history, KeyNonneg e.call) → ∀ data, FindsPath t data := by
  intro h
  have hr : ∃ (history : List (Call 3)) (t : Table 3), Run (system 3) history t ∧
      (∀ e ∈ history, KeyNonneg e.call) ∧ searchOnData [47, 97] t = .error .nullPointer :=
    ⟨_, _, replay_run 4 [.insertToHash 4 [47, 97]] .init rfl, by decide, rfl⟩
  rcases hr with ⟨history, t, hrun, hcalls, hstop⟩
  rcases h history t hrun hcalls [47, 97] with ⟨found, hfound, _⟩
  rw [hstop] at hfound
  cases hfound

/-! ## One directory -/

/-- The items in the stretch whose paths begin with `path`. -/
def matched (path : List UInt8) (stretch : List (Option DataItem)) : List DataItem :=
  stretch.filterMap fun c => c.filter fun item => path <+: item.data

theorem matched_cons_pos {path : List UInt8} {item : DataItem} (h : path <+: item.data)
    (stretch : List (Option DataItem)) :
    matched path (some item :: stretch) = item :: matched path stretch :=
  List.filterMap_cons_some (by simp [Option.filter, h])

theorem matched_cons_neg {path : List UInt8} {item : DataItem} (h : ¬ path <+: item.data)
    (stretch : List (Option DataItem)) :
    matched path (some item :: stretch) = matched path stretch :=
  List.filterMap_cons_none (by simp [Option.filter, h])

/-- The array lists the keys of the items, and -1 behind them. -/
structure Filled (items : List DataItem) (l : Listing SIZE) : Prop where
  keys : l.arrInodes.toList =
    items.map DataItem.key ++ List.replicate (SIZE - items.length) (-1)
  counter : l.aiCounter = items.length
  log : l.log = items.map entryFound

theorem filled_initial : Filled [] (⟨Vector.replicate SIZE (-1), 0, []⟩ : Listing SIZE) := by
  constructor
  · rw [Vector.toList_replicate]
    rfl
  · rfl
  · rfl

/-- The next key goes behind the others. -/
theorem Filled.next {items : List DataItem} {l : Listing SIZE} (h : Filled items l)
    (hroom : items.length < SIZE) (item : DataItem) :
    ∃ arrInodes, writeAt l.arrInodes l.aiCounter item.key = .ok arrInodes ∧
      Filled (items ++ [item]) ⟨arrInodes, l.aiCounter + 1, l.log ++ [entryFound item]⟩ := by
  have hwrite : writeAt l.arrInodes l.aiCounter item.key =
      .ok (l.arrInodes.set items.length item.key hroom) := by
    rw [h.counter]
    exact writeAt_fin l.arrInodes ⟨items.length, hroom⟩ item.key
  refine ⟨_, hwrite, ?_⟩
  constructor
  · have hsplit : SIZE - items.length = SIZE - (items.length + 1) + 1 := by omega
    have hlen : (items.map DataItem.key).length = items.length := List.length_map _
    rw [Vector.toList_set, h.keys, List.set_append_right _ _ (by omega), hlen, Nat.sub_self, hsplit,
      List.replicate_succ, List.set_cons_zero]
    simp
  · simp [h.counter]
  · simp [h.log]

theorem searchOnPathLoop_spec (a : Vector (Option DataItem) SIZE) (path : List UInt8)
    (left i : ℕ) (h : i + left ≤ SIZE) (l : Listing SIZE) {items : List DataItem}
    (hl : Filled items l) (hroom : items.length ≤ i) :
    (none ∈ (a.toList.drop i).take left ∧
        searchOnPathLoop a path left i l = .error .nullPointer) ∨
      none ∉ (a.toList.drop i).take left ∧
        ∃ l', searchOnPathLoop a path left i l = .ok l' ∧
          Filled (items ++ matched path ((a.toList.drop i).take left)) l' := by
  induction left generalizing i l items with
  | zero =>
      right
      refine ⟨List.not_mem_nil, l, rfl, ?_⟩
      rw [List.take_zero]
      exact (List.append_nil items).symm ▸ hl
  | succ left ih =>
      have hi : i < SIZE := by omega
      have hread := readAt_fin a ⟨i, hi⟩
      rw [stretch_succ a hi]
      unfold searchOnPathLoop
      rw [hread, ok_bind]
      cases hc : a.get ⟨i, hi⟩ with
      | none => exact .inl ⟨List.mem_cons_self, rfl⟩
      | some item =>
          have hmem : none ∈ some item :: (a.toList.drop (i + 1)).take left ↔
              none ∈ (a.toList.drop (i + 1)).take left := by simp
          rw [hmem]
          by_cases hm : path <+: item.data
          · have hcompare := comparePath_eq_zero.mpr hm
            rcases hl.next (by omega) item with ⟨arrInodes, hwrite, hl'⟩
            have hrest := ih (i + 1) (by omega) _ hl' (by rw [List.length_append]; simp; omega)
            simp only [if_pos hcompare, hwrite, ok_bind]
            rw [matched_cons_pos hm, List.append_cons items]
            exact hrest
          · have hcompare : ¬ comparePath path item.data = 0 := fun h0 =>
              hm (comparePath_eq_zero.mp h0)
            simp only [if_neg hcompare]
            rw [matched_cons_neg hm]
            exact ih (i + 1) (by omega) l hl (by omega)

theorem searchOnPath_spec {t : Table SIZE} (h : t.hashSize ≤ SIZE) (path : List UInt8) :
    (none ∈ scanned t ∧ searchOnPath path t = .error .nullPointer) ∨
      none ∉ scanned t ∧
        ∃ l, searchOnPath path t = .ok l ∧ Filled (matched path (scanned t)) l := by
  have hloop := searchOnPathLoop_spec t.hashArray path t.hashSize 0 (by omega) _ filled_initial
    (Nat.le_refl 0)
  rwa [List.drop_zero] at hloop

/-- The elements before the first -1. -/
def listed (l : Listing SIZE) : List ℤ := l.arrInodes.toList.takeWhile (· ≠ -1)

/-- The keys of the items in front of the first erased one. -/
def keysInFront (items : List DataItem) : List ℤ := (items.map DataItem.key).takeWhile (· ≠ -1)

theorem Filled.listed_eq {items : List DataItem} {l : Listing SIZE} (h : Filled items l) :
    listed l = keysInFront items := by
  unfold listed keysInFront
  rw [h.keys]
  induction items.map DataItem.key with
  | nil =>
      cases SIZE - items.length with
      | zero => rfl
      | succ n => exact List.takeWhile_cons_of_neg (by simp)
  | cons key keys ih =>
      by_cases hk : key = -1
      · rw [List.cons_append, List.takeWhile_cons_of_neg (by simp [hk]),
          List.takeWhile_cons_of_neg (by simp [hk])]
      · rw [List.cons_append, List.takeWhile_cons_of_pos (by simp [hk]),
          List.takeWhile_cons_of_pos (by simp [hk]), ih]

/-- The array has a terminator. -/
def Terminated (l : Listing SIZE) : Prop := -1 ∈ l.arrInodes.toList

theorem Filled.terminated_iff {items : List DataItem} {l : Listing SIZE} (h : Filled items l) :
    Terminated l ↔ items.length < SIZE ∨ ∃ item ∈ items, item.key = -1 := by
  unfold Terminated
  rw [h.keys, List.mem_append, List.mem_map, List.mem_replicate, or_comm, ← Nat.pos_iff_ne_zero,
    Nat.sub_pos_iff_lt]
  simp

/-- The path of the item is `path`, a slash, and a rest. -/
def Under (path : List UInt8) (item : DataItem) : Prop := path ++ [slash] <+: item.data

instance (path : List UInt8) : DecidablePred (Under path) :=
  fun item => inferInstanceAs (Decidable (_ <+: item.data))

/-- The keys of the entries under the directory, each as often as there is an entry with it. -/
def keysUnder (path : List UInt8) (t : Table SIZE) : Multiset ℤ :=
  ((entries t).filter (Under path)).map DataItem.key

/-- The lookup lists every entry under the directory once, and a terminator. -/
def ListsEntries (t : Table SIZE) (path : List UInt8) : Prop :=
  ∃ l, searchOnPath path t = .ok l ∧ Terminated l ∧ (listed l : Multiset ℤ) = keysUnder path t

/-- The lookup lists every key that has an entry under the directory once, and a terminator. -/
def ListsKeys (t : Table SIZE) (path : List UInt8) : Prop :=
  ∃ l, searchOnPath path t = .ok l ∧ Terminated l ∧ (listed l).Nodup ∧
    ∀ key, key ∈ listed l ↔ key ∈ keysUnder path t

/-- Every slot holds an entry whose path begins with that of the directory. -/
def AllBegin (t : Table SIZE) (path : List UInt8) : Prop :=
  ∀ i, ∃ item, t.hashArray.get i = some item ∧ item.key ≠ -1 ∧ path <+: item.data

/-- The slots that the scan can list from: those below `hashSize`. The key of an erased one is the
terminator, so that nothing behind it is listed, and its path is empty. -/
def front (t : Table SIZE) (path : List UInt8) : List (Option DataItem) :=
  if path = [] then (scanned t).takeWhile fun c => c ≠ some dummyItem else scanned t

/-- The other slots. -/
def back (t : Table SIZE) (path : List UInt8) : List (Option DataItem) :=
  t.hashArray.toList.drop (front t path).length

/-- The entries in a stretch of slots. -/
def live (slots : List (Option DataItem)) : Multiset DataItem :=
  slots.filterMap fun c => c.filter fun item => item.key ≠ -1

def Begins (path : List UInt8) (item : DataItem) : Prop := path <+: item.data

instance (path : List UInt8) : DecidablePred (Begins path) :=
  fun item => inferInstanceAs (Decidable (_ <+: item.data))

/-- The keys of the entries in front that begin with the path. -/
def beginning (t : Table SIZE) (path : List UInt8) : Multiset ℤ :=
  ((live (front t path)).filter (Begins path)).map DataItem.key

/-- The keys of those that do so without lying under the directory. -/
def strangers (t : Table SIZE) (path : List UInt8) : Multiset ℤ :=
  ((live (front t path)).filter fun item => Begins path item ∧ ¬ Under path item).map DataItem.key

/-- The keys of the entries under the directory that the scan does not come to. -/
def overlooked (t : Table SIZE) (path : List UInt8) : Multiset ℤ :=
  ((live (back t path)).filter (Under path)).map DataItem.key

/-! ### What is listed -/

section Listed
variable {t t' : Table SIZE} {path : List UInt8}

theorem keysInFront_cons {item : DataItem} (hkey : item.key ≠ -1) (items : List DataItem) :
    keysInFront (item :: items) = item.key :: keysInFront items := by
  unfold keysInFront
  rw [List.map_cons, List.takeWhile_cons_of_pos (by simp [hkey])]

theorem live_null (slots : List (Option DataItem)) : live (none :: slots) = live slots := rfl

theorem live_erased {item : DataItem} (hkey : item.key = -1) (slots : List (Option DataItem)) :
    live (some item :: slots) = live slots := by
  unfold live
  rw [List.filterMap_cons_none (by simp [Option.filter, hkey])]

theorem live_entry {item : DataItem} (hkey : item.key ≠ -1) (slots : List (Option DataItem)) :
    live (some item :: slots) = item ::ₘ live slots := by
  unfold live
  have hkept : (some item).filter (fun item => item.key ≠ -1) = some item := by
    simp [Option.filter, hkey]
  rw [List.filterMap_cons_some hkept]
  rfl

/-- The keys of the entries in the slots that begin with the path are listed. -/
theorem keysInFront_matched {slots : List (Option DataItem)} (hpath : path ≠ [])
    (hb : ∀ item, some item ∈ slots → item.key = -1 → item = dummyItem) :
    (keysInFront (matched path slots) : Multiset ℤ) =
      ((live slots).filter (Begins path)).map DataItem.key := by
  induction slots with
  | nil => rfl
  | cons c slots ih =>
      have hrest := ih fun item hitem => hb item (List.mem_cons_of_mem _ hitem)
      cases c with
      | none => exact hrest
      | some item =>
          by_cases hkey : item.key = -1
          · have hnot : ¬ path <+: item.data := by
              rw [hb item List.mem_cons_self hkey]
              exact fun hbegins => hpath (List.prefix_nil.mp hbegins)
            rw [matched_cons_neg hnot, live_erased hkey, hrest]
          · rw [live_entry hkey]
            by_cases hbegins : Begins path item
            · rw [matched_cons_pos hbegins, Multiset.filter_cons_of_pos _ hbegins,
                Multiset.map_cons, ← hrest, keysInFront_cons hkey]
              rfl
            · rw [matched_cons_neg hbegins, Multiset.filter_cons_of_neg _ hbegins, hrest]

/-- Behind an erased item nothing is listed for the empty path. -/
theorem keysInFront_empty {slots : List (Option DataItem)}
    (hb : ∀ item, some item ∈ slots → item.key = -1 → item = dummyItem) :
    (keysInFront (matched [] slots) : Multiset ℤ) =
      ((live (slots.takeWhile fun c => c ≠ some dummyItem)).filter (Begins [])).map
        DataItem.key := by
  induction slots with
  | nil => rfl
  | cons c slots ih =>
      have hrest := ih fun item hitem => hb item (List.mem_cons_of_mem _ hitem)
      cases c with
      | none =>
          rw [List.takeWhile_cons_of_pos (by simp), live_null]
          exact hrest
      | some item =>
          have hbegins : Begins [] item := List.nil_prefix
          rw [matched_cons_pos hbegins]
          by_cases hkey : item.key = -1
          · have hdummy := hb item List.mem_cons_self hkey
            rw [List.takeWhile_cons_of_neg (by simp [hdummy])]
            unfold keysInFront
            rw [List.map_cons, List.takeWhile_cons_of_neg (by simp [hkey])]
            rfl
          · have hne : item ≠ dummyItem := by
              rintro rfl
              exact hkey rfl
            rw [List.takeWhile_cons_of_pos (by simp [hne]), live_entry hkey,
              Multiset.filter_cons_of_pos _ hbegins, Multiset.map_cons, ← hrest,
              keysInFront_cons hkey]
            rfl

theorem live_append (slots slots' : List (Option DataItem)) :
    live (slots ++ slots') = live slots + live slots' := by
  unfold live
  rw [List.filterMap_append]
  exact (Multiset.coe_add _ _).symm

theorem live_sum (slots : List (Option DataItem)) :
    live slots = (slots.map fun c => (cellOf c).held).sum := by
  induction slots with
  | nil => rfl
  | cons c slots ih =>
      rw [List.map_cons, List.sum_cons, ← ih]
      cases c with
      | none => exact (zero_add _).symm
      | some item =>
          by_cases hkey : item.key = -1
          · have hcell : cellOf (some item) = .erased := if_pos hkey
            rw [live_erased hkey, hcell]
            exact (zero_add _).symm
          · have hcell : cellOf (some item) = .live item := if_neg hkey
            rw [live_entry hkey, hcell]
            exact (Multiset.singleton_add _ _).symm

theorem toList_get {A : Type} {n : ℕ} (a : Vector A n) : a.toList = (List.finRange n).map a.get := by
  apply List.ext_getElem
  · simp
  · intro i hi _
    rw [List.getElem_map, List.getElem_finRange]
    rfl

theorem entries_live (t : Table SIZE) : entries t = live t.hashArray.toList := by
  rw [live_sum, toList_get, List.map_map]
  unfold entries contents
  rw [Fin.sum_univ_def]
  rfl

theorem slots_split (t : Table SIZE) (path : List UInt8) :
    front t path ++ back t path = t.hashArray.toList := by
  have hbegins : front t path <+: t.hashArray.toList := by
    unfold front
    split_ifs
    · exact (List.takeWhile_prefix _).trans (List.take_prefix _ _)
    · exact List.take_prefix _ _
  exact List.prefix_iff_eq_append.mp hbegins

theorem mem_scanned {c : Option DataItem} (h : c ∈ scanned t) : ∃ i, t.hashArray.get i = c := by
  have hmem : c ∈ (List.finRange SIZE).map t.hashArray.get := by
    rw [← toList_get]
    exact List.mem_of_mem_take h
  obtain ⟨i, _, hslot⟩ := List.mem_map.mp hmem
  exact ⟨i, hslot⟩

theorem listed_beginning (hb : Blank t) :
    (keysInFront (matched path (scanned t)) : Multiset ℤ) = beginning t path := by
  have herased : ∀ item, some item ∈ scanned t → item.key = -1 → item = dummyItem := by
    intro item hitem
    obtain ⟨i, hslot⟩ := mem_scanned hitem
    exact hb i item hslot
  unfold beginning front
  split_ifs with hpath
  · rw [hpath]
    exact keysInFront_empty herased
  · exact keysInFront_matched hpath herased

/-- What is listed and what should be, by what they have in common. -/
theorem beginning_split (t : Table SIZE) (path : List UInt8) :
    ∃ common, beginning t path = common + strangers t path ∧
      keysUnder path t = common + overlooked t path := by
  refine ⟨((live (front t path)).filter (Under path)).map DataItem.key, ?_, ?_⟩
  · have hunder : ∀ item : DataItem, Under path item ∧ Begins path item ↔ Under path item :=
      fun item => and_iff_left_of_imp fun h => (List.prefix_append path [slash]).trans h
    have hsplit := Multiset.filter_add_not (Under path)
      ((live (front t path)).filter (Begins path))
    simp only [Multiset.filter_filter, hunder] at hsplit
    unfold beginning strangers
    rw [← Multiset.map_add, ← hsplit]
    simp only [and_comm]
  · unfold keysUnder overlooked
    rw [entries_live, ← slots_split t path, live_append, Multiset.filter_add, Multiset.map_add]

theorem Reread.card (h : Reread t t') :
    Multiset.card (entries t') = Multiset.card (entries t) := by
  unfold entries
  rw [card_contents, card_contents]
  apply Finset.sum_congr rfl
  intro i _
  have hkeys := h.keys i
  change Multiset.card (cellOf (t'.hashArray.get i)).held =
    Multiset.card (cellOf (t.hashArray.get i)).held
  cases hslot : t.hashArray.get i with
  | none =>
      rw [hslot] at hkeys
      rw [Option.map_eq_none_iff.mp hkeys]
  | some item =>
      rw [hslot] at hkeys
      obtain ⟨other, hother, hsame⟩ := Option.map_eq_some_iff.mp hkeys
      rw [hother]
      unfold cellOf
      dsimp only
      rw [hsame]
      split_ifs
      · rfl
      · rfl

theorem AllBegin.card (h : AllBegin t path) : Multiset.card (entries t) = SIZE := by
  have hone : ∀ i, Multiset.card (cells t.hashArray i).held = 1 := by
    intro i
    obtain ⟨item, hslot, hkey, _⟩ := h i
    have hcell : cells t.hashArray i = .live item := cellOf_eq_live.mpr ⟨hslot, hkey⟩
    rw [hcell]
    rfl
  unfold entries
  rw [card_contents, Finset.sum_congr rfl fun i _ => hone i]
  simp

theorem mem_matched {item : DataItem} {slots : List (Option DataItem)} :
    item ∈ matched path slots ↔ some item ∈ slots ∧ path <+: item.data := by
  unfold matched
  rw [List.mem_filterMap]
  constructor
  · rintro ⟨c, hc, hkept⟩
    obtain ⟨rfl, hbegins⟩ := Option.filter_eq_some_iff.mp hkept
    exact ⟨hc, of_decide_eq_true hbegins⟩
  · rintro ⟨hitem, hbegins⟩
    exact ⟨some item, hitem, Option.filter_eq_some_iff.mpr ⟨rfl, decide_eq_true hbegins⟩⟩

/-- A terminator is left. -/
theorem room_iff (hle : t.hashSize ≤ SIZE) (hsize : Multiset.card (entries t) = t.hashSize) :
    ((matched path (scanned t)).length < SIZE ∨ ∃ item ∈ matched path (scanned t), item.key = -1) ↔
      ¬ AllBegin t path := by
  have hscanned : (scanned t).length = t.hashSize := by
    unfold scanned
    rw [List.length_take, Vector.length_toList]
    exact Nat.min_eq_left hle
  constructor
  · rintro hroom hall
    have hkept : ∀ c ∈ scanned t, (c.filter fun item => path <+: item.data).isSome = true := by
      intro c hc
      obtain ⟨i, rfl⟩ := mem_scanned hc
      obtain ⟨item, hslot, _, hbegins⟩ := hall i
      rw [hslot]
      simp [hbegins]
    have hlength : (matched path (scanned t)).length = (scanned t).length :=
      List.filterMap_length_eq_length.mpr hkept
    rcases hroom with hfew | ⟨item, hitem, herased⟩
    · rw [hlength, hscanned, ← hsize, hall.card] at hfew
      exact lt_irrefl _ hfew
    · obtain ⟨i, hslot⟩ := mem_scanned (mem_matched.mp hitem).1
      obtain ⟨other, hother, hkey, _⟩ := hall i
      rw [hslot] at hother
      cases hother
      exact hkey herased
  · intro hnot
    by_contra hfull
    rw [not_or, not_lt] at hfull
    apply hnot
    intro i
    have hlength : (matched path (scanned t)).length ≤ (scanned t).length :=
      List.length_filterMap_le _ _
    have hi : (i : ℕ) < t.hashSize := by
      have hlt := i.isLt
      omega
    have hkept : ∀ c ∈ scanned t, (c.filter fun item => path <+: item.data).isSome = true := by
      apply List.filterMap_length_eq_length.mp
      exact le_antisymm hlength (by rw [hscanned]; exact hle.trans hfull.1)
    have hmem : t.hashArray.get i ∈ scanned t := List.mem_of_getElem? (scanned_get i.isLt hi)
    obtain ⟨item, hitem⟩ := Option.isSome_iff_exists.mp (hkept _ hmem)
    obtain ⟨hslot, hbegins⟩ := Option.filter_eq_some_iff.mp hitem
    refine ⟨item, hslot, fun hkey => ?_, of_decide_eq_true hbegins⟩
    exact hfull.2 ⟨item, mem_matched.mpr ⟨hslot ▸ hmem, of_decide_eq_true hbegins⟩, hkey⟩

end Listed

theorem lists_iff {t : Table SIZE} (hle : t.hashSize ≤ SIZE)
    (hsize : Multiset.card (entries t) = t.hashSize) (path : List UInt8) (P : List ℤ → Prop) :
    (∃ l, searchOnPath path t = .ok l ∧ Terminated l ∧ P (listed l)) ↔
      none ∉ scanned t ∧ ¬ AllBegin t path ∧ P (keysInFront (matched path (scanned t))) := by
  rcases searchOnPath_spec hle path with ⟨hnull, hstop⟩ | ⟨hused, l, hl, hfilled⟩
  · rw [hstop]
    simp [hnull]
  · rw [hl, ← room_iff hle hsize, ← hfilled.terminated_iff, ← hfilled.listed_eq]
    simp [hused]

/-- In every reachable table, the lookup of a directory lists every entry under it once exactly when
no slot gone over is NULL, not every slot holds an entry that begins with the path, and the keys
of the strangers are those of the entries overlooked (as a rule, there are none of either). It
lists every key once exactly when, besides, the keys listed differ, those of the strangers are
keys under the directory as well, and those overlooked are listed all the same. -/
theorem lists_directory_iff [NeZero SIZE] {history : List (Call SIZE)} {t t' : Table SIZE}
    (hr : Run (system SIZE) history t) (hc : ∀ e ∈ history, KeyNonneg e.call)
    (hread : Reread t t') (path : List UInt8) :
    (ListsEntries t' path ↔
      none ∉ scanned t' ∧ ¬ AllBegin t' path ∧ strangers t' path = overlooked t' path) ∧
    (ListsKeys t' path ↔ none ∉ scanned t' ∧ ¬ AllBegin t' path ∧ (beginning t' path).Nodup ∧
      (∀ key ∈ strangers t' path, key ∈ keysUnder path t') ∧
      ∀ key ∈ overlooked t' path, key ∈ beginning t' path) := by
  have hwell := (sound_run hr hc).wellFormed
  have hle : t'.hashSize ≤ SIZE := hread.size ▸ hwell.size_le
  have hsize : Multiset.card (entries t') = t'.hashSize := by
    rw [hread.card, hread.size, hwell.size]
  have hkeys : (keysInFront (matched path (scanned t')) : Multiset ℤ) = beginning t' path :=
    listed_beginning (hread.blank (blank_run hr hc))
  obtain ⟨common, hbeginning, hunder⟩ := beginning_split t' path
  constructor
  · have hsame : (keysInFront (matched path (scanned t')) : Multiset ℤ) = keysUnder path t' ↔
        strangers t' path = overlooked t' path := by
      rw [hkeys, hbeginning, hunder, add_left_cancel_iff]
    exact (lists_iff hle hsize path fun keys => (keys : Multiset ℤ) = keysUnder path t').trans
      (and_congr_right' (and_congr_right' hsame))
  · have hmem : ∀ key, key ∈ keysInFront (matched path (scanned t')) ↔ key ∈ beginning t' path := by
      intro key
      rw [← hkeys, Multiset.mem_coe]
    have hsame : ((keysInFront (matched path (scanned t'))).Nodup ∧
          ∀ key, key ∈ keysInFront (matched path (scanned t')) ↔ key ∈ keysUnder path t') ↔
        (beginning t' path).Nodup ∧ (∀ key ∈ strangers t' path, key ∈ keysUnder path t') ∧
          ∀ key ∈ overlooked t' path, key ∈ beginning t' path := by
      rw [← Multiset.coe_nodup, hkeys]
      refine and_congr_right' ⟨fun h => ⟨fun key hkey => ?_, fun key hkey => ?_⟩, fun h key => ?_⟩
      · apply (h key).mp
        rw [hmem, hbeginning]
        exact Multiset.mem_add.mpr (.inr hkey)
      · apply (hmem key).mp
        rw [h, hunder]
        exact Multiset.mem_add.mpr (.inr hkey)
      · rw [hmem, hunder, hbeginning, Multiset.mem_add, Multiset.mem_add]
        constructor
        · rintro (hkey | hkey)
          · exact .inl hkey
          · have hlisted := h.1 key hkey
            rw [hunder] at hlisted
            exact Multiset.mem_add.mp hlisted
        · rintro (hkey | hkey)
          · exact .inl hkey
          · have hlisted := h.2 key hkey
            rw [hbeginning] at hlisted
            exact Multiset.mem_add.mp hlisted
    exact (lists_iff hle hsize path fun keys => keys.Nodup ∧
      ∀ key, key ∈ keys ↔ key ∈ keysUnder path t').trans
      (and_congr_right' (and_congr_right' hsame))

/-- The files `/d/a` and `/d/b` are in the first two slots of three, and are listed for `/d`. -/
theorem lists_directory_iff_two :
    ∃ (history : List (Call 3)) (t : Table 3), Run (system 3) history t ∧
      keysUnder [47, 100] t = {3, 4} ∧ ListsEntries t [47, 100] ∧ ListsKeys t [47, 100] := by
  have hr : ∃ (history : List (Call 3)) (t : Table 3), Run (system 3) history t ∧
      t.hashSize = 2 ∧ (∀ e ∈ history, KeyNonneg e.call) ∧ t.hashArray.get 2 = none ∧
      t.hashArray.toList = [some ⟨[47, 100, 47, 97], 3⟩, some ⟨[47, 100, 47, 98], 4⟩, none] :=
    ⟨_, _, replay_run 4
      [.insertToHash 3 [47, 100, 47, 97], .insertToHash 4 [47, 100, 47, 98]] .init rfl, rfl,
      by decide, rfl, rfl⟩
  obtain ⟨history, t, hrun, hsize, hcalls, hlast, hslots⟩ := hr
  have hfront : front t [47, 100] =
      [some ⟨[47, 100, 47, 97], 3⟩, some ⟨[47, 100, 47, 98], 4⟩] := by
    unfold front scanned
    rw [hslots, hsize]
    rfl
  have hback : back t [47, 100] = [none] := by
    unfold back
    rw [hfront, hslots]
    rfl
  have hused : none ∉ scanned t := by
    unfold scanned
    rw [hslots, hsize]
    decide
  have hroom : ¬ AllBegin t [47, 100] := by
    intro hall
    obtain ⟨item, hslot, _⟩ := hall 2
    rw [hlast] at hslot
    cases hslot
  have hstrangers : strangers t [47, 100] = 0 := by
    unfold strangers
    rw [hfront]
    decide
  have hoverlooked : overlooked t [47, 100] = 0 := by
    unfold overlooked
    rw [hback]
    decide
  have hbeginning : beginning t [47, 100] = {3, 4} := by
    unfold beginning
    rw [hfront]
    decide
  have hkeys : keysUnder [47, 100] t = {3, 4} := by
    unfold keysUnder
    rw [entries_live, hslots]
    decide
  obtain ⟨hentries, honce⟩ := lists_directory_iff hrun hcalls (.refl t) [47, 100]
  refine ⟨history, t, hrun, hkeys, hentries.mpr ⟨hused, hroom, hstrangers.trans hoverlooked.symm⟩,
    honce.mpr ⟨hused, hroom, ?_, ?_, ?_⟩⟩
  · rw [hbeginning]
    decide
  · rw [hstrangers]
    exact fun key hkey => absurd hkey (Multiset.notMem_zero key)
  · rw [hoverlooked]
    exact fun key hkey => absurd hkey (Multiset.notMem_zero key)

/-- The directory `/a` and the path `/ab`, which is not under it. -/
theorem lists_directory_fails :
    ¬ ∀ (history : List (Call 3)) (t : Table 3), Run (system 3) history t →
      (∀ e ∈ history, KeyNonneg e.call) → ∀ path, ListsEntries t path ∨ ListsKeys t path := by
  intro h
  have hr : ∃ (history : List (Call 3)) (t : Table 3), Run (system 3) history t ∧
      (∀ e ∈ history, KeyNonneg e.call) ∧
      ∃ l, searchOnPath [47, 97] t = .ok l ∧ 3 ∈ listed l ∧ 3 ∉ keysUnder [47, 97] t :=
    ⟨_, _, replay_run 4 [.insertToHash 3 [47, 97, 98]] .init rfl, by decide, _, rfl, by decide,
      by decide⟩
  rcases hr with ⟨history, t, hrun, hcalls, l, hl, hlisted, hnot⟩
  rcases h history t hrun hcalls [47, 97] with ⟨l', hl', _, hkeys⟩ | ⟨l', hl', _, _, hkeys⟩
  · rw [hl] at hl'
    cases hl'
    exact hnot (hkeys ▸ Multiset.mem_coe.mpr hlisted)
  · rw [hl] at hl'
    cases hl'
    exact hnot ((hkeys 3).mp hlisted)

end MinixOS.UndeleteScans
