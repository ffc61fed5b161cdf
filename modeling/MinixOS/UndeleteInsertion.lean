import MinixOS.UndeleteOrder

/-!
# Looking up what was inserted last

An insertion puts the item into the first free cell from its home. A search for its key
starts at the home too, and ends at the first item with the key. It gets to the new
item exactly when no older item with the key and another path stands in front of it.
-/
namespace MinixOS.UndeleteInsertion
open LoopExecution CheckedExecution SystemRuns LinearProbing UndeleteTable UndeleteProbing
open UndeleteSystem UndeleteFifo UndeleteLookup UndeleteOrder

variable {SIZE : ℕ}

/-- The search for the key ends at an item with this path. -/
def LooksUp (key : ℤ) (data : List UInt8) (t : Table SIZE) : Prop :=
  ∃ item, searchHashTable key t = .ok (some item) ∧ item.data = data

/-- The insertion returns, and the search for the key then ends at the new path. -/
def FoundAfterInsert (t : Table SIZE) (key : ℤ) (data : List UInt8) : Prop :=
  ∃ out, Returns (.insertToHash key data) t out ∧ LooksUp key data out.table

/-- The slot is cleared by the eviction that an insertion into a full table starts with. -/
def Cleared (t : Table SIZE) (i : Fin SIZE) : Prop :=
  SIZE ≤ t.hashSize ∧ ∃ oldest ∈ (inodes t).head?, i ∈ met t oldest

/-- An insertion can use the slot. -/
def Free (t : Table SIZE) (i : Fin SIZE) : Prop := ¬ Live t i ∨ Cleared t i

instance (t : Table SIZE) (i : Fin SIZE) : Decidable (Cleared t i) :=
  inferInstanceAs (Decidable (_ ∧ ∃ oldest ∈ (inodes t).head?, i ∈ met t oldest))

instance (t : Table SIZE) (i : Fin SIZE) : Decidable (Free t i) :=
  inferInstanceAs (Decidable (_ ∨ _))

/-- The slot holds an item with the key and another path. -/
def HoldsOther (t : Table SIZE) (key : ℤ) (data : List UInt8) (i : Fin SIZE) : Prop :=
  ∃ item ∈ t.hashArray.get i, item.key = key ∧ item.data ≠ data

instance (t : Table SIZE) (key : ℤ) (data : List UInt8) (i : Fin SIZE) :
    Decidable (HoldsOther t key data i) :=
  inferInstanceAs (Decidable (∃ item ∈ t.hashArray.get i, _))

theorem keyAt_of_get {t : Table SIZE} {i : Fin SIZE} {item : DataItem}
    (h : t.hashArray.get i = some item) : keyAt t i = item.key := by
  unfold keyAt
  rw [h]

theorem passes_of_live {t : Table SIZE} {i : Fin SIZE} {key : ℤ} (hlive : Live t i)
    (hne : keyAt t i ≠ key) : Passes key (t.hashArray.get i) := by
  rcases hlive with ⟨item, hitem, _⟩
  rw [Option.mem_def] at hitem
  rw [keyAt_of_get hitem] at hne
  exact ⟨item, hitem, hne⟩

section Search
variable [NeZero SIZE] {t : Table SIZE} {key : ℤ} {data : List UInt8}

/-- `d` steps from its home, before a free slot is met, the search for the key comes to an item
with the key, and the path of this item is another. -/
def MetBefore (t : Table SIZE) (key : ℤ) (data : List UInt8) (d : ℕ) : Prop :=
  ∃ e < d, HoldsOther t key data (visit (home SIZE key) e) ∧
    ∀ j < e, keyAt t (visit (home SIZE key) j) ≠ key

/-- An older item with the key and another path stands in front of the first free slot. -/
def Shadowed (t : Table SIZE) (key : ℤ) (data : List UInt8) : Prop :=
  ∃ d < SIZE, Free t (visit (home SIZE key) d) ∧ (∀ j < d, ¬ Free t (visit (home SIZE key) j)) ∧
    MetBefore t key data d

instance (t : Table SIZE) (key : ℤ) (data : List UInt8) (d : ℕ) :
    Decidable (MetBefore t key data d) :=
  inferInstanceAs (Decidable (∃ e < d, _ ∧ ∀ j < e, _))

instance (t : Table SIZE) (key : ℤ) (data : List UInt8) : Decidable (Shadowed t key data) :=
  inferInstanceAs (Decidable (∃ d < SIZE, _ ∧ (∀ j < d, ¬ Free t _) ∧ MetBefore t key data d))

/-- A search that meets an item with its key returns this item. -/
theorem looksUp_iff {d : ℕ} (hkey : 0 ≤ key) (hd : d < SIZE)
    (hwalk : ∀ j < d, Passes key (t.hashArray.get (visit (home SIZE key) j))) {item : DataItem}
    (hitem : t.hashArray.get (visit (home SIZE key) d) = some item) (hk : item.key = key) :
    LooksUp key data t ↔ item.data = data := by
  have hloop := searchLoop_hit hd hwalk hitem hk
  have hsearch : searchHashTable key t = .ok (some item) := by
    rw [← hashCode_of_nonneg hkey] at hloop
    simp only [searchHashTable, hloop, ok_bind]
    rfl
  unfold LooksUp
  simp [hsearch]

/-- What the slots of the path hold once the item is stored. -/
theorem get_stored (key : ℤ) (data : List UInt8) (hroom : t.hashSize < SIZE) {d e : ℕ} (hd : d < SIZE)
    (he : e < SIZE) :
    (appendAt t hroom (visit (home SIZE key) d) ⟨data, key⟩).hashArray.get
        (visit (home SIZE key) e) =
      if d = e then some ⟨data, key⟩ else t.hashArray.get (visit (home SIZE key) e) := by
  unfold appendAt storeAt
  rw [get_set]
  by_cases hde : d = e
  · rw [if_pos hde, if_pos (by rw [hde])]
  · rw [if_neg hde, if_neg fun heq => hde (visit_inj hd he heq)]

/-- The search passes over the slots in front of the stored item that hold other keys. -/
theorem passes_stored (data : List UInt8) (hroom : t.hashSize < SIZE) {d e : ℕ} (hd : d < SIZE)
    (hwalk : ∀ j < d, Live t (visit (home SIZE key) j)) (he : e ≤ d)
    (hother : ∀ j < e, keyAt t (visit (home SIZE key) j) ≠ key) :
    ∀ j < e, Passes key ((appendAt t hroom (visit (home SIZE key) d)
      ⟨data, key⟩).hashArray.get (visit (home SIZE key) j)) := by
  intro j hj
  have hjd : j < d := hj.trans_le he
  rw [get_stored key data hroom hd (hjd.trans hd), if_neg (Nat.ne_of_gt hjd)]
  exact passes_of_live (hwalk j hjd) (hother j hj)

/-- Once the item is stored, the search gets to it unless it meets another one before. -/
theorem looksUp_stored {hroom : t.hashSize < SIZE} (hkey : 0 ≤ key) {d : ℕ} (hd : d < SIZE)
    (hwalk : ∀ j < d, Live t (visit (home SIZE key) j)) :
    LooksUp key data (appendAt t hroom (visit (home SIZE key) d) ⟨data, key⟩) ↔
      ¬ MetBefore t key data d := by
  by_cases hex : ∃ e < d, keyAt t (visit (home SIZE key) e) = key
  · -- The first older item with the key is where the search ends.
    rcases Nat.findX hex with ⟨e, ⟨he, hk⟩, hfirst⟩
    have hother : ∀ j < e, keyAt t (visit (home SIZE key) j) ≠ key := fun j hj hj' =>
      hfirst j hj ⟨hj.trans he, hj'⟩
    rcases hwalk e he with ⟨item, hitem, _⟩
    rw [Option.mem_def] at hitem
    rw [keyAt_of_get hitem] at hk
    have hpass := passes_stored data hroom hd hwalk he.le hother
    have hat := get_stored key data hroom hd (he.trans hd)
    rw [if_neg (Nat.ne_of_gt he), hitem] at hat
    rw [looksUp_iff hkey (he.trans hd) hpass hat hk]
    constructor
    · rintro hdata ⟨e', he', ⟨other, hother', hk', hne⟩, hbefore⟩
      rw [Option.mem_def] at hother'
      rcases Nat.lt_trichotomy e' e with hlt | rfl | hgt
      · exact hother e' hlt ((keyAt_of_get hother').trans hk')
      · rw [hitem] at hother'
        exact hne (Option.some.inj hother' ▸ hdata)
      · exact hbefore e hgt ((keyAt_of_get hitem).trans hk)
    · intro hnot
      by_contra hne
      exact hnot ⟨e, he, ⟨item, hitem, hk, hne⟩, hother⟩
  · have hother : ∀ e < d, keyAt t (visit (home SIZE key) e) ≠ key := fun e he hk =>
      hex ⟨e, he, hk⟩
    have hpass := passes_stored data hroom hd hwalk (Nat.le_refl d) hother
    have hat := get_stored key data hroom hd hd
    rw [if_pos rfl] at hat
    apply iff_of_true ((looksUp_iff hkey hd hpass hat rfl).mpr rfl)
    rintro ⟨e, he, ⟨item, hitem, hk, _⟩, _⟩
    exact hother e he ((keyAt_of_get hitem).trans hk)

/-! ## The insertion -/

/-- Only the slots in front of the new item matter. -/
theorem MetBefore.congr {t' : Table SIZE} {d : ℕ} (h : MetBefore t key data d)
    (hsame : ∀ e < d, t'.hashArray.get (visit (home SIZE key) e) =
      t.hashArray.get (visit (home SIZE key) e)) : MetBefore t' key data d := by
  rcases h with ⟨e, he, ⟨item, hitem, hother⟩, hbefore⟩
  refine ⟨e, he, ⟨item, ?_, hother⟩, fun j hj => ?_⟩
  · rwa [hsame e he]
  · unfold keyAt
    rw [hsame j (hj.trans he)]
    exact hbefore j hj

/-- The slots that are not live when the item is stored are those that were free before. -/
theorem live_midway (hs : Sound t) {mid : Table SIZE} {fuel : ℕ}
    (hmid : t.hashSize < SIZE ∧ mid = t ∨
      t.hashSize = SIZE ∧ ∃ evicted, deleteFromHash fuel t = .ok evicted ∧ evicted.table = mid)
    (i : Fin SIZE) : Live mid i ↔ ¬ Free t i := by
  unfold Free Cleared
  rcases hmid with ⟨hlt, rfl⟩ | ⟨hfull, evicted, hevict, rfl⟩
  · simp [Nat.not_le.mpr hlt]
  · rcases deleteFromHash_cases hs hevict with
      ⟨hzero, _⟩ | ⟨a, k, item, hsize, _, hread, hsearch, _, rfl⟩
    · have hpos : 0 < SIZE := Nat.pos_of_neZero SIZE
      omega
    · have hhead := head_inodes hsize hread
      have hmet := met_of_found hsearch
      have hlive : Live (eraseAt { t with inodeArray := a } k) i ↔ Live t i ∧ i ≠ k := live_eraseAt
      dsimp only
      rw [hlive]
      simp [hfull, hhead, hmet, eq_comm]

/-- Slots that stay live keep their items. -/
theorem get_midway (hs : Sound t) {mid : Table SIZE} {fuel : ℕ}
    (hmid : t.hashSize < SIZE ∧ mid = t ∨
      t.hashSize = SIZE ∧ ∃ evicted, deleteFromHash fuel t = .ok evicted ∧ evicted.table = mid)
    {i : Fin SIZE} (hlive : Live mid i) : mid.hashArray.get i = t.hashArray.get i := by
  rcases hmid with ⟨_, rfl⟩ | ⟨_, evicted, hevict, rfl⟩
  · rfl
  · rcases deleteFromHash_cases hs hevict with
      ⟨_, htable⟩ | ⟨a, k, item, _, _, _, _, _, rfl⟩
    · rw [htable]
    · have hne : i ≠ k := (live_eraseAt.mp hlive).2
      unfold eraseAt
      rw [get_set, if_neg (Ne.symm hne)]

/-- An insertion that returns is found exactly when its item is not shadowed. -/
theorem looksUp_inserted (hs : Sound t) (hkey : 0 ≤ key) {out : Outcome SIZE}
    (hr : Returns (.insertToHash key data) t out) :
    LooksUp key data out.table ↔ ¬ Shadowed t key data := by
  rcases hr with ⟨fuel, hr⟩
  rcases insertToHash_cases hs hkey hr with ⟨mid, hroom, d, hmid, hd, hfree, hwalk, htable, _⟩
  have hlive := live_midway hs hmid
  have hsame := fun e he => get_midway hs hmid (hwalk e he)
  have hmet : MetBefore mid key data d ↔ MetBefore t key data d := by
    constructor
    · intro h
      exact h.congr fun e he => (hsame e he).symm
    · intro h
      exact h.congr hsame
  rw [htable, looksUp_stored hkey hd hwalk, hmet]
  apply not_congr
  constructor
  · intro h
    refine ⟨d, hd, ?_, fun j hj => (hlive _).mp (hwalk j hj), h⟩
    by_contra hnot
    exact hfree ((hlive _).mpr hnot)
  · rintro ⟨d', _, hfree', hwalk', h⟩
    rcases Nat.lt_trichotomy d' d with hlt | rfl | hgt
    · exact absurd hfree' ((hlive _).mp (hwalk d' hlt))
    · exact h
    · exact absurd ((hlive _).mpr (hwalk' d hgt)) hfree

end Search

end MinixOS.UndeleteInsertion
