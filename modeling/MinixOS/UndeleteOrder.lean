import MinixOS.UndeleteLookup

/-!
# The eviction order under removals

Insertions and evictions keep `inodeArray` in step with the table. A removal of a single
key takes an entry out of the table and leaves the array as it is, but for the
count, which drops its last key. So the array still lists the live slots in
the order of their insertion only if every entry younger than the removed one has
the same key. An eviction drops the first key of the array and takes out
the entry a search for that key meets, which is not the oldest one if the key
is in the table twice.

The order of insertion is told from the tables before and after each call: a slot that
is no longer live leaves it, and one that became live goes to its end.
-/
namespace MinixOS.UndeleteOrder
open LoopExecution CheckedExecution SystemRuns LinearProbing UndeleteTable UndeleteProbing
open UndeleteSystem UndeleteFifo UndeleteLookup

variable {SIZE : ℕ}

/-! ## The order of insertion -/

def follow (t t' : Table SIZE) (order : List (Fin SIZE)) : List (Fin SIZE) :=
  order.filter (fun i => Live t' i) ++
    (List.finRange SIZE).filter fun i => Live t' i ∧ ¬ Live t i

/-- The table after the eviction that an insertion into a full table starts with. -/
def midway (t : Table SIZE) : Request → Table SIZE
  | .insertToHash _ _ =>
      if t.hashSize < SIZE then t
      else
        match deleteFromHash SIZE t with
        | .ok out => out.table
        | .error _ => t
  | _ => t

/-- The live slots, the one filled first in front. -/
def slots : List (Call SIZE) → List (Fin SIZE)
  | [] => []
  | e :: history =>
      let mid := midway e.before e.call
      follow mid e.after (follow e.before mid (slots history))

/-- The table after the last call. -/
def current : List (Call SIZE) → Table SIZE
  | [] => Table.initial SIZE
  | e :: _ => e.after

/-! ## When a call keeps the order -/

/-- The slot where a search for the key ends, if it finds one. -/
def met (t : Table SIZE) (key : ℤ) : Option (Fin SIZE) :=
  match searchLoop t.hashArray key SIZE (hashCode SIZE key) with
  | .ok (some (i, _)) => if h : i.toNat < SIZE then some ⟨i.toNat, h⟩ else none
  | _ => none

/-- The entries older than the evicted one have its key. -/
def EvictsOldest (order : List (Fin SIZE)) (t : Table SIZE) : Prop :=
  ∀ key ∈ (inodes t).head?, ∀ i ∈ met t key, ∀ j ∈ order.takeWhile (· ≠ i), keyAt t j = key

/-- The entries younger than the removed one have its key. -/
def RemovesYoungest (order : List (Fin SIZE)) (t : Table SIZE) (keyDel : ℤ) : Prop :=
  ∀ i ∈ met t keyDel, ∀ j ∈ (order.dropWhile (· ≠ i)).tail, keyAt t j = keyDel

def KeepsOrder (order : List (Fin SIZE)) (t : Table SIZE) : Request → Prop
  | .insertToHash _ _ => SIZE ≤ t.hashSize → EvictsOldest order t
  | .deleteFromHash => EvictsOldest order t
  | .deleteFromHashTable keyDel => RemovesYoungest order t keyDel

def CallKeepsOrder : List (Call SIZE) → Prop
  | [] => True
  | e :: history => KeepsOrder (slots history) e.before e.call

instance (order : List (Fin SIZE)) (t : Table SIZE) : Decidable (EvictsOldest order t) := by
  unfold EvictsOldest
  infer_instance

instance (order : List (Fin SIZE)) (t : Table SIZE) (keyDel : ℤ) :
    Decidable (RemovesYoungest order t keyDel) := by
  unfold RemovesYoungest
  infer_instance

instance (order : List (Fin SIZE)) (t : Table SIZE) : DecidablePred (KeepsOrder order t)
  | .insertToHash _ _ => inferInstanceAs (Decidable (SIZE ≤ t.hashSize → EvictsOldest order t))
  | .deleteFromHash => inferInstanceAs (Decidable (EvictsOldest order t))
  | .deleteFromHashTable keyDel => inferInstanceAs (Decidable (RemovesYoungest order t keyDel))

instance : DecidablePred (@CallKeepsOrder SIZE)
  | [] => instDecidableTrue
  | e :: history => inferInstanceAs (Decidable (KeepsOrder (slots history) e.before e.call))

/-! ## Following the live slots -/

/-- The slots of the order are the live ones, each once. -/
structure Lists (order : List (Fin SIZE)) (t : Table SIZE) : Prop where
  nodup : order.Nodup
  mem_iff : ∀ i, i ∈ order ↔ Live t i

variable {t t' : Table SIZE} {order : List (Fin SIZE)} {i : Fin SIZE}

theorem mem_follow {j : Fin SIZE} : j ∈ follow t t' order ↔
    Live t' j ∧ (j ∈ order ∨ ¬ Live t j) := by
  unfold follow
  simp only [List.mem_append, List.mem_filter, List.mem_finRange, decide_eq_true_eq, true_and]
  tauto

theorem Lists.follow (h : Lists order t) (t' : Table SIZE) : Lists (follow t t' order) t' := by
  constructor
  · apply List.Nodup.append
    · exact h.nodup.filter _
    · exact (List.nodup_finRange SIZE).filter _
    · intro j hold hnew
      have hlive := (h.mem_iff j).mp (List.mem_of_mem_filter hold)
      have hnot := of_decide_eq_true (List.mem_filter.mp hnew).2
      exact hnot.2 hlive
  · intro j
    rw [mem_follow, h.mem_iff]
    tauto

theorem live_eraseAt {j : Fin SIZE} : Live (eraseAt t i) j ↔ Live t j ∧ j ≠ i := by
  unfold Live eraseAt
  simp only [get_set]
  split_ifs with hij
  · simp [dummyItem, hij]
  · simp [Ne.symm hij]

theorem live_appendAt {hroom : t.hashSize < SIZE} {item : DataItem} (hkey : item.key ≠ -1)
    {j : Fin SIZE} : Live (appendAt t hroom i item) j ↔ j = i ∨ Live t j := by
  unfold Live appendAt storeAt
  simp only [get_set]
  split_ifs with hij
  · simp [hij, hkey]
  · simp [Ne.symm hij]

theorem Lists.follow_self (h : Lists order t) : UndeleteOrder.follow t t order = order := by
  have hold : order.filter (fun i => Live t i) = order :=
    List.filter_eq_self.mpr fun j hj => decide_eq_true ((h.mem_iff j).mp hj)
  unfold UndeleteOrder.follow
  rw [hold]
  simp

theorem Lists.follow_eraseAt (h : Lists order t) (i : Fin SIZE) :
    UndeleteOrder.follow t (eraseAt t i) order = order.filter (· ≠ i) := by
  have hold : order.filter (fun j => Live (eraseAt t i) j) = order.filter (· ≠ i) := by
    apply List.filter_congr
    intro j hj
    simp only [live_eraseAt, (h.mem_iff j).mp hj, true_and, ne_eq]
  have hnew : (List.finRange SIZE).filter (fun j => Live (eraseAt t i) j ∧ ¬ Live t j) = [] := by
    rw [List.filter_eq_nil_iff]
    intro j _
    simp only [live_eraseAt, decide_eq_true_eq]
    tauto
  unfold UndeleteOrder.follow
  rw [hold, hnew, List.append_nil]

theorem Lists.follow_appendAt (h : Lists order t) (hfree : ¬ Live t i)
    {hroom : t.hashSize < SIZE} {item : DataItem} (hkey : item.key ≠ -1) :
    UndeleteOrder.follow t (appendAt t hroom i item) order = order ++ [i] := by
  have hold : order.filter (fun j => Live (appendAt t hroom i item) j) = order := by
    apply List.filter_eq_self.mpr
    intro j hj
    rw [decide_eq_true_iff, live_appendAt hkey]
    exact Or.inr ((h.mem_iff j).mp hj)
  have hnew : (List.finRange SIZE).filter
      (fun j => Live (appendAt t hroom i item) j ∧ ¬ Live t j) = [i] := by
    have hiff : ∀ j ∈ List.finRange SIZE,
        decide (Live (appendAt t hroom i item) j ∧ ¬ Live t j) = (j == i) := by
      intro j _
      rw [Bool.eq_iff_iff, decide_eq_true_iff, beq_iff_eq, live_appendAt hkey]
      constructor
      · tauto
      · intro hj
        subst hj
        exact ⟨Or.inl rfl, hfree⟩
    rw [List.filter_congr hiff, List.filter_beq,
      List.count_eq_one_of_mem (List.nodup_finRange SIZE) (List.mem_finRange i)]
    rfl
  unfold UndeleteOrder.follow
  rw [hold, hnew]

/-- The slots filled before and after a live one. -/
theorem Lists.split (h : Lists order t) (hlive : Live t i) :
    ∃ older newer, order = older ++ i :: newer ∧ order.filter (· ≠ i) = older ++ newer ∧
      order.takeWhile (· ≠ i) = older ∧ (order.dropWhile (· ≠ i)).tail = newer := by
  obtain ⟨older, newer, rfl⟩ := List.append_of_mem ((h.mem_iff i).mpr hlive)
  have hdisjoint := List.nodup_append.mp h.nodup
  have hold : ∀ j ∈ older, decide (j ≠ i) = true := by
    intro j hj
    exact decide_eq_true (hdisjoint.2.2 j hj i List.mem_cons_self)
  have hnew : ∀ j ∈ newer, decide (j ≠ i) = true := by
    intro j hj
    have hne := (List.nodup_cons.mp hdisjoint.2.1).1
    exact decide_eq_true fun he => hne (he ▸ hj)
  refine ⟨older, newer, rfl, ?_, ?_, ?_⟩
  · rw [List.filter_append, List.filter_eq_self.mpr hold, List.filter_cons_of_neg (by simp),
      List.filter_eq_self.mpr hnew]
  · rw [List.takeWhile_append_of_pos hold, List.takeWhile_cons_of_neg (by simp), List.append_nil]
  · rw [List.dropWhile_append_of_pos hold, List.dropWhile_cons_of_neg (by simp), List.tail_cons]

/-! ## What the writes do to the array -/

/-- The array lists the keys of the slots. -/
def Ordered (order : List (Fin SIZE)) (t : Table SIZE) : Prop :=
  inodes t = order.map (keyAt t)

theorem keyAt_eraseAt {j : Fin SIZE} (hne : j ≠ i) : keyAt (eraseAt t i) j = keyAt t j := by
  unfold keyAt eraseAt
  rw [get_set, if_neg (Ne.symm hne)]

theorem keyAt_appendAt {hroom : t.hashSize < SIZE} {item : DataItem} {j : Fin SIZE} :
    keyAt (appendAt t hroom i item) j = if i = j then item.key else keyAt t j := by
  unfold keyAt appendAt storeAt
  simp only [get_set]
  split_ifs <;> rfl

theorem map_keyAt_eraseAt {l : List (Fin SIZE)} (hnot : i ∉ l) :
    l.map (keyAt (eraseAt t i)) = l.map (keyAt t) := by
  apply List.map_congr_left
  intro j hj
  exact keyAt_eraseAt fun he => hnot (he ▸ hj)

theorem inodes_eraseAt (hle : t.hashSize ≤ SIZE) :
    inodes (eraseAt t i) = (inodes t).dropLast := by
  unfold inodes
  rw [List.dropLast_eq_take, List.take_take, List.length_take, Vector.length_toList,
    Nat.min_eq_left hle]
  have hmin : min (t.hashSize - 1) t.hashSize = t.hashSize - 1 := by omega
  rw [hmin]
  rfl

theorem dropLast_eq_iff {A : Type*} {k : A} {front back : List A} :
    (front ++ k :: back).dropLast = front ++ back ↔ ∀ x ∈ back, x = k := by
  rw [List.dropLast_append_of_ne_nil (List.cons_ne_nil k back), List.append_cancel_left_eq]
  induction back generalizing k with
  | nil => simp
  | cons x back ih =>
      rw [List.dropLast_cons_of_ne_nil (List.cons_ne_nil x back), List.cons.injEq, ih,
        List.forall_mem_cons]
      constructor
      · intro h
        exact ⟨h.1.symm, fun y hy => (h.2 y hy).trans h.1.symm⟩
      · intro h
        exact ⟨h.1.symm, fun y hy => (h.2 y hy).trans h.1.symm⟩

theorem tail_eq_iff {A : Type*} {k : A} {front back : List A} :
    (front ++ k :: back).tail = front ++ back ↔ ∀ x ∈ front, x = k := by
  cases front with
  | nil => simp
  | cons x front =>
      rw [List.cons_append, List.tail_cons]
      induction front generalizing x with
      | nil =>
          simp only [List.nil_append, List.cons_append, List.cons.injEq, and_true,
            List.mem_singleton, forall_eq]
          exact eq_comm
      | cons y front ih =>
          rw [List.cons_append, List.cons_append, List.cons.injEq, ih]
          simp only [List.forall_mem_cons]
          constructor
          · intro h
            exact ⟨h.1.symm.trans h.2.1, h.2⟩
          · intro h
            exact ⟨h.2.1.trans h.1.symm, h.2⟩

/-! ## One call -/

theorem ordered_remove_iff (h : Lists order t) (ho : Ordered order t) (hle : t.hashSize ≤ SIZE)
    (hlive : Live t i) :
    Ordered (order.filter (· ≠ i)) (eraseAt t i) ↔
      ∀ j ∈ (order.dropWhile (· ≠ i)).tail, keyAt t j = keyAt t i := by
  obtain ⟨older, newer, horder, hrest, _, hnewer⟩ := h.split hlive
  have hnot : i ∉ older ++ newer := by
    rw [← hrest]
    simp
  unfold Ordered at ho ⊢
  rw [inodes_eraseAt hle, ho, hrest, hnewer, map_keyAt_eraseAt hnot, horder, List.map_append,
    List.map_cons, List.map_append, dropLast_eq_iff, List.forall_mem_map]

/-- An eviction, after the array was shifted. -/
theorem ordered_evict_iff (h : Lists order t) (ho : Ordered order t) (hlive : Live t i)
    {t' : Table SIZE} (hkeys : keyAt t' = keyAt (eraseAt t i))
    (hinodes : inodes t' = (inodes t).tail) :
    Ordered (order.filter (· ≠ i)) t' ↔
      ∀ j ∈ order.takeWhile (· ≠ i), keyAt t j = keyAt t i := by
  obtain ⟨older, newer, horder, hrest, holder, _⟩ := h.split hlive
  have hnot : i ∉ older ++ newer := by
    rw [← hrest]
    simp
  unfold Ordered at ho ⊢
  rw [hinodes, hkeys, ho, hrest, holder, map_keyAt_eraseAt hnot, horder, List.map_append,
    List.map_cons, List.map_append, tail_eq_iff, List.forall_mem_map]

theorem ordered_append_iff (h : Lists order t) (hfree : ¬ Live t i) (hroom : t.hashSize < SIZE)
    (item : DataItem) :
    Ordered (order ++ [i]) (appendAt t hroom i item) ↔ Ordered order t := by
  have hnot : i ∉ order := fun hi => hfree ((h.mem_iff i).mp hi)
  have hold : order.map (keyAt (appendAt t hroom i item)) = order.map (keyAt t) := by
    apply List.map_congr_left
    intro j hj
    have hne : i ≠ j := by
      intro he
      exact hnot (he ▸ hj)
    rw [keyAt_appendAt, if_neg hne]
  have hnew : keyAt (appendAt t hroom i item) i = item.key := by
    rw [keyAt_appendAt, if_pos rfl]
  have harray : inodes (appendAt t hroom i item) = inodes t ++ [item.key] :=
    inodes_set hroom item.key
  unfold Ordered
  rw [harray, List.map_append, hold, List.map_singleton, hnew, List.append_cancel_right_eq]

theorem met_of_found {key : ℤ} {item : DataItem}
    (h : searchLoop t.hashArray key SIZE (hashCode SIZE key) = .ok (some ((i : ℕ), item))) :
    met t key = some i := by
  unfold met
  rw [h]
  simp

theorem keyAt_of_live {item : DataItem} (h : cells t.hashArray i = .live item) :
    keyAt t i = item.key := by
  unfold keyAt
  rw [(cellOf_eq_live.mp h).1]

theorem inodes_shift {a : Vector ℤ SIZE} (hsize : 1 ≤ t.hashSize) (hle : t.hashSize ≤ SIZE)
    (hshift : shiftLoop t.inodeArray (t.hashSize - 1) 0 = .ok a) (i : Fin SIZE) :
    inodes (eraseAt { t with inodeArray := a } i) = (inodes t).tail := by
  obtain ⟨b, hb, htake⟩ := shiftLoop_take t.inodeArray (m := t.hashSize - 1) (by omega)
  rw [hshift] at hb
  cases hb
  rw [Nat.sub_add_cancel hsize] at htake
  exact htake

theorem head_inodes {key : ℤ} (hsize : 1 ≤ t.hashSize) (hread : readAt t.inodeArray 0 = .ok key) :
    (inodes t).head? = some key := by
  obtain ⟨j, hj, hget⟩ := readAt_eq_ok.mp hread
  have hzero : (j : ℕ) = 0 := by omega
  have hlist := getElem?_toList t.inodeArray j
  unfold inodes
  rw [List.head?_take, if_neg (by omega), List.head?_eq_getElem?, ← hzero, hlist, hget]

section Calls
variable [NeZero SIZE]

theorem evict_iff (hs : Sound t) (h : Lists order t) (ho : Ordered order t) {fuel : ℕ}
    {out : Outcome SIZE} (hr : deleteFromHash fuel t = .ok out) :
    Ordered (follow t out.table order) out.table ↔ EvictsOldest order t := by
  have hle := hs.wellFormed.size_le
  rcases deleteFromHash_cases hs hr with
    ⟨hzero, htable⟩ | ⟨a, i, item, hsize, hshift, hread, hsearch, hlive, rfl⟩
  · have hempty : inodes t = [] := by
      unfold inodes
      rw [hzero, List.take_zero]
    rw [htable, h.follow_self]
    apply iff_of_true ho
    intro key hkey
    rw [hempty] at hkey
    cases hkey
  · have hfollow : follow t (eraseAt { t with inodeArray := a } i) order =
        order.filter (· ≠ i) := h.follow_eraseAt i
    have hkeys : keyAt (eraseAt { t with inodeArray := a } i) = keyAt (eraseAt t i) := rfl
    have hiff := ordered_evict_iff h ho (live_iff.mpr ⟨item, hlive⟩) hkeys
      (inodes_shift hsize hle hshift i)
    rw [keyAt_of_live hlive] at hiff
    unfold EvictsOldest
    simp only [head_inodes hsize hread, Option.mem_some_iff, forall_eq', met_of_found hsearch]
    rw [hfollow]
    exact hiff

theorem remove_iff (hs : Sound t) (h : Lists order t) (ho : Ordered order t) {fuel : ℕ}
    {keyDel : ℤ} (hkey : 0 ≤ keyDel) {out : Outcome SIZE}
    (hr : deleteFromHashTable fuel keyDel t = .ok out) :
    Ordered (follow t out.table order) out.table ↔ RemovesYoungest order t keyDel := by
  unfold RemovesYoungest
  rcases deleteFromHashTable_cases hs.wellFormed hkey hr with
    ⟨hsearch, htable, _⟩ | ⟨i, item, hsearch, hlive, rfl, rfl⟩
  · have hmet : met t keyDel = none := by
      unfold met
      rw [hsearch]
    rw [htable, h.follow_self, hmet]
    apply iff_of_true ho
    intro i hi
    cases hi
  · have hiff := ordered_remove_iff h ho hs.wellFormed.size_le (live_iff.mpr ⟨item, hlive⟩)
    rw [keyAt_of_live hlive] at hiff
    simp only [met_of_found hsearch, Option.mem_some_iff, forall_eq']
    rw [h.follow_eraseAt]
    exact hiff

/-- An eviction that returns needs no more than `SIZE` passes. -/
theorem evict_within (hs : Sound t) {fuel : ℕ} {out : Outcome SIZE}
    (hr : deleteFromHash fuel t = .ok out) : deleteFromHash SIZE t = .ok out := by
  have hreturns : ∃ out', deleteFromHash SIZE t = .ok out' := by
    rcases deleteFromHash_cases hs hr with
      ⟨hzero, _⟩ | ⟨a, i, item, hsize, hshift, hread, _, hlive, _⟩
    · have hnot : ¬ 1 ≤ t.hashSize := by omega
      unfold deleteFromHash
      rw [if_neg hnot]
      exact ⟨_, rfl⟩
    · have hwell : WellFormed { t with inodeArray := a } :=
        ⟨hs.wellFormed.chained, hs.wellFormed.size, hs.wellFormed.nonneg⟩
      have hentry : item ∈ entries { t with inodeArray := a } := mem_contents.mpr ⟨i, hlive⟩
      obtain ⟨t', item', hdelete, _⟩ :=
        deleteFromHashTable_found hwell (hwell.nonneg item hentry) ⟨item, hentry, rfl⟩
      unfold deleteFromHash
      simp only [if_pos hsize, hread, ok_bind, hshift, hdelete]
      exact ⟨_, rfl⟩
  obtain ⟨out', hout⟩ := hreturns
  have hr' : Returns .deleteFromHash t out := ⟨fuel, hr⟩
  have hunique : out = out' := hr'.unique ⟨SIZE, hout⟩
  rw [hout, hunique]

theorem insert_iff (hs : Sound t) (h : Lists order t) (ho : Ordered order t) {fuel : ℕ}
    {key : ℤ} (hkey : 0 ≤ key) {data : List UInt8} {out : Outcome SIZE}
    (hr : insertToHash fuel key data t = .ok out) :
    Ordered (follow (midway t (.insertToHash key data)) out.table
      (follow t (midway t (.insertToHash key data)) order)) out.table ↔
        (SIZE ≤ t.hashSize → EvictsOldest order t) := by
  have hne : key ≠ -1 := by omega
  obtain ⟨mid, hroom, d, hmid, _, hfree, _, htable, _⟩ := insertToHash_cases hs hkey hr
  have hmidway : midway t (.insertToHash key data) = mid := by
    unfold midway
    rcases hmid with ⟨hlt, rfl⟩ | ⟨hfull, evicted, hevict, rfl⟩
    · rw [if_pos hlt]
    · rw [if_neg (by omega), evict_within hs hevict]
  have hmidlists := h.follow mid
  rw [hmidway, htable, hmidlists.follow_appendAt hfree hne, ordered_append_iff hmidlists hfree]
  rcases hmid with ⟨hlt, rfl⟩ | ⟨hfull, evicted, hevict, rfl⟩
  · rw [h.follow_self]
    apply iff_of_true ho
    intro hge
    omega
  · rw [evict_iff hs h ho hevict]
    simp [hfull]

end Calls

/-! ## Over whole runs -/

/-- The array lists the live slots in the order of their insertion, and an insertion
into a full table evicts an entry with the first key of the array. -/
structure InStep (order : List (Fin SIZE)) (t : Table SIZE) : Prop where
  live : Lists order t
  inodes : inodes t = order.map (keyAt t)
  eviction : t.hashSize = SIZE → ∀ key data, 0 ≤ key → ∃ item ∈ entries t, ∃ out,
    (UndeleteFifo.inodes t).head? = some item.key ∧ Returns (.insertToHash key data) t out ∧
    out.log = [.printfItem "File %d deleted: %s\n" item.key item.data]

theorem current_eq {history : List (Call SIZE)} (hr : Run (system SIZE) history t) :
    current history = t := by
  cases hr with
  | init => rfl
  | call _ _ => rfl

theorem lists_initial : Lists [] (Table.initial SIZE) := by
  constructor
  · exact List.nodup_nil
  · intro i
    have hkey : keyAt (Table.initial SIZE) i = -1 := by
      unfold keyAt Table.initial
      rewrite [get_replicate]
      rfl
    rw [live_iff_keyAt]
    exact iff_of_false List.not_mem_nil (not_not_intro hkey)

theorem lists_slots {history : List (Call SIZE)} (hr : Run (system SIZE) history t) :
    Lists (slots history) t := by
  have hinit : Lists (slots []) (system SIZE).init := lists_initial
  refine hr.history_invariant (I := fun history t => Lists (slots history) t) hinit ?_
  intro history s call answer t' _ ih _
  exact (ih.follow _).follow t'

variable [NeZero SIZE]

/-- Slots that list the table in order make it a queue of keys. -/
theorem queue_of_ordered (hs : Sound t) (h : Lists order t) (ho : Ordered order t) :
    UndeleteFifo.InStep (inodes t) t := by
  have hslots : (Finset.univ.filter (Live t)).val = order := by
    apply Multiset.Nodup.ext (Finset.nodup _) (Multiset.coe_nodup.mpr h.nodup) |>.mpr
    intro i
    simp [h.mem_iff]
  constructor
  · exact hs.wellFormed
  · rfl
  · rw [entries_map_key, hslots, ho, Multiset.map_coe]

theorem inStep_of_ordered (hs : Sound t) (h : Lists order t) (ho : Ordered order t) :
    InStep order t := by
  have hqueue := queue_of_ordered hs h ho
  constructor
  · exact h
  · exact ho
  · intro hfull key data hkey
    have hpos : 0 < SIZE := Nat.pos_of_neZero SIZE
    have hlength := hqueue.length
    cases hq : inodes t with
    | nil =>
        rw [hq, List.length_nil] at hlength
        omega
    | cons oldest rest =>
        rw [hq] at hqueue
        obtain ⟨item, hentry, fuel, out, hout, _, holdest, hlog⟩ :=
          hqueue.insert_full hfull hkey data
        exact ⟨item, hentry, out, congrArg some holdest.symm, ⟨fuel, hout⟩, hlog⟩

/-- One call keeps the array in step exactly when it evicts or removes in order. -/
theorem call_iff (hs : Sound t) (h : Lists order t) (ho : Ordered order t) {call : Request}
    (hcall : KeyNonneg call) {out : Outcome SIZE} (hr : Returns call t out) :
    Ordered (follow (midway t call) out.table (follow t (midway t call) order)) out.table ↔
      KeepsOrder order t call := by
  obtain ⟨fuel, hr⟩ := hr
  cases call with
  | insertToHash key data => exact insert_iff hs h ho hcall hr
  | deleteFromHash =>
      change Ordered (follow t out.table (follow t t order)) out.table ↔ EvictsOldest order t
      rw [h.follow_self]
      exact evict_iff hs h ho hr
  | deleteFromHashTable keyDel =>
      change Ordered (follow t out.table (follow t t order)) out.table ↔
        RemovesYoungest order t keyDel
      rw [h.follow_self]
      exact remove_iff hs h ho hcall hr

/-- In every run, the array follows the insertions in all states exactly when no
call evicts or removes an entry out of order. -/
theorem eviction_order_iff {history : List (Call SIZE)} (hr : Run (system SIZE) history t)
    (hc : ∀ e ∈ history, KeyNonneg e.call) :
    (∀ past, past <:+ history → InStep (slots past) (current past)) ↔
      ∀ past, past <:+ history → CallKeepsOrder past := by
  have hinit : InStep (slots ([] : List (Call SIZE))) (current []) :=
    inStep_of_ordered sound_initial lists_initial rfl
  refine hr.throughout_iff (P := fun past => InStep (slots past) (current past)) hinit trivial ?_ hc
  intro history s call answer t' hr hc ih hs
  have hall := fun e he => hc e (List.mem_cons_of_mem _ he)
  have hsound := sound_run hr hall
  have hlists := lists_slots hr
  have hiff := call_iff hsound hlists (current_eq hr ▸ ih.inodes) (hc _ List.mem_cons_self) hs
  have hlists' := lists_slots (hr.call hs)
  have hsound' := sound_run (hr.call hs) hc
  constructor
  · intro hstep
    exact hiff.mp hstep.inodes
  · intro hkeeps
    exact inStep_of_ordered hsound' hlists' (hiff.mpr hkeeps)

/-- The table is filled and evicts once, and then the youngest key is removed. -/
theorem eviction_order_iff_five :
    ∃ (history : List (Call 3)) (t : Table 3), Run (system 3) history t ∧ history.length = 5 ∧
      ∀ past, past <:+ history → InStep (slots past) (current past) := by
  have hr : ∃ (history : List (Call 3)) (t : Table 3), Run (system 3) history t ∧
      history.length = 5 ∧ (∀ e ∈ history, KeyNonneg e.call) ∧
      ∀ past ∈ history.tails, CallKeepsOrder past :=
    ⟨_, _, replay_run 4
      [.insertToHash 4 [97], .insertToHash 7 [98], .insertToHash 9 [99],
        .insertToHash 10 [100], .deleteFromHashTable 10] .init rfl, by decide, by decide, by decide⟩
  obtain ⟨history, t, hrun, hlength, hcalls, hkeeps⟩ := hr
  refine ⟨history, t, hrun, hlength, (eviction_order_iff hrun hcalls).mpr ?_⟩
  intro past hpast
  exact hkeeps past ((List.mem_tails past history).mpr hpast)

/-- Of two keys the first is removed, and the array still lists it. -/
theorem eviction_order_fails :
    ¬ ∀ (history : List (Call 3)) (t : Table 3), Run (system 3) history t →
      (∀ e ∈ history, KeyNonneg e.call) → InStep (slots history) t := by
  intro h
  have hr : ∃ (history : List (Call 3)) (t : Table 3), Run (system 3) history t ∧
      (∀ e ∈ history, KeyNonneg e.call) ∧ inodes t ≠ (slots history).map (keyAt t) :=
    ⟨_, _, replay_run 4
      [.insertToHash 4 [97], .insertToHash 7 [98], .deleteFromHashTable 4] .init rfl,
      by decide, by decide⟩
  obtain ⟨history, t, hrun, hcalls, hne⟩ := hr
  exact hne (h history t hrun hcalls).inodes

end MinixOS.UndeleteOrder
