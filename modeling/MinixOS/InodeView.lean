import MinixOS.InodeCache
import MinixOS.WriteBackCache

/-!
# The inode table as a cache

The inode table is a write-back cache of the records on disk. This file holds the view
of it as such, the invariant of its lists, and what `get_inode` does to both.
-/
namespace MinixOS.InodeView
open InodeState InodeCopy InodeCache WriteBackCache

variable {p : Platform}

/-! ## The view -/

/-- Device and number of the inode, unless the slot is empty. -/
def slotKey (rip : Inode p) : Option (Dev × UInt32) :=
  if rip.i_num = NO_ENTRY then none else some (rip.i_dev, rip.i_num)

def view (s : State p) : View (Slot p) (Dev × UInt32) (Record p) :=
  { key := fun r => slotKey (s.inode r)
    value := fun r => encode (s.inode r).i_dev (s.inode r)
    store := fun k => record s k.1 k.2 }

@[simp] theorem view_key (s : State p) (r : Slot p) : (view s).key r = slotKey (s.inode r) := rfl

@[simp] theorem view_value (s : State p) (r : Slot p) :
    (view s).value r = encode (s.inode r).i_dev (s.inode r) := rfl

@[simp] theorem view_store (s : State p) (k : Dev × UInt32) :
    (view s).store k = record s k.1 k.2 := rfl

theorem slotKey_eq_none {rip : Inode p} : slotKey rip = none ↔ rip.i_num = NO_ENTRY := by
  unfold slotKey
  split_ifs with h
  · simp [h]
  · simp [h]

theorem slotKey_eq_some {rip : Inode p} {dev : Dev} {numb : UInt32} :
    slotKey rip = some (dev, numb) ↔
      rip.i_num ≠ NO_ENTRY ∧ rip.i_dev = dev ∧ rip.i_num = numb := by
  unfold slotKey
  split_ifs with h
  · simp [h]
  · simp [h]

/-! ## The lists -/

/-- The hash lists hold the slots with a number, each in the list for its number. The free list
holds the slots that nobody uses, and an inode that is not used any more stays
hashed there until its slot is taken. -/
structure Linked (s : State p) : Prop where
  hashed : ∀ hashi r, r ∈ s.hash_inodes hashi ↔
    (s.inode r).i_num ≠ NO_ENTRY ∧ hashi = hashIndex p (s.inode r).i_num
  hash_nodup : ∀ hashi, (s.hash_inodes hashi).Nodup
  unused_nodup : s.unused_inodes.Nodup
  busy : ∀ r, r ∉ s.unused_inodes → (s.inode r).i_num ≠ NO_ENTRY ∧ 0 < (s.inode r).i_count
  idle : ∀ r ∈ s.unused_inodes, (s.inode r).i_num ≠ NO_ENTRY → (s.inode r).i_count = 0
  attached : ∀ r, (s.inode r).i_num ≠ NO_ENTRY →
    (s.inode r).i_dev ≠ NO_DEV ∧ (s.inode r).i_sp = (s.inode r).i_dev

/-- What the lists depend on. -/
structure SameLinks (a b : Inode p) : Prop where
  i_num : a.i_num = b.i_num
  i_dev : a.i_dev = b.i_dev
  i_sp : a.i_sp = b.i_sp
  i_count : a.i_count = b.i_count

variable {s t : State p}

theorem linked_initInodeCache (s : State p) : Linked (initInodeCache s) := by
  constructor
  · intro hashi r
    constructor
    · exact fun hr => absurd hr List.not_mem_nil
    · exact fun hr => absurd rfl hr.1
  · exact fun _ => List.nodup_nil
  · exact (List.reverse_perm _).nodup_iff.mpr (List.nodup_finRange _)
  · exact fun r hr => absurd (List.mem_reverse.mpr (List.mem_finRange r)) hr
  · exact fun _ _ hr => absurd rfl hr
  · exact fun _ hr => absurd rfl hr

theorem Linked.congr (h : Linked s) (hunused : t.unused_inodes = s.unused_inodes)
    (hhash : t.hash_inodes = s.hash_inodes) (hinode : ∀ r, SameLinks (t.inode r) (s.inode r)) :
    Linked t := by
  constructor
  · intro hashi r
    rw [hhash, (hinode r).i_num]
    exact h.hashed hashi r
  · rw [hhash]
    exact h.hash_nodup
  · rw [hunused]
    exact h.unused_nodup
  · intro r hr
    rw [hunused] at hr
    rw [(hinode r).i_num, (hinode r).i_count]
    exact h.busy r hr
  · intro r hr
    rw [hunused] at hr
    rw [(hinode r).i_num, (hinode r).i_count]
    exact h.idle r hr
  · intro r
    rw [(hinode r).i_num, (hinode r).i_dev, (hinode r).i_sp]
    exact h.attached r

/-- The invariant is about the inodes and the lists only. -/
theorem Linked.of_eq (h : Linked s) (hinode : t.inode = s.inode)
    (hunused : t.unused_inodes = s.unused_inodes) (hhash : t.hash_inodes = s.hash_inodes) :
    Linked t := by
  apply h.congr hunused hhash
  intro r
  rw [hinode]
  exact ⟨rfl, rfl, rfl, rfl⟩

theorem Linked.notMem_unused (h : Linked s) {r : Slot p} (hnum : (s.inode r).i_num ≠ NO_ENTRY)
    (hr : 0 < (s.inode r).i_count) : r ∉ s.unused_inodes := by
  intro hmem
  have hzero := h.idle r hmem hnum
  omega

/-- A slot of the free list is taken and gets a number. -/
theorem Linked.take (h : Linked s) {r : Slot p}
    (hunused : t.unused_inodes = s.unused_inodes.erase r)
    (hhash : ∀ hashi, t.hash_inodes hashi =
      if hashi = hashIndex p (t.inode r).i_num then r :: (s.hash_inodes hashi).erase r
      else (s.hash_inodes hashi).erase r)
    (hother : ∀ q, q ≠ r → t.inode q = s.inode q) (hnum : (t.inode r).i_num ≠ NO_ENTRY)
    (hcount : 0 < (t.inode r).i_count)
    (hattached : (t.inode r).i_dev ≠ NO_DEV ∧ (t.inode r).i_sp = (t.inode r).i_dev) :
    Linked t := by
  have herase : ∀ q hashi, q ∈ (s.hash_inodes hashi).erase r ↔ q ≠ r ∧ q ∈ s.hash_inodes hashi :=
    fun q hashi => (h.hash_nodup hashi).mem_erase_iff
  constructor
  · intro hashi q
    rw [hhash]
    by_cases hq : q = r
    · subst hq
      split_ifs with hindex
      · simp [hindex, hnum]
      · simp [herase, hindex]
    · rw [hother q hq, ← h.hashed hashi q]
      split_ifs
      · simp [herase, hq]
      · simp [herase, hq]
  · intro hashi
    rw [hhash]
    have hnodup := (h.hash_nodup hashi).erase r
    split_ifs
    · exact List.nodup_cons.mpr ⟨fun hmem => ((herase r hashi).mp hmem).1 rfl, hnodup⟩
    · exact hnodup
  · rw [hunused]
    exact h.unused_nodup.erase r
  · intro q hq
    by_cases he : q = r
    · subst he
      exact ⟨hnum, hcount⟩
    · rw [hother q he]
      apply h.busy q
      intro hmem
      rw [hunused] at hq
      exact hq ((List.mem_erase_of_ne he).mpr hmem)
  · intro q hq
    rw [hunused] at hq
    obtain ⟨hne, hmem⟩ := h.unused_nodup.mem_erase_iff.mp hq
    rw [hother q hne]
    exact h.idle q hmem
  · intro q hq
    by_cases he : q = r
    · subst he
      exact hattached
    · rw [hother q he] at hq ⊢
      exact h.attached q hq

/-- A used slot goes to the end of the free list. -/
theorem Linked.keep (h : Linked s) {r : Slot p} (hr : r ∉ s.unused_inodes)
    (hunused : t.unused_inodes = s.unused_inodes ++ [r]) (hhash : t.hash_inodes = s.hash_inodes)
    (hother : ∀ q, q ≠ r → t.inode q = s.inode q) (hnum : (t.inode r).i_num = (s.inode r).i_num)
    (hcount : (t.inode r).i_count = 0)
    (hattached : (t.inode r).i_dev ≠ NO_DEV ∧ (t.inode r).i_sp = (t.inode r).i_dev) :
    Linked t := by
  constructor
  · intro hashi q
    rw [hhash, h.hashed]
    by_cases he : q = r
    · subst he
      rw [hnum]
    · rw [hother q he]
  · rw [hhash]
    exact h.hash_nodup
  · rw [hunused]
    apply List.nodup_append.mpr
    refine ⟨h.unused_nodup, List.pairwise_singleton _ r, ?_⟩
    intro a ha b hb he
    rw [he, List.mem_singleton.mp hb] at ha
    exact hr ha
  · intro q hq
    rw [hunused, List.mem_append, not_or] at hq
    have he : q ≠ r := fun he => hq.2 (List.mem_singleton.mpr he)
    rw [hother q he]
    exact h.busy q hq.1
  · intro q hq
    rw [hunused, List.mem_append] at hq
    by_cases he : q = r
    · subst he
      exact fun _ => hcount
    · have hmem := hq.resolve_right fun hmem => he (List.mem_singleton.mp hmem)
      rw [hother q he]
      exact h.idle q hmem
  · intro q hq
    by_cases he : q = r
    · subst he
      exact hattached
    · rw [hother q he] at hq ⊢
      exact h.attached q hq

/-- A used slot loses its number and goes to the front of the free list. -/
theorem Linked.free (h : Linked s) {r : Slot p} (hr : r ∉ s.unused_inodes)
    (hunused : t.unused_inodes = r :: s.unused_inodes)
    (hhash : ∀ hashi, t.hash_inodes hashi = (s.hash_inodes hashi).erase r)
    (hother : ∀ q, q ≠ r → t.inode q = s.inode q) (hnum : (t.inode r).i_num = NO_ENTRY) :
    Linked t := by
  have herase : ∀ q hashi, q ∈ (s.hash_inodes hashi).erase r ↔ q ≠ r ∧ q ∈ s.hash_inodes hashi :=
    fun q hashi => (h.hash_nodup hashi).mem_erase_iff
  constructor
  · intro hashi q
    rw [hhash, herase]
    by_cases he : q = r
    · subst he
      simp [hnum]
    · rw [hother q he, ← h.hashed hashi q]
      simp [he]
  · intro hashi
    rw [hhash]
    exact (h.hash_nodup hashi).erase r
  · rw [hunused]
    exact List.nodup_cons.mpr ⟨hr, h.unused_nodup⟩
  · intro q hq
    rw [hunused, List.mem_cons, not_or] at hq
    rw [hother q hq.1]
    exact h.busy q hq.2
  · intro q hq
    rw [hunused, List.mem_cons] at hq
    by_cases he : q = r
    · subst he
      exact fun hne => absurd hnum hne
    · rw [hother q he]
      exact h.idle q (hq.resolve_left he)
  · intro q hq
    by_cases he : q = r
    · subst he
      exact absurd hnum hq
    · rw [hother q he] at hq ⊢
      exact h.attached q hq

/-! ## Steps of the view -/

theorem record_congr (h : t.blocks = s.blocks) (dev : Dev) (numb : UInt32) :
    record t dev numb = record s dev numb := by
  unfold record
  rw [h]

/-- Where one slot has changed, only its key and its value have. -/
theorem view_keys {r : Slot p} (hother : ∀ q, q ≠ r → t.inode q = s.inode q) :
    (view t).key = Function.update (view s).key r (slotKey (t.inode r)) := by
  funext q
  rw [Function.update_apply, view_key, view_key]
  split_ifs with hq
  · rw [hq]
  · rw [hother q hq]

theorem view_values {r : Slot p} (hother : ∀ q, q ≠ r → t.inode q = s.inode q) :
    (view t).value =
      Function.update (view s).value r (encode (t.inode r).i_dev (t.inode r)) := by
  funext q
  rw [Function.update_apply, view_value, view_value]
  split_ifs with hq
  · rw [hq]
  · rw [hother q hq]

theorem view_stores (hblocks : t.blocks = s.blocks) : (view t).store = (view s).store :=
  funext fun k => record_congr hblocks k.1 k.2

theorem view_occupy {r : Slot p} {k : Dev × UInt32} (hother : ∀ q, q ≠ r → t.inode q = s.inode q)
    (hblocks : t.blocks = s.blocks) (hkey : slotKey (t.inode r) = some k) :
    view t = (view s).occupy r k (encode (t.inode r).i_dev (t.inode r)) := by
  have hkeys := view_keys hother
  rw [hkey] at hkeys
  unfold View.occupy
  rw [← hkeys, ← view_values hother, ← view_stores hblocks]

theorem view_drop {r : Slot p} (hother : ∀ q, q ≠ r → t.inode q = s.inode q)
    (hblocks : t.blocks = s.blocks) (hkey : slotKey (t.inode r) = none)
    (hvalue : encode (t.inode r).i_dev (t.inode r) = encode (s.inode r).i_dev (s.inode r)) :
    view t = (view s).drop r := by
  have hkeys := view_keys hother
  rw [hkey] at hkeys
  have hvalues := view_values hother
  rw [hvalue, ← view_value, Function.update_eq_self] at hvalues
  unfold View.drop
  rw [← hkeys, ← hvalues, ← view_stores hblocks]

theorem view_congr (hkey : ∀ q, slotKey (t.inode q) = slotKey (s.inode q))
    (hvalue : ∀ q, encode (t.inode q).i_dev (t.inode q) = encode (s.inode q).i_dev (s.inode q))
    (hblocks : t.blocks = s.blocks) : view t = view s := by
  unfold view
  rw [funext hkey, funext hvalue]
  rw [funext fun k : Dev × UInt32 => record_congr hblocks k.1 k.2]

/-- Another inode in a slot is not seen if it has the same name and the same record. -/
theorem view_same {r : Slot p} {rip : Inode p}
    (hinode : ∀ q, t.inode q = if q = r then rip else s.inode q)
    (hkey : slotKey rip = slotKey (s.inode r))
    (hvalue : encode rip.i_dev rip = encode (s.inode r).i_dev (s.inode r))
    (hblocks : t.blocks = s.blocks) : view t = view s := by
  apply view_congr
  · intro q
    rw [hinode]
    split_ifs with hq
    · rw [hq]
      exact hkey
    · rfl
  · intro q
    rw [hinode]
    split_ifs with hq
    · rw [hq]
      exact hvalue
    · rfl
  · exact hblocks

/-- The slot keeps its key. -/
theorem view_assign {r : Slot p} (hother : ∀ q, q ≠ r → t.inode q = s.inode q)
    (hblocks : t.blocks = s.blocks) (hkey : slotKey (t.inode r) = slotKey (s.inode r)) :
    view t = (view s).assign r (encode (t.inode r).i_dev (t.inode r)) := by
  have hkeys := view_keys hother
  rw [hkey, ← view_key, Function.update_eq_self] at hkeys
  unfold View.assign
  rw [← hkeys, ← view_values hother, ← view_stores hblocks]

theorem view_setRecord (hp : InodesPerBlock p) (s : State p) {dev : Dev} {rec : Record p}
    (hrec : rec.On dev) (numb : UInt32) :
    view (setRecord s dev numb rec) =
      { view s with store := Function.update (view s).store (dev, numb) rec } := by
  have hinode : (setRecord s dev numb rec).inode = s.inode := by
    cases rec with
    | v1 dip => rfl
    | v2 dip => rfl
  have hstore : (view (setRecord s dev numb rec)).store =
      Function.update (view s).store (dev, numb) rec := by
    funext k
    rw [Function.update_apply, view_store, view_store]
    split_ifs with hk
    · rw [hk]
      exact record_setRecord_self s hrec numb
    · apply record_setRecord_of_ne hp s hrec
      intro he
      exact hk (Prod.ext he.1 he.2)
  rw [← hstore]
  unfold view
  rw [hinode]

/-! ## The search -/

theorem searchHash_some {dev : Dev} {numb : UInt32} {r : Slot p} (h : Linked s)
    (hr : searchHash s dev numb = some r) : slotKey (s.inode r) = some (dev, numb) := by
  have hmem := List.mem_of_find?_eq_some hr
  have hfound := List.find?_some hr
  rw [decide_eq_true_eq] at hfound
  exact slotKey_eq_some.mpr ⟨((h.hashed _ r).mp hmem).1, hfound.2, hfound.1⟩

theorem searchHash_none {dev : Dev} {numb : UInt32} (h : Linked s)
    (hr : searchHash s dev numb = none) : Absent (view s) (dev, numb) := by
  intro r hkey
  obtain ⟨hnum, hdev, hnumb⟩ := slotKey_eq_some.mp hkey
  have hmem : r ∈ s.hash_inodes (hashIndex p numb) := (h.hashed _ r).mpr ⟨hnum, by rw [hnumb]⟩
  have hnot := List.find?_eq_none.mp hr r hmem
  rw [decide_eq_true_eq] at hnot
  exact hnot ⟨hnumb, hdev⟩

/-! ## get_inode -/

/-- The state after `get_inode` found the inode in this slot. -/
def found (s : State p) (r : Slot p) : State p :=
  (if (s.inode r).i_count = 0 then s.countHit.setUnused (s.unused_inodes.erase r) else s).modify r
    (setCount ((s.inode r).i_count + 1))

/-- The inode with which `get_inode` fills a slot. -/
def loadInode (s : State p) (r : Slot p) (dev : Dev) (numb : UInt32) : Inode p :=
  settle
    (if dev ≠ NO_DEV then
      markClean (decode dev (attach (setNumber dev numb (s.inode r))) (record s dev numb))
    else setNumber dev numb (s.inode r))

/-- The state after `get_inode` filled this slot. -/
def loaded (s : State p) (r : Slot p) (dev : Dev) (numb : UInt32) : State p :=
  addhashInode (((unhashInode s.countMiss r).setUnused (s.unused_inodes.erase r)).modify r
    fun _ => loadInode s r dev numb) r

variable {env : Environment p} {dev : Dev} {numb : UInt32} {r : Slot p}

theorem getInode_hit (h : searchHash s dev numb = some r) :
    getInode env s dev numb = (some r, found s r) := by
  unfold getInode found
  simp only [h]
  split_ifs
  · rfl
  · rfl

theorem getInode_full (h : searchHash s dev numb = none) (hu : s.unused_inodes = []) :
    getInode env s dev numb = (none, s.countMiss.setError .ENFILE) := by
  unfold getInode
  simp only [h, hu]

/-- A slot without a number is in no hash list. -/
def Loose (s : State p) (r : Slot p) : Prop :=
  (s.inode r).i_num = NO_ENTRY → ∀ hashi, r ∉ s.hash_inodes hashi

theorem Linked.loose (h : Linked s) (r : Slot p) : Loose s r := fun hnum hashi hmem =>
  ((h.hashed hashi r).mp hmem).1 hnum

theorem Loose.unhash_eq (h : Loose s r) :
    (if (s.inode r).i_num ≠ NO_ENTRY then unhashInode s r else s) = unhashInode s r := by
  split_ifs with hnum
  · rfl
  · have herase : ∀ hashi, (s.hash_inodes hashi).erase r = s.hash_inodes hashi := fun hashi =>
      List.erase_of_not_mem (h (not_not.mp hnum) hashi)
    unfold unhashInode
    rw [funext herase]

theorem loadSlot_eq (h : Loose s r) : loadSlot env s.countMiss r dev numb = loaded s r dev numb := by
  have hmiss : Loose s.countMiss r := h
  unfold loadSlot loaded
  dsimp only
  rw [hmiss.unhash_eq]
  by_cases hdev : dev = NO_DEV
  · rw [if_neg (not_not.mpr hdev), modify_modify]
    apply congrArg (addhashInode · r)
    apply modify_congr
    unfold loadInode
    rw [if_neg (not_not.mpr hdev)]
    rfl
  · rw [if_pos hdev, rwInode_reading, modify_modify, modify_modify]
    apply congrArg (addhashInode · r)
    apply modify_congr
    unfold loadInode
    rw [if_pos hdev]
    rfl

theorem getInode_miss (h : searchHash s dev numb = none) {rest : List (Slot p)}
    (hu : s.unused_inodes = r :: rest) (hloose : Loose s r) :
    getInode env s dev numb = (some r, loaded s r dev numb) := by
  unfold getInode
  simp only [h, hu]
  rw [loadSlot_eq hloose]

theorem found_unused (s : State p) (r : Slot p) :
    (found s r).unused_inodes =
      if (s.inode r).i_count = 0 then s.unused_inodes.erase r else s.unused_inodes := by
  unfold found
  split_ifs
  · rfl
  · rfl

theorem found_inode (s : State p) (r q : Slot p) :
    (found s r).inode q =
      if q = r then setCount ((s.inode r).i_count + 1) (s.inode r) else s.inode q := by
  unfold found
  rw [inode_modify]
  split_ifs
  · rfl
  · rfl
  · rfl
  · rfl

theorem found_hash (s : State p) (r : Slot p) : (found s r).hash_inodes = s.hash_inodes := by
  unfold found
  split_ifs
  · rfl
  · rfl

theorem Linked.found (h : Linked s) {r : Slot p} (hr : (s.inode r).i_num ≠ NO_ENTRY) :
    Linked (found s r) := by
  have hlinks : ∀ q, ((InodeView.found s r).inode q).i_num = (s.inode q).i_num ∧
      ((InodeView.found s r).inode q).i_dev = (s.inode q).i_dev ∧
      ((InodeView.found s r).inode q).i_sp = (s.inode q).i_sp := by
    intro q
    rw [found_inode]
    split_ifs with hq
    · rw [hq]
      exact ⟨rfl, rfl, rfl⟩
    · exact ⟨rfl, rfl, rfl⟩
  have hunused : ∀ q, q ∈ (InodeView.found s r).unused_inodes ↔ q ≠ r ∧ q ∈ s.unused_inodes := by
    intro q
    rw [found_unused]
    split_ifs with hcount
    · exact h.unused_nodup.mem_erase_iff
    · constructor
      · intro hmem
        refine ⟨?_, hmem⟩
        intro he
        rw [he] at hmem
        exact hcount (h.idle r hmem hr)
      · exact fun hmem => hmem.2
  constructor
  · intro hashi q
    rw [found_hash, (hlinks q).1]
    exact h.hashed hashi q
  · rw [found_hash]
    exact h.hash_nodup
  · rw [found_unused]
    split_ifs
    · exact h.unused_nodup.erase r
    · exact h.unused_nodup
  · intro q hq
    rw [hunused, not_and] at hq
    rw [(hlinks q).1, found_inode]
    split_ifs with he
    · subst he
      exact ⟨hr, Nat.succ_pos _⟩
    · exact h.busy q (hq he)
  · intro q hq
    obtain ⟨hne, hmem⟩ := (hunused q).mp hq
    rw [(hlinks q).1, found_inode, if_neg hne]
    exact h.idle q hmem
  · intro q
    rw [(hlinks q).1, (hlinks q).2.1, (hlinks q).2.2]
    exact h.attached q

theorem view_found (s : State p) (r : Slot p) : view (found s r) = view s := by
  apply view_same (found_inode s r) rfl rfl
  unfold InodeView.found
  split_ifs
  · rfl
  · rfl

theorem loaded_inode (s : State p) (r q : Slot p) (dev : Dev) (numb : UInt32) :
    (loaded s r dev numb).inode q = if q = r then loadInode s r dev numb else s.inode q :=
  Function.update_apply s.inode r (loadInode s r dev numb) q

theorem loadInode_links (s : State p) (r : Slot p) (dev : Dev) (numb : UInt32) :
    (loadInode s r dev numb).i_dev = dev ∧ (loadInode s r dev numb).i_num = numb ∧
      (loadInode s r dev numb).i_count = 1 ∧
      (dev ≠ NO_DEV → (loadInode s r dev numb).i_sp = dev) := by
  unfold loadInode
  by_cases hdev : dev = NO_DEV
  · rw [if_neg (not_not.mpr hdev)]
    exact ⟨rfl, rfl, rfl, fun hne => absurd hdev hne⟩
  · rw [if_pos hdev]
    have hlinks := decode_links dev (attach (setNumber dev numb (s.inode r))) (record s dev numb)
    exact ⟨hlinks.1, hlinks.2.1, hlinks.2.2.2, fun _ => hlinks.2.2.1⟩

/-- In core is what was on disk. -/
theorem encode_loadInode (hp : Conversions p) (s : State p) (r : Slot p) (hdev : dev ≠ NO_DEV) :
    encode dev (loadInode s r dev numb) = record s dev numb := by
  have hdecode := encode_decode hp (record_on s dev numb) (attach (setNumber dev numb (s.inode r)))
  unfold loadInode
  rw [if_pos hdev]
  exact hdecode

theorem loaded_hash (s : State p) (r : Slot p) (dev : Dev) (numb hashi : UInt32) :
    (loaded s r dev numb).hash_inodes hashi =
      if hashi = hashIndex p numb then r :: (s.hash_inodes hashi).erase r
      else (s.hash_inodes hashi).erase r := by
  unfold loaded addhashInode
  simp only [inode_modify_self, (loadInode_links s r dev numb).2.1, Function.update_apply]
  split_ifs with hindex
  · rw [hindex]
    rfl
  · rfl

theorem Linked.loaded (h : Linked s) (r : Slot p) (hdev : dev ≠ NO_DEV) (hnumb : numb ≠ NO_ENTRY) :
    Linked (loaded s r dev numb) := by
  have hinode : (InodeView.loaded s r dev numb).inode r = loadInode s r dev numb := by
    rw [loaded_inode, if_pos rfl]
  obtain ⟨hi_dev, hi_num, hi_count, hi_sp⟩ := loadInode_links s r dev numb
  apply h.take (r := r)
  · rfl
  · intro hashi
    rw [hinode, hi_num]
    exact loaded_hash s r dev numb hashi
  · intro q hq
    rw [loaded_inode, if_neg hq]
  · rw [hinode, hi_num]
    exact hnumb
  · rw [hinode, hi_count]
    exact Nat.one_pos
  · rw [hinode, hi_dev, hi_sp hdev]
    exact ⟨hdev, rfl⟩

theorem view_loaded (hp : Conversions p) (s : State p) (r : Slot p) (hdev : dev ≠ NO_DEV)
    (hnumb : numb ≠ NO_ENTRY) : view (loaded s r dev numb) = (view s).fetch r (dev, numb) := by
  have hinode : (loaded s r dev numb).inode r = loadInode s r dev numb := by
    rw [loaded_inode, if_pos rfl]
  obtain ⟨hi_dev, hi_num, _, _⟩ := loadInode_links s r dev numb
  have hother : ∀ q, q ≠ r → (loaded s r dev numb).inode q = s.inode q := by
    intro q hq
    rw [loaded_inode, if_neg hq]
  have hkey : slotKey ((loaded s r dev numb).inode r) = some (dev, numb) := by
    rw [hinode, slotKey_eq_some, hi_num]
    exact ⟨hnumb, hi_dev, rfl⟩
  rw [view_occupy hother rfl hkey, hinode, hi_dev, encode_loadInode hp s r hdev]
  rfl

/-- What a call of `get_inode` comes to. -/
theorem getInode_cases (hl : Linked s) (env : Environment p) (dev : Dev) (numb : UInt32) :
    (∃ r, slotKey (s.inode r) = some (dev, numb) ∧
      getInode env s dev numb = (some r, found s r)) ∨
    (Absent (view s) (dev, numb) ∧ s.unused_inodes = [] ∧
      getInode env s dev numb = (none, s.countMiss.setError .ENFILE)) ∨
    (Absent (view s) (dev, numb) ∧ ∃ r, s.unused_inodes.head? = some r ∧
      getInode env s dev numb = (some r, loaded s r dev numb)) := by
  cases h : searchHash s dev numb with
  | some r => exact .inl ⟨r, searchHash_some hl h, getInode_hit h⟩
  | none =>
      right
      cases hu : s.unused_inodes with
      | nil => exact .inl ⟨searchHash_none hl h, rfl, getInode_full h hu⟩
      | cons r rest => exact .inr ⟨searchHash_none hl h, r, rfl, getInode_miss h hu (hl.loose r)⟩

end MinixOS.InodeView
