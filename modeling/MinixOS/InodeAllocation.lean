import MinixOS.InodeView

/-!
# The allocation and the recovery of an inode

What `alloc_inode` and `retrieve_inode` do to the lists and to the view. The one gives the
slot of a new inode the number of the bit that was allocated, and the other acquires the
inode it was asked for, whichever bit was allocated.
-/
namespace MinixOS.InodeAllocation
open InodeState InodeCopy InodeCache WriteBackCache InodeView

variable {p : Platform} {s : State p} {env : Environment p} {dev : Dev} {numb : UInt32}

/-! ## alloc_inode -/

theorem wipeInode_eq (s : State p) (r : Slot p) :
    ∃ log, wipeInode s r =
      { s.modify r fun rip => eraseZones (dirtied (eraseSize rip)) with log := log } := by
  obtain ⟨log, hdirty⟩ := markDirty_eq (s.modify r eraseSize) r
  refine ⟨log, ?_⟩
  unfold wipeInode
  dsimp only
  rw [hdirty, modify_modify, ← modify_modify s r (fun rip => dirtied (eraseSize rip)) eraseZones]
  rfl

/-- The inode that `alloc_inode` makes, and the state after it. -/
def newInode (env : Environment p) (s : State p) (r : Slot p) (dev : Dev) (bits : UInt16)
    (b : UInt32) : Inode p :=
  eraseZones (dirtied (eraseSize (fillInode env dev bits (loadInode s r NO_DEV b))))

/-- The state before `alloc_inode` acquires a slot. -/
def allotted (s : State p) (dev : Dev) (b : UInt32) : State p :=
  (s.setBit dev b true).setSearch dev b

def allocated (env : Environment p) (s : State p) (r : Slot p) (dev : Dev) (bits : UInt16)
    (b : UInt32) : State p :=
  (wipeInode ((loaded (allotted s dev b) r NO_DEV b).modify r (fillInode env dev bits))
    r).setDirectory dev b []

/-- The state after `alloc_inode` has found no slot. -/
def withdrawn (env : Environment p) (s : State p) (dev : Dev) (b : UInt32) : State p :=
  freeBit env ((allotted s dev b).countMiss.setError .ENFILE) dev b

theorem withdrawn_eq (env : Environment p) (s : State p) (dev : Dev) (b : UInt32) :
    withdrawn env s dev b =
      { s with
        inode_cache_miss := s.inode_cache_miss + 1
        err_code := .ENFILE
        s_isearch := (withdrawn env s dev b).s_isearch
        imap := (withdrawn env s dev b).imap } := by
  unfold withdrawn freeBit allotted State.setBit State.setError State.countMiss State.setSearch
  rfl

theorem linked_allotted (hl : Linked s) (dev : Dev) (b : UInt32) : Linked (allotted s dev b) :=
  hl.of_eq rfl rfl rfl

/-- No slot in a hash list is without a device. -/
theorem searchHash_noDev (hl : Linked s) (b : UInt32) : searchHash s NO_DEV b = none := by
  cases h : searchHash s NO_DEV b with
  | none => rfl
  | some r =>
      obtain ⟨hnum, hdev, _⟩ := slotKey_eq_some.mp (searchHash_some hl h)
      exact absurd hdev (hl.attached r hnum).1

/-- What a call of `alloc_inode` comes to. -/
theorem allocInode_cases (hl : Linked s) (bits : UInt16) {b : UInt32}
    (hanswer : env.alloc_bit (s.imap dev) (s.s_isearch dev) = b) :
    ((p.get_super dev).s_rd_only = true ∧
      allocInode env s dev bits = (none, s.setError .EROFS)) ∨
    ((p.get_super dev).s_rd_only = false ∧ b = NO_BIT ∧
      allocInode env s dev bits =
        (none, (s.setError .ENOSPC).print "Out of i-nodes on device %d/%d\n" [dev.toNat])) ∨
    ((p.get_super dev).s_rd_only = false ∧ b ≠ NO_BIT ∧ s.unused_inodes = [] ∧
      allocInode env s dev bits = (none, withdrawn env s dev b)) ∨
    ((p.get_super dev).s_rd_only = false ∧ b ≠ NO_BIT ∧ ∃ r, s.unused_inodes.head? = some r ∧
      allocInode env s dev bits = (some r, allocated env s r dev bits b)) := by
  have hallotted := linked_allotted hl dev b
  have hsearch := searchHash_noDev hallotted b
  by_cases hro : (p.get_super dev).s_rd_only = true
  · left
    exact ⟨hro, if_pos hro⟩
  · have hrw : (p.get_super dev).s_rd_only = false := Bool.eq_false_iff.mpr hro
    right
    by_cases hb : b = NO_BIT
    · left
      refine ⟨hrw, hb, (if_neg hro).trans ?_⟩
      rw [hanswer, if_pos hb, if_pos hb]
    · right
      cases hu : s.unused_inodes with
      | nil =>
          have hget : getInode env (allotted s dev b) NO_DEV b =
              (none, (allotted s dev b).countMiss.setError .ENFILE) := getInode_full hsearch hu
          left
          refine ⟨hrw, hb, rfl, ?_⟩
          unfold allotted at hget
          unfold allocInode allocBit
          simp only [if_neg hro, hanswer, if_neg hb, hget]
          rfl
      | cons r rest =>
          have hget : getInode env (allotted s dev b) NO_DEV b =
              (some r, loaded (allotted s dev b) r NO_DEV b) :=
            getInode_miss hsearch hu (hallotted.loose r)
          right
          refine ⟨hrw, hb, r, rfl, ?_⟩
          unfold allotted at hget
          unfold allocInode allocBit
          simp only [if_neg hro, hanswer, if_neg hb, hget]
          rfl

/-! ## The new inode -/

variable {r : Slot p} {bits : UInt16} {b : UInt32}

/-- It has the number of the bit, one user and no link, and is marked. -/
theorem newInode_fields (env : Environment p) (s : State p) (r : Slot p) (bits : UInt16)
    (b : UInt32) (hro : (p.get_super dev).s_rd_only = false) :
    (newInode env s r dev bits b).i_dev = dev ∧ (newInode env s r dev bits b).i_num = b ∧
      (newInode env s r dev bits b).i_sp = dev ∧ (newInode env s r dev bits b).i_count = 1 ∧
      (newInode env s r dev bits b).i_nlinks = NO_LINK ∧
      (newInode env s r dev bits b).i_dirt = .IN_DIRTY ∧
      (newInode env s r dev bits b).i_zone = Vector.replicate _ NO_ZONE := by
  have hdirt : (newInode env s r dev bits b).i_dirt = .IN_DIRTY := if_neg (Bool.eq_false_iff.mp hro)
  have hlinks := loadInode_links s r NO_DEV b
  exact ⟨rfl, hlinks.2.1, rfl, hlinks.2.2.1, rfl, hdirt, rfl⟩

theorem allocated_eq (env : Environment p) (s : State p) (r : Slot p) (dev : Dev) (bits : UInt16)
    (b : UInt32) :
    ∃ log, allocated env s r dev bits b =
      { (loaded (allotted s dev b) r NO_DEV b) with
        inode := Function.update s.inode r (newInode env s r dev bits b)
        directories := (s.setDirectory dev b []).directories
        log := log } := by
  obtain ⟨log, hwipe⟩ :=
    wipeInode_eq ((loaded (allotted s dev b) r NO_DEV b).modify r (fillInode env dev bits)) r
  refine ⟨log, ?_⟩
  have hinode : ((loaded (allotted s dev b) r NO_DEV b).modify r fun rip =>
      eraseZones (dirtied (eraseSize (fillInode env dev bits rip)))).inode =
      Function.update s.inode r (newInode env s r dev bits b) := by
    funext q
    rw [inode_modify, loaded_inode, loaded_inode, Function.update_apply, if_pos rfl]
    split_ifs with hq
    · rfl
    · rfl
  unfold allocated
  rw [hwipe, modify_modify]
  exact congrArg (fun f => { loaded (allotted s dev b) r NO_DEV b with
    inode := f, directories := (s.setDirectory dev b []).directories, log := log }) hinode

theorem allocated_inode (env : Environment p) (s : State p) (r q : Slot p) (dev : Dev)
    (bits : UInt16) (b : UInt32) :
    (allocated env s r dev bits b).inode q =
      if q = r then newInode env s r dev bits b else s.inode q := by
  obtain ⟨log, heq⟩ := allocated_eq env s r dev bits b
  rw [heq]
  exact Function.update_apply s.inode r (newInode env s r dev bits b) q

theorem linked_allocated (hl : Linked s) (env : Environment p) (r : Slot p) (bits : UInt16)
    (hro : (p.get_super dev).s_rd_only = false) (hdev : dev ≠ NO_DEV) (hb : b ≠ NO_ENTRY) :
    Linked (allocated env s r dev bits b) := by
  obtain ⟨hi_dev, hi_num, hi_sp, hi_count, _⟩ := newInode_fields env s r bits b hro
  have hinode : (allocated env s r dev bits b).inode r = newInode env s r dev bits b := by
    rw [allocated_inode, if_pos rfl]
  obtain ⟨log, heq⟩ := allocated_eq env s r dev bits b
  apply hl.take (r := r)
  · rw [heq]
    rfl
  · intro hashi
    rw [hinode, hi_num, heq]
    exact loaded_hash (allotted s dev b) r NO_DEV b hashi
  · intro q hq
    rw [allocated_inode, if_neg hq]
  · rw [hinode, hi_num]
    exact hb
  · rw [hinode, hi_count]
    exact Nat.one_pos
  · rw [hinode, hi_dev, hi_sp]
    exact ⟨hdev, rfl⟩

theorem view_allocated (env : Environment p) (s : State p) (r : Slot p) (bits : UInt16)
    (hro : (p.get_super dev).s_rd_only = false) (hb : b ≠ NO_ENTRY) :
    view (allocated env s r dev bits b) =
      (view s).occupy r (dev, b) (encode dev (newInode env s r dev bits b)) := by
  obtain ⟨hi_dev, hi_num, _⟩ := newInode_fields env s r bits b hro
  have hinode : (allocated env s r dev bits b).inode r = newInode env s r dev bits b := by
    rw [allocated_inode, if_pos rfl]
  have hother : ∀ q, q ≠ r → (allocated env s r dev bits b).inode q = s.inode q := by
    intro q hq
    rw [allocated_inode, if_neg hq]
  have hblocks : (allocated env s r dev bits b).blocks = s.blocks := by
    obtain ⟨log, heq⟩ := allocated_eq env s r dev bits b
    rw [heq]
    rfl
  have hkey : slotKey ((allocated env s r dev bits b).inode r) = some (dev, b) := by
    rw [hinode, slotKey_eq_some, hi_num]
    exact ⟨hb, hi_dev, rfl⟩
  rw [view_occupy hother hblocks hkey, hinode, hi_dev]

/-! ## retrieve_inode -/

/-- The state after `retrieve_inode` has allocated a bit. -/
def claimed (env : Environment p) (s : State p) (dev : Dev) (inumb : UInt32) : State p :=
  (allocBit env s dev inumb).2

/-- At most one bit is set. -/
theorem claimed_eq (env : Environment p) (s : State p) (dev : Dev) (inumb : UInt32) :
    claimed env s dev inumb = { s with imap := (claimed env s dev inumb).imap } := by
  unfold claimed allocBit
  dsimp only
  split_ifs
  · rfl
  · rfl

theorem linked_claimed (hl : Linked s) (env : Environment p) (dev : Dev) (inumb : UInt32) :
    Linked (claimed env s dev inumb) := by
  rw [claimed_eq]
  exact hl.of_eq rfl rfl rfl

theorem view_claimed (env : Environment p) (s : State p) (dev : Dev) (inumb : UInt32) :
    view (claimed env s dev inumb) = view s := by
  rw [claimed_eq]
  rfl

theorem printZones_some (s : State p) (r : Slot p) :
    ∃ log, printZones s (some r) = .ok { s with log := log } := by
  have hfold : ∀ (l : List (Fin p.V2_NR_TZONES)) (t : State p),
      t.inode = s.inode → ∃ log, l.foldl (fun s i =>
        s.print "zone[%d] = %d" [i.val, ((s.inode r).i_zone.get i).toNat]) t =
          { t with log := log } := by
    intro l
    induction l with
    | nil => exact fun t _ => ⟨t.log, rfl⟩
    | cons i l ih =>
        intro t ht
        obtain ⟨log, hlog⟩ := ih (t.print "zone[%d] = %d" [i.val, ((t.inode r).i_zone.get i).toNat]) ht
        exact ⟨log, hlog⟩
  obtain ⟨log, hlog⟩ := hfold (List.finRange p.V2_NR_TZONES) s rfl
  exact ⟨log, congrArg Except.ok hlog⟩

/-- It answers with the slot that `get_inode` acquires. -/
theorem retrieveInode_some {t : State p}
    (h : getInode env (claimed env s dev numb) dev numb = (some r, t)) :
    ∃ log, retrieveInode env s dev numb = .ok (some r, { t with log := log }) := by
  obtain ⟨log, hprint⟩ := printZones_some t r
  refine ⟨log, ?_⟩
  unfold retrieveInode
  unfold claimed at h
  simp only [h]
  change (printZones t (some r) >>= fun s => pure (some r, s)) = _
  rw [hprint]
  rfl

theorem retrieveInode_none {t : State p}
    (h : getInode env (claimed env s dev numb) dev numb = (none, t)) :
    retrieveInode env s dev numb =
      if p.V2_NR_TZONES = 0 then .ok (none, freeBit env t dev numb) else .error .nullPointer := by
  unfold retrieveInode
  unfold claimed at h
  simp only [h]
  change (printZones (freeBit env t dev numb) none >>= fun s => pure (none, s)) = _
  unfold printZones
  split_ifs
  · rfl
  · rfl

end MinixOS.InodeAllocation
