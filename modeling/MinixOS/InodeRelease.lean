import MinixOS.InodeView

/-!
# The release of an inode

What `put_inode` does to the lists and to the view. The last user's call writes the inode if
it is dirty. An inode with links stays in its slot, at the end of the free list. One without
links is written in any case, its bit is cleared, and its slot is free.
-/
namespace MinixOS.InodeRelease
open InodeState InodeCopy InodeCache WriteBackCache InodeView

variable {p : Platform} {s : State p} {r : Slot p} {dev : Dev} {numb : UInt32}

/-! ## Writing -/

/-- Of the state only this slot and the blocks are changed. -/
theorem writing_eq (cur_time : UInt32) (s : State p) (r : Slot p) :
    rwInode cur_time s r .WRITING =
      { s with
        inode := Function.update s.inode r (markClean (stamp cur_time (s.inode r)))
        blocks := (rwInode cur_time s r .WRITING).blocks } := by
  rw [rwInode_writing, setRecord_eq]
  rfl

theorem writing_inode (cur_time : UInt32) (s : State p) (r q : Slot p) :
    (rwInode cur_time s r .WRITING).inode q =
      if q = r then markClean (stamp cur_time (s.inode r)) else s.inode q := by
  rw [writing_eq]
  exact Function.update_apply s.inode r (markClean (stamp cur_time (s.inode r))) q

theorem view_writing (hp : InodesPerBlock p) (cur_time : UInt32) (s : State p) {r : Slot p}
    (hkey : slotKey (s.inode r) = some (dev, numb)) :
    view (rwInode cur_time s r .WRITING) =
      ((view s).assign r (encode dev (stamp cur_time (s.inode r)))).save r (dev, numb) := by
  obtain ⟨_, hdev, hnumb⟩ := slotKey_eq_some.mp hkey
  rw [rwInode_writing, view_setRecord hp _ (encode_on _ _), hdev, hnumb]
  have hstamp : (s.modify r fun rip => markClean (stamp cur_time rip)).inode r =
      markClean (stamp cur_time (s.inode r)) := inode_modify_self s r _
  have hsame : slotKey (markClean (stamp cur_time (s.inode r))) = slotKey (s.inode r) := by
    rw [stamp_fields]
    rfl
  have hassign := view_assign (s := s)
    (t := s.modify r fun rip => markClean (stamp cur_time rip)) (r := r)
    (fun q hq => inode_modify_of_ne s _ hq) rfl (by rw [hstamp, hsame])
  have hi_dev : (markClean (stamp cur_time (s.inode r))).i_dev = dev := by
    rw [stamp_fields]
    exact hdev
  rw [hstamp, hi_dev] at hassign
  rw [hassign]
  unfold View.save
  rw [value_assign, if_pos rfl]
  rfl

/-- The state after a dirty inode was written. -/
def written (env : Environment p) (s : State p) (r : Slot p) : State p :=
  if (s.inode r).i_dirt = .IN_DIRTY then rwInode env.clock_time s r .WRITING else s

/-- The inode after that. -/
def writtenInode (env : Environment p) (rip : Inode p) : Inode p :=
  if rip.i_dirt = .IN_DIRTY then markClean (stamp env.clock_time rip) else rip

theorem written_eq (env : Environment p) (s : State p) (r : Slot p) :
    written env s r =
      { s with
        inode := Function.update s.inode r (writtenInode env (s.inode r))
        blocks := (written env s r).blocks } := by
  unfold written writtenInode
  split_ifs with hdirt
  · exact writing_eq env.clock_time s r
  · rw [Function.update_eq_self]

theorem view_written (hp : InodesPerBlock p) (env : Environment p) (s : State p) {r : Slot p}
    (hkey : slotKey (s.inode r) = some (dev, numb)) :
    view (written env s r) =
      if (s.inode r).i_dirt = .IN_DIRTY then
        ((view s).assign r (encode dev (writtenInode env (s.inode r)))).save r (dev, numb)
      else view s := by
  unfold written writtenInode
  split_ifs with hdirt
  · exact view_writing hp env.clock_time s hkey
  · rfl

/-! ## Putting -/

/-- What `put_inode` needs of an inode is not changed when it is written. -/
theorem writtenInode_fields (env : Environment p) (rip : Inode p) :
    writtenInode env rip =
      { rip with
        i_atime := (writtenInode env rip).i_atime
        i_ctime := (writtenInode env rip).i_ctime
        i_mtime := (writtenInode env rip).i_mtime
        i_update := (writtenInode env rip).i_update
        i_sp := (writtenInode env rip).i_sp
        i_dirt := .IN_CLEAN } := by
  unfold writtenInode
  split_ifs with hdirt
  · rw [stamp_fields]
    rfl
  · have hclean : rip.i_dirt = .IN_CLEAN := by
      cases h : rip.i_dirt with
      | IN_CLEAN => rfl
      | IN_DIRTY => exact absurd h hdirt
    rw [← hclean]

theorem written_inode (env : Environment p) (s : State p) (r q : Slot p) :
    (written env s r).inode q = if q = r then writtenInode env (s.inode r) else s.inode q := by
  rw [written_eq]
  exact Function.update_apply s.inode r (writtenInode env (s.inode r)) q

theorem releaseInode_kept (env : Environment p) {s : State p} {r : Slot p}
    (hlinks : (s.inode r).i_nlinks ≠ NO_LINK) :
    releaseInode env s r = (written env s r).setUnused (s.unused_inodes ++ [r]) := by
  have hinode : ((written env s r).inode r).i_nlinks = (s.inode r).i_nlinks := by
    rw [written_inode, if_pos rfl, writtenInode_fields]
  have hunused : (written env s r).unused_inodes = s.unused_inodes := by
    rw [written_eq]
  unfold releaseInode
  simp only [if_neg hlinks]
  change (if ((written env s r).inode r).i_nlinks = NO_LINK then _ else
    (written env s r).setUnused ((written env s r).unused_inodes ++ [r])) = _
  rw [hinode, if_neg hlinks, hunused]

/-- Only a bit and the place where the search for one starts are changed. -/
theorem freeInode_eq (env : Environment p) (s : State p) (dev : Dev) (inumb : UInt32) :
    freeInode env s dev inumb =
      { s with
        imap := (freeInode env s dev inumb).imap
        s_isearch := (freeInode env s dev inumb).s_isearch } := by
  unfold freeInode
  by_cases hnone : inumb = NO_ENTRY ∨ inumb > (p.get_super dev).s_ninodes
  · rw [if_pos hnone]
  · rw [if_neg hnone]
    dsimp only
    split_ifs
    · rfl
    · rfl

/-- The state in which `put_inode` writes an inode without links. -/
def unlinked (env : Environment p) (s : State p) (r : Slot p) : State p :=
  freeInode env (markDirty s r) (s.inode r).i_dev (s.inode r).i_num

theorem unlinked_inode (env : Environment p) (s : State p) (r q : Slot p) :
    (unlinked env s r).inode q = if q = r then dirtied (s.inode r) else s.inode q := by
  obtain ⟨log, hdirty⟩ := markDirty_eq s r
  unfold unlinked
  rw [freeInode_eq, hdirty]
  exact Function.update_apply s.inode r (dirtied (s.inode r)) q

theorem unlinked_lists (env : Environment p) (s : State p) (r : Slot p) :
    (unlinked env s r).unused_inodes = s.unused_inodes ∧
      (unlinked env s r).hash_inodes = s.hash_inodes ∧ (unlinked env s r).blocks = s.blocks := by
  obtain ⟨log, hdirty⟩ := markDirty_eq s r
  unfold unlinked
  rw [freeInode_eq, hdirty]
  exact ⟨rfl, rfl, rfl⟩

theorem releaseInode_freed (env : Environment p) {s : State p} {r : Slot p}
    (hlinks : (s.inode r).i_nlinks = NO_LINK) :
    releaseInode env s r =
      ((unhashInode (written env (unlinked env s r) r) r).modify r clearNumber).setUnused
        (r :: s.unused_inodes) := by
  have hinode : ((written env (unlinked env s r) r).inode r).i_nlinks = NO_LINK := by
    rw [written_inode, if_pos rfl, writtenInode_fields, unlinked_inode, if_pos rfl]
    exact hlinks
  have hunused : (written env (unlinked env s r) r).unused_inodes = s.unused_inodes := by
    rw [written_eq]
    exact (unlinked_lists env s r).1
  unfold releaseInode
  simp only [if_pos hlinks]
  change (if ((written env (unlinked env s r) r).inode r).i_nlinks = NO_LINK then
    ((unhashInode (written env (unlinked env s r) r) r).modify r clearNumber).setUnused
      (r :: (written env (unlinked env s r) r).unused_inodes) else _) = _
  rw [if_pos hinode, hunused]

def setUse (i_count : ℕ) (i_dirt : Dirt) (rip : Inode p) : Inode p :=
  { rip with i_count := i_count, i_dirt := i_dirt }

theorem stamp_setUse (cur_time : UInt32) (i_count : ℕ) (i_dirt : Dirt) (rip : Inode p) :
    stamp cur_time (setUse i_count i_dirt rip) = setUse i_count i_dirt (stamp cur_time rip) := by
  have hattach : attach (setUse i_count i_dirt rip) = setUse i_count i_dirt (attach rip) := rfl
  have hupdate : (setUse i_count i_dirt rip).i_update = rip.i_update := rfl
  have hsp : (setUse i_count i_dirt (attach rip)).i_sp = (attach rip).i_sp := rfl
  unfold stamp
  rw [hattach, hupdate]
  by_cases h : rip.i_update ≠ Update.none
  · rw [if_pos h, if_pos h]
    unfold updateTimes
    rw [hsp]
    by_cases hro : (p.get_super (attach rip).i_sp).s_rd_only = true
    · rw [if_pos hro, if_pos hro]
    · rw [if_neg hro, if_neg hro]
      rfl
  · rw [if_neg h, if_neg h]

/-- Neither the number of users nor the mark is on disk. -/
theorem encode_stamp_setUse (dev : Dev) (cur_time : UInt32) (i_count : ℕ) (i_dirt : Dirt)
    (rip : Inode p) :
    encode dev (stamp cur_time (setUse i_count i_dirt rip)) = encode dev (stamp cur_time rip) := by
  rw [stamp_setUse]
  rfl

/-- What a written inode leaves on disk. -/
theorem encode_written (env : Environment p) (dev : Dev) {rip : Inode p}
    (h : rip.i_dirt = .IN_DIRTY) :
    encode dev (writtenInode env rip) = encode dev (stamp env.clock_time rip) := by
  unfold writtenInode
  rw [if_pos h]
  rfl

theorem writtenInode_attached (env : Environment p) {rip : Inode p} (h : rip.i_sp = rip.i_dev) :
    (writtenInode env rip).i_sp = rip.i_dev := by
  unfold writtenInode
  split_ifs with hdirt
  · rw [stamp_fields]
    rfl
  · exact h

/-- The state after the last user of this slot has put its inode. -/
def released (env : Environment p) (s : State p) (r : Slot p) : State p :=
  releaseInode env (s.modify r (setCount 0)) r

/-- An inode with links stays in its slot. -/
theorem released_kept (env : Environment p) (hlinks : (s.inode r).i_nlinks ≠ NO_LINK) :
    released env s r =
      (written env (s.modify r (setCount 0)) r).setUnused (s.unused_inodes ++ [r]) := by
  apply releaseInode_kept env
  rw [inode_modify_self]
  exact hlinks

/-- One without links loses its slot. -/
theorem released_freed (env : Environment p) (hlinks : (s.inode r).i_nlinks = NO_LINK) :
    released env s r =
      ((unhashInode (written env (unlinked env (s.modify r (setCount 0)) r) r) r).modify r
        clearNumber).setUnused (r :: s.unused_inodes) := by
  apply releaseInode_freed env
  rw [inode_modify_self]
  exact hlinks

/-- The other slots are left alone. -/
theorem released_other (env : Environment p) (s : State p) {q r : Slot p} (hq : q ≠ r) :
    (released env s r).inode q = s.inode q := by
  by_cases hlinks : (s.inode r).i_nlinks = NO_LINK
  · rw [released_freed env hlinks]
    change ((unhashInode (written env _ r) r).modify r clearNumber).inode q = _
    rw [inode_modify_of_ne _ _ hq]
    change (written env _ r).inode q = _
    rw [written_inode, if_neg hq, unlinked_inode, if_neg hq, inode_modify_of_ne _ _ hq]
  · rw [released_kept env hlinks]
    change (written env _ r).inode q = _
    rw [written_inode, if_neg hq, inode_modify_of_ne _ _ hq]

theorem released_kept_inode (env : Environment p) (hlinks : (s.inode r).i_nlinks ≠ NO_LINK) :
    (released env s r).inode r = writtenInode env (setCount 0 (s.inode r)) := by
  rw [released_kept env hlinks]
  change (written env _ r).inode r = _
  rw [written_inode, if_pos rfl, inode_modify_self]

theorem released_freed_inode (env : Environment p) (hlinks : (s.inode r).i_nlinks = NO_LINK) :
    ((released env s r).inode r).i_num = NO_ENTRY := by
  rw [released_freed env hlinks]
  change (((unhashInode (written env _ r) r).modify r clearNumber).inode r).i_num = NO_ENTRY
  rw [inode_modify_self]
  rfl

theorem putInode_cases (env : Environment p) (s : State p) (r : Slot p) :
    ((s.inode r).i_count = 0 ∧ ∃ stop, putInode env s (some r) = .error stop) ∨
    ((s.inode r).i_count = 1 ∧ putInode env s (some r) = .ok (released env s r)) ∨
    (1 < (s.inode r).i_count ∧
      putInode env s (some r) = .ok (s.modify r (setCount ((s.inode r).i_count - 1)))) := by
  have hput : putInode env s (some r) =
      if (s.inode r).i_count < 1 then .error (.panic "put_inode: i_count already below 1: %d")
      else if (s.inode r).i_count - 1 = 0 then
        .ok (releaseInode env (s.modify r (setCount ((s.inode r).i_count - 1))) r)
      else .ok (s.modify r (setCount ((s.inode r).i_count - 1))) := by
    unfold putInode
    simp only [inode_modify_self]
    rfl
  rw [hput]
  rcases Nat.lt_trichotomy (s.inode r).i_count 1 with hlt | heq | hgt
  · left
    rw [if_pos hlt]
    exact ⟨by omega, _, rfl⟩
  · right
    left
    rw [heq]
    exact ⟨rfl, rfl⟩
  · right
    right
    have hnot : ¬ (s.inode r).i_count < 1 := by omega
    have hne : ¬ (s.inode r).i_count - 1 = 0 := by omega
    rw [if_neg hnot, if_neg hne]
    exact ⟨hgt, rfl⟩

theorem notMem_unused_of_count (hl : Linked s) {r : Slot p}
    (hnum : (s.inode r).i_num ≠ NO_ENTRY) (hcount : (s.inode r).i_count = 1) :
    r ∉ s.unused_inodes :=
  hl.notMem_unused hnum (by omega)

theorem linked_released (hl : Linked s) (env : Environment p) {r : Slot p}
    (hnum : (s.inode r).i_num ≠ NO_ENTRY) (hcount : (s.inode r).i_count = 1) :
    Linked (released env s r) := by
  have hr := notMem_unused_of_count hl hnum hcount
  obtain ⟨hdev, hsp⟩ := hl.attached r hnum
  by_cases hlinks : (s.inode r).i_nlinks = NO_LINK
  · have hfreed := released_freed env hlinks
    apply hl.free hr
    · rw [hfreed]
      rfl
    · intro hashi
      rw [hfreed]
      change ((written env _ r).hash_inodes hashi).erase r = _
      rw [written_eq]
      change ((unlinked env _ r).hash_inodes hashi).erase r = _
      rw [(unlinked_lists env _ r).2.1]
      rfl
    · exact fun q hq => released_other env s hq
    · exact released_freed_inode env hlinks
  · have hkept := released_kept env hlinks
    have hinode := released_kept_inode env hlinks
    apply hl.keep hr
    · rw [hkept]
      rfl
    · rw [hkept]
      change (written env _ r).hash_inodes = _
      rw [written_eq]
      rfl
    · exact fun q hq => released_other env s hq
    · rw [hinode, writtenInode_fields]
      rfl
    · rw [hinode, writtenInode_fields]
      rfl
    · have hcounted : (setCount 0 (s.inode r)).i_sp = (setCount 0 (s.inode r)).i_dev := hsp
      have hattached := writtenInode_attached env hcounted
      rw [hinode, hattached, writtenInode_fields]
      exact ⟨hdev, rfl⟩

theorem view_setCount (s : State p) (r : Slot p) (i_count : ℕ) :
    view (s.modify r (setCount i_count)) = view s :=
  view_same (fun q => inode_modify s q r (setCount i_count)) rfl rfl rfl

/-- The view after a slot with the inode `k` was written. -/
def saved (env : Environment p) (s : State p) (r : Slot p) (k : Dev × UInt32) :
    View (Slot p) (Dev × UInt32) (Record p) :=
  ((view s).assign r (encode k.1 (stamp env.clock_time (s.inode r)))).save r k

variable {k : Dev × UInt32}

/-- An inode with links is written if it is dirty. -/
theorem view_released_kept (hp : InodesPerBlock p) (env : Environment p)
    (hkey : slotKey (s.inode r) = some k) (hlinks : (s.inode r).i_nlinks ≠ NO_LINK) :
    view (released env s r) = if (s.inode r).i_dirt = .IN_DIRTY then saved env s r k else view s := by
  have hself : (s.modify r (setCount 0)).inode r = setCount 0 (s.inode r) := inode_modify_self s r _
  have hkey' : slotKey ((s.modify r (setCount 0)).inode r) = some (k.1, k.2) := by
    rw [hself]
    exact hkey
  unfold saved
  rw [released_kept env hlinks]
  change view (written env _ r) = _
  rw [view_written hp env _ hkey', hself, view_setCount]
  split_ifs with hdirt hdirt' hdirt'
  · rw [encode_written env k.1 hdirt]
    exact congrArg (fun x => ((view s).assign r x).save r k)
      (encode_stamp_setUse k.1 env.clock_time 0 (s.inode r).i_dirt (s.inode r))
  · exact absurd hdirt hdirt'
  · exact absurd hdirt' hdirt
  · rfl

theorem view_unlinked (env : Environment p) (s : State p) (r : Slot p) :
    view (unlinked env s r) = view s :=
  view_same (unlinked_inode env s r) rfl rfl (unlinked_lists env s r).2.2

/-- An inode without links is written, unless its device may not be, and loses its slot. -/
theorem view_released_freed (hp : InodesPerBlock p) (env : Environment p)
    (hkey : slotKey (s.inode r) = some k) (hlinks : (s.inode r).i_nlinks = NO_LINK) :
    view (released env s r) =
      (if (dirtied (s.inode r)).i_dirt = .IN_DIRTY then saved env s r k else view s).drop r := by
  have hself : (s.modify r (setCount 0)).inode r = setCount 0 (s.inode r) := inode_modify_self s r _
  have hunlinked : (unlinked env (s.modify r (setCount 0)) r).inode r =
      dirtied (setCount 0 (s.inode r)) := by
    rw [unlinked_inode, if_pos rfl, hself]
  have hkey' : slotKey ((unlinked env (s.modify r (setCount 0)) r).inode r) = some (k.1, k.2) := by
    rw [hunlinked]
    exact hkey
  have hdrop : view (released env s r) =
      (view (written env (unlinked env (s.modify r (setCount 0)) r) r)).drop r := by
    rw [released_freed env hlinks]
    apply view_drop
    · intro q hq
      change ((unhashInode (written env _ r) r).modify r clearNumber).inode q = _
      rw [inode_modify_of_ne _ _ hq]
      rfl
    · rfl
    · change slotKey (((unhashInode (written env _ r) r).modify r clearNumber).inode r) = none
      rw [inode_modify_self]
      rfl
    · change encode (((unhashInode (written env _ r) r).modify r clearNumber).inode r).i_dev
        (((unhashInode (written env _ r) r).modify r clearNumber).inode r) = _
      rw [inode_modify_self]
      rfl
  rw [hdrop, view_written hp env _ hkey', hunlinked, view_unlinked, view_setCount]
  unfold saved
  split_ifs with hdirt hdirt' hdirt'
  · rw [encode_written env k.1 hdirt]
    exact congrArg (fun x => (((view s).assign r x).save r k).drop r)
      (encode_stamp_setUse k.1 env.clock_time 0 (dirtied (s.inode r)).i_dirt (s.inode r))
  · exact absurd hdirt hdirt'
  · exact absurd hdirt' hdirt
  · rfl

end MinixOS.InodeRelease
