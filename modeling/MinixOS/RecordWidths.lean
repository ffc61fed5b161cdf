import MinixOS.RecoverAtomicity

/-!
# What a record can hold

A record of the V1 layout has eight bits for the link count and for the group, and sixteen for
a zone number, where an inode in the table has more. An inode whose members fit is the same in
the table and on disk when it is clean. They fit as long as no new inode has a larger group, and
no link is made to an inode, or taken from it, whose count has come to its end.
-/
namespace MinixOS.RecordWidths
open CheckedExecution SystemRuns InodeState InodeCopy InodeCache WriteBackCache InodeView
  InodeRelease InodeAllocation InodeSystem InodeSlots InodeCoherence LinkCalls LinkCoherence
  LinkSystem RecoverAtomicity

variable {p : Platform} {s t u : State p} {env : Environment p} {dev : Dev} {numb n : UInt32}
  {q r : Slot p} {l : List (Slot p)}

/-! ## Clean inodes -/

/-- The members of the record are the members of the inode. A record of the V1 layout has
one time. -/
def SamePersistent (dev : Dev) (rip : Inode p) : Record p → Prop
  | .v1 dip =>
      let norm := (p.get_super dev).s_native
      p.conv2 norm dip.d1_mode = rip.i_mode ∧ dip.d1_nlinks.toUInt16 = rip.i_nlinks ∧
        p.conv2 norm dip.d1_uid = rip.i_uid ∧ dip.d1_gid.toUInt16 = rip.i_gid ∧
        (p.conv4 norm dip.d1_size).toInt32 = rip.i_size ∧
        p.conv4 norm dip.d1_mtime = rip.i_mtime ∧
        ∀ i : Fin p.V1_NR_TZONES,
          (p.conv2 norm (dip.d1_zone.get i)).toUInt32 = rip.i_zone.get (i.castLE p.zones_le)
  | .v2 dip =>
      let norm := (p.get_super dev).s_native
      p.conv2 norm dip.d2_mode = rip.i_mode ∧ p.conv2 norm dip.d2_nlinks = rip.i_nlinks ∧
        p.conv2 norm dip.d2_uid = rip.i_uid ∧ p.conv2 norm dip.d2_gid = rip.i_gid ∧
        (p.conv4 norm dip.d2_size).toInt32 = rip.i_size ∧
        p.conv4 norm dip.d2_atime = rip.i_atime ∧ p.conv4 norm dip.d2_mtime = rip.i_mtime ∧
        p.conv4 norm dip.d2_ctime = rip.i_ctime ∧
        ∀ i, p.conv4 norm (dip.d2_zone.get i) = rip.i_zone.get i

/-- Each hashed inode that is marked clean, on a device that may be written, is the
same as its copy on disk. -/
def CleanOnDisk (s : State p) : Prop :=
  ∀ r, Hashed s r → (p.get_super (s.inode r).i_dev).s_rd_only = false →
    (s.inode r).i_dirt = .IN_CLEAN →
    SamePersistent (s.inode r).i_dev (s.inode r) (record s (s.inode r).i_dev (s.inode r).i_num)

/-! ## Members that fit -/

/-- The records of the device, which may be written, are of the V1 layout. -/
def Narrow (p : Platform) (dev : Dev) : Prop :=
  (p.get_super dev).s_version = .V1 ∧ (p.get_super dev).s_rd_only = false

/-- The members of an inode that a record of the V1 layout may cut. -/
structure SameWidth (a b : Inode p) : Prop where
  i_dev : a.i_dev = b.i_dev
  i_nlinks : a.i_nlinks = b.i_nlinks
  i_gid : a.i_gid = b.i_gid
  i_zone : a.i_zone = b.i_zone

structure FitsV1 (rip : Inode p) : Prop where
  links : rip.i_nlinks.toNat < 256
  group : rip.i_gid.toNat < 256
  zones : ∀ i : Fin p.V1_NR_TZONES, (rip.i_zone.get (i.castLE p.zones_le)).toNat < 65536

/-- The inodes in the table fit the records of their devices. -/
def Fitting (s : State p) : Prop :=
  ∀ r, (s.inode r).i_num ≠ NO_ENTRY → Narrow p (s.inode r).i_dev → FitsV1 (s.inode r)

theorem SameWidth.refl (a : Inode p) : SameWidth a a := ⟨rfl, rfl, rfl, rfl⟩

theorem FitsV1.congr {a b : Inode p} (h : FitsV1 b) (hab : SameWidth a b) : FitsV1 a := by
  constructor
  · rw [hab.i_nlinks]
    exact h.links
  · rw [hab.i_gid]
    exact h.group
  · rw [hab.i_zone]
    exact h.zones

theorem toUInt8_toUInt16 {x : UInt16} (h : x.toNat < 256) : x.toUInt8.toUInt16 = x := by
  apply UInt16.toNat_inj.mp
  rw [UInt8.toNat_toUInt16, UInt16.toNat_toUInt8]
  exact Nat.mod_eq_of_lt h

theorem toUInt16_toUInt32 {x : UInt32} (h : x.toNat < 65536) : x.toUInt16.toUInt32 = x := by
  apply UInt32.toNat_inj.mp
  rw [UInt16.toNat_toUInt32, UInt32.toNat_toUInt16]
  exact Nat.mod_eq_of_lt h

theorem samePersistent_encode (hp : Conversions p) {rip : Inode p}
    (hfits : (p.get_super dev).s_version = .V1 → FitsV1 rip) :
    SamePersistent dev rip (encode dev rip) := by
  unfold encode
  dsimp only
  split_ifs with hversion
  · have h := hfits hversion
    refine ⟨hp.conv2 _ _, toUInt8_toUInt16 h.links, hp.conv2 _ _, toUInt8_toUInt16 h.group, ?_,
      hp.conv4 _ _, fun i => ?_⟩
    · change (p.conv4 _ (p.conv4 _ _)).toInt32 = _
      rw [hp.conv4]
      exact Int32.toInt32_toUInt32 rip.i_size
    · change (p.conv2 _ (Vector.get (Vector.ofFn _) i)).toUInt32 = _
      rw [zone_ofFn, hp.conv2]
      exact toUInt16_toUInt32 (h.zones i)
  · refine ⟨hp.conv2 _ _, hp.conv2 _ _, hp.conv2 _ _, hp.conv2 _ _, ?_, hp.conv4 _ _,
      hp.conv4 _ _, hp.conv4 _ _, fun i => ?_⟩
    · change (p.conv4 _ (p.conv4 _ _)).toInt32 = _
      rw [hp.conv4]
      exact Int32.toInt32_toUInt32 rip.i_size
    · change p.conv4 _ (Vector.get (Vector.ofFn _) i) = _
      rw [zone_ofFn, hp.conv4]

/-- A clean inode whose members fit is as it is on disk. -/
theorem cleanOnDisk_of_fitting (hp : Conversions p) (h : Coherent s) (hfits : Fitting s) :
    CleanOnDisk s := by
  intro r hr hrw hclean
  have hnum := (hashed_iff h.linked).mp hr
  have hkey : (view s).key r = some ((s.inode r).i_dev, (s.inode r).i_num) :=
    slotKey_eq_some.mpr ⟨hnum, rfl, rfl⟩
  have hsame := h.settled r _ hkey hrw hclean
  rw [view_store, view_value] at hsame
  rw [hsame]
  exact samePersistent_encode hp fun hversion => hfits r hnum ⟨hversion, hrw⟩

theorem fitting_initInodeCache (start : State p) : Fitting (initInodeCache start) :=
  fun _ hnum => absurd rfl hnum

/-! ## The calls of inode.c -/

/-- One slot is changed. -/
theorem Fitting.change (h : Fitting s) (hother : ∀ q, q ≠ r → t.inode q = s.inode q)
    (hr : (t.inode r).i_num ≠ NO_ENTRY → Narrow p (t.inode r).i_dev → FitsV1 (t.inode r)) :
    Fitting t := by
  intro q
  by_cases hq : q = r
  · rw [hq]
    exact hr
  · rw [hother q hq]
    exact h q

/-- One slot is changed, but for what a record may cut. -/
theorem Fitting.keep (h : Fitting s) (hother : ∀ q, q ≠ r → t.inode q = s.inode q)
    (hnum : (t.inode r).i_num ≠ NO_ENTRY → (s.inode r).i_num ≠ NO_ENTRY)
    (hr : SameWidth (t.inode r) (s.inode r)) : Fitting t := by
  apply h.change hother
  intro hnumt hnarrow
  rw [hr.i_dev] at hnarrow
  exact (h r (hnum hnumt) hnarrow).congr hr

theorem fits_decode (hversion : (p.get_super dev).s_version = .V1) (rip : Inode p) :
    FitsV1 (decode dev rip (record s dev numb)) := by
  unfold record
  dsimp only
  rw [if_pos hversion]
  constructor
  · exact (UInt8.toNat_toUInt16 _).symm ▸ UInt8.toNat_lt _
  · exact (UInt8.toNat_toUInt16 _).symm ▸ UInt8.toNat_lt _
  · intro i
    change ((Vector.ofFn _).get (i.castLE p.zones_le) : UInt32).toNat < 65536
    have hlt : (i.castLE p.zones_le).val < p.V1_NR_TZONES := i.isLt
    rw [zone_ofFn, dif_pos hlt, UInt16.toNat_toUInt32]
    exact UInt16.toNat_lt _

theorem fits_loadInode (s : State p) (r : Slot p) (hdev : dev ≠ NO_DEV)
    (hversion : (p.get_super dev).s_version = .V1) : FitsV1 (loadInode s r dev numb) := by
  have hdecode : FitsV1 (decode dev (attach (setNumber dev numb (s.inode r)))
      (record s dev numb)) := fits_decode hversion _
  unfold loadInode
  rw [if_pos hdev]
  exact ⟨hdecode.links, hdecode.group, hdecode.zones⟩

theorem Fitting.get (hl : Linked s) (h : Fitting s) (hdev : dev ≠ NO_DEV)
    (env : Environment p) (numb : UInt32) : Fitting (getInode env s dev numb).2 := by
  rcases getInode_cases hl env dev numb with ⟨r, _, hget⟩ | ⟨_, _, hget⟩ | ⟨_, r, _, hget⟩
  · rw [hget]
    apply h.keep (r := r)
    · exact fun q hq => (found_inode s r q).trans (if_neg hq)
    · rw [found_inode, if_pos rfl]
      exact id
    · rw [found_inode, if_pos rfl]
      exact ⟨rfl, rfl, rfl, rfl⟩
  · rw [hget]
    exact h
  · rw [hget]
    apply h.change (r := r)
    · exact fun q hq => (loaded_inode s r q dev numb).trans (if_neg hq)
    · rw [loaded_inode, if_pos rfl, (loadInode_links s r dev numb).1]
      exact fun _ hnarrow => fits_loadInode s r hdev hnarrow.1

theorem sameWidth_written (env : Environment p) (rip : Inode p) :
    SameWidth (writtenInode env rip) rip := by
  rw [writtenInode_fields]
  exact ⟨rfl, rfl, rfl, rfl⟩

theorem Fitting.put (h : Fitting s) (env : Environment p) (r : Slot p) :
    Ensures (putInode env s (some r)) Fitting := by
  intro t hput
  rcases putInode_cases env s r with ⟨_, stop, heq⟩ | ⟨_, heq⟩ | ⟨_, heq⟩
  · rw [hput] at heq
    cases heq
  · rw [hput] at heq
    cases heq
    by_cases hlinks : (s.inode r).i_nlinks = NO_LINK
    · apply h.change fun q hq => released_other env s hq
      exact fun hnum => absurd (released_freed_inode env hlinks) hnum
    · apply h.keep fun q hq => released_other env s hq
      · rw [released_kept_inode env hlinks, writtenInode_fields]
        exact id
      · rw [released_kept_inode env hlinks]
        have hwritten := sameWidth_written env (setCount 0 (s.inode r))
        exact ⟨hwritten.i_dev, hwritten.i_nlinks, hwritten.i_gid, hwritten.i_zone⟩
  · rw [hput] at heq
    cases heq
    apply h.keep fun q hq => inode_modify_of_ne s _ hq
    · rw [inode_modify_self]
      exact id
    · rw [inode_modify_self]
      exact ⟨rfl, rfl, rfl, rfl⟩

theorem Fitting.dup (h : Fitting s) (r : Slot p) : Fitting (dupInode s r) := by
  apply h.keep (r := r) fun q hq => inode_modify_of_ne s _ hq
  · rw [inode_modify_self]
    exact id
  · rw [inode_modify_self]
    exact ⟨rfl, rfl, rfl, rfl⟩

/-- A new inode fits if its group does. -/
theorem Fitting.alloc (hl : Linked s) (h : Fitting s) (bits : UInt16)
    (hgroup : ∀ r k, Allocates s ⟨env, .alloc_inode dev bits⟩ r k → Narrow p dev →
      env.caller_gid.toNat < 256) : Fitting (allocInode env s dev bits).2 := by
  have hanswer : env.alloc_bit (s.imap dev) (s.s_isearch dev) = _ := rfl
  rcases allocInode_cases hl bits hanswer with
    ⟨_, heq⟩ | ⟨_, _, heq⟩ | ⟨_, _, _, heq⟩ | ⟨hrw, hb, r, hr, heq⟩
  · rw [heq]
    exact h
  · rw [heq]
    exact h
  · rw [heq, withdrawn_eq]
    exact h
  · rw [heq]
    have hfields := newInode_fields env s r bits
      (env.alloc_bit (s.imap dev) (s.s_isearch dev)) hrw
    apply h.change (r := r)
    · exact fun q hq => (allocated_inode env s r q dev bits _).trans (if_neg hq)
    · rw [allocated_inode, if_pos rfl, hfields.1]
      intro _ hnarrow
      have hgid := hgroup r (dev, env.alloc_bit (s.imap dev) (s.s_isearch dev))
        ⟨⟨bits, rfl⟩, hrw, rfl, hb, hr⟩ hnarrow
      constructor
      · rw [hfields.2.2.2.2.1]
        decide
      · exact hgid
      · intro i
        rw [hfields.2.2.2.2.2.2, get_replicate]
        decide

theorem Fitting.retrieve (hl : Linked s) (h : Fitting s) (hdev : dev ≠ NO_DEV)
    {answer : Option (Slot p)} (hout : retrieveInode env s dev numb = .ok (answer, t)) :
    Fitting t := by
  have hclaimed : Fitting (claimed env s dev numb) := by
    rw [claimed_eq]
    exact h
  have hget := hclaimed.get (linked_claimed hl env dev numb) hdev env numb
  cases hrip : getInode env (claimed env s dev numb) dev numb with
  | mk rip u =>
      rw [hrip] at hget
      cases rip with
      | none =>
          rw [retrieveInode_none hrip] at hout
          split_ifs at hout
          cases hout
          exact hget
      | some r =>
          obtain ⟨log, hsome⟩ := retrieveInode_some hrip
          rw [hsome] at hout
          cases hout
          exact hget

/-! ## Directories -/

/-- What `search_dir` assigns to the inode of a directory is neither its link count nor its group,
and a zone number that it assigns is one of the device. -/
structure Extends (env : Environment p) : Prop where
  i_nlinks : ∀ entries string numb flag rip,
    ((env.search_dir entries string numb flag).dirp rip).i_nlinks = rip.i_nlinks
  i_gid : ∀ entries string numb flag rip,
    ((env.search_dir entries string numb flag).dirp rip).i_gid = rip.i_gid
  zones : ∀ entries string numb flag rip, (p.get_super rip.i_dev).s_version = .V1 → FitsV1 rip →
    FitsV1 ((env.search_dir entries string numb flag).dirp rip)

/-- The slots keep their devices and their link counts. -/
theorem searchDir_kept (hdoc : Documented env) (hext : Extends env) (s : State p) (d q : Slot p)
    (string : Name) (n : Option UInt32) (flag : Flag) :
    ((searchDir env s d string n flag).2.2.inode q).i_dev = (s.inode q).i_dev ∧
      ((searchDir env s d string n flag).2.2.inode q).i_nlinks = (s.inode q).i_nlinks := by
  have hnlinks := hext.i_nlinks (s.directories (s.inode d).i_dev (s.inode d).i_num) string n flag
    (s.inode d)
  have hdev := (hdoc.links (s.directories (s.inode d).i_dev (s.inode d).i_num) string n flag
    (s.inode d)).i_dev
  rw [searchDir_inode]
  split_ifs with hq
  · rw [hq, stamp_fields]
    exact ⟨hdev, hnlinks⟩
  · rw [hq]
    exact ⟨hdev, hnlinks⟩
  · exact ⟨rfl, rfl⟩

theorem Fitting.search (h : Fitting s) (hdoc : Documented env) (hext : Extends env) (d : Slot p)
    (string : Name) (n : Option UInt32) (flag : Flag) :
    Fitting (searchDir env s d string n flag).2.2 := by
  have hlinks := hdoc.links (s.directories (s.inode d).i_dev (s.inode d).i_num) string n flag
    (s.inode d)
  have hfits := hext.zones (s.directories (s.inode d).i_dev (s.inode d).i_num) string n flag
    (s.inode d)
  apply h.change (r := d)
  · exact fun q hq => (searchDir_inode env s d q string n flag).trans (if_neg hq)
  · rw [searchDir_inode, if_pos rfl]
    split_ifs
    · rw [stamp_fields]
      intro hnum hnarrow
      have hdirp := hfits (hlinks.i_dev ▸ hnarrow).1
        (h d (hlinks.i_num ▸ hnum) (hlinks.i_dev ▸ hnarrow))
      exact ⟨hdirp.links, hdirp.group, hdirp.zones⟩
    · intro hnum hnarrow
      exact hfits (hlinks.i_dev ▸ hnarrow).1
        (h d (hlinks.i_num ▸ hnum) (hlinks.i_dev ▸ hnarrow))

/-- The link count is changed, and the inode marked. -/
theorem Fitting.touch (h : Fitting s) {f : Inode p → Inode p} (hf : SameLinks (f (s.inode r)) (s.inode r))
    (hgid : (f (s.inode r)).i_gid = (s.inode r).i_gid)
    (hzone : (f (s.inode r)).i_zone = (s.inode r).i_zone)
    (hlinks : Narrow p (s.inode r).i_dev → (s.inode r).i_nlinks.toNat < 256 →
      (f (s.inode r)).i_nlinks.toNat < 256) : Fitting (markDirty (s.modify r f) r) := by
  have hboth : Fitting (s.modify r fun rip => dirtied (f rip)) := by
    apply h.change fun q hq => inode_modify_of_ne s _ hq
    rw [inode_modify_self]
    intro hnum hnarrow
    have hold : Narrow p (s.inode r).i_dev := hf.i_dev ▸ hnarrow
    have hfits := h r (hf.i_num ▸ hnum) hold
    constructor
    · exact hlinks hold hfits.links
    · exact hgid.symm ▸ hfits.group
    · intro i
      exact hzone.symm ▸ hfits.zones i
  obtain ⟨log, hdirty⟩ := markDirty_eq (s.modify r f) r
  rw [hdirty, modify_modify]
  exact hboth

/-! ## What is known of an inode in hand -/

/-- `get_inode` answers with the inode as it is in the table or on disk. -/
theorem getInode_nlinks (hl : Linked s) (hdev : dev ≠ NO_DEV) (env : Environment p)
    (hget : getInode env s dev numb = (some r, u)) :
    (u.inode r).i_dev = dev ∧ (u.inode r).i_num = numb ∧
      (u.inode r).i_nlinks = linkCount s dev numb := by
  cases hslot : slotFor s dev numb with
  | none =>
      rw [getInode_noSlot hslot] at hget
      cases hget
  | some d =>
      rw [getInode_slot hslot fun q _ => hl.loose q] at hget
      cases hget
      have hself := opened_inode_self hslot
      rw [← linkCount_opened_self hdev hslot, linkCount_some (searchHash_opened_self hslot)]
      exact ⟨hself.2, hself.1, rfl⟩

/-- An inode in hand stays in its slot when another one is acquired. -/
theorem Ready.get_held (h : Ready s l) (hq : q ∈ l) (env : Environment p) (dev : Dev)
    (numb : UInt32) : SameWidth ((getInode env s dev numb).2.inode q) (s.inode q) := by
  rcases getInode_cases h.coherent.linked env dev numb with
    ⟨r, _, hget⟩ | ⟨_, _, hget⟩ | ⟨_, r, hr, hget⟩
  · rw [hget, found_inode]
    split_ifs with he
    · rw [he]
      exact ⟨rfl, rfl, rfl, rfl⟩
    · exact .refl _
  · rw [hget]
    exact .refl _
  · have hne : q ≠ r := fun he =>
      h.notMem_unused hq (he ▸ List.mem_of_mem_head? hr)
    rw [hget, loaded_inode, if_neg hne]
    exact .refl _

/-- Where there is no entry, `advance` leaves an inode in hand as it is. -/
theorem Ready.advance_held (h : Ready s l) (hq : q ∈ l) {d : Slot p} {string : Name}
    (hadvance : LinkCalls.advance env s d string = (none, u)) :
    SameWidth (u.inode q) (s.inode q) := by
  unfold LinkCalls.advance at hadvance
  dsimp only at hadvance
  cases hentry : env.advance (s.directories (s.inode d).i_dev (s.inode d).i_num) string with
  | missing e =>
      rw [hentry] at hadvance
      cases hadvance
      exact .refl _
  | entry numb e =>
      have hheld := Ready.get_held h hq env (s.inode d).i_dev numb
      rw [hentry] at hadvance
      dsimp only at hadvance
      cases hget : getInode env s (s.inode d).i_dev numb with
      | mk rip v =>
          rw [hget] at hadvance hheld
          cases rip with
          | none =>
              cases hadvance
              exact hheld
          | some rip => cases hadvance

theorem Fitting.advance (h : Fitting s) (hready : Ready s l) {d : Slot p} (hd : d ∈ l)
    (env : Environment p) (string : Name) : Fitting (LinkCalls.advance env s d string).2 := by
  have hlinked := hready.coherent.linked
  have hdev := (hlinked.attached d (hready.holding d hd).1).1
  unfold LinkCalls.advance
  dsimp only
  cases hentry : env.advance (s.directories (s.inode d).i_dev (s.inode d).i_num) string with
  | missing e => exact h
  | entry numb e =>
      have hget := h.get hlinked hdev env numb
      dsimp only
      cases hrip : getInode env s (s.inode d).i_dev numb with
      | mk rip u =>
          rw [hrip] at hget
          cases rip with
          | none => exact hget
          | some rip => exact hget

/-! ## fs_link -/

/-- A count below the last one goes up. -/
theorem nlinks_addLink {rip : Inode p} (hlt : rip.i_nlinks.toNat < 256) (hne : rip.i_nlinks ≠ 255) :
    (addLink rip).i_nlinks.toNat < 256 := by
  have hval : rip.i_nlinks.toNat ≠ 255 := fun h => hne (UInt16.toNat_inj.mp h)
  change (rip.i_nlinks + 1).toNat < 256
  rw [UInt16.toNat_add]
  change (rip.i_nlinks.toNat + 1) % 65536 < 256
  omega

theorem Fitting.registerLink (h : Fitting s) (hdoc : Documented env) (hext : Extends env)
    {rip ip : Slot p} (hlinks : Narrow p (s.inode rip).i_dev → (s.inode rip).i_nlinks ≠ 255)
    (r : Errno) (string : Name) : Fitting (registerLink env r s rip ip string).2 := by
  have hsearch := h.search hdoc hext ip string (some (s.inode rip).i_num) .ENTER
  have hkept := searchDir_kept hdoc hext s ip rip string (some (s.inode rip).i_num) .ENTER
  unfold LinkCalls.registerLink
  split_ifs with hr
  · exact h
  · dsimp only
    split_ifs
    · refine hsearch.touch ⟨rfl, rfl, rfl, rfl⟩ rfl rfl fun hnarrow hlt => nlinks_addLink hlt ?_
      rw [hkept.2]
      exact hlinks (hkept.1 ▸ hnarrow)
    · exact hsearch

theorem Fitting.enterLink (hdoc : Documented env) (hext : Extends env) (hready : Ready s l)
    (h : Fitting s) {rip ip : Slot p} (hrip : rip ∈ l) (hip : ip ∈ l)
    (hlinks : Narrow p (s.inode rip).i_dev → (s.inode rip).i_nlinks ≠ 255) (string : Name) :
    Ensures (enterLink env s rip ip string) fun out => Fitting out.2 := by
  have hadvance := h.advance hready hip env string
  unfold LinkCalls.enterLink
  cases hnew : LinkCalls.advance env s ip string with
  | mk new_ip u =>
      rw [hnew] at hadvance
      cases new_ip with
      | none =>
          have hheld := Ready.advance_held hready hrip hnew
          refine ensures_ok (hadvance.registerLink hdoc hext ?_ _ string)
          rw [hheld.i_dev, hheld.i_nlinks]
          exact hlinks
      | some new_ip => exact (hadvance.put env new_ip).bind fun t ht => ensures_ok ht

/-- The inodes that are put fit afterwards. -/
theorem Fitting.put_both (h : Fitting s) (env : Environment p) (q r : Slot p) (e : Errno) :
    Ensures (putInode env s (some q) >>= fun s => putInode env s (some r) >>= fun s =>
      pure (e, s)) fun out => Fitting out.2 :=
  (h.put env q).bind fun _ ht => (ht.put env r).bind fun _ hu => ensures_ok hu

theorem Fitting.put_one (h : Fitting s) (env : Environment p) (r : Slot p) (e : Errno) :
    Ensures (putInode env s (some r) >>= fun s => pure (e, s)) fun out => Fitting out.2 :=
  (h.put env r).bind fun _ ht => ensures_ok ht

/-- A link is made to an inode whose count is not at its end. -/
theorem Fitting.fsLink (hp : Conversions p) (hdoc : Documented env) (hext : Extends env)
    (hready : Ready s []) (h : Fitting s) {m : Message} (hdev : m.fs_dev ≠ NO_DEV)
    (hnumb : m.REQ_INODE_NR ≠ NO_ENTRY) (hdir : m.REQ_DIR_INO ≠ NO_ENTRY)
    (hlinks : Narrow p m.fs_dev → linkCount s m.fs_dev m.REQ_INODE_NR ≠ 255) :
    Ensures (fsLink env m s) fun out => Fitting out.2 := by
  unfold LinkCalls.fsLink
  split_ifs with hcopied
  · exact ensures_ok h
  have hget := h.get hready.coherent.linked hdev env m.REQ_INODE_NR
  have hready' := hready.get hp hdev hnumb env
  cases hfile : getInode env s m.fs_dev m.REQ_INODE_NR with
  | mk rip u =>
      rw [hfile] at hget hready'
      cases rip with
      | none => exact ensures_ok hget
      | some rip =>
          obtain ⟨hrdev, _, hrlinks⟩ := getInode_nlinks hready.coherent.linked hdev env hfile
          dsimp only
          split_ifs with hcheck
          · exact hget.put_one env rip _
          have hget' := hget.get hready'.coherent.linked hdev env m.REQ_DIR_INO
          have hready'' := hready'.get hp hdev hdir env
          have hheld := Ready.get_held hready' List.mem_cons_self env m.fs_dev m.REQ_DIR_INO
          cases hparent : getInode env u m.fs_dev m.REQ_DIR_INO with
          | mk ip v =>
              rw [hparent] at hget' hready'' hheld
              cases ip with
              | none => exact hget'.put_one env rip _
              | some ip =>
                  dsimp only
                  split_ifs
                  · exact hget'.put_both env rip ip _
                  · have hroom : Narrow p (v.inode rip).i_dev → (v.inode rip).i_nlinks ≠ 255 := by
                      rw [hheld.i_dev, hheld.i_nlinks, hrdev, hrlinks]
                      exact hlinks
                    have hentered := hget'.enterLink hdoc hext hready''
                      (List.mem_cons_of_mem _ List.mem_cons_self) List.mem_cons_self hroom m.string
                    exact hentered.bind fun out hout => Fitting.put_both hout env rip ip out.1

/-! ## fs_unlink -/

/-- A count above zero goes down. -/
theorem nlinks_dropLink {rip : Inode p} (hlt : rip.i_nlinks.toNat < 256) (hne : rip.i_nlinks ≠ 0) :
    (dropLink rip).i_nlinks.toNat < 256 := by
  have hval : rip.i_nlinks.toNat ≠ 0 := fun h => hne (UInt16.toNat_inj.mp h)
  have hle : (1 : UInt16) ≤ rip.i_nlinks := Nat.pos_of_ne_zero hval
  change (rip.i_nlinks - 1).toNat < 256
  rw [UInt16.toNat_sub_of_le _ _ hle]
  exact Nat.lt_of_le_of_lt (Nat.sub_le _ _) hlt

/-- A slot that is given to another inode holds nothing that is not on disk. -/
theorem linkCount_displaced (h : Coherent s) (hfits : Fitting s) {d : Slot p} {dir : UInt32}
    (hnarrow : Narrow p dev) (hslot : slotFor s dev dir = some d) (n : UInt32) :
    linkCount (displaced s d dev dir) dev n = linkCount s dev n := by
  rcases opened_cases hslot with ⟨hsearch, _⟩ | ⟨hsearch, hhead, _⟩
  · unfold displaced
    rw [hsearch, if_neg nofun]
  have hdisplaced : displaced s d dev dir = unhashInode s d := if_pos hsearch
  have hkeyed : ∀ q ∈ (s.hash_inodes (hashIndex p n)), ∀ hq : (s.inode q).i_num = n ∧
      (s.inode q).i_dev = dev, slotKey (s.inode q) = some (dev, n) := by
    intro q hmem hq
    exact slotKey_eq_some.mpr ⟨((h.linked.hashed _ q).mp hmem).1, hq.2, hq.1⟩
  rw [hdisplaced]
  cases hfound : searchHash s dev n with
  | none =>
      have hnone : searchHash (unhashInode s d) dev n = none := by
        apply List.find?_eq_none.mpr
        exact fun q hq => List.find?_eq_none.mp hfound q (List.mem_of_mem_erase hq)
      rw [linkCount_none hnone, linkCount_none hfound]
      rfl
  | some q =>
      have hkey := searchHash_some h.linked hfound
      have hmem := List.mem_of_find?_eq_some hfound
      rw [linkCount_some hfound]
      by_cases hqd : q = d
      · -- the inode was in that slot, unused and so as it is on disk
        subst hqd
        have hnone : searchHash (unhashInode s q) dev n = none := by
          apply List.find?_eq_none.mpr
          intro q' hq' hnamed
          obtain ⟨hne, hmem'⟩ := (h.linked.hash_nodup _).mem_erase_iff.mp hq'
          exact hne (h.single (hkeyed q' hmem' (of_decide_eq_true hnamed)) hkey)
        obtain ⟨hnum, hdev, _⟩ := slotKey_eq_some.mp hkey
        have hclean := h.idle q (List.mem_of_mem_head? hhead) _ hkey
        have hsame := h.settled q _ hkey hnarrow.2 hclean
        rw [view_store, view_value, hdev] at hsame
        have hfit := hfits q hnum (hdev ▸ hnarrow)
        rw [linkCount_none hnone]
        change recordLinks dev (record s dev n) = _
        rw [hsame]
        unfold encode
        dsimp only
        rw [if_pos hnarrow.1]
        exact toUInt8_toUInt16 hfit.links
      · have hmem' : q ∈ (s.hash_inodes (hashIndex p n)).erase d :=
          (List.mem_erase_of_ne hqd).mpr hmem
        have hnamed := List.find?_some hfound
        cases hother : searchHash (unhashInode s d) dev n with
        | none => exact absurd hnamed (List.find?_eq_none.mp hother q hmem')
        | some q' =>
            have hq' := List.mem_of_mem_erase (List.mem_of_find?_eq_some hother)
            have hnamed' : ((unhashInode s d).inode q').i_num = n ∧
                ((unhashInode s d).inode q').i_dev = dev := named_of_searchHash hother
            have hkey' := hkeyed q' hq' hnamed'
            rw [linkCount_some hother, h.single hkey' hkey]
            rfl

theorem Fitting.deleteEntry (h : Fitting s) (hdoc : Documented env) (hext : Extends env)
    {dirp rip : Slot p} (hlinks : Narrow p (s.inode rip).i_dev → (s.inode rip).i_nlinks ≠ 0)
    (file_name : Name) : Ensures (deleteEntry env s dirp rip file_name) fun out => Fitting out.2 := by
  have hsearch := h.search hdoc hext dirp file_name none .DELETE
  have hkept := searchDir_kept hdoc hext s dirp rip file_name none .DELETE
  unfold LinkCalls.deleteEntry
  dsimp only
  apply Fitting.put_one
  split_ifs
  · refine hsearch.touch ⟨rfl, rfl, rfl, rfl⟩ rfl rfl fun hnarrow hlt => nlinks_dropLink hlt ?_
    rw [hkept.2]
    exact hlinks (hkept.1 ▸ hnarrow)
  · exact hsearch

theorem Fitting.tryUnlink (h : Fitting s) (hdoc : Documented env) (hext : Extends env)
    {rldirp rip : Slot p} (hlinks : Narrow p (s.inode rip).i_dev → (s.inode rip).i_nlinks ≠ 0)
    (string : Name) :
    Ensures (tryUnlink env s rldirp rip string) fun out => Fitting out.2 := by
  have hself : (dupInode s rip).inode rip = setCount ((s.inode rip).i_count + 1) (s.inode rip) :=
    inode_modify_self s rip _
  unfold LinkCalls.tryUnlink
  split_ifs
  · exact ensures_ok h
  · exact ensures_ok h
  · apply (h.dup rip).deleteEntry hdoc hext
    rw [hself]
    exact hlinks

/-- The inode that `advance` acquires has the link count that it has in the table or on disk. -/
theorem advance_nlinks (hready : Ready s l) {d : Slot p} (hd : d ∈ l) {string : Name}
    (hadvance : LinkCalls.advance env s d string = (some r, u)) :
    ∃ numb e, env.advance (s.directories (s.inode d).i_dev (s.inode d).i_num) string =
        .entry numb e ∧ (u.inode r).i_dev = (s.inode d).i_dev ∧
      (u.inode r).i_nlinks = linkCount s (s.inode d).i_dev numb := by
  have hlinked := hready.coherent.linked
  have hdev := (hlinked.attached d (hready.holding d hd).1).1
  unfold LinkCalls.advance at hadvance
  dsimp only at hadvance
  cases hentry : env.advance (s.directories (s.inode d).i_dev (s.inode d).i_num) string with
  | missing e =>
      rw [hentry] at hadvance
      cases hadvance
  | entry numb e =>
      rw [hentry] at hadvance
      dsimp only at hadvance
      cases hget : getInode env s (s.inode d).i_dev numb with
      | mk rip v =>
          rw [hget] at hadvance
          cases rip with
          | none => cases hadvance
          | some rip =>
              cases hadvance
              have hlinks := getInode_nlinks hlinked hdev env hget
              exact ⟨numb, e, rfl, hlinks.1, hlinks.2.2⟩

/-- Acquiring the directory keeps the link counts and the entries. -/
theorem getInode_linkCount (h : Coherent s) (hfits : Fitting s) (hnarrow : Narrow p dev)
    (hdev : dev ≠ NO_DEV) (hget : getInode env s dev numb = (some r, u)) :
    u.directories = s.directories ∧ ∀ n, linkCount u dev n = linkCount s dev n := by
  cases hslot : slotFor s dev numb with
  | none =>
      rw [getInode_noSlot hslot] at hget
      cases hget
  | some d =>
      rw [getInode_slot hslot fun q _ => h.linked.loose q] at hget
      cases hget
      refine ⟨(opened_rest s _ dev numb).2.2, fun n => ?_⟩
      rw [linkCount_opened h.linked hdev hslot, linkCount_displaced h hfits hnarrow hslot]

/-- The inode of the entry that is deleted has a link to be dropped. -/
theorem Fitting.fsUnlink (hp : Conversions p) (hdoc : Documented env) (hext : Extends env)
    (hready : Ready s []) (h : Fitting s) {m : Message} (hdev : m.fs_dev ≠ NO_DEV)
    (hnumb : m.REQ_INODE_NR ≠ NO_ENTRY)
    (hlinks : Narrow p m.fs_dev → ∀ numb e,
      env.advance (s.directories m.fs_dev m.REQ_INODE_NR) m.string = .entry numb e →
        linkCount s m.fs_dev numb ≠ 0) :
    Ensures (fsUnlink env m s) fun out => Fitting out.2 := by
  unfold LinkCalls.fsUnlink
  split_ifs with hcopied
  · exact ensures_ok h
  have hget := h.get hready.coherent.linked hdev env m.REQ_INODE_NR
  have hready' := hready.get hp hdev hnumb env
  cases hparent : getInode env s m.fs_dev m.REQ_INODE_NR with
  | mk rldirp u =>
      rw [hparent] at hget hready'
      cases rldirp with
      | none => exact ensures_ok hget
      | some rldirp =>
          obtain ⟨hrdev, hrnum, _⟩ := getInode_nlinks hready.coherent.linked hdev env hparent
          have hadvance := hget.advance hready' List.mem_cons_self env m.string
          dsimp only
          cases hfile : LinkCalls.advance env u rldirp m.string with
          | mk rip v =>
              rw [hfile] at hadvance
              dsimp only
              split_ifs with herror hmount
              · cases rip with
                | none => exact hadvance.put_one env rldirp _
                | some rip => exact hadvance.put_both env rip rldirp _
              · exact hadvance.put_one env rldirp _
              · cases rip with
                | none => exact ensures_error _ _
                | some rip =>
                    have hroom : Narrow p (v.inode rip).i_dev → (v.inode rip).i_nlinks ≠ 0 := by
                      obtain ⟨numb, e, hentry, hvdev, hvlinks⟩ :=
                        advance_nlinks hready' List.mem_cons_self hfile
                      rw [hvdev, hvlinks, hrdev]
                      intro hnarrow
                      obtain ⟨hdirs, hcounts⟩ :=
                        getInode_linkCount hready.coherent h hnarrow hdev hparent
                      rw [hrdev, hrnum, hdirs] at hentry
                      rw [hcounts]
                      exact hlinks hnarrow numb e hentry
                    have hunlinked : Ensures (LinkCalls.tryUnlink env v rldirp rip m.string)
                        fun out => Fitting out.2 := hadvance.tryUnlink hdoc hext hroom m.string
                    exact hunlinked.bind fun out hout => Fitting.put_both hout env rip rldirp out.1

/-! ## Runs -/

/-- On a device of the V1 layout, a new inode gets a group of more than eight bits, a link is
made to an inode with 255 of them, or taken from one that has none. -/
def Overflows (e : FsStep p) : Prop :=
  match e.call.call with
  | .inode call => ∃ r k, Allocates e.before ⟨e.call.env, call⟩ r k ∧ Narrow p k.1 ∧
      256 ≤ e.call.env.caller_gid.toNat
  | .fs_link m => Narrow p m.fs_dev ∧ linkCount e.before m.fs_dev m.REQ_INODE_NR = 255
  | .fs_unlink m => Narrow p m.fs_dev ∧ ∃ numb err,
      e.call.env.advance (e.before.directories m.fs_dev m.REQ_INODE_NR) m.string =
        .entry numb err ∧ linkCount e.before m.fs_dev numb = 0
  | .fs_recover _ => False

theorem Returns.fitting (hl : Linked s) (h : Fitting s) {req : Request p}
    {answer : Option (Slot p)} (hcall : Returns s req answer t)
    (hgroup : ∀ r k, Allocates s req r k → Narrow p k.1 → req.env.caller_gid.toNat < 256) :
    Fitting t := by
  obtain ⟨env, call⟩ := req
  obtain ⟨hsound, hexecute⟩ := hcall
  unfold execute at hexecute
  cases call with
  | get_inode dev numb =>
      have hget := h.get hl hsound.1 env numb
      have hout := Except.ok.inj hexecute
      dsimp only at hout
      rw [hout] at hget
      exact hget
  | dup_inode ip =>
      cases hexecute
      exact h.dup ip
  | put_inode rip =>
      cases rip with
      | none =>
          cases hexecute
          exact h
      | some r =>
          obtain ⟨out, hput, hpair⟩ := map_eq_ok.mp hexecute
          cases hpair
          exact h.put env r _ hput
  | alloc_inode dev bits =>
      have halloc : Fitting (allocInode env s dev bits).2 := by
        apply h.alloc hl bits
        intro r k hmakes hnarrow
        obtain ⟨_, hsame⟩ := hmakes.1
        injection hsame with hdev
        exact hgroup r k hmakes (hdev ▸ hnarrow)
      have hout := Except.ok.inj hexecute
      dsimp only at hout
      rw [hout] at halloc
      exact halloc
  | retrieve_inode dev inumb => exact h.retrieve hl hsound.1 hexecute

theorem FsReturns.fitting (hp : Conversions p) (h : Coherent s) (hfits : Fitting s)
    {req : FsRequest p} {answer : FsAnswer p} (hcall : FsReturns s req answer t)
    (hext : Extends req.env) (hrecover : ¬ Recovers ⟨s, req, answer, t⟩)
    (hsafe : ¬ Overflows ⟨s, req, answer, t⟩) : Fitting t := by
  obtain ⟨env, call⟩ := req
  obtain ⟨hsound, hdoc, hexecute⟩ := hcall
  have hready : Ready s [] := ⟨h, holding_nil s⟩
  unfold fsExecute at hexecute
  cases call with
  | inode call =>
      obtain ⟨out, hout, hpair⟩ := map_eq_ok.mp hexecute
      cases hpair
      have hreturns : Returns s ⟨env, call⟩ out.1 out.2 := ⟨hsound, hout⟩
      apply Returns.fitting h.linked hfits hreturns
      intro r k hmakes hnarrow
      by_contra hlarge
      exact hsafe ⟨r, k, hmakes, hnarrow, Nat.not_lt.mp hlarge⟩
  | fs_link m =>
      obtain ⟨out, hout, hpair⟩ := map_eq_ok.mp hexecute
      cases hpair
      exact hfits.fsLink hp hdoc hext hready hsound.1 hsound.2.1 hsound.2.2
        (fun hnarrow hlast => hsafe ⟨hnarrow, hlast⟩) out hout
  | fs_unlink m =>
      obtain ⟨out, hout, hpair⟩ := map_eq_ok.mp hexecute
      cases hpair
      exact hfits.fsUnlink hp hdoc hext hready hsound.1 hsound.2
        (fun hnarrow numb e hentry hzero => hsafe ⟨hnarrow, numb, e, hentry, hzero⟩) out hout
  | fs_recover m =>
      obtain ⟨out, hout, hpair⟩ := map_eq_ok.mp hexecute
      cases hpair
      have hdir : ¬ Available s (m.REQ_DEV, m.REQ_DIR_INO) := fun hdir => hrecover ⟨m, rfl, hdir⟩
      obtain ⟨log, misses, hfails⟩ := fsRecover_unavailable h.linked env hdir
      rw [hfails] at hout
      cases hout
      exact hfits

/-- In a run that recovers no inode, in which no new inode gets a number that another
slot holds, and in which no link count and no group outgrows a record, each clean inode is as it
is on disk. -/
theorem clean_on_disk (hp : Conversions p) (hb : InodesPerBlock p) (start : State p)
    {history : List (FsStep p)} (hr : Run (fsSystem (initInodeCache start)) history s)
    (hext : ∀ e ∈ history, Extends e.call.env)
    (hsafe : ∀ e ∈ history, ¬ Clashes e ∧ ¬ Recovers e ∧ ¬ Overflows e) : CleanOnDisk s := by
  have hinv : Coherent s ∧ Fitting s := by
    refine hr.guarded_invariant (I := fun _ t => Coherent t ∧ Fitting t)
      ⟨coherent_initInodeCache start, fitting_initInodeCache start⟩ ?_
      fun e he => And.intro (hext e he) (hsafe e he)
    rintro history u req answer v _ ⟨hu, hfits⟩ hcall ⟨hextends, hclash, hrecover, hover⟩
    exact ⟨FsReturns.coherent hp hb hu hcall hclash hrecover,
      FsReturns.fitting hp hu hfits hcall hextends hrecover hover⟩
  exact cleanOnDisk_of_fitting hp hinv.1 hinv.2

/-! ## A link to a file -/

theorem extends_small : Extends smallEnvironment := by
  have hdirp (entries : Directory) (string : Name) (numb : Option UInt32) (flag : Flag)
      (rip : Inode small) :
      SameWidth ((searchEntries entries string numb flag).dirp rip) rip := by
    rcases searchEntries_dirp entries string numb flag with hid | htouched
    · rw [hid]
      exact .refl rip
    · rw [htouched]
      exact ⟨rfl, rfl, rfl, rfl⟩
  constructor
  · exact fun entries string numb flag rip => (hdirp entries string numb flag rip).i_nlinks
  · exact fun entries string numb flag rip => (hdirp entries string numb flag rip).i_gid
  · exact fun entries string numb flag rip _ hfits =>
      hfits.congr (hdirp entries string numb flag rip)

theorem clean_on_disk_small : CleanOnDisk (fsNext linkFile mounted) := by
  have hsound : FsSound mounted linkFile.call := by
    change (1 : Dev) ≠ NO_DEV ∧ (2 : UInt32) ≠ NO_ENTRY ∧ (1 : UInt32) ≠ NO_ENTRY
    decide
  have hcall : FsReturns mounted linkFile (fsAnswered linkFile mounted) (fsNext linkFile mounted) :=
    fsReturns_next hsound documented_small (by decide)
  have hrun : Run (fsSystem mounted)
      [⟨mounted, linkFile, fsAnswered linkFile mounted, fsNext linkFile mounted⟩]
      (fsNext linkFile mounted) := Run.init.call hcall
  apply clean_on_disk conversions_small inodesPerBlock_small _ hrun
  · intro e he
    rw [List.mem_singleton.mp he]
    exact extends_small
  intro e he
  rw [List.mem_singleton.mp he]
  refine ⟨?_, ?_, ?_⟩
  · rintro ⟨call, hnot, _⟩
    cases hnot
  · rintro ⟨m, hnot, _⟩
    cases hnot
  · rintro ⟨hnarrow, _⟩
    exact nomatch hnarrow.1

theorem clean_on_disk_fails :
    ¬ ∀ history s, Run (fsSystem mounted) history s → CleanOnDisk s := by
  intro h
  have hsound : FsSound mounted recoverFile.call := by
    change (1 : Dev) ≠ NO_DEV ∧ (2 : UInt32) ≠ NO_ENTRY ∧ (1 : UInt32) ≠ NO_ENTRY
    decide
  have hcall : FsReturns mounted recoverFile (fsAnswered recoverFile mounted)
      (fsNext recoverFile mounted) :=
    fsReturns_next hsound documented_small (by decide)
  have hhashed : Hashed (fsNext recoverFile mounted) slot0 := ⟨2, by decide⟩
  have hclean := h _ _ (Run.init.call hcall) slot0 hhashed rfl (by decide)
  have hlinks : small.conv2 true 0 = 1 := hclean.2.1
  exact absurd hlinks (by decide)

end MinixOS.RecordWidths
