import MinixOS.InodeState

/-!
# Inodes on disk

The functions of inode.c that copy an inode between the table and its block: `rw_inode`
with `old_icopy`, `new_icopy` and `update_times`, and the macros that mark an inode.
A record is an inode in the layout of its device. Writing an inode and reading it
again gives the same record, and as long as a block has as many inodes as its super
block says, no two inodes of a device share one.
-/
namespace MinixOS.InodeCopy
open InodeState

variable {p : Platform}

inductive Direction where
  | READING
  | WRITING
deriving DecidableEq, Repr

def markDirty (s : State p) (r : Slot p) : State p :=
  if (p.get_super (s.inode r).i_sp).s_rd_only then s.print "%s:%d: dirty inode on rofs " []
  else s.modify r fun rip => { rip with i_dirt := .IN_DIRTY }

/-- The inode marked dirty, if its device may be written. -/
def dirtied (rip : Inode p) : Inode p :=
  { rip with i_dirt := if (p.get_super rip.i_sp).s_rd_only then rip.i_dirt else .IN_DIRTY }

theorem markDirty_eq (s : State p) (r : Slot p) :
    ∃ log, markDirty s r = { s.modify r dirtied with log := log } := by
  unfold markDirty
  split_ifs with hro
  · refine ⟨(s.print "%s:%d: dirty inode on rofs " []).log, ?_⟩
    have hself : s.modify r dirtied = s := by
      refine (modify_congr ?_).trans (modify_self s r)
      unfold dirtied
      rw [if_pos hro]
    rw [hself]
    rfl
  · refine ⟨s.log, ?_⟩
    refine (modify_congr (g := dirtied) ?_).trans rfl
    unfold dirtied
    rw [if_neg hro]

def markClean (rip : Inode p) : Inode p := { rip with i_dirt := .IN_CLEAN }

def updateTimes (cur_time : UInt32) (rip : Inode p) : Inode p :=
  if (p.get_super rip.i_sp).s_rd_only then rip
  else
    { rip with
      i_atime := if rip.i_update.ATIME then cur_time else rip.i_atime
      i_ctime := if rip.i_update.CTIME then cur_time else rip.i_ctime
      i_mtime := if rip.i_update.MTIME then cur_time else rip.i_mtime
      i_update := .none }

/-! ## The two layouts -/

def oldIcopyIn (rip : Inode p) (dip : D1Inode p) (norm : Bool) : Inode p :=
  { rip with
    i_mode := p.conv2 norm dip.d1_mode
    i_uid := p.conv2 norm dip.d1_uid
    i_size := (p.conv4 norm dip.d1_size).toInt32
    i_mtime := p.conv4 norm dip.d1_mtime
    i_atime := p.conv4 norm dip.d1_mtime
    i_ctime := p.conv4 norm dip.d1_mtime
    i_nlinks := dip.d1_nlinks.toUInt16
    i_gid := dip.d1_gid.toUInt16
    i_ndzones := p.V1_NR_DZONES
    i_nindirs := p.V1_INDIRECTS
    i_zone := Vector.ofFn fun i =>
      if h : i < p.V1_NR_TZONES then (p.conv2 norm (dip.d1_zone.get ⟨i, h⟩)).toUInt32
      else rip.i_zone.get i }

def oldIcopyOut (rip : Inode p) (norm : Bool) : D1Inode p :=
  { d1_mode := p.conv2 norm rip.i_mode
    d1_uid := p.conv2 norm rip.i_uid
    d1_size := p.conv4 norm rip.i_size.toUInt32
    d1_mtime := p.conv4 norm rip.i_mtime
    d1_nlinks := rip.i_nlinks.toUInt8
    d1_gid := rip.i_gid.toUInt8
    d1_zone := Vector.ofFn fun i => p.conv2 norm (rip.i_zone.get (i.castLE p.zones_le)).toUInt16 }

/-- The last argument tells whether the bytes are left as they are. -/
def oldIcopy (rip : Inode p) (dip : D1Inode p) (direction : Direction) (norm : Bool) :
    Inode p × D1Inode p :=
  match direction with
  | .READING => (oldIcopyIn rip dip norm, dip)
  | .WRITING => (rip, oldIcopyOut rip norm)

def newIcopyIn (rip : Inode p) (dip : D2Inode p) (norm : Bool) : Inode p :=
  { rip with
    i_mode := p.conv2 norm dip.d2_mode
    i_uid := p.conv2 norm dip.d2_uid
    i_nlinks := p.conv2 norm dip.d2_nlinks
    i_gid := p.conv2 norm dip.d2_gid
    i_size := (p.conv4 norm dip.d2_size).toInt32
    i_atime := p.conv4 norm dip.d2_atime
    i_ctime := p.conv4 norm dip.d2_ctime
    i_mtime := p.conv4 norm dip.d2_mtime
    i_ndzones := p.V2_NR_DZONES
    i_nindirs := p.V2_INDIRECTS (p.get_super rip.i_sp).s_block_size
    i_zone := Vector.ofFn fun i => p.conv4 norm (dip.d2_zone.get i) }

def newIcopyOut (rip : Inode p) (norm : Bool) : D2Inode p :=
  { d2_mode := p.conv2 norm rip.i_mode
    d2_uid := p.conv2 norm rip.i_uid
    d2_nlinks := p.conv2 norm rip.i_nlinks
    d2_gid := p.conv2 norm rip.i_gid
    d2_size := p.conv4 norm rip.i_size.toUInt32
    d2_atime := p.conv4 norm rip.i_atime
    d2_ctime := p.conv4 norm rip.i_ctime
    d2_mtime := p.conv4 norm rip.i_mtime
    d2_zone := Vector.ofFn fun i => p.conv4 norm (rip.i_zone.get i) }

def newIcopy (rip : Inode p) (dip : D2Inode p) (direction : Direction) (norm : Bool) :
    Inode p × D2Inode p :=
  match direction with
  | .READING => (newIcopyIn rip dip norm, dip)
  | .WRITING => (rip, newIcopyOut rip norm)

/-! ## Reading and writing -/

def inodeBlock (p : Platform) (dev : Dev) (numb : UInt32) : UInt32 :=
  let sp := p.get_super dev
  let offset := p.START_BLOCK + sp.s_imap_blocks + sp.s_zmap_blocks
  (numb - 1) / sp.s_inodes_per_block + offset

def index1 (p : Platform) (numb : UInt32) : UInt32 := (numb - 1) % p.V1_INODES_PER_BLOCK

def index2 (p : Platform) (dev : Dev) (numb : UInt32) : UInt32 :=
  (numb - 1) % p.V2_INODES_PER_BLOCK (p.get_super dev).s_block_size

/-- An inode points to its super block. -/
def attach (rip : Inode p) : Inode p := { rip with i_sp := rip.i_dev }

/-- A block of a read-only device is copied to as well, and only not marked dirty. -/
def rwInode (cur_time : UInt32) (s : State p) (r : Slot p) (rw_flag : Direction) : State p :=
  let dev := (s.inode r).i_dev
  let numb := (s.inode r).i_num
  let sp := p.get_super dev
  let s := s.modify r attach
  let b := inodeBlock p dev numb
  let bp := s.blocks dev b
  let s :=
    match rw_flag with
    | .READING => s
    | .WRITING =>
        if (s.inode r).i_update ≠ Update.none then s.modify r (updateTimes cur_time) else s
  let s :=
    if sp.s_version = .V1 then
      let i := index1 p numb
      let (rip, dip) := oldIcopy (s.inode r) (bp.b_v1_ino i) rw_flag sp.s_native
      (s.modify r fun _ => rip).putBlock dev b (bp.putV1 i dip)
    else
      let i := index2 p dev numb
      let (rip, dip2) := newIcopy (s.inode r) (bp.b_v2_ino i) rw_flag sp.s_native
      (s.modify r fun _ => rip).putBlock dev b (bp.putV2 i dip2)
  s.modify r markClean

/-! ## Records -/

/-- An inode on disk. -/
inductive Record (p : Platform) where
  | v1 (dip : D1Inode p)
  | v2 (dip : D2Inode p)
deriving DecidableEq, Repr

/-- The inode of this number on disk. -/
def record (s : State p) (dev : Dev) (numb : UInt32) : Record p :=
  let bp := s.blocks dev (inodeBlock p dev numb)
  if (p.get_super dev).s_version = .V1 then .v1 (bp.b_v1_ino (index1 p numb))
  else .v2 (bp.b_v2_ino (index2 p dev numb))

/-- What would be on disk if the inode was written now. -/
def encode (dev : Dev) (rip : Inode p) : Record p :=
  let sp := p.get_super dev
  if sp.s_version = .V1 then .v1 (oldIcopyOut rip sp.s_native)
  else .v2 (newIcopyOut rip sp.s_native)

/-- The inode with the fields that are on disk read from there. -/
def decode (dev : Dev) (rip : Inode p) : Record p → Inode p
  | .v1 dip => oldIcopyIn rip dip (p.get_super dev).s_native
  | .v2 dip => newIcopyIn rip dip (p.get_super dev).s_native

/-- What is put on disk for an inode. A record in the layout of another device is not one
of this device. -/
def setRecord (s : State p) (dev : Dev) (numb : UInt32) (rec : Record p) : State p :=
  let b := inodeBlock p dev numb
  let bp := s.blocks dev b
  match rec with
  | .v1 dip => s.putBlock dev b (bp.putV1 (index1 p numb) dip)
  | .v2 dip => s.putBlock dev b (bp.putV2 (index2 p dev numb) dip)

/-- Only blocks are written to. -/
theorem setRecord_eq (s : State p) (dev : Dev) (numb : UInt32) (rec : Record p) :
    setRecord s dev numb rec = { s with blocks := (setRecord s dev numb rec).blocks } := by
  cases rec with
  | v1 dip => rfl
  | v2 dip => rfl

/-- The inode with its times brought up to date as far as it is marked for that. -/
def stamp (cur_time : UInt32) (rip : Inode p) : Inode p :=
  if rip.i_update ≠ Update.none then updateTimes cur_time (attach rip) else attach rip

/-- A conversion between byte orders is undone by itself. -/
structure Conversions (p : Platform) : Prop where
  conv2 : ∀ norm w, p.conv2 norm (p.conv2 norm w) = w
  conv4 : ∀ norm w, p.conv4 norm (p.conv4 norm w) = w

/-- A block has as many inodes as its layout says. -/
def InodesPerBlock (p : Platform) : Prop :=
  ∀ dev, (p.get_super dev).s_inodes_per_block =
    if (p.get_super dev).s_version = .V1 then p.V1_INODES_PER_BLOCK
    else p.V2_INODES_PER_BLOCK (p.get_super dev).s_block_size

/-- The record is in the layout of the device. -/
def Record.On (dev : Dev) : Record p → Prop
  | .v1 _ => (p.get_super dev).s_version = .V1
  | .v2 _ => (p.get_super dev).s_version ≠ .V1

theorem record_on (s : State p) (dev : Dev) (numb : UInt32) : (record s dev numb).On dev := by
  unfold record
  dsimp only
  split_ifs with h
  · exact h
  · exact h

theorem encode_on (dev : Dev) (rip : Inode p) : (encode dev rip).On dev := by
  unfold encode
  dsimp only
  split_ifs with h
  · exact h
  · exact h

section Zones
variable {n : ℕ} {A : Type*}

theorem zone_ofFn (f : Fin n → A) (i : Fin n) : (Vector.ofFn f).get i = f i :=
  Vector.getElem_ofFn i.isLt

theorem zones_ext {a b : Vector A n} (h : ∀ i, a.get i = b.get i) : a = b :=
  Vector.ext fun i hi => h ⟨i, hi⟩

end Zones

theorem oldIcopyOut_in (hp : Conversions p) (rip : Inode p) (dip : D1Inode p) (norm : Bool) :
    oldIcopyOut (oldIcopyIn rip dip norm) norm = dip := by
  apply D1Inode.ext
  · exact hp.conv2 norm dip.d1_mode
  · exact hp.conv2 norm dip.d1_uid
  · exact hp.conv4 norm dip.d1_size
  · exact hp.conv4 norm dip.d1_mtime
  · exact UInt8.toUInt8_toUInt16 dip.d1_gid
  · exact UInt8.toUInt8_toUInt16 dip.d1_nlinks
  · apply zones_ext
    intro i
    unfold oldIcopyOut oldIcopyIn
    simp only [zone_ofFn, Fin.val_castLE, i.isLt, dif_pos, UInt16.toUInt16_toUInt32, hp.conv2]

theorem newIcopyOut_in (hp : Conversions p) (rip : Inode p) (dip : D2Inode p) (norm : Bool) :
    newIcopyOut (newIcopyIn rip dip norm) norm = dip := by
  apply D2Inode.ext
  · exact hp.conv2 norm dip.d2_mode
  · exact hp.conv2 norm dip.d2_nlinks
  · exact hp.conv2 norm dip.d2_uid
  · exact hp.conv2 norm dip.d2_gid
  · exact hp.conv4 norm dip.d2_size
  · exact hp.conv4 norm dip.d2_atime
  · exact hp.conv4 norm dip.d2_mtime
  · exact hp.conv4 norm dip.d2_ctime
  · apply zones_ext
    intro i
    unfold newIcopyOut newIcopyIn
    simp only [zone_ofFn, hp.conv4]

/-- What is read from a record is written back as that record. -/
theorem encode_decode (hp : Conversions p) {dev : Dev} {rec : Record p} (hrec : rec.On dev)
    (rip : Inode p) : encode dev (decode dev rip rec) = rec := by
  unfold encode
  cases rec with
  | v1 dip => exact (if_pos hrec).trans (congrArg Record.v1 (oldIcopyOut_in hp rip dip _))
  | v2 dip => exact (if_neg hrec).trans (congrArg Record.v2 (newIcopyOut_in hp rip dip _))

/-- Only times are brought up to date. -/
theorem updateTimes_fields (cur_time : UInt32) (rip : Inode p) :
    updateTimes cur_time rip =
      { rip with
        i_atime := (updateTimes cur_time rip).i_atime
        i_ctime := (updateTimes cur_time rip).i_ctime
        i_mtime := (updateTimes cur_time rip).i_mtime
        i_update := (updateTimes cur_time rip).i_update } := by
  unfold updateTimes
  by_cases hro : (p.get_super rip.i_sp).s_rd_only = true
  · rw [if_pos hro]
  · rw [if_neg hro]

theorem stamp_fields (cur_time : UInt32) (rip : Inode p) :
    stamp cur_time rip =
      { rip with
        i_atime := (stamp cur_time rip).i_atime
        i_ctime := (stamp cur_time rip).i_ctime
        i_mtime := (stamp cur_time rip).i_mtime
        i_update := (stamp cur_time rip).i_update
        i_sp := rip.i_dev } := by
  unfold stamp
  by_cases hupdate : rip.i_update ≠ Update.none
  · rw [if_pos hupdate]
    exact updateTimes_fields cur_time (attach rip)
  · rw [if_neg hupdate]
    rfl

/-- What is not on disk is left alone by reading. -/
theorem decode_links (dev : Dev) (rip : Inode p) (rec : Record p) :
    (decode dev rip rec).i_dev = rip.i_dev ∧ (decode dev rip rec).i_num = rip.i_num ∧
      (decode dev rip rec).i_sp = rip.i_sp ∧ (decode dev rip rec).i_count = rip.i_count := by
  cases rec with
  | v1 dip => exact ⟨rfl, rfl, rfl, rfl⟩
  | v2 dip => exact ⟨rfl, rfl, rfl, rfl⟩

theorem rwInode_reading (cur_time : UInt32) (s : State p) (r : Slot p) :
    rwInode cur_time s r .READING = s.modify r fun rip =>
      markClean (decode rip.i_dev (attach rip) (record s rip.i_dev rip.i_num)) := by
  unfold rwInode record
  dsimp only
  split_ifs with hversion
  · simp only [oldIcopy, putV1_self]
    rw [putBlock_self _ _ _ (by rfl), modify_modify, modify_modify]
    apply modify_congr
    rw [inode_modify_self, if_pos hversion]
    rfl
  · simp only [newIcopy, putV2_self]
    rw [putBlock_self _ _ _ (by rfl), modify_modify, modify_modify]
    apply modify_congr
    rw [inode_modify_self, if_neg hversion]
    rfl

/-- What `rw_inode` does in front of the copying. -/
theorem stamp_eq (cur_time : UInt32) (s : State p) (r : Slot p) :
    (if ((s.modify r attach).inode r).i_update ≠ Update.none then
      (s.modify r attach).modify r (updateTimes cur_time) else s.modify r attach) =
    s.modify r (stamp cur_time) := by
  rw [inode_modify_self, modify_modify]
  split_ifs with hupdate
  · apply modify_congr
    exact (if_pos hupdate).symm
  · apply modify_congr
    exact (if_neg hupdate).symm

theorem rwInode_writing (cur_time : UInt32) (s : State p) (r : Slot p) :
    rwInode cur_time s r .WRITING =
      setRecord (s.modify r fun rip => markClean (stamp cur_time rip))
        (s.inode r).i_dev (s.inode r).i_num
        (encode (s.inode r).i_dev (stamp cur_time (s.inode r))) := by
  unfold rwInode encode
  dsimp only
  rw [stamp_eq]
  split_ifs with hversion
  · simp only [oldIcopy, modify_self]
    rw [inode_modify_self, ← modify_modify s r (stamp cur_time) markClean]
    rfl
  · simp only [newIcopy, modify_self]
    rw [inode_modify_self, ← modify_modify s r (stamp cur_time) markClean]
    rfl

theorem place_inj {k offset a b : UInt32}
    (hblock : (a - 1) / k + offset = (b - 1) / k + offset) (hindex : (a - 1) % k = (b - 1) % k) :
    a = b := by
  have hdiv := congrArg UInt32.toNat ((UInt32.add_left_inj offset).mp hblock)
  have hmod := congrArg UInt32.toNat hindex
  rw [UInt32.toNat_div, UInt32.toNat_div] at hdiv
  rw [UInt32.toNat_mod, UInt32.toNat_mod] at hmod
  have ha := Nat.div_add_mod (a - 1).toNat k.toNat
  rw [hdiv, hmod, Nat.div_add_mod] at ha
  exact ((UInt32.sub_left_inj 1).mp (UInt32.toNat_inj.mp ha)).symm

theorem record_putBlock_of_ne (s : State p) (dev d : Dev) (numb n : UInt32) (bp : Block p)
    (h : ¬ (d = dev ∧ inodeBlock p d n = inodeBlock p dev numb)) :
    record (s.putBlock dev (inodeBlock p dev numb) bp) d n = record s d n := by
  unfold record
  dsimp only
  rw [blocks_putBlock, if_neg h]

theorem record_putBlock (s : State p) (dev : Dev) (numb n : UInt32) (bp : Block p)
    (h : inodeBlock p dev n = inodeBlock p dev numb) :
    record (s.putBlock dev (inodeBlock p dev numb) bp) dev n =
      if (p.get_super dev).s_version = .V1 then .v1 (bp.b_v1_ino (index1 p n))
      else .v2 (bp.b_v2_ino (index2 p dev n)) := by
  have hplace : dev = dev ∧ inodeBlock p dev n = inodeBlock p dev numb := ⟨rfl, h⟩
  unfold record
  dsimp only
  rw [blocks_putBlock, if_pos hplace]

theorem record_setRecord_self (s : State p) {dev : Dev} {rec : Record p} (hrec : rec.On dev)
    (numb : UInt32) : record (setRecord s dev numb rec) dev numb = rec := by
  cases rec with
  | v1 dip =>
      have hversion : (p.get_super dev).s_version = .V1 := hrec
      refine (record_putBlock s dev numb numb _ rfl).trans ?_
      rw [if_pos hversion, putV1_ino, if_pos rfl]
  | v2 dip =>
      have hversion : ¬ (p.get_super dev).s_version = .V1 := hrec
      refine (record_putBlock s dev numb numb _ rfl).trans ?_
      rw [if_neg hversion, putV2_ino, if_pos rfl]

/-- No two inodes of a device share a place in a block. -/
theorem record_setRecord_of_ne (hp : InodesPerBlock p) (s : State p) {dev : Dev} {rec : Record p}
    (hrec : rec.On dev) {numb n : UInt32} {d : Dev} (hne : ¬ (d = dev ∧ n = numb)) :
    record (setRecord s dev numb rec) d n = record s d n := by
  by_cases hplace : d = dev ∧ inodeBlock p d n = inodeBlock p dev numb
  · obtain ⟨rfl, hblock⟩ := hplace
    have hn : n ≠ numb := fun he => hne ⟨rfl, he⟩
    have hcount := hp d
    cases rec with
    | v1 dip =>
        have hversion : (p.get_super d).s_version = .V1 := hrec
        rw [if_pos hversion] at hcount
        have hindex : index1 p n ≠ index1 p numb := by
          intro he
          unfold inodeBlock at hblock
          unfold index1 at he
          rw [← hcount] at he
          exact hn (place_inj hblock he)
        refine (record_putBlock s d numb n _ hblock).trans ?_
        rw [if_pos hversion, putV1_ino, if_neg hindex, ← hblock]
        unfold record
        rw [if_pos hversion]
    | v2 dip =>
        have hversion : ¬ (p.get_super d).s_version = .V1 := hrec
        rw [if_neg hversion] at hcount
        have hindex : index2 p d n ≠ index2 p d numb := by
          intro he
          unfold inodeBlock at hblock
          unfold index2 at he
          rw [← hcount] at he
          exact hn (place_inj hblock he)
        refine (record_putBlock s d numb n _ hblock).trans ?_
        rw [if_neg hversion, putV2_ino, if_neg hindex, ← hblock]
        unfold record
        rw [if_neg hversion]
  · cases rec with
    | v1 dip => exact record_putBlock_of_ne s dev d numb n _ hplace
    | v2 dip => exact record_putBlock_of_ne s dev d numb n _ hplace

end MinixOS.InodeCopy
