import Mathlib.Data.Int.Notation
import Mathlib.Data.Nat.Notation
import Mathlib.Data.Vector.Defs
import Mathlib.Logic.Function.Basic
import Mathlib.Tactic.Common

/-!
# The inode table

The data that the functions of inode.c and link.c work on: `struct inode` of inode.h, the
free list, the hash lists, and of the other files what these functions use. A pointer
to an inode is the index of its slot, and the pointer to a super block is the device.
The constants of the headers, the super blocks and the conversions between byte orders are
parameters.

The signed fields of an inode on disk are given by their bits. A block is seen
as an array of inodes of either layout, and the contents of a directory as the
list of its entries.
-/
namespace MinixOS.InodeState

abbrev Dev := UInt32
abbrev Name := String
abbrev Directory := List (Name × UInt32)

def NO_DEV : Dev := 0
def NO_ENTRY : UInt32 := 0
def NO_BIT : UInt32 := 0
def NO_ZONE : UInt32 := 0
def NO_LINK : UInt16 := 0

inductive Version where
  | V1
  | V2
  | V3
deriving DecidableEq, Repr

/-- The members of a super block that do not change while it is mounted. -/
structure SuperBlock where
  s_ninodes : UInt32
  s_imap_blocks : UInt32
  s_zmap_blocks : UInt32
  s_inodes_per_block : UInt32
  s_rd_only : Bool
  s_native : Bool
  s_version : Version
  s_ndzones : UInt32
  s_nindirs : UInt32
  s_block_size : UInt32

structure Platform where
  NR_INODES : ℕ
  INODE_HASH_MASK : UInt32
  V1_NR_DZONES : UInt32
  V1_INDIRECTS : UInt32
  V1_NR_TZONES : ℕ
  V1_INODES_PER_BLOCK : UInt32
  V2_NR_DZONES : UInt32
  V2_INDIRECTS : UInt32 → UInt32
  V2_NR_TZONES : ℕ
  V2_INODES_PER_BLOCK : UInt32 → UInt32
  zones_le : V1_NR_TZONES ≤ V2_NR_TZONES
  START_BLOCK : UInt32
  LINK_MAX : UInt16
  SU_UID : UInt16
  I_TYPE : UInt16
  I_DIRECTORY : UInt16
  conv2 : Bool → UInt16 → UInt16
  conv4 : Bool → UInt32 → UInt32
  get_super : Dev → SuperBlock

/-- The bits of `i_update`. -/
structure Update where
  ATIME : Bool
  CTIME : Bool
  MTIME : Bool
deriving DecidableEq, Repr

def Update.none : Update := ⟨false, false, false⟩

inductive Dirt where
  | IN_CLEAN
  | IN_DIRTY
deriving DecidableEq, Repr

variable {p : Platform}

abbrev Slot (p : Platform) := Fin p.NR_INODES

structure Inode (p : Platform) where
  i_mode : UInt16
  i_nlinks : UInt16
  i_uid : UInt16
  i_gid : UInt16
  i_size : Int32
  i_atime : UInt32
  i_mtime : UInt32
  i_ctime : UInt32
  i_zone : Vector UInt32 p.V2_NR_TZONES
  i_dev : Dev
  i_num : UInt32
  i_count : ℕ
  i_ndzones : UInt32
  i_nindirs : UInt32
  i_sp : Dev
  i_dirt : Dirt
  i_zsearch : UInt32
  i_last_dpos : Int32
  i_mountpoint : Bool
  i_update : Update
deriving DecidableEq, Repr

/-- The inode of the V1 layout. -/
@[ext]
structure D1Inode (p : Platform) where
  d1_mode : UInt16
  d1_uid : UInt16
  d1_size : UInt32
  d1_mtime : UInt32
  d1_gid : UInt8
  d1_nlinks : UInt8
  d1_zone : Vector UInt16 p.V1_NR_TZONES
deriving DecidableEq, Repr

/-- The inode of the V2 layout. -/
@[ext]
structure D2Inode (p : Platform) where
  d2_mode : UInt16
  d2_nlinks : UInt16
  d2_uid : UInt16
  d2_gid : UInt16
  d2_size : UInt32
  d2_atime : UInt32
  d2_mtime : UInt32
  d2_ctime : UInt32
  d2_zone : Vector UInt32 p.V2_NR_TZONES
deriving DecidableEq, Repr

structure Block (p : Platform) where
  b_v1_ino : UInt32 → D1Inode p
  b_v2_ino : UInt32 → D2Inode p

inductive Errno where
  | OK
  | EINVAL
  | ENOENT
  | ENFILE
  | ENOSPC
  | EROFS
  | EMLINK
  | EPERM
  | EEXIST
  | EBUSY
  | EENTERMOUNT
  | ELEAVEMOUNT
  | other (code : ℤ)
deriving DecidableEq, Repr

inductive Event where
  | printf (format : String) (args : List ℕ)
deriving DecidableEq, Repr

/-- Why a call comes to no result. -/
inductive Stop where
  | nullPointer
  | panic (format : String)
deriving DecidableEq, Repr

inductive Flag where
  | LOOK_UP
  | ENTER
  | DELETE
  | IS_EMPTY
deriving DecidableEq, Repr

/-- What `search_dir` answers, the number it finds, the entries it leaves, what it assigns to
the inode of the directory, and whether it writes that to disk. -/
structure Searched (p : Platform) where
  answer : Errno
  numb : UInt32
  entries : Directory
  dirp : Inode p → Inode p
  written : Bool

/-- What `advance` finds: no such entry, or the number of the inode, with the `err_code` left. -/
inductive Found where
  | missing (err_code : Errno)
  | entry (numb : UInt32) (err_code : Errno)
deriving DecidableEq, Repr

/-- The caller, the time, and how the functions of other files answer during a call. -/
structure Environment (p : Platform) where
  caller_uid : UInt16
  caller_gid : UInt16
  clock_time : UInt32
  alloc_bit : (UInt32 → Bool) → UInt32 → UInt32
  free_bit : (UInt32 → Bool) → UInt32 → UInt32 → Bool
  search_dir : Directory → Name → Option UInt32 → Flag → Searched p
  advance : Directory → Name → Found

/-- The globals, the two bit maps of each device, and the blocks as last written. -/
structure State (p : Platform) where
  inode : Slot p → Inode p
  unused_inodes : List (Slot p)
  hash_inodes : UInt32 → List (Slot p)
  inode_cache_hit : ℕ
  inode_cache_miss : ℕ
  err_code : Errno
  s_isearch : Dev → UInt32
  imap : Dev → UInt32 → Bool
  zmap : Dev → UInt32 → Bool
  blocks : Dev → UInt32 → Block p
  directories : Dev → UInt32 → Directory
  log : List Event

def State.modify (s : State p) (r : Slot p) (f : Inode p → Inode p) : State p :=
  { s with inode := Function.update s.inode r (f (s.inode r)) }

def State.print (s : State p) (format : String) (args : List ℕ) : State p :=
  { s with log := s.log ++ [.printf format args] }

def State.setUnused (s : State p) (l : List (Slot p)) : State p := { s with unused_inodes := l }

def State.setError (s : State p) (e : Errno) : State p := { s with err_code := e }

def State.setSearch (s : State p) (dev : Dev) (b : UInt32) : State p :=
  { s with s_isearch := Function.update s.s_isearch dev b }

def State.countHit (s : State p) : State p := { s with inode_cache_hit := s.inode_cache_hit + 1 }

def State.countMiss (s : State p) : State p := { s with inode_cache_miss := s.inode_cache_miss + 1 }

def State.putBlock (s : State p) (dev : Dev) (b : UInt32) (bp : Block p) : State p :=
  { s with blocks := Function.update s.blocks dev (Function.update (s.blocks dev) b bp) }

def State.setDirectory (s : State p) (dev : Dev) (numb : UInt32) (entries : Directory) : State p :=
  { s with
    directories := Function.update s.directories dev
      (Function.update (s.directories dev) numb entries) }

/-- The block with another inode at this index. -/
def Block.putV1 (bp : Block p) (i : UInt32) (dip : D1Inode p) : Block p :=
  { bp with b_v1_ino := Function.update bp.b_v1_ino i dip }

def Block.putV2 (bp : Block p) (i : UInt32) (dip : D2Inode p) : Block p :=
  { bp with b_v2_ino := Function.update bp.b_v2_ino i dip }

def State.setBit (s : State p) (dev : Dev) (b : UInt32) (bit : Bool) : State p :=
  { s with imap := Function.update s.imap dev (Function.update (s.imap dev) b bit) }

theorem inode_modify (s : State p) (q r : Slot p) (f : Inode p → Inode p) :
    (s.modify r f).inode q = if q = r then f (s.inode r) else s.inode q :=
  Function.update_apply s.inode r (f (s.inode r)) q

@[simp] theorem inode_modify_self (s : State p) (r : Slot p) (f : Inode p → Inode p) :
    (s.modify r f).inode r = f (s.inode r) := by
  rw [inode_modify, if_pos rfl]

theorem inode_modify_of_ne (s : State p) {q r : Slot p} (f : Inode p → Inode p) (h : q ≠ r) :
    (s.modify r f).inode q = s.inode q := by
  rw [inode_modify, if_neg h]

theorem modify_modify (s : State p) (r : Slot p) (f g : Inode p → Inode p) :
    (s.modify r f).modify r g = s.modify r fun rip => g (f rip) := by
  unfold State.modify
  simp

theorem modify_congr {s : State p} {r : Slot p} {f g : Inode p → Inode p}
    (h : f (s.inode r) = g (s.inode r)) : s.modify r f = s.modify r g := by
  unfold State.modify
  rw [h]

theorem modify_self (s : State p) (r : Slot p) : (s.modify r fun _ => s.inode r) = s := by
  unfold State.modify
  rw [Function.update_eq_self]

theorem putBlock_self (s : State p) (dev : Dev) (b : UInt32) {bp : Block p}
    (h : bp = s.blocks dev b) : s.putBlock dev b bp = s := by
  unfold State.putBlock
  rw [h, Function.update_eq_self, Function.update_eq_self]

theorem putV1_self (bp : Block p) (i : UInt32) : bp.putV1 i (bp.b_v1_ino i) = bp := by
  unfold Block.putV1
  rw [Function.update_eq_self]

theorem putV2_self (bp : Block p) (i : UInt32) : bp.putV2 i (bp.b_v2_ino i) = bp := by
  unfold Block.putV2
  rw [Function.update_eq_self]

theorem putV1_ino (bp : Block p) (i j : UInt32) (dip : D1Inode p) :
    (bp.putV1 i dip).b_v1_ino j = if j = i then dip else bp.b_v1_ino j :=
  Function.update_apply bp.b_v1_ino i dip j

theorem putV2_ino (bp : Block p) (i j : UInt32) (dip : D2Inode p) :
    (bp.putV2 i dip).b_v2_ino j = if j = i then dip else bp.b_v2_ino j :=
  Function.update_apply bp.b_v2_ino i dip j

theorem blocks_putBlock (s : State p) (dev d : Dev) (b c : UInt32) (bp : Block p) :
    (s.putBlock dev b bp).blocks d c = if d = dev ∧ c = b then bp else s.blocks d c := by
  unfold State.putBlock
  simp only [Function.update_apply]
  by_cases hd : d = dev
  · subst hd
    simp [Function.update_apply]
  · simp [hd]

theorem imap_setBit (s : State p) (dev d : Dev) (b c : UInt32) (bit : Bool) :
    (s.setBit dev b bit).imap d c = if d = dev ∧ c = b then bit else s.imap d c := by
  unfold State.setBit
  simp only [Function.update_apply]
  by_cases hd : d = dev
  · subst hd
    simp [Function.update_apply]
  · simp [hd]

end MinixOS.InodeState
