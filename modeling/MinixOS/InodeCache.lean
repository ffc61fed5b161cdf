import MinixOS.InodeCopy

/-!
# The inode cache

The functions of inode.c that look up, acquire and release inodes. The allocation of a
bit is left to the parameter `alloc_bit`, which answers with a number for a bit map
and an origin, and what freeing one does to the bit map to `free_bit`. The file and line in a message are left out, and major and
minor device number are given by the device.
-/
namespace MinixOS.InodeCache
open InodeState InodeCopy

variable {p : Platform}

def clearNumber (rip : Inode p) : Inode p := { rip with i_num := NO_ENTRY }

/-- The list heads are pushed one after the other, so the last slot comes first. -/
def initInodeCache (s : State p) : State p :=
  { s with
    inode_cache_hit := 0
    inode_cache_miss := 0
    unused_inodes := (List.finRange p.NR_INODES).reverse
    hash_inodes := fun _ => []
    inode := fun r => clearNumber (s.inode r) }

/-! ## Hash lists -/

def hashIndex (p : Platform) (numb : UInt32) : UInt32 := numb &&& p.INODE_HASH_MASK

def addhashInode (s : State p) (node : Slot p) : State p :=
  let hashi := hashIndex p (s.inode node).i_num
  { s with hash_inodes := Function.update s.hash_inodes hashi (node :: s.hash_inodes hashi) }

def unhashInode (s : State p) (node : Slot p) : State p :=
  { s with hash_inodes := fun hashi => (s.hash_inodes hashi).erase node }

/-- The loop over a hash list. -/
def searchHash (s : State p) (dev : Dev) (numb : UInt32) : Option (Slot p) :=
  (s.hash_inodes (hashIndex p numb)).find? fun rip =>
    (s.inode rip).i_num = numb ∧ (s.inode rip).i_dev = dev

/-! ## Bit maps -/

def allocBit (env : Environment p) (s : State p) (dev : Dev) (origin : UInt32) :
    UInt32 × State p :=
  let b := env.alloc_bit (s.imap dev) origin
  (b, if b = NO_BIT then s else s.setBit dev b true)

def freeBit (env : Environment p) (s : State p) (dev : Dev) (b : UInt32) : State p :=
  { s with imap := Function.update s.imap dev (env.free_bit (s.imap dev) b) }

def freeInode (env : Environment p) (s : State p) (dev : Dev) (inumb : UInt32) : State p :=
  if inumb = NO_ENTRY ∨ inumb > (p.get_super dev).s_ninodes then s
  else
    let s := freeBit env s dev inumb
    if inumb < s.s_isearch dev then s.setSearch dev inumb else s

/-! ## Acquiring and releasing -/

def setCount (i_count : ℕ) (rip : Inode p) : Inode p := { rip with i_count := i_count }

def setNumber (dev : Dev) (numb : UInt32) (rip : Inode p) : Inode p :=
  { rip with i_dev := dev, i_num := numb, i_count := 1 }

/-- What `get_inode` assigns to an inode after it was read. -/
def settle (rip : Inode p) : Inode p :=
  { rip with i_update := .none, i_zsearch := NO_ZONE, i_mountpoint := false, i_last_dpos := 0 }

/-- What `get_inode` does with the first slot of the free list. -/
def loadSlot (env : Environment p) (s : State p) (rip : Slot p) (dev : Dev) (numb : UInt32) :
    State p :=
  let s := if (s.inode rip).i_num ≠ NO_ENTRY then unhashInode s rip else s
  let s := s.setUnused (s.unused_inodes.erase rip)
  let s := s.modify rip (setNumber dev numb)
  let s := if dev ≠ NO_DEV then rwInode env.clock_time s rip .READING else s
  let s := s.modify rip settle
  addhashInode s rip

/-- Answers NULL if there is no slot. -/
def getInode (env : Environment p) (s : State p) (dev : Dev) (numb : UInt32) :
    Option (Slot p) × State p :=
  match searchHash s dev numb with
  | some rip =>
      let s :=
        if (s.inode rip).i_count = 0 then
          s.countHit.setUnused (s.unused_inodes.erase rip)
        else s
      (some rip, s.modify rip (setCount ((s.inode rip).i_count + 1)))
  | none =>
      match s.unused_inodes with
      | [] => (none, s.countMiss.setError .ENFILE)
      | rip :: _ => (some rip, loadSlot env s.countMiss rip dev numb)

/-- What `put_inode` does when nobody uses the inode any more. -/
def releaseInode (env : Environment p) (s : State p) (rip : Slot p) : State p :=
  let s :=
    if (s.inode rip).i_nlinks = NO_LINK then
      freeInode env (markDirty s rip) (s.inode rip).i_dev (s.inode rip).i_num
    else s
  let s :=
    if (s.inode rip).i_dirt = .IN_DIRTY then rwInode env.clock_time s rip .WRITING else s
  if (s.inode rip).i_nlinks = NO_LINK then
    let s := unhashInode s rip
    let s := s.modify rip clearNumber
    s.setUnused (rip :: s.unused_inodes)
  else s.setUnused (s.unused_inodes ++ [rip])

def putInode (env : Environment p) (s : State p) : Option (Slot p) → Except Stop (State p)
  | none => .ok s
  | some rip =>
      if (s.inode rip).i_count < 1 then .error (.panic "put_inode: i_count already below 1: %d")
      else
        let s := s.modify rip (setCount ((s.inode rip).i_count - 1))
        if (s.inode rip).i_count = 0 then .ok (releaseInode env s rip) else .ok s

def dupInode (s : State p) (ip : Slot p) : State p :=
  s.modify ip (setCount ((s.inode ip).i_count + 1))

/-! ## Allocating and retrieving -/

def eraseSize (rip : Inode p) : Inode p := { rip with i_size := 0, i_update := ⟨true, true, true⟩ }

def eraseZones (rip : Inode p) : Inode p := { rip with i_zone := Vector.replicate _ NO_ZONE }

def wipeInode (s : State p) (rip : Slot p) : State p :=
  let s := s.modify rip eraseSize
  let s := markDirty s rip
  s.modify rip eraseZones

/-- What `alloc_inode` assigns to the inode in the acquired slot. -/
def fillInode (env : Environment p) (dev : Dev) (bits : UInt16) (rip : Inode p) : Inode p :=
  let sp := p.get_super dev
  { rip with
    i_mode := bits
    i_nlinks := NO_LINK
    i_uid := env.caller_uid
    i_gid := env.caller_gid
    i_dev := dev
    i_ndzones := sp.s_ndzones
    i_nindirs := sp.s_nindirs
    i_sp := dev }

def allocInode (env : Environment p) (s : State p) (dev : Dev) (bits : UInt16) :
    Option (Slot p) × State p :=
  let sp := p.get_super dev
  if sp.s_rd_only then (none, s.setError .EROFS)
  else
    let (b, s) := allocBit env s dev (s.s_isearch dev)
    if b = NO_BIT then
      (none, (s.setError .ENOSPC).print "Out of i-nodes on device %d/%d\n" [dev.toNat])
    else
      let s := s.setSearch dev b
      match getInode env s NO_DEV b with
      | (none, s) => (none, freeBit env s dev b)
      | (some rip, s) =>
          -- a new inode has no zones, and so no entries of a directory
          (some rip, (wipeInode (s.modify rip (fillInode env dev bits)) rip).setDirectory dev b [])

/-- The loop that prints the zones. -/
def printZones (s : State p) : Option (Slot p) → Except Stop (State p)
  | none => if p.V2_NR_TZONES = 0 then .ok s else .error .nullPointer
  | some rip =>
      .ok ((List.finRange p.V2_NR_TZONES).foldl (fun s i =>
        s.print "zone[%d] = %d" [i.val, ((s.inode rip).i_zone.get i).toNat]) s)

/-- The number that `alloc_bit` answers is not looked at. -/
def retrieveInode (env : Environment p) (s : State p) (dev : Dev) (inumb : UInt32) :
    Except Stop (Option (Slot p) × State p) := do
  let b := inumb
  let (_, s) := allocBit env s dev b
  let (rip, s) := getInode env s dev inumb
  let s := if rip = none then freeBit env s dev b else s
  let s ← printZones s rip
  return (rip, s)

end MinixOS.InodeCache
