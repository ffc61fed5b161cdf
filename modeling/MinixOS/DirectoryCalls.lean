import MinixOS.LinkCalls
import MinixOS.LoopExecution

/-!
# Directories

The other requests of link.c that work on directory entries: `rmdir`, which `fs_unlink` serves as
well, `fs_rename`, and `fs_rdlink`. To move a directory, `fs_rename` follows the entries `..`
upwards from the new place, and may go on with that forever. The model makes a bounded number
of these passes.
-/
namespace MinixOS.DirectoryCalls
open LoopExecution InodeState InodeCopy InodeCache LinkCalls

variable {p : Platform}

/-- What these functions use of the headers besides. -/
structure Headers where
  ROOT_INODE : UInt32
  I_SYMBOLIC_LINK : UInt16
  UMAX_FILE_POS : ℕ
  EXDEV : ℤ
  ENOTDIR : ℤ
  EISDIR : ℤ
  EACCES : ℤ
  EIO : ℤ

def SAME : Errno := .other 1000

def dot1 : Name := "."
def dot2 : Name := ".."

/-! ## rmdir -/

def removeDir (hdr : Headers) (env : Environment p) (s : State p) (rldirp rip : Slot p)
    (dir_name : Name) : Except Stop (Errno × State p) :=
  let (r, _, s) := searchDir env s rip "" none .IS_EMPTY
  if r ≠ .OK then .ok (r, s)
  else if dir_name = dot1 ∨ dir_name = dot2 then .ok (.EINVAL, s)
  else if (s.inode rip).i_num = hdr.ROOT_INODE then .ok (.EBUSY, s)
  else do
    let (r, s) ← unlinkFile env s rldirp (some rip) dir_name
    if r ≠ .OK then return (r, s)
    else
      let (_, s) ← unlinkFile env s rip none dot1
      let (_, s) ← unlinkFile env s rip none dot2
      return (.OK, s)

/-- What `fs_unlink` does for REQ_RMDIR when both inodes are open. -/
def tryRemove (hdr : Headers) (env : Environment p) (s : State p) (rldirp rip : Slot p)
    (string : Name) : Except Stop (Errno × State p) :=
  if (p.get_super (s.inode rip).i_sp).s_rd_only then .ok (.EROFS, s)
  else removeDir hdr env s rldirp rip string

/-- `fs_unlink`, with what it does when both inodes are open. -/
def unlinkWith (attempt : State p → Slot p → Slot p → Name → Except Stop (Errno × State p))
    (env : Environment p) (m : Message) (s : State p) : Except Stop (Errno × State p) :=
  if m.copied ≠ .OK then .ok (m.copied, s)
  else
    match getInode env s m.fs_dev m.REQ_INODE_NR with
    | (none, s) => .ok (.EINVAL, s)
    | (some rldirp, s) =>
        let (rip, s) := advance env s rldirp m.string
        let r := s.err_code
        if r ≠ .OK then
          if r = .EENTERMOUNT ∨ r = .ELEAVEMOUNT then do
            let s ← putInode env s rip
            let s ← putInode env s (some rldirp)
            return (.EBUSY, s)
          else do
            let s ← putInode env s (some rldirp)
            return (r, s)
        else
          match rip with
          | none => .error .nullPointer
          | some rip => do
              let (r, s) ← attempt s rldirp rip m.string
              let s ← putInode env s (some rip)
              let s ← putInode env s (some rldirp)
              return (r, s)

theorem fsUnlink_eq (env : Environment p) (m : Message) (s : State p) :
    fsUnlink env m s = unlinkWith (tryUnlink env) env m s := rfl

/-- `fs_unlink` for REQ_RMDIR. -/
def fsRmdir (hdr : Headers) (env : Environment p) (m : Message) (s : State p) :
    Except Stop (Errno × State p) := unlinkWith (tryRemove hdr env) env m s

/-! ## fs_rdlink -/

/-- What the caller wants, the block that `read_map` finds, and the answer of `sys_safecopyto`. -/
structure ReadMessage where
  fs_dev : Dev
  REQ_INODE_NR : UInt32
  REQ_MEM_SIZE : ℕ
  block : Option ℕ
  copied : Errno
deriving DecidableEq, Repr

/-- Answers with the number of bytes as well, if they were copied. -/
def copyLink (hdr : Headers) (m : ReadMessage) (rip : Inode p) : Errno × Option ℕ :=
  let copylen := min m.REQ_MEM_SIZE hdr.UMAX_FILE_POS
  if rip.i_mode &&& p.I_TYPE ≠ hdr.I_SYMBOLIC_LINK then (.other hdr.EACCES, none)
  else if m.block = none then (.other hdr.EIO, none)
  else (m.copied, if m.copied = .OK then some (min copylen rip.i_size.toUInt32.toNat) else none)

def fsRdlink (hdr : Headers) (env : Environment p) (m : ReadMessage) (s : State p) :
    Except Stop ((Errno × Option ℕ) × State p) :=
  match getInode env s m.fs_dev m.REQ_INODE_NR with
  | (none, s) => .ok ((.EINVAL, none), s)
  | (some rip, s) => do
      let r := copyLink hdr m (s.inode rip)
      let s ← putInode env s (some rip)
      return (r, s)

/-! ## fs_rename -/

/-- Why a rename comes to no result: it is stopped, or it needs more passes of its loop. -/
inductive Halt where
  | stopped (stop : Stop)
  | passesRanOut
deriving DecidableEq, Repr

instance : MonadLift (Except Stop) (Except Halt) where
  monadLift x := x.mapError .stopped

structure RenameMessage where
  fs_dev : Dev
  REQ_REN_OLD_DIR : UInt32
  REQ_REN_NEW_DIR : UInt32
  copied_old : Errno
  old_name : Name
  copied_new : Errno
  new_name : Name
deriving DecidableEq, Repr

/-- One pass of the loop, with `new_superdirp` and the state as its variables. -/
def superdirPass (env : Environment p) (old_ip : Slot p) (v : Slot p × State p) :
    Pass (Slot p × State p) (Except Stop (Errno × State p)) :=
  let (new_superdirp, s) := v
  if new_superdirp = old_ip then
    .leave do
      let s ← putInode env s (some new_superdirp)
      return (.EINVAL, s)
  else
    let (next_new_superdirp, s) := advance env s new_superdirp dot2
    match putInode env s (some new_superdirp) with
    | .error stop => .leave (.error stop)
    | .ok s =>
        if next_new_superdirp = some new_superdirp then
          .leave do
            let s ← putInode env s (some new_superdirp)
            return (.OK, s)
        else if s.err_code = .ELEAVEMOUNT then
          .leave do
            let s ← putInode env s next_new_superdirp
            return (.OK, s.setError .OK)
        else
          match next_new_superdirp with
          | none => .leave (.ok (.EINVAL, s))
          | some new_superdirp => .again (new_superdirp, s)

/-- The old inode must not be a superdirectory of the new last directory. -/
def checkSuperdir (env : Environment p) (fuel : ℕ) (s : State p) (old_ip new_dirp : Slot p) :
    Except Halt (Errno × State p) :=
  match run (superdirPass env old_ip) fuel (new_dirp, dupInode s new_dirp) with
  | none => .error .passesRanOut
  | some out => out.mapError .stopped

/-- The checks of the names, and of the file that the new name has already. -/
def checkNames (hdr : Headers) (m : RenameMessage) (s : State p) (old_ip new_dirp : Slot p)
    (new_ip : Option (Slot p)) (odir same_pdir : Bool) (r : Errno) : Errno :=
  let r :=
    if m.old_name = dot1 ∨ m.old_name = dot2 ∨ m.new_name = dot1 ∨ m.new_name = dot2 then .EINVAL
    else r
  match new_ip with
  | none =>
      if odir ∧ (s.inode new_dirp).i_nlinks ≥ p.LINK_MAX ∧ ¬ same_pdir ∧ r = .OK then .EMLINK else r
  | some new_ip =>
      let r := if old_ip = new_ip then SAME else r
      let ndir := isDirectory (s.inode new_ip)
      let r := if odir ∧ ¬ ndir then .other hdr.ENOTDIR else r
      if ¬ odir ∧ ndir then .other hdr.EISDIR else r

/-- The file that the new name has already is removed. -/
def removeNew (hdr : Headers) (env : Environment p) (s : State p) (new_dirp : Slot p)
    (new_ip : Option (Slot p)) (odir : Bool) (new_name : Name) : Except Stop (Errno × State p) :=
  match new_ip with
  | none => .ok (.OK, s)
  | some new_ip =>
      if odir then removeDir hdr env s new_dirp new_ip new_name
      else unlinkFile env s new_dirp (some new_ip) new_name

/-- The entry is made under the new name and deleted under the old one. -/
def moveEntry (env : Environment p) (m : RenameMessage) (s : State p)
    (old_dirp old_ip new_dirp : Slot p) (same_pdir : Bool) : Errno × State p :=
  let numb := (s.inode old_ip).i_num
  if same_pdir then
    let (r, _, s) := searchDir env s old_dirp m.old_name none .DELETE
    (r, if r = .OK then (searchDir env s old_dirp m.new_name (some numb) .ENTER).2.2 else s)
  else
    let (r, _, s) := searchDir env s new_dirp m.new_name (some numb) .ENTER
    (r, if r = .OK then (searchDir env s old_dirp m.old_name none .DELETE).2.2 else s)

def countLink (rip : Inode p) : Inode p := { rip with i_nlinks := rip.i_nlinks + 1 }

/-- The entry `..` of a directory that was moved. -/
def updateParent (env : Environment p) (s : State p) (old_ip new_dirp : Slot p) :
    Except Stop (State p) := do
  let numb := (s.inode new_dirp).i_num
  let (_, s) ← unlinkFile env s old_ip none dot2
  let (r, _, s) := searchDir env s old_ip dot2 (some numb) .ENTER
  return if r = .OK then markDirty (s.modify new_dirp countLink) new_dirp else s

/-- What is done when all checks are passed. -/
def performRename (hdr : Headers) (env : Environment p) (m : RenameMessage) (s : State p)
    (old_dirp old_ip new_dirp : Slot p) (new_ip : Option (Slot p)) (odir same_pdir : Bool) :
    Except Stop (Errno × State p) := do
  let (r, s) ← removeNew hdr env s new_dirp new_ip odir m.new_name
  if r ≠ .OK then return (r, s)
  else
    let (r, s) := moveEntry env m s old_dirp old_ip new_dirp same_pdir
    if r = .OK ∧ odir ∧ ¬ same_pdir then
      let s ← updateParent env s old_ip new_dirp
      return (r, s)
    else return (r, s)

/-- The loop is for directories that get another parent. -/
def checkAbove (env : Environment p) (fuel : ℕ) (s : State p) (old_ip new_dirp : Slot p)
    (odir same_pdir : Bool) : Except Halt (Errno × State p) :=
  if odir ∧ ¬ same_pdir then checkSuperdir env fuel s old_ip new_dirp else .ok (.OK, s)

/-- What `fs_rename` does when the inodes are open, with the error so far. -/
def tryRename (hdr : Headers) (env : Environment p) (m : RenameMessage) (fuel : ℕ) (s : State p)
    (old_dirp old_ip new_dirp : Slot p) (new_ip : Option (Slot p)) (r : Errno) :
    Except Halt (Errno × State p) :=
  if r ≠ .OK then .ok (r, s)
  else do
    let odir := isDirectory (s.inode old_ip)
    let same_pdir : Bool := old_dirp = new_dirp
    let (r, s) ← checkAbove env fuel s old_ip new_dirp odir same_pdir
    let r := checkNames hdr m s old_ip new_dirp new_ip odir same_pdir r
    if r ≠ .OK then return (r, s)
    else performRename hdr env m s old_dirp old_ip new_dirp new_ip odir same_pdir

/-- The file under the new name is not used if another file system is mounted on it. -/
def dropMounted (env : Environment p) (s : State p) (new_ip : Option (Slot p)) :
    Except Stop (Option (Slot p) × State p) :=
  if s.err_code = .EENTERMOUNT then do
    let s ← putInode env s new_ip
    return (none, s)
  else .ok (new_ip, s)

/-- All inodes are put at the end. -/
def renameOpen (hdr : Headers) (env : Environment p) (m : RenameMessage) (fuel : ℕ) (s : State p)
    (old_dirp old_ip new_dirp : Slot p) (new_ip : Option (Slot p)) (r : Errno) :
    Except Halt (Errno × State p) := do
  let (r, s) ← tryRename hdr env m fuel s old_dirp old_ip new_dirp new_ip r
  let s ← putInode env s (some old_dirp)
  let s ← putInode env s (some old_ip)
  let s ← putInode env s (some new_dirp)
  let s ← putInode env s new_ip
  return (if r = SAME then .OK else r, s)

/-- From the new directory on. -/
def renameInto (hdr : Headers) (env : Environment p) (m : RenameMessage) (fuel : ℕ) (s : State p)
    (old_dirp old_ip : Slot p) (r : Errno) : Except Halt (Errno × State p) :=
  match getInode env s m.fs_dev m.REQ_REN_NEW_DIR with
  | (none, s) => do
      let s ← putInode env s (some old_ip)
      let s ← putInode env s (some old_dirp)
      return (s.err_code, s)
  | (some new_dirp, s) =>
      if (s.inode new_dirp).i_nlinks = NO_LINK then do
        let s ← putInode env s (some old_ip)
        let s ← putInode env s (some old_dirp)
        let s ← putInode env s (some new_dirp)
        return (.ENOENT, s)
      else do
        let (new_ip, s) := advance env s new_dirp m.new_name
        let r := if s.err_code = .EENTERMOUNT then .EBUSY else r
        let (new_ip, s) ← dropMounted env s new_ip
        renameOpen hdr env m fuel s old_dirp old_ip new_dirp new_ip r

def fsRename (hdr : Headers) (env : Environment p) (m : RenameMessage) (fuel : ℕ) (s : State p) :
    Except Halt (Errno × State p) :=
  if m.copied_old ≠ .OK then .ok (m.copied_old, s)
  else if m.copied_new ≠ .OK then .ok (m.copied_new, s)
  else
    match getInode env s m.fs_dev m.REQ_REN_OLD_DIR with
    | (none, s) => .ok (s.err_code, s)
    | (some old_dirp, s) =>
        let (old_ip, s) := advance env s old_dirp m.old_name
        let r := s.err_code
        if r = .EENTERMOUNT ∨ r = .ELEAVEMOUNT then do
          let s ← putInode env s old_ip
          let s ← putInode env s (some old_dirp)
          return (if r = .EENTERMOUNT then .other hdr.EXDEV else .EINVAL, s)
        else
          match old_ip with
          | none => do
              let s ← putInode env s (some old_dirp)
              return (r, s)
          | some old_ip => renameInto hdr env m fuel s old_dirp old_ip r

end MinixOS.DirectoryCalls
