import MinixOS.InodeCache

/-!
# Links

The functions of link.c that enter and remove directory entries. What `search_dir` and
`advance` find in a directory is left to the parameters of the same names, and so is what
`search_dir` assigns to the inode of the directory. The copy of a name from the caller is
part of the message.
-/
namespace MinixOS.LinkCalls
open InodeState InodeCopy InodeCache

variable {p : Platform}

/-- The members of `fs_m_in` and `fs_dev`, the answer of `sys_safecopyfrom`, and what it copies. -/
structure Message where
  fs_dev : Dev
  REQ_DEV : Dev
  REQ_INODE_NR : UInt32
  REQ_DIR_INO : UInt32
  copied : Errno
  string : Name
deriving DecidableEq, Repr

/-! ## Directories -/

/-- Answers with the number it found as well. -/
def searchDir (env : Environment p) (s : State p) (ldir_ptr : Slot p) (string : Name)
    (numb : Option UInt32) (flag : Flag) : Errno × UInt32 × State p :=
  let dev := (s.inode ldir_ptr).i_dev
  let dir := (s.inode ldir_ptr).i_num
  let found := env.search_dir (s.directories dev dir) string numb flag
  let s := s.setDirectory dev dir found.entries
  let s := s.modify ldir_ptr found.dirp
  let s := if found.written then rwInode env.clock_time s ldir_ptr .WRITING else s
  (found.answer, found.numb, s)

def advance (env : Environment p) (s : State p) (dirp : Slot p) (string : Name) :
    Option (Slot p) × State p :=
  let dev := (s.inode dirp).i_dev
  match env.advance (s.directories dev (s.inode dirp).i_num) string with
  | .missing e => (none, s.setError e)
  | .entry numb e =>
      match getInode env s dev numb with
      | (none, s) => (none, s)
      | (some rip, s) => (some rip, s.setError e)

/-! ## fs_link -/

def changed (u : Update) : Update := { u with CTIME := true }

def addLink (rip : Inode p) : Inode p :=
  { rip with i_nlinks := rip.i_nlinks + 1, i_update := changed rip.i_update }

def dropLink (rip : Inode p) : Inode p :=
  { rip with i_nlinks := rip.i_nlinks - 1, i_update := changed rip.i_update }

def isDirectory (rip : Inode p) : Bool := rip.i_mode &&& p.I_TYPE = p.I_DIRECTORY

/-- The two checks of the inode that gets a link. -/
def checkLink (env : Environment p) (rip : Inode p) : Errno :=
  let r := if rip.i_nlinks ≥ p.LINK_MAX then .EMLINK else .OK
  if r = .OK ∧ isDirectory rip ∧ env.caller_uid ≠ p.SU_UID then .EPERM else r

/-- The entry is made if nothing speaks against it, and then the link is registered. -/
def registerLink (env : Environment p) (r : Errno) (s : State p) (rip ip : Slot p)
    (string : Name) : Errno × State p :=
  if r ≠ .OK then (r, s)
  else
    let (r, _, s) := searchDir env s ip string (some (s.inode rip).i_num) .ENTER
    (r, if r = .OK then markDirty (s.modify rip addLink) rip else s)

/-- What `fs_link` does when both inodes are open. -/
def enterLink (env : Environment p) (s : State p) (rip ip : Slot p) (string : Name) :
    Except Stop (Errno × State p) :=
  match advance env s ip string with
  | (none, s) =>
      let r := s.err_code
      .ok (registerLink env (if r = .ENOENT then .OK else r) s rip ip string)
  | (some new_ip, s) => do
      let s ← putInode env s (some new_ip)
      return registerLink env .EEXIST s rip ip string

def fsLink (env : Environment p) (m : Message) (s : State p) : Except Stop (Errno × State p) :=
  if m.copied ≠ .OK then .ok (m.copied, s)
  else
    match getInode env s m.fs_dev m.REQ_INODE_NR with
    | (none, s) => .ok (.EINVAL, s)
    | (some rip, s) =>
        let r := checkLink env (s.inode rip)
        if r ≠ .OK then do
          let s ← putInode env s (some rip)
          return (r, s)
        else
          match getInode env s m.fs_dev m.REQ_DIR_INO with
          | (none, s) => do
              let s ← putInode env s (some rip)
              return (.EINVAL, s)
          | (some ip, s) =>
              if (s.inode ip).i_nlinks = NO_LINK then do
                let s ← putInode env s (some rip)
                let s ← putInode env s (some ip)
                return (.ENOENT, s)
              else do
                let (r, s) ← enterLink env s rip ip m.string
                let s ← putInode env s (some rip)
                let s ← putInode env s (some ip)
                return (r, s)

/-! ## fs_unlink -/

/-- What `unlink_file` does with the inode in hand. -/
def deleteEntry (env : Environment p) (s : State p) (dirp rip : Slot p) (file_name : Name) :
    Except Stop (Errno × State p) := do
  let (r, _, s) := searchDir env s dirp file_name none .DELETE
  let s := if r = .OK then markDirty (s.modify rip dropLink) rip else s
  let s ← putInode env s (some rip)
  return (r, s)

def unlinkFile (env : Environment p) (s : State p) (dirp : Slot p) (rip : Option (Slot p))
    (file_name : Name) : Except Stop (Errno × State p) :=
  match rip with
  | none =>
      let (r, numb, s) := searchDir env s dirp file_name none .LOOK_UP
      let s := s.setError r
      if r ≠ .OK then .ok (r, s)
      else
        match getInode env s (s.inode dirp).i_dev numb with
        | (none, s) => .ok (s.err_code, s)
        | (some rip, s) =>
            if s.err_code ≠ .OK then .ok (s.err_code, s) else deleteEntry env s dirp rip file_name
  | some rip => deleteEntry env (dupInode s rip) dirp rip file_name

/-- What `fs_unlink` does for REQ_UNLINK when both inodes are open. -/
def tryUnlink (env : Environment p) (s : State p) (rldirp rip : Slot p) (string : Name) :
    Except Stop (Errno × State p) :=
  if (p.get_super (s.inode rip).i_sp).s_rd_only then .ok (.EROFS, s)
  else if isDirectory (s.inode rip) then .ok (.EPERM, s)
  else unlinkFile env s rldirp (some rip) string

def fsUnlink (env : Environment p) (m : Message) (s : State p) : Except Stop (Errno × State p) :=
  if m.copied ≠ .OK then .ok (m.copied, s)
  else
    match getInode env s m.fs_dev m.REQ_INODE_NR with
    | (none, s) => .ok (.EINVAL, s)
    | (some rldirp, s) =>
        let (rip, s) := advance env s rldirp m.string
        let r := s.err_code
        if r ≠ .OK then
          if r = .EENTERMOUNT ∨ r = .ELEAVEMOUNT then do
            let s ← putInode env s rip
            let s ← putInode env s (some rldirp)
            return (.EBUSY, s)
          else do
            let s ← putInode env s (some rldirp)
            return (r, s)
        else
          match rip with
          | none => .error .nullPointer
          | some rip => do
              let (r, s) ← tryUnlink env s rldirp rip m.string
              let s ← putInode env s (some rip)
              let s ← putInode env s (some rldirp)
              return (r, s)

/-! ## fs_recover -/

/-- The link count is raised, and the mark taken away. -/
def relink (rip : Inode p) : Inode p := markClean { rip with i_nlinks := rip.i_nlinks + 1 }

/-- What `search_dir` answers is not looked at. -/
def fsRecover (env : Environment p) (m : Message) (s : State p) : Except Stop (Errno × State p) :=
  let s := s.print "Entering System call recover: success\n" []
  match getInode env s m.REQ_DEV m.REQ_DIR_INO with
  | (none, s) => .ok (.ENOENT, s)
  | (some ldirp, s) => do
      let (rip, s) ← retrieveInode env s m.REQ_DEV m.REQ_INODE_NR
      match rip with
      | none => .error .nullPointer
      | some rip =>
          let s := s.modify rip relink
          let (_, _, s) := searchDir env s ldirp "test.c" (some (s.inode rip).i_num) .ENTER
          return (.other 1, s)

end MinixOS.LinkCalls
