import MinixOS.BlockFiles
import MinixOS.CheckedExecution
import MinixOS.InodeUse

/-!
# The space of a file

The functions of link.c that cut a file off, extend it, or free a range of its bytes:
`fs_ftrunc` with `truncate_inode` and `freesp_inode`. Where the zones of a file are, is kept by
`read_map` and `write_map`, which are parameters and work on what `i_zone` and the
indirect blocks of an inode say. So is `clear_zone`. A value of type `off_t` that does not fit stops
the call, as an index outside of a block does.
-/
namespace MinixOS.FileSpace
open LoopExecution CheckedExecution BlockFiles InodeCopy InodeUse
open InodeState hiding Stop

variable {p : Platform} {M : Type}

def NO_BLOCK : ℕ := 0

/-- What else these functions use of super blocks and headers. -/
structure Volume (p : Platform) where
  s_log_zone_size : Dev → ℕ
  s_max_size : Dev → ℤ
  I_CHAR_SPECIAL : UInt16
  I_BLOCK_SPECIAL : UInt16
  EFBIG : ℤ

/-- The functions of other files that know where the zones are. `write_map` is called with `NO_ZONE`
and `WMAP_FREE` only, and `clear_zone` with flag 0. -/
structure Mapping (M : Type) where
  read_map : Dev → M → ℤ → ℕ
  write_map : Dev → M → ℤ → Errno × M
  clear_zone : Dev → M → ℤ → Data → Data

/-- The inode table, the zones of each inode in it, and the blocks of data. -/
structure Space (p : Platform) (M : Type) where
  table : State p
  map : Slot p → M
  data : Dev → Data

def Space.setData (s : Space p M) (dev : Dev) (data : Data) : Space p M :=
  { s with data := Function.update s.data dev data }

def Space.setMap (s : Space p M) (rip : Slot p) (m : M) : Space p M :=
  { s with map := Function.update s.map rip m }

def Space.setTable (s : Space p M) (table : State p) : Space p M := { s with table := table }

def offT (x : ℤ) : Except Stop ℤ :=
  if -2 ^ 31 ≤ x ∧ x < 2 ^ 31 then .ok x else .error (.outOfRange x)

def blockSize (p : Platform) (sp : Dev) : ℤ := (p.get_super sp).s_block_size.toNat

def Volume.zoneSize (vol : Volume p) (sp : Dev) : ℤ := blockSize p sp * 2 ^ vol.s_log_zone_size sp

/-! ## Zeroing -/

def memset (block_size : ℤ) (data : Data) (b : ℕ) (offset bytes : ℤ) : Except Stop Data :=
  if 0 ≤ offset ∧ offset + bytes ≤ block_size then .ok (clearCells data b offset bytes)
  else .error (.outOfRange (offset + bytes))

/-- The variables of the loop, and the blocks it works on. -/
structure Zeroing where
  pos : ℤ
  len : ℤ
  b : ℕ
  data : Data

/-- The body of the loop. -/
def zeroBlock (block_size : ℤ) (z : Zeroing) : Except Stop Zeroing := do
  let offset := z.pos.tmod block_size
  let bytes := if block_size - offset > z.len then z.len else block_size - offset
  let data ← memset block_size z.data z.b offset bytes
  let pos ← offT (z.pos + bytes)
  let len ← offT (z.len - bytes)
  return ⟨pos, len, z.b + 1, data⟩

def zeroPass (block_size : ℤ) (z : Zeroing) : Pass Zeroing (Except Stop Data) :=
  if z.len > 0 then
    match zeroBlock block_size z with
    | .ok z => .again z
    | .error stop => .leave (.error stop)
  else .leave (.ok z.data)

def zerozoneRange (env : Mapping M) (fuel : ℕ) (s : Space p M) (rip : Slot p) (pos len : ℤ) :
    Except Stop (Space p M) :=
  let dev := (s.table.inode rip).i_dev
  -- an unsigned short
  let block_size := blockSize p (s.table.inode rip).i_sp % 2 ^ 16
  if len = 0 then .ok s
  else
    let b := env.read_map dev (s.map rip) pos
    if b = NO_BLOCK then .ok s
    else do
      let data ← loop (zeroPass block_size) fuel ⟨pos, len, b, s.data dev⟩
      return s.setData dev data

inductive Half where
  | FIRST_HALF
  | LAST_HALF
deriving DecidableEq, Repr

def zerozoneHalf (env : Mapping M) (fuel : ℕ) (s : Space p M) (rip : Slot p) (pos : ℤ)
    (half : Half) (zone_size : ℤ) : Except Stop (Space p M) :=
  let offset := pos.tmod zone_size
  match half with
  | .LAST_HALF => do
      let len ← offT (zone_size - offset)
      zerozoneRange env fuel s rip pos len
  | .FIRST_HALF => do
      let pos ← offT (pos - offset)
      zerozoneRange env fuel s rip pos offset

/-! ## Freeing -/

def nextblock (pos zone_size : ℤ) : Except Stop ℤ := do
  let p ← offT (pos.tdiv zone_size * zone_size)
  if pos.tmod zone_size ≠ 0 then offT (p + zone_size) else return p

/-- So many passes of the loop, from zone `p` on. -/
def freeZones (env : Mapping M) (dev : Dev) (zone_size : ℤ) : ℕ → ℤ → M → Except Stop (Errno × M)
  | 0, _, m => .ok (.OK, m)
  | passes + 1, p, m => do
      let pos ← offT (p * zone_size)
      let (r, m) := env.write_map dev m pos
      if r ≠ .OK then return (r, m)
      else freeZones env dev zone_size passes (p + 1) m

def changedData (u : Update) : Update := { u with CTIME := true, MTIME := true }

/-- The times are marked for update, and the inode is marked dirty. -/
def touchData (s : Space p M) (rip : Slot p) : Space p M :=
  s.setTable (markDirty
    (s.table.modify rip fun rip => { rip with i_update := changedData rip.i_update }) rip)

/-- The part of the first zone that is in the range, unless it is the whole zone. -/
def zeroLast (env : Mapping M) (fuel : ℕ) (s : Space p M) (rip : Slot p) (start zone_size : ℤ) :
    Except Stop (Space p M) :=
  if start.tmod zone_size ≠ 0 then zerozoneHalf env fuel s rip start .LAST_HALF zone_size
  else .ok s

/-- The part of the last zone that is in the range, unless the file has no more of it. -/
def zeroFirst (env : Mapping M) (fuel : ℕ) (s : Space p M) (rip : Slot p) (end_ zone_size : ℤ) :
    Except Stop (Space p M) :=
  if end_.tmod zone_size ≠ 0 ∧ end_ < (s.table.inode rip).i_size.toInt then
    zerozoneHalf env fuel s rip end_ .FIRST_HALF zone_size
  else .ok s

/-- The zone up to which zones are freed. -/
def endZone (size end_ zone_size : ℤ) : Except Stop ℤ :=
  if end_ = size ∧ end_.tmod zone_size ≠ 0 then offT (end_.tdiv zone_size + 1)
  else .ok (end_.tdiv zone_size)

/-- What is done if whole zones may be freed. -/
def freeAcross (vol : Volume p) (env : Mapping M) (fuel : ℕ) (s : Space p M) (rip : Slot p)
    (start end_ : ℤ) : Except Stop (Errno × Space p M) := do
  let zone_size := vol.zoneSize (s.table.inode rip).i_sp
  let s ← zeroLast env fuel s rip start zone_size
  let s ← zeroFirst env fuel s rip end_ zone_size
  let e ← endZone (s.table.inode rip).i_size.toInt end_ zone_size
  let next ← nextblock start zone_size
  let p := next.tdiv zone_size
  let (r, m) ← freeZones env (s.table.inode rip).i_dev zone_size (e - p).toNat p (s.map rip)
  return (r, s.setMap rip m)

def freespInode (vol : Volume p) (env : Mapping M) (fuel : ℕ) (s : Space p M) (rip : Slot p)
    (start end_ : ℤ) : Except Stop (Errno × Space p M) :=
  let size := (s.table.inode rip).i_size.toInt
  let end_ := if end_ > size then size else end_
  if end_ ≤ start then .ok (.EINVAL, s)
  else
    let zone_size := vol.zoneSize (s.table.inode rip).i_sp
    let zero_last := start.tmod zone_size ≠ 0
    let zero_first := end_.tmod zone_size ≠ 0 ∧ end_ < size
    if start.tdiv zone_size = (end_ - 1).tdiv zone_size ∧ (zero_last ∨ zero_first) then do
      let len ← offT (end_ - start)
      let s ← zerozoneRange env fuel s rip start len
      return (.OK, touchData s rip)
    else do
      let (r, s) ← freeAcross vol env fuel s rip start end_
      if r ≠ .OK then return (r, s)
      else return (.OK, touchData s rip)

/-! ## Truncating -/

def setSize (newsize : ℤ) (rip : Inode p) : Inode p := { rip with i_size := Int32.ofInt newsize }

def clearZone (env : Mapping M) (s : Space p M) (rip : Slot p) (pos : ℤ) : Space p M :=
  let dev := (s.table.inode rip).i_dev
  s.setData dev (env.clear_zone dev (s.map rip) pos (s.data dev))

/-- The space behind the new end is freed, if the file gets shorter. -/
def freeRest (vol : Volume p) (env : Mapping M) (fuel : ℕ) (s : Space p M) (rip : Slot p)
    (newsize : ℤ) : Except Stop (Errno × Space p M) :=
  let size := (s.table.inode rip).i_size.toInt
  if newsize < size then freespInode vol env fuel s rip newsize size else .ok (.OK, s)

def truncateInode (vol : Volume p) (env : Mapping M) (fuel : ℕ) (s : Space p M) (rip : Slot p)
    (newsize : ℤ) : Except Stop (Errno × Space p M) :=
  let file_type := (s.table.inode rip).i_mode &&& p.I_TYPE
  if file_type = vol.I_CHAR_SPECIAL ∨ file_type = vol.I_BLOCK_SPECIAL then .ok (.EINVAL, s)
  else if newsize > vol.s_max_size (s.table.inode rip).i_sp then .ok (.other vol.EFBIG, s)
  else do
    let size := (s.table.inode rip).i_size.toInt
    let (r, s) ← freeRest vol env fuel s rip newsize
    if r ≠ .OK then return (r, s)
    else
      let s := if newsize > size then clearZone env s rip size else s
      let s := s.setTable (s.table.modify rip (setSize newsize))
      return (.OK, touchData s rip)

structure TruncMessage where
  fs_dev : Dev
  REQ_INODE_NR : UInt32
  REQ_TRC_START_LO : Int32
  REQ_TRC_END_LO : Int32
deriving DecidableEq, Repr

def fsFtrunc (vol : Volume p) (env : Mapping M) (m : TruncMessage) (fuel : ℕ) (s : Space p M) :
    Except Stop (Errno × Space p M) :=
  match findInode s.table m.fs_dev m.REQ_INODE_NR with
  | none => .ok (.EINVAL, s)
  | some rip =>
      if (p.get_super (s.table.inode rip).i_sp).s_rd_only then .ok (.EROFS, s)
      else
        let start := m.REQ_TRC_START_LO.toInt
        let end_ := m.REQ_TRC_END_LO.toInt
        if end_ = 0 then truncateInode vol env fuel s rip start
        else freespInode vol env fuel s rip start end_

end MinixOS.FileSpace
