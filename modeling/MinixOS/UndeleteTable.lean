import MinixOS.CheckedExecution

/-!
# The undelete table

The functions of HashTable.c that search and change the table. The capacity
`SIZE` is a parameter, and the global arrays are vectors of that length. An index
is an integer, and an access outside the bounds of an array stops the call, as
does reading through NULL. Remainders are those of C: they have the sign of the
key.

A string is the list of its bytes in front of the terminator. An item is not
shared between two cells, so a cell holds the item and not its address, and
allocations succeed.
-/
namespace MinixOS.UndeleteTable
open LoopExecution CheckedExecution

structure DataItem where
  data : List UInt8
  key : ℤ
deriving DecidableEq, Repr

/-- The item every call of `deleteFromHashTable` allocates anew for `dummyItem`. -/
def dummyItem : DataItem := { data := [], key := -1 }

/-- The globals of HashTable.c. -/
structure Table (SIZE : ℕ) where
  hashArray : Vector (Option DataItem) SIZE
  hashSize : ℕ
  inodeArray : Vector ℤ SIZE
deriving DecidableEq, Repr

/-- The globals as C initialises them. -/
def Table.initial (SIZE : ℕ) : Table SIZE :=
  { hashArray := Vector.replicate SIZE none
    hashSize := 0
    inodeArray := Vector.replicate SIZE 0 }

inductive Output where
  | printf (format : String)
  | printfItem (format : String) (d : ℤ) (s : List UInt8)
deriving DecidableEq, Repr

/-- What a call leaves behind. NULL is `none`, and so is the result of a call
without one. -/
structure Outcome (SIZE : ℕ) where
  table : Table SIZE
  log : List Output
  ret : Option DataItem
deriving DecidableEq, Repr

variable {SIZE : ℕ}

/-! ## Probing -/

def hashCode (SIZE : ℕ) (key : ℤ) : ℤ := key.tmod SIZE

/-- `++hashIndex; hashIndex %= SIZE;` -/
def nextIndex (SIZE : ℕ) (hashIndex : ℤ) : ℤ := (hashIndex + 1).tmod SIZE

/-- The loop of the searches, with `SIZE - tempsize` passes left: the item whose key
is `key`, and where it is. The cell is read before `tempsize` is looked at. -/
def searchLoop (a : Vector (Option DataItem) SIZE) (key : ℤ) :
    ℕ → ℤ → Except Stop (Option (ℤ × DataItem))
  | 0, hashIndex => do
      let _ ← readAt a hashIndex
      return none
  | left + 1, hashIndex => do
      let some item ← readAt a hashIndex | return none
      if item.key = key then return some (hashIndex, item)
      else searchLoop a key left (nextIndex SIZE hashIndex)

def searchHashTable (key : ℤ) (t : Table SIZE) : Except Stop (Option DataItem) := do
  let found ← searchLoop t.hashArray key SIZE (hashCode SIZE key)
  return found.map Prod.snd

def searchOnInode (key : ℤ) (t : Table SIZE) : Except Stop Bool := do
  let found ← searchLoop t.hashArray key SIZE (hashCode SIZE key)
  return found.isSome

/-- The loop of `insertToHashTable`, with `SIZE - tempsize` passes left: where it stops. -/
def insertLoop (a : Vector (Option DataItem) SIZE) : ℕ → ℤ → Except Stop ℤ
  | 0, hashIndex => do
      let _ ← readAt a hashIndex
      return hashIndex
  | left + 1, hashIndex => do
      let some item ← readAt a hashIndex | return hashIndex
      if item.key = -1 then return hashIndex
      else insertLoop a left (nextIndex SIZE hashIndex)

def insertToHashTable (key : ℤ) (data : List UInt8) (t : Table SIZE) :
    Except Stop (Table SIZE) := do
  let item : DataItem := { data := data, key := key }
  let hashIndex ← insertLoop t.hashArray SIZE (hashCode SIZE key)
  let hashArray ← writeAt t.hashArray hashIndex (some item)
  return { t with hashArray := hashArray, hashSize := t.hashSize + 1 }

/-- One pass of the loop of `deleteFromHashTable`, which has no bound. -/
def deletePass (a : Vector (Option DataItem) SIZE) (keyDel : ℤ) (hashIndex : ℤ) :
    Pass ℤ (Except Stop (Option (ℤ × DataItem))) :=
  match readAt a hashIndex with
  | .error stop => .leave (.error stop)
  | .ok none => .leave (.ok none)
  | .ok (some item) =>
      if item.key = keyDel then .leave (.ok (some (hashIndex, item)))
      else .again (nextIndex SIZE hashIndex)

def deleteFromHashTable (fuel : ℕ) (keyDel : ℤ) (t : Table SIZE) :
    Except Stop (Outcome SIZE) := do
  if t.hashSize < 1 then
    return { table := t, log := [.printf "no elements to delete"], ret := none }
  else
    let found ← loop (deletePass t.hashArray keyDel) fuel (hashCode SIZE keyDel)
    let some (hashIndex, temp) := found
      | return { table := t, log := [], ret := none }
    let hashArray ← writeAt t.hashArray hashIndex (some dummyItem)
    let table := { t with hashArray := hashArray, hashSize := t.hashSize - 1 }
    return { table := table, log := [], ret := some temp }

/-! ## The eviction order -/

/-- `for(int i=0;i<hashSize-1;i++)`, from `i` on with `left` passes left. -/
def shiftLoop (a : Vector ℤ SIZE) : ℕ → ℕ → Except Stop (Vector ℤ SIZE)
  | 0, _ => return a
  | left + 1, i => do
      let inode ← readAt a (i + 1 : ℕ)
      let b ← writeAt a i inode
      shiftLoop b left (i + 1)

def deleteFromHash (fuel : ℕ) (t : Table SIZE) : Except Stop (Outcome SIZE) := do
  if 1 ≤ t.hashSize then
    let key ← readAt t.inodeArray 0
    let inodeArray ← shiftLoop t.inodeArray (t.hashSize - 1) 0
    let out ← deleteFromHashTable fuel key { t with inodeArray := inodeArray }
    let some temp := out.ret | throw .nullPointer
    let log := out.log ++ [.printfItem "File %d deleted: %s\n" temp.key temp.data]
    return { out with log := log }
  else
    return { table := t, log := [.printf "hashtable is empty"], ret := none }

def insertToHash (fuel : ℕ) (key : ℤ) (data : List UInt8) (t : Table SIZE) :
    Except Stop (Outcome SIZE) := do
  if t.hashSize < SIZE then
    let inodeArray ← writeAt t.inodeArray t.hashSize key
    let table ← insertToHashTable key data { t with inodeArray := inodeArray }
    return { table := table, log := [], ret := none }
  else
    let out ← deleteFromHash fuel t
    let inodeArray ← writeAt out.table.inodeArray out.table.hashSize key
    let table ← insertToHashTable key data { out.table with inodeArray := inodeArray }
    return { table := table, log := out.log, ret := none }

end MinixOS.UndeleteTable
