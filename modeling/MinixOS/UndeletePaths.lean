import MinixOS.UndeleteTable

/-!
# Paths in the undelete table

The functions of HashTable.c that look at the stored paths: `searchOnData`,
`comparePath`, `searchOnPath` and `returnFileName`. The first two loops go over the
slots below `hashSize` and read through each of them, used or not. The last function
moves the bytes of the stored path itself.

Of the comparisons of string.h only the sign is used. The file names are in the C
locale, where letters are those of ASCII.
-/
namespace MinixOS.UndeletePaths
open CheckedExecution UndeleteTable

/-! ## Strings -/

def tolower (c : UInt8) : UInt8 := if 65 ≤ c ∧ c ≤ 90 then c + 32 else c

/-- `strcasecmp`, by its sign. The end of a string is less than any of its bytes. -/
def strcasecmp : List UInt8 → List UInt8 → ℤ
  | [], [] => 0
  | [], _ :: _ => -1
  | _ :: _, [] => 1
  | c :: s, d :: t =>
      if tolower c = tolower d then strcasecmp s t
      else if tolower c < tolower d then -1 else 1

/-- `strncmp`, by its sign. -/
def strncmp : List UInt8 → List UInt8 → ℕ → ℤ
  | _, _, 0 => 0
  | [], [], _ + 1 => 0
  | [], _ :: _, _ + 1 => -1
  | _ :: _, [], _ + 1 => 1
  | c :: s, d :: t, n + 1 => if c = d then strncmp s t n else if c < d then -1 else 1

/-- `strrchr`: the position of the last `ch`. -/
def strrchr (ch : UInt8) : List UInt8 → Option ℕ
  | [] => none
  | c :: s =>
      match strrchr ch s with
      | some i => some (i + 1)
      | none => if c = ch then some 0 else none

def slash : UInt8 := 47

def comparePath (path data : List UInt8) : ℤ := strncmp data path path.length

theorem strcasecmp_eq_zero {s t : List UInt8} :
    strcasecmp s t = 0 ↔ s.map tolower = t.map tolower := by
  induction s generalizing t with
  | nil => cases t <;> simp [strcasecmp]
  | cons c s ih =>
      cases t with
      | nil => simp [strcasecmp]
      | cons d t =>
          rw [List.map_cons, List.map_cons, List.cons.injEq, ← ih]
          simp only [strcasecmp]
          split_ifs <;> simp_all

theorem comparePath_eq_zero {path data : List UInt8} :
    comparePath path data = 0 ↔ path <+: data := by
  unfold comparePath
  induction path generalizing data with
  | nil => simp [strncmp]
  | cons d path ih =>
      cases data with
      | nil => simp [strncmp]
      | cons c data =>
          rw [List.cons_prefix_cons, ← ih]
          simp only [List.length_cons, strncmp]
          by_cases h : c = d
          · simp [h]
          · rw [if_neg h]
            split_ifs <;> simp [Ne.symm h]

theorem strrchr_eq_none {ch : UInt8} {s : List UInt8} : strrchr ch s = none ↔ ch ∉ s := by
  induction s with
  | nil => simp [strrchr]
  | cons c s ih =>
      rw [List.mem_cons, not_or, ← ih]
      simp only [strrchr]
      cases strrchr ch s with
      | none => by_cases h : c = ch <;> simp [h, @eq_comm _ ch]
      | some i => simp

/-- Behind the last `ch` there is none. -/
theorem strrchr_split {ch : UInt8} {s : List UInt8} {i : ℕ} (h : strrchr ch s = some i) :
    ∃ front back, s = front ++ ch :: back ∧ ch ∉ back ∧ front.length = i := by
  induction s generalizing i with
  | nil => simp [strrchr] at h
  | cons c s ih =>
      simp only [strrchr] at h
      cases hs : strrchr ch s with
      | none =>
          rw [hs] at h
          split_ifs at h with hc
          refine ⟨[], s, ?_, strrchr_eq_none.mp hs, Option.some.inj h⟩
          rw [hc, List.nil_append]
      | some j =>
          rw [hs] at h
          rcases ih hs with ⟨front, back, rfl, hback, rfl⟩
          exact ⟨c :: front, back, rfl, hback, Option.some.inj h⟩

/-! ## Scanning the slots -/

variable {SIZE : ℕ}

/-- `printf("HashTable entry found: (%d,%s)\n",hashArray[i]->key,hashArray[i]->data)` -/
def entryFound (item : DataItem) : Output :=
  .printfItem "HashTable entry found: (%d,%s)\n" item.key item.data

structure KeyFound where
  ret : ℤ
  log : List Output
deriving DecidableEq, Repr

/-- `for(i = 0; i<hashSize; i++)` of `searchOnData`, from `i` on with `left` passes left. -/
def searchOnDataLoop (a : Vector (Option DataItem) SIZE) (data : List UInt8) :
    ℕ → ℕ → Except Stop KeyFound
  | 0, _ => return { ret := -1, log := [] }
  | left + 1, i => do
      let some item ← readAt a i | throw .nullPointer
      if strcasecmp item.data data = 0 then return { ret := item.key, log := [entryFound item] }
      else searchOnDataLoop a data left (i + 1)

def searchOnData (data : List UInt8) (t : Table SIZE) : Except Stop KeyFound :=
  searchOnDataLoop t.hashArray data t.hashSize 0

/-- The array `arrInodes`, and the part of it that is filled. -/
structure Listing (SIZE : ℕ) where
  arrInodes : Vector ℤ SIZE
  aiCounter : ℕ
  log : List Output
deriving DecidableEq, Repr

/-- The second loop of `searchOnPath`, from `i` on with `left` passes left. -/
def searchOnPathLoop (a : Vector (Option DataItem) SIZE) (path : List UInt8) :
    ℕ → ℕ → Listing SIZE → Except Stop (Listing SIZE)
  | 0, _, l => return l
  | left + 1, i, l => do
      let some item ← readAt a i | throw .nullPointer
      if comparePath path item.data = 0 then
        let arrInodes ← writeAt l.arrInodes l.aiCounter item.key
        searchOnPathLoop a path left (i + 1)
          { arrInodes := arrInodes, aiCounter := l.aiCounter + 1
            log := l.log ++ [entryFound item] }
      else searchOnPathLoop a path left (i + 1) l

/-- The first loop puts -1 into all elements of `arrInodes`. -/
def searchOnPath (path : List UInt8) (t : Table SIZE) : Except Stop (Listing SIZE) :=
  searchOnPathLoop t.hashArray path t.hashSize 0
    { arrInodes := Vector.replicate SIZE (-1), aiCounter := 0, log := [] }

/-! ## Names of files -/

/-- What a call of `returnFileName` leaves behind, the formats and strings it prints, and the
string its answer points to, which is a part of the stored path. -/
structure FileName (SIZE : ℕ) where
  table : Table SIZE
  log : List (String × List UInt8)
  ret : Option (List UInt8)
deriving DecidableEq, Repr

/-- `if (pathLoc[0] == '/') memmove(pathLoc, pathLoc+1, strlen(pathLoc));` with `pathLoc` as a
position in the path. The terminator is moved along. -/
def moveDown (data : List UInt8) (pathLoc : ℕ) : List UInt8 :=
  if data[pathLoc]? = some slash then data.eraseIdx pathLoc else data

/-- The loop is that of the searches. The path without a slash is read through NULL. -/
def returnFileName (key : ℤ) (t : Table SIZE) : Except Stop (FileName SIZE) := do
  let some (hashIndex, item) ← searchLoop t.hashArray key SIZE (hashCode SIZE key)
    | return { table := t, log := [], ret := none }
  let some pathLoc := strrchr slash item.data | throw .nullPointer
  let moved := moveDown item.data pathLoc
  let hashArray ← writeAt t.hashArray hashIndex (some { item with data := moved })
  let table := { t with hashArray := hashArray }
  let log :=
    [("/ location = %s", item.data.drop pathLoc), ("/ location = %s", moved.drop pathLoc)]
  return { table := table, log := log, ret := some (moved.drop pathLoc) }

end MinixOS.UndeletePaths
