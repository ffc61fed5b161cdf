import Mathlib.Data.Int.ConditionallyCompleteOrder
import Mathlib.Data.Int.Interval
import Mathlib.Logic.Function.Basic
import Mathlib.Tactic.Common
import Mathlib.Tactic.Linarith

/-!
# Files in blocks

The bytes of a file lie in blocks, and the blocks come in zones of a fixed number of
consecutive ones. A file has at each index a zone, given by its first block, or none, and where
it has none its bytes read as zero. A byte of a block is a cell.

A hole is punched into a file by clearing cells or by taking zones away. Seen through
the file this makes no difference. The rules put a hole together from such steps, and
tell what the steps leave alone as long as no cell belongs to two positions.
-/
namespace MinixOS.BlockFiles

structure Geometry where
  block : ℤ
  zone : ℤ
  block_pos : 0 < block
  zone_pos : 0 < zone
  whole : block ∣ zone

/-- A block and the place of a byte in it. -/
abbrev Cell := ℕ × ℤ

/-- The first block of each zone of a file. -/
abbrev Zones := ℤ → Option ℕ

abbrev Data := Cell → UInt8

variable {g : Geometry} {zones zones' zones'' : Zones} {data data' data'' : Data}

/-! ## Cells -/

/-- The cell of a position, if the file has a zone there. -/
def cell (g : Geometry) (zones : Zones) (pos : ℤ) : Option Cell :=
  (zones (pos / g.zone)).map fun first => (first + (pos % g.zone / g.block).toNat, pos % g.block)

/-- The byte at a position. -/
def byteAt (g : Geometry) (zones : Zones) (data : Data) (pos : ℤ) : UInt8 :=
  ((cell g zones pos).map data).getD 0

theorem byteAt_some {pos : ℤ} {c : Cell} (h : cell g zones pos = some c) :
    byteAt g zones data pos = data c := by
  unfold byteAt
  rw [h]
  rfl

theorem byteAt_none {pos : ℤ} (h : cell g zones pos = none) : byteAt g zones data pos = 0 := by
  unfold byteAt
  rw [h]
  rfl

theorem cell_eq_none {pos : ℤ} : cell g zones pos = none ↔ zones (pos / g.zone) = none := by
  unfold cell
  rw [Option.map_eq_none_iff]

theorem cell_of_zone {pos : ℤ} {first : ℕ} (h : zones (pos / g.zone) = some first) :
    cell g zones pos = some (first + (pos % g.zone / g.block).toNat, pos % g.block) := by
  unfold cell
  rw [h]
  rfl

/-- The place in a block does not depend on the zone. -/
theorem emod_zone_emod_block (g : Geometry) (pos : ℤ) : pos % g.zone % g.block = pos % g.block :=
  Int.emod_emod_of_dvd pos g.whole

/-- A position of a zone is given by its block and its place there. -/
theorem pos_eq (g : Geometry) (pos : ℤ) :
    pos = pos / g.zone * g.zone + pos % g.zone / g.block * g.block + pos % g.block := by
  have hzone := Int.mul_ediv_add_emod pos g.zone
  have hblock := Int.mul_ediv_add_emod (pos % g.zone) g.block
  rw [emod_zone_emod_block] at hblock
  rw [Int.mul_comm] at hzone hblock
  omega

theorem ediv_block_nonneg (g : Geometry) (pos : ℤ) : 0 ≤ pos % g.zone / g.block :=
  Int.ediv_nonneg (Int.emod_nonneg _ g.zone_pos.ne') g.block_pos.le

/-- The block of a position ends no later than its zone. -/
theorem block_end_le (g : Geometry) (pos : ℤ) :
    pos % g.zone / g.block * g.block + g.block ≤ g.zone := by
  obtain ⟨n, hn⟩ := g.whole
  have hbelow := Int.emod_lt_of_pos pos g.zone_pos
  have hindex : pos % g.zone / g.block + 1 ≤ n := by
    rw [Int.add_one_le_iff, Int.ediv_lt_iff_lt_mul g.block_pos, Int.mul_comm, ← hn]
    exact hbelow
  calc pos % g.zone / g.block * g.block + g.block
      = (pos % g.zone / g.block + 1) * g.block := by rw [Int.add_mul, Int.one_mul]
    _ ≤ n * g.block := Int.mul_le_mul_of_nonneg_right hindex g.block_pos.le
    _ = g.zone := by rw [hn, Int.mul_comm]

/-- As long as a position stays in its block, so does its cell. -/
theorem same_block {pos q : ℤ} (hle : pos ≤ q) (hlt : q < pos - pos % g.block + g.block) :
    q / g.zone = pos / g.zone ∧ q % g.zone / g.block = pos % g.zone / g.block ∧
      q % g.block = pos % g.block + (q - pos) := by
  have hb := g.block_pos
  have hz := g.zone_pos
  have hoffset := Int.emod_nonneg pos hb.ne'
  have hpos := pos_eq g pos
  have hend := block_end_le g pos
  have hstart := Int.mul_nonneg (ediv_block_nonneg g pos) hb.le
  have hq : q = (pos % g.zone / g.block * g.block + pos % g.block + (q - pos)) +
      pos / g.zone * g.zone := by omega
  have hsmall : 0 ≤ pos % g.zone / g.block * g.block + pos % g.block + (q - pos) := by omega
  have hlarge : pos % g.zone / g.block * g.block + pos % g.block + (q - pos) < g.zone := by omega
  have hdiv : q / g.zone = pos / g.zone := by
    rw [hq, Int.add_mul_ediv_right _ _ hz.ne', Int.ediv_eq_zero_of_lt hsmall hlarge, Int.zero_add]
  have hmod : q % g.zone =
      (pos % g.block + (q - pos)) + pos % g.zone / g.block * g.block := by
    rw [hq, Int.add_mul_emod_self_right, Int.emod_eq_of_lt hsmall hlarge]
    omega
  have hplace : 0 ≤ pos % g.block + (q - pos) := by omega
  have hplace' : pos % g.block + (q - pos) < g.block := by omega
  refine ⟨hdiv, ?_, ?_⟩
  · rw [hmod, Int.add_mul_ediv_right _ _ hb.ne', Int.ediv_eq_zero_of_lt hplace hplace',
      Int.zero_add]
  · rw [← emod_zone_emod_block g q, hmod, Int.add_mul_emod_self_right,
      Int.emod_eq_of_lt hplace hplace']

/-- Behind the end of a block comes the next one, as long as the zone has one. -/
theorem next_block {pos : ℤ} {first : ℕ}
    (hzone : (pos - pos % g.block + g.block) / g.zone = pos / g.zone)
    (h : zones (pos / g.zone) = some first) :
    cell g zones (pos - pos % g.block + g.block) =
      some (first + (pos % g.zone / g.block).toNat + 1, 0) := by
  have hb := g.block_pos
  have hpos := pos_eq g pos
  have hk := ediv_block_nonneg g pos
  have hq := Int.mul_ediv_add_emod (pos - pos % g.block + g.block) g.zone
  have hsucc : (pos % g.zone / g.block + 1) * g.block =
      pos % g.zone / g.block * g.block + g.block := by rw [Int.add_mul, Int.one_mul]
  rw [hzone, Int.mul_comm] at hq
  have hmod : (pos - pos % g.block + g.block) % g.zone =
      (pos % g.zone / g.block + 1) * g.block := by omega
  have hplace : (pos - pos % g.block + g.block) % g.block = 0 := by
    rw [← emod_zone_emod_block, hmod, Int.mul_emod_left]
  rw [← hzone] at h
  rw [cell_of_zone h, hmod, Int.mul_ediv_cancel _ hb.ne', hplace, Int.toNat_add hk Int.one_nonneg]
  rfl

/-! ## Holes -/

/-- No cell belongs to two positions of the file. -/
def Proper (g : Geometry) (zones : Zones) : Prop :=
  ∀ ⦃pos q : ℤ⦄ ⦃c : Cell⦄, 0 ≤ pos → 0 ≤ q → cell g zones pos = some c →
    cell g zones q = some c → pos = q

/-- The bytes at these positions are zero now, and all else is as before. -/
structure Punched (g : Geometry) (zones : Zones) (data : Data) (zones' : Zones) (data' : Data)
    (hole : Set ℤ) : Prop where
  cells : ∀ pos c, cell g zones' pos = some c → cell g zones pos = some c
  inside : ∀ pos ∈ hole, byteAt g zones' data' pos = 0
  outside : ∀ pos, 0 ≤ pos → pos ∉ hole → byteAt g zones' data' pos = byteAt g zones data pos
  frame : ∀ c, (∀ pos ∈ hole, cell g zones pos ≠ some c) → data' c = data c

variable {hole hole' : Set ℤ}

theorem Proper.punched (h : Proper g zones) (hp : Punched g zones data zones' data' hole) :
    Proper g zones' := fun _ _ _ hpos hq hcell hcell' =>
  h hpos hq (hp.cells _ _ hcell) (hp.cells _ _ hcell')

/-- Where the file has no zone, there is nothing to do. -/
theorem punched_none (h : ∀ pos ∈ hole, cell g zones pos = none) :
    Punched g zones data zones data hole := by
  constructor
  · exact fun _ _ hc => hc
  · exact fun pos hpos => byteAt_none (h pos hpos)
  · exact fun _ _ _ => rfl
  · exact fun _ _ => rfl

theorem punched_empty : Punched g zones data zones data ∅ :=
  punched_none fun _ hpos => absurd hpos (Set.notMem_empty _)

/-- Two holes, one punched after the other. -/
theorem Punched.union (h : Punched g zones data zones' data' hole)
    (h' : Punched g zones' data' zones'' data'' hole') (hpos : ∀ pos ∈ hole, 0 ≤ pos) :
    Punched g zones data zones'' data'' (hole ∪ hole') := by
  constructor
  · exact fun pos c hc => h.cells pos c (h'.cells pos c hc)
  · intro pos hmem
    by_cases hlast : pos ∈ hole'
    · exact h'.inside pos hlast
    · have hfirst := hmem.resolve_right hlast
      rw [h'.outside pos (hpos pos hfirst) hlast]
      exact h.inside pos hfirst
  · intro pos hnonneg hmem
    have hnot := not_or.mp hmem
    rw [h'.outside pos hnonneg hnot.2, h.outside pos hnonneg hnot.1]
  · intro c hc
    rw [h'.frame c, h.frame c]
    · exact fun pos hmem => hc pos (.inl hmem)
    · exact fun pos hmem hcell => hc pos (.inr hmem) (h.cells pos c hcell)

/-- Some bytes of a block are cleared. -/
def clearCells (data : Data) (b : ℕ) (offset bytes : ℤ) : Data := fun c =>
  if c.1 = b ∧ offset ≤ c.2 ∧ c.2 < offset + bytes then 0 else data c

theorem clearCells_of_mem {b : ℕ} {offset bytes : ℤ} {c : Cell}
    (h : c.1 = b ∧ offset ≤ c.2 ∧ c.2 < offset + bytes) :
    clearCells data b offset bytes c = 0 := if_pos h

theorem clearCells_of_not {b : ℕ} {offset bytes : ℤ} {c : Cell}
    (h : ¬ (c.1 = b ∧ offset ≤ c.2 ∧ c.2 < offset + bytes)) :
    clearCells data b offset bytes c = data c := if_neg h

/-- The bytes from a position on are cleared, in its block. -/
theorem punched_block (hproper : Proper g zones) {pos bytes : ℤ} {b : ℕ} (hpos : 0 ≤ pos)
    (hcell : cell g zones pos = some (b, pos % g.block))
    (hbytes : pos % g.block + bytes ≤ g.block) :
    Punched g zones data zones (clearCells data b (pos % g.block) bytes)
      (Set.Ico pos (pos + bytes)) := by
  obtain ⟨first, hfirst, heq⟩ := Option.map_eq_some_iff.mp hcell
  have hb : first + (pos % g.zone / g.block).toNat = b := congrArg Prod.fst heq
  -- the cell of another position in the block
  have hcells : ∀ q, pos ≤ q → q < pos + bytes →
      cell g zones q = some (b, pos % g.block + (q - pos)) := by
    intro q hle hlt
    obtain ⟨hdiv, hindex, hplace⟩ := same_block (g := g) hle (by omega)
    rw [← hdiv] at hfirst
    rw [cell_of_zone hfirst, hindex, hplace, hb]
  -- the position of a cell that is cleared
  have hback : ∀ c : Cell, c.1 = b ∧ pos % g.block ≤ c.2 ∧ c.2 < pos % g.block + bytes →
      ∃ q ∈ Set.Ico pos (pos + bytes), cell g zones q = some c := by
    rintro ⟨n, i⟩ ⟨rfl, hle, hlt⟩
    dsimp only at hle hlt
    refine ⟨pos + (i - pos % g.block), ⟨by omega, by omega⟩, ?_⟩
    rw [hcells _ (by omega) (by omega)]
    congr 2
    omega
  constructor
  · exact fun _ _ hc => hc
  · intro q hq
    have hplace := hcells q hq.1 hq.2
    rw [byteAt_some hplace]
    apply clearCells_of_mem
    have hle := hq.1
    have hlt := hq.2
    dsimp only
    exact ⟨rfl, by omega, by omega⟩
  · intro q hnonneg hq
    cases hc : cell g zones q with
    | none => rw [byteAt_none hc, byteAt_none hc]
    | some c =>
        rw [byteAt_some hc, byteAt_some hc]
        apply clearCells_of_not
        intro hmem
        obtain ⟨q', hq', hc'⟩ := hback c hmem
        rw [hproper hnonneg (hpos.trans hq'.1) hc hc'] at hq
        exact hq hq'
  · intro c hc
    apply clearCells_of_not
    intro hmem
    obtain ⟨q, hq, hcell'⟩ := hback c hmem
    exact hc q hq hcell'

/-- The zones from one number up to another are taken away. -/
def without (zones : Zones) (first last : ℤ) : Zones := fun z =>
  if first ≤ z ∧ z < last then none else zones z

theorem without_self (zones : Zones) (first : ℤ) : without zones first first = zones := by
  funext z
  exact if_neg (by omega)

/-- One zone, and then the ones behind it. -/
theorem without_update (zones : Zones) {first last : ℤ} (h : first < last) :
    without (Function.update zones first none) (first + 1) last = without zones first last := by
  funext z
  unfold without
  rw [Function.update_apply]
  split_ifs <;> first | rfl | omega

theorem mem_zones (g : Geometry) (first last pos : ℤ) :
    pos ∈ Set.Ico (first * g.zone) (last * g.zone) ↔ first ≤ pos / g.zone ∧ pos / g.zone < last := by
  rw [Set.mem_Ico, Int.le_ediv_iff_mul_le g.zone_pos, Int.ediv_lt_iff_lt_mul g.zone_pos]

theorem punched_without (g : Geometry) (zones : Zones) (data : Data) (first last : ℤ) :
    Punched g zones data (without zones first last) data
      (Set.Ico (first * g.zone) (last * g.zone)) := by
  have hkept : ∀ pos, pos ∉ Set.Ico (first * g.zone) (last * g.zone) →
      cell g (without zones first last) pos = cell g zones pos := by
    intro pos hpos
    rw [mem_zones] at hpos
    unfold cell without
    rw [if_neg hpos]
  have hgone : ∀ pos, pos ∈ Set.Ico (first * g.zone) (last * g.zone) →
      cell g (without zones first last) pos = none := by
    intro pos hpos
    rw [mem_zones] at hpos
    rw [cell_eq_none]
    exact if_pos hpos
  constructor
  · intro pos c hc
    by_cases hpos : pos ∈ Set.Ico (first * g.zone) (last * g.zone)
    · rw [hgone pos hpos] at hc
      cases hc
    · rwa [hkept pos hpos] at hc
  · exact fun pos hpos => byteAt_none (hgone pos hpos)
  · intro pos _ hpos
    unfold byteAt
    rw [hkept pos hpos]
  · exact fun _ _ => rfl

/-- The zone holds bytes of a file of this size, and all of them lie in this range. -/
def Covered (g : Geometry) (size start stop z : ℤ) : Prop :=
  (∃ pos, 0 ≤ pos ∧ pos < size ∧ pos / g.zone = z) ∧
    ∀ pos, 0 ≤ pos → pos < size → pos / g.zone = z → start ≤ pos ∧ pos < stop

theorem covered_iff (g : Geometry) {size start stop : ℤ} (hstart : 0 ≤ start) (z : ℤ) :
    Covered g size start stop z ↔
      start ≤ z * g.zone ∧ z * g.zone < size ∧ min (z * g.zone + g.zone) size ≤ stop := by
  have hz := g.zone_pos
  constructor
  · rintro ⟨⟨pos, hpos, hsize, hat⟩, hall⟩
    have hat' := (Int.ediv_eq_iff_of_pos hz).mp hat
    have hindex : 0 ≤ z := hat ▸ Int.ediv_nonneg hpos hz.le
    have hfirst : 0 ≤ z * g.zone := Int.mul_nonneg hindex hz.le
    have hlow := hall (z * g.zone) hfirst (by omega) (Int.mul_ediv_cancel z hz.ne')
    have hhigh := hall (min (z * g.zone + g.zone) size - 1) (by omega) (by omega)
      ((Int.ediv_eq_iff_of_pos hz).mpr (by omega))
    omega
  · rintro ⟨hlow, hsize, hhigh⟩
    refine ⟨⟨z * g.zone, by omega, hsize, Int.mul_ediv_cancel z hz.ne'⟩, ?_⟩
    intro pos _ hpos hat
    have hat' := (Int.ediv_eq_iff_of_pos hz).mp hat
    omega

/-! ## Files -/

/-- A file as its reader sees it. Behind its end there are zeros. -/
structure File where
  size : ℤ
  byte : ℤ → UInt8
  tail : ∀ pos, size ≤ pos → byte pos = 0

/-- The file with the bytes from one position up to another cleared. -/
def File.punch (f : File) (start stop : ℤ) : File where
  size := f.size
  byte pos := if start ≤ pos ∧ pos < stop then 0 else f.byte pos
  tail pos hpos := by
    split_ifs
    · rfl
    · exact f.tail pos hpos

/-- The file cut off at another end, or filled up to there with zeros. -/
def File.resize (f : File) (size : ℤ) : File where
  size := size
  byte pos := if pos < size then f.byte pos else 0
  tail _ hpos := if_neg (not_lt.mpr hpos)

/-- What is read in the blocks is the file. -/
def Shows (g : Geometry) (zones : Zones) (data : Data) (f : File) : Prop :=
  ∀ pos, 0 ≤ pos → byteAt g zones data pos = f.byte pos

variable {f f' : File} {start stop size pos : ℤ}

theorem punch_inside (f : File) (hlow : start ≤ pos) (hhigh : pos < f.size → pos < stop) :
    (f.punch start stop).byte pos = 0 := by
  unfold File.punch
  dsimp only
  split_ifs with hrange
  · rfl
  · exact f.tail pos (by omega)

theorem punch_outside (f : File) (h : start ≤ pos → pos < f.size → stop ≤ pos) :
    (f.punch start stop).byte pos = f.byte pos := by
  unfold File.punch
  dsimp only
  split_ifs with hrange
  · -- such a position is not in the file
    exact (f.tail pos (by omega)).symm
  · rfl

/-- What is read with a hole in the blocks is the file with its bytes there cleared. -/
theorem Shows.change (h : Shows g zones data f) (hp : Punched g zones data zones' data' hole)
    (hin : ∀ pos, 0 ≤ pos → pos ∈ hole → f'.byte pos = 0)
    (hout : ∀ pos, 0 ≤ pos → pos ∉ hole → f'.byte pos = f.byte pos) :
    Shows g zones' data' f' := by
  intro pos hpos
  by_cases hmem : pos ∈ hole
  · rw [hp.inside pos hmem, hin pos hpos hmem]
  · rw [hp.outside pos hpos hmem, hout pos hpos hmem]
    exact h pos hpos

/-- A hole may reach over the end of the file. -/
theorem Shows.punch (h : Shows g zones data f) (hp : Punched g zones data zones' data' hole)
    (hhole : ∀ pos, 0 ≤ pos → pos < f.size → (pos ∈ hole ↔ start ≤ pos ∧ pos < stop)) :
    Shows g zones' data' (f.punch start stop) := by
  refine h.change hp (fun pos hpos hmem => ?_) fun pos hpos hnot => punch_outside f fun hlow hend => ?_
  · by_cases hend : pos < f.size
    · have hrange := (hhole pos hpos hend).mp hmem
      exact punch_inside f hrange.1 fun _ => hrange.2
    · exact (f.punch start stop).tail pos (not_lt.mp hend)
  · by_contra hstop
    exact hnot ((hhole pos hpos hend).mpr ⟨hlow, not_le.mp hstop⟩)

/-- The bytes of a file that is cut off are those with a hole up to its end. Where nothing is
cut off, there is no hole. -/
theorem byte_resize (f : File) (size pos : ℤ) :
    (f.resize size).byte pos = (f.punch size f.size).byte pos := by
  unfold File.resize File.punch
  dsimp only
  by_cases hpos : pos < size
  · rw [if_pos hpos, if_neg (by omega)]
  · rw [if_neg hpos]
    by_cases hend : pos < f.size
    · rw [if_pos ⟨not_lt.mp hpos, hend⟩]
    · rw [f.tail pos (not_lt.mp hend), ite_self]

end MinixOS.BlockFiles
