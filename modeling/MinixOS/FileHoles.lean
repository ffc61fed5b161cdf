import MinixOS.FileSpace
import MinixOS.InodeRecovery

/-!
# Holes in files

What `freesp_inode` does to the zones of a file and to the blocks. The loop that zeroes a range
goes from block to block, and stays in one zone. The rest of the first zone and the front of the
last one are zeroed, and the zones between them are freed, or, where the range lies in one
zone, the range is zeroed. Together this is the hole that was asked for.
-/
namespace MinixOS.FileHoles
open LoopExecution CheckedExecution BlockFiles InodeCopy InodeSystem InodeRecovery FileSpace
open InodeState hiding Stop

variable {p : Platform} {M : Type} {vol : Volume p} {env : Mapping M} {dev : Dev}

/-! ## Sizes -/

/-- A zone is made of blocks, and their sizes fit into their types. -/
structure Sized (vol : Volume p) (sp : Dev) : Prop where
  block_pos : 0 < blockSize p sp
  block_lt : blockSize p sp < 2 ^ 16
  zone_lt : vol.zoneSize sp < 2 ^ 31

def geometry (h : Sized vol dev) : Geometry where
  block := blockSize p dev
  zone := vol.zoneSize dev
  block_pos := h.block_pos
  zone_pos := Int.mul_pos h.block_pos (Int.pow_pos (by decide))
  whole := Int.dvd_mul_right _ _

theorem offT_ok {x : ℤ} (h : 0 ≤ x) (h' : x < 2 ^ 31) : offT x = .ok x :=
  if_pos ⟨by omega, h'⟩

/-! ## The zeroing loop -/

variable {g : Geometry} {zones : Zones} {z : Zeroing}

/-- The loop is about to zero a range of one zone, and `b` is the block in which it starts. -/
structure InZone (g : Geometry) (zones : Zones) (z : Zeroing) : Prop where
  pos_nonneg : 0 ≤ z.pos
  len_nonneg : 0 ≤ z.len
  fits : z.pos + z.len < 2 ^ 31
  one_zone : 0 < z.len → (z.pos + z.len - 1) / g.zone = z.pos / g.zone
  cell : 0 < z.len → cell g zones z.pos = some (z.b, z.pos % g.block)

/-- The bytes that one pass zeroes. -/
def chunk (g : Geometry) (z : Zeroing) : ℤ := min (g.block - z.pos % g.block) z.len

theorem chunk_pos (g : Geometry) (hlen : 0 < z.len) : 0 < chunk g z := by
  have hbelow := Int.emod_lt_of_pos z.pos g.block_pos
  unfold chunk
  omega

/-- The state after a pass. -/
def zeroed (g : Geometry) (z : Zeroing) : Zeroing :=
  ⟨z.pos + chunk g z, z.len - chunk g z, z.b + 1,
    clearCells z.data z.b (z.pos % g.block) (chunk g z)⟩

theorem zeroBlock_eq (h : InZone g zones z) (hlen : 0 < z.len) :
    zeroBlock g.block z = .ok (zeroed g z) := by
  have hpos := h.pos_nonneg
  have hfits := h.fits
  have hoffset := Int.emod_nonneg z.pos g.block_pos.ne'
  have hchunk := chunk_pos g hlen
  have hle : chunk g z ≤ z.len := Int.min_le_right _ _
  have hroom : chunk g z ≤ g.block - z.pos % g.block := Int.min_le_left _ _
  have hbytes : (if g.block - z.pos % g.block > z.len then z.len
      else g.block - z.pos % g.block) = chunk g z := by
    unfold chunk
    split_ifs <;> omega
  have hmemset : memset g.block z.data z.b (z.pos % g.block) (chunk g z) =
      .ok (clearCells z.data z.b (z.pos % g.block) (chunk g z)) := if_pos ⟨hoffset, by omega⟩
  unfold zeroBlock
  rw [Int.tmod_eq_emod_of_nonneg hpos]
  dsimp only
  rw [hbytes, hmemset, ok_bind, offT_ok (by omega) (by omega), ok_bind,
    offT_ok (by omega) (by omega), ok_bind]
  rfl

theorem punched_zeroed (hproper : Proper g zones) (h : InZone g zones z) (hlen : 0 < z.len) :
    Punched g zones z.data zones (zeroed g z).data (Set.Ico z.pos (z.pos + chunk g z)) := by
  have hroom : chunk g z ≤ g.block - z.pos % g.block := Int.min_le_left _ _
  exact punched_block hproper h.pos_nonneg (h.cell hlen) (by omega)

/-- The next block is the next one of the zone. -/
theorem inZone_zeroed (h : InZone g zones z) (hlen : 0 < z.len) : InZone g zones (zeroed g z) := by
  have hpos := h.pos_nonneg
  have hfits := h.fits
  have hchunk := chunk_pos g hlen
  have hle : chunk g z ≤ z.len := Int.min_le_right _ _
  have hzone : z.len - chunk g z > 0 →
      (z.pos + chunk g z) / g.zone = z.pos / g.zone := by
    intro hrest
    have hlow : z.pos / g.zone ≤ (z.pos + chunk g z) / g.zone :=
      Int.ediv_le_ediv g.zone_pos (by omega)
    have hhigh : (z.pos + chunk g z) / g.zone ≤ (z.pos + z.len - 1) / g.zone :=
      Int.ediv_le_ediv g.zone_pos (by omega)
    rw [h.one_zone hlen] at hhigh
    omega
  constructor
  · change 0 ≤ z.pos + chunk g z
    omega
  · change 0 ≤ z.len - chunk g z
    omega
  · change z.pos + chunk g z + (z.len - chunk g z) < 2 ^ 31
    omega
  · intro hrest
    change (z.pos + chunk g z + (z.len - chunk g z) - 1) / g.zone =
      (z.pos + chunk g z) / g.zone
    rw [hzone hrest, ← h.one_zone hlen]
    congr 1
    omega
  · intro hrest
    change 0 < z.len - chunk g z at hrest
    change BlockFiles.cell g zones (z.pos + chunk g z) =
      some (z.b + 1, (z.pos + chunk g z) % g.block)
    -- what is left over lies behind the end of the block
    have hfull : z.pos + chunk g z = z.pos - z.pos % g.block + g.block := by
      unfold chunk at hrest ⊢
      omega
    obtain ⟨first, hfirst, heq⟩ := Option.map_eq_some_iff.mp (h.cell hlen)
    have hb : first + (z.pos % g.zone / g.block).toNat = z.b := congrArg Prod.fst heq
    have hnext := next_block (g := g) (hfull ▸ hzone hrest) hfirst
    have hplace : (z.pos + chunk g z) % g.block = 0 := by
      obtain ⟨_, _, hcell⟩ := Option.map_eq_some_iff.mp hnext
      rw [hfull]
      exact congrArg Prod.snd hcell
    rw [hplace, hfull, hnext, hb]

/-- The loop zeroes the range. -/
theorem zeroPass_leaves (hproper : Proper g zones) (h : InZone g zones z) :
    ∃ data, Leaves (zeroPass g.block) z (.ok data) ∧
      Punched g zones z.data zones data (Set.Ico z.pos (z.pos + z.len)) := by
  generalize hn : z.len.toNat = n
  induction n using Nat.strong_induction_on generalizing z with
  | _ n ih =>
      by_cases hlen : z.len > 0
      · have hchunk := chunk_pos g hlen
        have hle : chunk g z ≤ z.len := Int.min_le_right _ _
        have hpass : zeroPass g.block z = .again (zeroed g z) := by
          unfold zeroPass
          rw [if_pos hlen, zeroBlock_eq h hlen]
        have hless : (zeroed g z).len.toNat < n := by
          change (z.len - chunk g z).toNat < n
          omega
        obtain ⟨data, hleaves, hrest⟩ := ih _ hless (inZone_zeroed h hlen) rfl
        refine ⟨data, hleaves.pass hpass, ?_⟩
        have hboth := (punched_zeroed hproper h hlen).union hrest
          fun q hq => h.pos_nonneg.trans hq.1
        have hend : (zeroed g z).pos + (zeroed g z).len = z.pos + z.len := by
          change z.pos + chunk g z + (z.len - chunk g z) = z.pos + z.len
          omega
        have hjoin : Set.Ico z.pos (z.pos + chunk g z) ∪
            Set.Ico (z.pos + chunk g z) (z.pos + z.len) = Set.Ico z.pos (z.pos + z.len) :=
          Set.Ico_union_Ico_eq_Ico (by omega) (by omega)
        rw [hend] at hboth
        change Punched g zones z.data zones data (Set.Ico z.pos (z.pos + chunk g z) ∪
          Set.Ico (z.pos + chunk g z) (z.pos + z.len)) at hboth
        rwa [hjoin] at hboth
      · have hzero : z.len = 0 := by
          have hnonneg := h.len_nonneg
          omega
        have hpass : zeroPass g.block z = .leave (.ok z.data) := by
          unfold zeroPass
          rw [if_neg hlen]
        refine ⟨z.data, ⟨1, run_succ_of_leave hpass 0⟩, ?_⟩
        rw [hzero, Int.add_zero, Set.Ico_self]
        exact punched_empty

/-! ## Ranges of one zone -/

/-- How the functions behave that know where the zones are, as far as this is relied on. The
pointers of an inode mean these zones. -/
structure Documented (g : Geometry) (dev : Dev) (zonesOf : M → Zones) (env : Mapping M) : Prop where
  read_map : ∀ m pos, 0 ≤ pos →
    env.read_map dev m pos = ((cell g (zonesOf m) pos).map Prod.fst).getD NO_BLOCK
  block : ∀ m pos c, cell g (zonesOf m) pos = some c → c.1 ≠ NO_BLOCK
  freed : ∀ m pos, 0 ≤ pos → (env.write_map dev m pos).1 = .OK →
    zonesOf (env.write_map dev m pos).2 = Function.update (zonesOf m) (pos / g.zone) none
  refused : ∀ m pos, (env.write_map dev m pos).1 ≠ .OK →
    zonesOf (env.write_map dev m pos).2 = zonesOf m
  clear_zone : ∀ m pos data, 0 ≤ pos → Proper g (zonesOf m) → ∃ hole, (∀ q ∈ hole, pos ≤ q) ∧
    Punched g (zonesOf m) data (zonesOf m) (env.clear_zone dev m pos data) hole

/-- A hole was punched into the file in this slot, and no other zones or device were touched. -/
structure Holed (g : Geometry) (zonesOf : M → Zones) (dev : Dev) (s t : Space p M) (rip : Slot p)
    (hole : Set ℤ) : Prop where
  punched : Punched g (zonesOf (s.map rip)) (s.data dev) (zonesOf (t.map rip)) (t.data dev) hole
  maps : ∀ q, q ≠ rip → t.map q = s.map q
  devices : ∀ d, d ≠ dev → t.data d = s.data d

/-- The inode in this slot is on this device. -/
structure OnDevice (s : Space p M) (rip : Slot p) (dev : Dev) : Prop where
  i_dev : (s.table.inode rip).i_dev = dev
  i_sp : (s.table.inode rip).i_sp = dev

variable {zonesOf : M → Zones} {s t u : Space p M} {rip : Slot p} {hole hole' : Set ℤ}
  {pos len : ℤ}

theorem holed_empty (g : Geometry) (zonesOf : M → Zones) (dev : Dev) (s : Space p M)
    (rip : Slot p) : Holed g zonesOf dev s s rip ∅ :=
  ⟨punched_empty, fun _ _ => rfl, fun _ _ => rfl⟩

theorem Holed.union (h : Holed g zonesOf dev s t rip hole) (h' : Holed g zonesOf dev t u rip hole')
    (hpos : ∀ q ∈ hole, 0 ≤ q) : Holed g zonesOf dev s u rip (hole ∪ hole') := by
  constructor
  · exact h.punched.union h'.punched hpos
  · intro q hq
    rw [h'.maps q hq, h.maps q hq]
  · intro d hd
    rw [h'.devices d hd, h.devices d hd]

/-- Only blocks were written. -/
structure SameButData (s t : Space p M) : Prop where
  table : t.table = s.table
  map : t.map = s.map

theorem SameButData.trans (h : SameButData s t) (h' : SameButData t u) : SameButData s u :=
  ⟨h'.table.trans h.table, h'.map.trans h.map⟩

theorem SameButData.onDevice (h : SameButData s t) (hs : OnDevice s rip dev) :
    OnDevice t rip dev := by
  constructor
  · rw [h.table]
    exact hs.i_dev
  · rw [h.table]
    exact hs.i_sp

/-- The blocks of the device are as a hole leaves them. -/
theorem holed_setData {data : Data}
    (h : Punched g (zonesOf (s.map rip)) (s.data dev) (zonesOf (s.map rip)) data hole) :
    Holed g zonesOf dev s (s.setData dev data) rip hole := by
  constructor
  · change Punched g _ _ _ (Function.update s.data dev data dev) hole
    rw [Function.update_self]
    exact h
  · exact fun _ _ => rfl
  · intro d hd
    change Function.update s.data dev data d = s.data d
    rw [Function.update_of_ne hd]

/-- Zones that are freed are a hole. -/
theorem holed_setMap {m : M} {first last : ℤ}
    (hm : zonesOf m = without (zonesOf (s.map rip)) first last) :
    Holed g zonesOf dev s (s.setMap rip m) rip (Set.Ico (first * g.zone) (last * g.zone)) := by
  constructor
  · change Punched g _ _ (zonesOf (Function.update s.map rip m rip)) _ _
    rw [Function.update_self, hm]
    exact punched_without g _ _ _ _
  · intro q hq
    change Function.update s.map rip m q = s.map q
    rw [Function.update_of_ne hq]
  · exact fun _ _ => rfl

theorem zerozoneRange_comes (hsized : Sized vol dev)
    (hdoc : Documented (geometry hsized) dev zonesOf env) (hs : OnDevice s rip dev)
    (hproper : Proper (geometry hsized) (zonesOf (s.map rip))) (pos len : ℤ) (hpos : 0 ≤ pos)
    (hlen : 0 ≤ len) (hfits : pos + len < 2 ^ 31)
    (hzone : 0 < len → (pos + len - 1) / vol.zoneSize dev = pos / vol.zoneSize dev) :
    ∃ t, ComesTo (fun fuel => zerozoneRange env fuel s rip pos len) t ∧ SameButData s t ∧
      Holed (geometry hsized) zonesOf dev s t rip (Set.Ico pos (pos + len)) := by
  unfold zerozoneRange
  rw [hs.i_dev, hs.i_sp, Int.emod_eq_of_lt hsized.block_pos.le hsized.block_lt]
  dsimp only
  by_cases hzero : len = 0
  · simp only [if_pos hzero]
    rw [hzero, Int.add_zero, Set.Ico_self]
    exact ⟨s, comesTo_ok s, ⟨rfl, rfl⟩, holed_empty _ _ _ s rip⟩
  · have hlen' : 0 < len := by omega
    simp only [if_neg hzero]
    rw [hdoc.read_map _ _ hpos]
    cases hcell : cell (geometry hsized) (zonesOf (s.map rip)) pos with
    | none =>
        -- there is no zone, and so no byte of the range
        have hnone : ∀ q ∈ Set.Ico pos (pos + len),
            cell (geometry hsized) (zonesOf (s.map rip)) q = none := by
          intro q hq
          have hz := (geometry hsized).zone_pos
          have hlow : pos / vol.zoneSize dev ≤ q / vol.zoneSize dev :=
            Int.ediv_le_ediv hz hq.1
          have hhigh : q / vol.zoneSize dev ≤ (pos + len - 1) / vol.zoneSize dev :=
            Int.ediv_le_ediv hz (by have := hq.2; omega)
          have hsame : q / vol.zoneSize dev = pos / vol.zoneSize dev := by
            rw [hzone hlen'] at hhigh
            omega
          rw [cell_eq_none] at hcell ⊢
          change zonesOf (s.map rip) (q / vol.zoneSize dev) = none
          rw [hsame]
          exact hcell
        refine ⟨s, comesTo_ok s, ⟨rfl, rfl⟩, punched_none hnone, fun _ _ => rfl, fun _ _ => rfl⟩
    | some c =>
        have hb := hdoc.block _ _ _ hcell
        have hin : InZone (geometry hsized) (zonesOf (s.map rip)) ⟨pos, len, c.1, s.data dev⟩ := by
          obtain ⟨_, _, heq⟩ := Option.map_eq_some_iff.mp hcell
          have hplace : pos % (geometry hsized).block = c.2 := congrArg Prod.snd heq
          refine ⟨hpos, hlen, hfits, hzone, fun _ => ?_⟩
          rw [hcell, hplace]
        obtain ⟨data, hleaves, hpunched⟩ := zeroPass_leaves hproper hin
        refine ⟨s.setData dev data, ?_, ⟨rfl, rfl⟩, holed_setData hpunched⟩
        change ComesTo (fun fuel => if c.1 = NO_BLOCK then _ else _) _
        simp only [if_neg hb]
        exact (comesTo_of_leaves hleaves).bind (comesTo_ok _)

/-! ## The two halves -/

theorem zerozoneHalf_last (hsized : Sized vol dev)
    (hdoc : Documented (geometry hsized) dev zonesOf env) (hs : OnDevice s rip dev)
    (hproper : Proper (geometry hsized) (zonesOf (s.map rip))) (hpos : 0 ≤ pos)
    (hfits : (pos / vol.zoneSize dev + 1) * vol.zoneSize dev < 2 ^ 31) :
    ∃ t, ComesTo (fun fuel => zerozoneHalf env fuel s rip pos .LAST_HALF (vol.zoneSize dev)) t ∧
      SameButData s t ∧ Holed (geometry hsized) zonesOf dev s t rip
        (Set.Ico pos ((pos / vol.zoneSize dev + 1) * vol.zoneSize dev)) := by
  have hz := (geometry hsized).zone_pos
  change 0 < vol.zoneSize dev at hz
  have hlt := hsized.zone_lt
  have hoffset := Int.emod_nonneg pos hz.ne'
  have hbelow := Int.emod_lt_of_pos pos hz
  have hdiv := Int.mul_ediv_add_emod pos (vol.zoneSize dev)
  rw [Int.mul_comm] at hdiv
  rw [Int.add_mul, Int.one_mul] at hfits ⊢
  have hlast : (pos + (vol.zoneSize dev - pos % vol.zoneSize dev) - 1) / vol.zoneSize dev =
      pos / vol.zoneSize dev := by
    rw [Int.ediv_eq_iff_of_pos hz]
    omega
  have hrange := zerozoneRange_comes hsized hdoc hs hproper pos
    (vol.zoneSize dev - pos % vol.zoneSize dev) hpos (by omega) (by omega) fun _ => hlast
  have hend : pos + (vol.zoneSize dev - pos % vol.zoneSize dev) =
      pos / vol.zoneSize dev * vol.zoneSize dev + vol.zoneSize dev := by omega
  rw [hend] at hrange
  unfold zerozoneHalf
  rw [Int.tmod_eq_emod_of_nonneg hpos]
  simp only [offT_ok (show 0 ≤ vol.zoneSize dev - pos % vol.zoneSize dev by omega)
    (show vol.zoneSize dev - pos % vol.zoneSize dev < 2 ^ 31 by omega), ok_bind]
  exact hrange

theorem zerozoneHalf_first (hsized : Sized vol dev)
    (hdoc : Documented (geometry hsized) dev zonesOf env) (hs : OnDevice s rip dev)
    (hproper : Proper (geometry hsized) (zonesOf (s.map rip))) (hpos : 0 ≤ pos)
    (hfits : pos < 2 ^ 31) :
    ∃ t, ComesTo (fun fuel => zerozoneHalf env fuel s rip pos .FIRST_HALF (vol.zoneSize dev)) t ∧
      SameButData s t ∧ Holed (geometry hsized) zonesOf dev s t rip
        (Set.Ico (pos / vol.zoneSize dev * vol.zoneSize dev) pos) := by
  have hz := (geometry hsized).zone_pos
  change 0 < vol.zoneSize dev at hz
  have hoffset := Int.emod_nonneg pos hz.ne'
  have hbelow := Int.emod_lt_of_pos pos hz
  have hdiv := Int.mul_ediv_add_emod pos (vol.zoneSize dev)
  rw [Int.mul_comm] at hdiv
  have hindex := Int.ediv_nonneg hpos hz.le
  have hstart : 0 ≤ pos / vol.zoneSize dev * vol.zoneSize dev := Int.mul_nonneg hindex hz.le
  have hfirst : 0 < pos % vol.zoneSize dev →
      (pos - pos % vol.zoneSize dev + pos % vol.zoneSize dev - 1) / vol.zoneSize dev =
        (pos - pos % vol.zoneSize dev) / vol.zoneSize dev := by
    intro hsome
    have hleft : (pos - pos % vol.zoneSize dev) / vol.zoneSize dev = pos / vol.zoneSize dev := by
      rw [Int.ediv_eq_iff_of_pos hz]
      omega
    rw [hleft, Int.ediv_eq_iff_of_pos hz]
    omega
  have hrange := zerozoneRange_comes hsized hdoc hs hproper (pos - pos % vol.zoneSize dev)
    (pos % vol.zoneSize dev) (by omega) hoffset (by omega) hfirst
  have hbegin : pos - pos % vol.zoneSize dev = pos / vol.zoneSize dev * vol.zoneSize dev := by omega
  rw [Int.sub_add_cancel] at hrange
  unfold zerozoneHalf
  rw [Int.tmod_eq_emod_of_nonneg hpos]
  simp only [offT_ok (show 0 ≤ pos - pos % vol.zoneSize dev by omega)
    (show pos - pos % vol.zoneSize dev < 2 ^ 31 by omega), ok_bind]
  rw [← hbegin]
  exact hrange

/-! ## Freeing zones -/

/-- `write_map` fails with this for some zone. -/
def Refuses (env : Mapping M) (dev : Dev) (r : Errno) : Prop :=
  r ≠ .OK ∧ ∃ m pos, (env.write_map dev m pos).1 = r

/-- The loop frees the zones in their order, until one is refused. -/
theorem freeZones_eq (hdoc : Documented g dev zonesOf env) (passes : ℕ) (first : ℤ) (m : M)
    (hfirst : 0 ≤ first) (hfits : ∀ z, first ≤ z → z < first + passes → z * g.zone < 2 ^ 31) :
    ∃ r m' last, freeZones env dev g.zone passes first m = .ok (r, m') ∧
      zonesOf m' = without (zonesOf m) first last ∧ first ≤ last ∧ last ≤ first + passes ∧
      (r = .OK ∧ last = first + passes ∨ Refuses env dev r) := by
  induction passes generalizing first m with
  | zero =>
      refine ⟨.OK, m, first, rfl, (without_self _ _).symm, Int.le_refl _, by simp, .inl ⟨rfl, ?_⟩⟩
      simp
  | succ passes ih =>
      have hpos : 0 ≤ first * g.zone := Int.mul_nonneg hfirst g.zone_pos.le
      have hlt : first * g.zone < 2 ^ 31 := hfits first (Int.le_refl _) (by omega)
      unfold freeZones
      rw [offT_ok hpos hlt, ok_bind]
      by_cases hr : (env.write_map dev m (first * g.zone)).1 = .OK
      · have hzones := hdoc.freed m _ hpos hr
        rw [Int.mul_ediv_cancel first g.zone_pos.ne'] at hzones
        obtain ⟨r, m', last, hrun, hlast, hle, hle', hok⟩ :=
          ih (first + 1) (env.write_map dev m (first * g.zone)).2 (by omega)
            fun z hz hz' => hfits z (by omega) (by omega)
        refine ⟨r, m', last, ?_, ?_, by omega, by push_cast; omega, ?_⟩
        · dsimp only
          rw [if_neg (not_not.mpr hr)]
          exact hrun
        · rw [hlast, hzones, without_update _ (by omega)]
        · rcases hok with ⟨hall, hend⟩ | hrefuses
          · refine .inl ⟨hall, ?_⟩
            rw [hend]
            push_cast
            omega
          · exact .inr hrefuses
      · refine ⟨(env.write_map dev m (first * g.zone)).1, (env.write_map dev m (first * g.zone)).2,
          first, ?_, ?_, Int.le_refl _, by omega, .inr ⟨hr, m, _, rfl⟩⟩
        · dsimp only
          rw [if_pos hr]
          rfl
        · rw [hdoc.refused m _ hr, without_self]

/-- The first zone that starts in the range. -/
def firstWhole (g : Geometry) (start : ℤ) : ℤ :=
  if start % g.zone = 0 then start / g.zone else start / g.zone + 1

/-- The zone behind the last one of which nothing is left. -/
def lastWhole (g : Geometry) (size end_ : ℤ) : ℤ :=
  if end_ = size ∧ end_ % g.zone ≠ 0 then end_ / g.zone + 1 else end_ / g.zone

theorem nextblock_eq (g : Geometry) {start : ℤ} (hstart : 0 ≤ start)
    (hfits : firstWhole g start * g.zone < 2 ^ 31) :
    nextblock start g.zone = .ok (firstWhole g start * g.zone) := by
  have hz := g.zone_pos
  have hindex := Int.ediv_nonneg hstart hz.le
  have hfloor : 0 ≤ start / g.zone * g.zone := Int.mul_nonneg hindex hz.le
  unfold nextblock
  rw [Int.tdiv_eq_ediv_of_nonneg hstart, Int.tmod_eq_emod_of_nonneg hstart]
  unfold firstWhole at hfits ⊢
  by_cases hmod : start % g.zone = 0
  · rw [if_pos hmod] at hfits ⊢
    rw [offT_ok hfloor hfits, ok_bind, if_neg (not_not.mpr hmod)]
    rfl
  · rw [if_neg hmod] at hfits ⊢
    rw [Int.add_mul, Int.one_mul] at hfits ⊢
    rw [offT_ok hfloor (by omega), ok_bind, if_pos hmod, offT_ok (by omega) hfits]

theorem endZone_eq (g : Geometry) (size end_ : ℤ) (hend : 0 ≤ end_)
    (hfits : lastWhole g size end_ < 2 ^ 31) :
    endZone size end_ g.zone = .ok (lastWhole g size end_) := by
  have hindex := Int.ediv_nonneg hend g.zone_pos.le
  unfold endZone
  unfold lastWhole at hfits ⊢
  rw [Int.tdiv_eq_ediv_of_nonneg hend, Int.tmod_eq_emod_of_nonneg hend]
  split_ifs at hfits ⊢ with hcond
  · exact offT_ok (by omega) hfits
  · rfl

/-! ## Across zones -/

variable {start end_ size : ℤ}

/-- The range is not zeroed as one part of a zone: it reaches into another zone, or it is the
rest of the file from the start of a zone on, or a whole zone. -/
structure Across (g : Geometry) (start end_ size : ℤ) : Prop where
  start_nonneg : 0 ≤ start
  lt : start < end_
  le : end_ ≤ size
  fits : size < 2 ^ 31
  across : ¬ (start / g.zone = (end_ - 1) / g.zone ∧
    (start % g.zone ≠ 0 ∨ end_ % g.zone ≠ 0 ∧ end_ < size))

/-- The part of the first zone that is zeroed. -/
def lastPart (g : Geometry) (start : ℤ) : Set ℤ :=
  {pos | start % g.zone ≠ 0 ∧ start ≤ pos ∧ pos < (start / g.zone + 1) * g.zone}

/-- The part of the last zone that is zeroed. -/
def firstPart (g : Geometry) (end_ size : ℤ) : Set ℤ :=
  {pos | (end_ % g.zone ≠ 0 ∧ end_ < size) ∧ end_ / g.zone * g.zone ≤ pos ∧ pos < end_}

/-- The zone starts in the range or behind it. -/
theorem firstWhole_le_iff (g : Geometry) (start z : ℤ) :
    firstWhole g start ≤ z ↔ start ≤ z * g.zone := by
  have hz := g.zone_pos
  have hdiv := Int.mul_ediv_add_emod start g.zone
  rw [Int.mul_comm] at hdiv
  unfold firstWhole
  split_ifs with hwhole
  · have hstart : start = start / g.zone * g.zone := by omega
    constructor
    · intro hle
      rw [hstart]
      exact Int.mul_le_mul_of_nonneg_right hle hz.le
    · intro hle
      rw [hstart] at hle
      exact Int.le_of_mul_le_mul_right hle hz
  · rw [Int.add_one_le_iff, Int.ediv_lt_iff_lt_mul hz]
    constructor
    · exact Int.le_of_lt
    · intro hle
      have hne : start ≠ z * g.zone := by
        intro he
        rw [he, Int.mul_emod_left] at hwhole
        exact hwhole rfl
      omega

/-- Nothing is left of the zone behind the range. -/
theorem lt_lastWhole_iff (g : Geometry) (size end_ z : ℤ) :
    z < lastWhole g size end_ ↔
      if end_ = size then z * g.zone < end_ else (z + 1) * g.zone ≤ end_ := by
  have hz := g.zone_pos
  have hdiv := Int.mul_ediv_add_emod end_ g.zone
  rw [Int.mul_comm] at hdiv
  unfold lastWhole
  by_cases hsize : end_ = size
  · rw [if_pos hsize]
    by_cases hmod : end_ % g.zone = 0
    · have hend : end_ = end_ / g.zone * g.zone := by omega
      rw [if_neg fun h => h.2 hmod]
      constructor
      · intro hlt
        rw [hend]
        exact Int.mul_lt_mul_of_pos_right hlt hz
      · intro hlt
        rw [hend] at hlt
        exact Int.lt_of_mul_lt_mul_right hlt hz.le
    · have hne : z * g.zone ≠ end_ := by
        intro he
        rw [← he, Int.mul_emod_left] at hmod
        exact hmod rfl
      rw [if_pos ⟨hsize, hmod⟩, Int.lt_add_one_iff, Int.le_ediv_iff_mul_le hz]
      omega
  · rw [if_neg hsize, if_neg fun h => hsize h.1, ← Int.add_one_le_iff, Int.le_ediv_iff_mul_le hz]

/-- The zones that are freed are those of which nothing is left. -/
theorem covered_iff_whole (g : Geometry) (hstart : 0 ≤ start) (hle : end_ ≤ size) (z : ℤ) :
    Covered g size start end_ z ↔ firstWhole g start ≤ z ∧ z < lastWhole g size end_ := by
  have hz := g.zone_pos
  rw [covered_iff g hstart, firstWhole_le_iff, lt_lastWhole_iff, Int.add_mul, Int.one_mul]
  split_ifs with hsize <;> omega

theorem Across.first_lt (h : Across g start end_ size) : firstWhole g start * g.zone < end_ := by
  have hz := g.zone_pos
  have hlt := h.lt
  have hdiv := Int.mul_ediv_add_emod start g.zone
  rw [Int.mul_comm] at hdiv
  unfold firstWhole
  split_ifs with hwhole
  · omega
  · have hindex : start / g.zone < (end_ - 1) / g.zone := by
      have hle : start / g.zone ≤ (end_ - 1) / g.zone := Int.ediv_le_ediv hz (by omega)
      have hne : start / g.zone ≠ (end_ - 1) / g.zone := fun he =>
        h.across ⟨he, .inl hwhole⟩
      omega
    have hnext := (Int.le_ediv_iff_mul_le hz).mp (Int.add_one_le_iff.mpr hindex)
    omega

theorem last_lt {z : ℤ} (hlast : z < lastWhole g size end_) : z * g.zone < end_ := by
  have hz := g.zone_pos
  rw [lt_lastWhole_iff, Int.add_mul, Int.one_mul] at hlast
  split_ifs at hlast with hsize
  · exact hlast
  · omega

theorem lastWhole_le (g : Geometry) (size : ℤ) (hend : 0 ≤ end_) :
    lastWhole g size end_ ≤ end_ := by
  by_contra hnot
  have hbelow := last_lt (not_le.mp hnot)
  have hmul : end_ ≤ end_ * g.zone := le_mul_of_one_le_right hend g.zone_pos
  omega

theorem Across.first_le_last (h : Across g start end_ size) :
    firstWhole g start ≤ lastWhole g size end_ := by
  have hlow : firstWhole g start ≤ end_ / g.zone :=
    (Int.le_ediv_iff_mul_le g.zone_pos).mpr h.first_lt.le
  unfold lastWhole
  split_ifs
  · omega
  · exact hlow

theorem Across.firstWhole_nonneg (h : Across g start end_ size) : 0 ≤ firstWhole g start := by
  have hz := g.zone_pos
  have hstart := h.start_nonneg
  by_contra hneg
  have hfirst := (firstWhole_le_iff g start (-1)).mp (by omega)
  omega

theorem Across.nextblock_eq (h : Across g start end_ size) :
    nextblock start g.zone = .ok (firstWhole g start * g.zone) := by
  have hle := h.le
  have hsize := h.fits
  have hnext := h.first_lt
  exact FileHoles.nextblock_eq g h.start_nonneg (by omega)

theorem Across.endZone_eq (h : Across g start end_ size) :
    endZone size end_ g.zone = .ok (lastWhole g size end_) := by
  have hend : 0 ≤ end_ := h.start_nonneg.trans h.lt.le
  exact FileHoles.endZone_eq g size end_ hend ((lastWhole_le g size hend).trans_lt
    (h.le.trans_lt h.fits))

/-- The loop frees the zones in between, up to one that is refused. -/
theorem Across.freeZones_eq (h : Across g start end_ size) (hdoc : Documented g dev zonesOf env)
    (m : M) :
    ∃ r m' last,
      freeZones env dev g.zone (lastWhole g size end_ - firstWhole g start).toNat
        (firstWhole g start) m = .ok (r, m') ∧
      zonesOf m' = without (zonesOf m) (firstWhole g start) last ∧
      last ≤ lastWhole g size end_ ∧ (r = .OK ∨ Refuses env dev r) ∧
      (r = .OK → last = lastWhole g size end_) := by
  have hle := h.le
  have hsize := h.fits
  have hwhole := h.first_le_last
  have hcount : firstWhole g start + ((lastWhole g size end_ - firstWhole g start).toNat : ℤ) =
      lastWhole g size end_ := by
    omega
  obtain ⟨r, m', last, hrun, hzones, _, hhigh, hall⟩ := FileHoles.freeZones_eq hdoc
    (lastWhole g size end_ - firstWhole g start).toNat (firstWhole g start) m h.firstWhole_nonneg
    (by
      intro z _ hz
      have hbelow := last_lt (hcount ▸ hz)
      omega)
  rw [hcount] at hhigh hall
  refine ⟨r, m', last, hrun, hzones, hhigh, hall.imp And.left id, fun hok => ?_⟩
  exact hall.elim And.right fun hrefuses => absurd hok hrefuses.1

/-- Up to a zone, the parts lie in the range. -/
theorem Across.within (h : Across g start end_ size) {last pos : ℤ}
    (hlast : last ≤ lastWhole g size end_)
    (hmem : pos ∈ lastPart g start ∪ firstPart g end_ size ∪
      Set.Ico (firstWhole g start * g.zone) (last * g.zone)) :
    start ≤ pos ∧ (pos < size → pos < end_) := by
  have hz := g.zone_pos
  have hfirst := (firstWhole_le_iff g start (firstWhole g start)).mp (Int.le_refl _)
  have hnext := h.first_lt
  rcases hmem with (⟨hwhole, hlow, hhigh⟩ | ⟨hcond, hlow, hhigh⟩) | hmid
  · refine ⟨hlow, fun _ => ?_⟩
    unfold firstWhole at hnext
    rw [if_neg hwhole] at hnext
    omega
  · refine ⟨?_, fun _ => hhigh⟩
    have hle : firstWhole g start ≤ end_ / g.zone :=
      (Int.le_ediv_iff_mul_le hz).mpr h.first_lt.le
    have hmul : firstWhole g start * g.zone ≤ end_ / g.zone * g.zone :=
      Int.mul_le_mul_of_nonneg_right hle hz.le
    omega
  · have hlow := hmid.1
    refine ⟨by omega, fun hsize => ?_⟩
    have hindex := ((mem_zones g _ _ _).mp hmid).2
    have hcover := (lt_lastWhole_iff g size end_ (pos / g.zone)).mp (by omega)
    split_ifs at hcover with he
    · omega
    · have hin := Int.lt_mul_ediv_self_add (x := pos) hz
      rw [Int.mul_comm] at hin
      rw [Int.add_mul, Int.one_mul] at hcover
      omega

/-- Up to the last zone of which nothing is left, they are the range. -/
theorem Across.whole (h : Across g start end_ size) {pos : ℤ} (hlow : start ≤ pos)
    (hhigh : pos < end_) :
    pos ∈ lastPart g start ∪ firstPart g end_ size ∪
      Set.Ico (firstWhole g start * g.zone) (lastWhole g size end_ * g.zone) := by
  have hz := g.zone_pos
  have hle := h.le
  by_cases hfirst : pos < firstWhole g start * g.zone
  · left
    left
    unfold firstWhole at hfirst
    split_ifs at hfirst with hwhole
    · have hdiv := Int.mul_ediv_add_emod start g.zone
      rw [Int.mul_comm] at hdiv
      omega
    · exact ⟨hwhole, hlow, hfirst⟩
  · by_cases hlast : pos / g.zone < lastWhole g size end_
    · right
      rw [mem_zones, Int.le_ediv_iff_mul_le hz]
      exact ⟨not_lt.mp hfirst, hlast⟩
    · left
      right
      have hfloor := Int.ediv_mul_le pos hz.ne'
      rw [lt_lastWhole_iff] at hlast
      split_ifs at hlast with hsize
      · omega
      · have hindex : end_ / g.zone ≤ pos / g.zone := by
          rw [← Int.lt_add_one_iff, Int.ediv_lt_iff_lt_mul hz]
          omega
        have hsame : end_ / g.zone * g.zone ≤ pos / g.zone * g.zone :=
          Int.mul_le_mul_of_nonneg_right hindex hz.le
        have hdiv := Int.mul_ediv_add_emod end_ g.zone
        rw [Int.mul_comm] at hdiv
        exact ⟨⟨by omega, by omega⟩, by omega, hhigh⟩

/-! ## The calls -/

theorem zeroLast_comes (hsized : Sized vol dev)
    (hdoc : Documented (geometry hsized) dev zonesOf env) (hs : OnDevice s rip dev)
    (hproper : Proper (geometry hsized) (zonesOf (s.map rip))) (hstart : 0 ≤ start)
    (hfits : firstWhole (geometry hsized) start * vol.zoneSize dev < 2 ^ 31) :
    ∃ t, ComesTo (fun fuel => zeroLast env fuel s rip start (vol.zoneSize dev)) t ∧
      SameButData s t ∧
      Holed (geometry hsized) zonesOf dev s t rip (lastPart (geometry hsized) start) := by
  unfold zeroLast
  rw [Int.tmod_eq_emod_of_nonneg hstart]
  by_cases hwhole : start % vol.zoneSize dev = 0
  · have hempty : lastPart (geometry hsized) start = ∅ :=
      Set.eq_empty_of_forall_notMem fun _ hpos => hpos.1 hwhole
    simp only [if_neg (not_not.mpr hwhole)]
    rw [hempty]
    exact ⟨s, comesTo_ok s, ⟨rfl, rfl⟩, holed_empty _ _ _ s rip⟩
  · have hpart : lastPart (geometry hsized) start =
        Set.Ico start ((start / vol.zoneSize dev + 1) * vol.zoneSize dev) :=
      Set.ext fun _ => ⟨fun hpos => hpos.2, fun hpos => ⟨hwhole, hpos⟩⟩
    have hnext : firstWhole (geometry hsized) start = start / vol.zoneSize dev + 1 := if_neg hwhole
    rw [hnext] at hfits
    simp only [ne_eq, hwhole, not_false_eq_true, if_true]
    rw [hpart]
    exact zerozoneHalf_last hsized hdoc hs hproper hstart hfits

theorem zeroFirst_comes (hsized : Sized vol dev)
    (hdoc : Documented (geometry hsized) dev zonesOf env) (hs : OnDevice s rip dev)
    (hproper : Proper (geometry hsized) (zonesOf (s.map rip))) (end_ : ℤ) (hend : 0 ≤ end_)
    (hfits : end_ < 2 ^ 31) :
    ∃ t, ComesTo (fun fuel => zeroFirst env fuel s rip end_ (vol.zoneSize dev)) t ∧
      SameButData s t ∧ Holed (geometry hsized) zonesOf dev s t rip
        (firstPart (geometry hsized) end_ (s.table.inode rip).i_size.toInt) := by
  unfold zeroFirst
  rw [Int.tmod_eq_emod_of_nonneg hend]
  by_cases hcond : end_ % vol.zoneSize dev ≠ 0 ∧ end_ < (s.table.inode rip).i_size.toInt
  · have hpart : firstPart (geometry hsized) end_ (s.table.inode rip).i_size.toInt =
        Set.Ico (end_ / vol.zoneSize dev * vol.zoneSize dev) end_ :=
      Set.ext fun _ => ⟨fun hpos => hpos.2, fun hpos => ⟨hcond, hpos⟩⟩
    simp only [if_pos hcond]
    rw [hpart]
    exact zerozoneHalf_first hsized hdoc hs hproper hend hfits
  · have hempty : firstPart (geometry hsized) end_ (s.table.inode rip).i_size.toInt = ∅ :=
      Set.eq_empty_of_forall_notMem fun _ hpos => hcond hpos.1
    simp only [if_neg hcond]
    rw [hempty]
    exact ⟨s, comesTo_ok s, ⟨rfl, rfl⟩, holed_empty _ _ _ s rip⟩

/-- What freeing a range of a file comes to, with this answer: a hole in the range, and all
of it if nothing was refused. Then no zone is kept for the range alone. -/
structure Frees (g : Geometry) (zonesOf : M → Zones) (dev : Dev) (s t : Space p M) (rip : Slot p)
    (r : Errno) (start end_ : ℤ) : Prop where
  hole : ∃ hole, Holed g zonesOf dev s t rip hole ∧
    (∀ pos ∈ hole, start ≤ pos ∧ (pos < (s.table.inode rip).i_size.toInt → pos < end_)) ∧
    (r = .OK → ∀ pos, start ≤ pos → pos < end_ → pos ∈ hole)
  zones : r = .OK → ∀ z, zonesOf (t.map rip) z = none ↔
    zonesOf (s.map rip) z = none ∨ Covered g (s.table.inode rip).i_size.toInt start end_ z

theorem freeAcross_comes (hsized : Sized vol dev)
    (hdoc : Documented (geometry hsized) dev zonesOf env) (hs : OnDevice s rip dev)
    (hproper : Proper (geometry hsized) (zonesOf (s.map rip)))
    (h : Across (geometry hsized) start end_ (s.table.inode rip).i_size.toInt) :
    ∃ r t, ComesTo (fun fuel => freeAcross vol env fuel s rip start end_) (r, t) ∧
      t.table = s.table ∧ (r = .OK ∨ Refuses env dev r) ∧
      Frees (geometry hsized) zonesOf dev s t rip r start end_ := by
  have hstart := h.start_nonneg
  have hend : 0 ≤ end_ := hstart.trans h.lt.le
  have hfits : end_ < 2 ^ 31 := h.le.trans_lt h.fits
  obtain ⟨u, hu, hsame, hlast⟩ := zeroLast_comes hsized hdoc hs hproper hstart
    (h.first_lt.trans hfits)
  have hproper' := hproper.punched hlast.punched
  obtain ⟨v, hv, hsame', hfirst⟩ := zeroFirst_comes hsized hdoc (hsame.onDevice hs) hproper' end_
    hend hfits
  have hboth := hsame.trans hsame'
  obtain ⟨r, m, last, hrun, hzones, hhigh, hanswer, hall⟩ := h.freeZones_eq hdoc (v.map rip)
  have hparts := (hlast.union hfirst fun pos hpos => hstart.trans hpos.2.1).union
    (holed_setMap hzones) (by
      rintro pos (hpos | hpos)
      · exact hstart.trans hpos.2.1
      · have hz := (geometry hsized).zone_pos.le
        exact (Int.mul_nonneg (Int.ediv_nonneg hend hz) hz).trans hpos.2.1)
  rw [hsame.table] at hparts
  refine ⟨r, v.setMap rip m, ?_, hboth.table, hanswer, ⟨_, hparts, ?_, ?_⟩, ?_⟩
  · unfold freeAcross
    rw [hs.i_sp]
    refine hu.bind (hv.bind ?_)
    rw [hboth.table, hs.i_dev]
    refine ⟨0, fun fuel _ => ?_⟩
    have hendZone := h.endZone_eq
    have hnextblock := h.nextblock_eq
    change endZone _ end_ (vol.zoneSize dev) = _ at hendZone
    change nextblock start (vol.zoneSize dev) = .ok (_ * vol.zoneSize dev) at hnextblock
    have hdiv : (firstWhole (geometry hsized) start * vol.zoneSize dev).tdiv (vol.zoneSize dev) =
        firstWhole (geometry hsized) start := Int.mul_tdiv_cancel _ (geometry hsized).zone_pos.ne'
    rw [hendZone, ok_bind, hnextblock, ok_bind]
    dsimp only
    rw [hdiv]
    change (freeZones env dev (vol.zoneSize dev) _ _ (v.map rip) >>= _) = _
    change freeZones env dev (vol.zoneSize dev) _ _ (v.map rip) = _ at hrun
    rw [hrun, ok_bind]
    rfl
  · exact fun pos hpos => h.within hhigh hpos
  · intro hok pos hpos hpos'
    rw [hall hok]
    exact h.whole hpos hpos'
  · intro hok z
    rw [covered_iff_whole _ hstart h.le]
    change zonesOf (Function.update v.map rip m rip) z = none ↔ _
    rw [Function.update_self, hzones, hall hok, hboth.map]
    unfold without
    split_ifs with hcond
    · simp [hcond]
    · simp [hcond]

theorem not_freed_in_zone (g : Geometry) {z : ℤ} (hstart : 0 ≤ start) (hle : end_ ≤ size)
    (hone : start / g.zone = (end_ - 1) / g.zone)
    (hpart : start % g.zone ≠ 0 ∨ end_ % g.zone ≠ 0 ∧ end_ < size) :
    ¬ Covered g size start end_ z := by
  have hz := g.zone_pos
  rw [covered_iff g hstart]
  rintro ⟨hlow, hsize, hhigh⟩
  have hat := (Int.ediv_eq_iff_of_pos hz).mp hone.symm
  have hdiv := Int.mul_ediv_add_emod start g.zone
  have hmod := Int.emod_nonneg start hz.ne'
  have hdiv' := Int.mul_ediv_add_emod end_ g.zone
  have hmod' := Int.emod_nonneg end_ hz.ne'
  rw [Int.mul_comm] at hdiv hdiv'
  -- the zone is the one in which the range starts
  have hle' : start / g.zone ≤ z := by
    rw [Int.ediv_le_iff_le_mul hz]
    omega
  have hge : z ≤ start / g.zone := by
    rw [Int.le_ediv_iff_mul_le hz]
    by_contra hnot
    have hnext : start / g.zone + 1 ≤ z := by
      rw [Int.add_one_le_iff, Int.ediv_lt_iff_lt_mul hz]
      omega
    have hmul : (start / g.zone + 1) * g.zone ≤ z * g.zone :=
      Int.mul_le_mul_of_nonneg_right hnext hz.le
    rw [Int.add_mul, Int.one_mul] at hmul
    omega
  have hsame : z = start / g.zone := by omega
  subst hsame
  rcases hpart with hfirst | ⟨hlast, hshort⟩
  · omega
  · have hend : end_ = start / g.zone * g.zone + g.zone := by omega
    rw [hend, Int.add_emod_right, Int.mul_emod_left] at hlast
    exact hlast rfl

/-- A range in one zone is zeroed, and no zone is freed. -/
theorem zeroInside_comes (hsized : Sized vol dev)
    (hdoc : Documented (geometry hsized) dev zonesOf env) (hs : OnDevice s rip dev)
    (hproper : Proper (geometry hsized) (zonesOf (s.map rip))) (hstart : 0 ≤ start)
    (hlt : start < end_) (hle : end_ ≤ (s.table.inode rip).i_size.toInt)
    (hone : start / vol.zoneSize dev = (end_ - 1) / vol.zoneSize dev)
    (hpart : start % vol.zoneSize dev ≠ 0 ∨
      end_ % vol.zoneSize dev ≠ 0 ∧ end_ < (s.table.inode rip).i_size.toInt) :
    ∃ t, ComesTo (fun fuel => zerozoneRange env fuel s rip start (end_ - start)) t ∧
      t.table = s.table ∧ Frees (geometry hsized) zonesOf dev s t rip .OK start end_ := by
  have hsize := Int32.toInt_lt (s.table.inode rip).i_size
  have hend : start + (end_ - start) = end_ := by omega
  obtain ⟨t, ht, hsame, hholed⟩ := zerozoneRange_comes hsized hdoc hs hproper start
    (end_ - start) hstart (by omega) (by omega) fun _ => by rw [hend]; exact hone.symm
  rw [hend] at hholed
  refine ⟨t, ht, hsame.table, ⟨_, hholed, ?_, ?_⟩, ?_⟩
  · exact fun pos hpos => ⟨hpos.1, fun _ => hpos.2⟩
  · exact fun _ pos hpos hpos' => ⟨hpos, hpos'⟩
  · intro _ z
    rw [hsame.map]
    exact (or_iff_left (not_freed_in_zone (geometry hsized) hstart hle hone hpart)).symm

/-- The table after a call with this answer. -/
def tableAfter (s : Space p M) (rip : Slot p) (r : Errno) : State p :=
  if r = .OK then (touchData s rip).table else s.table

/-- Only the times to be updated and the mark of the inode are changed. -/
theorem inode_touchData (s : Space p M) (rip q : Slot p) :
    (touchData s rip).table.inode q =
      if q = rip then
        dirtied { s.table.inode rip with i_update := changedData (s.table.inode rip).i_update }
      else s.table.inode q := by
  obtain ⟨log, hlog⟩ := markDirty_eq
    (s.table.modify rip fun rip => { rip with i_update := changedData rip.i_update }) rip
  change (markDirty _ rip).inode q = _
  rw [hlog]
  change ((s.table.modify rip _).modify rip dirtied).inode q = _
  split_ifs with hq
  · subst hq
    rw [inode_modify_self, inode_modify_self]
  · rw [inode_modify_of_ne _ _ hq, inode_modify_of_ne _ _ hq]

theorem size_tableAfter (s : Space p M) (rip : Slot p) (r : Errno) :
    ((tableAfter s rip r).inode rip).i_size = (s.table.inode rip).i_size := by
  unfold tableAfter
  split_ifs
  · rw [inode_touchData, if_pos rfl]
    rfl
  · rfl

theorem inode_tableAfter (s : Space p M) (r : Errno) {q rip : Slot p} (hq : q ≠ rip) :
    (tableAfter s rip r).inode q = s.table.inode q := by
  unfold tableAfter
  split_ifs
  · rw [inode_touchData, if_neg hq]
  · rfl

theorem table_touchData (ht : t.table = s.table) :
    (touchData t rip).table = tableAfter s rip .OK := by
  unfold tableAfter
  rw [if_pos rfl]
  unfold touchData
  rw [ht]
  rfl

/-- Marking the inode changes neither blocks nor zones. -/
theorem Frees.touchData {r : Errno} (h : Frees g zonesOf dev s t rip r start end_) :
    Frees g zonesOf dev s (FileSpace.touchData t rip) rip r start end_ := by
  obtain ⟨⟨hole, hholed, hwithin, hwhole⟩, hzones⟩ := h
  exact ⟨⟨hole, ⟨hholed.punched, hholed.maps, hholed.devices⟩, hwithin, hwhole⟩, hzones⟩

/-- Nothing is asked for, or it is freed, or a zone is refused. -/
def Answers (env : Mapping M) (dev : Dev) (start end_ : ℤ) (r : Errno) : Prop :=
  if end_ ≤ start then r = .EINVAL else r = .OK ∨ Refuses env dev r

theorem freespInode_comes (hsized : Sized vol dev)
    (hdoc : Documented (geometry hsized) dev zonesOf env) (hs : OnDevice s rip dev)
    (hproper : Proper (geometry hsized) (zonesOf (s.map rip))) (hstart : 0 ≤ start) (end_ : ℤ) :
    ∃ r t, ComesTo (fun fuel => freespInode vol env fuel s rip start end_) (r, t) ∧
      t.table = tableAfter s rip r ∧
      Answers env dev start (min end_ (s.table.inode rip).i_size.toInt) r ∧
      Frees (geometry hsized) zonesOf dev s t rip r start
        (min end_ (s.table.inode rip).i_size.toInt) := by
  have hsize := Int32.toInt_lt (s.table.inode rip).i_size
  have hmin : (if end_ > (s.table.inode rip).i_size.toInt then (s.table.inode rip).i_size.toInt
      else end_) = min end_ (s.table.inode rip).i_size.toInt := by
    split_ifs <;> omega
  unfold freespInode
  unfold Answers
  dsimp only
  rw [hmin, hs.i_sp]
  generalize hstop : min end_ (s.table.inode rip).i_size.toInt = stop
  have hle : stop ≤ (s.table.inode rip).i_size.toInt := by omega
  by_cases hempty : stop ≤ start
  · simp only [if_pos hempty]
    refine ⟨.EINVAL, s, comesTo_ok _, rfl, rfl,
      ⟨∅, holed_empty _ _ _ s rip, ?_, nofun⟩, nofun⟩
    exact fun _ hpos => absurd hpos (Set.notMem_empty _)
  · have hlt := not_le.mp hempty
    simp only [if_neg hempty]
    rw [Int.tmod_eq_emod_of_nonneg hstart, Int.tmod_eq_emod_of_nonneg (by omega : 0 ≤ stop),
      Int.tdiv_eq_ediv_of_nonneg hstart, Int.tdiv_eq_ediv_of_nonneg (by omega : 0 ≤ stop - 1)]
    by_cases hcond : start / vol.zoneSize dev = (stop - 1) / vol.zoneSize dev ∧
        (start % vol.zoneSize dev ≠ 0 ∨
          stop % vol.zoneSize dev ≠ 0 ∧ stop < (s.table.inode rip).i_size.toInt)
    · simp only [if_pos hcond]
      obtain ⟨t, ht, htable, hfrees⟩ := zeroInside_comes hsized hdoc hs hproper hstart hlt hle
        hcond.1 hcond.2
      refine ⟨.OK, touchData t rip, ?_, table_touchData htable, .inl rfl, hfrees.touchData⟩
      simp only [offT_ok (by omega : 0 ≤ stop - start) (by omega), ok_bind]
      exact ht.bind (comesTo_ok _)
    · simp only [if_neg hcond]
      have hacross : Across (geometry hsized) start stop (s.table.inode rip).i_size.toInt :=
        ⟨hstart, hlt, hle, hsize, hcond⟩
      obtain ⟨r, t, ht, htable, hanswer, hfrees⟩ := freeAcross_comes hsized hdoc hs hproper hacross
      by_cases hr : r = .OK
      · subst hr
        refine ⟨.OK, touchData t rip, ?_, table_touchData htable, .inl rfl, hfrees.touchData⟩
        refine ht.bind ?_
        simp only [ne_eq, not_true_eq_false, if_false]
        exact comesTo_ok _
      · refine ⟨r, t, ?_, ?_, hanswer, hfrees⟩
        · refine ht.bind ?_
          simp only [ne_eq, hr, not_false_eq_true, if_true]
          exact comesTo_ok _
        · unfold tableAfter
          rw [if_neg hr]
          exact htable

/-! ## A small file -/

/-- Zones of one block, by their numbers. -/
abbrev SmallMap := ℤ → ℕ

def smallZones (m : SmallMap) : Zones := fun z => if m z = NO_BLOCK then none else some (m z)

def smallVolume : Volume small where
  s_log_zone_size _ := 0
  s_max_size _ := 2147483647
  I_CHAR_SPECIAL := 0x2000
  I_BLOCK_SPECIAL := 0x6000
  EFBIG := 27

def smallMapping : Mapping SmallMap where
  read_map _ m pos := m (pos / 4096)
  write_map _ m pos := (.OK, Function.update m (pos / 4096) NO_BLOCK)
  clear_zone _ _ _ data := data

theorem sized_small (dev : Dev) : Sized smallVolume dev := by
  have hblock : blockSize small dev = 4096 := rfl
  have hzone : smallVolume.zoneSize dev = 4096 := rfl
  constructor
  · rw [hblock]
    decide
  · rw [hblock]
    decide
  · rw [hzone]
    decide

theorem cell_small (dev : Dev) (m : SmallMap) (pos : ℤ) :
    cell (geometry (sized_small dev)) (smallZones m) pos =
      if m (pos / 4096) = NO_BLOCK then none else some (m (pos / 4096), pos % 4096) := by
  have hplace : pos % 4096 / 4096 = 0 := by omega
  have hcell : cell (geometry (sized_small dev)) (smallZones m) pos =
      (smallZones m (pos / 4096)).map fun first =>
        (first + (pos % 4096 / 4096).toNat, pos % 4096) := rfl
  rw [hcell, hplace]
  unfold smallZones
  split_ifs <;> rfl

theorem documented_smallMapping (dev : Dev) :
    Documented (geometry (sized_small dev)) dev smallZones smallMapping := by
  constructor
  · intro m pos _
    rw [cell_small]
    change m (pos / 4096) = _
    split_ifs with hnone
    · exact hnone
    · rfl
  · intro m pos c hc
    rw [cell_small] at hc
    split_ifs at hc with hnone
    cases hc
    exact hnone
  · intro m pos _ _
    funext z
    change smallZones (Function.update m (pos / 4096) NO_BLOCK) z =
      Function.update (smallZones m) (pos / 4096) none z
    unfold smallZones
    simp only [Function.update_apply]
    split_ifs <;> first | rfl | contradiction
  · exact fun m pos hne => absurd rfl hne
  · exact fun m pos data _ _ => ⟨∅, fun q hq => absurd hq (Set.notMem_empty _), punched_empty⟩

/-- The file is open, and its only zone is full of sevens. -/
def openedSpace : Space small SmallMap where
  table := openedFile
  map _ z := if z = 0 then 5 else NO_BLOCK
  data _ _ := 7

theorem cell_openedSpace {r : Slot small} {q : ℤ} {c : Cell}
    (h : cell (geometry (sized_small dev)) (smallZones (openedSpace.map r)) q = some c) :
    q / 4096 = 0 ∧ c = (5, q % 4096) := by
  rw [cell_small] at h
  change (if (if q / 4096 = 0 then 5 else NO_BLOCK) = NO_BLOCK then none
    else some ((if q / 4096 = 0 then 5 else NO_BLOCK), q % 4096)) = some c at h
  by_cases hfirst : q / 4096 = 0
  · rw [if_pos hfirst, if_neg (by decide)] at h
    exact ⟨hfirst, (Option.some.inj h).symm⟩
  · rw [if_neg hfirst, if_pos rfl] at h
    cases h

theorem byteAt_openedSpace (dev : Dev) (r : Slot small) (pos : ℤ) :
    byteAt (geometry (sized_small dev)) (smallZones (openedSpace.map r)) (openedSpace.data dev) pos =
      if pos / 4096 = 0 then 7 else 0 := by
  have hcell := cell_small dev (openedSpace.map r) pos
  by_cases hfirst : pos / 4096 = 0
  · have hmap : openedSpace.map r (pos / 4096) = 5 := if_pos hfirst
    rw [hmap, if_neg (by decide)] at hcell
    rw [byteAt_some hcell, if_pos hfirst]
    rfl
  · have hmap : openedSpace.map r (pos / 4096) = NO_BLOCK := if_neg hfirst
    rw [hmap, if_pos rfl] at hcell
    rw [byteAt_none hcell, if_neg hfirst]

/-- A file with this zone of sevens. -/
def sevens : File where
  size := 4096
  byte pos := if pos / 4096 = 0 then 7 else 0
  tail pos hpos := if_neg (by omega)

/-! ## What becomes of a file -/

/-- What freeing a range of a file comes to, with this answer. With `OK` the file has the hole that was
asked for, and keeps a zone unless all its bytes there lie in the hole. In any case a byte that is not as
before is a zero in the range, and its size, the other inodes, the blocks that hold no byte of it behind
the start, and the other devices are as before. -/
structure FreesRange (g : Geometry) (zonesOf : M → Zones) (env : Mapping M) (dev : Dev)
    (s t : Space p M) (rip : Slot p) (f : File) (start end_ : ℤ) (r : Errno) : Prop where
  answer : Answers env dev start (min end_ f.size) r
  shows : r = .OK → Shows g (zonesOf (t.map rip)) (t.data dev) (f.punch start end_)
  zones : r = .OK → ∀ z, zonesOf (t.map rip) z = none ↔
    zonesOf (s.map rip) z = none ∨ Covered g f.size start (min end_ f.size) z
  bytes : ∀ pos, 0 ≤ pos → byteAt g (zonesOf (t.map rip)) (t.data dev) pos = f.byte pos ∨
    start ≤ pos ∧ pos < min end_ f.size ∧ byteAt g (zonesOf (t.map rip)) (t.data dev) pos = 0
  size : (t.table.inode rip).i_size = (s.table.inode rip).i_size
  inodes : ∀ q, q ≠ rip → t.table.inode q = s.table.inode q
  blocks : ∀ c, (∀ pos, start ≤ pos → cell g (zonesOf (s.map rip)) pos ≠ some c) →
    t.data dev c = s.data dev c
  maps : ∀ q, q ≠ rip → t.map q = s.map q
  devices : ∀ d, d ≠ dev → t.data d = s.data d

end MinixOS.FileHoles
