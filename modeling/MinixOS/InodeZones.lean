import MinixOS.CheckedExecution
import MinixOS.InodeSystem

/-!
# The zones of deleted inodes

`put_inode` leaves the zones of a deleted inode where they are, allocated and referenced by the
inode on disk, and no function that is called here gives a zone back. The zones of an
inode number therefore stay the same through deletion and recovery. They are lost when
`alloc_inode` uses the number again, because `wipe_inode` clears what still references them.
-/
namespace MinixOS.InodeZones
open SystemRuns InodeState InodeCopy InodeCache WriteBackCache InodeView InodeRelease
  InodeAllocation InodeSystem

variable {p : Platform} {s t : State p} {r : Slot p} {k : Dev × UInt32} {z : UInt32}

/-! ## What a call leaves of each inode -/

section Tracking
variable {A : Type*} {part : Dev × UInt32 → Record p → A} {fixed : Dev × UInt32 → A}
  {env : Environment p} {dirty : Slot p → Prop}

theorem tracks_kept (h : Tracks (view s) (Dirty s) part fixed) (hkept : Kept s t) :
    Tracks (view t) (Dirty t) part fixed := by
  rw [hkept.view_eq]
  exact h.congr hkept.dirty

theorem tracks_acquired (h : Tracks (view s) (Dirty s) part fixed) (hi : Idle s)
    (ha : Acquired s k t) : Tracks (view t) (Dirty t) part fixed := by
  cases ha with
  | kept hkept => exact tracks_kept h hkept
  | read r habsent hr hview hclean hother hunused =>
      rw [hview]
      exact h.fetch habsent (hi.not_dirty hr) hother.dirty

/-- The part does not depend on the times of the inode. -/
def Timeless (part : Dev × UInt32 → Record p → A) : Prop :=
  ∀ k cur_time rip, part k (encode k.1 (stamp cur_time rip)) = part k (encode k.1 rip)

theorem tracks_saved (hpart : Timeless part) (h : Tracks (view s) (Dirty s) part fixed)
    (hkey : slotKey (s.inode r) = some k) (hother : ∀ q, q ≠ r → (dirty q ↔ Dirty s q)) :
    Tracks (saved env s r k) dirty part fixed := by
  apply h.save hkey
  · rw [hpart, ← h.held r k hkey]
    rw [view_value, (slotKey_eq_some.mp hkey).2.1]
  · exact hother

theorem tracks_released (hpart : Timeless part) (h : Tracks (view s) (Dirty s) part fixed)
    (hr : Released env s r t) : Tracks (view t) (Dirty t) part fixed := by
  cases hr with
  | counted hkept => exact tracks_kept h hkept
  | closed k hkey hview hclean hother hunused =>
      rw [hview]
      split_ifs with hdirt
      · exact tracks_saved hpart h hkey hother.dirty
      · apply h.congr
        intro q
        by_cases he : q = r
        · subst he
          exact iff_of_false (not_dirty_of_clean hclean) hdirt
        · exact hother.dirty q he
  | freed k hkey hlinks hview hother hunused =>
      rw [hview]
      split_ifs with hdirt
      · -- the slot counts as clean once it is saved
        have hsaved : Tracks (saved env s r k) (fun q => q ≠ r ∧ Dirty s q) part fixed := by
          apply tracks_saved hpart h hkey
          intro q hq
          exact and_iff_right hq
        apply hsaved.drop
        · exact fun hd => hd.1 rfl
        · intro q hq
          rw [hother.dirty q hq]
          exact (and_iff_right hq).symm
      · apply h.drop
        · intro hd
          apply hdirt
          unfold dirtied
          dsimp only
          split_ifs
          · exact hd
          · rfl
        · exact hother.dirty

end Tracking

/-! ## References -/

section References
variable (entries : UInt32 → List UInt32)

/-- What is reached from a zone number with this many indirect blocks in between, the blocks
included. -/
def reached : ℕ → UInt32 → List UInt32
  | 0, zone => [zone]
  | level + 1, zone =>
      if zone = NO_ZONE then [] else zone :: (entries zone).flatMap (reached level)

/-- The zones of an inode. Its first `dzones` numbers are of data zones, the next one is of an
indirect block, the one behind that of a doubly indirect block, and so on. -/
def allZones (dzones : ℕ) (zones : List UInt32) : List UInt32 :=
  zones.zipIdx.flatMap fun z => reached entries (z.2 + 1 - dzones) z.1

variable {entries}

theorem reached_none (level : ℕ) (h : z ∈ reached entries level NO_ZONE) : z = NO_ZONE := by
  cases level with
  | zero => exact List.mem_singleton.mp h
  | succ level =>
      unfold reached at h
      rw [if_pos rfl] at h
      exact absurd h List.not_mem_nil

theorem allZones_none {dzones : ℕ} {zones : List UInt32} (hzones : ∀ zone ∈ zones, zone = NO_ZONE)
    (h : z ∈ allZones entries dzones zones) : z = NO_ZONE := by
  obtain ⟨⟨zone, i⟩, hmem, hz⟩ := List.mem_flatMap.mp h
  have hnone : zone = NO_ZONE := hzones zone (List.fst_mem_of_mem_zipIdx hmem)
  dsimp only at hz
  rw [hnone] at hz
  exact reached_none _ hz

end References

/-- The zone numbers in a record, in the byte order of the machine. -/
def zones (dev : Dev) : Record p → List UInt32
  | .v1 dip => dip.d1_zone.toList.map fun z =>
      (p.conv2 (p.get_super dev).s_native z).toUInt32
  | .v2 dip => dip.d2_zone.toList.map fun z => p.conv4 (p.get_super dev).s_native z

/-- How many of them are of data zones. -/
def dzones : Record p → ℕ
  | .v1 _ => p.V1_NR_DZONES.toNat
  | .v2 _ => p.V2_NR_DZONES.toNat

-- The zone numbers in the indirect blocks of a device. No call that is modelled here writes one.
variable (indirect : Dev → UInt32 → List UInt32)

def References (dev : Dev) (rec : Record p) (z : UInt32) : Prop :=
  z ≠ NO_ZONE ∧ z ∈ allZones (indirect dev) (dzones rec) (zones dev rec)

instance (dev : Dev) (rec : Record p) (z : UInt32) : Decidable (References indirect dev rec z) :=
  inferInstanceAs (Decidable (_ ∧ _))

/-- The inode references the zone, in core if it is there, and else on disk. -/
def InodeReferences (s : State p) (k : Dev × UInt32) (z : UInt32) : Prop :=
  ∃ x, Current (view s) k x ∧ References indirect k.1 x z

/-- No copy of the inode is without the zone. -/
def KeepsZone (s : State p) (k : Dev × UInt32) (z : UInt32) : Prop :=
  ∀ x, Current (view s) k x → References indirect k.1 x z

variable {indirect}

theorem KeepsZone.references (h : KeepsZone indirect s k z) : InodeReferences indirect s k z := by
  obtain ⟨x, hx⟩ := exists_current (view s) k
  exact ⟨x, hx, h x hx⟩

/-- The zones of an inode are not touched when its times are. -/
theorem references_stamp (dev : Dev) (cur_time : UInt32) (rip : Inode p) :
    References indirect dev (encode dev (stamp cur_time rip)) =
      References indirect dev (encode dev rip) := by
  rw [stamp_fields]
  unfold encode
  dsimp only
  split_ifs
  · rfl
  · rfl

theorem zones_encode_none (hp : Conversions p) {dev : Dev} {rip : Inode p}
    (hzone : rip.i_zone = Vector.replicate _ NO_ZONE) :
    ∀ zone ∈ zones dev (encode dev rip), zone = NO_ZONE := by
  intro zone hmem
  unfold encode at hmem
  dsimp only at hmem
  split_ifs at hmem with hversion
  · unfold zones oldIcopyOut at hmem
    obtain ⟨w, hw, rfl⟩ := List.mem_map.mp hmem
    obtain ⟨i, rfl⟩ := List.mem_ofFn.mp (Vector.toList_ofFn ▸ hw)
    rw [hp.conv2, hzone, CheckedExecution.get_replicate]
    rfl
  · unfold zones newIcopyOut at hmem
    obtain ⟨w, hw, rfl⟩ := List.mem_map.mp hmem
    obtain ⟨i, rfl⟩ := List.mem_ofFn.mp (Vector.toList_ofFn ▸ hw)
    rw [hp.conv4, hzone, CheckedExecution.get_replicate]

/-- An inode without zones references none. -/
theorem not_references_encode (hp : Conversions p) {dev : Dev} {rip : Inode p}
    (hzone : rip.i_zone = Vector.replicate _ NO_ZONE) :
    ¬ References indirect dev (encode dev rip) z :=
  fun ⟨hz, hmem⟩ => hz (allZones_none (zones_encode_none hp hzone) hmem)

/-! ## The invariant -/

variable (indirect) in
/-- The zones of each inode number are these, in core and on disk. -/
def Fixed (s : State p) (Z : Dev × UInt32 → UInt32 → Prop) : Prop :=
  Tracks (view s) (Dirty s) (fun k => References indirect k.1) Z

variable {Z : Dev × UInt32 → UInt32 → Prop} {env : Environment p}

theorem Fixed.kept (h : Fixed indirect s Z) (hkept : Kept s t) : Fixed indirect t Z := tracks_kept h hkept

theorem Fixed.acquired (h : Fixed indirect s Z) (hi : Idle s) (ha : Acquired s k t) : Fixed indirect t Z :=
  tracks_acquired h hi ha

theorem Fixed.released (h : Fixed indirect s Z) (hr : Released env s r t) : Fixed indirect t Z :=
  tracks_released (fun k => references_stamp k.1) h hr

variable (indirect) in
/-- The new inode gets the number of an inode that references a zone. -/
def Loses (e : Step (State p) (Request p) (Option (Slot p))) : Prop :=
  ∃ r k, Allocates e.before e.call r k ∧ ∃ z, InodeReferences indirect e.before k z

theorem Fixed.returns (hp : Conversions p) (hb : InodesPerBlock p) (hl : Linked s) (hi : Idle s)
    (h : Fixed indirect s Z) {req : Request p} {answer : Option (Slot p)} (hcall : Returns s req answer t)
    (hsafe : ¬ Loses indirect ⟨s, req, answer, t⟩) : Fixed indirect t Z := by
  cases (hcall.effect hp hb hl).1 with
  | kept hnot hkept => exact h.kept hkept
  | opened k hopens ha => exact h.acquired hi ha
  | put r hputs hr => exact h.released hr
  | made r k rip hmakes hview hzone hdirty hother hunused =>
      have hnone : ∀ z, ¬ Z k z := by
        intro z hz
        obtain ⟨x, hx⟩ := exists_current (view s) k
        refine hsafe ⟨r, k, hmakes, z, x, hx, ?_⟩
        rw [Tracks.current h hx]
        exact hz
      have hr : r ∈ s.unused_inodes := List.mem_of_mem_head? hmakes.2.2.2.2
      unfold Fixed
      rw [hview]
      apply Tracks.occupy h (hi.not_dirty hr) hother.dirty
      · funext z
        exact propext (iff_of_false (not_references_encode hp hzone) (hnone z))
      · exact fun hclean => absurd hdirty hclean

/-! ## Runs -/

variable (indirect)

/-- The last user puts an inode without links, which references the zone. -/
def Deletes (k : Dev × UInt32) (z : UInt32) (e : Step (State p) (Request p) (Option (Slot p))) :
    Prop :=
  ∃ r, e.call.call = .put_inode (some r) ∧ slotKey (e.before.inode r) = some k ∧
    (e.before.inode r).i_count = 1 ∧ (e.before.inode r).i_nlinks = NO_LINK ∧
    References indirect k.1 (encode k.1 (e.before.inode r)) z

/-- The device has an inode of this number. -/
def OnDevice (p : Platform) (dev : Dev) (numb : UInt32) : Prop :=
  numb ≠ NO_ENTRY ∧ numb ≤ (p.get_super dev).s_ninodes

instance (dev : Dev) (numb : UInt32) : Decidable (OnDevice p dev numb) :=
  inferInstanceAs (Decidable (_ ∧ _))

/-- Each zone of a deleted inode is still referenced by the inode of that number, or has
been given back, and each zone in use is referenced by some inode. -/
structure NoZoneLost (history : List (Step (State p) (Request p) (Option (Slot p))))
    (s : State p) : Prop where
  deleted : ∀ e ∈ history, ∀ k z, Deletes indirect k z e →
    KeepsZone indirect s k z ∨ s.zmap k.1 z = false
  used : ∀ dev z, s.zmap dev z = true →
    ∃ numb, OnDevice p dev numb ∧ InodeReferences indirect s (dev, numb) z

/-- A table as other calls may have left it: an inode has one slot, a clean one has the zones that
it has on disk, and one that nobody uses is clean. -/
structure Intact (s : State p) : Prop where
  linked : Linked s
  single : Single (view s)
  idle : Idle s
  clean : ∀ r k, slotKey (s.inode r) = some k → (s.inode r).i_dirt = .IN_CLEAN →
    References indirect k.1 (record s k.1 k.2) = References indirect k.1 (encode k.1 (s.inode r))
  used : ∀ dev z, s.zmap dev z = true →
    ∃ numb, OnDevice p dev numb ∧ InodeReferences indirect s (dev, numb) z

variable {indirect}

theorem intact_initInodeCache
    (hused : ∀ dev z, s.zmap dev z = true → ∃ numb, OnDevice p dev numb ∧
      References indirect dev (record s dev numb) z) :
    Intact indirect (initInodeCache s) := by
  constructor
  · exact linked_initInodeCache s
  · exact fun q r k hq => nomatch hq
  · exact idle_initInodeCache s
  · exact fun r k hkey => nomatch hkey
  · intro dev z hz
    obtain ⟨numb, hnumb, hz⟩ := hused dev z hz
    exact ⟨numb, hnumb, _, .stored (fun r => nofun), hz⟩

theorem Intact.fixed (h : Intact indirect s) : Fixed indirect s (InodeReferences indirect s) := by
  have hheld : ∀ r k, (view s).key r = some k →
      References indirect k.1 ((view s).value r) = InodeReferences indirect s k := by
    intro r k hkey
    funext z
    apply propext
    constructor
    · exact fun hz => ⟨_, .held hkey, hz⟩
    · rintro ⟨x, hx, hz⟩
      rw [Current.unique h.single (.held hkey) hx]
      exact hz
  constructor
  · exact hheld
  · intro k hclean
    by_cases hk : ∃ r, (view s).key r = some k
    · obtain ⟨r, hkey⟩ := hk
      have hi_dirt : (s.inode r).i_dirt = .IN_CLEAN := by
        cases hdirt : (s.inode r).i_dirt with
        | IN_CLEAN => rfl
        | IN_DIRTY => exact absurd hdirt (hclean r hkey)
      have hdev : (s.inode r).i_dev = k.1 := (slotKey_eq_some.mp hkey).2.1
      have hvalue := hheld r k hkey
      rw [view_value, hdev] at hvalue
      exact (h.clean r k hkey hi_dirt).trans hvalue
    · have habsent : Absent (view s) k := not_exists.mp hk
      funext z
      apply propext
      constructor
      · exact fun hz => ⟨_, .stored habsent, hz⟩
      · rintro ⟨x, hx, hz⟩
        rw [Current.unique h.single (.stored habsent) hx]
        exact hz

/-- No zone is lost in a run in which no new inode gets the number of an inode that still
references a zone. -/
theorem no_zone_lost (hp : Conversions p) (hb : InodesPerBlock p) (hs : Intact indirect s)
    {history : List (Step (State p) (Request p) (Option (Slot p)))}
    (hr : Run (system s) history t) (hsafe : ∀ e ∈ history, ¬ Loses indirect e) : NoZoneLost indirect history t := by
  have hinv : Linked t ∧ Idle t ∧ Fixed indirect t (InodeReferences indirect s) ∧ t.zmap = s.zmap ∧
      ∀ e ∈ history, ∀ k z, Deletes indirect k z e → InodeReferences indirect s k z := by
    apply hr.guarded_invariant (I := fun history t => Linked t ∧ Idle t ∧
      Fixed indirect t (InodeReferences indirect s) ∧ t.zmap = s.zmap ∧
      ∀ e ∈ history, ∀ k z, Deletes indirect k z e → InodeReferences indirect s k z) _ _ hsafe
    · exact ⟨hs.linked, hs.idle, hs.fixed, rfl, fun e he => absurd he List.not_mem_nil⟩
    · intro history u req answer v hru hu hcall hloses
      obtain ⟨hlinked, hidle, hfixed, hzmap, hdeleted⟩ := hu
      obtain ⟨heffect, hlinked'⟩ := hcall.effect hp hb hlinked
      have hfixed' := hfixed.returns hp hb hlinked hidle hcall hloses
      have hzmap' := (hcall.zmap hlinked).trans hzmap
      refine ⟨hlinked', heffect.idle hidle, hfixed', hzmap', ?_⟩
      intro e he k z hdeletes
      rcases List.mem_cons.mp he with rfl | he
      · obtain ⟨r, _, hkey, _, _, hz⟩ := hdeletes
        have hdev : (u.inode r).i_dev = k.1 := (slotKey_eq_some.mp hkey).2.1
        have hheld := hfixed.held r k hkey
        rw [view_value, hdev] at hheld
        rw [← hheld]
        exact hz
      · exact hdeleted e he k z hdeletes
  obtain ⟨_, _, hfixed, hzmap, hdeleted⟩ := hinv
  have hkeeps : ∀ k z, InodeReferences indirect s k z → KeepsZone indirect t k z := by
    intro k z hz x hx
    rw [Tracks.current hfixed hx]
    exact hz
  constructor
  · exact fun e he k z hdeletes => .inl (hkeeps k z (hdeleted e he k z hdeletes))
  · intro dev z hz
    rw [hzmap] at hz
    obtain ⟨numb, hnumb, hz⟩ := hs.used dev z hz
    exact ⟨numb, hnumb, (hkeeps _ z hz).references⟩

/-! ## Reuse of a number -/

/-- The old file with an indirect block in zone 6. -/
def largeFile : D2Inode small :=
  { oldFile with d2_zone := oldFile.d2_zone.set 7 6 (by decide) }

/-- The block in zone 6 has the zone numbers 7 and 8. -/
def smallIndirect (_dev : Dev) (zone : UInt32) : List UInt32 := if zone = 6 then [7, 8] else []

def mountedLarge : State small :=
  initInodeCache
    { mounted with
      zmap := fun _ z => z = 4 ∨ z = 5 ∨ z = 6 ∨ z = 7 ∨ z = 8
      blocks := fun _ _ =>
        { b_v1_ino := fun _ => ⟨0, 0, 0, 0, 0, 0, Vector.replicate _ 0⟩
          b_v2_ino := fun i =>
            if i = 0 then rootDirectory else if i = 1 then largeFile else noInode } }

theorem references_root (dev : Dev) :
    References smallIndirect dev (record mountedLarge dev 1) 4 := by
  have hroot : References smallIndirect 0 (record mountedLarge 0 1) 4 := by decide
  exact hroot

theorem references_largeFile (dev : Dev) (hz : z ∈ [5, 6, 7, 8]) :
    References smallIndirect dev (record mountedLarge dev 2) z := by
  have hfile : References smallIndirect 0 (record mountedLarge 0 2) 5 ∧
      References smallIndirect 0 (record mountedLarge 0 2) 6 ∧
      References smallIndirect 0 (record mountedLarge 0 2) 7 ∧
      References smallIndirect 0 (record mountedLarge 0 2) 8 := by decide
  simp only [List.mem_cons, List.not_mem_nil, or_false] at hz
  rcases hz with rfl | rfl | rfl | rfl
  · exact hfile.1
  · exact hfile.2.1
  · exact hfile.2.2.1
  · exact hfile.2.2.2

theorem intact_mountedLarge : Intact smallIndirect mountedLarge := by
  apply intact_initInodeCache
  intro dev z hz
  have hcases : z = 4 ∨ z ∈ [5, 6, 7, 8] := by simpa using hz
  rcases hcases with rfl | hfile
  · have hnumb : OnDevice small 0 1 := by decide
    exact ⟨1, hnumb, references_root dev⟩
  · have hnumb : OnDevice small 0 2 := by decide
    exact ⟨2, hnumb, references_largeFile dev hfile⟩

def recoverSecond : Request small := ⟨smallEnvironment, .retrieve_inode 1 2⟩

def putSecond : Request small := ⟨smallEnvironment, .put_inode (some slot1)⟩

/-- The old file is recovered and deleted again, and then a new file gets its number. -/
def recalled : State small := next recoverSecond mountedLarge

def discarded : State small := next putSecond recalled

def reused : State small := next newFile discarded

def closed : State small := next putSecond reused

def historyReused : List (Step (State small) (Request small) (Option (Slot small))) :=
  [⟨reused, putSecond, answered putSecond reused, closed⟩,
    ⟨discarded, newFile, answered newFile discarded, reused⟩,
    ⟨recalled, putSecond, answered putSecond recalled, discarded⟩,
    ⟨mountedLarge, recoverSecond, answered recoverSecond mountedLarge, recalled⟩]

theorem run_discarded :
    Run (system mountedLarge)
      [⟨recalled, putSecond, answered putSecond recalled, discarded⟩,
        ⟨mountedLarge, recoverSecond, answered recoverSecond mountedLarge, recalled⟩]
      discarded := by
  have hnumbers : (1 : Dev) ≠ NO_DEV ∧ (2 : UInt32) ≠ NO_ENTRY := by decide
  have hrecalled :
      Returns mountedLarge recoverSecond (answered recoverSecond mountedLarge) recalled :=
    returns_next hnumbers (by decide)
  have hdiscarded : Returns recalled putSecond (answered putSecond recalled) discarded :=
    returns_next (by decide) (by decide)
  exact (Run.init.call hrecalled).call hdiscarded

theorem run_closed : Run (system mountedLarge) historyReused closed := by
  have hdev : (1 : Dev) ≠ NO_DEV := by decide
  have hreused : Returns discarded newFile (answered newFile discarded) reused :=
    returns_next hdev (by decide)
  have hclosed : Returns reused putSecond (answered putSecond reused) closed :=
    returns_next (by decide) (by decide)
  exact (run_discarded.call hreused).call hclosed

/-- Without a new file the zones of the old one are still referenced. -/
theorem no_zone_lost_small :
    (∃ numb, OnDevice small 1 numb ∧ InodeReferences smallIndirect discarded (1, numb) 5) ∧
      ∃ numb, OnDevice small 1 numb ∧ InodeReferences smallIndirect discarded (1, numb) 8 := by
  have hsafe : ∀ e ∈ [⟨recalled, putSecond, answered putSecond recalled, discarded⟩,
      ⟨mountedLarge, recoverSecond, answered recoverSecond mountedLarge, recalled⟩],
      ¬ Loses smallIndirect e := by
    rintro e he ⟨r, k, ⟨⟨bits, hcall⟩, _⟩, _⟩
    rcases List.mem_cons.mp he with rfl | he
    · cases hcall
    · rw [List.mem_singleton.mp he] at hcall
      cases hcall
  have hkept := no_zone_lost conversions_small inodesPerBlock_small intact_mountedLarge
    run_discarded hsafe
  exact ⟨hkept.used 1 5 (by decide), hkept.used 1 8 (by decide)⟩

theorem no_zone_lost_fails :
    ¬ ∀ history s, Run (system mountedLarge) history s → (∀ e ∈ history, Allowed e) →
      NoZoneLost smallIndirect history s := by
  intro h
  have hallowed : ∀ e ∈ historyReused, Allowed e := by
    intro e he
    simp only [historyReused, List.mem_cons, List.not_mem_nil, or_false] at he
    rcases he with rfl | rfl | rfl | rfl
    · trivial
    · exact findsClear_small discarded 1
    · trivial
    · exact ⟨by decide, findsClear_small mountedLarge 1⟩
  have hkept := h historyReused closed run_closed hallowed
  have hdeletes : Deletes smallIndirect (1, 2) 8
      ⟨recalled, putSecond, answered putSecond recalled, discarded⟩ :=
    ⟨slot1, rfl, by decide, by decide, by decide, by decide⟩
  have habsent : Absent (view closed) (1, 2) := by
    unfold Absent
    decide
  rcases hkept.deleted _ (by simp [historyReused]) (1, 2) 8 hdeletes with hkeeps | hgiven
  · exact absurd (hkeeps _ (.stored habsent)) (by decide)
  · exact absurd hgiven (by decide)

end MinixOS.InodeZones
