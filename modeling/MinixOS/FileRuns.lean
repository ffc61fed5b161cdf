import MinixOS.FileHoles
import MinixOS.InodeRecovery

/-!
# Files under requests to change their size

`fs_ftrunc` seen by the readers of files: it sets the end of a file, or makes zeros of a range of its
bytes, and all other files in core stay as they are. What lies behind the end of a file
is zero, so that a file that is extended grows by zeros. That holds along every run of requests.
-/
namespace MinixOS.FileRuns
open CheckedExecution SystemRuns BlockFiles InodeCopy InodeView InodeSystem InodeUse FileSpace
  FileHoles
open InodeState hiding Stop

variable {p : Platform} {M : Type} {vol : Volume p} {env : Mapping M} {dev : Dev}
  {zonesOf : M → Zones} {s t : Space p M} {rip q r : Slot p} {k : Dev × UInt32}

/-! ## What is asked for -/

/-- A file that is in use, with its mode. -/
structure OpenFile where
  i_mode : UInt16
  file : File

/-- The files that are in use, by device and number of the inode. -/
abbrev Files := Dev × UInt32 → Option OpenFile

/-- The file that a request names. -/
def namedFile (m : TruncMessage) : Dev × UInt32 := (m.fs_dev, m.REQ_INODE_NR)

/-- The file after a request that succeeds. -/
def wanted (m : TruncMessage) (f : File) : File :=
  if m.REQ_TRC_END_LO.toInt = 0 then f.resize m.REQ_TRC_START_LO.toInt
  else f.punch m.REQ_TRC_START_LO.toInt m.REQ_TRC_END_LO.toInt

/-- Up to here bytes of the file are to be freed. -/
def stopOf (m : TruncMessage) (f : File) : ℤ :=
  if m.REQ_TRC_END_LO.toInt = 0 then f.size else min m.REQ_TRC_END_LO.toInt f.size

/-- The error if the request asks for what the file cannot have. -/
def rejects (vol : Volume p) (m : TruncMessage) (o : OpenFile) : Option Errno :=
  if m.REQ_TRC_END_LO.toInt = 0 then
    if o.i_mode &&& p.I_TYPE = vol.I_CHAR_SPECIAL ∨ o.i_mode &&& p.I_TYPE = vol.I_BLOCK_SPECIAL then
      some .EINVAL
    else if m.REQ_TRC_START_LO.toInt > vol.s_max_size m.fs_dev then some (.other vol.EFBIG)
    else none
  else if stopOf m o.file ≤ m.REQ_TRC_START_LO.toInt then some .EINVAL
  else none

/-- Some of the bytes that are to be freed are zero now. -/
structure Partly (m : TruncMessage) (f f' : File) : Prop where
  size : f'.size = f.size
  byte : ∀ pos, f'.byte pos = f.byte pos ∨
    m.REQ_TRC_START_LO.toInt ≤ pos ∧ pos < stopOf m f ∧ f'.byte pos = 0

/-- What a request may answer, and which files there are then. -/
inductive Serves (vol : Volume p) (env : Mapping M) (c : Files) (m : TruncMessage) :
    Errno → Files → Prop
  | unused (h : c (namedFile m) = none) : Serves vol env c m .EINVAL c
  | readOnly (hro : (p.get_super m.fs_dev).s_rd_only = true) (h : c (namedFile m) ≠ none) :
      Serves vol env c m .EROFS c
  | rejected {o : OpenFile} {e : Errno} (hrw : (p.get_super m.fs_dev).s_rd_only = false)
      (h : c (namedFile m) = some o) (he : rejects vol m o = some e) : Serves vol env c m e c
  | done {o : OpenFile} (hrw : (p.get_super m.fs_dev).s_rd_only = false)
      (h : c (namedFile m) = some o) (he : rejects vol m o = none) :
      Serves vol env c m .OK
        (Function.update c (namedFile m) (some ⟨o.i_mode, wanted m o.file⟩))
  | stopped {o : OpenFile} {e : Errno} {f : File} (hrw : (p.get_super m.fs_dev).s_rd_only = false)
      (h : c (namedFile m) = some o) (he : rejects vol m o = none)
      (hsome : m.REQ_TRC_START_LO.toInt < stopOf m o.file) (hrefuses : Refuses env m.fs_dev e)
      (hpartly : Partly m o.file f) :
      Serves vol env c m e (Function.update c (namedFile m) (some ⟨o.i_mode, f⟩))

/-! ## What is in the blocks -/

/-- The inodes in use are these files, and no byte of a disk belongs to two of them. -/
structure Displays (hsized : ∀ dev, Sized vol dev) (zonesOf : M → Zones) (s : Space p M)
    (c : Files) : Prop where
  linked : Linked s.table
  domain : ∀ k, c k = none ↔ findInode s.table k.1 k.2 = none
  mode : ∀ k r o, findInode s.table k.1 k.2 = some r → c k = some o →
    o.i_mode = (s.table.inode r).i_mode
  size : ∀ k r o, findInode s.table k.1 k.2 = some r → c k = some o →
    o.file.size = (s.table.inode r).i_size.toInt ∧ 0 ≤ o.file.size
  shown : ∀ k r o, findInode s.table k.1 k.2 = some r → c k = some o →
    Shows (geometry (hsized k.1)) (zonesOf (s.map r)) (s.data k.1) o.file
  apart : ∀ dev n n' r r' pos pos' cell', findInode s.table dev n = some r →
    findInode s.table dev n' = some r' → 0 ≤ pos → 0 ≤ pos' →
    cell (geometry (hsized dev)) (zonesOf (s.map r)) pos = some cell' →
    cell (geometry (hsized dev)) (zonesOf (s.map r')) pos' = some cell' → n = n' ∧ pos = pos'

/-- The tables name the same inodes, and at most the one in this slot has another size. -/
structure SameNames (s t : State p) (rip : Slot p) : Prop where
  unused : t.unused_inodes = s.unused_inodes
  hash : t.hash_inodes = s.hash_inodes
  links : ∀ q, SameLinks (t.inode q) (s.inode q)
  mode : ∀ q, (t.inode q).i_mode = (s.inode q).i_mode
  size : ∀ q, q ≠ rip → (t.inode q).i_size = (s.inode q).i_size

theorem SameNames.refl (s : State p) (rip : Slot p) : SameNames s s rip :=
  ⟨rfl, rfl, fun _ => ⟨rfl, rfl, rfl, rfl⟩, fun _ => rfl, fun _ _ => rfl⟩

/-- The inode in the slot is changed, but not where it is linked, nor its mode. -/
theorem SameNames.modify {s t : State p} (h : SameNames s t rip) {f : Inode p → Inode p}
    (hlinks : SameLinks (f (t.inode rip)) (t.inode rip))
    (hmode : (f (t.inode rip)).i_mode = (t.inode rip).i_mode) :
    SameNames s (t.modify rip f) rip := by
  constructor
  · exact h.unused
  · exact h.hash
  · intro q
    by_cases hq : q = rip
    · rw [hq, inode_modify_self]
      have hold := h.links rip
      exact ⟨hlinks.i_num.trans hold.i_num, hlinks.i_dev.trans hold.i_dev,
        hlinks.i_sp.trans hold.i_sp, hlinks.i_count.trans hold.i_count⟩
    · rw [inode_modify_of_ne _ _ hq]
      exact h.links q
  · intro q
    by_cases hq : q = rip
    · rw [hq, inode_modify_self, hmode]
      exact h.mode rip
    · rw [inode_modify_of_ne _ _ hq]
      exact h.mode q
  · intro q hq
    rw [inode_modify_of_ne _ _ hq]
    exact h.size q hq

theorem SameNames.markDirty {s t : State p} (h : SameNames s t rip) :
    SameNames s (InodeCopy.markDirty t rip) rip := by
  obtain ⟨log, hlog⟩ := markDirty_eq t rip
  have hmod := h.modify (f := dirtied) ⟨rfl, rfl, rfl, rfl⟩ rfl
  rw [hlog]
  exact ⟨hmod.unused, hmod.hash, hmod.links, hmod.mode, hmod.size⟩

theorem SameNames.findInode {s t : State p} (h : SameNames s t rip) (dev : Dev) (numb : UInt32) :
    InodeUse.findInode t dev numb = InodeUse.findInode s dev numb := by
  apply findInode_congr h.hash
  intro q
  have hlinks := h.links q
  refine ⟨?_, hlinks.i_num, hlinks.i_dev⟩
  rw [hlinks.i_count]

theorem onDevice_of_findInode (hl : Linked s.table) {numb : UInt32}
    (h : findInode s.table dev numb = some r) : OnDevice s r dev := by
  obtain ⟨hnum, hdev, _⟩ := slotKey_eq_some.mp (key_of_findInode hl h).1
  exact ⟨hdev, (hl.attached r hnum).2.trans hdev⟩

variable {hsized : ∀ dev, Sized vol dev} {c : Files} {o : OpenFile} {f : File} {hole : Set ℤ}

theorem Displays.proper (h : Displays hsized zonesOf s c)
    (hr : findInode s.table k.1 k.2 = some r) :
    Proper (geometry (hsized k.1)) (zonesOf (s.map r)) := fun _ _ _ hpos hpos' hcell hcell' =>
  (h.apart k.1 k.2 k.2 r r _ _ _ hr hr hpos hpos' hcell hcell').2

/-- Another file has another slot. -/
theorem Displays.slot_ne (h : Displays hsized zonesOf s c)
    (hr : findInode s.table k.1 k.2 = some r) {k' : Dev × UInt32} {r' : Slot p}
    (hr' : findInode s.table k'.1 k'.2 = some r') (hne : k' ≠ k) : r' ≠ r := by
  intro he
  have hkey := (key_of_findInode h.linked hr).1
  rw [← he, (key_of_findInode h.linked hr').1] at hkey
  exact hne (Option.some.inj hkey)

/-- A hole in one file is not seen in another one: no block is in both. -/
theorem Displays.shown_other (h : Displays hsized zonesOf s c)
    (hr : findInode s.table k.1 k.2 = some r)
    (hholed : Holed (geometry (hsized k.1)) zonesOf k.1 s t r hole)
    (hpos : ∀ pos ∈ hole, 0 ≤ pos) {k' : Dev × UInt32} {r' : Slot p} {o' : OpenFile}
    (hr' : findInode s.table k'.1 k'.2 = some r') (ho' : c k' = some o') (hne : k' ≠ k) :
    Shows (geometry (hsized k'.1)) (zonesOf (t.map r')) (t.data k'.1) o'.file := by
  intro pos hnonneg
  have hold := h.shown k' r' o' hr' ho' pos hnonneg
  rw [hholed.maps r' (h.slot_ne hr hr' hne), ← hold]
  cases hcell : cell (geometry (hsized k'.1)) (zonesOf (s.map r')) pos with
  | none => rw [byteAt_none hcell, byteAt_none hcell]
  | some cell' =>
      rw [byteAt_some hcell, byteAt_some hcell]
      by_cases hdev : k'.1 = k.1
      · rw [hdev]
        apply hholed.punched.frame
        intro pos' hmem hcell'
        rw [hdev] at hcell hr'
        obtain ⟨hnumb, _⟩ := h.apart k.1 k'.2 k.2 r' r pos pos' cell' hr' hr hnonneg
          (hpos pos' hmem) hcell hcell'
        exact hne (Prod.ext hdev hnumb)
      · rw [hholed.devices k'.1 hdev]

/-- A hole in one file is a hole in that file, and the others are as before. -/
theorem Displays.holed (h : Displays hsized zonesOf s c)
    (hr : findInode s.table k.1 k.2 = some r) (ho : c k = some o)
    (hholed : Holed (geometry (hsized k.1)) zonesOf k.1 s t r hole)
    (hpos : ∀ pos ∈ hole, 0 ≤ pos) (hnames : SameNames s.table t.table r)
    (hsize : f.size = (t.table.inode r).i_size.toInt ∧ 0 ≤ f.size)
    (hin : ∀ pos, pos ∈ hole → f.byte pos = 0)
    (hout : ∀ pos, 0 ≤ pos → pos ∉ hole → f.byte pos = o.file.byte pos) :
    Displays hsized zonesOf t (Function.update c k (some ⟨o.i_mode, f⟩)) := by
  have hl := h.linked
  have hfind := hnames.findInode
  have hcells : ∀ dev n r' pos cell', findInode s.table dev n = some r' →
      cell (geometry (hsized dev)) (zonesOf (t.map r')) pos = some cell' →
      cell (geometry (hsized dev)) (zonesOf (s.map r')) pos = some cell' := by
    intro dev n r' pos cell' hr' hcell
    by_cases he : (dev, n) = k
    · subst he
      rw [hr] at hr'
      cases hr'
      exact hholed.punched.cells pos cell' hcell
    · have hslot : findInode s.table (dev, n).1 (dev, n).2 = some r' := hr'
      rwa [hholed.maps r' (h.slot_ne hr hslot he)] at hcell
  constructor
  · exact hl.congr hnames.unused hnames.hash hnames.links
  · intro k'
    rw [hfind, Function.update_apply]
    split_ifs with he
    · rw [he, hr]
      exact iff_of_false nofun nofun
    · exact h.domain k'
  · intro k' r' o' hr' ho'
    rw [hfind] at hr'
    rw [Function.update_apply] at ho'
    rw [hnames.mode]
    split_ifs at ho' with he
    · cases ho'
      exact h.mode k' r' o hr' (he ▸ ho)
    · exact h.mode k' r' o' hr' ho'
  · intro k' r' o' hr' ho'
    rw [hfind] at hr'
    rw [Function.update_apply] at ho'
    split_ifs at ho' with he
    · rw [he, hr] at hr'
      cases hr'
      cases ho'
      exact hsize
    · rw [hnames.size r' (h.slot_ne hr hr' he)]
      exact h.size k' r' o' hr' ho'
  · intro k' r' o' hr' ho'
    rw [hfind] at hr'
    rw [Function.update_apply] at ho'
    split_ifs at ho' with he
    · subst he
      rw [hr] at hr'
      cases hr'
      cases ho'
      exact (h.shown k' r o hr ho).change hholed.punched (fun pos _ hmem => hin pos hmem) hout
    · exact h.shown_other hr hholed hpos hr' ho' he
  · intro dev n n' r₁ r₂ pos pos' cell' hr₁ hr₂ hnonneg hnonneg' hcell hcell'
    rw [hfind] at hr₁ hr₂
    exact h.apart dev n n' r₁ r₂ pos pos' cell' hr₁ hr₂ hnonneg hnonneg'
      (hcells dev n r₁ pos cell' hr₁ hcell) (hcells dev n' r₂ pos' cell' hr₂ hcell')

/-! ## One request -/

theorem sameNames_touchData {s t : Space p M} (h : SameNames s.table t.table rip) :
    SameNames s.table (touchData t rip).table rip :=
  (h.modify ⟨rfl, rfl, rfl, rfl⟩ rfl).markDirty

theorem size_touchData (s : Space p M) (rip : Slot p) :
    ((touchData s rip).table.inode rip).i_size = (s.table.inode rip).i_size := by
  rw [inode_touchData, if_pos rfl]
  rfl

theorem sameNames_tableAfter (s : Space p M) (rip : Slot p) (e : Errno) :
    SameNames s.table (tableAfter s rip e) rip := by
  unfold tableAfter
  split_ifs
  · exact sameNames_touchData (.refl _ _)
  · exact .refl _ _

open Classical in
/-- The file with the bytes of a hole cleared. -/
noncomputable def cleared (f : File) (hole : Set ℤ) : File where
  size := f.size
  byte pos := if pos ∈ hole then 0 else f.byte pos
  tail pos hpos := by
    rw [f.tail pos hpos, ite_self]

variable {start end_ newsize : ℤ} {m : TruncMessage}

/-- What comes of a file of which a range is freed. -/
inductive Freed (env : Mapping M) (hsized : ∀ dev, Sized vol dev) (zonesOf : M → Zones)
    (c : Files) (k : Dev × UInt32) (o : OpenFile) (start end_ : ℤ) (t : Space p M) : Errno → Prop
  | nothing (hempty : min end_ o.file.size ≤ start) (h : Displays hsized zonesOf t c) :
      Freed env hsized zonesOf c k o start end_ t .EINVAL
  | all (hsome : start < min end_ o.file.size)
      (h : Displays hsized zonesOf t
        (Function.update c k (some ⟨o.i_mode, o.file.punch start end_⟩))) :
      Freed env hsized zonesOf c k o start end_ t .OK
  | some {e : Errno} {f : File} (hsome : start < min end_ o.file.size)
      (hrefuses : Refuses env k.1 e) (hsize : f.size = o.file.size)
      (hbyte : ∀ pos, f.byte pos = o.file.byte pos ∨
        start ≤ pos ∧ pos < min end_ o.file.size ∧ f.byte pos = 0)
      (h : Displays hsized zonesOf t (Function.update c k (Option.some ⟨o.i_mode, f⟩))) :
      Freed env hsized zonesOf c k o start end_ t e

theorem Displays.freespInode (hdoc : ∀ dev, Documented (geometry (hsized dev)) dev zonesOf env)
    (h : Displays hsized zonesOf s c) (hr : findInode s.table k.1 k.2 = some rip)
    (ho : c k = some o) (hstart : 0 ≤ start) (end_ : ℤ) :
    ∃ e t, ComesTo (fun fuel => FileSpace.freespInode vol env fuel s rip start end_) (e, t) ∧
      Freed env hsized zonesOf c k o start end_ t e ∧ SameNames s.table t.table rip ∧
      (t.table.inode rip).i_size = (s.table.inode rip).i_size := by
  obtain ⟨e, t, ht, htable, hanswers, hfrees⟩ := freespInode_comes (hsized k.1) (hdoc k.1)
    (onDevice_of_findInode h.linked hr) (h.proper hr) hstart end_
  obtain ⟨hole, hholed, hwithin, hwhole⟩ := hfrees.hole
  obtain ⟨hsize, hnonneg⟩ := h.size k rip o hr ho
  rw [← hsize] at hanswers hwithin hwhole
  have hnames : SameNames s.table t.table rip := htable ▸ sameNames_tableAfter s rip e
  have hkept : (t.table.inode rip).i_size = (s.table.inode rip).i_size :=
    htable ▸ size_tableAfter s rip e
  have hsize' : o.file.size = (t.table.inode rip).i_size.toInt ∧ 0 ≤ o.file.size :=
    ⟨by rw [hkept, hsize], hnonneg⟩
  have hpos : ∀ pos ∈ hole, 0 ≤ pos := fun pos hmem => hstart.trans (hwithin pos hmem).1
  refine ⟨e, t, ht, ?_, hnames, hkept⟩
  unfold Answers at hanswers
  split_ifs at hanswers with hempty
  · -- the hole lies behind the end of the file
    rw [hanswers]
    have hzero : ∀ pos ∈ hole, o.file.byte pos = 0 := by
      intro pos hmem
      apply o.file.tail
      have hin := hwithin pos hmem
      omega
    have hsame := h.holed hr ho hholed hpos hnames hsize' hzero fun _ _ _ => rfl
    have hself : Function.update c k (some ⟨o.i_mode, o.file⟩) = c := by
      rw [← ho, Function.update_eq_self]
    rw [hself] at hsame
    exact .nothing hempty hsame
  · rcases hanswers with hok | hrefuses
    · subst hok
      refine .all (not_le.mp hempty) (h.holed hr ho hholed hpos hnames hsize' ?_ ?_)
      · intro pos hmem
        have hin := hwithin pos hmem
        exact punch_inside o.file hin.1 fun hend => by omega
      · intro pos _ hnot
        apply punch_outside
        intro hlow hend
        by_contra hstop
        exact hnot (hwhole rfl pos hlow (by omega))
    · refine .some (f := cleared o.file hole) (not_le.mp hempty) hrefuses rfl ?_
        (h.holed hr ho hholed hpos hnames hsize' ?_ ?_)
      · intro pos
        unfold cleared
        dsimp only
        split_ifs with hmem
        · have hin := hwithin pos hmem
          by_cases hend : pos < o.file.size
          · exact .inr ⟨hin.1, by omega, rfl⟩
          · exact .inl (o.file.tail pos (not_lt.mp hend)).symm
        · exact .inl rfl
      · exact fun pos hmem => if_pos hmem
      · exact fun pos _ hnot => if_neg hnot

theorem rejects_truncate (hend : m.REQ_TRC_END_LO.toInt = 0) :
    rejects vol m o =
      if o.i_mode &&& p.I_TYPE = vol.I_CHAR_SPECIAL ∨ o.i_mode &&& p.I_TYPE = vol.I_BLOCK_SPECIAL then
        some .EINVAL
      else if m.REQ_TRC_START_LO.toInt > vol.s_max_size m.fs_dev then some (.other vol.EFBIG)
      else none := if_pos hend

/-- `clear_zone` zeroes bytes that do not belong to the file. -/
theorem clearZone_holed (hsized : Sized vol dev)
    (hdoc : Documented (geometry hsized) dev zonesOf env) (hs : OnDevice s rip dev)
    (hproper : Proper (geometry hsized) (zonesOf (s.map rip))) {size : ℤ} (hsize : 0 ≤ size)
    (newsize : ℤ) :
    ∃ hole, Holed (geometry hsized) zonesOf dev s
      (if newsize > size then clearZone env s rip size else s) rip hole ∧ ∀ pos ∈ hole, size ≤ pos := by
  by_cases hlonger : newsize > size
  · rw [if_pos hlonger]
    obtain ⟨hole, hbehind, hpunched⟩ := hdoc.clear_zone (s.map rip) size (s.data dev) hsize hproper
    refine ⟨hole, ?_, hbehind⟩
    unfold clearZone
    rw [hs.i_dev]
    exact holed_setData hpunched
  · rw [if_neg hlonger]
    exact ⟨∅, holed_empty _ _ _ s rip, fun _ hpos => absurd hpos (Set.notMem_empty _)⟩

theorem table_clearZone (newsize size : ℤ) :
    (if newsize > size then clearZone env s rip size else s).table = s.table := by
  split_ifs <;> rfl

/-- The file gets another end, behind which there are zeros already. -/
theorem Displays.resized (hdoc : ∀ dev, Documented (geometry (hsized dev)) dev zonesOf env)
    (h : Displays hsized zonesOf s c) (hr : findInode s.table k.1 k.2 = some rip)
    (ho : c k = some o) (hbyte : ∀ pos, f.byte pos = o.file.byte pos) (hsize : 0 ≤ f.size)
    (hfits : f.size < 2 ^ 31) :
    let t := if f.size > o.file.size then clearZone env s rip o.file.size else s
    Displays hsized zonesOf (touchData (t.setTable (t.table.modify rip (setSize f.size))) rip)
      (Function.update c k (some ⟨o.i_mode, f⟩)) := by
  dsimp only
  obtain ⟨_, hnonneg⟩ := h.size k rip o hr ho
  obtain ⟨hole, hholed, hbehind⟩ := clearZone_holed (hsized k.1) (hdoc k.1)
    (onDevice_of_findInode h.linked hr) (h.proper hr) hnonneg f.size
  have htable : (if f.size > o.file.size then clearZone env s rip o.file.size else s).table =
      s.table := table_clearZone f.size o.file.size
  generalize (if f.size > o.file.size then clearZone env s rip o.file.size else s) = t at *
  have hnames : SameNames s.table (t.table.modify rip (setSize f.size)) rip := by
    rw [htable]
    exact (SameNames.refl _ _).modify ⟨rfl, rfl, rfl, rfl⟩ rfl
  refine h.holed hr ho ⟨hholed.punched, hholed.maps, hholed.devices⟩ ?_
    (sameNames_touchData (t := t.setTable _) hnames) ⟨?_, hsize⟩ ?_ ?_
  · exact fun pos hpos => hnonneg.trans (hbehind pos hpos)
  · rw [size_touchData]
    change f.size = ((t.table.modify rip (setSize f.size)).inode rip).i_size.toInt
    rw [inode_modify_self]
    change f.size = (Int32.ofInt f.size).toInt
    rw [Int32.toInt_ofInt_of_le (by omega) (by omega)]
  · intro pos hpos
    rw [hbyte]
    exact o.file.tail pos (hbehind pos hpos)
  · exact fun pos _ _ => hbyte pos

theorem Displays.freeRest (hdoc : ∀ dev, Documented (geometry (hsized dev)) dev zonesOf env)
    (h : Displays hsized zonesOf s c) (hr : findInode s.table m.fs_dev m.REQ_INODE_NR = some rip)
    (ho : c (namedFile m) = some o) (hrw : (p.get_super m.fs_dev).s_rd_only = false)
    (hend : m.REQ_TRC_END_LO.toInt = 0) (hrejects : rejects vol m o = none)
    (hstart : 0 ≤ m.REQ_TRC_START_LO.toInt) :
    ∃ e t, ComesTo (fun fuel =>
        FileSpace.freeRest vol env fuel s rip m.REQ_TRC_START_LO.toInt) (e, t) ∧
      findInode t.table m.fs_dev m.REQ_INODE_NR = some rip ∧
      (e = .OK ∧ Displays hsized zonesOf t (Function.update c (namedFile m)
          (some ⟨o.i_mode, o.file.punch m.REQ_TRC_START_LO.toInt o.file.size⟩)) ∨
        e ≠ .OK ∧ ∃ c', Serves vol env c m e c' ∧ Displays hsized zonesOf t c') := by
  obtain ⟨hsize, hnonneg⟩ := h.size (namedFile m) rip o hr ho
  have hstop : stopOf m o.file = o.file.size := if_pos hend
  unfold FileSpace.freeRest
  dsimp only
  rw [← hsize]
  by_cases hshort : m.REQ_TRC_START_LO.toInt < o.file.size
  · simp only [if_pos hshort]
    obtain ⟨e, t, ht, hfreed, hnames, _⟩ :=
      h.freespInode hdoc (k := namedFile m) hr ho hstart o.file.size
    refine ⟨e, t, ht, ?_, ?_⟩
    · rw [hnames.findInode, hr]
    · cases hfreed with
      | nothing hempty _ => omega
      | all _ hshown => exact .inl ⟨rfl, hshown⟩
      | some hsome hrefuses hsame hbyte hshown =>
          rw [min_self, ← hstop] at hbyte hsome
          exact .inr ⟨hrefuses.1, _, .stopped hrw ho hrejects hsome hrefuses ⟨hsame, hbyte⟩,
            hshown⟩
  · simp only [if_neg hshort]
    refine ⟨.OK, s, comesTo_ok _, hr, .inl ⟨rfl, ?_⟩⟩
    refine h.holed (k := namedFile m) hr ho (holed_empty _ _ _ s rip)
      (fun pos hpos => absurd hpos (Set.notMem_empty _)) (.refl _ _) ⟨hsize, hnonneg⟩
      (fun pos hpos => absurd hpos (Set.notMem_empty _)) ?_
    intro pos _ _
    exact if_neg (by omega)

theorem Displays.truncateInode (hdoc : ∀ dev, Documented (geometry (hsized dev)) dev zonesOf env)
    (h : Displays hsized zonesOf s c) (hr : findInode s.table m.fs_dev m.REQ_INODE_NR = some rip)
    (ho : c (namedFile m) = some o) (hrw : (p.get_super m.fs_dev).s_rd_only = false)
    (hend : m.REQ_TRC_END_LO.toInt = 0) (hstart : 0 ≤ m.REQ_TRC_START_LO.toInt) :
    ∃ e t c', ComesTo (fun fuel =>
        FileSpace.truncateInode vol env fuel s rip m.REQ_TRC_START_LO.toInt) (e, t) ∧
      Serves vol env c m e c' ∧ Displays hsized zonesOf t c' := by
  have hdev := onDevice_of_findInode h.linked hr
  have hmode := h.mode (namedFile m) rip o hr ho
  obtain ⟨hsize, hnonneg⟩ := h.size (namedFile m) rip o hr ho
  have hfits := Int32.toInt_lt m.REQ_TRC_START_LO
  have hrejects := @rejects_truncate p vol o m hend
  have hwanted : wanted m o.file = o.file.resize m.REQ_TRC_START_LO.toInt := if_pos hend
  unfold FileSpace.truncateInode
  dsimp only
  rw [hdev.i_sp, ← hmode, ← hsize]
  by_cases hspecial : o.i_mode &&& p.I_TYPE = vol.I_CHAR_SPECIAL ∨
      o.i_mode &&& p.I_TYPE = vol.I_BLOCK_SPECIAL
  · rw [if_pos hspecial] at hrejects
    simp only [if_pos hspecial]
    exact ⟨_, s, c, comesTo_ok _, .rejected hrw ho hrejects, h⟩
  · rw [if_neg hspecial] at hrejects
    simp only [if_neg hspecial]
    by_cases hlarge : m.REQ_TRC_START_LO.toInt > vol.s_max_size m.fs_dev
    · rw [if_pos hlarge] at hrejects
      simp only [if_pos hlarge]
      exact ⟨_, s, c, comesTo_ok _, .rejected hrw ho hrejects, h⟩
    · rw [if_neg hlarge] at hrejects
      simp only [if_neg hlarge]
      obtain ⟨e, u, hu, hru, ⟨hok, hshown⟩ | ⟨hne, c', hserves, hshown⟩⟩ :=
        h.freeRest hdoc hr ho hrw hend hrejects hstart
      · subst hok
        have hresized := hshown.resized hdoc (k := namedFile m) hru (Function.update_self _ _ _)
          (fun pos => byte_resize o.file m.REQ_TRC_START_LO.toInt pos) hstart hfits
        rw [Function.update_idem] at hresized
        refine ⟨.OK, _, _, hu.bind ?_, ?_, hresized⟩
        · simp only [ne_eq, not_true_eq_false, if_false]
          exact comesTo_ok _
        · rw [← hwanted]
          exact .done hrw ho hrejects
      · refine ⟨e, u, c', hu.bind ?_, hserves, hshown⟩
        simp only [ne_eq, hne, not_false_eq_true, if_true]
        exact comesTo_ok _

/-- Each request returns, and serves the files. -/
theorem Displays.fsFtrunc (hdoc : ∀ dev, Documented (geometry (hsized dev)) dev zonesOf env)
    (h : Displays hsized zonesOf s c) (hstart : 0 ≤ m.REQ_TRC_START_LO.toInt) :
    ∃ e t c', ComesTo (fun fuel => FileSpace.fsFtrunc vol env m fuel s) (e, t) ∧
      Serves vol env c m e c' ∧ Displays hsized zonesOf t c' := by
  unfold FileSpace.fsFtrunc
  cases hr : findInode s.table m.fs_dev m.REQ_INODE_NR with
  | none => exact ⟨.EINVAL, s, c, comesTo_ok _, .unused ((h.domain (namedFile m)).mpr hr), h⟩
  | some rip =>
      have hdev := onDevice_of_findInode h.linked hr
      have hused : c (namedFile m) ≠ none := fun hnone =>
        nomatch hr.symm.trans ((h.domain (namedFile m)).mp hnone)
      obtain ⟨o, ho⟩ := Option.ne_none_iff_exists'.mp hused
      dsimp only
      rw [hdev.i_sp]
      cases hro : (p.get_super m.fs_dev).s_rd_only with
      | true => exact ⟨.EROFS, s, c, comesTo_ok _, .readOnly hro hused, h⟩
      | false =>
          simp only [Bool.false_eq_true, if_false]
          by_cases hend : m.REQ_TRC_END_LO.toInt = 0
          · simp only [if_pos hend]
            exact h.truncateInode hdoc hr ho hro hend hstart
          · simp only [if_neg hend]
            have hwanted : wanted m o.file =
                o.file.punch m.REQ_TRC_START_LO.toInt m.REQ_TRC_END_LO.toInt := if_neg hend
            have hstop : stopOf m o.file = min m.REQ_TRC_END_LO.toInt o.file.size := if_neg hend
            have hrejects : rejects vol m o =
                if stopOf m o.file ≤ m.REQ_TRC_START_LO.toInt then some .EINVAL else none :=
              if_neg hend
            obtain ⟨e, t, ht, hfreed, _, _⟩ := h.freespInode hdoc (k := namedFile m) hr ho hstart
              m.REQ_TRC_END_LO.toInt
            refine ⟨e, t, ?_⟩
            cases hfreed with
            | nothing hempty hshown =>
                rw [← hstop] at hempty
                rw [if_pos hempty] at hrejects
                exact ⟨c, ht, .rejected hro ho hrejects, hshown⟩
            | all hsome hshown =>
                rw [← hstop] at hsome
                rw [if_neg (not_le.mpr hsome)] at hrejects
                rw [← hwanted] at hshown
                exact ⟨_, ht, .done hro ho hrejects, hshown⟩
            | some hsome hrefuses hsame hbyte hshown =>
                rw [← hstop] at hsome hbyte
                rw [if_neg (not_le.mpr hsome)] at hrejects
                exact ⟨_, ht, .stopped hro ho hrejects hsome hrefuses ⟨hsame, hbyte⟩, hshown⟩

/-! ## Runs -/

/-- VFS asks for no negative size. -/
def SpaceReturns (vol : Volume p) (env : Mapping M) (s : Space p M) (m : TruncMessage) (e : Errno)
    (t : Space p M) : Prop :=
  0 ≤ m.REQ_TRC_START_LO.toInt ∧
    ComesTo (fun fuel => FileSpace.fsFtrunc vol env m fuel s) (e, t)

def spaceSystem (vol : Volume p) (env : Mapping M) (start : Space p M) :
    System (Space p M) TruncMessage Errno where
  init := start
  returns := SpaceReturns vol env

def filesSystem (vol : Volume p) (env : Mapping M) (start : Files) :
    System Files TruncMessage Errno where
  init := start
  returns c m e c' := Serves vol env c m e c'

/-- The file in a slot, as it is in the blocks of the device. -/
def fileIn (hsized : ∀ dev, Sized vol dev) (zonesOf : M → Zones) (s : Space p M) (dev : Dev)
    (r : Slot p) : OpenFile where
  i_mode := (s.table.inode r).i_mode
  file :=
    { size := (s.table.inode r).i_size.toInt
      byte := fun pos =>
        if pos < (s.table.inode r).i_size.toInt then
          byteAt (geometry (hsized dev)) (zonesOf (s.map r)) (s.data dev) pos
        else 0
      tail := fun _ hpos => if_neg (not_lt.mpr hpos) }

def filesOf (hsized : ∀ dev, Sized vol dev) (zonesOf : M → Zones) (s : Space p M) : Files := fun k =>
  (findInode s.table k.1 k.2).map (fileIn hsized zonesOf s k.1)

theorem displays_filesOf (hl : Linked s.table)
    (hsize : ∀ (k : Dev × UInt32) r, findInode s.table k.1 k.2 = some r → 0 ≤ (s.table.inode r).i_size.toInt)
    (htail : ∀ (k : Dev × UInt32) r pos, findInode s.table k.1 k.2 = some r →
      (s.table.inode r).i_size.toInt ≤ pos →
      byteAt (geometry (hsized k.1)) (zonesOf (s.map r)) (s.data k.1) pos = 0)
    (hapart : ∀ dev n n' r r' pos pos' cell', findInode s.table dev n = some r →
      findInode s.table dev n' = some r' → 0 ≤ pos → 0 ≤ pos' →
      cell (geometry (hsized dev)) (zonesOf (s.map r)) pos = some cell' →
      cell (geometry (hsized dev)) (zonesOf (s.map r')) pos' = some cell' → n = n' ∧ pos = pos') :
    Displays hsized zonesOf s (filesOf hsized zonesOf s) := by
  have hfile : ∀ k r o, findInode s.table k.1 k.2 = some r →
      filesOf hsized zonesOf s k = some o → fileIn hsized zonesOf s k.1 r = o := by
    intro k r o hr ho
    unfold filesOf at ho
    rw [hr] at ho
    exact Option.some.inj ho
  constructor
  · exact hl
  · exact fun k => Option.map_eq_none_iff
  · intro k r o hr ho
    rw [← hfile k r o hr ho]
    rfl
  · intro k r o hr ho
    rw [← hfile k r o hr ho]
    exact ⟨rfl, hsize k r hr⟩
  · intro k r o hr ho pos _
    rw [← hfile k r o hr ho]
    unfold fileIn
    dsimp only
    split_ifs with hpos
    · rfl
    · exact htail k r pos hr (not_lt.mp hpos)
  · exact hapart

theorem found_openedSpace {dev : Dev} {n : UInt32} {r : Slot small}
    (hr : findInode openedSpace.table dev n = some r) : dev = 1 ∧ n = 2 ∧ r = slot1 := by
  have hkey := (key_of_findInode InodeRecovery.linked_openedFile hr).1
  have hslot : r = slot1 := by
    rcases (by decide : ∀ r : Slot small, r = slot0 ∨ r = slot1) r with rfl | rfl
    · have hnone : slotKey (InodeRecovery.openedFile.inode slot0) = none := by decide
      rw [hnone] at hkey
      cases hkey
    · rfl
  subst hslot
  have hopened : slotKey (InodeRecovery.openedFile.inode slot1) = some (1, 2) := by decide
  rw [hopened] at hkey
  cases hkey
  exact ⟨rfl, rfl, rfl⟩

theorem displays_openedSpace :
    Displays sized_small smallZones openedSpace (filesOf sized_small smallZones openedSpace) := by
  have hsize : (openedSpace.table.inode slot1).i_size.toInt = 4096 := by decide
  apply displays_filesOf
  · exact InodeRecovery.linked_openedFile
  · intro k r hr
    obtain ⟨_, _, rfl⟩ := found_openedSpace hr
    rw [hsize]
    decide
  · intro k r pos hr hpos
    obtain ⟨_, _, rfl⟩ := found_openedSpace hr
    rw [hsize] at hpos
    rw [byteAt_openedSpace]
    exact if_neg (by omega)
  · intro dev n n' r r' pos pos' cell' hr hr' _ _ hcell hcell'
    obtain ⟨_, rfl, rfl⟩ := found_openedSpace hr
    obtain ⟨_, rfl, rfl⟩ := found_openedSpace hr'
    obtain ⟨hfirst, hc⟩ := cell_openedSpace hcell
    obtain ⟨hfirst', hc'⟩ := cell_openedSpace hcell'
    rw [hc] at hc'
    have hplace : pos % 4096 = pos' % 4096 := congrArg Prod.snd hc'
    exact ⟨rfl, by omega⟩

/-- The file is cut off at a thousand bytes. -/
def cutOff : TruncMessage := ⟨1, 2, 1000, 0⟩

end MinixOS.FileRuns
