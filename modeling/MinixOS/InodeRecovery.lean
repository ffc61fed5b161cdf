import MinixOS.InodeSlots

/-!
# The recovery of a deleted inode

The last call of `put_inode` for an inode without links writes it, with all its zones, and
empties its slot. From then on the inode rests on disk, whatever the cache does for other
inodes, and `retrieve_inode` reads it back. Where another slot holds the number too, that
slot is found instead.
-/
namespace MinixOS.InodeRecovery
open SystemRuns InodeState InodeCopy InodeCache WriteBackCache InodeView InodeRelease
  InodeAllocation InodeSystem InodeSlots

variable {p : Platform} {s t u : State p} {r : Slot p} {dev : Dev} {n : UInt32}
  {k : Dev × UInt32} {x : Record p}

/-- The call neither acquires this inode by its number nor makes it anew. -/
def Spares (k : Dev × UInt32) (e : Step (State p) (Request p) (Option (Slot p))) : Prop :=
  e.call.call.opens ≠ some k ∧ ∀ r, ¬ Allocates e.before e.call r k

/-! ## The way to disk and back -/

/-- The two inodes are the same file. -/
structure SameFile (a b : Inode p) : Prop where
  i_mode : a.i_mode = b.i_mode
  i_uid : a.i_uid = b.i_uid
  i_gid : a.i_gid = b.i_gid
  i_size : a.i_size = b.i_size
  i_zone : a.i_zone = b.i_zone

theorem SameFile.symm {a b : Inode p} (h : SameFile a b) : SameFile b a :=
  ⟨h.i_mode.symm, h.i_uid.symm, h.i_gid.symm, h.i_size.symm, h.i_zone.symm⟩

theorem SameFile.trans {a b c : Inode p} (h : SameFile a b) (h' : SameFile b c) : SameFile a c :=
  ⟨h.i_mode.trans h'.i_mode, h.i_uid.trans h'.i_uid, h.i_gid.trans h'.i_gid,
    h.i_size.trans h'.i_size, h.i_zone.trans h'.i_zone⟩

theorem newIcopyIn_out (hp : Conversions p) (rip rip' : Inode p) (norm : Bool) :
    SameFile (newIcopyIn rip' (newIcopyOut rip norm) norm) rip := by
  constructor
  · exact hp.conv2 norm rip.i_mode
  · exact hp.conv2 norm rip.i_uid
  · exact hp.conv2 norm rip.i_gid
  · change (p.conv4 norm (p.conv4 norm rip.i_size.toUInt32)).toInt32 = rip.i_size
    rw [hp.conv4]
    exact Int32.toInt32_toUInt32 rip.i_size
  · apply zones_ext
    intro i
    unfold newIcopyIn newIcopyOut
    simp only [zone_ofFn, hp.conv4]

theorem decode_encode (hp : Conversions p) (hversion : (p.get_super dev).s_version ≠ .V1)
    (rip rip' : Inode p) : SameFile (decode dev rip' (encode dev rip)) rip := by
  unfold encode
  rw [if_neg hversion]
  exact newIcopyIn_out hp rip rip' _

theorem sameFile_stamp (cur_time : UInt32) (rip : Inode p) : SameFile (stamp cur_time rip) rip := by
  rw [stamp_fields]
  exact ⟨rfl, rfl, rfl, rfl, rfl⟩

/-! ## The copies of a file -/

/-- The record is that of the file, whatever inode it is read into. -/
def OfFile (dev : Dev) (file : Inode p) (x : Record p) : Prop :=
  ∀ rip, SameFile (decode dev rip x) file

theorem ofFile_encode (hp : Conversions p) (hversion : (p.get_super dev).s_version ≠ .V1)
    {rip file : Inode p} : OfFile dev file (encode dev rip) ↔ SameFile rip file := by
  constructor
  · exact fun h => (decode_encode hp hversion rip rip).symm.trans (h rip)
  · exact fun h rip' => (decode_encode hp hversion rip rip').trans h

/-- What is read into a slot is the file on disk. -/
theorem sameFile_loadInode (hdev : dev ≠ NO_DEV) {file : Inode p}
    (hrecord : OfFile dev file (record s dev n)) : SameFile (loadInode s r dev n) file := by
  have hdecode := hrecord (attach (setNumber dev n (s.inode r)))
  unfold loadInode
  rw [if_pos hdev]
  exact ⟨hdecode.i_mode, hdecode.i_uid, hdecode.i_gid, hdecode.i_size, hdecode.i_zone⟩

section Copies
variable {file : Inode p}

/-- The slots that hold the inode, and its record, are copies of the file. -/
abbrev Copies (s : State p) (k : Dev × UInt32) (file : Inode p) : Prop :=
  Carries (view s) k (OfFile k.1 file)

theorem Copies.sameFile (hp : Conversions p) (hversion : (p.get_super k.1).s_version ≠ .V1)
    (h : Copies s k file) (hkey : slotKey (s.inode r) = some k) : SameFile (s.inode r) file := by
  obtain ⟨_, hdev, _⟩ := slotKey_eq_some.mp hkey
  have hgood := h.held r hkey
  rw [view_value, hdev, ofFile_encode hp hversion] at hgood
  exact hgood

theorem copies_saved (hp : Conversions p) (hversion : (p.get_super k.1).s_version ≠ .V1)
    (h : Copies s k file) (env : Environment p) {l : Dev × UInt32}
    (hkey : slotKey (s.inode r) = some l) : Carries (saved env s r l) k (OfFile k.1 file) := by
  apply Carries.save h hkey
  rintro rfl
  rw [ofFile_encode hp hversion]
  exact (sameFile_stamp _ _).trans (h.sameFile hp hversion hkey)

theorem copies_acquired {l : Dev × UInt32} (h : Copies s k file) (hne : l ≠ k)
    (ha : Acquired s l t) : Copies t k file := by
  unfold Copies
  cases ha with
  | kept hkept =>
      rw [hkept.view_eq]
      exact h
  | read r habsent hr hview hclean hother hunused =>
      rw [hview]
      exact h.occupy hne

theorem copies_released (hp : Conversions p) (hversion : (p.get_super k.1).s_version ≠ .V1)
    {env : Environment p} (h : Copies s k file) (hr : Released env s r t) : Copies t k file := by
  unfold Copies
  cases hr with
  | counted hkept =>
      rw [hkept.view_eq]
      exact h
  | closed l hkey hview hclean hother hunused =>
      rw [hview]
      split_ifs
      · exact copies_saved hp hversion h env hkey
      · exact h
  | freed l hkey hlinks hview hother hunused =>
      rw [hview]
      apply Carries.drop
      split_ifs
      · exact copies_saved hp hversion h env hkey
      · exact h

/-- They stay copies as long as the number is not used. -/
theorem copies_of_spares (hp : Conversions p) (hb : InodesPerBlock p) (hl : Linked s)
    (hversion : (p.get_super k.1).s_version ≠ .V1) (h : Copies s k file) {req : Request p}
    {answer : Option (Slot p)} (hcall : Returns s req answer t)
    (hspares : Spares k ⟨s, req, answer, t⟩) : Copies t k file := by
  cases (hcall.effect hp hb hl).1 with
  | kept hnot hkept =>
      unfold Copies
      rw [hkept.view_eq]
      exact h
  | opened l hopens ha =>
      have hne : l ≠ k := fun he => hspares.1 (he ▸ hopens)
      exact copies_acquired h hne ha
  | put r hputs hr => exact copies_released hp hversion h hr
  | made r l rip hmakes hview hzone hdirty hother hunused =>
      have hne : l ≠ k := fun he => hspares.2 r (he ▸ hmakes)
      unfold Copies
      rw [hview]
      exact h.occupy hne

theorem copies_of_run (hp : Conversions p) (hb : InodesPerBlock p) (hl : Linked s)
    (hversion : (p.get_super k.1).s_version ≠ .V1) (h : Copies s k file)
    {history : List (Step (State p) (Request p) (Option (Slot p)))}
    (hr : Run (system s) history t) (hspares : ∀ e ∈ history, Spares k e) :
    Linked t ∧ Copies t k file := by
  refine hr.guarded_invariant (I := fun _ t => Linked t ∧ Copies t k file) ⟨hl, h⟩ ?_ hspares
  intro history s req answer t _ hs hcall hstep
  exact ⟨(Returns.effect hp hb hs.1 hcall).2,
    copies_of_spares hp hb hs.1 hversion hs.2 hcall hstep⟩

end Copies

/-! ## Deletion and recovery -/

/-- The record of the deleted inode is that of the file, and where the slots that held its number
were copies of it, so are those that are left. -/
theorem copies_released_freed (hp : Conversions p) (hb : InodesPerBlock p) (hl : Linked s)
    (hversion : (p.get_super dev).s_version ≠ .V1) (env : Environment p)
    (hkey : slotKey (s.inode r) = some (dev, n))
    (halike : ∀ q, slotKey (s.inode q) = some (dev, n) → SameFile (s.inode q) (s.inode r))
    (hlinks : (s.inode r).i_nlinks = NO_LINK) (hrw : (p.get_super dev).s_rd_only = false) :
    Copies (released env s r) (dev, n) (s.inode r) := by
  obtain ⟨hnum, hdev, _⟩ := slotKey_eq_some.mp hkey
  have hsp : (s.inode r).i_sp = dev := ((hl.attached r hnum).2).trans hdev
  have hdirt : (dirtied (s.inode r)).i_dirt = .IN_DIRTY := by
    unfold dirtied
    rw [hsp, hrw]
    rfl
  unfold Copies
  rw [view_released_freed hb env hkey hlinks, if_pos hdirt]
  apply carries_save
  · exact (ofFile_encode hp hversion).mpr (sameFile_stamp _ _)
  · intro q _ hq
    obtain ⟨_, hqdev, _⟩ := slotKey_eq_some.mp hq
    rw [view_value, hqdev, ofFile_encode hp hversion]
    exact halike q hq

/-- With a slot to be had, a copy is found, or read into an unused slot. -/
theorem retrieveInode_copies (hp : Conversions p) (hl : Linked s) (hdev : dev ≠ NO_DEV)
    (hversion : (p.get_super dev).s_version ≠ .V1) (hn : n ≠ NO_ENTRY) {file : Inode p}
    (h : Copies s (dev, n) file) (hfree : s.unused_inodes ≠ []) (env : Environment p) :
    ∃ q t, retrieveInode env s dev n = .ok (some q, t) ∧
      slotKey (t.inode q) = some (dev, n) ∧ SameFile (t.inode q) file := by
  have hlinked := linked_claimed hl env dev n
  have hcopies : Copies (claimed env s dev n) (dev, n) file := by
    unfold Copies
    rw [view_claimed]
    exact h
  have hunused : (claimed env s dev n).unused_inodes ≠ [] := by
    rw [claimed_eq]
    exact hfree
  rcases getInode_cases hlinked env dev n with ⟨q, hkey, hget⟩ | ⟨_, hnone, _⟩ | ⟨_, q, hq, hget⟩
  · obtain ⟨log, hsome⟩ := retrieveInode_some hget
    have hinode : (found (claimed env s dev n) q).inode q =
        setCount (((claimed env s dev n).inode q).i_count + 1) ((claimed env s dev n).inode q) := by
      rw [found_inode, if_pos rfl]
    have hsame := hcopies.sameFile hp hversion hkey
    refine ⟨q, _, hsome, ?_⟩
    dsimp only
    rw [hinode]
    exact ⟨hkey, hsame.i_mode, hsame.i_uid, hsame.i_gid, hsame.i_size, hsame.i_zone⟩
  · exact absurd hnone hunused
  · obtain ⟨log, hsome⟩ := retrieveInode_some hget
    have hinode : (loaded (claimed env s dev n) q dev n).inode q =
        loadInode (claimed env s dev n) q dev n := by
      rw [loaded_inode, if_pos rfl]
    have hlinks := loadInode_links (claimed env s dev n) q dev n
    refine ⟨q, _, hsome, ?_⟩
    dsimp only
    rw [hinode, slotKey_eq_some, hlinks.2.1]
    exact ⟨⟨hn, hlinks.1, rfl⟩, sameFile_loadInode hdev hcopies.stored⟩

/-- After the last call of `put_inode` for the slot, and any calls that spare the inode, it is
recovered as it was. -/
def Recovers (env : Environment p) (s : State p) (r : Slot p) (dev : Dev) (n : UInt32) : Prop :=
  ∃ t, putInode env s (some r) = .ok t ∧
    ∀ history u, Run (system t) history u → (∀ e ∈ history, Spares (dev, n) e) →
      u.unused_inodes ≠ [] → ∀ env',
        ∃ q v, retrieveInode env' u dev n = .ok (some q, v) ∧
          slotKey (v.inode q) = some (dev, n) ∧ SameFile (v.inode q) (s.inode r)

/-- What `get_inode` finds in the table is recovered. -/
theorem retrieveInode_found {q : Slot p} (hq : searchHash s dev n = some q) (env : Environment p) :
    ∃ t, retrieveInode env s dev n = .ok (some q, t) ∧
      t.inode q = setCount ((s.inode q).i_count + 1) (s.inode q) := by
  have hfound : searchHash (claimed env s dev n) dev n = some q := by
    rw [claimed_eq]
    exact hq
  obtain ⟨log, hsome⟩ := retrieveInode_some (getInode_hit hfound)
  refine ⟨_, hsome, ?_⟩
  change (found (claimed env s dev n) q).inode q = _
  rw [found_inode, if_pos rfl, claimed_eq]

/-- An inode that is deleted is recovered with its mode, its owner, its size and its zones, if the
other slots that hold its number are copies of it. The first that is left after its deletion must
be one. -/
theorem delete_recover (hp : Conversions p) (hb : InodesPerBlock p) (hl : Linked s)
    (hrw : (p.get_super dev).s_rd_only = false) (hversion : (p.get_super dev).s_version ≠ .V1)
    (hkey : slotKey (s.inode r) = some (dev, n))
    (hcount : (s.inode r).i_count = 1) (hlinks : (s.inode r).i_nlinks = NO_LINK)
    (env : Environment p) :
    ((∀ q, q ≠ r → slotKey (s.inode q) = some (dev, n) → SameFile (s.inode q) (s.inode r)) →
      Recovers env s r dev n) ∧
    (Recovers env s r dev n → ∀ t, putInode env s (some r) = .ok t →
      ∀ q ∈ searchHash t dev n, q ≠ r ∧ SameFile (s.inode q) (s.inode r)) := by
  obtain ⟨hnum, hdev, hnumb⟩ := slotKey_eq_some.mp hkey
  have hput : putInode env s (some r) = .ok (released env s r) := by
    rcases putInode_cases env s r with ⟨hzero, _⟩ | ⟨_, h⟩ | ⟨hmany, _⟩
    · omega
    · exact h
    · omega
  have hlinked := linked_released hl env hnum hcount
  constructor
  · intro hothers
    have halike : ∀ q, slotKey (s.inode q) = some (dev, n) →
        SameFile (s.inode q) (s.inode r) := by
      intro q hq
      by_cases hqr : q = r
      · rw [hqr]
        exact ⟨rfl, rfl, rfl, rfl, rfl⟩
      · exact hothers q hqr hq
    refine ⟨released env s r, hput, fun history u hrun hspares hfree env' => ?_⟩
    have hcopies := copies_released_freed hp hb hl hversion env hkey halike hlinks hrw
    obtain ⟨hu, hcopies'⟩ := copies_of_run hp hb hlinked hversion hcopies hrun hspares
    exact retrieveInode_copies hp hu (hdev ▸ (hl.attached r hnum).1) hversion (hnumb ▸ hnum)
      hcopies' hfree env'
  · rintro ⟨t, ht, hrecover⟩ t' ht' q hq
    obtain rfl : t' = released env s r := Except.ok.inj (ht'.symm.trans hput)
    obtain rfl : t = released env s r := Except.ok.inj (ht.symm.trans hput)
    have hne : q ≠ r := by
      rintro rfl
      have hfreed := released_freed_inode env hlinks
      have hheld := searchHash_some hlinked hq
      exact (slotKey_eq_some.mp hheld).1 hfreed
    have hfree : (released env s r).unused_inodes ≠ [] := by
      rw [released_freed env hlinks]
      exact List.cons_ne_nil _ _
    obtain ⟨q', v, hretrieve, _, hsame⟩ :=
      hrecover [] (released env s r) .init (fun _ he => absurd he List.not_mem_nil) hfree env
    obtain ⟨v', hfound, hinode⟩ := retrieveInode_found hq env
    rw [hfound, Except.ok.injEq, Prod.mk.injEq, Option.some.injEq] at hretrieve
    obtain ⟨rfl, rfl⟩ := hretrieve
    rw [hinode, released_other env s hne] at hsame
    exact ⟨hne, hsame.i_mode, hsame.i_uid, hsame.i_gid, hsame.i_size, hsame.i_zone⟩

/-- The small file system after its file was opened. -/
def openedFile : State small := (getInode smallEnvironment mounted 1 2).2

theorem linked_openedFile : Linked openedFile := by
  have hopened : Acquired mounted (1, 2) openedFile ∧ Linked openedFile :=
    getInode_acquired conversions_small linked_mounted (by decide) (by decide) smallEnvironment
  exact hopened.2

/-- The file is put, and recovered after another inode was opened in its place. -/
theorem delete_recover_small :
    ∃ t, putInode smallEnvironment openedFile (some slot1) = .ok t ∧
      ∃ u, Run (system t) [⟨t, ⟨smallEnvironment, .get_inode 1 3⟩, some slot1, u⟩] u ∧
        ∃ q v, retrieveInode smallEnvironment u 1 2 = .ok (some q, v) ∧
          slotKey (v.inode q) = some (1, 2) ∧ SameFile (v.inode q) (openedFile.inode slot1) := by
  have hkey : slotKey (openedFile.inode slot1) = some (1, 2) := by decide
  have honly : ∀ q, q ≠ slot1 → slotKey (openedFile.inode q) ≠ some (1, 2) := by decide
  obtain ⟨t, hput, hrecover⟩ := (delete_recover conversions_small inodesPerBlock_small
    linked_openedFile rfl (by decide) hkey (by decide) (by decide) smallEnvironment).1
      fun q hq hheld => absurd hheld (honly q hq)
  have ht : t = released smallEnvironment openedFile slot1 := (Except.ok.inj hput).symm
  have hrun : Run (system t) [⟨t, ⟨smallEnvironment, .get_inode 1 3⟩, some slot1,
      (getInode smallEnvironment t 1 3).2⟩] (getInode smallEnvironment t 1 3).2 := by
    have hanswer : (getInode smallEnvironment t 1 3).1 = some slot1 := by
      rw [ht]
      decide
    have hnumbers : (1 : Dev) ≠ NO_DEV ∧ (3 : UInt32) ≠ NO_ENTRY := by decide
    exact Run.init.call ⟨hnumbers, congrArg Except.ok (Prod.ext hanswer rfl)⟩
  refine ⟨t, hput, (getInode smallEnvironment t 1 3).2, hrun, ?_⟩
  apply hrecover _ _ hrun
  · intro e he
    rw [List.mem_singleton.mp he]
    constructor
    · exact fun hopens => absurd (Option.some.inj hopens) (by decide)
    · rintro r ⟨⟨bits, hcall⟩, _⟩
      cases hcall
  · rw [ht]
    decide

/-- Inode 3 is in two slots, and the mode of the one that is left is recovered. -/
theorem delete_recover_fails :
    ¬ ∀ history (s : State small) (r : Slot small) (dev : Dev) (n : UInt32),
      Run (system mounted) history s → (small.get_super dev).s_rd_only = false →
        (small.get_super dev).s_version ≠ .V1 → slotKey (s.inode r) = some (dev, n) →
          (s.inode r).i_count = 1 → (s.inode r).i_nlinks = NO_LINK →
            Recovers smallEnvironment s r dev n := by
  intro h
  obtain ⟨t, hput, hrecover⟩ := h _ doubled slot0 1 3 run_doubled rfl (by decide) (by decide)
    (by decide) (by decide)
  obtain rfl : t = released smallEnvironment doubled slot0 := (Except.ok.inj hput).symm
  obtain ⟨q, v, hretrieve, _, hsame⟩ := hrecover [] (released smallEnvironment doubled slot0) .init
    (fun _ he => absurd he List.not_mem_nil) (by decide) smallEnvironment
  have hheld : searchHash (released smallEnvironment doubled slot0) 1 3 = some slot1 := by decide
  obtain ⟨v', hfound, hinode⟩ := retrieveInode_found hheld smallEnvironment
  rw [hfound, Except.ok.injEq, Prod.mk.injEq, Option.some.injEq] at hretrieve
  obtain ⟨rfl, rfl⟩ := hretrieve
  have hmode := hsame.i_mode
  rw [hinode, released_other smallEnvironment doubled (by decide)] at hmode
  exact absurd hmode (by decide)

end MinixOS.InodeRecovery
