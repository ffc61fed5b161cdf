import MinixOS.LinkCounts

/-!
# Link counts over runs

However requests come, the count of an inode is the number of the entries that name it.
-/
namespace MinixOS.LinkRuns
open SystemRuns InodeState InodeCopy InodeCache WriteBackCache InodeView InodeRelease
  InodeAllocation InodeSystem InodeCoherence InodeZones InodeUse LinkCalls LinkCoherence LinkSystem
  RecoverAtomicity DirectoryCalls LinkReferences DirectoryTree RequestRuns DirectoryMoves LinkCounts
open CheckedExecution hiding Stop

variable {p : Platform} {s t start : State p} {r : Slot p} {env : Environment p} {hdr : Headers}
  {dev : Dev} {numb : UInt32} {k : Dev × UInt32} {D : Dev → UInt32 → Directory}

/-! ## The calls of inode.c -/

/-- A new inode has no link, and its count is right if no entry names it. -/
theorem Links.allocate (hl : Linked s) (hi : Idle s) (h : Links k D s) (bits : UInt16)
    (hfresh : k = (dev, env.alloc_bit (s.imap dev) (s.s_isearch dev)) → linksTo (D k.1) k.2 = 0)
    (hp : Conversions p) : Links k D (allocInode env s dev bits).2 := by
  have hanswer : env.alloc_bit (s.imap dev) (s.s_isearch dev) = _ := rfl
  rcases allocInode_cases hl bits hanswer with
    ⟨_, halloc⟩ | ⟨_, _, halloc⟩ | ⟨_, _, _, halloc⟩ | ⟨hrw, hb, r, hr, halloc⟩
  · rw [halloc]
    exact h
  · rw [halloc]
    exact h
  · -- without a slot the number is given back
    rw [halloc, withdrawn_eq]
    exact h
  · have hfields := newInode_fields env s r bits (env.alloc_bit (s.imap dev) (s.s_isearch dev)) hrw
    have hinode := allocated_inode env s r r dev bits (env.alloc_bit (s.imap dev) (s.s_isearch dev))
    rw [if_pos rfl] at hinode
    have hdirty : Dirty (allocated env s r dev bits
        (env.alloc_bit (s.imap dev) (s.s_isearch dev))) r := by
      unfold Dirty
      rw [hinode]
      exact hfields.2.2.2.2.2.1
    rw [halloc]
    unfold Links
    rw [view_allocated env s r bits hrw hb]
    apply Tracks.occupy h (hi.not_dirty (List.mem_of_mem_head? hr))
    · intro q hq
      unfold Dirty
      rw [allocated_inode, if_neg hq]
    · unfold counted entered
      split_ifs with he
      · rw [recordLinks_encode hp, hfields.2.2.2.2.1, hfresh he.symm]
        rfl
      · rfl
    · exact fun hclean => absurd hdirty hclean

/-- No function of inode.c counts links. -/
theorem Links.execute (hp : Conversions p) (hb : InodesPerBlock p) (hl : Linked s) (hi : Idle s)
    (h : Links k D s) {call : InodeSystem.Call p} {answer : Option (Slot p)}
    (hcall : Returns s ⟨env, call⟩ answer t)
    (hfresh : ∀ bits, call = .alloc_inode k.1 bits →
      env.alloc_bit (s.imap k.1) (s.s_isearch k.1) = k.2 → linksTo (D k.1) k.2 = 0) :
    Links k D t := by
  cases (hcall.effect hp hb hl).1 with
  | kept _ hkept => exact tracks_kept h hkept
  | opened _ _ hacquired => exact tracks_acquired h hi hacquired
  | put _ _ hreleased => exact tracks_released (timeless_counted k) h hreleased
  | made r l rip hmakes =>
      obtain ⟨bits, hcalls⟩ := hmakes.1
      obtain rfl : call = .alloc_inode l.1 bits := hcalls
      have halloc : (answer, t) = allocInode env s l.1 bits := Except.ok.inj hcall.2.symm
      have hallocated : Links k D (allocInode env s l.1 bits).2 := by
        refine Links.allocate hl hi h bits (fun heq => ?_) hp
        apply hfresh bits
        · rw [heq]
        · rw [heq]
      rw [← halloc] at hallocated
      exact hallocated

theorem links_putTimes (hb : InodesPerBlock p) (n : ℕ) (hready : Ready s (List.replicate n r))
    (h : Links k D s) : Ensures (putTimes env r n s) fun t => Links k D t := by
  induction n generalizing s with
  | zero => exact ensures_ok h
  | succ n ih =>
      intro t ht
      obtain ⟨u, hu, hrest⟩ := bind_eq_ok.mp ht
      obtain ⟨hnum, hcount⟩ := hready.holding r List.mem_cons_self
      rw [List.count_replicate_self] at hcount
      obtain ⟨v, hv, hreleased, _⟩ := putInode_released hb hready.coherent.linked
        ⟨hnum, by omega⟩ env
      rw [hu] at hv
      cases hv
      exact ih (hready.put hb env u hu) (tracks_released (timeless_counted k) h hreleased) t hrest

/-! ## Requests -/

/-- The device on which a request changes entries. -/
def writes : FileCall p → Option Dev
  | .fs (.fs_link m) => some m.fs_dev
  | .fs (.fs_unlink m) => some m.fs_dev
  | .fs_rmdir m => some m.fs_dev
  | .fs_rename m => some m.fs_dev
  | _ => none

/-- The entries are on devices that may be written, no inode is recovered or gets a number that
another slot holds, the inode `k` is not made anew while an entry names it, and no inode gets the number
of an unlinked directory in which such an entry was left. -/
structure Tallied (k : Dev × UInt32) (e : FileStep p) : Prop where
  exact : Exact e.call.env
  safe : ¬ ClashesFile e ∧ ¬ RecoversFile e
  writable : ∀ dev, writes e.call.call = some dev → (p.get_super dev).s_rd_only = false
  fresh : ∀ bits, e.call.call = .fs (.inode (.alloc_inode k.1 bits)) →
    e.call.env.alloc_bit (e.before.imap k.1) (e.before.s_isearch k.1) = k.2 →
      linksTo (e.before.directories k.1) k.2 = 0
  left : ∀ bits, e.call.call = .fs (.inode (.alloc_inode k.1 bits)) →
    ∀ entry ∈ e.before.directories k.1
      (e.call.env.alloc_bit (e.before.imap k.1) (e.before.s_isearch k.1)), entry.2 ≠ k.2

/-- The inodes are coherent, and the inode `k` has the right count. -/
structure Accounted (k : Dev × UInt32) (s : State p) : Prop where
  coherent : Coherent s
  links : Links k s.directories s

theorem Accounted.counting (h : Accounted k s) (dev : Dev) :
    Counting dev k [] (fun _ => none) [] s [] :=
  ⟨⟨⟨h.coherent, holding_nil s⟩, fun _ hr => absurd hr List.not_mem_nil,
    fun _ hr => absurd hr List.not_mem_nil⟩, h.links, fun _ he => absurd he List.not_mem_nil⟩

section Requests
variable {m : Message}

/-- A request begins without references and without entries found. -/
theorem opening_request (hrel : Reliable env dev) (k : Dev × UInt32) :
    Opening env (· = dev) [] (Counting dev k [] (fun _ => none) []) :=
  opening_counting hrel

theorem Accounted.link (hw : Writable env m.fs_dev) (h : Accounted k s)
    (hnumb : m.REQ_INODE_NR ≠ NO_ENTRY) (hdir : m.REQ_DIR_INO ≠ NO_ENTRY) :
    Succeeds (fsLink env m s) fun out => Links k out.2.directories out.2 := by
  have hopen := opening_request hw.toReliable k
  exact (hopen.fsLink hw.finds (h.counting m.fs_dev) rfl hnumb hdir (registers_counting hw)).mono
    fun _ hout => hout.links

theorem Accounted.unlink (hw : Writable env m.fs_dev) (h : Accounted k s)
    (hnumb : m.REQ_INODE_NR ≠ NO_ENTRY) :
    Succeeds (fsUnlink env m s) fun out => Links k out.2.directories out.2 := by
  have hopen := opening_request hw.toReliable k
  rw [fsUnlink_eq]
  exact (hopen.unlinkWith hw.finds (fun string hs hdir hrip hnames =>
    hs.tryUnlink hw hdir hrip hnames) (h.counting m.fs_dev) rfl hnumb).mono fun _ hout => hout.links

theorem Accounted.rmdir (hw : Writable env m.fs_dev) (h : Accounted k s)
    (hnumb : m.REQ_INODE_NR ≠ NO_ENTRY) :
    Succeeds (fsRmdir hdr env m s) fun out => Links k out.2.directories out.2 := by
  have hopen := opening_request hw.toReliable k
  exact (hopen.unlinkWith hw.finds (fun string hs hdir hrip hnames =>
    hs.tryRemove hw hdir hrip hnames) (h.counting m.fs_dev) rfl hnumb).mono fun _ hout => hout.links

theorem Accounted.rename {m : RenameMessage} (hw : Writable env m.fs_dev) (h : Accounted k s)
    (hold : m.REQ_REN_OLD_DIR ≠ NO_ENTRY) (hnew : m.REQ_REN_NEW_DIR ≠ NO_ENTRY) (fuel : ℕ) :
    Results (fsRename hdr env m fuel s) (· = .passesRanOut)
      fun out => Links k out.2.directories out.2 := by
  have hopen := opening_request hw.toReliable k
  exact (hopen.fsRename hw.finds (h.counting m.fs_dev) rfl hold hnew
    (tries_counting hw m fuel)).mono fun _ hout => hout.links

end Requests

/-- The calls of inode.c. The directory of the number that a new inode is given, which is
cleared, has no entry that counts. -/
theorem Accounted.execute (hp : Conversions p) (hb : InodesPerBlock p) (h : Accounted k s)
    {call : InodeSystem.Call p} {answer : Option (Slot p)} (hcall : Returns s ⟨env, call⟩ answer t)
    (hfresh : ∀ bits, call = .alloc_inode k.1 bits →
      env.alloc_bit (s.imap k.1) (s.s_isearch k.1) = k.2 → linksTo (s.directories k.1) k.2 = 0)
    (hleft : ∀ bits, call = .alloc_inode k.1 bits →
      ∀ entry ∈ s.directories k.1 (env.alloc_bit (s.imap k.1) (s.s_isearch k.1)), entry.2 ≠ k.2) :
    Links k t.directories t := by
  have hlinks : Links k s.directories t :=
    Links.execute hp hb h.coherent.linked h.coherent.idle h.links hcall hfresh
  rcases directories_inode h.coherent.linked call _ hcall.2 with hkept | ⟨dev, bits, halloc, hmade⟩
  · rw [hkept]
    exact hlinks
  · apply hlinks.of_eq
    rw [hmade]
    apply linksTo_cleared
    rintro rfl
    exact hleft bits halloc

/-- Where the directory cannot be opened, nothing is recovered. -/
theorem Accounted.recover (h : Accounted k s) (env : Environment p) {m : Message}
    (hdir : ¬ Available s (m.REQ_DEV, m.REQ_DIR_INO)) :
    Ensures (fsRecover env m s) fun out => Links k out.2.directories out.2 := by
  obtain ⟨log, misses, hfails⟩ := fsRecover_unavailable h.coherent.linked env hdir
  intro out hout
  rw [hfails] at hout
  cases hout
  exact h.links

theorem FileReturns.accounted (hp : Conversions p) (hb : InodesPerBlock p) (h : Accounted k s)
    {req : FileRequest p} {answer : FileAnswer p} (hcall : FileReturns hdr s req answer t)
    (htallied : Tallied k ⟨s, req, answer, t⟩) : Accounted k t := by
  have hcoherent := RequestRuns.FileReturns.coherent hp hb h.coherent hcall htallied.safe.1
    htallied.safe.2
  obtain ⟨hexact, ⟨_, hrecover⟩, hwritable, hfresh, hleft⟩ := htallied
  obtain ⟨env, call⟩ := req
  obtain ⟨hsound, ⟨hdoc, hfinds⟩, hexecutes⟩ := hcall
  have hrel : ∀ dev, dev ≠ NO_DEV → Reliable env dev :=
    fun dev hdev => ⟨hp, hb, hdoc, hfinds, hexact.toEntries, hdev⟩
  have hw : ∀ dev, dev ≠ NO_DEV → writes call = some dev → Writable env dev :=
    fun dev hdev hwrites => ⟨hrel dev hdev, hexact, hwritable dev hwrites⟩
  refine ⟨hcoherent, ?_⟩
  cases hexecutes with
  | @fs fscall answer t hout =>
      cases fscall with
      | inode call =>
          obtain ⟨out, hinode, hpair⟩ := map_eq_ok.mp hout
          cases hpair
          refine h.execute hp hb ⟨hsound, hinode⟩ (fun bits halloc => ?_) fun bits halloc => ?_
          · exact hfresh bits (congrArg (fun call => FileCall.fs (.inode call)) halloc)
          · exact hleft bits (congrArg (fun call => FileCall.fs (.inode call)) halloc)
      | fs_link m =>
          obtain ⟨out, hfs, hpair⟩ := map_eq_ok.mp hout
          cases hpair
          have hlinked := h.link (hw m.fs_dev hsound.1 rfl) hsound.2.1 hsound.2.2
          exact hlinked.ensures _ hfs
      | fs_unlink m =>
          obtain ⟨out, hfs, hpair⟩ := map_eq_ok.mp hout
          cases hpair
          exact (h.unlink (hw m.fs_dev hsound.1 rfl) hsound.2).ensures _ hfs
      | fs_recover m =>
          obtain ⟨out, hfs, hpair⟩ := map_eq_ok.mp hout
          cases hpair
          have hdir : ¬ Available s (m.REQ_DEV, m.REQ_DIR_INO) := fun havailable =>
            hrecover ⟨m, rfl, havailable⟩
          exact h.recover env hdir _ hfs
  | @rmdir m r t hout => exact (h.rmdir (hw m.fs_dev hsound.1 rfl) hsound.2).ensures _ hout
  | @rdlink m r nbytes t hout =>
      have hopen := opening_request (hrel m.fs_dev hsound.1) k
      exact ((hopen.fsRdlink (h.counting m.fs_dev) rfl hsound.2).ensures _ hout).links
  | @rename m fuel r t hout =>
      exact (h.rename (hw m.fs_dev hsound.1 rfl) hsound.2.1 hsound.2.2 fuel).ensures _ hout
  | @putnode m r t hout =>
      have hlinks := ensures_putnode h.coherent.linked m (fun _ hnum hcount =>
        links_putTimes hb _ (Coherent.ready_replicate h.coherent hnum hcount) h.links) _ hout
      have hkept := directories_putnode h.coherent.linked m _ hout
      dsimp only at hlinks hkept
      rw [hkept]
      exact hlinks

/-! ## Runs -/

theorem accounted_initInodeCache
    (hstart : (recordLinks k.1 (record start k.1 k.2)).toNat =
      linksTo (start.directories k.1) k.2 % capacity p k.1) :
    Accounted k (initInodeCache start) := by
  constructor
  · exact coherent_initInodeCache start
  · constructor
    · exact fun r l hkey => nomatch hkey
    · intro l _
      unfold counted entered
      split_ifs with he
      · rw [he]
        exact hstart
      · rfl

theorem accounted_of_run (hp : Conversions p) (hb : InodesPerBlock p) {history : List (FileStep p)}
    (hr : Run (fileSystem hdr (initInodeCache start)) history s)
    (hstart : Accounted k (initInodeCache start)) (htallied : ∀ e ∈ history, Tallied k e) :
    Accounted k s := by
  refine hr.guarded_invariant (I := fun _ t => Accounted k t) hstart ?_ htallied
  intro history u req answer v _ hu hcall hstep
  exact FileReturns.accounted hp hb hu hcall hstep

theorem accounted_linkCount (hp : Conversions p) (h : Accounted k s) :
    (linkCount s k.1 k.2).toNat % capacity p k.1 =
      linksTo (s.directories k.1) k.2 % capacity p k.1 := by
  cases hsearch : searchHash s k.1 k.2 with
  | some r =>
      have hkey := searchHash_some h.coherent.linked hsearch
      have hheld := h.links.held r k hkey
      rw [view_value, (slotKey_eq_some.mp hkey).2.1] at hheld
      unfold counted entered at hheld
      rw [if_pos rfl, if_pos rfl, recordLinks_encode hp] at hheld
      rw [linkCount_some hsearch]
      exact hheld
  | none =>
      have habsent := searchHash_none h.coherent.linked hsearch
      have hstored := h.links.stored k fun r hr => absurd hr (habsent r)
      unfold counted entered at hstored
      rw [if_pos rfl, if_pos rfl] at hstored
      rw [linkCount_none hsearch]
      change (recordLinks k.1 (record s k.1 k.2)).toNat = _ at hstored
      rw [hstored, Nat.mod_mod]

/-- However requests come, an inode has as many links as it says, as far as its record can count. -/
theorem links_counted (hp : Conversions p) (hb : InodesPerBlock p) {history : List (FileStep p)}
    (hr : Run (fileSystem hdr (initInodeCache start)) history s) (dev : Dev) (numb : UInt32)
    (hstart : (recordLinks dev (record start dev numb)).toNat =
      linksTo (start.directories dev) numb % capacity p dev)
    (htallied : ∀ e ∈ history, Tallied (dev, numb) e) :
    (linkCount s dev numb).toNat % capacity p dev =
      linksTo (s.directories dev) numb % capacity p dev :=
  accounted_linkCount hp (accounted_of_run hp hb hr (accounted_initInodeCache hstart) htallied)

/-! ## A directory that gets a subdirectory -/

theorem exact_list : Exact listEnvironment where
  toEntries := entries_list
  nlinks entries string n flag rip := by
    change ((searchList entries string n flag).dirp rip).i_nlinks = rip.i_nlinks
    rcases searchList_dirp entries string n flag with hid | hmarked
    · rw [hid]
      rfl
    · rw [hmarked]
      rfl
  number entries string n hok := by
    change (searchList entries string n .LOOK_UP).answer = .OK at hok
    change listed entries string = some (string, (searchList entries string n .LOOK_UP).numb)
    unfold searchList at hok ⊢
    cases hlisted : listed entries string with
    | none =>
        rw [hlisted] at hok
        cases hok
    | some e =>
        obtain ⟨_, rfl, _⟩ := listed_eq_some hlisted
        rfl
  first entries string numb e h := (advance_listed h).2
  entered entries string numb _ := ⟨entries, [], (List.append_nil entries).symm, rfl⟩
  failed _ _ _ hfails := absurd rfl hfails
  deleted entries string n numb hlisted := by
    change Inserted (string, numb) (searchList entries string n .DELETE).entries entries
    unfold searchList
    rw [hlisted]
    exact inserted_erase (listed_eq_some hlisted).1
  replaced _ _ _ _ _ _ := rfl

/-- The entry `b` of the root names the directory 3, and so does its own entry `.`. -/
theorem linksTo_threeDirectories : linksTo threeDirectories 3 = 2 := by
  have hothers : ∀ dir ∈ Finset.univ, dir ∉ ({1, 3} : Finset UInt32) →
      (threeDirectories dir).countP (fun e => e.2 = 3) = 0 := by
    intro dir _ hdir
    rw [Finset.mem_insert, Finset.mem_singleton, not_or] at hdir
    unfold threeDirectories
    rw [if_neg hdir.1, if_neg hdir.2]
    split_ifs
    · decide
    · rfl
  unfold linksTo
  rw [← Finset.sum_subset (Finset.subset_univ {1, 3}) hothers, Finset.sum_pair (by decide)]
  decide

theorem capacity_roomy : capacity roomy 1 = 65536 := rfl

theorem recordLinks_emptyTable : (recordLinks 1 (record emptyTable 1 3)).toNat =
    linksTo (emptyTable.directories 1) 3 % capacity roomy 1 := by
  have hlinks : linksTo (emptyTable.directories 1) 3 = 2 := linksTo_threeDirectories
  rw [hlinks, capacity_roomy]
  rfl

/-- The directory 2 is moved into the directory 3, and its entry `..` is one link more. -/
theorem links_counted_three :
    ∃ fuel r t, fsRename smallHeaders listEnvironment moveMessage fuel (initInodeCache emptyTable) =
      .ok (r, t) ∧ (linkCount t 1 3).toNat % 65536 = linksTo (t.directories 1) 3 % 65536 := by
  obtain ⟨fuel, hfuel⟩ : ∃ fuel, 2 ^ 32 ≤ fuel := ⟨2 ^ 32, Nat.le_refl _⟩
  obtain ⟨⟨r, t⟩, hrename, _⟩ := (rename_three hfuel).exists
  have hcall : FileReturns smallHeaders (initInodeCache emptyTable)
      ⟨listEnvironment, .fs_rename moveMessage⟩ (.errno r) t :=
    ⟨sound_move _, ⟨documented_list, finds_list⟩, .rename hrename⟩
  refine ⟨fuel, r, t, hrename, ?_⟩
  rw [← capacity_roomy]
  apply links_counted conversions_roomy inodesPerBlock_roomy (Run.init.call hcall) 1 3
    recordLinks_emptyTable
  intro e he
  rw [List.mem_singleton.mp he]
  refine ⟨exact_list, ⟨?_, ?_⟩, fun _ _ => rfl, nofun, nofun⟩
  · rintro ⟨call, hcall, _⟩
    cases hcall
  · rintro ⟨m, hcall, _⟩
    cases hcall

end MinixOS.LinkRuns
