import MinixOS.RecoverAtomicity

/-!
# The references a recovery takes

`fs_link` and `fs_unlink` put the inodes they got on every path. `fs_recover` opens the
directory and the inode and puts neither of them, so it leaves the reference counts as they were
exactly if it does not get as far as to open one.
-/
namespace MinixOS.RecoverReferences
open SystemRuns InodeState InodeCopy InodeCache WriteBackCache InodeView InodeRelease
  InodeAllocation InodeSystem LinkCalls LinkCoherence LinkSystem RecoverAtomicity

variable {p : Platform} {s t : State p} {env : Environment p} {dev : Dev} {dir numb n : UInt32}
  {q r d : Slot p}

/-! ## References -/

/-- The slot holds this inode, and `get_inode` can find it there. -/
def InCore (s : State p) (r : Slot p) (dev : Dev) (numb : UInt32) : Prop :=
  r ∈ s.hash_inodes (hashIndex p numb) ∧ (s.inode r).i_num = numb ∧ (s.inode r).i_dev = dev

instance (s : State p) (r : Slot p) (dev : Dev) (numb : UInt32) :
    Decidable (InCore s r dev numb) := inferInstanceAs (Decidable (_ ∧ _))

/-- How often an inode is in use in a slot: not at all if it is not in core there. -/
def references (s : State p) (r : Slot p) (dev : Dev) (numb : UInt32) : ℕ :=
  if InCore s r dev numb then (s.inode r).i_count else 0

/-- Every in-core inode is in use as often as before. -/
def ReferencesKept (s t : State p) : Prop :=
  ∀ r dev numb, references t r dev numb = references s r dev numb

theorem inCore_of_searchHash (h : searchHash s dev numb = some r) : InCore s r dev numb :=
  ⟨List.mem_of_find?_eq_some h, named_of_searchHash h⟩

theorem not_inCore_of_searchHash (h : searchHash s dev numb = none) : ¬ InCore s r dev numb := by
  intro hcore
  exact List.find?_eq_none.mp h r hcore.1 (decide_eq_true hcore.2)

/-- Two inodes are named the same and in use the same number of times. -/
structure SameUse (a b : Inode p) : Prop where
  i_num : a.i_num = b.i_num
  i_dev : a.i_dev = b.i_dev
  i_count : a.i_count = b.i_count

theorem references_congr
    (hmem : r ∈ t.hash_inodes (hashIndex p numb) ↔ r ∈ s.hash_inodes (hashIndex p numb))
    (huse : SameUse (t.inode r) (s.inode r)) :
    references t r dev numb = references s r dev numb := by
  have hcore : InCore t r dev numb ↔ InCore s r dev numb := by
    unfold InCore
    rw [hmem, huse.i_num, huse.i_dev]
  unfold references
  rw [huse.i_count]
  exact if_congr hcore rfl rfl

/-! ## Opening an inode -/

/-- The inode that is opened is in use once more. -/
theorem references_opened_self (h : slotFor s dev numb = some r) :
    references (opened s r dev numb) r dev numb = references s r dev numb + 1 := by
  have hafter : InCore (opened s r dev numb) r dev numb :=
    inCore_of_searchHash (searchHash_opened_self h)
  unfold references
  rw [if_pos hafter]
  rcases opened_cases h with ⟨hsearch, heq⟩ | ⟨hsearch, _, heq⟩
  · rw [if_pos (inCore_of_searchHash hsearch), heq, found_inode, if_pos rfl]
    rfl
  · rw [if_neg (not_inCore_of_searchHash hsearch), heq, loaded_inode, if_pos rfl]
    exact (loadInode_links s r dev numb).2.2.1

theorem references_opened_of_ne (h : slotFor s dev numb = some r) (hq : q ≠ r) :
    references (opened s r dev numb) q dev n = references s q dev n := by
  apply references_congr (mem_opened_hash h hq)
  rw [opened_inode_of_ne h hq]
  exact ⟨rfl, rfl, rfl⟩

/-- An inode in use loses no reference when another one, or the same one again, is opened. -/
theorem le_references_opened (hd : (s.inode d).i_num = dir) (hused : d ∉ s.unused_inodes)
    (hr : slotFor s dev n = some r) :
    references s d dev dir ≤ references (opened s r dev n) d dev dir := by
  by_cases he : d = r
  · rcases opened_cases hr with ⟨hsearch, _⟩ | ⟨_, hhead, _⟩
    · have hn : n = dir := by
        rw [← hd, he]
        exact (named_of_searchHash hsearch).1.symm
      have hself := references_opened_self hr
      rw [← he, hn] at hself
      rw [← he, hn]
      omega
    · rw [← he] at hhead
      exact absurd (List.mem_of_mem_head? hhead) hused
  · exact (references_opened_of_ne hr he).ge

/-! ## The recovery -/

variable {m : Message}

theorem sameUse_afterEnter (hdoc : Documented env) (s : State p) (d q : Slot p) (n : UInt32) :
    SameUse ((afterEnter env s d "test.c" n).inode q) (s.inode q) := by
  have hlinks := hdoc.links (s.directories (s.inode d).i_dev (s.inode d).i_num) "test.c" (some n)
    .ENTER (s.inode d)
  unfold afterEnter
  rw [searchDir_inode]
  split_ifs with hq
  · rw [hq, stamp_fields]
    exact ⟨hlinks.i_num, hlinks.i_dev, hlinks.i_count⟩
  · rw [hq]
    exact ⟨hlinks.i_num, hlinks.i_dev, hlinks.i_count⟩
  · exact ⟨rfl, rfl, rfl⟩

/-- Counting the link and asking for the entry take no reference. -/
theorem references_afterEnter (hdoc : Documented env) (r : Slot p) (log : List Event) :
    references (afterEnter env (relinked env m s d r log) d "test.c" m.REQ_INODE_NR) q dev numb =
      references (opened (claiming env m s d) r m.REQ_DEV m.REQ_INODE_NR) q dev numb := by
  have hhash := (afterEnter_rest env (relinked env m s d r log) d "test.c" m.REQ_INODE_NR).2.1
  have hcounted : SameUse ((relinked env m s d r log).inode q)
      ((opened (claiming env m s d) r m.REQ_DEV m.REQ_INODE_NR).inode q) := by
    rw [relinked_inode]
    split_ifs with hq
    · rw [hq]
      exact ⟨rfl, rfl, rfl⟩
    · exact ⟨rfl, rfl, rfl⟩
  have hentered := sameUse_afterEnter hdoc (relinked env m s d r log) d q m.REQ_INODE_NR
  rw [references_congr (by rw [hhash]) hentered]
  exact references_congr Iff.rfl hcounted

/-! ## The lists -/

theorem linked_opened (hl : Linked s) (hdev : dev ≠ NO_DEV) (hnumb : numb ≠ NO_ENTRY)
    (h : slotFor s dev numb = some r) : Linked (opened s r dev numb) := by
  rcases opened_cases h with ⟨hsearch, heq⟩ | ⟨_, _, heq⟩
  · have hnum := (slotKey_eq_some.mp (searchHash_some hl hsearch)).1
    rw [heq]
    exact hl.found hnum
  · rw [heq]
    exact hl.loaded r hdev hnumb

theorem linked_afterEnter (hl : Linked s) (hdoc : Documented env)
    (hd : (s.inode d).i_num ≠ NO_ENTRY) (n : UInt32) :
    Linked (afterEnter env s d "test.c" n) := by
  have hlinks := hdoc.links (s.directories (s.inode d).i_dev (s.inode d).i_num) "test.c" (some n)
    .ENTER (s.inode d)
  have hattached := (hl.attached d hd).2
  have hunused : (afterEnter env s d "test.c" n).unused_inodes = s.unused_inodes := by
    unfold afterEnter searchDir
    dsimp only
    split_ifs
    · rw [writing_eq]
      rfl
    · rfl
  apply hl.congr hunused (afterEnter_rest env s d "test.c" n).2.1
  intro q
  unfold afterEnter
  rw [searchDir_inode]
  split_ifs with hq
  · rw [hq, stamp_fields]
    exact ⟨hlinks.i_num, hlinks.i_dev, hlinks.i_dev.trans hattached.symm, hlinks.i_count⟩
  · rw [hq]
    exact hlinks
  · exact ⟨rfl, rfl, rfl, rfl⟩

/-- The next request finds the lists in order, as this one did. -/
theorem linked_fsRecover (hl : Linked s) (hdoc : Documented env) (hdev : m.REQ_DEV ≠ NO_DEV)
    (hdir : m.REQ_DIR_INO ≠ NO_ENTRY) (hnumb : m.REQ_INODE_NR ≠ NO_ENTRY) {result : Errno}
    (h : fsRecover env m s = .ok (result, t)) : Linked t := by
  cases hd : slotFor s m.REQ_DEV m.REQ_DIR_INO with
  | none =>
      rw [fsRecover_noSlot hd] at h
      cases h
      exact hl.of_eq rfl rfl rfl
  | some d =>
      cases hr : slotFor (claiming env m s d) m.REQ_DEV m.REQ_INODE_NR with
      | none =>
          rw [fsRecover_stop hl hd hr] at h
          cases h
      | some r =>
          rcases fsRecover_done hl hd hr with ⟨log, hdone⟩
          rw [hdone] at h
          cases h
          have hfirst := linked_opened (linked_announced hl) hdev hdir hd
          have hclaiming : Linked (claiming env m s d) := by
            rw [claiming_eq]
            exact hfirst.of_eq rfl rfl rfl
          have hsecond := linked_opened hclaiming hdev hnumb hr
          have hrelinked : Linked (relinked env m s d r log) := by
            apply Linked.congr hsecond
            · rfl
            · rfl
            · intro q
              rw [relinked_inode]
              split_ifs with hq
              · rw [hq]
                exact ⟨rfl, rfl, rfl, rfl⟩
              · exact ⟨rfl, rfl, rfl, rfl⟩
          apply linked_afterEnter hrelinked hdoc
          rw [(relinked_directory hl hd hr).1]
          exact hdir

/-! ## What is left in use -/

/-- After the inode was opened too, the directory is in use more often than before. -/
theorem references_directory (hl : Linked s) (hd : slotFor s m.REQ_DEV m.REQ_DIR_INO = some d)
    (hr : slotFor (claiming env m s d) m.REQ_DEV m.REQ_INODE_NR = some r) :
    references s d m.REQ_DEV m.REQ_DIR_INO <
      references (opened (claiming env m s d) r m.REQ_DEV m.REQ_INODE_NR) d m.REQ_DEV
        m.REQ_DIR_INO := by
  have hfirst : references (opened (announced s) d m.REQ_DEV m.REQ_DIR_INO) d m.REQ_DEV
      m.REQ_DIR_INO = references s d m.REQ_DEV m.REQ_DIR_INO + 1 :=
    references_opened_self (s := announced s) hd
  have hnamed : ((claiming env m s d).inode d).i_num = m.REQ_DIR_INO := by
    rw [claiming_eq]
    exact (opened_inode_self (s := announced s) hd).1
  have hused : d ∉ (claiming env m s d).unused_inodes := by
    rw [claiming_eq]
    intro hmem
    exact ((mem_opened_unused (linked_announced hl) hd).mp hmem).1 rfl
  have hsecond := le_references_opened hnamed hused hr
  have hclaiming : references (claiming env m s d) d m.REQ_DEV m.REQ_DIR_INO =
      references (opened (announced s) d m.REQ_DEV m.REQ_DIR_INO) d m.REQ_DEV m.REQ_DIR_INO := by
    rw [claiming_eq]
    rfl
  omega

/-- When `fs_recover` returns, the reference counts are as before exactly if it could not open
the directory. -/
theorem recover_keeps_references_iff (hl : Linked s) (hdoc : Documented env) {result : Errno}
    (h : fsRecover env m s = .ok (result, t)) :
    ReferencesKept s t ↔ slotFor s m.REQ_DEV m.REQ_DIR_INO = none := by
  cases hd : slotFor s m.REQ_DEV m.REQ_DIR_INO with
  | none =>
      rw [fsRecover_noSlot hd] at h
      cases h
      constructor
      · exact fun _ => rfl
      · exact fun _ _ _ _ => rfl
  | some d =>
      cases hr : slotFor (claiming env m s d) m.REQ_DEV m.REQ_INODE_NR with
      | none =>
          rw [fsRecover_stop hl hd hr] at h
          cases h
      | some r =>
          rcases fsRecover_done hl hd hr with ⟨log, hdone⟩
          have htaken := references_directory hl hd hr
          rw [hdone] at h
          cases h
          constructor
          · intro hkept
            have hsame := hkept d m.REQ_DEV m.REQ_DIR_INO
            rw [references_afterEnter hdoc] at hsame
            omega
          · exact nofun

theorem recover_keeps_references_iff_small :
    ∃ result t, fsRecover smallEnvironment (recoverMessage 2) mounted = .ok (result, t) ∧
      ¬ ReferencesKept mounted t := by
  have hslot : slotFor mounted 1 1 ≠ none := by decide
  cases hout : fsRecover smallEnvironment (recoverMessage 2) mounted with
  | error stop =>
      have hok : (fsRecover smallEnvironment (recoverMessage 2) mounted).isOk = true := by decide
      rw [hout] at hok
      cases hok
  | ok out =>
      rcases out with ⟨result, t⟩
      have hiff := recover_keeps_references_iff linked_mounted documented_small hout
      exact ⟨result, t, rfl, fun hkept => hslot (hiff.mp hkept)⟩

/-- The root directory, that nobody used, is in use when the old file is recovered into it. -/
theorem recover_keeps_references_fails :
    ¬ ∀ result t, fsRecover smallEnvironment (recoverMessage 2) mounted = .ok (result, t) →
      ReferencesKept mounted t := by
  intro h
  have hcounts : ((fsRecover smallEnvironment (recoverMessage 2) mounted).map fun out =>
      (references mounted slot1 1 1, references out.2 slot1 1 1)).toOption = some (0, 1) := by
    decide
  cases hout : fsRecover smallEnvironment (recoverMessage 2) mounted with
  | error stop =>
      rw [hout] at hcounts
      cases hcounts
  | ok out =>
      rcases out with ⟨result, t⟩
      have hsame := h result t hout slot1 1 1
      rw [hout] at hcounts
      rcases Prod.mk.inj (Option.some.inj hcounts) with ⟨hbefore, hafter⟩
      rw [hbefore] at hsame
      change references t slot1 1 1 = 1 at hafter
      omega

end MinixOS.RecoverReferences
