import Mathlib.Data.List.Find
import MinixOS.LinkSystem

/-!
# The recovery request as one action

`fs_recover` takes a bit, a slot and a directory entry one after the other, and gives none of
them back when the next one is refused. It does all that it reports exactly if nothing
is refused: the bit that is allocated is the bit it asked for, there is a slot for the inode
beside the one of the directory, and the entry is made.
-/
namespace MinixOS.RecoverAtomicity
open SystemRuns InodeState InodeCopy InodeCache WriteBackCache InodeView InodeRelease
  InodeAllocation InodeSystem LinkCalls LinkSystem

variable {p : Platform} {s t : State p} {env : Environment p} {dev : Dev} {numb n : UInt32}
  {q r d : Slot p}

/-! ## Link counts -/

/-- The link count of an inode on disk. -/
def recordLinks (dev : Dev) : Record p → UInt16
  | .v1 dip => dip.d1_nlinks.toUInt16
  | .v2 dip => p.conv2 (p.get_super dev).s_native dip.d2_nlinks

/-- The link count of an inode, in core if the search finds it there and on disk if not. -/
def linkCount (s : State p) (dev : Dev) (numb : UInt32) : UInt16 :=
  match searchHash s dev numb with
  | some r => (s.inode r).i_nlinks
  | none => recordLinks dev (record s dev numb)

theorem linkCount_some (h : searchHash s dev numb = some r) :
    linkCount s dev numb = (s.inode r).i_nlinks := by
  unfold linkCount
  rw [h]

theorem linkCount_none (h : searchHash s dev numb = none) :
    linkCount s dev numb = recordLinks dev (record s dev numb) := by
  unfold linkCount
  rw [h]

theorem decode_nlinks (dev : Dev) (rip : Inode p) (rec : Record p) :
    (decode dev rip rec).i_nlinks = recordLinks dev rec := by
  cases rec with
  | v1 dip => rfl
  | v2 dip => rfl

theorem loadInode_nlinks (s : State p) (r : Slot p) (hdev : dev ≠ NO_DEV) :
    (loadInode s r dev numb).i_nlinks = recordLinks dev (record s dev numb) := by
  unfold loadInode
  rw [if_pos hdev]
  exact decode_nlinks dev _ _

/-- The search looks at the lists and at what names an inode. -/
theorem searchHash_congr (hhash : t.hash_inodes = s.hash_inodes)
    (hinode : ∀ q, (t.inode q).i_num = (s.inode q).i_num ∧ (t.inode q).i_dev = (s.inode q).i_dev) :
    searchHash t dev numb = searchHash s dev numb := by
  unfold searchHash
  rw [hhash]
  apply List.find?_congr
  intro q _
  rw [(hinode q).1, (hinode q).2]

theorem searchHash_found (s : State p) (r : Slot p) (dev : Dev) (numb : UInt32) :
    searchHash (found s r) dev numb = searchHash s dev numb := by
  apply searchHash_congr (found_hash s r)
  intro q
  rw [found_inode]
  split_ifs with hq
  · rw [hq]
    exact ⟨rfl, rfl⟩
  · exact ⟨rfl, rfl⟩

theorem linkCount_congr (hsearch : searchHash t dev numb = searchHash s dev numb)
    (hlinks : ∀ q, searchHash s dev numb = some q → (t.inode q).i_nlinks = (s.inode q).i_nlinks)
    (hblocks : t.blocks = s.blocks) : linkCount t dev numb = linkCount s dev numb := by
  cases h : searchHash s dev numb with
  | some q => rw [linkCount_some h, linkCount_some (hsearch.trans h), hlinks q h]
  | none => rw [linkCount_none h, linkCount_none (hsearch.trans h), record_congr hblocks]

/-! ## The slot of an inode -/

/-- The slot in which `get_inode` puts an inode. -/
def slotFor (s : State p) (dev : Dev) (numb : UInt32) : Option (Slot p) :=
  match searchHash s dev numb with
  | some r => some r
  | none => s.unused_inodes.head?

/-- The state after that. -/
def opened (s : State p) (r : Slot p) (dev : Dev) (numb : UInt32) : State p :=
  if searchHash s dev numb = none then loaded s r dev numb else found s r

theorem opened_cases (h : slotFor s dev numb = some r) :
    (searchHash s dev numb = some r ∧ opened s r dev numb = found s r) ∨
    (searchHash s dev numb = none ∧ s.unused_inodes.head? = some r ∧
      opened s r dev numb = loaded s r dev numb) := by
  unfold slotFor at h
  unfold opened
  cases hsearch : searchHash s dev numb with
  | some q =>
      rw [hsearch] at h
      cases h
      left
      exact ⟨rfl, if_neg nofun⟩
  | none =>
      rw [hsearch] at h
      right
      exact ⟨rfl, h, if_pos rfl⟩

theorem getInode_slot (h : slotFor s dev numb = some r) (hloose : ∀ q ∈ s.unused_inodes, Loose s q) :
    getInode env s dev numb = (some r, opened s r dev numb) := by
  rcases opened_cases h with ⟨hsearch, heq⟩ | ⟨hsearch, hr, heq⟩
  · rw [heq]
    exact getInode_hit hsearch
  · obtain ⟨rest, hu⟩ := List.head?_eq_some_iff.mp hr
    rw [heq]
    exact getInode_miss hsearch hu (hloose r (List.mem_of_mem_head? hr))

theorem getInode_noSlot (h : slotFor s dev numb = none) :
    getInode env s dev numb = (none, s.countMiss.setError .ENFILE) := by
  unfold slotFor at h
  cases hsearch : searchHash s dev numb with
  | some q =>
      rw [hsearch] at h
      cases h
  | none =>
      rw [hsearch] at h
      exact getInode_full hsearch (List.head?_eq_none_iff.mp h)

/-- Nothing but the inodes, their lists and the counters is changed. -/
theorem opened_rest (s : State p) (r : Slot p) (dev : Dev) (numb : UInt32) :
    (opened s r dev numb).imap = s.imap ∧ (opened s r dev numb).blocks = s.blocks ∧
      (opened s r dev numb).directories = s.directories := by
  unfold opened found
  split_ifs
  · exact ⟨rfl, rfl, rfl⟩
  · exact ⟨rfl, rfl, rfl⟩
  · exact ⟨rfl, rfl, rfl⟩

theorem opened_inode_of_ne (h : slotFor s dev numb = some r) (hq : q ≠ r) :
    (opened s r dev numb).inode q = s.inode q := by
  rcases opened_cases h with ⟨_, heq⟩ | ⟨_, _, heq⟩
  · rw [heq, found_inode, if_neg hq]
  · rw [heq, loaded_inode, if_neg hq]

/-- The search finds the inode there. -/
theorem searchHash_opened_self (h : slotFor s dev numb = some r) :
    searchHash (opened s r dev numb) dev numb = some r := by
  rcases opened_cases h with ⟨hsearch, heq⟩ | ⟨_, _, heq⟩
  · rw [heq, searchHash_found]
    exact hsearch
  · have hlinks := loadInode_links s r dev numb
    rw [heq]
    unfold searchHash
    rw [loaded_hash, if_pos rfl]
    apply List.find?_cons_of_pos
    rw [loaded_inode, if_pos rfl]
    exact decide_eq_true ⟨hlinks.2.1, hlinks.1⟩

theorem named_of_searchHash (h : searchHash s dev numb = some r) :
    (s.inode r).i_num = numb ∧ (s.inode r).i_dev = dev := by
  have hfound := List.find?_some h
  exact of_decide_eq_true hfound

theorem opened_inode_self (h : slotFor s dev numb = some r) :
    ((opened s r dev numb).inode r).i_num = numb ∧ ((opened s r dev numb).inode r).i_dev = dev :=
  named_of_searchHash (searchHash_opened_self h)

theorem linkCount_opened_self (hdev : dev ≠ NO_DEV) (h : slotFor s dev numb = some r) :
    linkCount (opened s r dev numb) dev numb = linkCount s dev numb := by
  rw [linkCount_some (searchHash_opened_self h)]
  rcases opened_cases h with ⟨hsearch, heq⟩ | ⟨hsearch, _, heq⟩
  · rw [heq, found_inode, if_pos rfl, linkCount_some hsearch]
    rfl
  · rw [heq, loaded_inode, if_pos rfl, linkCount_none hsearch]
    exact loadInode_nlinks s r hdev

/-! ## The other inodes -/

/-- The table without the inode that a new one displaces from this slot. -/
def displaced (s : State p) (r : Slot p) (dev : Dev) (numb : UInt32) : State p :=
  if searchHash s dev numb = none then unhashInode s r else s

theorem searchHash_opened (hl : Linked s) (h : slotFor s dev numb = some r) (hne : n ≠ numb) :
    searchHash (opened s r dev numb) dev n = searchHash (displaced s r dev numb) dev n := by
  rcases opened_cases h with ⟨hsearch, heq⟩ | ⟨hsearch, _, heq⟩
  · have hdisplaced : displaced s r dev numb = s := if_neg (by rw [hsearch]; exact nofun)
    rw [heq, hdisplaced, searchHash_found]
  · have hdisplaced : displaced s r dev numb = unhashInode s r := if_pos hsearch
    have hself : ((loaded s r dev numb).inode r).i_num ≠ n := by
      rw [loaded_inode, if_pos rfl, (loadInode_links s r dev numb).2.1]
      exact Ne.symm hne
    have hskip : ∀ l : List (Slot p), (r :: l).find? (fun rip =>
        ((loaded s r dev numb).inode rip).i_num = n ∧
          ((loaded s r dev numb).inode rip).i_dev = dev) = l.find? fun rip =>
        ((loaded s r dev numb).inode rip).i_num = n ∧
          ((loaded s r dev numb).inode rip).i_dev = dev := by
      intro l
      apply List.find?_cons_of_neg
      intro hr
      exact hself (of_decide_eq_true hr).1
    have hlist : searchHash (loaded s r dev numb) dev n =
        ((s.hash_inodes (hashIndex p n)).erase r).find? fun rip =>
          ((loaded s r dev numb).inode rip).i_num = n ∧
            ((loaded s r dev numb).inode rip).i_dev = dev := by
      unfold searchHash
      rw [loaded_hash]
      split_ifs
      · exact hskip _
      · rfl
    rw [heq, hdisplaced, hlist]
    apply List.find?_congr
    intro q hq
    have hqr := ((hl.hash_nodup _).mem_erase_iff.mp hq).1
    rw [loaded_inode, if_neg hqr]
    rfl

/-- The slot is not unused any more, and the others are as before. -/
theorem mem_opened_unused (hl : Linked s) (h : slotFor s dev numb = some r) :
    q ∈ (opened s r dev numb).unused_inodes ↔ q ≠ r ∧ q ∈ s.unused_inodes := by
  rcases opened_cases h with ⟨hsearch, heq⟩ | ⟨_, _, heq⟩
  · rw [heq, found_unused]
    split_ifs with hcount
    · exact hl.unused_nodup.mem_erase_iff
    · have hnum := (slotKey_eq_some.mp (searchHash_some hl hsearch)).1
      have hr : r ∉ s.unused_inodes := hl.notMem_unused hnum (Nat.pos_of_ne_zero hcount)
      constructor
      · exact fun hq => ⟨fun he => hr (he ▸ hq), hq⟩
      · exact fun hq => hq.2
  · rw [heq]
    exact hl.unused_nodup.mem_erase_iff

theorem mem_opened_hash (h : slotFor s dev numb = some r) (hq : q ≠ r) {hashi : UInt32} :
    q ∈ (opened s r dev numb).hash_inodes hashi ↔ q ∈ s.hash_inodes hashi := by
  rcases opened_cases h with ⟨_, heq⟩ | ⟨_, _, heq⟩
  · rw [heq, found_hash]
  · rw [heq, loaded_hash]
    split_ifs
    · rw [List.mem_cons, or_iff_right hq, List.mem_erase_of_ne hq]
    · exact List.mem_erase_of_ne hq

theorem loose_opened (hl : Linked s) (h : slotFor s dev numb = some r)
    (hq : q ∈ (opened s r dev numb).unused_inodes) : Loose (opened s r dev numb) q := by
  have hne := ((mem_opened_unused hl h).mp hq).1
  intro hnum hashi hmem
  rw [opened_inode_of_ne h hne] at hnum
  exact hl.loose q hnum hashi ((mem_opened_hash h hne).mp hmem)

theorem displaced_rest (s : State p) (r : Slot p) (dev : Dev) (numb : UInt32) :
    (displaced s r dev numb).inode = s.inode ∧ (displaced s r dev numb).blocks = s.blocks := by
  unfold displaced
  split_ifs
  · exact ⟨rfl, rfl⟩
  · exact ⟨rfl, rfl⟩

theorem linkCount_displaced_self (s : State p) (r : Slot p) (dev : Dev) (numb : UInt32) :
    linkCount (displaced s r dev numb) dev numb = linkCount s dev numb := by
  unfold displaced
  split_ifs with hsearch
  · have hnone : searchHash (unhashInode s r) dev numb = none := by
      apply List.find?_eq_none.mpr
      intro q hq
      exact List.find?_eq_none.mp hsearch q (List.mem_of_mem_erase hq)
    rw [linkCount_none hnone, linkCount_none hsearch]
    rfl
  · rfl

theorem linkCount_opened (hl : Linked s) (hdev : dev ≠ NO_DEV) (h : slotFor s dev numb = some r) :
    linkCount (opened s r dev numb) dev n = linkCount (displaced s r dev numb) dev n := by
  by_cases hne : n = numb
  · rw [hne, linkCount_opened_self hdev h, linkCount_displaced_self]
  · have hsearch := searchHash_opened hl h hne
    have hrest := displaced_rest s r dev numb
    refine linkCount_congr hsearch (fun q hq => ?_) ?_
    · have hnamed := (named_of_searchHash (hsearch.trans hq)).1
      have hqr : q ≠ r := by
        intro he
        rw [he, (opened_inode_self h).1] at hnamed
        exact hne hnamed.symm
      rw [opened_inode_of_ne h hqr, hrest.1]
    · rw [(opened_rest s r dev numb).2.1, hrest.2]

/-! ## A slot for the second inode -/

theorem slotFor_eq_none :
    slotFor s dev numb = none ↔ searchHash s dev numb = none ∧ s.unused_inodes = [] := by
  unfold slotFor
  cases searchHash s dev numb with
  | some q =>
      constructor
      · exact nofun
      · exact fun h => nomatch h.1
  | none => simp

/-- Beside the slot of the directory the inode is in another one, or there is one for it. -/
def Room (s : State p) (d : Slot p) (dev : Dev) (dir n : UInt32) : Prop :=
  n = dir ∨ (∃ r, r ≠ d ∧ slotKey (s.inode r) = some (dev, n)) ∨ ∃ r ∈ s.unused_inodes, r ≠ d

variable {dir : UInt32}

theorem room_iff (hl : Linked s) (hd : slotFor s dev dir = some d) :
    Room s d dev dir n ↔ slotFor (opened s d dev dir) dev n ≠ none := by
  constructor
  · rintro (he | ⟨r, hr, hkey⟩ | ⟨r, hr, hne⟩) hnone
    · rw [he] at hnone
      have hself := (slotFor_eq_none.mp hnone).1
      rw [searchHash_opened_self hd] at hself
      cases hself
    · have hsearch := (slotFor_eq_none.mp hnone).1
      obtain ⟨hnum, hi_dev, hi_num⟩ := slotKey_eq_some.mp hkey
      have hmem : r ∈ s.hash_inodes (hashIndex p n) := (hl.hashed _ r).mpr ⟨hnum, by rw [hi_num]⟩
      have hnot := List.find?_eq_none.mp hsearch r ((mem_opened_hash hd hr).mpr hmem)
      rw [opened_inode_of_ne hd hr, decide_eq_true_eq] at hnot
      exact hnot ⟨hi_num, hi_dev⟩
    · have hmem := (mem_opened_unused hl hd).mpr ⟨hne, hr⟩
      rw [(slotFor_eq_none.mp hnone).2] at hmem
      exact List.not_mem_nil hmem
  · intro hsome
    by_contra hroom
    obtain ⟨hne, hkeys, hunused⟩ : n ≠ dir ∧ (¬ ∃ r, r ≠ d ∧ slotKey (s.inode r) = some (dev, n)) ∧
        ¬ ∃ r ∈ s.unused_inodes, r ≠ d := by
      unfold Room at hroom
      rw [not_or, not_or] at hroom
      exact hroom
    apply hsome
    rw [slotFor_eq_none]
    constructor
    · apply List.find?_eq_none.mpr
      intro q hq hnamed
      rw [decide_eq_true_eq] at hnamed
      by_cases he : q = d
      · rw [he, (opened_inode_self hd).1] at hnamed
        exact hne hnamed.1.symm
      · rw [opened_inode_of_ne hd he] at hnamed
        have hnum := ((hl.hashed _ q).mp ((mem_opened_hash hd he).mp hq)).1
        exact hkeys ⟨q, he, slotKey_eq_some.mpr ⟨hnum, hnamed.2, hnamed.1⟩⟩
    · apply List.eq_nil_iff_forall_not_mem.mpr
      intro q hq
      obtain ⟨hqd, hmem⟩ := (mem_opened_unused hl hd).mp hq
      exact hunused ⟨q, hmem, hqd⟩

/-- The directory stays in its slot. -/
theorem opened_inode_directory (hl : Linked s) (hd : slotFor s dev dir = some d)
    (hinode : t.inode = (opened s d dev dir).inode)
    (hunused : t.unused_inodes = (opened s d dev dir).unused_inodes)
    (hr : slotFor t dev n = some r) :
    ((opened t r dev n).inode d).i_num = dir ∧ ((opened t r dev n).inode d).i_dev = dev := by
  have hself := opened_inode_self hd
  rw [← hinode] at hself
  by_cases he : d = r
  · have hn : n = dir := by
      rcases opened_cases hr with ⟨hsearch, _⟩ | ⟨_, hhead, _⟩
      · have hnamed := named_of_searchHash hsearch
        rw [← he, hself.1] at hnamed
        exact hnamed.1.symm
      · rw [hunused] at hhead
        have hmem := (mem_opened_unused hl hd).mp (List.mem_of_mem_head? hhead)
        exact absurd he.symm hmem.1
    have hnamed := opened_inode_self hr
    rw [← he, hn] at hnamed
    rw [← he, hn]
    exact hnamed
  · rw [opened_inode_of_ne hr he]
    exact hself

/-! ## The entry -/

/-- `search_dir` makes the entry it is asked for, or refuses and leaves the directory as it is.
The inode of the directory keeps its name and its link count. -/
structure Enters (env : Environment p) : Prop where
  made : ∀ entries string numb,
    (env.search_dir entries string (some numb) .ENTER).answer = .OK →
    (env.search_dir entries string (some numb) .ENTER).entries.Perm ((string, numb) :: entries)
  refused : ∀ entries string numb,
    (env.search_dir entries string (some numb) .ENTER).answer ≠ .OK →
    (env.search_dir entries string (some numb) .ENTER).entries = entries
  dirp : ∀ entries string numb rip,
    SameLinks ((env.search_dir entries string (some numb) .ENTER).dirp rip) rip ∧
      ((env.search_dir entries string (some numb) .ENTER).dirp rip).i_nlinks = rip.i_nlinks

/-- The names and the link counts of two inodes are the same. -/
structure SameCount (a b : Inode p) : Prop where
  i_num : a.i_num = b.i_num
  i_dev : a.i_dev = b.i_dev
  i_nlinks : a.i_nlinks = b.i_nlinks

/-- The state after the entry was asked for. -/
def afterEnter (env : Environment p) (s : State p) (d : Slot p) (string : Name) (numb : UInt32) :
    State p :=
  (searchDir env s d string (some numb) .ENTER).2.2

/-- Only the inode of the directory is assigned to, by `search_dir` and when it is written. -/
theorem searchDir_inode (env : Environment p) (s : State p) (d q : Slot p) (string : Name)
    (n : Option UInt32) (flag : Flag) :
    (searchDir env s d string n flag).2.2.inode q =
      if q = d then
        if (env.search_dir (s.directories (s.inode d).i_dev (s.inode d).i_num) string n
            flag).written then
          markClean (stamp env.clock_time ((env.search_dir (s.directories (s.inode d).i_dev
            (s.inode d).i_num) string n flag).dirp (s.inode d)))
        else (env.search_dir (s.directories (s.inode d).i_dev (s.inode d).i_num) string n
          flag).dirp (s.inode d)
      else s.inode q := by
  unfold searchDir
  dsimp only
  split_ifs with hwritten hq hq
  · rw [writing_inode, if_pos hq, inode_modify_self]
    rfl
  · rw [writing_inode, if_neg hq]
    exact (inode_modify _ q d _).trans (if_neg hq)
  · exact (inode_modify _ q d _).trans (if_pos hq)
  · exact (inode_modify _ q d _).trans (if_neg hq)

theorem sameCount_afterEnter (h : Enters env) (s : State p) (d q : Slot p) (string : Name)
    (numb : UInt32) :
    SameCount ((afterEnter env s d string numb).inode q) (s.inode q) := by
  have hdirp := h.dirp (s.directories (s.inode d).i_dev (s.inode d).i_num) string numb (s.inode d)
  unfold afterEnter
  rw [searchDir_inode]
  split_ifs with hq
  · rw [hq, stamp_fields]
    exact ⟨hdirp.1.i_num, hdirp.1.i_dev, hdirp.2⟩
  · rw [hq]
    exact ⟨hdirp.1.i_num, hdirp.1.i_dev, hdirp.2⟩
  · exact ⟨rfl, rfl, rfl⟩

theorem afterEnter_rest (env : Environment p) (s : State p) (d : Slot p) (string : Name)
    (numb : UInt32) :
    (afterEnter env s d string numb).imap = s.imap ∧
      (afterEnter env s d string numb).hash_inodes = s.hash_inodes ∧
      (afterEnter env s d string numb).directories (s.inode d).i_dev (s.inode d).i_num =
        (env.search_dir (s.directories (s.inode d).i_dev (s.inode d).i_num) string (some numb)
          .ENTER).entries := by
  have hentries : ∀ entries, (s.setDirectory (s.inode d).i_dev (s.inode d).i_num
      entries).directories (s.inode d).i_dev (s.inode d).i_num = entries := by
    intro entries
    unfold State.setDirectory
    simp
  unfold afterEnter searchDir
  dsimp only
  split_ifs
  · rw [writing_eq]
    exact ⟨rfl, rfl, hentries _⟩
  · exact ⟨rfl, rfl, hentries _⟩

/-! ## All or nothing -/

/-- The report of a request: an error is a negative number. -/
def succeeded : Errno → Bool
  | .OK => true
  | .other code => 0 ≤ code
  | _ => false

/-- The inode is recovered: its bit is set and no other one, the directory has one entry more, and
the inode one link more. -/
structure Recovered (m : Message) (s t : State p) : Prop where
  was_clear : s.imap m.REQ_DEV m.REQ_INODE_NR = false
  imap : t.imap = (s.setBit m.REQ_DEV m.REQ_INODE_NR true).imap
  entry : ∃ name, (t.directories m.REQ_DEV m.REQ_DIR_INO).Perm
    ((name, m.REQ_INODE_NR) :: s.directories m.REQ_DEV m.REQ_DIR_INO)
  links : (linkCount t m.REQ_DEV m.REQ_INODE_NR).toNat =
    (linkCount s m.REQ_DEV m.REQ_INODE_NR).toNat + 1

structure Unchanged (m : Message) (s t : State p) : Prop where
  imap : t.imap = s.imap
  directory : t.directories m.REQ_DEV m.REQ_DIR_INO = s.directories m.REQ_DEV m.REQ_DIR_INO
  links : ∀ dev numb, linkCount t dev numb = linkCount s dev numb

def AllOrNothing (m : Message) (s : State p) : Except Stop (Errno × State p) → Prop
  | .ok (r, t) =>
      (succeeded r = true ∧ Recovered m s t) ∨ (succeeded r = false ∧ Unchanged m s t)
  | .error _ => False

/-- Nothing is refused to the request once its directory is in this slot, and that displaces no
inode whose links are not on disk. -/
structure Recoverable (env : Environment p) (m : Message) (s : State p) (d : Slot p) : Prop where
  room : Room s d m.REQ_DEV m.REQ_DIR_INO m.REQ_INODE_NR
  number : m.REQ_INODE_NR ≠ NO_BIT
  bit : env.alloc_bit (s.imap m.REQ_DEV) m.REQ_INODE_NR = m.REQ_INODE_NR
  entry : (env.search_dir (s.directories m.REQ_DEV m.REQ_DIR_INO) "test.c" (some m.REQ_INODE_NR)
    .ENTER).answer = .OK
  below : linkCount s m.REQ_DEV m.REQ_INODE_NR ≠ 65535
  kept : linkCount (displaced s d m.REQ_DEV m.REQ_DIR_INO) m.REQ_DEV m.REQ_INODE_NR =
    linkCount s m.REQ_DEV m.REQ_INODE_NR

variable {m : Message}

def announced (s : State p) : State p := s.print "Entering System call recover: success\n" []

theorem fsRecover_noSlot (h : slotFor s m.REQ_DEV m.REQ_DIR_INO = none) :
    fsRecover env m s = .ok (.ENOENT, (announced s).countMiss.setError .ENFILE) := by
  have hnone : slotFor (announced s) m.REQ_DEV m.REQ_DIR_INO = none := h
  have hdir : getInode env (announced s) m.REQ_DEV m.REQ_DIR_INO =
      (none, (announced s).countMiss.setError .ENFILE) := getInode_noSlot hnone
  unfold announced at hdir ⊢
  unfold fsRecover
  simp only [hdir]

/-- The state in which the slot for the inode is looked for. -/
def claiming (env : Environment p) (m : Message) (s : State p) (d : Slot p) : State p :=
  claimed env (opened (announced s) d m.REQ_DEV m.REQ_DIR_INO) m.REQ_DEV m.REQ_INODE_NR

theorem linked_announced (hl : Linked s) : Linked (announced s) :=
  hl.of_eq rfl rfl rfl

/-- Only a bit is changed since the directory was opened. -/
theorem claiming_eq (env : Environment p) (m : Message) (s : State p) (d : Slot p) :
    claiming env m s d =
      { opened (announced s) d m.REQ_DEV m.REQ_DIR_INO with imap := (claiming env m s d).imap } :=
  claimed_eq env _ m.REQ_DEV m.REQ_INODE_NR

theorem slotFor_claiming (env : Environment p) (m : Message) (s : State p) (d : Slot p) :
    slotFor (claiming env m s d) m.REQ_DEV m.REQ_INODE_NR =
      slotFor (opened (announced s) d m.REQ_DEV m.REQ_DIR_INO) m.REQ_DEV m.REQ_INODE_NR := by
  rw [claiming_eq]
  rfl

theorem linkCount_claiming (env : Environment p) (m : Message) (s : State p) (d : Slot p) :
    linkCount (claiming env m s d) m.REQ_DEV m.REQ_INODE_NR =
      linkCount (opened (announced s) d m.REQ_DEV m.REQ_DIR_INO) m.REQ_DEV m.REQ_INODE_NR := by
  rw [claiming_eq]
  rfl

theorem imap_claiming (env : Environment p) (m : Message) (s : State p) (d : Slot p) :
    (claiming env m s d).imap =
      if env.alloc_bit (s.imap m.REQ_DEV) m.REQ_INODE_NR = NO_BIT then s.imap
      else (s.setBit m.REQ_DEV (env.alloc_bit (s.imap m.REQ_DEV) m.REQ_INODE_NR) true).imap := by
  have hsame : (opened (announced s) d m.REQ_DEV m.REQ_DIR_INO).imap = s.imap :=
    (opened_rest (announced s) d m.REQ_DEV m.REQ_DIR_INO).1
  unfold claiming claimed allocBit State.setBit
  dsimp only
  rw [hsame]
  split_ifs
  · exact hsame
  · rfl

theorem loose_claiming (hl : Linked s) (hd : slotFor s m.REQ_DEV m.REQ_DIR_INO = some d)
    (env : Environment p) :
    ∀ q ∈ (claiming env m s d).unused_inodes, Loose (claiming env m s d) q := by
  intro q hq
  rw [claiming_eq] at hq ⊢
  exact loose_opened (linked_announced hl) hd hq

theorem getInode_directory (hl : Linked s) (hd : slotFor s m.REQ_DEV m.REQ_DIR_INO = some d)
    (env : Environment p) :
    getInode env (announced s) m.REQ_DEV m.REQ_DIR_INO =
      (some d, opened (announced s) d m.REQ_DEV m.REQ_DIR_INO) :=
  getInode_slot hd fun q _ => hl.loose q

/-- Without a slot for the inode the pointer is NULL when the link is counted. -/
theorem fsRecover_stop (hl : Linked s) (hd : slotFor s m.REQ_DEV m.REQ_DIR_INO = some d)
    (hr : slotFor (claiming env m s d) m.REQ_DEV m.REQ_INODE_NR = none) :
    fsRecover env m s = .error .nullPointer := by
  have hdir := getInode_directory hl hd env
  have hnone : getInode env (claiming env m s d) m.REQ_DEV m.REQ_INODE_NR =
      (none, (claiming env m s d).countMiss.setError .ENFILE) := getInode_noSlot hr
  have hretrieve := retrieveInode_none hnone
  unfold announced at hdir hretrieve
  unfold fsRecover
  simp only [hdir, hretrieve]
  split_ifs
  · rfl
  · rfl

/-- The state in which the entry is asked for. -/
def relinked (env : Environment p) (m : Message) (s : State p) (d r : Slot p) (log : List Event) :
    State p :=
  { (opened (claiming env m s d) r m.REQ_DEV m.REQ_INODE_NR) with log := log }.modify r relink

theorem fsRecover_done (hl : Linked s) (hd : slotFor s m.REQ_DEV m.REQ_DIR_INO = some d)
    (hr : slotFor (claiming env m s d) m.REQ_DEV m.REQ_INODE_NR = some r) :
    ∃ log, fsRecover env m s =
      .ok (.other 1, afterEnter env (relinked env m s d r log) d "test.c" m.REQ_INODE_NR) := by
  have hdir := getInode_directory hl hd env
  obtain ⟨log, hretrieve⟩ := retrieveInode_some (getInode_slot hr (loose_claiming hl hd env))
  have hnumber : ((relinked env m s d r log).inode r).i_num = m.REQ_INODE_NR := by
    unfold relinked
    rw [inode_modify_self]
    exact (opened_inode_self hr).1
  refine ⟨log, ?_⟩
  unfold announced at hdir hretrieve
  unfold fsRecover
  simp only [hdir, hretrieve]
  change Except.ok (Errno.other 1, (searchDir env (relinked env m s d r log) d "test.c"
    (some ((relinked env m s d r log).inode r).i_num) .ENTER).2.2) = _
  rw [hnumber]
  rfl

/-! ## What it leaves -/

variable {log : List Event}

theorem relinked_inode (env : Environment p) (m : Message) (s : State p) (d r q : Slot p)
    (log : List Event) :
    (relinked env m s d r log).inode q =
      if q = r then relink ((opened (claiming env m s d) r m.REQ_DEV m.REQ_INODE_NR).inode r)
      else (opened (claiming env m s d) r m.REQ_DEV m.REQ_INODE_NR).inode q :=
  inode_modify _ q r relink

theorem relinked_rest (env : Environment p) (m : Message) (s : State p) (d r : Slot p)
    (log : List Event) :
    (relinked env m s d r log).imap = (claiming env m s d).imap ∧
      (relinked env m s d r log).directories = s.directories := by
  have hsecond := opened_rest (claiming env m s d) r m.REQ_DEV m.REQ_INODE_NR
  have hfirst := opened_rest (announced s) d m.REQ_DEV m.REQ_DIR_INO
  have hdirectories : (claiming env m s d).directories = s.directories := by
    rw [claiming_eq]
    exact hfirst.2.2
  exact ⟨hsecond.1, hsecond.2.2.trans hdirectories⟩

theorem searchHash_relinked
    (hr : slotFor (claiming env m s d) m.REQ_DEV m.REQ_INODE_NR = some r) :
    searchHash (relinked env m s d r log) m.REQ_DEV m.REQ_INODE_NR = some r := by
  rw [← searchHash_opened_self hr]
  refine searchHash_congr rfl fun q => ?_
  rw [relinked_inode]
  split_ifs with hq
  · rw [hq]
    exact ⟨rfl, rfl⟩
  · exact ⟨rfl, rfl⟩

theorem relinked_directory (hl : Linked s) (hd : slotFor s m.REQ_DEV m.REQ_DIR_INO = some d)
    (hr : slotFor (claiming env m s d) m.REQ_DEV m.REQ_INODE_NR = some r) :
    ((relinked env m s d r log).inode d).i_num = m.REQ_DIR_INO ∧
      ((relinked env m s d r log).inode d).i_dev = m.REQ_DEV := by
  have hinode : (claiming env m s d).inode =
      (opened (announced s) d m.REQ_DEV m.REQ_DIR_INO).inode := by
    rw [claiming_eq]
  have hunused : (claiming env m s d).unused_inodes =
      (opened (announced s) d m.REQ_DEV m.REQ_DIR_INO).unused_inodes := by
    rw [claiming_eq]
  have hstays := opened_inode_directory (linked_announced hl) hd hinode hunused hr
  rw [relinked_inode]
  split_ifs with he
  · rw [← he]
    rw [← he] at hstays
    exact hstays
  · exact hstays

theorem linkCount_relinked (hl : Linked s) (hdev : m.REQ_DEV ≠ NO_DEV)
    (hd : slotFor s m.REQ_DEV m.REQ_DIR_INO = some d)
    (hr : slotFor (claiming env m s d) m.REQ_DEV m.REQ_INODE_NR = some r) :
    linkCount (relinked env m s d r log) m.REQ_DEV m.REQ_INODE_NR =
      linkCount (displaced s d m.REQ_DEV m.REQ_DIR_INO) m.REQ_DEV m.REQ_INODE_NR + 1 := by
  have hopened : ((opened (claiming env m s d) r m.REQ_DEV m.REQ_INODE_NR).inode r).i_nlinks =
      linkCount (displaced (announced s) d m.REQ_DEV m.REQ_DIR_INO) m.REQ_DEV m.REQ_INODE_NR := by
    rw [← linkCount_some (searchHash_opened_self hr), linkCount_opened_self hdev hr,
      linkCount_claiming, linkCount_opened (linked_announced hl) hdev hd]
  have hdisplaced : linkCount (displaced (announced s) d m.REQ_DEV m.REQ_DIR_INO) m.REQ_DEV
      m.REQ_INODE_NR = linkCount (displaced s d m.REQ_DEV m.REQ_DIR_INO) m.REQ_DEV
      m.REQ_INODE_NR := by
    have hsame : searchHash (announced s) m.REQ_DEV m.REQ_DIR_INO =
        searchHash s m.REQ_DEV m.REQ_DIR_INO := rfl
    unfold displaced
    rw [hsame]
    split_ifs
    · rfl
    · rfl
  rw [linkCount_some (searchHash_relinked hr), relinked_inode, if_pos rfl, ← hdisplaced, ← hopened]
  rfl

theorem linkCount_afterEnter (henter : Enters env) (string : Name)
    (h : searchHash s dev numb = some r) :
    linkCount (afterEnter env s d string n) dev numb = linkCount s dev numb := by
  have hsame := fun q => sameCount_afterEnter henter s d q string n
  have hsearch : searchHash (afterEnter env s d string n) dev numb = searchHash s dev numb :=
    searchHash_congr (afterEnter_rest env s d string n).2.1 fun q => ⟨(hsame q).i_num, (hsame q).i_dev⟩
  rw [linkCount_some h, linkCount_some (hsearch.trans h), (hsame r).i_nlinks]

/-- Exactly if that is the bit, a bit that was clear is set and no other one is changed. -/
theorem setBit_eq_iff {b : UInt32} (hclear : b ≠ NO_BIT → s.imap dev b = false) :
    (s.imap dev n = false ∧ (if b = NO_BIT then s.imap else (s.setBit dev b true).imap) =
      (s.setBit dev n true).imap) ↔ n ≠ NO_BIT ∧ b = n := by
  constructor
  · rintro ⟨hwas, heq⟩
    have hset : (s.setBit dev n true).imap dev n = true := by
      rw [imap_setBit]
      exact if_pos ⟨rfl, rfl⟩
    rw [← heq] at hset
    split_ifs at hset with hb
    · rw [hwas] at hset
      cases hset
    · have he : b = n := by
        by_contra hne
        rw [imap_setBit, if_neg fun h => hne h.2.symm, hwas] at hset
        cases hset
      exact ⟨he ▸ hb, he⟩
  · rintro ⟨hn, he⟩
    rw [he] at hclear ⊢
    exact ⟨hclear hn, if_neg hn⟩

/-- A count that is not the last one goes up by one. -/
theorem toNat_add_one_iff {a b : UInt16} :
    (a + 1).toNat = b.toNat + 1 ↔ b ≠ 65535 ∧ a = b := by
  have ha := a.toNat_lt
  have hadd : (a + 1).toNat = (a.toNat + 1) % 65536 := UInt16.toNat_add a 1
  have hlast : b = 65535 ↔ b.toNat = 65535 := UInt16.toNat_inj.symm
  have heq : a = b ↔ a.toNat = b.toNat := UInt16.toNat_inj.symm
  rw [hadd, Ne, hlast, heq]
  omega

/-- The entry is in the directory exactly if `search_dir` made it. -/
theorem entry_iff (h : Enters env) (entries : Directory) (string : Name) :
    (∃ name, (env.search_dir entries string (some n) .ENTER).entries.Perm
      ((name, n) :: entries)) ↔ (env.search_dir entries string (some n) .ENTER).answer = .OK := by
  constructor
  · rintro ⟨name, hperm⟩
    by_contra hrefused
    rw [h.refused entries string n hrefused] at hperm
    have hlength := hperm.length_eq
    rw [List.length_cons] at hlength
    omega
  · exact fun hmade => ⟨string, h.made entries string n hmade⟩

/-- What `fs_recover` leaves behind is the inode recovered, exactly if nothing was refused. -/
theorem recovered_iff (hl : Linked s) (hdev : m.REQ_DEV ≠ NO_DEV)
    (hclear : FindsClear env s m.REQ_DEV) (henter : Enters env)
    (hd : slotFor s m.REQ_DEV m.REQ_DIR_INO = some d)
    (hr : slotFor (claiming env m s d) m.REQ_DEV m.REQ_INODE_NR = some r) (log : List Event) :
    Recovered m s (afterEnter env (relinked env m s d r log) d "test.c" m.REQ_INODE_NR) ↔
      Recoverable env m s d := by
  have hroom := room_iff (n := m.REQ_INODE_NR) (linked_announced hl) hd
  rw [← slotFor_claiming env m s d, hr] at hroom
  have hrest := relinked_rest env m s d r log
  obtain ⟨himap, _, hentries⟩ :=
    afterEnter_rest env (relinked env m s d r log) d "test.c" m.REQ_INODE_NR
  have hnamed : ((relinked env m s d r log).inode d).i_num = m.REQ_DIR_INO ∧
      ((relinked env m s d r log).inode d).i_dev = m.REQ_DEV := relinked_directory hl hd hr
  rw [hnamed.1, hnamed.2, hrest.2] at hentries
  rw [hrest.1, imap_claiming] at himap
  have hlinks : linkCount (afterEnter env (relinked env m s d r log) d "test.c" m.REQ_INODE_NR)
      m.REQ_DEV m.REQ_INODE_NR =
      linkCount (displaced s d m.REQ_DEV m.REQ_DIR_INO) m.REQ_DEV m.REQ_INODE_NR + 1 := by
    rw [linkCount_afterEnter henter "test.c" (searchHash_relinked hr)]
    exact linkCount_relinked hl hdev hd hr
  have hbit := setBit_eq_iff (n := m.REQ_INODE_NR) (hclear.clear m.REQ_INODE_NR)
  have hentry := entry_iff (n := m.REQ_INODE_NR) henter
    (s.directories m.REQ_DEV m.REQ_DIR_INO) "test.c"
  rw [← himap] at hbit
  rw [← hentries] at hentry
  constructor
  · intro h
    obtain ⟨hnumber, hanswer⟩ := hbit.mp ⟨h.was_clear, h.imap⟩
    have hcount := h.links
    rw [hlinks, toNat_add_one_iff] at hcount
    exact ⟨hroom.mpr nofun, hnumber, hanswer, hentry.mp h.entry, hcount.1, hcount.2⟩
  · intro h
    obtain ⟨hwas, hset⟩ := hbit.mpr ⟨h.number, h.bit⟩
    refine ⟨hwas, hset, hentry.mpr h.entry, ?_⟩
    rw [hlinks]
    exact toNat_add_one_iff.mpr ⟨h.below, h.kept⟩

/-- `fs_recover` does all or nothing exactly if its directory cannot be opened, or nothing is
refused to it after that. -/
theorem fs_recover_iff (hl : Linked s) (hdev : m.REQ_DEV ≠ NO_DEV)
    (hclear : FindsClear env s m.REQ_DEV) (henter : Enters env) :
    AllOrNothing m s (fsRecover env m s) ↔
      ∀ d, slotFor s m.REQ_DEV m.REQ_DIR_INO = some d → Recoverable env m s d := by
  cases hd : slotFor s m.REQ_DEV m.REQ_DIR_INO with
  | none =>
      rw [fsRecover_noSlot hd]
      constructor
      · exact fun _ d hnot => nomatch hnot
      · intro _
        right
        exact ⟨rfl, rfl, rfl, fun _ _ => rfl⟩
  | some d =>
      cases hr : slotFor (claiming env m s d) m.REQ_DEV m.REQ_INODE_NR with
      | none =>
          have hroom := room_iff (n := m.REQ_INODE_NR) (linked_announced hl) hd
          rw [← slotFor_claiming env m s d] at hroom
          rw [fsRecover_stop hl hd hr]
          constructor
          · exact fun hnot => hnot.elim
          · intro hall
            exact absurd hr (hroom.mp (hall d rfl).room)
      | some r =>
          obtain ⟨log, hdone⟩ := fsRecover_done hl hd hr
          have hiff := recovered_iff hl hdev hclear henter hd hr log
          rw [hdone]
          constructor
          · rintro (⟨_, hrecovered⟩ | ⟨hfailed, _⟩) q hq
            · cases hq
              exact hiff.mp hrecovered
            · cases hfailed
          · intro hall
            left
            exact ⟨rfl, hiff.mpr (hall d rfl)⟩

theorem enters_small : Enters smallEnvironment := by
  constructor
  · intro entries string numb _
    exact List.perm_append_singleton (string, numb) entries
  · intro entries string numb hrefused
    exact absurd rfl hrefused
  · intro entries string numb rip
    exact ⟨⟨rfl, rfl, rfl, rfl⟩, rfl⟩

/-- The request for this inode to be recovered into the root directory. -/
def recoverMessage (numb : UInt32) : Message :=
  { fs_dev := 1, REQ_DEV := 1, REQ_INODE_NR := numb, REQ_DIR_INO := 1, copied := .OK,
    string := "test.c" }

theorem fs_recover_small :
    AllOrNothing (recoverMessage 2) mounted (fsRecover smallEnvironment (recoverMessage 2) mounted) := by
  have hdev : (recoverMessage 2).REQ_DEV ≠ NO_DEV := by decide
  apply (fs_recover_iff linked_mounted hdev (findsClear_small mounted 1) enters_small).mpr
  intro d hd
  have hslot : slotFor mounted 1 1 = some slot1 := by decide
  have he : some slot1 = some d := hslot.symm.trans hd
  cases he
  constructor
  · right
    right
    exact ⟨slot0, by decide, by decide⟩
  · decide
  · decide
  · rfl
  · decide
  · decide

/-- Asked for an inode whose bit is not the lowest clear one, it sets another bit. -/
theorem fs_recover_fails :
    ¬ AllOrNothing (recoverMessage 3) mounted
      (fsRecover smallEnvironment (recoverMessage 3) mounted) := by
  intro h
  have hcall : ((fsRecover smallEnvironment (recoverMessage 3) mounted).map fun out =>
      (succeeded out.1, out.2.imap 1 3)).toOption = some (true, false) := by decide
  cases houtcome : fsRecover smallEnvironment (recoverMessage 3) mounted with
  | error stop =>
      rw [houtcome] at h
      exact h
  | ok out =>
      rw [houtcome] at h hcall
      obtain ⟨r, t⟩ := out
      obtain ⟨hreport, hbit⟩ := Prod.mk.inj (Option.some.inj hcall)
      rcases h with ⟨_, hrecovered⟩ | ⟨hfailed, _⟩
      · have hset := congrFun (congrFun hrecovered.imap 1) 3
        rw [imap_setBit] at hset
        change t.imap 1 3 = true at hset
        rw [hbit] at hset
        cases hset
      · change succeeded r = true at hreport
        rw [hreport] at hfailed
        cases hfailed

end MinixOS.RecoverAtomicity
