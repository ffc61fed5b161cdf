import Mathlib.Algebra.BigOperators.Fin
import MinixOS.DirectoryMoves
import MinixOS.InodeZones
import MinixOS.RecoverAtomicity

/-!
# Link counts

An inode counts its links, and each of them is an entry of some directory. The functions of
link.c make or delete an entry first and count afterwards, and in between they may fail. Where
they do not, the count is right again. So it is right whenever a request comes to its end.

The records of a V1 device hold the count in eight bits, so it is right up to multiples of 256
there.
-/
namespace MinixOS.LinkCounts
open LoopExecution SystemRuns InodeState InodeCopy InodeCache WriteBackCache InodeView InodeRelease
  InodeAllocation InodeSystem InodeCoherence InodeZones LinkCalls LinkCoherence LinkSystem
  RecoverAtomicity DirectoryCalls LinkReferences DirectoryTree RequestRuns DirectoryMoves
open CheckedExecution hiding Stop

variable {p : Platform} {s t start : State p} {q r : Slot p} {l others : List (Slot p)}
  {env : Environment p} {hdr : Headers} {dev : Dev} {numb : UInt32} {string : Name}

/-! ## Counting entries -/

/-- The entries that name an inode, in all directories. -/
def linksTo (D : UInt32 → Directory) (numb : UInt32) : ℕ :=
  ∑ dir : UInt32, (D dir).countP fun e => e.2 = numb

theorem countP_inserted {e : Name × UInt32} {before after : Directory} (h : Inserted e before after)
    (numb : UInt32) : after.countP (fun e => e.2 = numb) =
      before.countP (fun e => e.2 = numb) + if e.2 = numb then 1 else 0 := by
  obtain ⟨front, back, rfl, rfl⟩ := h
  rw [List.countP_append, List.countP_append, List.countP_cons]
  simp only [decide_eq_true_eq]
  omega

/-- A directory without entries that name the inode is emptied. -/
theorem linksTo_cleared {d : Dev} {dir : UInt32}
    (h : d = dev → ∀ entry ∈ s.directories d dir, entry.2 ≠ numb) :
    linksTo ((s.setDirectory dev dir []).directories d) numb = linksTo (s.directories d) numb := by
  unfold linksTo
  apply Finset.sum_congr rfl
  intro n _
  rw [directories_setDirectory]
  split_ifs with hcleared
  · obtain ⟨hd, rfl⟩ := hcleared
    rw [List.countP_nil, eq_comm, List.countP_eq_zero]
    intro entry hentry he
    exact h hd entry hentry (of_decide_eq_true he)
  · rfl

/-- One directory gets one entry more. -/
theorem linksTo_inserted {D D' : UInt32 → Directory} {dir : UInt32} {e : Name × UInt32}
    (h : Inserted e (D dir) (D' dir)) (hother : ∀ m, m ≠ dir → D' m = D m) (numb : UInt32) :
    linksTo D' numb = linksTo D numb + if e.2 = numb then 1 else 0 := by
  have hrest : ∑ m ∈ Finset.univ.erase dir, (D' m).countP (fun e => e.2 = numb) =
      ∑ m ∈ Finset.univ.erase dir, (D m).countP (fun e => e.2 = numb) := by
    apply Finset.sum_congr rfl
    intro m hm
    rw [hother m (Finset.ne_of_mem_erase hm)]
  unfold linksTo
  rw [← Finset.add_sum_erase _ _ (Finset.mem_univ dir), hrest, countP_inserted h,
    ← Finset.add_sum_erase _ (fun m => (D m).countP fun e => e.2 = numb) (Finset.mem_univ dir)]
  omega

/-- The inode `numb` of a device has one link more, and all others as many as before. -/
structure OneMore (dev : Dev) (numb : UInt32) (D D' : Dev → UInt32 → Directory) : Prop where
  self : linksTo (D' dev) numb = linksTo (D dev) numb + 1
  other : ∀ d n, (d, n) ≠ (dev, numb) → linksTo (D' d) n = linksTo (D d) n

/-- One directory of the device gets one entry more. -/
theorem oneMore_inserted {D D' : Dev → UInt32 → Directory} {dir : UInt32}
    (h : Inserted (string, numb) (D dev dir) (D' dev dir))
    (hother : ∀ d m, ¬ (d = dev ∧ m = dir) → D' d m = D d m) : OneMore dev numb D D' := by
  have hdev := linksTo_inserted h fun m hm => hother dev m fun hplace => hm hplace.2
  constructor
  · rw [hdev, if_pos rfl]
  · intro d n hne
    by_cases hd : d = dev
    · subst hd
      have hn : numb ≠ n := fun heq => hne (by rw [heq])
      rw [hdev, if_neg hn, Nat.add_zero]
    · have hsame : D' d = D d := funext fun m => hother d m fun hplace => hd hplace.1
      rw [hsame]

/-! ## The entry of a name -/

/-- An entry of another name does not matter for what is found. -/
theorem listed_inserted {e : Name × UInt32} {before after : Directory} (h : Inserted e before after)
    (hname : e.1 ≠ string) : listed after string = listed before string := by
  obtain ⟨front, back, rfl, rfl⟩ := h
  have hcons : (e :: back).find? (fun e => e.1 = string ∧ e.2 ≠ NO_ENTRY) =
      back.find? fun e => e.1 = string ∧ e.2 ≠ NO_ENTRY :=
    List.find?_cons_of_neg (by simp [hname])
  unfold listed
  rw [List.find?_append, List.find?_append, hcons]

/-- What `search_dir` and `advance` do with the entries of a directory that may be written, more
exactly: they find the first entry of the name, and where one was deleted there is room again. -/
structure Exact (env : Environment p) : Prop extends Entries env where
  nlinks : ∀ entries string n flag rip,
    ((env.search_dir entries string n flag).dirp rip).i_nlinks = rip.i_nlinks
  number : ∀ entries string n, (env.search_dir entries string n .LOOK_UP).answer = .OK →
    listed entries string = some (string, (env.search_dir entries string n .LOOK_UP).numb)
  first : ∀ entries string numb e, env.advance entries string = .entry numb e →
    listed entries string = some (string, numb)
  entered : ∀ entries string numb, (env.search_dir entries string (some numb) .ENTER).answer = .OK →
    Inserted (string, numb) entries (env.search_dir entries string (some numb) .ENTER).entries
  failed : ∀ entries string numb, (env.search_dir entries string (some numb) .ENTER).answer ≠ .OK →
    (env.search_dir entries string (some numb) .ENTER).entries = entries
  deleted : ∀ entries string n numb, listed entries string = some (string, numb) →
    Inserted (string, numb) (env.search_dir entries string n .DELETE).entries entries
  replaced : ∀ entries string n string' numb, Named entries string →
    (env.search_dir (env.search_dir entries string n .DELETE).entries string' (some numb)
      .ENTER).answer = .OK

theorem named_of_listed {entries : Directory} (h : listed entries string = some (string, numb)) :
    Named entries string := by
  by_contra hnot
  rw [listed_eq_none.mpr hnot] at h
  cases h

/-! ## The count of an inode -/

/-- How far the records of a device can count. -/
def capacity (p : Platform) (dev : Dev) : ℕ :=
  if (p.get_super dev).s_version = .V1 then 256 else 65536

theorem recordLinks_encode (hp : Conversions p) (dev : Dev) (rip : Inode p) :
    (recordLinks dev (encode dev rip)).toNat = rip.i_nlinks.toNat % capacity p dev := by
  unfold encode capacity
  dsimp only
  split_ifs with hversion
  · change rip.i_nlinks.toUInt8.toUInt16.toNat = _
    rw [UInt8.toNat_toUInt16, UInt16.toNat_toUInt8]
  · change (p.conv2 _ (p.conv2 _ rip.i_nlinks)).toNat = _
    rw [hp.conv2, Nat.mod_eq_of_lt rip.i_nlinks.toNat_lt]

/-- The count in a record of the inode `k`. -/
def counted (k l : Dev × UInt32) (rec : Record p) : ℕ :=
  if l = k then (recordLinks l.1 rec).toNat else 0

/-- The entries of the inode `k`. -/
def entered (p : Platform) (k : Dev × UInt32) (D : Dev → UInt32 → Directory) (l : Dev × UInt32) :
    ℕ :=
  if l = k then linksTo (D k.1) k.2 % capacity p k.1 else 0

/-- The count of the inode `k` is the one for these directories, in core and on disk. -/
def Links (k : Dev × UInt32) (D : Dev → UInt32 → Directory) (s : State p) : Prop :=
  Tracks (view s) (Dirty s) (counted k) (entered p k D)

variable {k : Dev × UInt32} {D D' : Dev → UInt32 → Directory}

theorem Links.of_eq (h : Links k D s) (hlinks : linksTo (D' k.1) k.2 = linksTo (D k.1) k.2) :
    Links k D' s := by
  have hentered : entered p k D' = entered p k D := by
    funext l
    unfold entered
    rw [hlinks]
  unfold Links
  rw [hentered]
  exact h

/-- The count on disk and in core is not touched when the times are. -/
theorem timeless_counted (k : Dev × UInt32) : Timeless (counted (p := p) k) := by
  intro l cur_time rip
  have hsame : recordLinks l.1 (encode l.1 (stamp cur_time rip)) =
      recordLinks l.1 (encode l.1 rip) := by
    rw [stamp_fields]
    unfold encode
    dsimp only
    split_ifs
    · rfl
    · rfl
  unfold counted
  rw [hsame]

/-! ## Changes of an inode in use -/

/-- The slot of an inode is changed, and with it the entries that name the inode may change. -/
theorem Links.change (hp : Conversions p) (h : Links k D s) (hs : Single (view s))
    (hkey : slotKey (s.inode r) = some (dev, numb)) {f : Inode p → Inode p}
    (hf : SameLinks (f (s.inode r)) (s.inode r))
    (hcount : (s.inode r).i_nlinks.toNat % capacity p dev = linksTo (D dev) numb % capacity p dev →
      (f (s.inode r)).i_nlinks.toNat % capacity p dev = linksTo (D' dev) numb % capacity p dev)
    (hother : ∀ d n, (d, n) ≠ (dev, numb) → linksTo (D' d) n = linksTo (D d) n)
    {dirty : Slot p → Prop} (hdirty : ∀ q, q ≠ r → (dirty q ↔ Dirty s q))
    (hclean : ¬ dirty r → ¬ Dirty s r ∧ linksTo (D' dev) numb = linksTo (D dev) numb) :
    Tracks (view (s.modify r f)) dirty (counted k) (entered p k D') := by
  have hview := view_assign (t := s.modify r f) (fun q hq => inode_modify_of_ne s f hq) rfl
    (key_modify hf r)
  have hdev : (f (s.inode r)).i_dev = dev := hf.i_dev.trans (slotKey_eq_some.mp hkey).2.1
  rw [inode_modify_self, hdev] at hview
  rw [hview]
  apply Tracks.assign h hs hkey
  · have hheld := Tracks.held h r (dev, numb) hkey
    rw [view_value, (slotKey_eq_some.mp hkey).2.1] at hheld
    unfold counted entered at hheld ⊢
    split_ifs at hheld ⊢ with he
    · subst he
      rw [recordLinks_encode hp] at hheld ⊢
      exact hcount hheld
    · rfl
  · intro l hl
    unfold entered
    split_ifs with he
    · subst he
      rw [hother l.1 l.2 hl]
    · rfl
  · exact hdirty
  · intro hnot
    obtain ⟨hbefore, hsame⟩ := hclean hnot
    refine ⟨hbefore, ?_⟩
    unfold entered
    split_ifs with he
    · subst he
      rw [hsame]
    · rfl

theorem dirty_modify (f : Inode p → Inode p) (hq : q ≠ r) : Dirty (s.modify r f) q ↔ Dirty s q := by
  unfold Dirty
  rw [inode_modify_of_ne s f hq]

/-- The inode of a directory is changed by `search_dir`, which does not count links. -/
theorem Links.searched (hp : Conversions p) (hb : InodesPerBlock p) (h : Links k D s)
    (hs : Single (view s)) (hkey : slotKey (s.inode r) = some (dev, numb)) {dirp : Inode p → Inode p}
    (hf : SameLinks (dirp (s.inode r)) (s.inode r))
    (hnlinks : (dirp (s.inode r)).i_nlinks = (s.inode r).i_nlinks) (written : Bool)
    (hmarks : written = true ∨ Marks dirp (s.inode r)) (cur_time : UInt32) :
    Links k D (if written then rwInode cur_time (s.modify r dirp) r .WRITING
      else s.modify r dirp) := by
  have hchange : ∀ dirty : Slot p → Prop, (∀ q, q ≠ r → (dirty q ↔ Dirty s q)) →
      (¬ dirty r → ¬ Dirty s r) →
        Tracks (view (s.modify r dirp)) dirty (counted k) (entered p k D) := by
    intro dirty hdirty hclean
    refine h.change hp hs hkey hf (fun hcount => ?_) (fun _ _ _ => rfl) hdirty
      fun hnot => ⟨hclean hnot, rfl⟩
    rw [hnlinks]
    exact hcount
  split_ifs with hwritten
  · -- until it is written, the slot counts as dirty
    have hassigned := hchange (fun q => q = r ∨ Dirty s q) (fun q hq => or_iff_right hq)
      fun hnot => absurd (.inl rfl) hnot
    have hkey' : slotKey ((s.modify r dirp).inode r) = some (dev, numb) :=
      (key_modify hf r).trans hkey
    have hheld := hassigned.held r _ hkey'
    rw [view_value, (slotKey_eq_some.mp hkey').2.1] at hheld
    unfold Links
    rw [view_writing hb cur_time _ hkey']
    apply hassigned.save hkey' ((timeless_counted k _ cur_time _).trans hheld)
    intro q hq
    unfold Dirty
    rw [writing_inode, if_neg hq, inode_modify_of_ne s _ hq]
    exact (or_iff_right hq).symm
  · apply hchange _ fun q hq => dirty_modify _ hq
    intro hnot
    unfold Dirty at hnot ⊢
    rw [inode_modify_self] at hnot
    rcases hmarks.resolve_left hwritten with hdirty | ⟨_, hdirt⟩
    · exact absurd hdirty hnot
    · rw [← hdirt]
      exact hnot

/-- The entries may be others afterwards, but none is counted before the call counts it. -/
theorem Links.search (hp : Conversions p) (hb : InodesPerBlock p) (hdoc : Documented env)
    (hexact : Exact env) (h : Links k D s) (hs : Single (view s))
    (hnum : (s.inode r).i_num ≠ NO_ENTRY) (string : Name) (n : Option UInt32) (flag : Flag) :
    Links k D (searchDir env s r string n flag).2.2 := by
  have hkey : slotKey (s.inode r) = some ((s.inode r).i_dev, (s.inode r).i_num) :=
    slotKey_eq_some.mpr ⟨hnum, rfl, rfl⟩
  unfold searchDir
  dsimp only
  generalize s.directories (s.inode r).i_dev (s.inode r).i_num = entries
  exact Links.searched (s := s.setDirectory (s.inode r).i_dev (s.inode r).i_num _) hp hb h hs hkey
    (hdoc.links entries string n flag _) (hexact.nlinks entries string n flag _) _
    (hdoc.marks entries string n flag _) env.clock_time

/-- Another count is marked, if the device may be written. -/
theorem Links.touch (hp : Conversions p) (h : Links k D s) (hs : Single (view s))
    (hkey : slotKey (s.inode r) = some (dev, numb)) (hsp : (s.inode r).i_sp = dev)
    (hrw : (p.get_super dev).s_rd_only = false) {f : Inode p → Inode p}
    (hf : SameLinks (f (s.inode r)) (s.inode r))
    (hcount : (s.inode r).i_nlinks.toNat % capacity p dev = linksTo (D dev) numb % capacity p dev →
      (f (s.inode r)).i_nlinks.toNat % capacity p dev = linksTo (D' dev) numb % capacity p dev)
    (hother : ∀ d n, (d, n) ≠ (dev, numb) → linksTo (D' d) n = linksTo (D d) n) :
    Links k D' (markDirty (s.modify r f) r) := by
  obtain ⟨log, hdirty⟩ := markDirty_eq (s.modify r f) r
  have hsame : SameLinks (dirtied (f (s.inode r))) (s.inode r) :=
    ⟨hf.i_num, hf.i_dev, hf.i_sp, hf.i_count⟩
  have hmarked : Dirty (s.modify r fun rip => dirtied (f rip)) r := by
    change ((s.modify r fun rip => dirtied (f rip)).inode r).i_dirt = .IN_DIRTY
    rw [inode_modify_self]
    unfold dirtied
    dsimp only
    rw [hf.i_sp, hsp, hrw]
    rfl
  have hchange := h.change hp hs hkey (f := fun rip => dirtied (f rip)) hsame hcount hother
    (fun q hq => dirty_modify _ hq) fun hnot => absurd hmarked hnot
  rw [hdirty, modify_modify]
  exact hchange

theorem capacity_cases (p : Platform) (dev : Dev) :
    capacity p dev = 256 ∨ capacity p dev = 65536 := by
  unfold capacity
  split_ifs
  · exact .inl rfl
  · exact .inr rfl

theorem count_succ {n : UInt16} {links : ℕ}
    (h : n.toNat % capacity p dev = links % capacity p dev) :
    (n + 1).toNat % capacity p dev = (links + 1) % capacity p dev := by
  rw [UInt16.toNat_add, UInt16.toNat_one]
  rcases capacity_cases p dev with hcapacity | hcapacity
  · rw [hcapacity] at h ⊢
    omega
  · rw [hcapacity] at h ⊢
    omega

theorem count_pred {n : UInt16} {links : ℕ}
    (h : n.toNat % capacity p dev = (links + 1) % capacity p dev) :
    (n - 1).toNat % capacity p dev = links % capacity p dev := by
  have hlt := n.toNat_lt
  rw [UInt16.toNat_sub, UInt16.toNat_one]
  rcases capacity_cases p dev with hcapacity | hcapacity
  · rw [hcapacity] at h ⊢
    omega
  · rw [hcapacity] at h ⊢
    omega

/-! ## What holds during a request -/

/-- An entry: the directory, the name and the number. -/
structure Entry where
  dir : UInt32
  name : Name
  numb : UInt32

/-- The entry is the one that is found under its name. -/
def Entry.In (e : Entry) (D : UInt32 → Directory) : Prop :=
  listed (D e.dir) e.name = some (e.name, e.numb)

/-- The inodes are where the call wants them, the count of the inode `k` is right, and these entries
are found in the directories. -/
structure Counting (dev : Dev) (k : Dev × UInt32) (found : List Entry)
    (key : Slot p → Option (Dev × UInt32)) (others : List (Slot p)) (s : State p)
    (l : List (Slot p)) : Prop extends Placed dev key others s l where
  links : Links k s.directories s
  found : ∀ e ∈ found, e.In (s.directories dev)

variable {found : List Entry} {key : Slot p → Option (Dev × UInt32)} {l' : List (Slot p)}

/-- What the requests that change entries rely on. -/
structure Writable (env : Environment p) (dev : Dev) : Prop extends Reliable env dev where
  exact : Exact env
  writable : (p.get_super dev).s_rd_only = false

/-- The directories are as before. -/
theorem Counting.next (h : Counting dev k found key others s l)
    (hplaced : Placed dev key others t l') (hlinks : Links k s.directories t)
    (hdirectories : t.directories = s.directories) : Counting dev k found key others t l' := by
  refine ⟨hplaced, ?_, ?_⟩
  · rw [hdirectories]
    exact hlinks
  · rw [hdirectories]
    exact h.found

theorem opening_counting (hrel : Reliable env dev) :
    Opening env (· = dev) others (Counting dev k found key others) where
  linked h := h.linked
  perm h hperm := ⟨h.toPlaced.perm hperm, h.links, h.found⟩
  error e h := h.next (h.toPlaced.error e) h.links rfl
  device h hr := h.device _ hr
  holding h hr := h.ready.holding _ hr
  get {s l dev' numb} h hon hnumb := by
    rw [hon]
    obtain ⟨hacquired, _⟩ := getInode_acquired hrel.conversions h.linked hrel.device hnumb env
    exact h.next (h.toPlaced.get hrel.conversions hrel.device hnumb env)
      (tracks_acquired h.links h.ready.coherent.idle hacquired)
      (directories_getInode h.linked env dev numb)
  put {s l r} h := by
    obtain ⟨t, ht, hplaced⟩ := (h.toPlaced.put hrel.inodes env).exists
    obtain ⟨u, hu, hreleased, _⟩ := putInode_released hrel.inodes h.linked
      (h.held List.mem_cons_self) env
    rw [ht] at hu
    cases hu
    exact results_of_ok ht (h.next hplaced (tracks_released (timeless_counted k) h.links hreleased)
      (putInode_frame ht).1)
  dup {s l r} h hr := h.next (h.toPlaced.dup hr)
    (tracks_kept h.links (.setCount s r ((s.inode r).i_count + 1))) rfl

theorem searched_links (hw : Writable env dev) (h : Placed dev key others s l)
    (hlinks : Links k D s) (hr : r ∈ l ++ others) (string : Name) (n : Option UInt32)
    (flag : Flag) : Links k D (searchDir env s r string n flag).2.2 :=
  hlinks.search hw.conversions hw.inodes hw.documented hw.exact h.ready.coherent.single
    (h.ready.holding r hr).1 string n flag

/-- `search_dir` leaves the entries alone. -/
theorem Counting.look (hw : Writable env dev) (h : Counting dev k found key others s l)
    (hr : r ∈ l ++ others) (string : Name) (n : Option UInt32) {flag : Flag}
    (hflag : flag = .LOOK_UP ∨ flag = .IS_EMPTY) :
    Counting dev k found key others (searchDir env s r string n flag).2.2 l ∧
      (searchDir env s r string n flag).2.2.directories = s.directories := by
  have hsame : ∀ entries, (env.search_dir entries string n flag).entries = entries := by
    intro entries
    rcases hflag with rfl | rfl
    · exact hw.exact.look_up entries string n
    · exact hw.exact.is_empty entries string n
  have hdirectories : (searchDir env s r string n flag).2.2.directories = s.directories := by
    funext d m
    rw [directories_searchDir, hsame]
    split_ifs with hplace
    · rw [hplace.1, hplace.2]
    · rfl
  exact ⟨h.next (h.toPlaced.search hw.inodes hw.documented hr string n flag)
    (searched_links hw h.toPlaced h.links hr string n flag) hdirectories, hdirectories⟩

/-! ## An entry and its count -/

section Pairs
variable {dirp rip : Slot p}

theorem searched_directories (h : Placed dev key others s l) (hdirp : dirp ∈ l ++ others)
    (env : Environment p) (string : Name) (n : Option UInt32) (flag : Flag) (d : Dev) (m : UInt32) :
    (searchDir env s dirp string n flag).2.2.directories d m =
      if d = dev ∧ m = (s.inode dirp).i_num then
        (env.search_dir (s.directories dev (s.inode dirp).i_num) string n flag).entries
      else s.directories d m := by
  rw [directories_searchDir, h.device dirp hdirp]

theorem searched_answer (h : Placed dev key others s l) (hdirp : dirp ∈ l ++ others)
    (env : Environment p) (string : Name) (n : Option UInt32) (flag : Flag) :
    (searchDir env s dirp string n flag).1 =
      (env.search_dir (s.directories dev (s.inode dirp).i_num) string n flag).answer := by
  rw [← h.device dirp hdirp]
  rfl

theorem searched_num (hdoc : Documented env) (h : Placed dev key others s l)
    (hrip : rip ∈ l ++ others) (dirp : Slot p) (string : Name) (n : Option UInt32) (flag : Flag) :
    ((searchDir env s dirp string n flag).2.2.inode rip).i_num = (s.inode rip).i_num :=
  num_of_key (slotKey_searchDir hdoc s dirp string n flag rip) (h.ready.holding rip hrip).1

/-- Other entries are still found where one entry is put in or taken out. -/
theorem found_inserted {D D' : UInt32 → Directory} {dir : UInt32}
    (hinserted : Inserted (string, numb) (D dir) (D' dir)) (hother : ∀ m, m ≠ dir → D' m = D m)
    {e : Entry} (hfree : e.dir = dir → string ≠ e.name) : e.In D' ↔ e.In D := by
  unfold Entry.In
  by_cases hdir : e.dir = dir
  · rw [hdir, listed_inserted hinserted (hfree hdir)]
  · rw [hother e.dir hdir]

theorem touched_links (hp : Conversions p) (hrw : (p.get_super dev).s_rd_only = false)
    (h : Placed dev key others s l) (hrip : rip ∈ l ++ others) (hlinks : Links k D s)
    {f : Inode p → Inode p} (hf : SameLinks (f (s.inode rip)) (s.inode rip))
    (hcount : (s.inode rip).i_nlinks.toNat % capacity p dev =
        linksTo (D dev) (s.inode rip).i_num % capacity p dev →
      (f (s.inode rip)).i_nlinks.toNat % capacity p dev =
        linksTo (D' dev) (s.inode rip).i_num % capacity p dev)
    (hother : ∀ d n, (d, n) ≠ (dev, (s.inode rip).i_num) → linksTo (D' d) n = linksTo (D d) n) :
    Links k D' (markDirty (s.modify rip f) rip) := by
  have hattached := (h.linked.attached rip (h.ready.holding rip hrip).1).2
  exact hlinks.touch hp h.ready.coherent.single (h.key_eq hrip)
    (hattached.trans (h.device rip hrip)) hrw hf hcount hother

theorem searched_other (h : Placed dev key others s l) (hdirp : dirp ∈ l ++ others)
    (env : Environment p) (string : Name) (n : Option UInt32) (flag : Flag) {d : Dev} {m : UInt32}
    (hplace : ¬ (d = dev ∧ m = (s.inode dirp).i_num)) :
    (searchDir env s dirp string n flag).2.2.directories d m = s.directories d m := by
  rw [searched_directories h hdirp, if_neg hplace]

theorem enter_inserted (hexact : Exact env) (h : Placed dev key others s l)
    (hdirp : dirp ∈ l ++ others)
    (hok : (searchDir env s dirp string (some numb) .ENTER).1 = .OK) :
    Inserted (string, numb) (s.directories dev (s.inode dirp).i_num)
      ((searchDir env s dirp string (some numb) .ENTER).2.2.directories dev
        (s.inode dirp).i_num) := by
  rw [searched_answer h hdirp] at hok
  rw [searched_directories h hdirp, if_pos ⟨rfl, rfl⟩]
  exact hexact.entered _ string numb hok

theorem enter_failed (hexact : Exact env) (h : Placed dev key others s l)
    (hdirp : dirp ∈ l ++ others)
    (hfailed : (searchDir env s dirp string (some numb) .ENTER).1 ≠ .OK) :
    (searchDir env s dirp string (some numb) .ENTER).2.2.directories = s.directories := by
  rw [searched_answer h hdirp] at hfailed
  funext d m
  rw [searched_directories h hdirp]
  split_ifs with hplace
  · rw [hexact.failed _ string numb hfailed, hplace.1, hplace.2]
  · rfl

theorem delete_inserted (hexact : Exact env) (h : Placed dev key others s l)
    (hdirp : dirp ∈ l ++ others) (n : Option UInt32)
    (hin : Entry.In ⟨(s.inode dirp).i_num, string, numb⟩ (s.directories dev)) :
    (searchDir env s dirp string n .DELETE).1 = .OK ∧
      Inserted (string, numb)
        ((searchDir env s dirp string n .DELETE).2.2.directories dev (s.inode dirp).i_num)
        (s.directories dev (s.inode dirp).i_num) := by
  rw [searched_answer h hdirp, searched_directories h hdirp, if_pos ⟨rfl, rfl⟩]
  exact ⟨(hexact.delete _ string n (named_of_listed hin)).1, hexact.deleted _ string n numb hin⟩

/-- An entry is made, and if it was, it is counted. -/
theorem Counting.enter (hw : Writable env dev) (h : Counting dev k found key others s l)
    (hdirp : dirp ∈ l ++ others) (hrip : rip ∈ l ++ others)
    (hnumb : (s.inode rip).i_num = numb) {f : Inode p → Inode p}
    (hf : ∀ rip, SameLinks (f rip) rip ∧ (f rip).i_nlinks = rip.i_nlinks + 1)
    (hfree : ∀ e ∈ found, e.dir = (s.inode dirp).i_num → string ≠ e.name) :
    Counting dev k found key others
      (if (searchDir env s dirp string (some numb) .ENTER).1 = .OK then
        markDirty ((searchDir env s dirp string (some numb) .ENTER).2.2.modify rip f) rip
      else (searchDir env s dirp string (some numb) .ENTER).2.2) l := by
  have hplaced := h.toPlaced.search hw.inodes hw.documented hdirp string (some numb) .ENTER
  have hlinks := searched_links hw h.toPlaced h.links hdirp string (some numb) .ENTER
  have hnum := searched_num hw.documented h.toPlaced hrip dirp string (some numb) .ENTER
  split_ifs with hok
  · have hinserted := enter_inserted hw.exact h.toPlaced hdirp hok
    have hmore := oneMore_inserted hinserted fun _ _ hplace =>
      searched_other h.toPlaced hdirp env string (some numb) .ENTER hplace
    have hkept : ∀ e ∈ found, e.In
        ((searchDir env s dirp string (some numb) .ENTER).2.2.directories dev) := by
      intro e he
      refine (found_inserted hinserted (fun _ hm => ?_) (hfree e he)).mpr (h.found e he)
      exact searched_other h.toPlaced hdirp env string _ _ fun hplace => hm hplace.2
    generalize (searchDir env s dirp string (some numb) .ENTER).2.2 = u at *
    rw [hnumb] at hnum
    have htouched := touch_frame (hf (u.inode rip)).1
    rw [← htouched.1] at hmore hkept
    refine ⟨hplaced.touch hrip (hf _).1, ?_, hkept⟩
    -- after `search_dir` the count is still that of before, and one entry more is there
    apply touched_links hw.conversions hw.writable hplaced hrip hlinks (hf _).1
    · intro hcount
      rw [(hf _).2, hnum, hmore.self]
      rw [hnum] at hcount
      exact count_succ hcount
    · rw [hnum]
      exact hmore.other
  · exact h.next hplaced hlinks (enter_failed hw.exact h.toPlaced hdirp hok)

/-- The entry of an inode is deleted, and that is counted. -/
theorem Counting.deleteEntry (hw : Writable env dev)
    (h : Counting dev k found key others s (rip :: l)) (hdirp : dirp ∈ l ++ others)
    (hin : Entry.In ⟨(s.inode dirp).i_num, string, (s.inode rip).i_num⟩ (s.directories dev))
    (hfree : ∀ e ∈ found, e.dir = (s.inode dirp).i_num → string ≠ e.name) :
    Succeeds (deleteEntry env s dirp rip string) (Ends (Counting dev k found key others) l) := by
  have hmem : dirp ∈ rip :: l ++ others := List.mem_cons_of_mem rip hdirp
  have hrip : rip ∈ rip :: l ++ others := List.mem_cons_self
  have hplaced := h.toPlaced.search hw.inodes hw.documented hmem string none .DELETE
  have hlinks := searched_links hw h.toPlaced h.links hmem string none .DELETE
  have hnum := searched_num hw.documented h.toPlaced hrip dirp string none .DELETE
  obtain ⟨hok, hinserted⟩ := delete_inserted hw.exact h.toPlaced hmem none hin
  have hother := fun d m (hplace : ¬ (d = dev ∧ m = (s.inode dirp).i_num)) =>
    (searched_other h.toPlaced hmem env string none .DELETE hplace).symm
  have hmore := oneMore_inserted hinserted hother
  have hkept : ∀ e ∈ found,
      e.In ((searchDir env s dirp string none .DELETE).2.2.directories dev) := by
    intro e he
    refine (found_inserted hinserted (fun m hm => ?_) (hfree e he)).mp (h.found e he)
    exact hother dev m fun hplace => hm hplace.2
  unfold LinkCalls.deleteEntry
  generalize searchDir env s dirp string none .DELETE = searched at *
  obtain ⟨e, _, u⟩ := searched
  dsimp only at *
  rw [if_pos hok]
  apply (opening_counting hw.toReliable).put_ends
  have hlinked : SameLinks (dropLink (u.inode rip)) (u.inode rip) := ⟨rfl, rfl, rfl, rfl⟩
  rw [← (touch_frame hlinked).1] at hmore hkept
  refine ⟨hplaced.touch hrip hlinked, ?_, hkept⟩
  apply touched_links hw.conversions hw.writable hplaced hrip hlinks hlinked
  · intro hcount
    rw [hnum] at hcount ⊢
    rw [hmore.self] at hcount
    exact count_pred hcount
  · intro d m hne
    rw [hnum] at hne
    exact (hmore.other d m hne).symm

end Pairs

/-! ## fs_link, unlink and rmdir -/

section Requests
variable {dirp rip : Slot p}

theorem sameLinks_addLink (rip : Inode p) :
    SameLinks (addLink rip) rip ∧ (addLink rip).i_nlinks = rip.i_nlinks + 1 :=
  ⟨⟨rfl, rfl, rfl, rfl⟩, rfl⟩

theorem registers_counting (hw : Writable env dev) :
    Opening.Registers env others (Counting dev k [] key others) string := by
  intro s l rip ip r h hrip hip
  unfold LinkCalls.registerLink
  split_ifs
  · exact h
  · exact h.enter hw hip hrip rfl sameLinks_addLink fun e he => absurd he List.not_mem_nil

theorem Counting.unlinkFile_some (hw : Writable env dev) (h : Counting dev k found key others s l)
    (hdirp : dirp ∈ l ++ others) (hrip : rip ∈ l ++ others)
    (hin : Entry.In ⟨(s.inode dirp).i_num, string, (s.inode rip).i_num⟩ (s.directories dev))
    (hfree : ∀ e ∈ found, e.dir = (s.inode dirp).i_num → string ≠ e.name) :
    Succeeds (unlinkFile env s dirp (some rip) string)
      (Ends (Counting dev k found key others) l) := by
  have hopen : Opening env (· = dev) others (Counting dev k found key others) :=
    opening_counting hw.toReliable
  have hnum : ∀ q, ((dupInode s rip).inode q).i_num = (s.inode q).i_num := by
    intro q
    unfold dupInode
    rw [inode_modify]
    split_ifs with he
    · rw [he]
      rfl
    · rfl
  apply (hopen.dup h hrip).deleteEntry hw hdirp
  · rw [hnum, hnum]
    exact hin
  · rw [hnum]
    exact hfree

/-- The inode is looked up under its name. -/
theorem Counting.unlinkFile_none (hw : Writable env dev) (h : Counting dev k found key others s l)
    (hdirp : dirp ∈ l ++ others)
    (hfree : ∀ e ∈ found, e.dir = (s.inode dirp).i_num → string ≠ e.name) :
    Succeeds (unlinkFile env s dirp none string) (Ends (Counting dev k found key others) l) := by
  have hopen : Opening env (· = dev) others (Counting dev k found key others) :=
    opening_counting hw.toReliable
  obtain ⟨hlooked, hdirectories⟩ := h.look hw hdirp string none (.inl rfl)
  have hnum := searched_num hw.documented h.toPlaced hdirp dirp string none .LOOK_UP
  have hanswer := searched_answer h.toPlaced hdirp env string none .LOOK_UP
  have hnumb : (searchDir env s dirp string none .LOOK_UP).2.1 = (env.search_dir
      (s.directories dev (s.inode dirp).i_num) string none .LOOK_UP).numb := by
    rw [← h.device dirp hdirp]
    rfl
  have hlisted := hw.exact.number (s.directories dev (s.inode dirp).i_num) string none
  have hnonzero := hw.finds.number (s.directories dev (s.inode dirp).i_num) string none
  rw [← hanswer, ← hnumb] at hlisted hnonzero
  unfold LinkCalls.unlinkFile
  generalize searchDir env s dirp string none .LOOK_UP = searched at *
  obtain ⟨r, numb, u⟩ := searched
  dsimp only at *
  have herror := hopen.error r hlooked
  split_ifs with hmissing
  · exact herror
  · have hok := not_not.mp hmissing
    have hget := hopen.get herror (hopen.device herror hdirp) (hnonzero hok)
    have hsame := directories_getInode herror.linked env ((u.setError r).inode dirp).i_dev numb
    have hkey := held_getInode herror.linked (herror.held hdirp) env
      ((u.setError r).inode dirp).i_dev numb
    cases hopened : getInode env (u.setError r) ((u.setError r).inode dirp).i_dev numb with
    | mk rip v =>
        rw [hopened] at hget hsame hkey
        cases rip with
        | none => exact hget
        | some rip =>
            have herr : v.err_code = .OK := (getInode_error herror.linked hopened).trans hok
            have hfound := slotKey_getInode herror.linked (hnonzero hok) hopened
            have hdirp_v : (v.inode dirp).i_num = (s.inode dirp).i_num :=
              (num_of_key hkey (herror.ready.holding dirp hdirp).1).trans hnum
            dsimp only
            rw [if_neg (not_not.mpr herr)]
            apply Counting.deleteEntry hw hget hdirp
            · rw [hdirp_v, (slotKey_eq_some.mp hfound).2.2]
              change Entry.In _ (v.directories dev)
              have hdirectories_v : v.directories = s.directories := hsame.trans hdirectories
              rw [hdirectories_v]
              exact hlisted hok
            · change ∀ e ∈ found, e.dir = (v.inode dirp).i_num → string ≠ e.name
              rw [hdirp_v]
              exact hfree

/-- What `advance` found is an entry for the inode in hand. -/
theorem in_of_names (hexact : Exact env) (h : Placed dev key others s l) (hdirp : dirp ∈ l ++ others)
    (hrip : rip ∈ l ++ others) (hnames : Names env s dirp rip string) :
    Entry.In ⟨(s.inode dirp).i_num, string, (s.inode rip).i_num⟩ (s.directories dev) := by
  obtain ⟨dev', n, m, e, hkey, hkey', hentry⟩ := hnames
  obtain ⟨rfl, rfl⟩ := Prod.mk.inj (Option.some.inj (hkey.symm.trans (h.key_eq hdirp)))
  obtain ⟨_, rfl⟩ := Prod.mk.inj (Option.some.inj (hkey'.symm.trans (h.key_eq hrip)))
  exact hexact.first _ string _ e hentry

/-- The entries `.` and `..` of a directory that is removed are not looked for. -/
theorem Counting.removeDir (hw : Writable env dev) (h : Counting dev k found key others s l)
    (hdirp : dirp ∈ l ++ others) (hrip : rip ∈ l ++ others)
    (hin : Entry.In ⟨(s.inode dirp).i_num, string, (s.inode rip).i_num⟩ (s.directories dev))
    (hfree : ∀ e ∈ found, e.dir = (s.inode dirp).i_num → string ≠ e.name)
    (hdots : ∀ e ∈ found, dot1 ≠ e.name ∧ dot2 ≠ e.name) :
    Succeeds (removeDir hdr env s dirp rip string) (Ends (Counting dev k found key others) l) := by
  obtain ⟨hlooked, hdirectories⟩ := h.look hw hrip "" none (.inr rfl)
  have hnum := searched_num hw.documented h.toPlaced hdirp rip "" none .IS_EMPTY
  have hnum' := searched_num hw.documented h.toPlaced hrip rip "" none .IS_EMPTY
  unfold DirectoryCalls.removeDir
  generalize searchDir env s rip "" none .IS_EMPTY = searched at *
  obtain ⟨e, _, u⟩ := searched
  dsimp only at *
  split_ifs
  · exact hlooked
  · exact hlooked
  · exact hlooked
  · rw [← hnum] at hfree
    rw [← hnum, ← hnum', ← hdirectories] at hin
    refine (hlooked.unlinkFile_some hw hdirp hrip hin hfree).bind fun out hout => ?_
    split_ifs
    · exact hout
    · have hself := Counting.unlinkFile_none hw hout hrip fun e he _ => (hdots e he).1
      refine hself.bind fun out' hout' => ?_
      have hparent := Counting.unlinkFile_none hw hout' hrip fun e he _ => (hdots e he).2
      exact hparent.bind fun _ hlast => hlast

theorem Counting.tryUnlink (hw : Writable env dev) (h : Counting dev k [] key others s l)
    (hdirp : dirp ∈ l ++ others) (hrip : rip ∈ l ++ others) (hnames : Names env s dirp rip string) :
    Succeeds (tryUnlink env s dirp rip string) (Ends (Counting dev k [] key others) l) := by
  unfold LinkCalls.tryUnlink
  split_ifs
  · exact h
  · exact h
  · exact h.unlinkFile_some hw hdirp hrip
      (in_of_names hw.exact h.toPlaced hdirp hrip hnames) fun e he => absurd he List.not_mem_nil

theorem Counting.tryRemove (hw : Writable env dev) (h : Counting dev k [] key others s l)
    (hdirp : dirp ∈ l ++ others) (hrip : rip ∈ l ++ others) (hnames : Names env s dirp rip string) :
    Succeeds (tryRemove hdr env s dirp rip string) (Ends (Counting dev k [] key others) l) := by
  unfold DirectoryCalls.tryRemove
  split_ifs
  · exact h
  · exact h.removeDir hw hdirp hrip
      (in_of_names hw.exact h.toPlaced hdirp hrip hnames) (fun e he => absurd he List.not_mem_nil)
      fun e he => absurd he List.not_mem_nil

end Requests

/-! ## fs_rename -/

section Renaming
variable {old_dirp old_ip new_dirp : Slot p} {new_ip : Option (Slot p)}

theorem OneMore.eq_of_left {D'' : Dev → UInt32 → Directory} (h : OneMore dev numb D D')
    (h' : OneMore dev numb D D'') (d : Dev) (n : UInt32) : linksTo (D' d) n = linksTo (D'' d) n := by
  by_cases hplace : (d, n) = (dev, numb)
  · obtain ⟨rfl, rfl⟩ := Prod.mk.inj hplace
    rw [h.self, h'.self]
  · rw [h.other d n hplace, h'.other d n hplace]

theorem OneMore.eq_of_right {D'' : Dev → UInt32 → Directory} (h : OneMore dev numb D D'')
    (h' : OneMore dev numb D' D'') (d : Dev) (n : UInt32) : linksTo (D d) n = linksTo (D' d) n := by
  by_cases hplace : (d, n) = (dev, numb)
  · obtain ⟨rfl, rfl⟩ := Prod.mk.inj hplace
    have hself := h.self.symm.trans h'.self
    omega
  · rw [← h.other d n hplace, ← h'.other d n hplace]

theorem Placed.recount (h : Placed dev key others t l) (hlinks : Links k D t)
    (hsame : ∀ d n, linksTo (t.directories d) n = linksTo (D d) n) :
    Counting dev k [] key others t l :=
  ⟨h, hlinks.of_eq (hsame _ _), fun _ he => absurd he List.not_mem_nil⟩

variable {old_name new_name : Name}

/-- In one directory the old entry is deleted first, and leaves room for the new one. -/
theorem Counting.replaceEntry (hw : Writable env dev) (h : Counting dev k found key others s l)
    (hdir : old_dirp ∈ l ++ others)
    (hin : Entry.In ⟨(s.inode old_dirp).i_num, old_name, numb⟩ (s.directories dev))
    (new_name : Name) : (searchDir env s old_dirp old_name none .DELETE).1 = .OK ∧
      Counting dev k [] key others (searchDir env
        (searchDir env s old_dirp old_name none .DELETE).2.2 old_dirp new_name (some numb) .ENTER).2.2
          l := by
  obtain ⟨hok, hinserted⟩ := delete_inserted hw.exact h.toPlaced hdir none hin
  have hless := oneMore_inserted hinserted fun _ _ hplace =>
    (searched_other h.toPlaced hdir env _ _ _ hplace).symm
  have hnum := searched_num hw.documented h.toPlaced hdir old_dirp old_name none .DELETE
  have hplaced := h.toPlaced.search hw.inodes hw.documented hdir old_name none .DELETE
  have hlinks := searched_links hw h.toPlaced h.links hdir old_name none .DELETE
  have hentries := searched_directories h.toPlaced hdir env old_name none .DELETE dev
    (s.inode old_dirp).i_num
  rw [if_pos ⟨rfl, rfl⟩] at hentries
  have hroom := hw.exact.replaced _ old_name none new_name numb (named_of_listed hin)
  dsimp only at hroom
  rw [← hentries, ← hnum] at hroom
  refine ⟨hok, ?_⟩
  generalize (searchDir env s old_dirp old_name none .DELETE).2.2 = u at *
  rw [← searched_answer hplaced hdir] at hroom
  have hmore := oneMore_inserted (enter_inserted hw.exact hplaced hdir hroom) fun _ _ hplace =>
    searched_other hplaced hdir env _ _ _ hplace
  apply Placed.recount (hplaced.search hw.inodes hw.documented hdir _ _ _)
  · exact searched_links hw hplaced hlinks hdir _ _ _
  · exact fun d n => hmore.eq_of_left hless d n

/-- The new entry is made first in another directory. -/
theorem Counting.transferEntry (hw : Writable env dev) (h : Counting dev k found key others s l)
    (hdir : old_dirp ∈ l ++ others) (hnew : new_dirp ∈ l ++ others)
    (hapart : (s.inode old_dirp).i_num ≠ (s.inode new_dirp).i_num)
    (hin : Entry.In ⟨(s.inode old_dirp).i_num, old_name, numb⟩ (s.directories dev)) :
    Counting dev k [] key others
      (if (searchDir env s new_dirp new_name (some numb) .ENTER).1 = .OK then
        (searchDir env (searchDir env s new_dirp new_name (some numb) .ENTER).2.2 old_dirp old_name
          none .DELETE).2.2
      else (searchDir env s new_dirp new_name (some numb) .ENTER).2.2) l := by
  have hnum := searched_num hw.documented h.toPlaced hdir new_dirp new_name (some numb) .ENTER
  have hplaced := h.toPlaced.search hw.inodes hw.documented hnew new_name (some numb) .ENTER
  have hlinks := searched_links hw h.toPlaced h.links hnew new_name (some numb) .ENTER
  split_ifs with hok
  · have hinserted := enter_inserted hw.exact h.toPlaced hnew hok
    have hother := fun d m (hplace : ¬ (d = dev ∧ m = (s.inode new_dirp).i_num)) =>
      searched_other h.toPlaced hnew env new_name (some numb) .ENTER hplace
    have hmore := oneMore_inserted hinserted hother
    have hin' := (found_inserted hinserted (fun m hm => hother dev m fun hplace => hm hplace.2)
      fun heq => absurd heq hapart).mpr hin
    generalize (searchDir env s new_dirp new_name (some numb) .ENTER).2.2 = u at *
    rw [← hnum] at hin'
    obtain ⟨_, hinserted'⟩ := delete_inserted hw.exact hplaced hdir none hin'
    have hless := oneMore_inserted hinserted' fun _ _ hplace =>
      (searched_other hplaced hdir env _ _ _ hplace).symm
    apply Placed.recount (hplaced.search hw.inodes hw.documented hdir _ _ _)
    · exact searched_links hw hplaced hlinks hdir _ _ _
    · exact fun d n => hless.eq_of_right hmore d n
  · apply Placed.recount hplaced hlinks
    intro d n
    rw [enter_failed hw.exact h.toPlaced hnew hok]

/-- One entry less and one entry more: the count was right, and is right again. -/
theorem Counting.moveEntry (hw : Writable env dev) (h : Counting dev k found key others s l)
    (hdir : old_dirp ∈ l ++ others) (hnew : new_dirp ∈ l ++ others) {m : RenameMessage}
    (hin : Entry.In ⟨(s.inode old_dirp).i_num, m.old_name, (s.inode old_ip).i_num⟩
      (s.directories dev)) {same_pdir : Bool} (hapart : same_pdir ≠ true → old_dirp ≠ new_dirp) :
    Counting dev k [] key others (moveEntry env m s old_dirp old_ip new_dirp same_pdir).2 l := by
  unfold DirectoryCalls.moveEntry
  by_cases hsame : same_pdir = true
  · obtain ⟨hok, hreplaced⟩ := h.replaceEntry hw hdir hin m.new_name
    dsimp only
    rw [if_pos hsame, if_pos hok]
    exact hreplaced
  · have hdirs : (s.inode old_dirp).i_num ≠ (s.inode new_dirp).i_num := by
      intro heq
      have hkey := h.toPlaced.key_eq hdir
      rw [heq] at hkey
      exact hapart hsame (h.ready.coherent.single hkey (h.toPlaced.key_eq hnew))
    dsimp only
    rw [if_neg hsame]
    exact h.transferEntry hw hdir hnew hdirs hin

/-- The file under the new name is another one than the one that is renamed. -/
theorem Counting.removeNew (hw : Writable env dev) (h : Counting dev k found key others s l)
    (hdir : new_dirp ∈ l ++ others) (hnew : ∀ x ∈ new_ip, x ∈ l ++ others)
    (hin : ∀ x ∈ new_ip,
      Entry.In ⟨(s.inode new_dirp).i_num, new_name, (s.inode x).i_num⟩ (s.directories dev))
    (hfree : ∀ x ∈ new_ip, ∀ e ∈ found, e.dir = (s.inode new_dirp).i_num → new_name ≠ e.name)
    (hdots : ∀ e ∈ found, dot1 ≠ e.name ∧ dot2 ≠ e.name) (odir : Bool) :
    Succeeds (removeNew hdr env s new_dirp new_ip odir new_name)
      (Ends (Counting dev k found key others) l) := by
  cases new_ip with
  | none => exact h
  | some x =>
      have hmem : x ∈ some x := rfl
      unfold DirectoryCalls.removeNew
      dsimp only
      split_ifs
      · exact h.removeDir hw hdir (hnew x hmem) (hin x hmem) (hfree x hmem) hdots
      · exact h.unlinkFile_some hw hdir (hnew x hmem) (hin x hmem) (hfree x hmem)

/-- What the caller holds has these numbers. -/
def Numbered (dev : Dev) (key : Slot p → Option (Dev × UInt32)) (others : List (Slot p))
    (num : Slot p → UInt32) : Prop :=
  ∀ r ∈ others, key r = some (dev, num r)

variable {num : Slot p → UInt32}

theorem Numbered.num_eq (hnum : Numbered dev key others num) (h : Placed dev key others s l)
    (hr : r ∈ others) : (s.inode r).i_num = num r :=
  (slotKey_eq_some.mp ((h.named r hr).trans (hnum r hr))).2.2

theorem sameLinks_countLink (rip : Inode p) :
    SameLinks (countLink rip) rip ∧ (countLink rip).i_nlinks = rip.i_nlinks + 1 :=
  ⟨⟨rfl, rfl, rfl, rfl⟩, rfl⟩

/-- The old parent has one link less, and the new one has one more if there is an entry for it. -/
theorem Counting.updateParent (hw : Writable env dev) (hnum : Numbered dev key others num)
    (h : Counting dev k [] key others s l) (hold : old_ip ∈ others) (hnew : new_dirp ∈ others) :
    Succeeds (updateParent env s old_ip new_dirp) fun t => Counting dev k [] key others t l := by
  have hnone : ∀ {Q : Entry → Prop}, ∀ e ∈ ([] : List Entry), Q e :=
    fun e he => absurd he List.not_mem_nil
  unfold DirectoryCalls.updateParent
  refine (h.unlinkFile_none hw (List.mem_append_right l hold) hnone).bind fun out hout => ?_
  have hplaced : Counting dev k [] key others out.2 l := hout
  exact hplaced.enter hw (List.mem_append_right l hold) (List.mem_append_right l hnew)
    ((hnum.num_eq hplaced.toPlaced hnew).trans (hnum.num_eq h.toPlaced hnew).symm)
    sameLinks_countLink hnone

theorem Counting.performRename (hw : Writable env dev) (hnum : Numbered dev key others num)
    {m : RenameMessage}
    (h : Counting dev k [⟨num old_dirp, m.old_name, num old_ip⟩] key others s [])
    (hdir : old_dirp ∈ others) (hold : old_ip ∈ others) (hnew : new_dirp ∈ others)
    (hnew_ip : ∀ x ∈ new_ip, x ∈ others ∧ x ≠ old_ip)
    (hin : ∀ x ∈ new_ip, Entry.In ⟨num new_dirp, m.new_name, num x⟩ (s.directories dev))
    (hname : m.old_name ≠ dot1 ∧ m.old_name ≠ dot2) {odir same_pdir : Bool}
    (hapart : same_pdir ≠ true → old_dirp ≠ new_dirp) :
    Succeeds (performRename hdr env m s old_dirp old_ip new_dirp new_ip odir same_pdir)
      (Ends (Counting dev k [] key others) []) := by
  have hnum_s : ∀ r ∈ others, (s.inode r).i_num = num r := fun r hr => hnum.num_eq h.toPlaced hr
  have hfound := h.found _ (List.mem_singleton_self _)
  have hin_s : ∀ x ∈ new_ip, Entry.In ⟨(s.inode new_dirp).i_num, m.new_name, (s.inode x).i_num⟩
      (s.directories dev) := by
    intro x hx
    rw [hnum_s new_dirp hnew, hnum_s x (hnew_ip x hx).1]
    exact hin x hx
  have hfree : ∀ x ∈ new_ip, ∀ e ∈ [(⟨num old_dirp, m.old_name, num old_ip⟩ : Entry)],
      e.dir = (s.inode new_dirp).i_num → m.new_name ≠ e.name := by
    intro x hx e he hplace heq
    rw [List.mem_singleton.mp he, hnum_s new_dirp hnew] at hplace
    rw [List.mem_singleton.mp he] at heq
    dsimp only at hplace heq
    -- both inodes would go by the same entry
    have hfound' := hin x hx
    unfold Entry.In at hfound hfound'
    dsimp only at hfound hfound'
    rw [hplace, ← heq, hfound'] at hfound
    have hsame : num x = num old_ip := congrArg Prod.snd (Option.some.inj hfound)
    have hkey := (h.named x (hnew_ip x hx).1).trans (hnum x (hnew_ip x hx).1)
    have hkey' := (h.named old_ip hold).trans (hnum old_ip hold)
    rw [hsame] at hkey
    exact (hnew_ip x hx).2 (h.ready.coherent.single hkey hkey')
  have hdots : ∀ e ∈ [(⟨num old_dirp, m.old_name, num old_ip⟩ : Entry)],
      dot1 ≠ e.name ∧ dot2 ≠ e.name := by
    intro e he
    rw [List.mem_singleton.mp he]
    exact ⟨Ne.symm hname.1, Ne.symm hname.2⟩
  unfold DirectoryCalls.performRename
  refine (h.removeNew hw hnew (fun x hx => (hnew_ip x hx).1) hin_s hfree hdots odir).bind
    fun out hout => ?_
  have hcounting : Counting dev k [⟨num old_dirp, m.old_name, num old_ip⟩] key others out.2 [] :=
    hout
  have hmoved : Counting dev k [] key others
      (DirectoryCalls.moveEntry env m out.2 old_dirp old_ip new_dirp same_pdir).2 [] := by
    apply hcounting.moveEntry hw hdir hnew _ hapart
    rw [hnum.num_eq hcounting.toPlaced hdir, hnum.num_eq hcounting.toPlaced hold]
    exact hcounting.found _ (List.mem_singleton_self _)
  dsimp only
  split_ifs with hfailed hparent
  · exact ⟨hcounting.toPlaced, hcounting.links, fun e he => absurd he List.not_mem_nil⟩
  · exact (hmoved.updateParent hw hnum hold hnew).bind fun t ht => ht
  · exact hmoved

/-- A name that passes the checks is not the name of another inode that is the same. -/
theorem checkNames_apart {m : RenameMessage} {s : State p} {odir same_pdir : Bool} {r : Errno}
    (h : checkNames hdr m s old_ip new_dirp new_ip odir same_pdir r = .OK) :
    ∀ x ∈ new_ip, x ≠ old_ip := by
  intro x hx heq
  rw [Option.mem_def.mp hx, heq] at h
  unfold checkNames at h
  dsimp only at h
  rw [if_pos rfl] at h
  split_ifs at h
  all_goals cases h

/-- The entries that `advance` found are there until they are used. -/
theorem tries_counting (hw : Writable env dev) (m : RenameMessage) (fuel : ℕ) :
    Opening.TriesRename hdr env m fuel (fun halt => halt = .passesRanOut)
      (Counting dev k [] key []) [] := by
  intro s old_dirp old_ip new_dirp new_ip r h hold_names hnew_names
  have hplaced := h.toPlaced.lend
  have hmem : ∀ {x}, x ∈ gained new_ip [old_dirp, old_ip, new_dirp] →
      x ∈ gained new_ip [old_dirp, old_ip, new_dirp] ++ [] := fun hx => List.mem_append_left [] hx
  have hdir : old_dirp ∈ gained new_ip [old_dirp, old_ip, new_dirp] :=
    List.mem_append_right _ (by simp)
  have hold : old_ip ∈ gained new_ip [old_dirp, old_ip, new_dirp] :=
    List.mem_append_right _ (by simp)
  have hnew : new_dirp ∈ gained new_ip [old_dirp, old_ip, new_dirp] :=
    List.mem_append_right _ (by simp)
  have hnew_ip : ∀ x ∈ new_ip, x ∈ gained new_ip [old_dirp, old_ip, new_dirp] := fun x hx =>
    List.mem_append_left _ (Option.mem_toList.mpr hx)
  have hin_old := in_of_names hw.exact h.toPlaced (hmem hdir) (hmem hold) hold_names
  have hin_new := fun x hx => in_of_names hw.exact h.toPlaced (hmem hnew) (hmem (hnew_ip x hx))
    (hnew_names x hx)
  have hnum : Numbered dev (fun r => slotKey (s.inode r))
      (gained new_ip [old_dirp, old_ip, new_dirp]) fun r => (s.inode r).i_num :=
    fun r hr => h.toPlaced.key_eq (hmem hr)
  have htake : ∀ {t}, Counting dev k [] (fun r => slotKey (s.inode r))
      (gained new_ip [old_dirp, old_ip, new_dirp]) t [] →
        Counting dev k [] key [] t (gained new_ip [old_dirp, old_ip, new_dirp]) :=
    fun ht => ⟨ht.toPlaced.take, ht.links, ht.found⟩
  generalize gained new_ip [old_dirp, old_ip, new_dirp] = held at *
  -- both entries, if there are two
  let entries : List Entry := ⟨(s.inode old_dirp).i_num, m.old_name, (s.inode old_ip).i_num⟩ ::
    new_ip.toList.map fun x => ⟨(s.inode new_dirp).i_num, m.new_name, (s.inode x).i_num⟩
  have hcounting : Counting dev k entries (fun r => slotKey (s.inode r)) held s [] := by
    refine ⟨hplaced, h.links, fun e he => ?_⟩
    rcases List.mem_cons.mp he with rfl | he
    · exact hin_old
    · obtain ⟨x, hx, rfl⟩ := List.mem_map.mp he
      exact hin_new x (Option.mem_toList.mp hx)
  have hopen : Opening env (· = dev) held
      (Counting dev k entries (fun r => slotKey (s.inode r)) held) :=
    opening_counting hw.toReliable
  unfold DirectoryCalls.tryRename
  dsimp only
  split_ifs with hr
  · exact h
  · refine (hopen.checkAbove hw.finds hcounting (List.mem_append_right [] hnew) fuel _ _).bind
      fun out hout => ?_
    have habove : Counting dev k entries (fun r => slotKey (s.inode r)) held out.2 [] := hout
    split_ifs with hnames
    · exact htake ⟨habove.toPlaced, habove.links, fun e he => absurd he List.not_mem_nil⟩
    · have hpassed := not_not.mp hnames
      have hfirst : Counting dev k
          [⟨(s.inode old_dirp).i_num, m.old_name, (s.inode old_ip).i_num⟩]
          (fun r => slotKey (s.inode r)) held out.2 [] :=
        ⟨habove.toPlaced, habove.links, fun e he => habove.found e
          (List.mem_cons.mpr (.inl (List.mem_singleton.mp he)))⟩
      have hin : ∀ x ∈ new_ip, Entry.In
          ⟨(s.inode new_dirp).i_num, m.new_name, (s.inode x).i_num⟩ (out.2.directories dev) := by
        intro x hx
        apply habove.found
        apply List.mem_cons_of_mem
        exact List.mem_map_of_mem (Option.mem_toList.mpr hx)
      apply Opening.results_lift
      refine (hfirst.performRename hw hnum hdir hold hnew
        (fun x hx => ⟨hnew_ip x hx, checkNames_apart hpassed x hx⟩) hin (checkNames_ok hpassed).2.1
        fun hsame heq => ?_).mono fun out' hout' => htake hout'
      exact hsame (decide_eq_true heq)

end Renaming

end MinixOS.LinkCounts
