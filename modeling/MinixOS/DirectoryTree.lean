import MinixOS.LinkReferences
import MinixOS.ParentChains

/-!
# The tree of directories

In a directory the entry `.` names the directory itself, and `..` its parent. A root is its own
parent. The functions of link.c make no such entries, but `fs_rename` does so when it moves a
directory. All else that they do leaves a tree a tree.
-/
namespace MinixOS.DirectoryTree
open LoopExecution Relation ParentChains InodeState InodeCopy InodeCache WriteBackCache InodeView
  InodeRelease InodeSystem InodeCoherence LinkCalls LinkCoherence DirectoryCalls LinkReferences
open CheckedExecution hiding Stop

variable {p : Platform} {s t start : State p} {q r : Slot p} {l others : List (Slot p)}
  {env : Environment p} {hdr : Headers} {dev : Dev} {numb : UInt32} {string : Name}

/-! ## Entries -/

/-- The entry is put somewhere among the others. -/
def Inserted (e : Name × UInt32) (before after : Directory) : Prop :=
  ∃ front back, before = front ++ back ∧ after = front ++ e :: back

/-- An inode goes by this name. -/
def Named (entries : Directory) (string : Name) : Prop :=
  ∃ numb, numb ≠ NO_ENTRY ∧ (string, numb) ∈ entries

/-- What `search_dir` and `advance` do with the entries of a directory that may be written. Where
`..` leaves the file system, the directory is its root. -/
structure Entries (env : Environment p) : Prop where
  look_up : ∀ entries string n, (env.search_dir entries string n .LOOK_UP).entries = entries
  is_empty : ∀ entries string n, (env.search_dir entries string n .IS_EMPTY).entries = entries
  found : ∀ entries string n,
    (env.search_dir entries string n .LOOK_UP).answer = .OK ↔ Named entries string
  enter : ∀ entries string numb,
    Inserted (string, numb) entries (env.search_dir entries string (some numb) .ENTER).entries ∨
      (env.search_dir entries string (some numb) .ENTER).entries = entries
  delete : ∀ entries string n, Named entries string →
    (env.search_dir entries string n .DELETE).answer = .OK ∧ ∃ numb, numb ≠ NO_ENTRY ∧
      Inserted (string, numb) (env.search_dir entries string n .DELETE).entries entries
  delete_missing : ∀ entries string n, ¬ Named entries string →
    (env.search_dir entries string n .DELETE).entries = entries
  advance : ∀ entries string numb e, env.advance entries string = .entry numb e →
    (string, numb) ∈ entries
  missing : ∀ entries string e, env.advance entries string = .missing e → e ≠ .ELEAVEMOUNT
  leave : ∀ entries numb, env.advance entries dot2 = .entry numb .ELEAVEMOUNT →
    (dot1, numb) ∈ entries

def isDots (e : Name × UInt32) : Bool := (e.1 = dot1 ∨ e.1 = dot2) ∧ e.2 ≠ NO_ENTRY

def dots (entries : Directory) : Directory := entries.filter isDots

/-- The numbers that go by the name `..`. -/
def parents (entries : Directory) : List UInt32 :=
  ((dots entries).filter fun e => e.1 = dot2).map Prod.snd

theorem mem_parents {entries : Directory} :
    numb ∈ parents entries ↔ (dot2, numb) ∈ entries ∧ numb ≠ NO_ENTRY := by
  simp [parents, dots, isDots]

theorem mem_dots1 {entries : Directory} :
    (dot1, numb) ∈ dots entries ↔ (dot1, numb) ∈ entries ∧ numb ≠ NO_ENTRY := by
  simp [dots, isDots]

theorem parents_eq_nil {entries : Directory} : parents entries = [] ↔ ¬ Named entries dot2 := by
  rw [List.eq_nil_iff_forall_not_mem]
  simp only [mem_parents, Named, not_exists, not_and, and_comm]

theorem Inserted.sublist {e : Name × UInt32} {before after : Directory}
    (h : Inserted e before after) : before.Sublist after := by
  obtain ⟨front, back, rfl, rfl⟩ := h
  exact (List.sublist_cons_self e back).append_left front

/-- Another entry leaves `.` and `..` alone. -/
theorem Inserted.dots_eq {e : Name × UInt32} {before after : Directory} (h : Inserted e before after)
    (hname : e.1 ≠ dot1 ∧ e.1 ≠ dot2) : dots after = dots before := by
  obtain ⟨front, back, rfl, rfl⟩ := h
  have hnot : isDots e = false := by
    simp [isDots, hname]
  unfold dots
  rw [List.filter_append, List.filter_append, List.filter_cons_of_neg (by simp [hnot])]

theorem Inserted.length_parents {before after : Directory} (h : Inserted (dot2, numb) before after)
    (hnumb : numb ≠ NO_ENTRY) : (parents after).length = (parents before).length + 1 := by
  obtain ⟨front, back, rfl, rfl⟩ := h
  have hdots : isDots (dot2, numb) = true := by
    simp [isDots, hnumb]
  simp only [parents, dots, List.filter_append, List.filter_cons_of_pos hdots, List.length_map,
    List.length_append]
  rw [List.filter_cons_of_pos (by simp), List.length_cons]
  omega

theorem Inserted.mem {e e' : Name × UInt32} {before after : Directory} (h : Inserted e before after)
    (hmem : e' ∈ after) : e' = e ∨ e' ∈ before := by
  obtain ⟨front, back, rfl, rfl⟩ := h
  simp only [List.mem_append, List.mem_cons] at hmem ⊢
  tauto

/-! ## The tree -/

/-- The entry `..` of the directory `a` names another directory, `b`. -/
def Parent (D : UInt32 → Directory) (a b : UInt32) : Prop := b ∈ parents (D a) ∧ b ≠ a

structure Tree (D : UInt32 → Directory) : Prop where
  self : ∀ a b, (dot1, b) ∈ dots (D a) → b = a
  single : ∀ a, (parents (D a)).length ≤ 1
  acyclic : Acyclic (Parent D)

theorem Tree.unique {D : UInt32 → Directory} (h : Tree D) {a b c : UInt32}
    (hb : b ∈ parents (D a)) (hc : c ∈ parents (D a)) : b = c := by
  have hlength := h.single a
  match hparents : parents (D a) with
  | [] =>
      rw [hparents] at hb
      exact absurd hb List.not_mem_nil
  | [x] =>
      rw [hparents] at hb hc
      rw [List.mem_singleton.mp hb, List.mem_singleton.mp hc]
  | _ :: _ :: _ =>
      rw [hparents] at hlength
      simp at hlength

/-- No entry `.` or `..` is new. -/
def FewerDots (D D' : UInt32 → Directory) : Prop := ∀ n, (dots (D' n)).Sublist (dots (D n))

theorem FewerDots.parents {D D' : UInt32 → Directory} (h : FewerDots D D') (n : UInt32) :
    (parents (D' n)).Sublist (parents (D n)) :=
  ((h n).filter _).map _

theorem FewerDots.parent {D D' : UInt32 → Directory} (h : FewerDots D D') {a b : UInt32}
    (hp : Parent D' a b) : Parent D a b :=
  ⟨(h.parents a).subset hp.1, hp.2⟩

theorem Tree.fewer {D D' : UInt32 → Directory} (h : Tree D) (hfewer : FewerDots D D') : Tree D' where
  self a b hb := h.self a b ((hfewer a).subset hb)
  single a := (hfewer.parents a).length_le.trans (h.single a)
  acyclic := h.acyclic.of_imp fun _ _ => hfewer.parent

/-- A directory without a parent gets one that it is not above. -/
theorem Tree.enter {D D' : UInt32 → Directory} (h : Tree D) {old new : UInt32}
    (hnumb : new ≠ NO_ENTRY) (hnone : parents (D old) = [])
    (hentered : Inserted (dot2, new) (D old) (D' old)) (hother : ∀ n, n ≠ old → D' n = D n)
    (habove : ¬ ReflTransGen (Parent D) new old) : Tree D' := by
  constructor
  · intro a b hb
    by_cases ha : a = old
    · subst ha
      rw [mem_dots1] at hb
      rcases hentered.mem hb.1 with heq | hmem
      · exact absurd (congrArg Prod.fst heq) (show dot1 ≠ dot2 by decide)
      · exact h.self a b (mem_dots1.mpr ⟨hmem, hb.2⟩)
    · rw [hother a ha] at hb
      exact h.self a b hb
  · intro a
    by_cases ha : a = old
    · subst ha
      rw [hentered.length_parents hnumb, hnone]
      simp
    · rw [hother a ha]
      exact h.single a
  · apply h.acyclic.moved _ habove
    rintro a b ⟨hb, hne⟩
    by_cases ha : a = old
    · subst ha
      rw [mem_parents] at hb
      rcases hentered.mem hb.1 with heq | hmem
      · exact .inr ⟨rfl, congrArg Prod.snd heq⟩
      · exact .inl ⟨mem_parents.mpr ⟨hmem, hb.2⟩, hne⟩
    · rw [hother a ha] at hb
      exact .inl ⟨hb, hne⟩

/-! ## What the calls leave alone -/

theorem directories_setDirectory (s : State p) (d : Dev) (n : UInt32) (entries : Directory) :
    (s.setDirectory dev numb entries).directories d n =
      if d = dev ∧ n = numb then entries else s.directories d n := by
  unfold State.setDirectory
  simp only [Function.update_apply]
  by_cases hd : d = dev
  · subst hd
    simp [Function.update_apply]
  · simp [hd]

/-- Without its entries a directory has fewer dots. -/
theorem fewerDots_cleared (s : State p) (dev : Dev) (numb : UInt32) (d : Dev) :
    FewerDots (s.directories d) ((s.setDirectory dev numb []).directories d) := by
  intro n
  rw [directories_setDirectory]
  split_ifs
  · exact List.nil_sublist _
  · exact List.Sublist.refl _

/-- Of the directories, `search_dir` changes the one it searches. -/
theorem directories_searchDir (env : Environment p) (s : State p) (r : Slot p) (string : Name)
    (n : Option UInt32) (flag : Flag) (d : Dev) (m : UInt32) :
    (searchDir env s r string n flag).2.2.directories d m =
      if d = (s.inode r).i_dev ∧ m = (s.inode r).i_num then
        (env.search_dir (s.directories (s.inode r).i_dev (s.inode r).i_num) string n flag).entries
      else s.directories d m := by
  rw [← directories_setDirectory]
  unfold searchDir
  dsimp only
  split_ifs with hwritten
  · rw [writing_eq]
    rfl
  · rfl

theorem slotKey_searchDir (hdoc : Documented env) (s : State p) (r : Slot p) (string : Name)
    (n : Option UInt32) (flag : Flag) (q : Slot p) :
    slotKey ((searchDir env s r string n flag).2.2.inode q) = slotKey (s.inode q) := by
  have hmodified := slotKey_congr (sameLinks_modify (s := s) (r := r) (hdoc.links
    (s.directories (s.inode r).i_dev (s.inode r).i_num) string n flag (s.inode r)) q)
  unfold searchDir
  dsimp only
  split_ifs with hwritten
  · rw [writing_inode]
    split_ifs with he
    · rw [stamp_fields, ← hmodified, he]
      rfl
    · exact hmodified
  · exact hmodified

theorem touch_frame {f : Inode p → Inode p} (hf : SameLinks (f (s.inode r)) (s.inode r)) :
    (markDirty (s.modify r f) r).directories = s.directories ∧
      ∀ q, slotKey ((markDirty (s.modify r f) r).inode q) = slotKey (s.inode q) := by
  obtain ⟨log, hdirty⟩ := markDirty_eq (s.modify r f) r
  rw [hdirty, modify_modify]
  refine ⟨rfl, fun q => ?_⟩
  have hsame : SameLinks (dirtied (f (s.inode r))) (s.inode r) :=
    ⟨hf.i_num, hf.i_dev, hf.i_sp, hf.i_count⟩
  exact slotKey_congr (sameLinks_modify (f := fun rip => dirtied (f rip)) hsame q)

/-! ## Requests on one device -/

theorem device_of_key (h : slotKey (t.inode r) = slotKey (s.inode r))
    (hnum : (s.inode r).i_num ≠ NO_ENTRY) : (t.inode r).i_dev = (s.inode r).i_dev := by
  have hkey : slotKey (s.inode r) = some ((s.inode r).i_dev, (s.inode r).i_num) :=
    slotKey_eq_some.mpr ⟨hnum, rfl, rfl⟩
  exact (slotKey_eq_some.mp (h.trans hkey)).2.1

/-- The call has opened only inodes of the device, and the inodes that its caller holds are where
they were. -/
structure Placed (dev : Dev) (key : Slot p → Option (Dev × UInt32)) (others : List (Slot p))
    (s : State p) (l : List (Slot p)) : Prop where
  ready : Ready s (l ++ others)
  device : ∀ r ∈ l ++ others, (s.inode r).i_dev = dev
  named : ∀ r ∈ others, slotKey (s.inode r) = key r

section Placed
variable {key : Slot p → Option (Dev × UInt32)} {l' : List (Slot p)}

theorem Placed.linked (h : Placed dev key others s l) : Linked s := h.ready.coherent.linked

theorem Placed.key_eq (h : Placed dev key others s l) (hr : r ∈ l ++ others) :
    slotKey (s.inode r) = some (dev, (s.inode r).i_num) :=
  slotKey_eq_some.mpr ⟨(h.ready.holding r hr).1, h.device r hr, rfl⟩

theorem Placed.held (h : Placed dev key others s l) (hr : r ∈ l ++ others) : Held s r := by
  obtain ⟨hnum, hcount⟩ := h.ready.holding r hr
  have hpos := List.count_pos_iff.mpr hr
  exact ⟨hnum, by omega⟩

/-- The inodes are where they were, and new ones are of the device. -/
theorem Placed.next (h : Placed dev key others s l) (hready : Ready t (l' ++ others))
    (hkeys : ∀ r ∈ l ++ others, r ∈ l' ++ others → slotKey (t.inode r) = slotKey (s.inode r))
    (hnew : ∀ r ∈ l', r ∉ l ++ others → (t.inode r).i_dev = dev) :
    Placed dev key others t l' := by
  refine ⟨hready, fun r hr => ?_, fun r hr => ?_⟩
  · by_cases hmem : r ∈ l ++ others
    · rw [device_of_key (hkeys r hmem hr) (h.ready.holding r hmem).1]
      exact h.device r hmem
    · rcases List.mem_append.mp hr with hl' | hother
      · exact hnew r hl' hmem
      · exact absurd (List.mem_append_right l hother) hmem
  · rw [hkeys r (List.mem_append_right l hr) (List.mem_append_right l' hr)]
    exact h.named r hr

/-- No other slot is referred to. -/
theorem Placed.same (h : Placed dev key others s l) (hready : Ready t (l ++ others))
    (hkeys : ∀ r, slotKey (t.inode r) = slotKey (s.inode r)) : Placed dev key others t l :=
  h.next hready (fun r _ _ => hkeys r)
    (fun _ hr hnot => absurd (List.mem_append_left others hr) hnot)

theorem Placed.perm (h : Placed dev key others s l) (hperm : l.Perm l') :
    Placed dev key others s l' := by
  have hboth : (l ++ others).Perm (l' ++ others) := hperm.append_right others
  refine ⟨⟨h.ready.coherent, fun r hr => ?_⟩, fun r hr => h.device r (hboth.mem_iff.mpr hr),
    h.named⟩
  rw [← hboth.count_eq]
  exact h.ready.holding r (hboth.mem_iff.mpr hr)

theorem Placed.error (h : Placed dev key others s l) (e : Errno) :
    Placed dev key others (s.setError e) l :=
  h.same (h.ready.of_eq rfl rfl rfl rfl) fun _ => rfl

theorem gained_append (answer : Option (Slot p)) (l others : List (Slot p)) :
    gained answer l ++ others = gained answer (l ++ others) :=
  List.append_assoc answer.toList l others

theorem Placed.get (hp : Conversions p) (hdev : dev ≠ NO_DEV) (h : Placed dev key others s l)
    (hnumb : numb ≠ NO_ENTRY) (env : Environment p) :
    Placed dev key others (getInode env s dev numb).2 (gained (getInode env s dev numb).1 l) := by
  apply h.next
  · rw [gained_append]
    exact h.ready.get hp hdev hnumb env
  · exact fun r hr _ => held_getInode h.linked (h.held hr) env dev numb
  · intro r hr hnot
    rcases List.mem_append.mp hr with hanswer | hl
    · have hget : getInode env s dev numb = (some r, (getInode env s dev numb).2) :=
        Prod.ext (Option.mem_toList.mp hanswer) rfl
      exact (slotKey_eq_some.mp (slotKey_getInode h.linked hnumb hget)).2.1
    · exact absurd (List.mem_append_left others hl) hnot

/-- What is held besides a reference that is put stays where it is. -/
theorem key_put (h : Ready s (r :: l)) (hput : putInode env s (some r) = .ok t) (hq : q ∈ l) :
    slotKey (t.inode q) = slotKey (s.inode q) := by
  apply held_putInode hput
  rintro rfl
  have hcount := (h.holding q List.mem_cons_self).2
  have hpos := List.count_pos_iff.mpr hq
  rw [List.count_cons_self] at hcount
  omega

theorem Placed.put (hb : InodesPerBlock p) (h : Placed dev key others s (r :: l))
    (env : Environment p) :
    Succeeds (putInode env s (some r)) fun t => Placed dev key others t l := by
  obtain ⟨t, ht, hready⟩ := (ready_put hb h.ready env).exists
  apply results_of_ok ht
  apply h.next hready
  · exact fun q _ hq => key_put h.ready ht hq
  · exact fun q hq hnot => absurd (List.mem_append_left others (List.mem_cons_of_mem r hq)) hnot

theorem Placed.dup (h : Placed dev key others s l) (hr : r ∈ l ++ others) :
    Placed dev key others (dupInode s r) (r :: l) := by
  have hkeys : ∀ q, slotKey ((dupInode s r).inode q) = slotKey (s.inode q) := by
    intro q
    unfold dupInode
    rw [inode_modify]
    split_ifs with he
    · rw [he]
      rfl
    · rfl
  refine h.next (h.ready.dup hr) (fun q _ _ => hkeys q) fun q hq hnot => ?_
  rcases List.mem_cons.mp hq with rfl | hl
  · exact absurd hr hnot
  · exact absurd (List.mem_append_left others hl) hnot

theorem Placed.search (hb : InodesPerBlock p) (hdoc : Documented env)
    (h : Placed dev key others s l) (hr : r ∈ l ++ others) (string : Name) (n : Option UInt32)
    (flag : Flag) : Placed dev key others (searchDir env s r string n flag).2.2 l :=
  h.same (h.ready.search hb hdoc hr string n flag) (slotKey_searchDir hdoc _ _ string n flag)

theorem Placed.touch (h : Placed dev key others s l) (hr : r ∈ l ++ others)
    {f : Inode p → Inode p} (hf : SameLinks (f (s.inode r)) (s.inode r)) :
    Placed dev key others (markDirty (s.modify r f) r) l :=
  h.same (h.ready.touch hr hf) (touch_frame hf).2

/-- What is in hand is held by the caller. -/
theorem Placed.lend (h : Placed dev key [] s l) :
    Placed dev (fun r => slotKey (s.inode r)) l s [] := by
  obtain ⟨hready, hdevice, _⟩ := h
  rw [List.append_nil] at hready hdevice
  exact ⟨hready, hdevice, fun _ _ => rfl⟩

theorem Placed.take {key' : Slot p → Option (Dev × UInt32)} (h : Placed dev key l s []) :
    Placed dev key' [] s l := by
  obtain ⟨hready, hdevice, _⟩ := h
  rw [← List.append_nil l] at hready hdevice
  exact ⟨hready, hdevice, fun r hr => absurd hr List.not_mem_nil⟩

end Placed

/-- The call has taken only the references in hand, and no directory has a new entry `.` or `..`. -/
structure Moving (dev : Dev) (start : State p) (D : Dev → UInt32 → Directory)
    (key : Slot p → Option (Dev × UInt32)) (others : List (Slot p)) (s : State p)
    (l : List (Slot p)) : Prop extends Placed dev key others s l where
  owes : Owes start s (l ++ others)
  dots : ∀ d, FewerDots (D d) (s.directories d)

variable {D D' : Dev → UInt32 → Directory} {key : Slot p → Option (Dev × UInt32)}

/-- The directories hardly changed. -/
theorem Moving.next {l' : List (Slot p)} (h : Moving dev start D key others s l)
    (hplaced : Placed dev key others t l') (howes : Owes start t (l' ++ others))
    (hdots : ∀ d, FewerDots (s.directories d) (t.directories d)) :
    Moving dev start D key others t l' :=
  ⟨hplaced, howes, fun d n => (hdots d n).trans (h.dots d n)⟩

theorem fewerDots_of_eq (h : t.directories = s.directories) (d : Dev) :
    FewerDots (s.directories d) (t.directories d) := by
  intro n
  rw [h]

/-- `search_dir` makes no entry `.` or `..` unless that is asked for. -/
theorem fewerDots_search (hentries : Entries env) (s : State p) (r : Slot p) {string : Name}
    {n : Option UInt32} {flag : Flag}
    (hname : flag = .ENTER → n ≠ none ∧ string ≠ dot1 ∧ string ≠ dot2) (d : Dev) :
    FewerDots (s.directories d) ((searchDir env s r string n flag).2.2.directories d) := by
  intro m
  rw [directories_searchDir]
  split_ifs with hplace
  · obtain ⟨rfl, rfl⟩ := hplace
    generalize s.directories (s.inode r).i_dev (s.inode r).i_num = entries
    cases flag with
    | LOOK_UP => rw [hentries.look_up]
    | IS_EMPTY => rw [hentries.is_empty]
    | DELETE =>
        by_cases hnamed : Named entries string
        · obtain ⟨_, numb, _, hinserted⟩ := hentries.delete entries string n hnamed
          exact hinserted.sublist.filter _
        · rw [hentries.delete_missing entries string n hnamed]
    | ENTER =>
        obtain ⟨numb, rfl⟩ := Option.ne_none_iff_exists'.mp (hname rfl).1
        rcases hentries.enter entries string numb with hinserted | hsame
        · rw [hinserted.dots_eq (hname rfl).2]
        · rw [hsame]
  · exact List.Sublist.refl _

/-- On the device `search_dir` and `advance` do what they should. -/
structure Reliable (env : Environment p) (dev : Dev) : Prop where
  conversions : Conversions p
  inodes : InodesPerBlock p
  documented : Documented env
  finds : Finds env
  entries : Entries env
  device : dev ≠ NO_DEV

theorem rules_moving (hrel : Reliable env dev) :
    Rules env (· = dev) (fun string => string ≠ dot1 ∧ string ≠ dot2) others
      (Moving dev start D key others) where
  linked h := h.linked
  perm {s l l'} h hperm := by
    refine ⟨h.toPlaced.perm hperm, ⟨h.owes.linked, fun r => ?_, h.owes.named⟩, h.dots⟩
    rw [← (hperm.append_right others).count_eq]
    exact h.owes.uses r
  error e h := h.next (h.toPlaced.error e)
    (h.owes.congr (h.owes.linked.of_eq rfl rfl rfl) fun _ => ⟨rfl, rfl, rfl, rfl⟩)
    (fewerDots_of_eq rfl)
  device h hr := h.device _ hr
  holding h hr := h.ready.holding _ hr
  get {s l dev' numb} h hon hnumb := by
    rw [hon]
    apply h.next (h.toPlaced.get hrel.conversions hrel.device hnumb env)
    · rw [gained_append]
      exact h.owes.get hrel.device hnumb
    · exact fewerDots_of_eq (directories_getInode h.linked env dev numb)
  put {s l r} h := by
    obtain ⟨t, ht, hplaced⟩ := (h.toPlaced.put hrel.inodes env).exists
    have howes := (Owes.put h.owes).ensures t ht
    exact results_of_ok ht (h.next hplaced howes (fewerDots_of_eq (putInode_frame ht).1))
  dup h hr := h.next (h.toPlaced.dup hr) (h.owes.dup hr) (fewerDots_of_eq rfl)
  search string n flag hname h hr := h.next
    (h.toPlaced.search hrel.inodes hrel.documented hr string n flag)
    (h.owes.search hrel.documented.links string n flag hr) (fewerDots_search hrel.entries _ _ hname)
  touch h hr hf := h.next (h.toPlaced.touch hr hf) (h.owes.touch hf)
    (fewerDots_of_eq (touch_frame hf).1)

theorem Moving.rules (_ : Moving dev start D key others s l) (hrel : Reliable env dev) :
    Rules env (· = dev) (fun string => string ≠ dot1 ∧ string ≠ dot2) others
      (Moving dev start D key others) :=
  rules_moving hrel

/-- The entry `..` that is followed was there from the start. -/
theorem Moving.followed (h : Moving dev start D key others s l) (hentries : Entries env)
    {n m : UInt32} {e : Errno} (hentry : env.advance (s.directories dev n) dot2 = .entry m e)
    (hm : m ≠ NO_ENTRY) : m ∈ parents (D dev n) := by
  have hmem := hentries.advance _ dot2 m e hentry
  exact ((h.dots dev).parents n).subset (mem_parents.mpr ⟨hmem, hm⟩)

theorem Moving.lend (h : Moving dev start D key [] s l) :
    Moving dev start D (fun r => slotKey (s.inode r)) l s [] := by
  have howes := h.owes
  rw [List.append_nil] at howes
  exact ⟨h.toPlaced.lend, howes, h.dots⟩

theorem Moving.take {key' : Slot p → Option (Dev × UInt32)} (h : Moving dev start D key l s []) :
    Moving dev start D key' [] s l := by
  have howes := h.owes
  rw [List.nil_append, ← List.append_nil l] at howes
  exact ⟨h.toPlaced.take, howes, h.dots⟩

/-- In a tree the call moves inodes of the device. -/
def InTree (dev : Dev) (start : State p) (key : Slot p → Option (Dev × UInt32))
    (others : List (Slot p)) (s : State p) (l : List (Slot p)) : Prop :=
  ∃ D, (∀ d, Tree (D d)) ∧ Moving dev start D key others s l

end MinixOS.DirectoryTree
