import Mathlib.Data.FinEnum
import MinixOS.DirectoryTree
import MinixOS.RequestRuns

/-!
# Moving directories

Before `fs_rename` moves a directory, it goes upwards from the new place and looks for the directory.
In a tree it comes to a root, and if it did not meet the directory, the directory can get the new
parent. So the loop cannot hang in any state that requests lead to.
-/
namespace MinixOS.DirectoryMoves
open LoopExecution Relation ParentChains SystemRuns InodeState InodeCopy InodeCache WriteBackCache
  InodeView InodeRelease InodeSystem InodeCoherence LinkCalls LinkCoherence LinkSystem DirectoryCalls
  LinkReferences DirectoryTree RequestRuns
open CheckedExecution hiding Stop

variable {p : Platform} {s t start : State p} {q r : Slot p} {l others : List (Slot p)}
  {env : Environment p} {hdr : Headers} {dev : Dev} {numb : UInt32} {string : Name}
  {D D' : Dev → UInt32 → Directory} {key : Slot p → Option (Dev × UInt32)}

/-! ## Going upwards -/

theorem advance_entry (h : Moving dev start D key others s l) (hr : r ∈ l ++ others)
    (hfinds : Finds env) {rip : Slot p} (hadvance : advance env s r string = (some rip, t)) :
    ∃ m e, env.advance (s.directories dev (s.inode r).i_num) string = .entry m e ∧
      m ≠ NO_ENTRY ∧ t.err_code = e ∧ slotKey (t.inode rip) = some (dev, m) ∧
      slotKey (t.inode r) = slotKey (s.inode r) := by
  have hself := (advance_frame h.linked (h.held hr) env r string).2
  obtain ⟨m, e, hentry, hm, herror, hfound⟩ := advance_found h.linked hfinds hadvance
  rw [hadvance] at hself
  rw [h.device r hr] at hentry hfound
  exact ⟨m, e, hentry, hm, herror, hfound, hself⟩

theorem advance_missing (hl : Linked s) (hentries : Entries env)
    (h : advance env s r string = (none, t)) : t.err_code ≠ .ELEAVEMOUNT := by
  unfold LinkCalls.advance at h
  dsimp only at h
  cases hentry : env.advance (s.directories (s.inode r).i_dev (s.inode r).i_num) string with
  | missing e =>
      rw [hentry] at h
      cases h
      exact hentries.missing _ string e hentry
  | entry numb e =>
      rw [hentry] at h
      dsimp only at h
      rcases getInode_cases hl env (s.inode r).i_dev numb with
        ⟨q, _, hget⟩ | ⟨_, _, hget⟩ | ⟨_, q, _, hget⟩
      · rw [hget] at h
        cases h
      · rw [hget] at h
        cases h
        exact nofun
      · rw [hget] at h
        cases h

/-- The number of the directory that the loop has come to. -/
def node (v : Slot p × State p) : UInt32 := (v.2.inode v.1).i_num

variable {old_ip new_dirp : Slot p} {nold nnew : UInt32} {v w : Slot p × State p}

theorem node_ne (h : Moving dev start D key others v.2 (v.1 :: l)) (hold : old_ip ∈ others)
    (hkey : key old_ip = some (dev, nold)) (hne : v.1 ≠ old_ip) : node v ≠ nold := by
  intro heq
  have hself := h.key_eq List.mem_cons_self
  have hnamed := (h.named old_ip hold).trans hkey
  rw [← heq] at hnamed
  exact hne (h.ready.coherent.single hself hnamed)

/-- In a pass that goes on, the loop comes to a parent. -/
theorem superdirPass_again (hrel : Reliable env dev) (hold : old_ip ∈ others)
    (hkey : key old_ip = some (dev, nold)) (h : Moving dev start D key others v.2 (v.1 :: l))
    (hpass : superdirPass env old_ip v = .again w) :
    Moving dev start D key others w.2 (w.1 :: l) ∧ Parent (D dev) (node v) (node w) ∧
      node v ≠ nold := by
  have hrules := h.rules hrel
  have hnext := (hrules.superdirPass hrel.finds h).1 w hpass
  unfold superdirPass at hpass
  dsimp only at hpass
  by_cases hsuper : v.1 = old_ip
  · rw [if_pos hsuper] at hpass
    cases hpass
  · rw [if_neg hsuper] at hpass
    cases hadvance : advance env v.2 v.1 dot2 with
    | mk next u =>
        rw [hadvance] at hpass
        dsimp only at hpass
        cases hput : putInode env u (some v.1) with
        | error stop =>
            rw [hput] at hpass
            cases hpass
        | ok x =>
            rw [hput] at hpass
            dsimp only at hpass
            split_ifs at hpass with hroot hleave
            cases next with
            | none => cases hpass
            | some next =>
                cases hpass
                obtain ⟨m, e, hentry, hm, _, hfound, hself⟩ :=
                  advance_entry h List.mem_cons_self hrel.finds hadvance
                have hopened := hrules.advance hrel.finds h List.mem_cons_self dot2
                rw [hadvance] at hopened
                have hperm := hrules.perm hopened (.swap v.1 next l)
                have hlast := key_put hperm.ready hput List.mem_cons_self
                have hnode : node (next, x) = m :=
                  (slotKey_eq_some.mp (hlast.trans hfound)).2.2
                refine ⟨hnext, ⟨?_, ?_⟩, node_ne h hold hkey hsuper⟩
                · rw [hnode]
                  exact h.followed hrel.entries hentry hm
                · intro heq
                  have hsame := hself.trans (h.key_eq List.mem_cons_self)
                  change slotKey (u.inode v.1) = some (dev, node v) at hsame
                  rw [← heq, hnode] at hsame
                  exact hroot (congrArg some (hopened.ready.coherent.single hfound hsame))

/-- Where the loop ends without an error, it has come to a root that is not the old inode. -/
theorem superdirPass_leave (hrel : Reliable env dev) (hD : Tree (D dev))
    (hold : old_ip ∈ others) (hkey : key old_ip = some (dev, nold))
    (h : Moving dev start D key others v.2 (v.1 :: l))
    (hpass : superdirPass env old_ip v = .leave (.ok (.OK, t))) :
    node v ≠ nold ∧ ∀ b, ¬ Parent (D dev) (node v) b := by
  have hroot : node v ∈ parents (D dev (node v)) → ∀ b, ¬ Parent (D dev) (node v) b :=
    fun hself b hparent => hparent.2 (hD.unique hparent.1 hself)
  unfold superdirPass at hpass
  dsimp only at hpass
  by_cases hsuper : v.1 = old_ip
  · rw [if_pos hsuper] at hpass
    cases hput : putInode env v.2 (some v.1) with
    | error stop =>
        rw [hput] at hpass
        cases hpass
    | ok x =>
        rw [hput] at hpass
        cases hpass
  · refine ⟨node_ne h hold hkey hsuper, hroot ?_⟩
    rw [if_neg hsuper] at hpass
    cases hadvance : advance env v.2 v.1 dot2 with
    | mk next u =>
        rw [hadvance] at hpass
        dsimp only at hpass
        cases hput : putInode env u (some v.1) with
        | error stop =>
            rw [hput] at hpass
            cases hpass
        | ok x =>
            rw [hput] at hpass
            dsimp only at hpass
            split_ifs at hpass with hsame hleave
            · -- the entry names the directory itself
              rw [hsame] at hadvance
              obtain ⟨m, e, hentry, hm, _, hfound, hself⟩ :=
                advance_entry h List.mem_cons_self hrel.finds hadvance
              have heq := hfound.symm.trans (hself.trans (h.key_eq List.mem_cons_self))
              have hnode : m = node v := congrArg Prod.snd (Option.some.inj heq)
              have hmem := h.followed hrel.entries hentry hm
              rw [hnode] at hmem
              exact hmem
            · -- the directory is the root of its file system
              have herror := (putInode_frame hput).2.symm.trans hleave
              cases next with
              | none => exact absurd herror (advance_missing h.linked hrel.entries hadvance)
              | some next =>
                  obtain ⟨m, e, hentry, hm, he, _, _⟩ :=
                    advance_entry h List.mem_cons_self hrel.finds hadvance
                  rw [herror] at he
                  rw [← he] at hentry
                  have hdot := hrel.entries.leave _ m hentry
                  have hnode : m = node v := hD.self (node v) m
                    ((h.dots dev (node v)).subset (mem_dots1.mpr ⟨hdot, hm⟩))
                  have hmem := h.followed hrel.entries hentry hm
                  rw [hnode] at hmem
                  exact hmem
            · cases next with
              | none => cases hpass
              | some next => cases hpass

theorem card_numbers : Nat.card UInt32 = 2 ^ 32 := by
  rw [Nat.card_eq_fintype_card, ← FinEnum.card_eq_fintypeCard]
  rfl

/-- After as many passes as there are numbers of inodes the loop has ended, and without an error only
if the old inode is not above the new directory. -/
theorem checkSuperdir_moving (hrel : Reliable env dev) (hD : Tree (D dev))
    (hold : old_ip ∈ others) (hkey : key old_ip = some (dev, nold)) (hnew : new_dirp ∈ others)
    (hkey' : key new_dirp = some (dev, nnew)) (h : Moving dev start D key others s l) {fuel : ℕ}
    (hfuel : 2 ^ 32 ≤ fuel) :
    Succeeds (checkSuperdir env fuel s old_ip new_dirp) fun out =>
      Moving dev start D key others out.2 l ∧
        (out.1 = .OK → ¬ ReflTransGen (Parent (D dev)) nnew nold) := by
  have hrules := h.rules hrel
  have hdup := hrules.dup h (List.mem_append_right l hnew)
  have hstep : ∀ v w, Moving dev start D key others v.2 (v.1 :: l) →
      superdirPass env old_ip v = .again w → Moving dev start D key others w.2 (w.1 :: l) ∧
        Parent (D dev) (node v) (node w) ∧ node v ≠ nold := fun v w hv hpass =>
    superdirPass_again hrel hold hkey hv hpass
  have hcard : Nat.card UInt32 ≤ fuel := card_numbers.trans_le hfuel
  obtain ⟨out, hrun⟩ := hD.acyclic.run_eq_some (s := (new_dirp, dupInode s new_dirp))
    (fun v w hv hpass => ⟨(hstep v w hv hpass).1, (hstep v w hv hpass).2.1⟩) hdup hcard
  obtain ⟨v, hv, hleave, habove⟩ := above_of_leaves
    (fun a b c hb hc => hD.unique hb.1 hc.1) hstep hdup ⟨fuel, hrun⟩
  have hfirst : node (new_dirp, dupInode s new_dirp) = nnew := by
    have hnamed := (hdup.named new_dirp hnew).trans hkey'
    exact (slotKey_eq_some.mp hnamed).2.2
  have hout := (hrules.superdirPass hrel.finds hv).2 out hleave
  unfold DirectoryCalls.checkSuperdir
  rw [hrun]
  cases out with
  | error stop => exact hout.elim
  | ok a =>
      refine ⟨hout, fun hok hpath => ?_⟩
      obtain ⟨r, t⟩ := a
      dsimp only at hok
      subst hok
      obtain ⟨hne, hroot⟩ := superdirPass_leave hrel hD hold hkey hv hleave
      rw [hfirst] at habove
      rcases ReflTransGen.cases_head (habove hpath) with heq | ⟨b, hparent, _⟩
      · exact hne heq
      · exact hroot b hparent

/-! ## Moving a directory -/

/-- While the call has opened fewer inodes than there were unused slots, there is an unused one. -/
theorem Owes.room (h : Owes start s l) (hl : Linked start)
    (hroom : l.length < start.unused_inodes.length) : s.unused_inodes ≠ [] := by
  intro hnone
  have hsub : start.unused_inodes ⊆ l := by
    intro r hr
    have husers := h.uses r
    have hunused : r ∉ s.unused_inodes := by
      rw [hnone]
      exact List.not_mem_nil
    obtain ⟨hnum, hcount⟩ := h.linked.busy r hunused
    rw [users_eq hnum, users_unused hl hr] at husers
    exact List.count_pos_iff.mp (by omega)
  have hlength := (hl.unused_nodup.subperm hsub).length_le
  omega

theorem num_of_key (h : slotKey (t.inode r) = slotKey (s.inode r))
    (hnum : (s.inode r).i_num ≠ NO_ENTRY) : (t.inode r).i_num = (s.inode r).i_num := by
  have hkey : slotKey (s.inode r) = some ((s.inode r).i_dev, (s.inode r).i_num) :=
    slotKey_eq_some.mpr ⟨hnum, rfl, rfl⟩
  exact (slotKey_eq_some.mp (h.trans hkey)).2.2

theorem deleteEntry_dots (hentries : Entries env) {dirp rip : Slot p}
    (hsingle : (parents (s.directories (s.inode dirp).i_dev (s.inode dirp).i_num)).length ≤ 1)
    (hnamed : Named (s.directories (s.inode dirp).i_dev (s.inode dirp).i_num) dot2) :
    Ensures (deleteEntry env s dirp rip dot2) fun out =>
      parents (out.2.directories (s.inode dirp).i_dev (s.inode dirp).i_num) = [] := by
  have hdirectory := directories_searchDir env s dirp dot2 none .DELETE
    (s.inode dirp).i_dev (s.inode dirp).i_num
  rw [if_pos ⟨rfl, rfl⟩] at hdirectory
  obtain ⟨_, numb, hnumb, hinserted⟩ := hentries.delete _ dot2 none hnamed
  have hlength := hinserted.length_parents hnumb
  have hnone : parents ((searchDir env s dirp dot2 none .DELETE).2.2.directories
      (s.inode dirp).i_dev (s.inode dirp).i_num) = [] := by
    rw [hdirectory]
    exact List.eq_nil_of_length_eq_zero (by omega)
  intro out hout
  unfold deleteEntry at hout
  generalize searchDir env s dirp dot2 none .DELETE = searched at hout hnone
  obtain ⟨r, _, u⟩ := searched
  dsimp only at hout hnone
  obtain ⟨v, hput, hpair⟩ := bind_eq_ok.mp hout
  cases hpair
  rw [(putInode_frame hput).1]
  split_ifs
  · rwa [(touch_frame ⟨rfl, rfl, rfl, rfl⟩).1]
  · exact hnone

/-- Looking up a name changes no directory. -/
theorem directories_lookUp (hentries : Entries env) (s : State p) (dirp : Slot p) (string : Name)
    (n : Option UInt32) :
    (searchDir env s dirp string n .LOOK_UP).2.2.directories = s.directories := by
  funext d numb
  rw [directories_searchDir, hentries.look_up]
  split_ifs with hplace
  · rw [hplace.1, hplace.2]
  · rfl

theorem getInode_ne_none (hl : Linked s) (hroom : s.unused_inodes ≠ []) (env : Environment p)
    (dev : Dev) (numb : UInt32) : (getInode env s dev numb).1 ≠ none := by
  rcases getInode_cases hl env dev numb with ⟨_, _, hget⟩ | ⟨_, hnone, _⟩ | ⟨_, _, _, hget⟩
  · rw [hget]
    exact nofun
  · exact absurd hnone hroom
  · rw [hget]
    exact nofun

/-- The entry `..` of a directory is deleted, if there is a slot for the inode it names. -/
theorem unlinkFile_dots (hrel : Reliable env dev) (hl : Linked start)
    (hD : Tree (D dev)) (h : Moving dev start D key others s l) (hold : old_ip ∈ l ++ others)
    (hroom : (l ++ others).length < start.unused_inodes.length) :
    Ensures (unlinkFile env s old_ip none dot2) fun out =>
      parents (out.2.directories dev (s.inode old_ip).i_num) = [] := by
  have hrules := h.rules hrel
  have hnum := (h.ready.holding old_ip hold).1
  have hdev := h.device old_ip hold
  have hsingle : (parents (s.directories dev (s.inode old_ip).i_num)).length ≤ 1 :=
    ((h.dots dev).parents _).length_le.trans (hD.single _)
  have hsearch := hrules.search dot2 none .LOOK_UP nofun h hold
  have hfound := hrel.entries.found (s.directories dev (s.inode old_ip).i_num) dot2 none
  have hnumb := hrel.finds.number (s.directories dev (s.inode old_ip).i_num) dot2 none
  have hdirectories := directories_lookUp hrel.entries s old_ip dot2 none
  have hself := num_of_key (slotKey_searchDir hrel.documented s old_ip dot2 none .LOOK_UP old_ip)
    hnum
  have hanswer : (searchDir env s old_ip dot2 none .LOOK_UP).1 =
      (env.search_dir (s.directories dev (s.inode old_ip).i_num) dot2 none .LOOK_UP).answer := by
    rw [← hdev]
    rfl
  have hsome : (searchDir env s old_ip dot2 none .LOOK_UP).2.1 =
      (env.search_dir (s.directories dev (s.inode old_ip).i_num) dot2 none .LOOK_UP).numb := by
    rw [← hdev]
    rfl
  rw [← hanswer] at hfound hnumb
  rw [← hsome] at hnumb
  intro out hout
  unfold unlinkFile at hout
  generalize searchDir env s old_ip dot2 none .LOOK_UP = looked at *
  obtain ⟨r, numb, u⟩ := looked
  dsimp only at *
  split_ifs at hout with hmissing
  · cases hout
    change parents (u.directories dev _) = []
    rw [hdirectories, parents_eq_nil]
    exact fun hnamed => hmissing (hfound.mpr hnamed)
  · have hok := not_not.mp hmissing
    have herror : Moving dev start D key others (u.setError r) l := hrules.error r hsearch
    have hopened := herror.get hrel.conversions hrel.device (hnumb hok) env
    have hheld := herror.ready.holding old_ip hold
    have hpos := List.count_pos_iff.mpr hold
    have hkept := held_getInode herror.linked ⟨hheld.1, by omega⟩ env dev numb
    have hsame := (directories_getInode herror.linked env dev numb).trans hdirectories
    have hslot := getInode_ne_none herror.linked (Owes.room herror.owes hl hroom) env dev numb
    rw [herror.device old_ip hold] at hout
    cases hget : getInode env (u.setError r) dev numb with
    | mk rip v =>
        rw [hget] at hout hopened hkept hsame hslot
        dsimp only at hout hopened hkept hsame hslot
        cases rip with
        | none => exact absurd rfl hslot
        | some rip =>
            dsimp only at hout
            split_ifs at hout with hfailed
            · exact absurd ((getInode_error herror.linked hget).trans hok) hfailed
            · have hnum_v : (v.inode old_ip).i_num = (s.inode old_ip).i_num :=
                (num_of_key hkept hheld.1).trans hself
              have hdev_v : (v.inode old_ip).i_dev = dev :=
                hopened.device old_ip (List.mem_cons_of_mem rip hold)
              have hplace : v.directories (v.inode old_ip).i_dev (v.inode old_ip).i_num =
                  s.directories dev (s.inode old_ip).i_num := by
                rw [hnum_v, hdev_v, hsame]
              rw [← hplace] at hsingle hfound
              have hdelete := deleteEntry_dots hrel.entries hsingle (hfound.mp hok) out hout
              rwa [hnum_v, hdev_v] at hdelete

/-- The new directory becomes the parent. -/
theorem updateParent_tree (hrel : Reliable env dev) (hl : Linked start)
    (hD : ∀ d, Tree (D d)) (hold : old_ip ∈ others) (hkey : key old_ip = some (dev, nold))
    (hnew : new_dirp ∈ others) (hkey' : key new_dirp = some (dev, nnew))
    (habove : ¬ ReflTransGen (Parent (D dev)) nnew nold)
    (h : Moving dev start D key others s l)
    (hroom : (l ++ others).length < start.unused_inodes.length) :
    Succeeds (updateParent env s old_ip new_dirp) fun t => InTree dev start key others t l := by
  have hrules := h.rules hrel
  have hmem := List.mem_append_right l hold
  have hnum : (s.inode old_ip).i_num = nold :=
    (slotKey_eq_some.mp ((h.named old_ip hold).trans hkey)).2.2
  obtain ⟨hnonzero, _, hnumb⟩ := slotKey_eq_some.mp ((h.named new_dirp hnew).trans hkey')
  obtain ⟨⟨r, u⟩, hunlink, hu⟩ := (hrules.unlinkFile hrel.finds h none hmem none_held dot2).exists
  have hnone := unlinkFile_dots hrel hl (hD dev) h hmem hroom _ hunlink
  change Moving dev start D key others u l at hu
  rw [hnum] at hnone
  dsimp only at hnone
  have hold_u := slotKey_eq_some.mp ((hu.named old_ip hold).trans hkey)
  have hfewer : ∀ d, Tree (u.directories d) := fun d => (hD d).fewer (hu.dots d)
  have habove' : ¬ ReflTransGen (Parent (u.directories dev)) nnew nold := fun hpath =>
    habove (ReflTransGen.mono (fun _ _ => (hu.dots dev).parent) _ _ hpath)
  have hentered : InTree dev start key others
      (searchDir env u old_ip dot2 (some nnew) .ENTER).2.2 l := by
    -- the entries `.` and `..` count from now on
    refine ⟨_, fun d => ?_,
      hu.toPlaced.search hrel.inodes hrel.documented (List.mem_append_right l hold) _ _ _,
      hu.owes.search hrel.documented.links _ _ _ (List.mem_append_right l hold), fun _ _ => .refl _⟩
    have hdirectories := directories_searchDir env u old_ip dot2 (some nnew) .ENTER
    rw [hold_u.2.1, hold_u.2.2] at hdirectories
    by_cases hd : d = dev
    · subst hd
      have hother : ∀ n, n ≠ nold →
          (searchDir env u old_ip dot2 (some nnew) .ENTER).2.2.directories d n =
            u.directories d n := by
        intro n hn
        rw [hdirectories, if_neg fun hplace => hn hplace.2]
      have hself := hdirectories d nold
      rw [if_pos ⟨rfl, rfl⟩] at hself
      rcases hrel.entries.enter (u.directories d nold) dot2 nnew with hinserted | hsame
      · rw [← hself] at hinserted
        exact (hfewer d).enter (hnumb ▸ hnonzero) hnone hinserted hother habove'
      · apply (hfewer d).fewer
        intro n
        by_cases hn : n = nold
        · rw [hn, hself, hsame]
        · rw [hother n hn]
    · apply (hfewer d).fewer
      intro n
      rw [hdirectories, if_neg fun hplace => hd hplace.1]
  unfold DirectoryCalls.updateParent
  rw [hunlink, hnumb]
  obtain ⟨D', hD', hw⟩ := hentered
  refine ⟨D', hD', ?_⟩
  change Moving dev start D' key others (if (searchDir env u old_ip dot2 (some nnew) .ENTER).1 = .OK
    then markDirty ((searchDir env u old_ip dot2 (some nnew) .ENTER).2.2.modify new_dirp countLink)
      new_dirp else (searchDir env u old_ip dot2 (some nnew) .ENTER).2.2) l
  generalize searchDir env u old_ip dot2 (some nnew) .ENTER = entered at hw ⊢
  split_ifs
  · exact (hw.rules hrel).touch hw (List.mem_append_right l hnew) ⟨rfl, rfl, rfl, rfl⟩
  · exact hw

/-- Names that pass the checks are neither `.` nor `..`, and there was no error before. -/
theorem checkNames_ok {m : RenameMessage} {new_ip : Option (Slot p)} {odir same_pdir : Bool}
    {r : Errno} (h : checkNames hdr m s old_ip new_dirp new_ip odir same_pdir r = .OK) :
    r = .OK ∧ (m.old_name ≠ dot1 ∧ m.old_name ≠ dot2) ∧
      m.new_name ≠ dot1 ∧ m.new_name ≠ dot2 := by
  have hfirst : (if m.old_name = dot1 ∨ m.old_name = dot2 ∨ m.new_name = dot1 ∨ m.new_name = dot2
      then Errno.EINVAL else r) = .OK := by
    unfold checkNames at h
    dsimp only at h
    cases new_ip with
    | none =>
        dsimp only at h
        split_ifs at h ⊢
        exact h
    | some new_ip =>
        dsimp only at h
        split_ifs at h ⊢
        all_goals first | exact h | cases h
  split_ifs at hfirst with hnames
  simp only [not_or] at hnames
  exact ⟨hfirst, ⟨hnames.1, hnames.2.1⟩, hnames.2.2.1, hnames.2.2.2⟩

theorem performRename_tree (hrel : Reliable env dev) (hl : Linked start) (hD : ∀ d, Tree (D d))
    {old_dirp : Slot p} {new_ip : Option (Slot p)} (hdir : old_dirp ∈ others)
    (hold : old_ip ∈ others) (hkey : key old_ip = some (dev, nold))
    (hnew : new_dirp ∈ others) (hkey' : key new_dirp = some (dev, nnew))
    (hnew_ip : ∀ x ∈ new_ip, x ∈ others) {m : RenameMessage}
    (hname : m.new_name ≠ dot1 ∧ m.new_name ≠ dot2) {odir same_pdir : Bool}
    (habove : odir = true → same_pdir ≠ true → ¬ ReflTransGen (Parent (D dev)) nnew nold)
    (h : Moving dev start D key others s [])
    (hroom : others.length < start.unused_inodes.length) :
    Succeeds (performRename hdr env m s old_dirp old_ip new_dirp new_ip odir same_pdir) fun out =>
      InTree dev start key others out.2 [] := by
  have hrules := h.rules hrel
  unfold DirectoryCalls.performRename
  refine (hrules.removeNew hrel.finds h hnew hnew_ip odir m.new_name).bind fun out hout => ?_
  dsimp only
  split_ifs with hfailed hparent
  · exact ⟨D, hD, hout⟩
  · have hmoved := hrules.moveEntry hout old_ip hdir hnew hname same_pdir
    refine (updateParent_tree hrel hl hD hold hkey hnew hkey'
      (habove hparent.2.1 hparent.2.2) hmoved hroom).bind fun t ht => ht
  · exact ⟨D, hD, hrules.moveEntry hout old_ip hdir hnew hname same_pdir⟩

/-- With passes enough for every chain, the loop is no obstacle to the rename. -/
theorem tries_inTree (hrel : Reliable env dev) (hl : Linked start)
    (hroom : 4 < start.unused_inodes.length) (m : RenameMessage) {fuel : ℕ}
    (hfuel : 2 ^ 32 ≤ fuel) :
    Opening.TriesRename hdr env m fuel (fun _ => False) (InTree dev start key []) [] := by
  rintro s old_dirp old_ip new_dirp new_ip r ⟨D, hD, hall⟩ _ _
  have h := hall.lend
  generalize hothers : gained new_ip [old_dirp, old_ip, new_dirp] = others at *
  have hopen : ∀ x ∈ [old_dirp, old_ip, new_dirp], x ∈ others := fun x hx =>
    hothers ▸ List.mem_append_right _ hx
  have hnew_ip : ∀ x ∈ new_ip, x ∈ others := fun x hx =>
    hothers ▸ List.mem_append_left _ (Option.mem_toList.mpr hx)
  have hlength : others.length ≤ 4 := by
    rw [← hothers]
    unfold gained
    cases new_ip <;> simp
  have hdir := hopen old_dirp (by simp)
  have hold := hopen old_ip (by simp)
  have hnew := hopen new_dirp (by simp)
  have hkey := h.key_eq (List.mem_append_right [] hold)
  have hkey' := h.key_eq (List.mem_append_right [] hnew)
  unfold DirectoryCalls.tryRename
  dsimp only
  split_ifs with hr
  · exact ⟨D, hD, hall⟩
  · have hcheck : Succeeds (checkAbove env fuel s old_ip new_dirp (isDirectory (s.inode old_ip))
        (old_dirp = new_dirp)) fun out => Moving dev start D (fun r => slotKey (s.inode r)) others
          out.2 [] ∧ (out.1 = .OK → isDirectory (s.inode old_ip) = true →
            decide (old_dirp = new_dirp) ≠ true →
              ¬ ReflTransGen (Parent (D dev)) (s.inode new_dirp).i_num (s.inode old_ip).i_num) := by
      unfold DirectoryCalls.checkAbove
      split_ifs with hmoves
      · refine (checkSuperdir_moving hrel (hD dev) hold hkey hnew hkey' h hfuel).mono
          fun out hout => ?_
        exact ⟨hout.1, fun hok _ _ => hout.2 hok⟩
      · exact ⟨h, fun _ hdirectory hparent => absurd ⟨hdirectory, hparent⟩ hmoves⟩
    refine hcheck.bind fun out hout => ?_
    split_ifs with hnames
    · exact ⟨D, hD, hout.1.take⟩
    · obtain ⟨hok, _, hname⟩ := checkNames_ok (not_not.mp hnames)
      apply Opening.results_lift
      refine (performRename_tree hrel hl hD hdir hold hkey hnew hkey' hnew_ip hname
        (hout.2 hok) hout.1 (by omega)).mono ?_
      rintro out' ⟨D', hD', hout'⟩
      exact ⟨D', hD', hout'.take⟩

/-! ## More passes -/

/-- With more passes the call has the same result. -/
def Grows {A : Type} (x y : Except Halt A) : Prop := ∀ a, x = .ok a → y = .ok a

theorem Grows.bind {A B : Type} {x y : Except Halt A} {f g : A → Except Halt B} (h : Grows x y)
    (hfg : ∀ a, Grows (f a) (g a)) : Grows (x >>= f) (y >>= g) := by
  intro b hb
  obtain ⟨a, hx, hfa⟩ := bind_eq_ok.mp hb
  exact bind_eq_ok.mpr ⟨a, h a hx, hfg a b hfa⟩

theorem grows_self {A : Type} (x : Except Halt A) : Grows x x := fun _ h => h

variable {fuel : ℕ}

theorem grows_checkSuperdir (s : State p) (old_ip new_dirp : Slot p) (extra : ℕ) :
    Grows (checkSuperdir env fuel s old_ip new_dirp)
      (checkSuperdir env (fuel + extra) s old_ip new_dirp) := by
  intro a ha
  unfold checkSuperdir at ha ⊢
  cases hrun : run (superdirPass env old_ip) fuel (new_dirp, dupInode s new_dirp) with
  | none =>
      rw [hrun] at ha
      cases ha
  | some out =>
      rw [hrun] at ha
      rw [run_mono hrun extra]
      exact ha

theorem grows_tryRename (m : RenameMessage) (s : State p) (old_dirp old_ip new_dirp : Slot p)
    (new_ip : Option (Slot p)) (r : Errno) (extra : ℕ) :
    Grows (tryRename hdr env m fuel s old_dirp old_ip new_dirp new_ip r)
      (tryRename hdr env m (fuel + extra) s old_dirp old_ip new_dirp new_ip r) := by
  unfold tryRename
  dsimp only
  split_ifs
  · exact grows_self _
  · refine Grows.bind ?_ fun out => grows_self _
    unfold checkAbove
    split_ifs
    · exact grows_checkSuperdir s old_ip new_dirp extra
    · exact grows_self _

theorem grows_renameInto (m : RenameMessage) (s : State p) (old_dirp old_ip : Slot p) (r : Errno)
    (extra : ℕ) : Grows (renameInto hdr env m fuel s old_dirp old_ip r)
      (renameInto hdr env m (fuel + extra) s old_dirp old_ip r) := by
  unfold renameInto
  cases getInode env s m.fs_dev m.REQ_REN_NEW_DIR with
  | mk new_dirp u =>
      cases new_dirp with
      | none => exact grows_self _
      | some new_dirp =>
          dsimp only
          by_cases hgone : (u.inode new_dirp).i_nlinks = NO_LINK
          · rw [if_pos hgone, if_pos hgone]
            exact grows_self _
          · rw [if_neg hgone, if_neg hgone]
            refine (grows_self _).bind fun out => ?_
            unfold renameOpen
            exact (grows_tryRename m out.2 old_dirp old_ip new_dirp out.1 _ extra).bind
              fun _ => grows_self _

theorem grows_fsRename (m : RenameMessage) (s : State p) (extra : ℕ) :
    Grows (fsRename hdr env m fuel s) (fsRename hdr env m (fuel + extra) s) := by
  unfold fsRename
  split_ifs
  · exact grows_self _
  · exact grows_self _
  · cases getInode env s m.fs_dev m.REQ_REN_OLD_DIR with
    | mk old_dirp u =>
        cases old_dirp with
        | none => exact grows_self _
        | some old_dirp =>
            dsimp only
            cases advance env u old_dirp m.old_name with
            | mk old_ip v =>
                dsimp only
                by_cases hmounted : v.err_code = .EENTERMOUNT ∨ v.err_code = .ELEAVEMOUNT
                · rw [if_pos hmounted, if_pos hmounted]
                  exact grows_self _
                · rw [if_neg hmounted, if_neg hmounted]
                  cases old_ip with
                  | none => exact grows_self _
                  | some old_ip => exact grows_renameInto m v old_dirp old_ip _ extra

/-! ## Requests -/

theorem rules_exists {ι : Type*} {Q : ι → Prop} {on : Dev → Prop} {may : Name → Prop}
    {P : ι → State p → List (Slot p) → Prop} (h : ∀ i, Rules env on may others (P i)) :
    Rules env on may others fun s l => ∃ i, Q i ∧ P i s l where
  linked := fun ⟨i, _, hi⟩ => (h i).linked hi
  perm := fun ⟨i, hq, hi⟩ hperm => ⟨i, hq, (h i).perm hi hperm⟩
  error e := fun ⟨i, hq, hi⟩ => ⟨i, hq, (h i).error e hi⟩
  device := fun ⟨i, _, hi⟩ hr => (h i).device hi hr
  holding := fun ⟨i, _, hi⟩ hr => (h i).holding hi hr
  get := fun ⟨i, hq, hi⟩ hon hnumb => ⟨i, hq, (h i).get hi hon hnumb⟩
  put := fun ⟨i, hq, hi⟩ => ((h i).put hi).mono fun _ ht => ⟨i, hq, ht⟩
  dup := fun ⟨i, hq, hi⟩ hr => ⟨i, hq, (h i).dup hi hr⟩
  search string n flag hname := fun ⟨i, hq, hi⟩ hr =>
    ⟨i, hq, (h i).search string n flag hname hi hr⟩
  touch := fun ⟨i, hq, hi⟩ hr hf => ⟨i, hq, (h i).touch hi hr hf⟩

theorem rules_inTree (hrel : Reliable env dev) :
    Rules env (· = dev) (fun string => string ≠ dot1 ∧ string ≠ dot2) others
      (InTree dev start key others) :=
  rules_exists fun _ => rules_moving hrel

/-- The inodes are coherent, and the directories of each device are a tree. -/
structure Planted (s : State p) : Prop where
  coherent : Coherent s
  tree : ∀ dev, Tree (s.directories dev)

theorem Planted.inTree (h : Planted s) (dev : Dev) : InTree dev s (fun _ => none) [] s [] :=
  ⟨s.directories, h.tree, ⟨⟨h.coherent, holding_nil s⟩, fun _ hr => absurd hr List.not_mem_nil,
    fun _ hr => absurd hr List.not_mem_nil⟩, owes_self h.coherent.linked, fun _ _ => .refl _⟩

theorem planted_inTree (h : InTree dev start key [] s []) : Planted s := by
  obtain ⟨D, hD, hmoving⟩ := h
  exact ⟨hmoving.ready.coherent, fun d => (hD d).fewer (hmoving.dots d)⟩

/-- A rename comes to a result, and leaves a tree. -/
theorem Planted.rename {m : RenameMessage} (hrel : Reliable env m.fs_dev) (h : Planted s)
    (hroom : 4 < s.unused_inodes.length) (hsound : FileSound s (.fs_rename m))
    (hfuel : 2 ^ 32 ≤ fuel) :
    Succeeds (fsRename hdr env m fuel s) fun out => Planted out.2 := by
  have hrules : Rules env (· = m.fs_dev) (fun string => string ≠ dot1 ∧ string ≠ dot2) []
      (InTree m.fs_dev s (fun _ => none) []) := rules_inTree hrel
  refine (hrules.fsRename hrel.finds (h.inTree m.fs_dev) rfl hsound.2.1 hsound.2.2
    (tries_inTree hrel h.coherent.linked hroom m hfuel)).mono ?_
  exact fun out hout => planted_inTree hout

/-- The directories after a call of inode.c. One whose number is given to a new inode is empty. -/
def Emptied (env : Environment p) (s : State p) (call : InodeSystem.Call p)
    (directories : Dev → UInt32 → Directory) : Prop :=
  directories = s.directories ∨ ∃ dev bits, call = .alloc_inode dev bits ∧
    directories = (s.setDirectory dev (env.alloc_bit (s.imap dev) (s.s_isearch dev)) []).directories

theorem directories_inode (h : Linked s) (call : InodeSystem.Call p) :
    Ensures (execute ⟨env, call⟩ s) fun out => Emptied env s call out.2.directories := by
  intro out hout
  cases call with
  | get_inode dev numb =>
      cases hout
      exact .inl (directories_getInode h env dev numb)
  | dup_inode ip =>
      cases hout
      exact .inl rfl
  | put_inode rip =>
      obtain ⟨u, hu, rfl⟩ := map_eq_ok.mp hout
      cases rip with
      | none =>
          cases hu
          exact .inl rfl
      | some r => exact .inl (putInode_frame hu).1
  | alloc_inode dev bits =>
      cases hout
      have hanswer : env.alloc_bit (s.imap dev) (s.s_isearch dev) = _ := rfl
      rcases InodeAllocation.allocInode_cases h bits hanswer with
        ⟨_, halloc⟩ | ⟨_, _, halloc⟩ | ⟨_, _, _, halloc⟩ | ⟨_, _, r, _, halloc⟩
      · rw [halloc]
        exact .inl rfl
      · rw [halloc]
        exact .inl rfl
      · rw [halloc, InodeAllocation.withdrawn_eq]
        exact .inl rfl
      · obtain ⟨log, hallocated⟩ := InodeAllocation.allocated_eq env s r dev bits
          (env.alloc_bit (s.imap dev) (s.s_isearch dev))
        rw [halloc, hallocated]
        exact .inr ⟨dev, bits, rfl, rfl⟩
  | retrieve_inode dev inumb =>
      have hclaimed := InodeAllocation.linked_claimed h env dev inumb
      have hsame : (InodeAllocation.claimed env s dev inumb).directories = s.directories := by
        rw [InodeAllocation.claimed_eq]
      have hget := (directories_getInode hclaimed env dev inumb).trans hsame
      change retrieveInode env s dev inumb = .ok out at hout
      cases hopened : getInode env (InodeAllocation.claimed env s dev inumb) dev inumb with
      | mk rip u =>
          rw [hopened] at hget
          cases rip with
          | none =>
              rw [InodeAllocation.retrieveInode_none hopened] at hout
              split_ifs at hout
              cases hout
              exact .inl hget
          | some r =>
              obtain ⟨log, hsome⟩ := InodeAllocation.retrieveInode_some hopened
              rw [hsome] at hout
              cases hout
              exact .inl hget

theorem directories_putTimes (n : ℕ) :
    Ensures (InodeUse.putTimes env r n s) fun t => t.directories = s.directories := by
  induction n generalizing s with
  | zero => exact ensures_ok rfl
  | succ n ih =>
      intro t ht
      obtain ⟨u, hu, hrest⟩ := bind_eq_ok.mp ht
      rw [ih t hrest]
      exact (putInode_frame hu).1

theorem directories_putnode (hl : Linked s) (m : InodeUse.PutMessage) :
    Ensures (InodeUse.fsPutnode env m s) fun out => out.2.directories = s.directories :=
  ensures_putnode hl m fun _ _ _ => directories_putTimes _

/-- The file system may be written, no inode is recovered or gets a number that another slot holds,
no link is called `.` or `..`, and a rename finds more unused slots than it opens inodes. -/
structure Orderly (e : FileStep p) : Prop where
  entries : Entries e.call.env
  safe : ¬ ClashesFile e ∧ ¬ RecoversFile e
  link : ∀ m, e.call.call = .fs (.fs_link m) → m.string ≠ dot1 ∧ m.string ≠ dot2
  rename : ∀ m, e.call.call = .fs_rename m → 4 < e.before.unused_inodes.length

theorem FileReturns.planted (hp : Conversions p) (hb : InodesPerBlock p) (h : Planted s)
    {req : FileRequest p} {answer : FileAnswer p} (hcall : FileReturns hdr s req answer t)
    (horderly : Orderly ⟨s, req, answer, t⟩) : Planted t := by
  have hcoherent := RequestRuns.FileReturns.coherent hp hb h.coherent hcall horderly.safe.1
    horderly.safe.2
  obtain ⟨hentries, ⟨_, hrecover⟩, hlink, hrename⟩ := horderly
  obtain ⟨env, call⟩ := req
  obtain ⟨hsound, ⟨hdoc, hfinds⟩, hexecutes⟩ := hcall
  have hrel : ∀ dev, dev ≠ NO_DEV → Reliable env dev :=
    fun dev hdev => ⟨hp, hb, hdoc, hfinds, hentries, hdev⟩
  have hrules : ∀ dev, dev ≠ NO_DEV → Rules env (· = dev)
      (fun string => string ≠ dot1 ∧ string ≠ dot2) [] (InTree dev s (fun _ => none) []) :=
    fun dev hdev => rules_inTree (hrel dev hdev)
  have hsame : ∀ {u : State p}, u.directories = s.directories → ∀ d, Tree (u.directories d) := by
    intro u hu
    rw [hu]
    exact h.tree
  refine ⟨hcoherent, ?_⟩
  cases hexecutes with
  | @fs fscall answer t hout =>
      cases fscall with
      | inode call =>
          obtain ⟨out, hinode, hpair⟩ := map_eq_ok.mp hout
          cases hpair
          rcases directories_inode h.coherent.linked call _ hinode with hkept | ⟨dev, bits, _, hmade⟩
          · exact hsame hkept
          · intro d
            rw [hmade]
            exact (h.tree d).fewer (fewerDots_cleared s dev _ d)
      | fs_link m =>
          obtain ⟨out, hfs, hpair⟩ := map_eq_ok.mp hout
          cases hpair
          exact (planted_inTree (((hrules m.fs_dev hsound.1).fsLink hfinds (h.inTree m.fs_dev) rfl
            hsound.2.1 hsound.2.2 (hlink m rfl)).ensures _ hfs)).tree
      | fs_unlink m =>
          obtain ⟨out, hfs, hpair⟩ := map_eq_ok.mp hout
          cases hpair
          exact (planted_inTree (((hrules m.fs_dev hsound.1).fsUnlink hfinds (h.inTree m.fs_dev) rfl
            hsound.2).ensures _ hfs)).tree
      | fs_recover m =>
          obtain ⟨out, hfs, hpair⟩ := map_eq_ok.mp hout
          cases hpair
          have hdir : ¬ Available s (m.REQ_DEV, m.REQ_DIR_INO) := fun havailable =>
            hrecover ⟨m, rfl, havailable⟩
          obtain ⟨log, misses, hfails⟩ := fsRecover_unavailable h.coherent.linked env hdir
          rw [hfails] at hfs
          cases hfs
          exact h.tree
  | @rmdir m r t hout =>
      exact (planted_inTree (((hrules m.fs_dev hsound.1).fsRmdir hfinds (h.inTree m.fs_dev) rfl
        hsound.2).ensures _ hout)).tree
  | @rdlink m r nbytes t hout =>
      exact (planted_inTree (((hrules m.fs_dev hsound.1).fsRdlink (h.inTree m.fs_dev) rfl
        hsound.2).ensures _ hout)).tree
  | @rename m fuel r t hout =>
      -- with more passes it comes to the same
      have hmore := grows_fsRename m s (2 ^ 32) _ hout
      exact ((h.rename (hrel m.fs_dev hsound.1) (hrename m rfl) hsound
        (Nat.le_add_left _ _)).ensures _ hmore).tree
  | putnode hout => exact hsame (directories_putnode h.coherent.linked _ _ hout)

theorem planted_of_run (hp : Conversions p) (hb : InodesPerBlock p) {history : List (FileStep p)}
    (hr : Run (fileSystem hdr (initInodeCache start)) history s)
    (htree : ∀ dev, Tree (start.directories dev)) (horderly : ∀ e ∈ history, Orderly e) :
    Planted s := by
  refine hr.guarded_invariant (I := fun _ t => Planted t)
    ⟨coherent_initInodeCache start, htree⟩ ?_ horderly
  intro history u req answer v _ hu hcall hstep
  exact FileReturns.planted hp hb hu hcall hstep

/-! ## Three directories -/

/-- A platform with slots enough for a rename. -/
def roomy : Platform := { small with NR_INODES := 8 }

def listed (entries : Directory) (name : Name) : Option (Name × UInt32) :=
  entries.find? fun e => e.1 = name ∧ e.2 ≠ NO_ENTRY

def marked (dirp : Inode roomy) : Inode roomy := { dirp with i_dirt := .IN_DIRTY }

/-- The entries are in the order of their making. -/
def searchList (entries : Directory) (name : Name) (numb : Option UInt32) (flag : Flag) :
    Searched roomy :=
  match flag, listed entries name with
  | .LOOK_UP, none => ⟨.ENOENT, NO_ENTRY, entries, id, false⟩
  | .LOOK_UP, some e => ⟨.OK, e.2, entries, id, false⟩
  | .ENTER, _ => ⟨.OK, NO_ENTRY, entries ++ [(name, numb.getD NO_ENTRY)], marked, false⟩
  | .DELETE, none => ⟨.ENOENT, NO_ENTRY, entries, id, false⟩
  | .DELETE, some e => ⟨.OK, NO_ENTRY, entries.erase e, marked, false⟩
  | .IS_EMPTY, _ =>
      ⟨if entries.all isDots then .OK else .other (-66), NO_ENTRY, entries, id, false⟩

def listEnvironment : Environment roomy where
  caller_uid := 8
  caller_gid := 3
  clock_time := 1000
  alloc_bit := lowestClear
  free_bit map b := Function.update map b false
  search_dir := searchList
  advance entries name :=
    ((listed entries name).map fun e => .entry e.2 .OK).getD (.missing .ENOENT)

theorem listed_eq_some {entries : Directory} {name : Name} {e : Name × UInt32}
    (h : listed entries name = some e) : e ∈ entries ∧ e.1 = name ∧ e.2 ≠ NO_ENTRY := by
  have hprop := List.find?_some h
  rw [decide_eq_true_eq] at hprop
  exact ⟨List.mem_of_find?_eq_some h, hprop⟩

theorem listed_eq_none {entries : Directory} {name : Name} :
    listed entries name = none ↔ ¬ Named entries name := by
  unfold listed Named
  rw [List.find?_eq_none]
  constructor
  · rintro h ⟨numb, hnumb, hmem⟩
    exact absurd (h _ hmem) (by simpa using hnumb)
  · intro h e he
    simp only [decide_eq_true_eq, not_and, not_not]
    rintro rfl
    by_contra hne
    exact h ⟨e.2, hne, he⟩

theorem advance_cases (entries : Directory) (name : Name) :
    (listed entries name = none ∧ listEnvironment.advance entries name = .missing .ENOENT) ∨
    ∃ numb, listed entries name = some (name, numb) ∧
      listEnvironment.advance entries name = .entry numb .OK := by
  change (_ ∧ ((listed entries name).map fun e => Found.entry e.2 .OK).getD _ = _) ∨
    ∃ numb, _ ∧ ((listed entries name).map fun e => Found.entry e.2 .OK).getD _ = _
  cases hlisted : listed entries name with
  | none => exact .inl ⟨rfl, rfl⟩
  | some e =>
      obtain ⟨_, rfl, _⟩ := listed_eq_some hlisted
      exact .inr ⟨e.2, rfl, rfl⟩

theorem missing_list {entries : Directory} {name : Name} {e : Errno}
    (h : listEnvironment.advance entries name = .missing e) : e = .ENOENT := by
  rcases advance_cases entries name with ⟨_, hadvance⟩ | ⟨numb, _, hadvance⟩
  · rw [hadvance] at h
    cases h
    rfl
  · rw [hadvance] at h
    cases h

theorem advance_listed {entries : Directory} {name : Name} {numb : UInt32} {e : Errno}
    (h : listEnvironment.advance entries name = .entry numb e) :
    e = .OK ∧ listed entries name = some (name, numb) := by
  rcases advance_cases entries name with ⟨_, hadvance⟩ | ⟨numb, hlisted, hadvance⟩
  · rw [hadvance] at h
    cases h
  · rw [hadvance] at h
    cases h
    exact ⟨rfl, hlisted⟩

theorem advance_list {entries : Directory} {name : Name} {numb : UInt32} {e : Errno}
    (h : listEnvironment.advance entries name = .entry numb e) :
    e = .OK ∧ (name, numb) ∈ entries ∧ numb ≠ NO_ENTRY := by
  obtain ⟨hok, hlisted⟩ := advance_listed h
  obtain ⟨hmem, _, hnumb⟩ := listed_eq_some hlisted
  exact ⟨hok, hmem, hnumb⟩

theorem inserted_erase {e : Name × UInt32} {entries : Directory} (h : e ∈ entries) :
    Inserted e (entries.erase e) entries := by
  obtain ⟨front, back, _, hentries, herase⟩ := List.exists_erase_eq h
  exact ⟨front, back, herase, hentries⟩

theorem entries_list : Entries listEnvironment := by
  constructor
  · intro entries string n
    change (searchList entries string n .LOOK_UP).entries = entries
    unfold searchList
    cases listed entries string <;> rfl
  · exact fun _ _ _ => rfl
  · intro entries string n
    change (searchList entries string n .LOOK_UP).answer = .OK ↔ _
    unfold searchList
    cases hlisted : listed entries string with
    | none => exact iff_of_false nofun (listed_eq_none.mp hlisted)
    | some e =>
        obtain ⟨hmem, rfl, hnumb⟩ := listed_eq_some hlisted
        exact iff_of_true rfl ⟨e.2, hnumb, hmem⟩
  · exact fun entries string numb => .inl ⟨entries, [], (List.append_nil entries).symm, rfl⟩
  · intro entries string n hnamed
    change (searchList entries string n .DELETE).answer = .OK ∧ ∃ numb, numb ≠ NO_ENTRY ∧
      Inserted (string, numb) (searchList entries string n .DELETE).entries entries
    unfold searchList
    cases hlisted : listed entries string with
    | none => exact absurd hnamed (listed_eq_none.mp hlisted)
    | some e =>
        obtain ⟨hmem, rfl, hnumb⟩ := listed_eq_some hlisted
        exact ⟨rfl, e.2, hnumb, inserted_erase hmem⟩
  · intro entries string n hnot
    change (searchList entries string n .DELETE).entries = entries
    unfold searchList
    rw [listed_eq_none.mpr hnot]
  · exact fun entries string numb e h => (advance_list h).2.1
  · intro entries string e h
    rw [missing_list h]
    exact nofun
  · intro entries numb h
    exact absurd (advance_list h).1 nofun

theorem searchList_dirp (entries : Directory) (name : Name) (numb : Option UInt32) (flag : Flag) :
    (searchList entries name numb flag).dirp = id ∨
      (searchList entries name numb flag).dirp = marked := by
  unfold searchList
  cases flag with
  | LOOK_UP => cases listed entries name <;> exact .inl rfl
  | ENTER => exact .inr rfl
  | DELETE =>
      cases listed entries name with
      | none => exact .inl rfl
      | some e => exact .inr rfl
  | IS_EMPTY => exact .inl rfl

theorem documented_list : Documented listEnvironment := by
  constructor
  · intro entries string numb flag rip
    change SameLinks ((searchList entries string numb flag).dirp rip) rip
    rcases searchList_dirp entries string numb flag with hid | hmarked
    · rw [hid]
      exact ⟨rfl, rfl, rfl, rfl⟩
    · rw [hmarked]
      exact ⟨rfl, rfl, rfl, rfl⟩
  · intro entries string numb flag rip
    right
    change Marks (searchList entries string numb flag).dirp rip
    rcases searchList_dirp entries string numb flag with hid | hmarked
    · right
      rw [hid]
      exact ⟨fun _ => rfl, rfl⟩
    · left
      rw [hmarked]
      rfl
  · exact fun entries string numb e h => (advance_list h).2.2

theorem finds_list : Finds listEnvironment := by
  constructor
  · intro entries string e h
    rw [missing_list h]
    exact nofun
  · intro entries string n hok
    change (searchList entries string n .LOOK_UP).answer = .OK at hok
    change (searchList entries string n .LOOK_UP).numb ≠ NO_ENTRY
    unfold searchList at hok ⊢
    cases hlisted : listed entries string with
    | none =>
        rw [hlisted] at hok
        cases hok
    | some e => exact (listed_eq_some hlisted).2.2
  · exact fun entries string numb e h => (advance_list h).2.2
  · exact fun entries string numb e h => .inl (advance_list h).1

/-- Below the root 1 are the directories 2 and 3. -/
def threeDirectories (n : UInt32) : Directory :=
  if n = 1 then [(dot1, 1), (dot2, 1), ("a", 2), ("b", 3)]
  else if n = 2 then [(dot1, 2), (dot2, 1)]
  else if n = 3 then [(dot1, 3), (dot2, 1)]
  else []

theorem tree_threeDirectories : Tree threeDirectories := by
  have hparent : ∀ a b, b ∈ parents (threeDirectories a) → b = 1 := by
    intro a b hb
    have hsub : parents (threeDirectories a) ⊆ [1] := by
      unfold threeDirectories
      split_ifs <;> decide
    exact List.mem_singleton.mp (hsub hb)
  constructor
  · intro a b hb
    unfold threeDirectories at hb
    split_ifs at hb with h1 h2 h3 <;> simp_all [dots, isDots, dot1, dot2]
  · intro a
    unfold threeDirectories
    split_ifs <;> decide
  · intro a ha
    -- every parent is the root, and the root has none
    have hlast : ∀ c, TransGen (Parent threeDirectories) a c → c = 1 := by
      intro c hc
      rcases TransGen.tail'_iff.mp hc with ⟨b, _, hstep⟩
      exact hparent b c hstep.1
    rcases TransGen.head'_iff.mp ha with ⟨b, hstep, _⟩
    exact hstep.2 ((hparent a b hstep.1).trans (hlast a ha).symm)

def emptyTable : State roomy where
  inode _ :=
    { i_mode := 0, i_nlinks := 0, i_uid := 0, i_gid := 0, i_size := 0, i_atime := 0, i_mtime := 0,
      i_ctime := 0, i_zone := Vector.replicate _ 0, i_dev := 0, i_num := 0, i_count := 0,
      i_ndzones := 0, i_nindirs := 0, i_sp := 0, i_dirt := .IN_CLEAN, i_zsearch := 0,
      i_last_dpos := 0, i_mountpoint := false, i_update := .none }
  unused_inodes := []
  hash_inodes _ := []
  inode_cache_hit := 0
  inode_cache_miss := 0
  err_code := .OK
  s_isearch _ := 0
  imap _ b := b ≤ 3
  zmap _ _ := false
  blocks _ _ :=
    { b_v1_ino := fun _ => ⟨0, 0, 0, 0, 0, 0, Vector.replicate _ 0⟩
      b_v2_ino := fun _ => ⟨0x41ED, 2, 0, 0, 64, 0, 0, 0, Vector.replicate _ 0⟩ }
  directories _ := threeDirectories
  log := []

/-- The directory `a` is moved into `b`. -/
def moveMessage : RenameMessage where
  fs_dev := 1
  REQ_REN_OLD_DIR := 1
  REQ_REN_NEW_DIR := 3
  copied_old := .OK
  old_name := "a"
  copied_new := .OK
  new_name := "a"

theorem sound_move (s : State roomy) : FileSound s (.fs_rename moveMessage) := by
  change (1 : Dev) ≠ NO_DEV ∧ (1 : UInt32) ≠ NO_ENTRY ∧ (3 : UInt32) ≠ NO_ENTRY
  decide

theorem conversions_roomy : Conversions roomy := ⟨conversions_small.conv2, conversions_small.conv4⟩

theorem inodesPerBlock_roomy : InodesPerBlock roomy := inodesPerBlock_small

theorem room_emptyTable : 4 < (initInodeCache emptyTable).unused_inodes.length := by
  change 4 < (List.finRange 8).reverse.length
  decide

/-- However the directories are moved, each has one parent at most and none is above itself. -/
theorem directories_tree (hp : Conversions p) (hb : InodesPerBlock p) {history : List (FileStep p)}
    (hr : Run (fileSystem hdr (initInodeCache start)) history s)
    (htree : ∀ dev, Tree (start.directories dev)) (horderly : ∀ e ∈ history, Orderly e)
    (dev : Dev) : Tree (s.directories dev) :=
  (planted_of_run hp hb hr htree horderly).tree dev

theorem planted_emptyTable : Planted (initInodeCache emptyTable) :=
  ⟨coherent_initInodeCache emptyTable, fun _ => tree_threeDirectories⟩

theorem rename_three {fuel : ℕ} (hfuel : 2 ^ 32 ≤ fuel) :
    Succeeds (fsRename smallHeaders listEnvironment moveMessage fuel (initInodeCache emptyTable))
      fun out => Planted out.2 :=
  planted_emptyTable.rename ⟨conversions_roomy, inodesPerBlock_roomy, documented_list, finds_list,
    entries_list, (sound_move emptyTable).1⟩ room_emptyTable (sound_move _) hfuel

theorem directories_tree_three :
    ∃ fuel r t, fsRename smallHeaders listEnvironment moveMessage fuel (initInodeCache emptyTable) =
      .ok (r, t) ∧ Tree (t.directories 1) := by
  obtain ⟨fuel, hfuel⟩ : ∃ fuel, 2 ^ 32 ≤ fuel := ⟨2 ^ 32, Nat.le_refl _⟩
  obtain ⟨⟨r, t⟩, hrename, _⟩ := (rename_three hfuel).exists
  have hcall : FileReturns smallHeaders (initInodeCache emptyTable)
      ⟨listEnvironment, .fs_rename moveMessage⟩ (.errno r) t :=
    ⟨sound_move _, ⟨documented_list, finds_list⟩, .rename hrename⟩
  refine ⟨fuel, r, t, hrename, directories_tree conversions_roomy inodesPerBlock_roomy
    (Run.init.call hcall) (fun _ => tree_threeDirectories) ?_ 1⟩
  intro e he
  rw [List.mem_singleton.mp he]
  refine ⟨entries_list, ⟨?_, ?_⟩, nofun, fun _ _ => room_emptyTable⟩
  · rintro ⟨call, hcall, _⟩
    cases hcall
  · rintro ⟨m, hcall, _⟩
    cases hcall

/-- In the states that such runs reach, the loop of `fs_rename` does not hang. -/
theorem rename_returns (hp : Conversions p) (hb : InodesPerBlock p) {history : List (FileStep p)}
    (hr : Run (fileSystem hdr (initInodeCache start)) history s)
    (htree : ∀ dev, Tree (start.directories dev)) (horderly : ∀ e ∈ history, Orderly e)
    (hdoc : Documented env) (hfinds : Finds env) (hentries : Entries env) {m : RenameMessage}
    (hsound : FileSound s (.fs_rename m)) (hroom : 4 < s.unused_inodes.length) :
    ∃ r t, (∀ fuel, 2 ^ 32 ≤ fuel → fsRename hdr env m fuel s = .ok (r, t)) ∧
      ∀ dev, Tree (t.directories dev) := by
  have hplanted := planted_of_run hp hb hr htree horderly
  have hmoves : Succeeds (fsRename hdr env m (2 ^ 32) s) fun out => Planted out.2 :=
    hplanted.rename ⟨hp, hb, hdoc, hfinds, hentries, hsound.1⟩ hroom hsound (Nat.le_refl _)
  obtain ⟨⟨r, t⟩, hrename, ht⟩ := hmoves.exists
  refine ⟨r, t, fun fuel hfuel => ?_, ht.tree⟩
  rw [← Nat.add_sub_of_le hfuel]
  exact grows_fsRename m s _ _ hrename

theorem rename_returns_three :
    ∃ r t, (∀ fuel, 2 ^ 32 ≤ fuel →
      fsRename smallHeaders listEnvironment moveMessage fuel (initInodeCache emptyTable) =
        .ok (r, t)) ∧
        ∀ dev, Tree (t.directories dev) :=
  rename_returns conversions_roomy inodesPerBlock_roomy Run.init (fun _ => tree_threeDirectories)
    (fun _ he => absurd he List.not_mem_nil) documented_list finds_list entries_list (sound_move _)
    room_emptyTable

end MinixOS.DirectoryMoves
