import MinixOS.CheckedExecution
import MinixOS.InodeCoherence
import MinixOS.LinkCalls

/-!
# Links and clean inodes

Whatever `fs_link` and `fs_unlink` change of an inode, they mark it, and so does `search_dir`.
The calls are followed with the list of the references they hold, because an inode may
only be changed, or put, while it is held. The one call that takes a mark away without
writing is `fs_recover`.
-/
namespace MinixOS.LinkCoherence
open CheckedExecution SystemRuns InodeState InodeCopy InodeCache WriteBackCache InodeView
  InodeRelease InodeAllocation InodeSystem InodeSlots InodeCoherence LinkCalls

variable {p : Platform} {s t : State p} {q r : Slot p} {k : Dev × UInt32} {env : Environment p}

/-! ## References in hand -/

/-- A call has these references: as many users of each inode are its own. -/
def Holding (s : State p) (l : List (Slot p)) : Prop :=
  ∀ r ∈ l, (s.inode r).i_num ≠ NO_ENTRY ∧ l.count r ≤ (s.inode r).i_count

structure Ready (s : State p) (l : List (Slot p)) : Prop where
  coherent : Coherent s
  holding : Holding s l

variable {l : List (Slot p)} {dev : Dev} {numb : UInt32}

theorem holding_nil (s : State p) : Holding s [] := fun _ hr => absurd hr List.not_mem_nil

theorem Holding.congr (h : Holding s l) (hinode : ∀ r, SameLinks (t.inode r) (s.inode r)) :
    Holding t l := by
  intro r hr
  rw [(hinode r).i_num, (hinode r).i_count]
  exact h r hr

theorem Ready.notMem_unused (h : Ready s l) (hr : r ∈ l) : r ∉ s.unused_inodes := by
  obtain ⟨hnum, hcount⟩ := h.holding r hr
  have hpos := List.count_pos_iff.mpr hr
  exact h.coherent.linked.notMem_unused hnum (by omega)

theorem Ready.of_eq (h : Ready s l) (hinode : t.inode = s.inode) (hblocks : t.blocks = s.blocks)
    (hunused : t.unused_inodes = s.unused_inodes) (hhash : t.hash_inodes = s.hash_inodes) :
    Ready t l := by
  have hsame : ∀ r, SameLinks (t.inode r) (s.inode r) := by
    intro r
    rw [hinode]
    exact ⟨rfl, rfl, rfl, rfl⟩
  exact ⟨h.coherent.kept (h.coherent.linked.congr hunused hhash hsame)
    (.of_eq hinode hblocks hunused), h.holding.congr hsame⟩

/-! ## What a call does with them -/

theorem Holding.found (h : Holding s l) (hnum : (s.inode r).i_num ≠ NO_ENTRY) :
    Holding (found s r) (r :: l) := by
  intro q hq
  rw [found_inode]
  by_cases he : q = r
  · subst he
    rw [if_pos rfl, List.count_cons_self]
    refine ⟨hnum, ?_⟩
    change l.count q + 1 ≤ (s.inode q).i_count + 1
    by_cases hmem : q ∈ l
    · have hcount := (h q hmem).2
      omega
    · rw [List.count_eq_zero_of_not_mem hmem]
      omega
  · rw [if_neg he, List.count_cons_of_ne (Ne.symm he)]
    exact h q ((List.mem_cons.mp hq).resolve_left he)

theorem Ready.loaded (h : Ready s l) (hr : r ∈ s.unused_inodes) (hnumb : numb ≠ NO_ENTRY) :
    Holding (loaded s r dev numb) (r :: l) := by
  have hlinks := loadInode_links s r dev numb
  have hmem : r ∉ l := fun hmem => h.notMem_unused hmem hr
  intro q hq
  rw [loaded_inode]
  by_cases he : q = r
  · subst he
    rw [if_pos rfl, List.count_cons_self, List.count_eq_zero_of_not_mem hmem, hlinks.2.1,
      hlinks.2.2.1]
    exact ⟨hnumb, Nat.le_refl 1⟩
  · rw [if_neg he, List.count_cons_of_ne (Ne.symm he)]
    exact h.holding q ((List.mem_cons.mp hq).resolve_left he)

/-- The references after a call of `get_inode`. -/
def gained (answer : Option (Slot p)) (l : List (Slot p)) : List (Slot p) := answer.toList ++ l

theorem Ready.get (hp : Conversions p) (h : Ready s l) (hdev : dev ≠ NO_DEV)
    (hnumb : numb ≠ NO_ENTRY) (env : Environment p) :
    Ready (getInode env s dev numb).2 (gained (getInode env s dev numb).1 l) := by
  have hl := h.coherent.linked
  obtain ⟨hacquired, hlinked⟩ := getInode_acquired hp hl hdev hnumb env
  refine ⟨h.coherent.acquired hlinked hacquired, ?_⟩
  rcases getInode_cases hl env dev numb with ⟨r, hkey, hget⟩ | ⟨_, _, hget⟩ | ⟨_, r, hr, hget⟩
  · rw [hget]
    exact h.holding.found (slotKey_eq_some.mp hkey).1
  · rw [hget]
    exact h.holding
  · rw [hget]
    exact h.loaded (List.mem_of_mem_head? hr) hnumb

theorem Ready.put (hb : InodesPerBlock p) (h : Ready s (r :: l)) (env : Environment p) :
    Ensures (putInode env s (some r)) fun t => Ready t l := by
  intro t hput
  have hl := h.coherent.linked
  obtain ⟨hnum, hcount⟩ := h.holding r List.mem_cons_self
  rw [List.count_cons_self] at hcount
  have hheld : Held s r := ⟨hnum, by omega⟩
  obtain ⟨u, hu, hreleased, hlinked⟩ := putInode_released hb hl hheld env
  rw [hput] at hu
  cases hu
  refine ⟨h.coherent.released hlinked hreleased, ?_⟩
  have hother : ∀ q ∈ l, q ≠ r → (s.inode q).i_num ≠ NO_ENTRY ∧ l.count q ≤ (s.inode q).i_count := by
    intro q hq hne
    have hold := h.holding q (List.mem_cons_of_mem r hq)
    rw [List.count_cons_of_ne (Ne.symm hne)] at hold
    exact hold
  rcases putInode_cases env s r with ⟨hzero, _⟩ | ⟨hone, heq⟩ | ⟨hmany, heq⟩
  · omega
  · rw [hput] at heq
    cases heq
    intro q hq
    have hne : q ≠ r := by
      intro he
      have hpos := List.count_pos_iff.mpr (he ▸ hq)
      omega
    rw [released_other env s hne]
    exact hother q hq hne
  · rw [hput] at heq
    cases heq
    intro q hq
    by_cases he : q = r
    · subst he
      rw [inode_modify_self]
      refine ⟨hnum, ?_⟩
      change l.count q ≤ (s.inode q).i_count - 1
      omega
    · rw [inode_modify_of_ne _ _ he]
      exact hother q hq he

theorem Ready.dup (h : Ready s l) (hr : r ∈ l) : Ready (dupInode s r) (r :: l) := by
  obtain ⟨hnum, hcount⟩ := h.holding r hr
  have hpos := List.count_pos_iff.mpr hr
  have hlinked := linked_setCount h.coherent.linked hnum (by omega)
    (Nat.succ_pos (s.inode r).i_count)
  refine ⟨h.coherent.kept hlinked (.setCount s r _), ?_⟩
  intro q hq
  change ((s.modify r _).inode q).i_num ≠ NO_ENTRY ∧ _ ≤ ((s.modify r _).inode q).i_count
  by_cases he : q = r
  · subst he
    rw [inode_modify_self, List.count_cons_self]
    refine ⟨hnum, ?_⟩
    change l.count q + 1 ≤ (s.inode q).i_count + 1
    omega
  · rw [inode_modify_of_ne _ _ he, List.count_cons_of_ne (Ne.symm he)]
    exact h.holding q ((List.mem_cons.mp hq).resolve_left he)

theorem Ready.modify (h : Ready s l) (hr : r ∈ l) {f : Inode p → Inode p}
    (hf : SameLinks (f (s.inode r)) (s.inode r))
    (hmarks : (p.get_super (s.inode r).i_dev).s_rd_only = false → Marks f (s.inode r)) :
    Ready (s.modify r f) l :=
  ⟨h.coherent.modify (h.notMem_unused hr) hf hmarks, h.holding.congr (sameLinks_modify hf)⟩

/-- A change after which the inode is marked dirty. -/
theorem Ready.touch (h : Ready s l) (hr : r ∈ l) {f : Inode p → Inode p}
    (hf : SameLinks (f (s.inode r)) (s.inode r)) : Ready (markDirty (s.modify r f) r) l := by
  have hnum := (h.holding r hr).1
  obtain ⟨log, hdirty⟩ := markDirty_eq (s.modify r f) r
  have hdirtied : SameLinks (dirtied (f (s.inode r))) (s.inode r) :=
    ⟨hf.i_num, hf.i_dev, hf.i_sp, hf.i_count⟩
  have hboth : Ready (s.modify r fun rip => dirtied (f rip)) l := by
    apply h.modify hr (f := fun rip => dirtied (f rip)) hdirtied
    intro hrw
    left
    have hsp : (f (s.inode r)).i_sp = (s.inode r).i_dev :=
      hf.i_sp.trans (h.coherent.linked.attached r hnum).2
    unfold dirtied
    dsimp only
    rw [hsp, hrw]
    rfl
  rw [hdirty, modify_modify]
  exact hboth.of_eq rfl rfl rfl rfl

/-- A change after which the inode is written. -/
theorem Ready.write (hb : InodesPerBlock p) (h : Ready s l) (hr : r ∈ l) {f : Inode p → Inode p}
    (hf : SameLinks (f (s.inode r)) (s.inode r)) (cur_time : UInt32) :
    Ready (rwInode cur_time (s.modify r f) r .WRITING) l := by
  have hnum := (h.holding r hr).1
  have hunused := h.notMem_unused hr
  have hchanged := h.coherent.change hunused hf
  have hsp : ((s.modify r f).inode r).i_sp = ((s.modify r f).inode r).i_dev := by
    rw [inode_modify_self, hf.i_sp, hf.i_dev]
    exact (h.coherent.linked.attached r hnum).2
  refine ⟨hchanged.write hb hunused cur_time, ?_⟩
  apply (h.holding.congr (sameLinks_modify hf)).congr
  intro q
  rw [writing_inode]
  split_ifs with hq
  · rw [hq]
    exact sameLinks_writing cur_time hsp
  · exact ⟨rfl, rfl, rfl, rfl⟩

/-! ## Directories -/

/-- `search_dir` leaves the inode of the directory as it is on disk, or marks it, or writes it, and
`advance` finds no entry with number 0. -/
structure Documented (env : Environment p) : Prop where
  links : ∀ entries string numb flag rip,
    SameLinks ((env.search_dir entries string numb flag).dirp rip) rip
  marks : ∀ entries string numb flag rip,
    (env.search_dir entries string numb flag).written = true ∨
      Marks (env.search_dir entries string numb flag).dirp rip
  entry : ∀ entries string numb e, env.advance entries string = .entry numb e → numb ≠ NO_ENTRY

theorem Ready.search (hb : InodesPerBlock p) (hdoc : Documented env) (h : Ready s l) (hr : r ∈ l)
    (string : Name) (n : Option UInt32) (flag : Flag) :
    Ready (searchDir env s r string n flag).2.2 l := by
  unfold searchDir
  dsimp only
  have hdirectory : Ready (s.setDirectory (s.inode r).i_dev (s.inode r).i_num
      (env.search_dir (s.directories (s.inode r).i_dev (s.inode r).i_num) string n flag).entries) l :=
    h.of_eq rfl rfl rfl rfl
  split_ifs with hwritten
  · exact hdirectory.write hb hr (hdoc.links _ string n flag _) env.clock_time
  · apply hdirectory.modify hr (hdoc.links _ string n flag _)
    intro _
    exact (hdoc.marks _ string n flag _).resolve_left hwritten

theorem Ready.advance (hp : Conversions p) (hdoc : Documented env) (h : Ready s l) (hr : r ∈ l)
    (string : Name) :
    Ready (advance env s r string).2 (gained (advance env s r string).1 l) := by
  have hnum := (h.holding r hr).1
  have hdev := (h.coherent.linked.attached r hnum).1
  unfold LinkCalls.advance
  dsimp only
  cases hentry : env.advance (s.directories (s.inode r).i_dev (s.inode r).i_num) string with
  | missing e => exact h.of_eq rfl rfl rfl rfl
  | entry numb e =>
      have hget := h.get hp hdev (hdoc.entry _ string numb e hentry) env
      dsimp only
      cases hacquired : getInode env s (s.inode r).i_dev numb with
      | mk rip u =>
          rw [hacquired] at hget
          cases rip with
          | none => exact hget
          | some rip => exact hget.of_eq rfl rfl rfl rfl

/-! ## The calls -/

/-- The call leaves these references. -/
def Leaves (l : List (Slot p)) (out : Errno × State p) : Prop := Ready out.2 l

theorem Ready.registerLink (hb : InodesPerBlock p) (hdoc : Documented env) (h : Ready s l)
    {rip ip : Slot p} (hrip : rip ∈ l) (hip : ip ∈ l) (r : Errno) (string : Name) :
    Leaves l (registerLink env r s rip ip string) := by
  have hsearch := h.search hb hdoc hip string (some (s.inode rip).i_num) .ENTER
  unfold LinkCalls.registerLink Leaves
  split_ifs with hr
  · exact h
  · dsimp only
    split_ifs
    · exact hsearch.touch hrip ⟨rfl, rfl, rfl, rfl⟩
    · exact hsearch

theorem Ready.enterLink (hp : Conversions p) (hb : InodesPerBlock p) (hdoc : Documented env)
    (h : Ready s l) {rip ip : Slot p} (hrip : rip ∈ l) (hip : ip ∈ l) (string : Name) :
    Ensures (enterLink env s rip ip string) (Leaves l) := by
  have hadvance := h.advance hp hdoc hip string
  unfold LinkCalls.enterLink
  cases hnew : LinkCalls.advance env s ip string with
  | mk new_ip u =>
      rw [hnew] at hadvance
      cases new_ip with
      | none => exact ensures_ok (hadvance.registerLink hb hdoc hrip hip _ string)
      | some new_ip =>
          have hput : Ensures (putInode env u (some new_ip)) fun t => Ready t l :=
            hadvance.put hb env
          exact hput.bind fun t ht => ensures_ok (ht.registerLink hb hdoc hrip hip _ string)

theorem Ready.put_leaves (hb : InodesPerBlock p) (h : Ready s (r :: l)) (e : Errno) :
    Ensures (putInode env s (some r) >>= fun s => pure (e, s)) (Leaves l) :=
  (h.put hb env).bind fun _ ht => ensures_ok ht

/-- The order in which two references are put does not matter. -/
theorem Ready.swap (h : Ready s (q :: r :: l)) : Ready s (r :: q :: l) := by
  refine ⟨h.coherent, fun x hx => ?_⟩
  have hperm : (q :: r :: l).Perm (r :: q :: l) := List.Perm.swap r q l
  rw [← hperm.count_eq]
  exact h.holding x (hperm.mem_iff.mpr hx)

theorem Ready.put_both (hb : InodesPerBlock p) {q : Slot p} (h : Ready s (r :: q :: l))
    (e : Errno) :
    Ensures (putInode env s (some r) >>= fun s => putInode env s (some q) >>= fun s =>
      pure (e, s)) (Leaves l) :=
  (h.put hb env).bind fun _ ht => ht.put_leaves hb e

theorem Ready.fsLink (hp : Conversions p) (hb : InodesPerBlock p) (hdoc : Documented env)
    (h : Ready s l) {m : Message} (hdev : m.fs_dev ≠ NO_DEV) (hnumb : m.REQ_INODE_NR ≠ NO_ENTRY)
    (hdir : m.REQ_DIR_INO ≠ NO_ENTRY) : Ensures (fsLink env m s) (Leaves l) := by
  unfold LinkCalls.fsLink
  split_ifs with hcopied
  · exact ensures_ok h
  · have hget := h.get hp hdev hnumb env
    cases hfile : getInode env s m.fs_dev m.REQ_INODE_NR with
    | mk rip u =>
        rw [hfile] at hget
        cases rip with
        | none => exact ensures_ok hget
        | some rip =>
            dsimp only
            split_ifs with hcheck
            · exact hget.put_leaves hb _
            · have hget' := hget.get hp hdev hdir env
              cases hparent : getInode env u m.fs_dev m.REQ_DIR_INO with
              | mk ip v =>
                  rw [hparent] at hget'
                  cases ip with
                  | none => exact hget'.put_leaves hb _
                  | some ip =>
                      dsimp only
                      have hboth : Ready v (rip :: ip :: l) := hget'.swap
                      split_ifs
                      · exact hboth.put_both hb _
                      · have hentered := hboth.enterLink hp hb hdoc List.mem_cons_self
                          (List.mem_cons_of_mem _ List.mem_cons_self) m.string
                        exact hentered.bind fun out hout => Ready.put_both hb hout out.1

theorem Ready.deleteEntry (hb : InodesPerBlock p) (hdoc : Documented env) {dirp rip : Slot p}
    (h : Ready s (rip :: l)) (hdirp : dirp ∈ l) (file_name : Name) :
    Ensures (deleteEntry env s dirp rip file_name) (Leaves l) := by
  have hsearch := h.search hb hdoc (List.mem_cons_of_mem rip hdirp) file_name none .DELETE
  unfold LinkCalls.deleteEntry
  dsimp only
  apply Ready.put_leaves hb
  split_ifs
  · exact hsearch.touch List.mem_cons_self ⟨rfl, rfl, rfl, rfl⟩
  · exact hsearch

theorem Ready.unlinkFile (hb : InodesPerBlock p) (hdoc : Documented env) {dirp rip : Slot p}
    (h : Ready s l) (hdirp : dirp ∈ l) (hrip : rip ∈ l) (file_name : Name) :
    Ensures (unlinkFile env s dirp (some rip) file_name) (Leaves l) :=
  (h.dup hrip).deleteEntry hb hdoc hdirp file_name

theorem Ready.tryUnlink (hb : InodesPerBlock p) (hdoc : Documented env) {rldirp rip : Slot p}
    (h : Ready s l) (hrldirp : rldirp ∈ l) (hrip : rip ∈ l) (string : Name) :
    Ensures (tryUnlink env s rldirp rip string) (Leaves l) := by
  unfold LinkCalls.tryUnlink
  split_ifs
  · exact ensures_ok h
  · exact ensures_ok h
  · exact h.unlinkFile hb hdoc hrldirp hrip string

/-- Both references are put, if there are two. -/
theorem Ready.putUnlinked (hb : InodesPerBlock p) {rip : Option (Slot p)}
    (h : Ready s (gained rip [r])) (e : Errno) :
    Ensures (putInode env s rip >>= fun s => putInode env s (some r) >>= fun s => pure (e, s))
      fun out => Coherent out.2 := by
  cases rip with
  | none => exact (h.put_leaves hb e).mono fun _ hout => hout.coherent
  | some rip => exact (h.put_both hb e).mono fun _ hout => hout.coherent

theorem Ready.fsUnlink (hp : Conversions p) (hb : InodesPerBlock p) (hdoc : Documented env)
    (h : Ready s []) {m : Message} (hdev : m.fs_dev ≠ NO_DEV) (hnumb : m.REQ_INODE_NR ≠ NO_ENTRY) :
    Ensures (fsUnlink env m s) fun out => Coherent out.2 := by
  unfold LinkCalls.fsUnlink
  split_ifs with hcopied
  · exact ensures_ok h.coherent
  · have hget := h.get hp hdev hnumb env
    cases hparent : getInode env s m.fs_dev m.REQ_INODE_NR with
    | mk rldirp u =>
        rw [hparent] at hget
        cases rldirp with
        | none => exact ensures_ok hget.coherent
        | some rldirp =>
            have hadvance := Ready.advance hp hdoc hget List.mem_cons_self m.string
            dsimp only
            cases hfile : LinkCalls.advance env u rldirp m.string with
            | mk rip v =>
                rw [hfile] at hadvance
                dsimp only
                split_ifs with herror hmount
                · exact hadvance.putUnlinked hb _
                · cases rip with
                  | none => exact (hadvance.put_leaves hb _).mono fun _ hout => hout.coherent
                  | some rip =>
                      exact (hadvance.swap.put_leaves hb _).mono fun _ hout => hout.coherent
                · cases rip with
                  | none => exact ensures_error _ _
                  | some rip =>
                      dsimp only
                      have hunlinked := Ready.tryUnlink hb hdoc hadvance
                        (List.mem_cons_of_mem rip List.mem_cons_self) List.mem_cons_self m.string
                      exact hunlinked.bind fun out hout =>
                        (Ready.put_both hb hout out.1).mono fun _ hout => hout.coherent

end MinixOS.LinkCoherence
