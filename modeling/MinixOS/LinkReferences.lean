import MinixOS.DirectoryCalls
import MinixOS.LinkCoherence

/-!
# References and requests

The requests of link.c open inodes, and put each of them on every way out. Rules say what
`get_inode`, `put_inode` and the other functions make of a property of the state and of the
references in hand. From the rules alone it follows for each request that the property holds
again without references. One such property counts the users of each inode.
-/
namespace MinixOS.LinkReferences
open LoopExecution InodeState InodeCopy InodeCache InodeView InodeRelease InodeSystem LinkCalls
  LinkCoherence DirectoryCalls
open CheckedExecution hiding Stop

variable {p : Platform} {on : Dev → Prop} {may : Name → Prop} {others : List (Slot p)}
  {P : State p → List (Slot p) → Prop}
  {s t : State p} {q r : Slot p} {l l' : List (Slot p)} {env : Environment p} {hdr : Headers}
  {dev : Dev} {numb : UInt32}

/-- The call is not stopped, but it may need more passes of its loop. -/
abbrev Settles {A : Type} (x : Except Halt A) (Q : A → Prop) : Prop :=
  Results x (fun halt => halt = .passesRanOut) Q

/-- What becomes of a property of the state and the references in hand, where inodes of some devices
are opened. The caller holds other references. -/
structure Opening (env : Environment p) (on : Dev → Prop) (others : List (Slot p))
    (P : State p → List (Slot p) → Prop) : Prop where
  linked : ∀ {s l}, P s l → Linked s
  perm : ∀ {s l l'}, P s l → l.Perm l' → P s l'
  error : ∀ {s l} e, P s l → P (s.setError e) l
  device : ∀ {s l r}, P s l → r ∈ l ++ others → on (s.inode r).i_dev
  holding : ∀ {s l r}, P s l → r ∈ l ++ others →
    (s.inode r).i_num ≠ NO_ENTRY ∧ (l ++ others).count r ≤ (s.inode r).i_count
  get : ∀ {s l dev numb}, P s l → on dev → numb ≠ NO_ENTRY →
    P (getInode env s dev numb).2 (gained (getInode env s dev numb).1 l)
  put : ∀ {s l r}, P s (r :: l) → Succeeds (putInode env s (some r)) fun t => P t l
  dup : ∀ {s l r}, P s l → r ∈ l ++ others → P (dupInode s r) (r :: l)

/-- Directories are searched as well, entries made under some names, and open inodes changed. -/
structure Rules (env : Environment p) (on : Dev → Prop) (may : Name → Prop) (others : List (Slot p))
    (P : State p → List (Slot p) → Prop) : Prop extends Opening env on others P where
  search : ∀ {s l r} string n flag, (flag = .ENTER → n ≠ none ∧ may string) → P s l →
    r ∈ l ++ others → P (searchDir env s r string n flag).2.2 l
  touch : ∀ {s l r f}, P s l → r ∈ l ++ others → SameLinks (f (s.inode r)) (s.inode r) →
    P (markDirty (s.modify r f) r) l

/-- What `search_dir` and `advance` find: no entry with number 0, and no error with an inode but
that it is mounted on. -/
structure Finds (env : Environment p) : Prop where
  missing : ∀ entries string e, env.advance entries string = .missing e → e ≠ .OK
  number : ∀ entries string n, (env.search_dir entries string n .LOOK_UP).answer = .OK →
    (env.search_dir entries string n .LOOK_UP).numb ≠ NO_ENTRY
  entry : ∀ entries string numb e, env.advance entries string = .entry numb e → numb ≠ NO_ENTRY
  mount : ∀ entries string numb e, env.advance entries string = .entry numb e →
    e = .OK ∨ e = .EENTERMOUNT ∨ e = .ELEAVEMOUNT

/-- The call ends with the references `l`. -/
def Ends (P : State p → List (Slot p) → Prop) (l : List (Slot p)) {A : Type} (out : A × State p) :
    Prop := P out.2 l

theorem none_held : ∀ r ∈ (none : Option (Slot p)), r ∈ l := by
  intro r hr
  cases hr

/-- An inode that is found leaves `err_code` alone. -/
theorem getInode_error (hl : Linked s) (h : getInode env s dev numb = (some r, t)) :
    t.err_code = s.err_code := by
  rcases getInode_cases hl env dev numb with ⟨q, _, hget⟩ | ⟨_, _, hget⟩ | ⟨_, q, _, hget⟩
  · rw [hget] at h
    cases h
    unfold found
    split_ifs <;> rfl
  · rw [hget] at h
    cases h
  · rw [hget] at h
    cases h
    rfl

/-! ## What the calls leave alone -/

theorem directories_getInode (hl : Linked s) (env : Environment p) (dev : Dev) (numb : UInt32) :
    (getInode env s dev numb).2.directories = s.directories := by
  rcases getInode_cases hl env dev numb with ⟨q, _, hget⟩ | ⟨_, _, hget⟩ | ⟨_, q, _, hget⟩
  · rw [hget]
    unfold found
    split_ifs <;> rfl
  · rw [hget]
    rfl
  · rw [hget]
    rfl

theorem released_frame (env : Environment p) (s : State p) (r : Slot p) :
    (released env s r).directories = s.directories ∧ (released env s r).err_code = s.err_code := by
  by_cases hlinks : (s.inode r).i_nlinks = NO_LINK
  · obtain ⟨log, hdirty⟩ := markDirty_eq (s.modify r (setCount 0)) r
    rw [released_freed env hlinks]
    change (written env (unlinked env _ r) r).directories = _ ∧
      (written env (unlinked env _ r) r).err_code = _
    rw [written_eq]
    change (unlinked env _ r).directories = _ ∧ (unlinked env _ r).err_code = _
    unfold unlinked
    rw [freeInode_eq, hdirty]
    exact ⟨rfl, rfl⟩
  · rw [released_kept env hlinks]
    change (written env _ r).directories = _ ∧ (written env _ r).err_code = _
    rw [written_eq]
    exact ⟨rfl, rfl⟩

theorem putInode_frame (h : putInode env s (some r) = .ok t) :
    t.directories = s.directories ∧ t.err_code = s.err_code := by
  rcases putInode_cases env s r with ⟨_, stop, hput⟩ | ⟨_, hput⟩ | ⟨_, hput⟩
  · rw [h] at hput
    cases hput
  · rw [h] at hput
    cases hput
    exact released_frame env s r
  · rw [h] at hput
    cases hput
    exact ⟨rfl, rfl⟩

theorem slotKey_getInode (hl : Linked s) (hnumb : numb ≠ NO_ENTRY)
    (h : getInode env s dev numb = (some r, t)) : slotKey (t.inode r) = some (dev, numb) := by
  rcases getInode_cases hl env dev numb with ⟨q, hkey, hget⟩ | ⟨_, _, hget⟩ | ⟨_, q, _, hget⟩
  · rw [hget] at h
    cases h
    rw [found_inode, if_pos rfl]
    exact hkey
  · rw [hget] at h
    cases h
  · rw [hget] at h
    cases h
    obtain ⟨hi_dev, hi_num, _, _⟩ := loadInode_links s r dev numb
    rw [loaded_inode, if_pos rfl, slotKey_eq_some, hi_num]
    exact ⟨hnumb, hi_dev, rfl⟩

/-- An inode in use stays in its slot when another one is opened. -/
theorem held_getInode (hl : Linked s) (hq : Held s q) (env : Environment p) (dev : Dev)
    (numb : UInt32) : slotKey ((getInode env s dev numb).2.inode q) = slotKey (s.inode q) := by
  rcases getInode_cases hl env dev numb with ⟨r, _, hget⟩ | ⟨_, _, hget⟩ | ⟨_, r, hr, hget⟩
  · rw [hget]
    dsimp only
    rw [found_inode]
    split_ifs with he
    · rw [he]
      rfl
    · rfl
  · rw [hget]
    rfl
  · have hne : q ≠ r := by
      rintro rfl
      exact hl.notMem_unused hq.1 hq.2 (List.mem_of_mem_head? hr)
    rw [hget]
    dsimp only
    rw [loaded_inode, if_neg hne]

/-- It stays there when a reference is put, if others are left. -/
theorem held_putInode (h : putInode env s (some r) = .ok t)
    (hq : q = r → 1 < (s.inode r).i_count) : slotKey (t.inode q) = slotKey (s.inode q) := by
  rcases putInode_cases env s r with ⟨_, stop, hput⟩ | ⟨hone, hput⟩ | ⟨_, hput⟩
  · rw [h] at hput
    cases hput
  · rw [h] at hput
    cases hput
    have hne : q ≠ r := fun he => by
      have hmany := hq he
      omega
    rw [released_other env s hne]
  · rw [h] at hput
    cases hput
    rw [inode_modify]
    split_ifs with he
    · rw [he]
      rfl
    · rfl

/-! ## What is found under a name -/

theorem advance_found (hl : Linked s) (hfinds : Finds env) {rip : Slot p} {string : Name}
    (h : advance env s r string = (some rip, t)) :
    ∃ m e, env.advance (s.directories (s.inode r).i_dev (s.inode r).i_num) string = .entry m e ∧
      m ≠ NO_ENTRY ∧ t.err_code = e ∧ slotKey (t.inode rip) = some ((s.inode r).i_dev, m) := by
  unfold LinkCalls.advance at h
  dsimp only at h
  cases hentry : env.advance (s.directories (s.inode r).i_dev (s.inode r).i_num) string with
  | missing e =>
      rw [hentry] at h
      cases h
  | entry m e =>
      have hnumb := hfinds.entry _ string m e hentry
      rw [hentry] at h
      dsimp only at h
      cases hget : getInode env s (s.inode r).i_dev m with
      | mk answer u =>
          rw [hget] at h
          cases answer with
          | none => cases h
          | some answer =>
              have hkey := slotKey_getInode hl hnumb hget
              cases h
              exact ⟨m, e, rfl, hnumb, rfl, hkey⟩

/-- An inode in use stays in its slot, and the directories are as before. -/
theorem advance_frame (hl : Linked s) (hq : Held s q) (env : Environment p) (r : Slot p)
    (string : Name) :
    (advance env s r string).2.directories = s.directories ∧
      slotKey ((advance env s r string).2.inode q) = slotKey (s.inode q) := by
  unfold LinkCalls.advance
  dsimp only
  cases env.advance (s.directories (s.inode r).i_dev (s.inode r).i_num) string with
  | missing e => exact ⟨rfl, rfl⟩
  | entry m e =>
      have hdirectories := directories_getInode hl env (s.inode r).i_dev m
      have hkey := held_getInode hl hq env (s.inode r).i_dev m
      dsimp only
      generalize getInode env s (s.inode r).i_dev m = found at hdirectories hkey
      obtain ⟨answer, u⟩ := found
      cases answer with
      | none => exact ⟨hdirectories, hkey⟩
      | some rip => exact ⟨hdirectories, hkey⟩

/-- The entry of this name names the inode that is in the other slot. -/
def Names (env : Environment p) (s : State p) (dirp rip : Slot p) (string : Name) : Prop :=
  ∃ dev n m e, slotKey (s.inode dirp) = some (dev, n) ∧ slotKey (s.inode rip) = some (dev, m) ∧
    env.advance (s.directories dev n) string = .entry m e

theorem Names.congr {string : Name} (h : Names env s q r string)
    (hdirectories : t.directories = s.directories)
    (hq : slotKey (t.inode q) = slotKey (s.inode q))
    (hr : slotKey (t.inode r) = slotKey (s.inode r)) : Names env t q r string := by
  unfold Names
  rw [hdirectories, hq, hr]
  exact h

/-! ## Opening and putting -/

namespace Opening

theorem swap (hopen : Opening env on others P) (h : P s (q :: r :: l)) : P s (r :: q :: l) :=
  hopen.perm h (.swap r q l)

theorem put_ends (hopen : Opening env on others P) {A : Type} (h : P s (r :: l)) (a : A) :
    Succeeds (putInode env s (some r) >>= fun s => pure (a, s)) (Ends P l) :=
  (hopen.put h).bind fun _ ht => ht

theorem put_both (hopen : Opening env on others P) {A : Type} (h : P s (r :: q :: l)) (a : A) :
    Succeeds (putInode env s (some r) >>= fun s => putInode env s (some q) >>= fun s =>
      pure (a, s)) (Ends P l) :=
  (hopen.put h).bind fun _ ht => hopen.put_ends ht a

/-- A reference that is there is put. -/
theorem put_option (hopen : Opening env on others P) {rip : Option (Slot p)}
    (h : P s (gained rip l)) :
    Succeeds (putInode env s rip) fun t => P t l := by
  cases rip with
  | none => exact h
  | some rip => exact hopen.put h

theorem advance (hopen : Opening env on others P) (hfinds : Finds env) (h : P s l)
    (hr : r ∈ l ++ others) (string : Name) :
    P (advance env s r string).2 (gained (advance env s r string).1 l) := by
  have hdev := hopen.device h hr
  unfold LinkCalls.advance
  dsimp only
  cases hentry : env.advance (s.directories (s.inode r).i_dev (s.inode r).i_num) string with
  | missing e => exact hopen.error e h
  | entry numb e =>
      have hget := hopen.get h hdev (hfinds.entry _ string numb e hentry)
      dsimp only
      cases hacquired : getInode env s (s.inode r).i_dev numb with
      | mk rip u =>
          rw [hacquired] at hget
          cases rip with
          | none => exact hget
          | some rip => exact hopen.error e hget

/-- Without an inode there is an error. -/
theorem advance_none (hopen : Opening env on others P) (hfinds : Finds env) (hs : P s l)
    {string : Name} {u : State p} (h : LinkCalls.advance env s r string = (none, u)) :
    u.err_code ≠ .OK := by
  unfold LinkCalls.advance at h
  dsimp only at h
  cases hentry : env.advance (s.directories (s.inode r).i_dev (s.inode r).i_num) string with
  | missing e =>
      rw [hentry] at h
      cases h
      exact hfinds.missing _ string e hentry
  | entry numb e =>
      rw [hentry] at h
      dsimp only at h
      rcases getInode_cases (hopen.linked hs) env (s.inode r).i_dev numb with
        ⟨q, _, hget⟩ | ⟨_, _, hget⟩ | ⟨_, q, _, hget⟩
      · rw [hget] at h
        cases h
      · rw [hget] at h
        cases h
        exact nofun
      · rw [hget] at h
        cases h

/-- An inode is found without an error, or it is mounted on. -/
theorem advance_some (hfinds : Finds env) {rip : Slot p} {string : Name} {u : State p}
    (h : LinkCalls.advance env s r string = (some rip, u)) :
    u.err_code = .OK ∨ u.err_code = .EENTERMOUNT ∨ u.err_code = .ELEAVEMOUNT := by
  unfold LinkCalls.advance at h
  dsimp only at h
  cases hentry : env.advance (s.directories (s.inode r).i_dev (s.inode r).i_num) string with
  | missing e =>
      rw [hentry] at h
      cases h
  | entry numb e =>
      rw [hentry] at h
      dsimp only at h
      cases hacquired : getInode env s (s.inode r).i_dev numb with
      | mk rip' v =>
          rw [hacquired] at h
          cases rip' with
          | none => cases h
          | some rip' =>
              cases h
              exact hfinds.mount _ string numb e hentry

theorem held (hopen : Opening env on others P) (h : P s l) (hr : r ∈ l ++ others) : Held s r := by
  obtain ⟨hnum, hcount⟩ := hopen.holding h hr
  have hpos := List.count_pos_iff.mpr hr
  exact ⟨hnum, by omega⟩

/-- What is held besides a reference that is put stays where it is. -/
theorem key_put (hopen : Opening env on others P) (h : P s (r :: l))
    (hput : putInode env s (some r) = .ok t) (hq : q ∈ l ++ others) :
    slotKey (t.inode q) = slotKey (s.inode q) := by
  apply held_putInode hput
  rintro rfl
  have hcount := (hopen.holding h List.mem_cons_self).2
  have hpos := List.count_pos_iff.mpr hq
  rw [List.cons_append, List.count_cons_self] at hcount
  omega

theorem names_advance (hopen : Opening env on others P) (hfinds : Finds env) (h : P s l)
    (hr : r ∈ l ++ others) {rip : Slot p} {string : Name}
    (hadvance : LinkCalls.advance env s r string = (some rip, t)) : Names env t r rip string := by
  obtain ⟨hdirectories, hkey⟩ := advance_frame (hopen.linked h) (hopen.held h hr) env r string
  obtain ⟨m, e, hentry, _, _, hfound⟩ := advance_found (hopen.linked h) hfinds hadvance
  rw [hadvance] at hdirectories hkey
  refine ⟨(s.inode r).i_dev, (s.inode r).i_num, m, e, hkey.trans ?_, hfound, ?_⟩
  · exact slotKey_eq_some.mpr ⟨(hopen.holding h hr).1, rfl, rfl⟩
  · rw [hdirectories]
    exact hentry

theorem names_get (hopen : Opening env on others P) (h : P s l) {dirp rip : Slot p} {string : Name}
    (hdirp : dirp ∈ l ++ others) (hrip : rip ∈ l ++ others) (hnames : Names env s dirp rip string)
    (dev : Dev) (numb : UInt32) : Names env (getInode env s dev numb).2 dirp rip string :=
  hnames.congr (directories_getInode (hopen.linked h) env dev numb)
    (held_getInode (hopen.linked h) (hopen.held h hdirp) env dev numb)
    (held_getInode (hopen.linked h) (hopen.held h hrip) env dev numb)

/-! ### fs_link -/

/-- To enter a link keeps the property. -/
def Registers (env : Environment p) (others : List (Slot p)) (P : State p → List (Slot p) → Prop)
    (string : Name) : Prop :=
  ∀ ⦃s l rip ip⦄ r, P s l → rip ∈ l ++ others → ip ∈ l ++ others →
    Ends P l (registerLink env r s rip ip string)

theorem enterLink (hopen : Opening env on others P) (hfinds : Finds env) {string : Name}
    (hregister : Registers env others P string) (h : P s l) {rip ip : Slot p}
    (hrip : rip ∈ l ++ others) (hip : ip ∈ l ++ others) :
    Succeeds (enterLink env s rip ip string) (Ends P l) := by
  have hadvance := hopen.advance hfinds h hip string
  unfold LinkCalls.enterLink
  cases hnew : LinkCalls.advance env s ip string with
  | mk new_ip u =>
      rw [hnew] at hadvance
      cases new_ip with
      | none => exact hregister _ hadvance hrip hip
      | some new_ip =>
          have hput : Succeeds (putInode env u (some new_ip)) fun t => P t l := hopen.put hadvance
          exact hput.bind fun t ht => hregister _ ht hrip hip

theorem fsLink (hopen : Opening env on others P) (hfinds : Finds env) (h : P s l) {m : Message}
    (hdev : on m.fs_dev) (hnumb : m.REQ_INODE_NR ≠ NO_ENTRY)
    (hdir : m.REQ_DIR_INO ≠ NO_ENTRY) (hregister : Registers env others P m.string) :
    Succeeds (fsLink env m s) (Ends P l) := by
  unfold LinkCalls.fsLink
  split_ifs with hcopied
  · exact h
  · have hget := hopen.get h hdev hnumb
    cases hfile : getInode env s m.fs_dev m.REQ_INODE_NR with
    | mk rip u =>
        rw [hfile] at hget
        cases rip with
        | none => exact hget
        | some rip =>
            dsimp only
            split_ifs with hcheck
            · exact hopen.put_ends hget _
            · have hget' := hopen.get hget hdev hdir
              cases hparent : getInode env u m.fs_dev m.REQ_DIR_INO with
              | mk ip v =>
                  rw [hparent] at hget'
                  cases ip with
                  | none => exact hopen.put_ends hget' _
                  | some ip =>
                      dsimp only
                      have hboth : P v (rip :: ip :: l) := hopen.swap hget'
                      split_ifs
                      · exact hopen.put_both hboth _
                      · have hentered := hopen.enterLink hfinds hregister hboth List.mem_cons_self
                          (List.mem_cons_of_mem _ List.mem_cons_self)
                        exact hentered.bind fun out hout => hopen.put_both hout out.1

/-! ### unlink, rmdir and fs_rdlink -/

theorem unlinkWith (hopen : Opening env on others P) (hfinds : Finds env)
    {attempt : State p → Slot p → Slot p → Name → Except Stop (Errno × State p)}
    (hattempt : ∀ {s l rldirp rip} string, P s l → rldirp ∈ l ++ others → rip ∈ l ++ others →
      Names env s rldirp rip string → Succeeds (attempt s rldirp rip string) (Ends P l))
    (h : P s l) {m : Message} (hdev : on m.fs_dev) (hnumb : m.REQ_INODE_NR ≠ NO_ENTRY) :
    Succeeds (unlinkWith attempt env m s) (Ends P l) := by
  unfold DirectoryCalls.unlinkWith
  split_ifs with hcopied
  · exact h
  · have hget := hopen.get h hdev hnumb
    cases hparent : getInode env s m.fs_dev m.REQ_INODE_NR with
    | mk rldirp u =>
        rw [hparent] at hget
        cases rldirp with
        | none => exact hget
        | some rldirp =>
            have hadvance := hopen.advance hfinds hget List.mem_cons_self m.string
            dsimp only
            cases hfile : LinkCalls.advance env u rldirp m.string with
            | mk rip v =>
                rw [hfile] at hadvance
                dsimp only
                split_ifs with herror hmount
                · exact (hopen.put_option hadvance).bind fun t ht => hopen.put_ends ht _
                · cases rip with
                  | none => exact hopen.put_ends hadvance _
                  | some rip =>
                      -- such an error comes without an inode
                      rcases advance_some hfinds hfile with hok | hmounted
                      · exact absurd hok herror
                      · exact absurd hmounted hmount
                · cases rip with
                  | none => exact absurd (not_not.mp herror) (hopen.advance_none hfinds hget hfile)
                  | some rip =>
                      dsimp only
                      have hnames := hopen.names_advance hfinds hget List.mem_cons_self hfile
                      have hunlinked := hattempt m.string hadvance
                        (List.mem_cons_of_mem rip List.mem_cons_self) List.mem_cons_self hnames
                      exact hunlinked.bind fun out hout => hopen.put_both hout out.1

theorem fsRdlink (hopen : Opening env on others P) (h : P s l) {m : ReadMessage} (hdev : on m.fs_dev)
    (hnumb : m.REQ_INODE_NR ≠ NO_ENTRY) : Succeeds (fsRdlink hdr env m s) (Ends P l) := by
  have hget := hopen.get h hdev hnumb
  unfold DirectoryCalls.fsRdlink
  cases hfile : getInode env s m.fs_dev m.REQ_INODE_NR with
  | mk rip u =>
      rw [hfile] at hget
      cases rip with
      | none => exact hget
      | some rip => exact hopen.put_ends hget _

/-! ### fs_rename -/

theorem results_lift {A : Type} {x : Except Stop A} {F : Halt → Prop} {Q : A → Prop}
    (h : Succeeds x Q) : Results (liftM x : Except Halt A) F Q := by
  cases x with
  | ok a => exact h
  | error stop => exact h.elim

/-- The loop holds one reference, and gives it back where it ends. -/
theorem superdirPass (hopen : Opening env on others P) (hfinds : Finds env)
    {old_ip new_superdirp : Slot p} (h : P s (new_superdirp :: l)) :
    (∀ v, superdirPass env old_ip (new_superdirp, s) = .again v → P v.2 (v.1 :: l)) ∧
    ∀ out, superdirPass env old_ip (new_superdirp, s) = .leave out → Succeeds out (Ends P l) := by
  have hadvance := hopen.advance hfinds h List.mem_cons_self dot2
  unfold DirectoryCalls.superdirPass
  dsimp only
  by_cases hsuper : new_superdirp = old_ip
  · rw [if_pos hsuper]
    refine ⟨nofun, fun out hout => ?_⟩
    cases hout
    exact hopen.put_ends h _
  · rw [if_neg hsuper]
    cases hnext : LinkCalls.advance env s new_superdirp dot2 with
    | mk next u =>
        rw [hnext] at hadvance
        dsimp only
        have hperm : (gained next (new_superdirp :: l)).Perm (new_superdirp :: gained next l) :=
          List.perm_middle
        have hput := hopen.put (hopen.perm hadvance hperm)
        cases hputs : putInode env u (some new_superdirp) with
        | error stop =>
            rw [hputs] at hput
            exact hput.elim
        | ok v =>
            rw [hputs] at hput
            have hv : P v (gained next l) := hput
            dsimp only
            split_ifs with hroot hleave
            · refine ⟨nofun, fun out hout => ?_⟩
              cases hout
              rw [hroot] at hv
              exact hopen.put_ends hv _
            · refine ⟨nofun, fun out hout => ?_⟩
              cases hout
              exact (hopen.put_option hv).bind fun t ht => show P (t.setError .OK) l from
                hopen.error _ ht
            · cases next with
              | none =>
                  refine ⟨nofun, fun out hout => ?_⟩
                  cases hout
                  exact hv
              | some next =>
                  refine ⟨fun w hw => ?_, nofun⟩
                  cases hw
                  exact hv

theorem checkSuperdir (hopen : Opening env on others P) (hfinds : Finds env) (h : P s l)
    {old_ip new_dirp : Slot p} (hnew : new_dirp ∈ l ++ others) (fuel : ℕ) :
    Settles (checkSuperdir env fuel s old_ip new_dirp) (Ends P l) := by
  unfold DirectoryCalls.checkSuperdir
  cases hrun : run (DirectoryCalls.superdirPass env old_ip) fuel (new_dirp, dupInode s new_dirp) with
  | none => exact rfl
  | some out =>
      have hinv : ∃ v, P v.2 (v.1 :: l) ∧
          DirectoryCalls.superdirPass env old_ip v = .leave out := by
        apply LoopExecution.Leaves.invariant ⟨fuel, hrun⟩ (hopen.dup h hnew)
        intro v w hv hpass
        exact (hopen.superdirPass hfinds hv).1 w hpass
      obtain ⟨v, hv, hleave⟩ := hinv
      have hout := (hopen.superdirPass hfinds hv).2 out hleave
      cases out with
      | ok a => exact hout
      | error stop => exact hout.elim

theorem checkAbove (hopen : Opening env on others P) (hfinds : Finds env) (h : P s l)
    {old_ip new_dirp : Slot p} (hnew : new_dirp ∈ l ++ others) (fuel : ℕ) (odir same_pdir : Bool) :
    Settles (checkAbove env fuel s old_ip new_dirp odir same_pdir) (Ends P l) := by
  unfold DirectoryCalls.checkAbove
  split_ifs
  · exact hopen.checkSuperdir hfinds h hnew fuel
  · exact h

/-- What `fs_rename` does with the open inodes keeps the property, or fails in such a way. -/
def TriesRename (hdr : Headers) (env : Environment p) (m : RenameMessage) (fuel : ℕ)
    (F : Halt → Prop) (P : State p → List (Slot p) → Prop) (l : List (Slot p)) : Prop :=
  ∀ ⦃s old_dirp old_ip new_dirp new_ip⦄ r,
    P s (gained new_ip (old_dirp :: old_ip :: new_dirp :: l)) →
    Names env s old_dirp old_ip m.old_name → (∀ x ∈ new_ip, Names env s new_dirp x m.new_name) →
      Results (DirectoryCalls.tryRename hdr env m fuel s old_dirp old_ip new_dirp new_ip r) F
        (Ends P (gained new_ip (old_dirp :: old_ip :: new_dirp :: l)))

/-- Of the inodes in hand only the new one may be given up. -/
theorem dropMounted (hopen : Opening env on others P) {new_ip : Option (Slot p)}
    (h : P s (gained new_ip l)) :
    Succeeds (dropMounted env s new_ip) fun out => P out.2 (gained out.1 l) ∧
      out.2.directories = s.directories ∧
      (∀ q ∈ l ++ others, slotKey (out.2.inode q) = slotKey (s.inode q)) ∧
      (out.1 = none ∨ out = (new_ip, s)) := by
  unfold DirectoryCalls.dropMounted
  split_ifs
  · cases new_ip with
    | none => exact ⟨h, rfl, fun _ _ => rfl, .inl rfl⟩
    | some new_ip =>
        obtain ⟨t, hput, ht⟩ := (hopen.put h).exists
        rw [hput]
        exact ⟨ht, (putInode_frame hput).1, fun q hq => hopen.key_put h hput hq, .inl rfl⟩
  · exact ⟨h, rfl, fun _ _ => rfl, .inr rfl⟩

/-- At the end all inodes are put. -/
theorem renameOpen (hopen : Opening env on others P) {old_dirp old_ip new_dirp : Slot p}
    {new_ip : Option (Slot p)} (h : P s (gained new_ip (old_dirp :: old_ip :: new_dirp :: l)))
    {m : RenameMessage} {fuel : ℕ} {F : Halt → Prop} (htry : TriesRename hdr env m fuel F P l)
    (hold : Names env s old_dirp old_ip m.old_name)
    (hnew : ∀ x ∈ new_ip, Names env s new_dirp x m.new_name) (r : Errno) :
    Results (renameOpen hdr env m fuel s old_dirp old_ip new_dirp new_ip r) F (Ends P l) := by
  have hperm : (gained new_ip (old_dirp :: old_ip :: new_dirp :: l)).Perm
      (old_dirp :: old_ip :: new_dirp :: gained new_ip l) := by
    refine List.perm_middle.trans (.cons _ ?_)
    exact List.perm_middle.trans (.cons _ List.perm_middle)
  unfold DirectoryCalls.renameOpen
  refine (htry r h hold hnew).bind fun out hout => ?_
  have hall : P out.2 (old_dirp :: old_ip :: new_dirp :: gained new_ip l) := hopen.perm hout hperm
  refine (results_lift (hopen.put hall)).bind fun u hu => ?_
  refine (results_lift (hopen.put hu)).bind fun v hv => ?_
  refine (results_lift (hopen.put hv)).bind fun w hw => ?_
  exact (results_lift (hopen.put_option hw)).bind fun x hx => hx

theorem renameInto (hopen : Opening env on others P) (hfinds : Finds env) {old_dirp old_ip : Slot p}
    (h : P s (old_ip :: old_dirp :: l)) {m : RenameMessage} (hdev : on m.fs_dev)
    (hnumb : m.REQ_REN_NEW_DIR ≠ NO_ENTRY) {fuel : ℕ} {F : Halt → Prop}
    (htry : TriesRename hdr env m fuel F P l) (hold : Names env s old_dirp old_ip m.old_name)
    (r : Errno) :
    Results (renameInto hdr env m fuel s old_dirp old_ip r) F (Ends P l) := by
  have hget := hopen.get h hdev hnumb
  have hold_u := hopen.names_get h (List.mem_cons_of_mem old_ip List.mem_cons_self)
    List.mem_cons_self hold m.fs_dev m.REQ_REN_NEW_DIR
  unfold DirectoryCalls.renameInto
  cases hparent : getInode env s m.fs_dev m.REQ_REN_NEW_DIR with
  | mk new_dirp u =>
      rw [hparent] at hget hold_u
      cases new_dirp with
      | none =>
          refine (results_lift (hopen.put hget)).bind fun v hv => ?_
          exact (results_lift (hopen.put hv)).bind fun w hw => hw
      | some new_dirp =>
          have hswap : (new_dirp :: old_ip :: old_dirp :: l).Perm
              (old_dirp :: old_ip :: new_dirp :: l) := by
            refine (List.Perm.swap old_ip new_dirp _).trans ?_
            refine ((List.Perm.swap old_dirp new_dirp l).cons old_ip).trans ?_
            exact .swap old_dirp old_ip _
          have hall : P u (old_dirp :: old_ip :: new_dirp :: l) := hopen.perm hget hswap
          dsimp only
          by_cases hgone : (u.inode new_dirp).i_nlinks = NO_LINK
          · rw [if_pos hgone]
            refine (results_lift (hopen.put (hopen.swap hall))).bind fun v hv => ?_
            refine (results_lift (hopen.put hv)).bind fun w hw => ?_
            exact (results_lift (hopen.put hw)).bind fun x hx => hx
          · rw [if_neg hgone]
            have hadvance := hopen.advance hfinds hget List.mem_cons_self m.new_name
            have hframe := fun q (hq : q ∈ (new_dirp :: old_ip :: old_dirp :: l) ++ others) =>
              advance_frame (hopen.linked hget) (hopen.held hget hq) env new_dirp m.new_name
            cases hfile : LinkCalls.advance env u new_dirp m.new_name with
            | mk new_ip v =>
                rw [hfile] at hadvance hframe
                dsimp only
                refine (results_lift (hopen.dropMounted hadvance)).bind fun out hout => ?_
                obtain ⟨hdropped, hdirectories, hkeys, hdrops⟩ := hout
                have hall := hopen.perm hdropped (hswap.append_left out.1.toList)
                have hold_ip : old_ip ∈ (new_dirp :: old_ip :: old_dirp :: l) ++ others := by simp
                have hold_dirp : old_dirp ∈ (new_dirp :: old_ip :: old_dirp :: l) ++ others := by simp
                have hold_v : Names env v old_dirp old_ip m.old_name :=
                  hold_u.congr (hframe old_ip hold_ip).1 (hframe old_dirp hold_dirp).2
                    (hframe old_ip hold_ip).2
                have hold_out := hold_v.congr hdirectories (hkeys old_dirp hold_dirp)
                  (hkeys old_ip hold_ip)
                refine hopen.renameOpen hall htry hold_out (fun x hx => ?_) _
                rcases hdrops with hnone | hsame
                · rw [hnone] at hx
                  cases hx
                · rw [hsame] at hx ⊢
                  have hsome : new_ip = some x := hx
                  rw [hsome] at hfile
                  exact hopen.names_advance hfinds hget List.mem_cons_self hfile

theorem fsRename (hopen : Opening env on others P) (hfinds : Finds env) (h : P s l)
    {m : RenameMessage} (hdev : on m.fs_dev) (hold : m.REQ_REN_OLD_DIR ≠ NO_ENTRY)
    (hnew : m.REQ_REN_NEW_DIR ≠ NO_ENTRY) {fuel : ℕ} {F : Halt → Prop}
    (htry : TriesRename hdr env m fuel F P l) :
    Results (fsRename hdr env m fuel s) F (Ends P l) := by
  unfold DirectoryCalls.fsRename
  split_ifs
  · exact h
  · exact h
  · have hget := hopen.get h hdev hold
    cases hparent : getInode env s m.fs_dev m.REQ_REN_OLD_DIR with
    | mk old_dirp u =>
        rw [hparent] at hget
        cases old_dirp with
        | none => exact hget
        | some old_dirp =>
            have hadvance := hopen.advance hfinds hget List.mem_cons_self m.old_name
            dsimp only
            cases hfile : LinkCalls.advance env u old_dirp m.old_name with
            | mk old_ip v =>
                rw [hfile] at hadvance
                dsimp only
                by_cases hmounted : v.err_code = .EENTERMOUNT ∨ v.err_code = .ELEAVEMOUNT
                · rw [if_pos hmounted]
                  refine (results_lift (hopen.put_option hadvance)).bind fun w hw => ?_
                  exact (results_lift (hopen.put hw)).bind fun x hx => hx
                · rw [if_neg hmounted]
                  cases old_ip with
                  | none => exact (results_lift (hopen.put hadvance)).bind fun x hx => hx
                  | some old_ip =>
                      have hnames := hopen.names_advance hfinds hget List.mem_cons_self hfile
                      exact hopen.renameInto hfinds hadvance hdev hnew htry hnames _

end Opening

/-! ## Entries -/

namespace Rules

theorem registerLink (hrules : Rules env on may others P) (h : P s l) {rip ip : Slot p}
    (hrip : rip ∈ l ++ others) (hip : ip ∈ l ++ others) (r : Errno) {string : Name}
    (hmay : may string) :
    Ends P l (registerLink env r s rip ip string) := by
  have hsearch := hrules.search string (some (s.inode rip).i_num) .ENTER
    (fun _ => ⟨nofun, hmay⟩) h hip
  unfold LinkCalls.registerLink Ends
  split_ifs with hr
  · exact h
  · dsimp only
    split_ifs
    · exact hrules.touch hsearch hrip ⟨rfl, rfl, rfl, rfl⟩
    · exact hsearch

theorem fsLink (hrules : Rules env on may others P) (hfinds : Finds env) (h : P s l) {m : Message}
    (hdev : on m.fs_dev) (hnumb : m.REQ_INODE_NR ≠ NO_ENTRY)
    (hdir : m.REQ_DIR_INO ≠ NO_ENTRY) (hmay : may m.string) :
    Succeeds (fsLink env m s) (Ends P l) :=
  hrules.toOpening.fsLink hfinds h hdev hnumb hdir fun _ _ _ _ r hs hrip hip =>
    hrules.registerLink hs hrip hip r hmay

/-! ### unlink and rmdir -/

theorem deleteEntry (hrules : Rules env on may others P) {dirp rip : Slot p} (h : P s (rip :: l))
    (hdirp : dirp ∈ l ++ others) (file_name : Name) :
    Succeeds (deleteEntry env s dirp rip file_name) (Ends P l) := by
  have hsearch := hrules.search file_name none .DELETE nofun h (List.mem_cons_of_mem rip hdirp)
  unfold LinkCalls.deleteEntry
  dsimp only
  apply hrules.put_ends
  split_ifs
  · exact hrules.touch hsearch List.mem_cons_self ⟨rfl, rfl, rfl, rfl⟩
  · exact hsearch

/-- The inode of the entry is in hand, or it is looked up. -/
theorem unlinkFile (hrules : Rules env on may others P) (hfinds : Finds env) (h : P s l)
    {dirp : Slot p} (rip : Option (Slot p)) (hdirp : dirp ∈ l ++ others)
    (hrip : ∀ r ∈ rip, r ∈ l ++ others) (file_name : Name) :
    Succeeds (unlinkFile env s dirp rip file_name) (Ends P l) := by
  cases rip with
  | some rip =>
      have hmem : rip ∈ l ++ others := hrip rip rfl
      exact hrules.deleteEntry (hrules.dup h hmem) hdirp file_name
  | none =>
      have hsearch := hrules.search file_name none .LOOK_UP nofun h hdirp
      have hnumb := hfinds.number (s.directories (s.inode dirp).i_dev (s.inode dirp).i_num)
        file_name none
      unfold LinkCalls.unlinkFile
      cases hlookup : searchDir env s dirp file_name none .LOOK_UP with
      | mk r out =>
          obtain ⟨numb, u⟩ := out
          rw [hlookup] at hsearch
          dsimp only
          have herror := hrules.error r hsearch
          split_ifs with hfound
          · exact herror
          · have hanswer : (env.search_dir (s.directories (s.inode dirp).i_dev (s.inode dirp).i_num)
                file_name none .LOOK_UP).answer = r := congrArg Prod.fst hlookup
            have hsome : (env.search_dir (s.directories (s.inode dirp).i_dev (s.inode dirp).i_num)
                file_name none .LOOK_UP).numb = numb := congrArg (fun out => out.2.1) hlookup
            rw [hanswer, hsome] at hnumb
            have hget := hrules.get herror (hrules.device herror hdirp) (hnumb (not_not.mp hfound))
            cases hopened : getInode env (u.setError r) ((u.setError r).inode dirp).i_dev numb with
            | mk rip v =>
                rw [hopened] at hget
                cases rip with
                | none => exact hget
                | some rip =>
                    have hok : v.err_code = .OK :=
                      (getInode_error (hrules.linked herror) hopened).trans (not_not.mp hfound)
                    dsimp only
                    rw [if_neg (not_not.mpr hok)]
                    exact hrules.deleteEntry hget hdirp file_name

theorem removeDir (hrules : Rules env on may others P) (hfinds : Finds env) (h : P s l)
    {rldirp rip : Slot p} (hrldirp : rldirp ∈ l ++ others) (hrip : rip ∈ l ++ others)
    (dir_name : Name) : Succeeds (removeDir hdr env s rldirp rip dir_name) (Ends P l) := by
  have hsearch := hrules.search "" none .IS_EMPTY nofun h hrip
  unfold DirectoryCalls.removeDir
  dsimp only
  split_ifs
  · exact hsearch
  · exact hsearch
  · exact hsearch
  · have hentry := hrules.unlinkFile hfinds hsearch (some rip) hrldirp
      (fun r hr => Option.some.inj hr ▸ hrip) dir_name
    refine hentry.bind fun out hout => ?_
    split_ifs
    · exact hout
    · have hself := hrules.unlinkFile hfinds hout none hrip none_held dot1
      refine hself.bind fun out' hout' => ?_
      have hparent := hrules.unlinkFile hfinds hout' none hrip none_held dot2
      exact hparent.bind fun _ hlast => hlast

theorem tryUnlink (hrules : Rules env on may others P) (hfinds : Finds env) (h : P s l)
    {rldirp rip : Slot p} (hrldirp : rldirp ∈ l ++ others) (hrip : rip ∈ l ++ others)
    (string : Name) : Succeeds (tryUnlink env s rldirp rip string) (Ends P l) := by
  unfold LinkCalls.tryUnlink
  split_ifs
  · exact h
  · exact h
  · exact hrules.unlinkFile hfinds h (some rip) hrldirp (fun r hr => Option.some.inj hr ▸ hrip)
      string

theorem tryRemove (hrules : Rules env on may others P) (hfinds : Finds env) (h : P s l)
    {rldirp rip : Slot p} (hrldirp : rldirp ∈ l ++ others) (hrip : rip ∈ l ++ others)
    (string : Name) : Succeeds (tryRemove hdr env s rldirp rip string) (Ends P l) := by
  unfold DirectoryCalls.tryRemove
  split_ifs
  · exact h
  · exact hrules.removeDir hfinds h hrldirp hrip string

theorem fsUnlink (hrules : Rules env on may others P) (hfinds : Finds env) (h : P s l) {m : Message}
    (hdev : on m.fs_dev) (hnumb : m.REQ_INODE_NR ≠ NO_ENTRY) :
    Succeeds (fsUnlink env m s) (Ends P l) := by
  rw [fsUnlink_eq]
  exact hrules.unlinkWith hfinds
    (fun string hs hdir hrip _ => hrules.tryUnlink hfinds hs hdir hrip string) h hdev hnumb

theorem fsRmdir (hrules : Rules env on may others P) (hfinds : Finds env) (h : P s l) {m : Message}
    (hdev : on m.fs_dev) (hnumb : m.REQ_INODE_NR ≠ NO_ENTRY) :
    Succeeds (fsRmdir hdr env m s) (Ends P l) :=
  hrules.unlinkWith hfinds
    (fun string hs hdir hrip _ => hrules.tryRemove hfinds hs hdir hrip string) h hdev hnumb

/-! ### fs_rename -/

theorem moveEntry (hrules : Rules env on may others P) (h : P s l) {old_dirp new_dirp : Slot p}
    (old_ip : Slot p) (hold : old_dirp ∈ l ++ others) (hnew : new_dirp ∈ l ++ others)
    {m : RenameMessage} (hmay : may m.new_name) (same_pdir : Bool) :
    Ends P l (moveEntry env m s old_dirp old_ip new_dirp same_pdir) := by
  unfold DirectoryCalls.moveEntry Ends
  split_ifs
  · have hdelete := hrules.search m.old_name none .DELETE nofun h hold
    dsimp only
    split_ifs
    · exact hrules.search m.new_name _ .ENTER (fun _ => ⟨nofun, hmay⟩) hdelete hold
    · exact hdelete
  · have henter := hrules.search m.new_name (some (s.inode old_ip).i_num) .ENTER
      (fun _ => ⟨nofun, hmay⟩) h hnew
    dsimp only
    split_ifs
    · exact hrules.search m.old_name none .DELETE nofun henter hold
    · exact henter

theorem updateParent (hrules : Rules env on may others P) (hfinds : Finds env) (h : P s l)
    {old_ip new_dirp : Slot p} (hold : old_ip ∈ l ++ others) (hnew : new_dirp ∈ l ++ others)
    (hmay : may dot2) : Succeeds (updateParent env s old_ip new_dirp) fun t => P t l := by
  unfold DirectoryCalls.updateParent
  refine (hrules.unlinkFile hfinds h none hold none_held dot2).bind fun out hout => ?_
  have henter := hrules.search dot2 (some (s.inode new_dirp).i_num) .ENTER
    (fun _ => ⟨nofun, hmay⟩) hout hold
  dsimp only
  split_ifs
  · exact (hrules.touch henter hnew ⟨rfl, rfl, rfl, rfl⟩)
  · exact henter

theorem removeNew (hrules : Rules env on may others P) (hfinds : Finds env) (h : P s l)
    {new_dirp : Slot p} {new_ip : Option (Slot p)} (hdir : new_dirp ∈ l ++ others)
    (hnew : ∀ r ∈ new_ip, r ∈ l ++ others) (odir : Bool) (new_name : Name) :
    Succeeds (removeNew hdr env s new_dirp new_ip odir new_name) (Ends P l) := by
  cases new_ip with
  | none => exact h
  | some new_ip =>
      have hmem : new_ip ∈ l ++ others := hnew new_ip rfl
      unfold DirectoryCalls.removeNew
      dsimp only
      split_ifs
      · exact hrules.removeDir hfinds h hdir hmem new_name
      · exact hrules.unlinkFile hfinds h (some new_ip) hdir
          (fun r hr => Option.some.inj hr ▸ hmem) new_name

theorem performRename (hrules : Rules env on may others P) (hfinds : Finds env) (h : P s l)
    {old_dirp old_ip new_dirp : Slot p} {new_ip : Option (Slot p)}
    (hold_dir : old_dirp ∈ l ++ others) (hold : old_ip ∈ l ++ others)
    (hnew_dir : new_dirp ∈ l ++ others) (hnew : ∀ r ∈ new_ip, r ∈ l ++ others)
    {m : RenameMessage} (hmay : may m.new_name) (hdots : may dot2) (odir same_pdir : Bool) :
    Succeeds (performRename hdr env m s old_dirp old_ip new_dirp new_ip odir same_pdir)
      (Ends P l) := by
  unfold DirectoryCalls.performRename
  refine (hrules.removeNew hfinds h hnew_dir hnew odir m.new_name).bind fun out hout => ?_
  dsimp only
  split_ifs with hfailed hparent
  · exact hout
  · have hmoved := hrules.moveEntry hout old_ip hold_dir hnew_dir hmay same_pdir
    exact (hrules.updateParent hfinds hmoved hold hnew_dir hdots).bind fun t ht => ht
  · exact (hrules.moveEntry hout old_ip hold_dir hnew_dir hmay same_pdir)

theorem tryRename (hrules : Rules env on may others P) (hfinds : Finds env) {m : RenameMessage}
    (hmay : may m.new_name) (hdots : may dot2) (fuel : ℕ) :
    Opening.TriesRename hdr env m fuel (fun halt => halt = .passesRanOut) P l := by
  intro s old_dirp old_ip new_dirp new_ip r h _ _
  have hopen : ∀ x ∈ old_dirp :: old_ip :: new_dirp :: l,
      x ∈ gained new_ip (old_dirp :: old_ip :: new_dirp :: l) := fun x hx =>
    List.mem_append_right _ hx
  have hnew : ∀ x ∈ new_ip, x ∈ gained new_ip (old_dirp :: old_ip :: new_dirp :: l) := fun x hx =>
    List.mem_append_left _ (Option.mem_toList.mpr hx)
  have hold_dir := List.mem_append_left others (hopen old_dirp (by simp))
  have hold := List.mem_append_left others (hopen old_ip (by simp))
  have hnew_dir := List.mem_append_left others (hopen new_dirp (by simp))
  unfold DirectoryCalls.tryRename
  dsimp only
  split_ifs with hr
  · exact h
  · refine (hrules.checkAbove hfinds h hnew_dir fuel _ _).bind fun out hout => ?_
    split_ifs
    · exact hout
    · exact Opening.results_lift
        (hrules.performRename hfinds hout hold_dir hold hnew_dir
        (fun x hx => List.mem_append_left others (hnew x hx)) hmay hdots _ _)

end Rules

/-! ## Clean inodes -/

/-- The caller holds no other reference. -/
theorem mem_alone (h : r ∈ l ++ []) : r ∈ l := by
  rwa [List.append_nil] at h

theorem ready_put (hb : InodesPerBlock p) (h : Ready s (r :: l)) (env : Environment p) :
    Succeeds (putInode env s (some r)) fun t => Ready t l := by
  have hput := h.put hb env
  obtain ⟨hnum, hcount⟩ := h.holding r List.mem_cons_self
  rw [List.count_cons_self] at hcount
  obtain ⟨t, ht, _⟩ := putInode_released hb h.coherent.linked ⟨hnum, by omega⟩ env
  exact results_of_ok ht (hput t ht)

theorem rules_ready (hp : Conversions p) (hb : InodesPerBlock p) (hdoc : Documented env) :
    Rules env (· ≠ NO_DEV) may [] (Ready : State p → List (Slot p) → Prop) where
  linked h := h.coherent.linked
  perm h hperm := ⟨h.coherent, fun r hr => by
    rw [← hperm.count_eq]
    exact h.holding r (hperm.mem_iff.mpr hr)⟩
  error _ h := h.of_eq rfl rfl rfl rfl
  device h hr := (h.coherent.linked.attached _ (h.holding _ (mem_alone hr)).1).1
  holding h hr := by
    rw [List.append_nil] at hr ⊢
    exact h.holding _ hr
  get h hdev hnumb := h.get hp hdev hnumb env
  put h := ready_put hb h env
  dup h hr := h.dup (mem_alone hr)
  search string n flag _ h hr := h.search hb hdoc (mem_alone hr) string n flag
  touch h hr hf := h.touch (mem_alone hr) hf

/-! ## Users -/

/-- How many use the inode in this slot. -/
def users (s : State p) (r : Slot p) : ℕ :=
  if (s.inode r).i_num = NO_ENTRY then 0 else (s.inode r).i_count

/-- Since the call began, it has taken these references and no other, and the inodes that
were in use then are where they were. -/
structure Owes (start s : State p) (l : List (Slot p)) : Prop where
  linked : Linked s
  uses : ∀ r, users s r = users start r + l.count r
  named : ∀ r, 0 < users start r → slotKey (s.inode r) = slotKey (start.inode r)

theorem owes_self (h : Linked s) : Owes s s [] := ⟨h, fun _ => rfl, fun _ _ => rfl⟩

theorem users_congr {a b : State p} (h : SameLinks (a.inode r) (b.inode r)) :
    users a r = users b r := by
  unfold users
  rw [h.i_num, h.i_count]

variable {start : State p}

theorem Owes.congr (h : Owes start s l) (hl : Linked t)
    (hsame : ∀ q, SameLinks (t.inode q) (s.inode q)) : Owes start t l := by
  refine ⟨hl, fun q => ?_, fun q hq => ?_⟩
  · rw [users_congr (hsame q)]
    exact h.uses q
  · rw [InodeCoherence.slotKey_congr (hsame q)]
    exact h.named q hq

/-- One slot is changed, with its references. -/
theorem Owes.change (h : Owes start s l) (hl : Linked t)
    (hother : ∀ q, q ≠ r → t.inode q = s.inode q) (hcounts : ∀ q, q ≠ r → l'.count q = l.count q)
    (husers : users t r = users start r + l'.count r)
    (hnamed : 0 < users start r → slotKey (t.inode r) = slotKey (s.inode r)) : Owes start t l' := by
  refine ⟨hl, fun q => ?_, fun q hq => ?_⟩
  · by_cases he : q = r
    · rw [he]
      exact husers
    · rw [hcounts q he, ← h.uses q]
      unfold users
      rw [hother q he]
  · by_cases he : q = r
    · subst he
      rw [hnamed hq]
      exact h.named q hq
    · rw [hother q he]
      exact h.named q hq

theorem users_eq (hnum : (s.inode r).i_num ≠ NO_ENTRY) : users s r = (s.inode r).i_count :=
  if_neg hnum

theorem users_unused (h : Linked s) (hr : r ∈ s.unused_inodes) : users s r = 0 := by
  unfold users
  split_ifs with hnum
  · rfl
  · exact h.idle r hr hnum

/-- A reference in hand is a use of an inode. -/
theorem Owes.held (h : Owes start s l) (hr : r ∈ l) :
    (s.inode r).i_num ≠ NO_ENTRY ∧ 0 < (s.inode r).i_count := by
  have hpos := List.count_pos_iff.mpr hr
  have husers := h.uses r
  by_cases hnum : (s.inode r).i_num = NO_ENTRY
  · have hzero : users s r = 0 := if_pos hnum
    omega
  · rw [users_eq hnum] at husers
    exact ⟨hnum, by omega⟩

theorem count_cons_other (l : List (Slot p)) (hq : q ≠ r) : (r :: l).count q = l.count q :=
  List.count_cons_of_ne (Ne.symm hq)

theorem Owes.get (h : Owes start s l) (hdev : dev ≠ NO_DEV) (hnumb : numb ≠ NO_ENTRY) :
    Owes start (getInode env s dev numb).2 (gained (getInode env s dev numb).1 l) := by
  have hl := h.linked
  rcases getInode_cases hl env dev numb with ⟨r, hkey, hget⟩ | ⟨_, _, hget⟩ | ⟨_, r, hr, hget⟩
  · rw [hget]
    have hnum := (slotKey_eq_some.mp hkey).1
    have hself : (found s r).inode r = setCount ((s.inode r).i_count + 1) (s.inode r) := by
      rw [found_inode, if_pos rfl]
    have hother : ∀ q, q ≠ r → (found s r).inode q = s.inode q := by
      intro q hq
      rw [found_inode, if_neg hq]
    have husers := h.uses r
    apply h.change (hl.found hnum) hother fun q hq => count_cons_other l hq
    · have hnum' : ((found s r).inode r).i_num ≠ NO_ENTRY := by
        rw [hself]
        exact hnum
      change users (found s r) r = users start r + (r :: l).count r
      rw [users_eq hnum] at husers
      rw [users_eq hnum', hself, List.count_cons_self]
      change (s.inode r).i_count + 1 = _
      omega
    · intro _
      rw [hself]
      rfl
  · rw [hget]
    exact h.congr (hl.of_eq rfl rfl rfl) fun _ => ⟨rfl, rfl, rfl, rfl⟩
  · rw [hget]
    have hlinks := loadInode_links s r dev numb
    have hself : (loaded s r dev numb).inode r = loadInode s r dev numb := by
      rw [loaded_inode, if_pos rfl]
    have hother : ∀ q, q ≠ r → (loaded s r dev numb).inode q = s.inode q := by
      intro q hq
      rw [loaded_inode, if_neg hq]
    -- nobody used the slot
    have husers := h.uses r
    rw [users_unused hl (List.mem_of_mem_head? hr)] at husers
    apply h.change (hl.loaded r hdev hnumb) hother fun q hq => count_cons_other l hq
    · have hnum' : ((loaded s r dev numb).inode r).i_num ≠ NO_ENTRY := by
        rw [hself, hlinks.2.1]
        exact hnumb
      change users (loaded s r dev numb) r = users start r + (r :: l).count r
      rw [users_eq hnum', hself, hlinks.2.2.1, List.count_cons_self]
      omega
    · omega

theorem Owes.put (h : Owes start s (r :: l)) :
    Succeeds (putInode env s (some r)) fun t => Owes start t l := by
  have hl := h.linked
  obtain ⟨hnum, hpos⟩ := h.held List.mem_cons_self
  have husers := h.uses r
  rw [users_eq hnum, List.count_cons_self] at husers
  have hcounts : ∀ q, q ≠ r → l.count q = (r :: l).count q := fun q hq =>
    (count_cons_other l hq).symm
  rcases putInode_cases env s r with ⟨hzero, _⟩ | ⟨hone, hput⟩ | ⟨hmany, hput⟩
  · omega
  · apply results_of_ok hput
    have hunused : users (released env s r) r = 0 := by
      by_cases hlinks : (s.inode r).i_nlinks = NO_LINK
      · exact if_pos (released_freed_inode env hlinks)
      · have hcount : ((released env s r).inode r).i_count = 0 := by
          rw [released_kept_inode env hlinks, writtenInode_fields]
          rfl
        unfold users
        rw [hcount, ite_self]
    apply h.change (linked_released hl env hnum hone) (fun q hq => released_other env s hq) hcounts
    · omega
    · omega
  · apply results_of_ok hput
    have hself : (s.modify r (setCount ((s.inode r).i_count - 1))).inode r =
        setCount ((s.inode r).i_count - 1) (s.inode r) := inode_modify_self s r _
    apply h.change (linked_setCount hl hnum hpos (by omega))
      (fun q hq => inode_modify_of_ne s _ hq) hcounts
    · have hnum' : ((s.modify r (setCount ((s.inode r).i_count - 1))).inode r).i_num ≠ NO_ENTRY := by
        rw [hself]
        exact hnum
      rw [users_eq hnum', hself]
      change (s.inode r).i_count - 1 = _
      omega
    · intro _
      rw [hself]
      rfl

theorem Owes.dup (h : Owes start s l) (hr : r ∈ l) : Owes start (dupInode s r) (r :: l) := by
  obtain ⟨hnum, hpos⟩ := h.held hr
  have husers := h.uses r
  have hself : (dupInode s r).inode r = setCount ((s.inode r).i_count + 1) (s.inode r) :=
    inode_modify_self s r _
  rw [users_eq hnum] at husers
  apply h.change (linked_setCount h.linked hnum hpos (Nat.succ_pos _))
    (fun q hq => inode_modify_of_ne s _ hq) fun q hq => count_cons_other l hq
  · have hnum' : ((dupInode s r).inode r).i_num ≠ NO_ENTRY := by
      rw [hself]
      exact hnum
    change users (dupInode s r) r = _
    rw [users_eq hnum', hself, List.count_cons_self]
    change (s.inode r).i_count + 1 = _
    omega
  · intro _
    change slotKey ((dupInode s r).inode r) = _
    rw [hself]
    rfl

/-- The inode in the slot is changed, but not where it is linked. -/
theorem Owes.modify (h : Owes start s l) {f : Inode p → Inode p}
    (hf : SameLinks (f (s.inode r)) (s.inode r)) : Owes start (s.modify r f) l :=
  h.congr (h.linked.congr rfl rfl (InodeCoherence.sameLinks_modify hf))
    (InodeCoherence.sameLinks_modify hf)

theorem Owes.write (h : Owes start s l) (hr : r ∈ l) (cur_time : UInt32) :
    Owes start (rwInode cur_time s r .WRITING) l := by
  have hsp := (h.linked.attached r (h.held hr).1).2
  have hsame : ∀ q, SameLinks ((rwInode cur_time s r .WRITING).inode q) (s.inode q) := by
    intro q
    rw [writing_inode]
    split_ifs with hq
    · rw [hq]
      exact InodeCoherence.sameLinks_writing cur_time hsp
    · exact ⟨rfl, rfl, rfl, rfl⟩
  have hlists := writing_eq cur_time s r
  exact h.congr (h.linked.congr (by rw [hlists]) (by rw [hlists]) hsame) hsame

theorem Owes.search (hlinks : ∀ entries string n flag rip,
      SameLinks ((env.search_dir entries string n flag).dirp rip) rip)
    (string : Name) (n : Option UInt32) (flag : Flag) (h : Owes start s l) (hr : r ∈ l) :
    Owes start (searchDir env s r string n flag).2.2 l := by
  unfold searchDir
  dsimp only
  have hdirectory : Owes start (s.setDirectory (s.inode r).i_dev (s.inode r).i_num
      (env.search_dir (s.directories (s.inode r).i_dev (s.inode r).i_num) string n flag).entries) l :=
    h.congr (h.linked.of_eq rfl rfl rfl) fun _ => ⟨rfl, rfl, rfl, rfl⟩
  have hmodified := hdirectory.modify (r := r) (hlinks
    (s.directories (s.inode r).i_dev (s.inode r).i_num) string n flag _)
  split_ifs
  · exact hmodified.write hr env.clock_time
  · exact hmodified

theorem Owes.touch (h : Owes start s l) {f : Inode p → Inode p}
    (hf : SameLinks (f (s.inode r)) (s.inode r)) : Owes start (markDirty (s.modify r f) r) l := by
  obtain ⟨log, hdirty⟩ := markDirty_eq (s.modify r f) r
  have hboth := h.modify (r := r) (f := fun rip => dirtied (f rip))
    ⟨hf.i_num, hf.i_dev, hf.i_sp, hf.i_count⟩
  rw [hdirty, modify_modify]
  exact hboth.congr (hboth.linked.of_eq rfl rfl rfl) fun _ => ⟨rfl, rfl, rfl, rfl⟩

theorem rules_owes (hlinks : ∀ entries string n flag rip,
      SameLinks ((env.search_dir entries string n flag).dirp rip) rip) (start : State p) :
    Rules env (· ≠ NO_DEV) may [] (Owes start) where
  linked h := h.linked
  perm h hperm := ⟨h.linked, fun r => by rw [← hperm.count_eq]; exact h.uses r, h.named⟩
  error _ h := h.congr (h.linked.of_eq rfl rfl rfl) fun _ => ⟨rfl, rfl, rfl, rfl⟩
  device h hr := (h.linked.attached _ (h.held (mem_alone hr)).1).1
  holding {s l r} h hr := by
    rw [List.append_nil] at hr ⊢
    have hnum := (h.held hr).1
    have huses := h.uses r
    rw [users_eq hnum] at huses
    exact ⟨hnum, by omega⟩
  get h hdev hnumb := h.get hdev hnumb
  put h := h.put
  dup h hr := h.dup (mem_alone hr)
  search string n flag _ h hr := h.search hlinks string n flag (mem_alone hr)
  touch h _ hf := h.touch hf

end MinixOS.LinkReferences
