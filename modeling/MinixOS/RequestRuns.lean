import Mathlib.Data.List.Basic
import MinixOS.InodeUse
import MinixOS.LinkReferences
import MinixOS.LinkSystem

/-!
# Runs of requests

All requests of inode.c and link.c that concern inodes and entries, one after the other. Between
requests each inode has as many users as it was handed out and not given back, and each clean
inode is as it is on disk. Only `fs_recover` breaks this, and a new inode
with a number that another slot holds.
-/
namespace MinixOS.RequestRuns
open SystemRuns InodeState InodeCopy InodeCache WriteBackCache InodeView InodeRelease
  InodeAllocation InodeSystem InodeRecovery InodeSlots InodeCoherence InodeUse LinkCalls
  LinkCoherence LinkSystem DirectoryCalls LinkReferences
open CheckedExecution hiding Stop

variable {p : Platform} {s t : State p} {r : Slot p} {l : List (Slot p)} {env : Environment p}
  {hdr : Headers}

inductive FileCall (p : Platform) where
  | fs (call : FsCall p)
  | fs_rmdir (m : Message)
  | fs_rdlink (m : ReadMessage)
  | fs_rename (m : RenameMessage)
  | fs_putnode (m : PutMessage)

structure FileRequest (p : Platform) where
  env : Environment p
  call : FileCall p

inductive FileAnswer (p : Platform) where
  | fs (answer : FsAnswer p)
  | errno (r : Errno)
  | text (r : Errno) (nbytes : Option ℕ)

/-- The numbers in a message are numbers of inodes of a device. -/
def FileSound (s : State p) : FileCall p → Prop
  | .fs call => FsSound s call
  | .fs_rmdir m => m.fs_dev ≠ NO_DEV ∧ m.REQ_INODE_NR ≠ NO_ENTRY
  | .fs_rdlink m => m.fs_dev ≠ NO_DEV ∧ m.REQ_INODE_NR ≠ NO_ENTRY
  | .fs_rename m =>
      m.fs_dev ≠ NO_DEV ∧ m.REQ_REN_OLD_DIR ≠ NO_ENTRY ∧ m.REQ_REN_NEW_DIR ≠ NO_ENTRY
  | .fs_putnode _ => True

/-- What the calls come to, with enough passes of the loop of `fs_rename`. -/
inductive Executes (hdr : Headers) (env : Environment p) (s : State p) :
    FileCall p → FileAnswer p → State p → Prop
  | fs {call : FsCall p} {answer : FsAnswer p} {t : State p}
      (h : fsExecute ⟨env, call⟩ s = .ok (answer, t)) : Executes hdr env s (.fs call) (.fs answer) t
  | rmdir {m : Message} {r : Errno} {t : State p} (h : fsRmdir hdr env m s = .ok (r, t)) :
      Executes hdr env s (.fs_rmdir m) (.errno r) t
  | rdlink {m : ReadMessage} {r : Errno} {nbytes : Option ℕ} {t : State p}
      (h : fsRdlink hdr env m s = .ok ((r, nbytes), t)) :
      Executes hdr env s (.fs_rdlink m) (.text r nbytes) t
  | rename {m : RenameMessage} {fuel : ℕ} {r : Errno} {t : State p}
      (h : fsRename hdr env m fuel s = .ok (r, t)) : Executes hdr env s (.fs_rename m) (.errno r) t
  | putnode {m : PutMessage} {r : Errno} {t : State p} (h : fsPutnode env m s = .ok (r, t)) :
      Executes hdr env s (.fs_putnode m) (.errno r) t

def FileReturns (hdr : Headers) (s : State p) (req : FileRequest p) (answer : FileAnswer p)
    (t : State p) : Prop :=
  FileSound s req.call ∧ (Documented req.env ∧ Finds req.env) ∧
    Executes hdr req.env s req.call answer t

def fileSystem (hdr : Headers) (start : State p) :
    System (State p) (FileRequest p) (FileAnswer p) where
  init := start
  returns := FileReturns hdr

abbrev FileStep (p : Platform) := Step (State p) (FileRequest p) (FileAnswer p)

/-- The request recovers an inode: it can open the directory. -/
def RecoversFile (e : FileStep p) : Prop :=
  ∃ m, e.call.call = .fs (.fs_recover m) ∧ Available e.before (m.REQ_DEV, m.REQ_DIR_INO)

/-- The request gives a new inode a number that another slot holds. -/
def ClashesFile (e : FileStep p) : Prop :=
  ∃ call, e.call.call = .fs (.inode call) ∧
    Collides ⟨e.before, ⟨e.call.env, call⟩, none, e.after⟩

/-! ## Users -/

/-- The references that are out after a call of inode.c. -/
def outstandingInode (call : InodeSystem.Call p) (answer : Option (Slot p)) (l : List (Slot p)) :
    List (Slot p) :=
  match call with
  | .dup_inode ip => ip :: l
  | .put_inode rip => l.diff rip.toList
  | _ => gained answer l

/-- The references that are out after a step. A request of link.c hands out none. -/
def outstandingAfter (e : FileStep p) (l : List (Slot p)) : List (Slot p) :=
  match e.call.call, e.answer with
  | .fs (.inode call), .fs (.inode answer) => outstandingInode call answer l
  | .fs_putnode m, _ =>
      l.diff ((findInode e.before m.fs_dev m.REQ_INODE_NR).toList.flatMap
        fun r => List.replicate m.REQ_COUNT.toNat r)
  | _, _ => l

/-- The references that were handed out and not given back, with a history before. -/
def outstanding : List (FileStep p) → List (Slot p)
  | [] => []
  | e :: history => outstandingAfter e (outstanding history)

variable {start : State p}

theorem owes_init (start : State p) :
    Owes (initInodeCache start) (initInodeCache start) [] :=
  owes_self (linked_initInodeCache start)

theorem users_init (start : State p) (r : Slot p) : users (initInodeCache start) r = 0 := rfl

/-- Where nobody used an inode at first, each use is a reference that is out. -/
theorem owes_mem (h : Owes start s l) (hnone : users start r = 0) (hheld : Held s r) : r ∈ l := by
  have huses := h.uses r
  rw [users_eq hheld.1, hnone] at huses
  apply List.count_pos_iff.mp
  have hpos := hheld.2
  omega

theorem owes_put (h : Owes start s l) (hr : r ∈ l) :
    Succeeds (putInode env s (some r)) fun t => Owes start t (l.erase r) := by
  have hperm : l.Perm (r :: l.erase r) := List.perm_cons_erase hr
  have howes : Owes start s (r :: l.erase r) :=
    ⟨h.linked, fun q => by rw [← hperm.count_eq]; exact h.uses q, h.named⟩
  exact howes.put

theorem owes_putTimes (h : Owes start s l) (n : ℕ) (hcount : n ≤ l.count r) :
    Ensures (putTimes env r n s) fun t => Owes start t (l.diff (List.replicate n r)) := by
  induction n generalizing s l with
  | zero => exact ensures_ok h
  | succ n ih =>
      have hmem : r ∈ l := List.count_pos_iff.mp (by omega)
      have hrest : n ≤ (l.erase r).count r := by
        rw [List.count_erase_self]
        omega
      rw [List.replicate_succ, List.diff_cons]
      exact (owes_put h hmem).ensures.bind fun t ht => ih ht hrest

theorem owes_alloc (h : Owes start s l) {dev : Dev} (hdev : dev ≠ NO_DEV) (bits : UInt16) :
    Owes start (allocInode env s dev bits).2 (gained (allocInode env s dev bits).1 l) := by
  have hl := h.linked
  have hsame : ∀ u : State p, u.inode = s.inode → u.unused_inodes = s.unused_inodes →
      u.hash_inodes = s.hash_inodes → Owes start u l := by
    intro u hinode hunused hhash
    refine h.congr (hl.of_eq hinode hunused hhash) fun q => ?_
    rw [hinode]
    exact ⟨rfl, rfl, rfl, rfl⟩
  have hanswer : env.alloc_bit (s.imap dev) (s.s_isearch dev) = _ := rfl
  rcases allocInode_cases hl bits hanswer with
    ⟨_, halloc⟩ | ⟨_, _, halloc⟩ | ⟨_, _, _, halloc⟩ | ⟨hrw, hb, r, hr, halloc⟩
  · rw [halloc]
    exact hsame _ rfl rfl rfl
  · rw [halloc]
    exact hsame _ rfl rfl rfl
  · rw [halloc, withdrawn_eq]
    exact hsame _ rfl rfl rfl
  · rw [halloc]
    have hfields := newInode_fields env s r bits (env.alloc_bit (s.imap dev) (s.s_isearch dev)) hrw
    have hself := allocated_inode env s r r dev bits (env.alloc_bit (s.imap dev) (s.s_isearch dev))
    rw [if_pos rfl] at hself
    have hother : ∀ q, q ≠ r → (allocated env s r dev bits
        (env.alloc_bit (s.imap dev) (s.s_isearch dev))).inode q = s.inode q := by
      intro q hq
      rw [allocated_inode, if_neg hq]
    -- nobody used the slot
    have huses := h.uses r
    rw [users_unused hl (List.mem_of_mem_head? hr)] at huses
    apply h.change (linked_allocated hl env r bits hrw hdev hb) hother
      fun q hq => count_cons_other l hq
    · have hnum : ((allocated env s r dev bits
          (env.alloc_bit (s.imap dev) (s.s_isearch dev))).inode r).i_num ≠ NO_ENTRY := by
        rw [hself, hfields.2.1]
        exact hb
      change users _ r = users start r + (r :: l).count r
      rw [users_eq hnum, hself, hfields.2.2.2.1, List.count_cons_self]
      omega
    · omega

theorem owes_retrieve (h : Owes start s l) {dev : Dev} {inumb : UInt32} (hdev : dev ≠ NO_DEV)
    (hinumb : inumb ≠ NO_ENTRY) :
    Ensures (retrieveInode env s dev inumb) fun out => Owes start out.2 (gained out.1 l) := by
  have hclaimed : Owes start (claimed env s dev inumb) l := by
    refine h.congr (linked_claimed h.linked env dev inumb) fun q => ?_
    rw [claimed_eq]
    exact ⟨rfl, rfl, rfl, rfl⟩
  have hget : Owes start (getInode env (claimed env s dev inumb) dev inumb).2
      (gained (getInode env (claimed env s dev inumb) dev inumb).1 l) := hclaimed.get hdev hinumb
  intro out hout
  cases hopened : getInode env (claimed env s dev inumb) dev inumb with
  | mk rip u =>
      rw [hopened] at hget
      cases rip with
      | none =>
          rw [retrieveInode_none hopened] at hout
          split_ifs at hout
          cases hout
          exact hget.congr (hget.linked.of_eq rfl rfl rfl) fun _ => ⟨rfl, rfl, rfl, rfl⟩
      | some r =>
          obtain ⟨log, hsome⟩ := retrieveInode_some hopened
          rw [hsome] at hout
          cases hout
          exact hget.congr (hget.linked.of_eq rfl rfl rfl) fun _ => ⟨rfl, rfl, rfl, rfl⟩

/-- A call of inode.c, in a run that began with no users. -/
theorem owes_inode (h : Owes start s l) (hnone : ∀ r, users start r = 0)
    {call : InodeSystem.Call p} (hsound : Sound s call) :
    Ensures (execute ⟨env, call⟩ s) fun out =>
      Owes start out.2 (outstandingInode call out.1 l) := by
  cases call with
  | get_inode dev numb => exact ensures_ok (h.get hsound.1 hsound.2)
  | dup_inode ip => exact ensures_ok (h.dup (owes_mem h (hnone ip) hsound))
  | put_inode rip =>
      intro out hout
      obtain ⟨u, hu, hpair⟩ := map_eq_ok.mp hout
      cases hpair
      cases rip with
      | none =>
          cases hu
          exact h
      | some r =>
          have hput := (owes_put h (owes_mem h (hnone r) (hsound r rfl))).ensures u hu
          change Owes start u (l.diff [r])
          rwa [List.diff_cons, List.diff_nil]
  | alloc_inode dev bits => exact ensures_ok (owes_alloc h hsound bits)
  | retrieve_inode dev inumb => exact owes_retrieve h hsound.1 hsound.2

theorem owes_putnode (h : Owes start s l) (hnone : ∀ r, users start r = 0) (m : PutMessage) :
    Ensures (fsPutnode env m s) fun out => Owes start out.2 (l.diff
      ((findInode s m.fs_dev m.REQ_INODE_NR).toList.flatMap
        fun r => List.replicate m.REQ_COUNT.toNat r)) := by
  intro out hout
  cases hfound : findInode s m.fs_dev m.REQ_INODE_NR with
  | none =>
      unfold fsPutnode at hout
      rw [hfound] at hout
      cases hout
  | some r =>
      have hheld := key_of_findInode h.linked hfound
      have huses := h.uses r
      rw [users_eq (slotKey_eq_some.mp hheld.1).1, hnone r] at huses
      by_cases hcount : 0 < m.REQ_COUNT
      · rw [fsPutnode_eq env hfound hcount] at hout
        split_ifs at hout with hmany
        obtain ⟨u, hu, hpair⟩ := map_eq_ok.mp hout
        cases hpair
        have hput : Owes start u (l.diff (List.replicate m.REQ_COUNT.toNat r)) :=
          owes_putTimes h m.REQ_COUNT.toNat (by omega) u hu
        simpa using hput
      · unfold fsPutnode at hout
        rw [hfound] at hout
        dsimp only at hout
        rw [if_pos (not_lt.mp hcount)] at hout
        cases hout

/-- Without its directory, `fs_recover` changes no inode. -/
theorem owes_unrecovered (h : Owes start s l) {m : Message}
    (hdir : ¬ Available s (m.REQ_DEV, m.REQ_DIR_INO)) :
    Ensures (fsRecover env m s) fun out => Owes start out.2 l := by
  obtain ⟨log, misses, hfails⟩ := fsRecover_unavailable h.linked env hdir
  rw [hfails]
  exact ensures_ok (h.congr (h.linked.of_eq rfl rfl rfl) fun _ => ⟨rfl, rfl, rfl, rfl⟩)

theorem owes_fs (h : Owes start s l) (hnone : ∀ r, users start r = 0) (hdoc : Documented env)
    (hfinds : Finds env) {call : FsCall p} (hsound : FsSound s call)
    (hrecover : ∀ m, call = .fs_recover m → ¬ Available s (m.REQ_DEV, m.REQ_DIR_INO)) :
    Ensures (fsExecute ⟨env, call⟩ s) fun out => ∀ u,
      Owes start out.2 (outstandingAfter ⟨s, ⟨env, .fs call⟩, .fs out.1, u⟩ l) := by
  have hrules : Rules env (· ≠ NO_DEV) (fun _ => True) [] (Owes start) := rules_owes hdoc.links start
  intro out hout u
  unfold fsExecute at hout
  cases call with
  | inode call =>
      obtain ⟨out', hout', hpair⟩ := map_eq_ok.mp hout
      cases hpair
      exact owes_inode h hnone hsound out' hout'
  | fs_link m =>
      obtain ⟨out', hout', hpair⟩ := map_eq_ok.mp hout
      cases hpair
      exact (hrules.fsLink hfinds h hsound.1 hsound.2.1 hsound.2.2 trivial).ensures out' hout'
  | fs_unlink m =>
      obtain ⟨out', hout', hpair⟩ := map_eq_ok.mp hout
      cases hpair
      exact (hrules.fsUnlink hfinds h hsound.1 hsound.2).ensures out' hout'
  | fs_recover m =>
      obtain ⟨out', hout', hpair⟩ := map_eq_ok.mp hout
      cases hpair
      exact owes_unrecovered h (hrecover m rfl) out' hout'

theorem FileReturns.owes (h : Owes start s l) (hnone : ∀ r, users start r = 0)
    {req : FileRequest p} {answer : FileAnswer p} (hcall : FileReturns hdr s req answer t)
    (hrecover : ¬ RecoversFile ⟨s, req, answer, t⟩) :
    Owes start t (outstandingAfter ⟨s, req, answer, t⟩ l) := by
  obtain ⟨env, call⟩ := req
  obtain ⟨hsound, ⟨hdoc, hfinds⟩, hexecutes⟩ := hcall
  have hrules : Rules env (· ≠ NO_DEV) (fun _ => True) [] (Owes start) := rules_owes hdoc.links start
  cases hexecutes with
  | fs hout =>
      refine owes_fs h hnone hdoc hfinds hsound ?_ _ hout t
      rintro m rfl havailable
      exact hrecover ⟨m, rfl, havailable⟩
  | rmdir hout => exact (hrules.fsRmdir hfinds h hsound.1 hsound.2).ensures _ hout
  | rdlink hout => exact (hrules.fsRdlink h hsound.1 hsound.2).ensures _ hout
  | rename hout =>
      exact (hrules.fsRename hfinds h hsound.1 hsound.2.1 hsound.2.2
        (hrules.tryRename hfinds trivial trivial _)).ensures _ hout
  | putnode hout => exact owes_putnode h hnone _ _ hout

/-! ## A small file system -/

def smallHeaders : Headers where
  ROOT_INODE := 1
  I_SYMBOLIC_LINK := 0xA000
  UMAX_FILE_POS := 2147483647
  EXDEV := -18
  ENOTDIR := -20
  EISDIR := -21
  EACCES := -13
  EIO := -5

theorem finds_small : Finds smallEnvironment := by
  constructor
  · intro entries string e hmissing
    change findEntry entries string = .missing e at hmissing
    unfold findEntry at hmissing
    cases hfind : entries.find? fun e => e.1 = string ∧ e.2 ≠ NO_ENTRY with
    | none =>
        rw [hfind] at hmissing
        cases hmissing
        exact nofun
    | some entry =>
        rw [hfind] at hmissing
        cases hmissing
  · intro entries string n hok
    change (searchEntries entries string n .LOOK_UP).answer = .OK at hok
    change (searchEntries entries string n .LOOK_UP).numb ≠ NO_ENTRY
    unfold searchEntries at hok ⊢
    cases hfind : entries.find? fun e => e.1 = string ∧ e.2 ≠ NO_ENTRY with
    | none =>
        rw [hfind] at hok
        cases hok
    | some entry =>
        have hentry := List.find?_some hfind
        rw [decide_eq_true_eq] at hentry
        exact hentry.2
  · exact documented_small.entry
  · intro entries string numb e hfound
    change findEntry entries string = .entry numb e at hfound
    unfold findEntry at hfound
    cases hfind : entries.find? fun e => e.1 = string ∧ e.2 ≠ NO_ENTRY with
    | none =>
        rw [hfind] at hfound
        cases hfound
    | some entry =>
        rw [hfind] at hfound
        cases hfound
        exact .inl rfl

/-! ## Every run -/

theorem owes_of_run {history : List (FileStep p)}
    (hr : Run (fileSystem hdr (initInodeCache start)) history s)
    (hsafe : ∀ e ∈ history, ¬ RecoversFile e) :
    Owes (initInodeCache start) s (outstanding history) := by
  refine hr.guarded_invariant (I := fun history s =>
    Owes (initInodeCache start) s (outstanding history)) (owes_init start) ?_ hsafe
  intro history u req answer v _ hu hcall hstep
  exact FileReturns.owes hu (users_init start) hcall hstep

/-- In a run that recovers no inode, each inode has as many users as references are out. -/
theorem users_outstanding {history : List (FileStep p)}
    (hr : Run (fileSystem hdr (initInodeCache start)) history s)
    (hsafe : ∀ e ∈ history, ¬ RecoversFile e) (r : Slot p) :
    users s r = (outstanding history).count r := by
  have huses := (owes_of_run hr hsafe).uses r
  rwa [users_init, Nat.zero_add] at huses

/-- The old file is opened. -/
def openRequest : FileRequest small := ⟨smallEnvironment, .fs (.inode (.get_inode 1 2))⟩

/-- A link to it is made in the root directory. -/
def linkMessage : Message where
  fs_dev := 1
  REQ_DEV := 1
  REQ_INODE_NR := 2
  REQ_DIR_INO := 1
  copied := .OK
  string := "test.c"

theorem returns_openRequest :
    FileReturns smallHeaders mounted openRequest (.fs (.inode (some slot1))) openedFile := by
  have hnumbers : (1 : Dev) ≠ NO_DEV ∧ (2 : UInt32) ≠ NO_ENTRY := by decide
  have hanswer : (getInode smallEnvironment mounted 1 2).1 = some slot1 := by decide
  have hget : getInode smallEnvironment mounted 1 2 = (some slot1, openedFile) :=
    Prod.ext hanswer rfl
  refine ⟨hnumbers, ⟨documented_small, finds_small⟩, .fs ?_⟩
  unfold fsExecute execute
  dsimp only [openRequest]
  rw [hget]
  rfl

theorem run_openRequest : Run (fileSystem smallHeaders mounted)
    [⟨mounted, openRequest, .fs (.inode (some slot1)), openedFile⟩] openedFile :=
  Run.init.call returns_openRequest

theorem not_recovers_openRequest {e : FileStep small}
    (he : e ∈ [(⟨mounted, openRequest, .fs (.inode (some slot1)), openedFile⟩ : FileStep small)]) :
    ¬ RecoversFile e := by
  rw [List.mem_singleton.mp he]
  rintro ⟨m, hnot, _⟩
  cases hnot

/-- The opened file has one user, and stays so when a link to it was made. -/
theorem users_outstanding_small :
    ∃ r t, fsLink smallEnvironment linkMessage openedFile = .ok (r, t) ∧
      ∀ q, users t q = [slot1].count q := by
  have hsound : FileSound openedFile (.fs (.fs_link linkMessage)) := by
    change (1 : Dev) ≠ NO_DEV ∧ (2 : UInt32) ≠ NO_ENTRY ∧ (1 : UInt32) ≠ NO_ENTRY
    decide
  have hrules : Rules smallEnvironment (· ≠ NO_DEV) (fun _ => True) [] (Owes openedFile) :=
    rules_owes documented_small.links openedFile
  obtain ⟨⟨r, t⟩, hlink, _⟩ := (hrules.fsLink finds_small (owes_self linked_openedFile) hsound.1
    hsound.2.1 hsound.2.2 trivial).exists
  have hcall : FileReturns smallHeaders openedFile
      ⟨smallEnvironment, .fs (.fs_link linkMessage)⟩ (.fs (.errno r)) t := by
    refine ⟨hsound, ⟨documented_small, finds_small⟩, .fs ?_⟩
    unfold fsExecute
    dsimp only
    rw [hlink]
    rfl
  refine ⟨r, t, hlink, users_outstanding (run_openRequest.call hcall) ?_⟩
  intro e he
  rcases List.mem_cons.mp he with rfl | hopen
  · rintro ⟨m, hnot, _⟩
    cases hnot
  · exact not_recovers_openRequest hopen

/-- In a state that such a run reaches, no request for entries is stopped: it returns, but
`fs_rename` may need more passes of its loop. -/
theorem requests_return {history : List (FileStep p)}
    (hr : Run (fileSystem hdr (initInodeCache start)) history s)
    (hsafe : ∀ e ∈ history, ¬ RecoversFile e) (hdoc : Documented env) (hfinds : Finds env) :
    (∀ m, FileSound s (.fs (.fs_link m)) → ∃ r t, fsLink env m s = .ok (r, t)) ∧
    (∀ m, FileSound s (.fs (.fs_unlink m)) → ∃ r t, fsUnlink env m s = .ok (r, t)) ∧
    (∀ m, FileSound s (.fs_rmdir m) → ∃ r t, fsRmdir hdr env m s = .ok (r, t)) ∧
    (∀ m, FileSound s (.fs_rdlink m) → ∃ r nbytes t, fsRdlink hdr env m s = .ok ((r, nbytes), t)) ∧
    ∀ m, FileSound s (.fs_rename m) → ∀ fuel,
      (∃ r t, fsRename hdr env m fuel s = .ok (r, t)) ∨
        fsRename hdr env m fuel s = .error .passesRanOut := by
  have howes := owes_self (owes_of_run hr hsafe).linked
  have hrules : Rules env (· ≠ NO_DEV) (fun _ => True) [] (Owes s) := rules_owes hdoc.links s
  refine ⟨fun m hsound => ?_, fun m hsound => ?_, fun m hsound => ?_, fun m hsound => ?_,
    fun m hsound fuel => ?_⟩
  · obtain ⟨out, hout, _⟩ :=
      (hrules.fsLink hfinds howes hsound.1 hsound.2.1 hsound.2.2 trivial).exists
    exact ⟨out.1, out.2, hout⟩
  · obtain ⟨out, hout, _⟩ := (hrules.fsUnlink hfinds howes hsound.1 hsound.2).exists
    exact ⟨out.1, out.2, hout⟩
  · have hrmdir : Succeeds (fsRmdir hdr env m s) (Ends (Owes s) []) :=
      hrules.fsRmdir hfinds howes hsound.1 hsound.2
    obtain ⟨out, hout, _⟩ := hrmdir.exists
    exact ⟨out.1, out.2, hout⟩
  · have hrdlink : Succeeds (fsRdlink hdr env m s) (Ends (Owes s) []) :=
      hrules.fsRdlink howes hsound.1 hsound.2
    obtain ⟨out, hout, _⟩ := hrdlink.exists
    exact ⟨out.1.1, out.1.2, out.2, hout⟩
  · have hsettles : Settles (fsRename hdr env m fuel s) (Ends (Owes s) []) :=
      hrules.fsRename hfinds howes hsound.1 hsound.2.1 hsound.2.2
        (hrules.tryRename hfinds trivial trivial fuel)
    cases hout : fsRename hdr env m fuel s with
    | ok out => exact .inl ⟨out.1, out.2, rfl⟩
    | error halt =>
        rw [hout] at hsettles
        exact .inr (congrArg Except.error hsettles)

theorem requests_return_small :
    ∃ r t, fsRmdir smallHeaders smallEnvironment linkMessage openedFile = .ok (r, t) := by
  have hsound : FileSound openedFile (.fs_rmdir linkMessage) := by
    change (1 : Dev) ≠ NO_DEV ∧ (2 : UInt32) ≠ NO_ENTRY
    decide
  exact (requests_return run_openRequest (fun _ => not_recovers_openRequest) documented_small
    finds_small).2.2.1 linkMessage hsound

/-! ## Clean inodes -/

theorem ready_putTimes (hb : InodesPerBlock p) (n : ℕ) (h : Ready s (List.replicate n r)) :
    Ensures (putTimes env r n s) fun t => Coherent t := by
  induction n generalizing s with
  | zero => exact ensures_ok h.coherent
  | succ n ih => exact (h.put hb env).bind fun t ht => ih ht

/-- `fs_putnode` puts an inode in the table as often as it is told to, and not more often than the
inode is used. -/
theorem ensures_putnode (hl : Linked s) (m : PutMessage) {Q : State p → Prop}
    (hputs : ∀ r, (s.inode r).i_num ≠ NO_ENTRY → m.REQ_COUNT.toNat ≤ (s.inode r).i_count →
      Ensures (putTimes env r m.REQ_COUNT.toNat s) Q) :
    Ensures (fsPutnode env m s) fun out => Q out.2 := by
  intro out hout
  cases hfound : findInode s m.fs_dev m.REQ_INODE_NR with
  | none =>
      unfold fsPutnode at hout
      rw [hfound] at hout
      cases hout
  | some r =>
      by_cases hcount : 0 < m.REQ_COUNT
      · rw [fsPutnode_eq env hfound hcount] at hout
        split_ifs at hout with hmany
        obtain ⟨u, hu, hpair⟩ := map_eq_ok.mp hout
        cases hpair
        have hkey := (key_of_findInode hl hfound).1
        exact hputs r (slotKey_eq_some.mp hkey).1 (by omega) u hu
      · unfold fsPutnode at hout
        rw [hfound] at hout
        dsimp only at hout
        rw [if_pos (not_lt.mp hcount)] at hout
        cases hout

/-- So many references to an inode, if it has so many users. -/
theorem Coherent.ready_replicate (h : Coherent s) {n : ℕ} (hnum : (s.inode r).i_num ≠ NO_ENTRY)
    (hcount : n ≤ (s.inode r).i_count) : Ready s (List.replicate n r) := by
  refine ⟨h, fun q hq => ?_⟩
  obtain ⟨_, rfl⟩ := List.mem_replicate.mp hq
  rw [List.count_replicate_self]
  exact ⟨hnum, hcount⟩

theorem coherent_putnode (hb : InodesPerBlock p) (h : Coherent s) (m : PutMessage) :
    Ensures (fsPutnode env m s) fun out => Coherent out.2 :=
  ensures_putnode h.linked m fun _ hnum hcount =>
    ready_putTimes hb _ (Coherent.ready_replicate h hnum hcount)

theorem FileReturns.coherent (hp : Conversions p) (hb : InodesPerBlock p) (h : Coherent s)
    {req : FileRequest p} {answer : FileAnswer p} (hcall : FileReturns hdr s req answer t)
    (hclash : ¬ ClashesFile ⟨s, req, answer, t⟩) (hrecover : ¬ RecoversFile ⟨s, req, answer, t⟩) :
    Coherent t := by
  obtain ⟨env, call⟩ := req
  obtain ⟨hsound, ⟨hdoc, hfinds⟩, hexecutes⟩ := hcall
  have hrules : Rules env (· ≠ NO_DEV) (fun _ => True) [] Ready := rules_ready hp hb hdoc
  have hready : Ready s [] := ⟨h, holding_nil s⟩
  cases hexecutes with
  | @fs fscall answer t hout =>
      have hreturns : FsReturns s ⟨env, fscall⟩ answer t := ⟨hsound, hdoc, hout⟩
      apply hreturns.coherent hp hb h
      · rintro ⟨call, rfl, hcollides⟩
        exact hclash ⟨call, rfl, hcollides⟩
      · rintro ⟨m, rfl, havailable⟩
        exact hrecover ⟨m, rfl, havailable⟩
  | rmdir hout =>
      have hends : Ready t [] := (hrules.fsRmdir hfinds hready hsound.1 hsound.2).ensures _ hout
      exact hends.coherent
  | rdlink hout =>
      have hends : Ready t [] := (hrules.fsRdlink hready hsound.1 hsound.2).ensures _ hout
      exact hends.coherent
  | rename hout =>
      have hends : Ready t [] := (hrules.fsRename hfinds hready hsound.1 hsound.2.1 hsound.2.2
        (hrules.tryRename hfinds trivial trivial _)).ensures _ hout
      exact hends.coherent
  | putnode hout => exact coherent_putnode hb h _ _ hout

/-- The record of each hashed inode that is marked clean, on a device that may be written, is
what writing the inode would put there. -/
def Written (s : State p) : Prop :=
  ∀ r, Hashed s r → (p.get_super (s.inode r).i_dev).s_rd_only = false →
    (s.inode r).i_dirt = .IN_CLEAN →
    record s (s.inode r).i_dev (s.inode r).i_num = encode (s.inode r).i_dev (s.inode r)

theorem Coherent.written (h : Coherent s) : Written s := by
  intro r hr hrw hclean
  have hnum := (hashed_iff h.linked).mp hr
  have hkey : (view s).key r = some ((s.inode r).i_dev, (s.inode r).i_num) :=
    slotKey_eq_some.mpr ⟨hnum, rfl, rfl⟩
  have hsame := h.settled r _ hkey hrw hclean
  rw [view_store, view_value] at hsame
  exact hsame

/-- The directories may be moved and removed as well: in a run that recovers no inode, and in which
no new inode gets a number that another slot holds, nothing is lost when the write of a clean inode
is left out. -/
theorem requests_written (hp : Conversions p) (hb : InodesPerBlock p) {history : List (FileStep p)}
    (hr : Run (fileSystem hdr (initInodeCache start)) history s)
    (hsafe : ∀ e ∈ history, ¬ ClashesFile e ∧ ¬ RecoversFile e) : Written s := by
  apply Coherent.written
  refine hr.guarded_invariant (I := fun _ t => Coherent t) (coherent_initInodeCache start) ?_ hsafe
  intro history u req answer v _ hu hcall hstep
  exact FileReturns.coherent hp hb hu hcall hstep.1 hstep.2

theorem requests_written_small : Written openedFile := by
  apply requests_written conversions_small inodesPerBlock_small run_openRequest
  intro e he
  refine ⟨?_, not_recovers_openRequest he⟩
  rw [List.mem_singleton.mp he]
  rintro ⟨call, hcall, r, k, ⟨⟨bits, halloc⟩, _⟩, _⟩
  have hget : call = .get_inode 1 2 := by
    cases hcall
    rfl
  rw [hget] at halloc
  cases halloc

end MinixOS.RequestRuns
