import MinixOS.LinkCoherence

/-!
# Requests to the file server

The requests of link.c beside the calls of inode.c. In a run in which no request
recovers an inode, and no new inode gets a number that another slot holds, the record of each
clean inode is between requests what writing the inode would put there.
-/
namespace MinixOS.LinkSystem
open SystemRuns InodeState InodeCopy InodeCache WriteBackCache InodeView
  InodeSystem InodeSlots InodeCoherence LinkCalls LinkCoherence

variable {p : Platform}

inductive FsCall (p : Platform) where
  | inode (call : InodeSystem.Call p)
  | fs_link (m : Message)
  | fs_unlink (m : Message)
  | fs_recover (m : Message)
deriving DecidableEq, Repr

structure FsRequest (p : Platform) where
  env : Environment p
  call : FsCall p

inductive FsAnswer (p : Platform) where
  | inode (answer : Option (Slot p))
  | errno (r : Errno)
deriving DecidableEq, Repr

/-- What a caller promises: the numbers in a message are numbers of inodes of a device. -/
def FsSound (s : State p) : FsCall p → Prop
  | .inode call => Sound s call
  | .fs_link m => m.fs_dev ≠ NO_DEV ∧ m.REQ_INODE_NR ≠ NO_ENTRY ∧ m.REQ_DIR_INO ≠ NO_ENTRY
  | .fs_unlink m => m.fs_dev ≠ NO_DEV ∧ m.REQ_INODE_NR ≠ NO_ENTRY
  | .fs_recover m => m.REQ_DEV ≠ NO_DEV ∧ m.REQ_INODE_NR ≠ NO_ENTRY ∧ m.REQ_DIR_INO ≠ NO_ENTRY

def answerErrno (out : Errno × State p) : FsAnswer p × State p := (.errno out.1, out.2)

def fsExecute (req : FsRequest p) (s : State p) : Except Stop (FsAnswer p × State p) :=
  match req.call with
  | .inode call => (execute ⟨req.env, call⟩ s).map fun out => (.inode out.1, out.2)
  | .fs_link m => (fsLink req.env m s).map answerErrno
  | .fs_unlink m => (fsUnlink req.env m s).map answerErrno
  | .fs_recover m => (fsRecover req.env m s).map answerErrno

def FsReturns (s : State p) (req : FsRequest p) (answer : FsAnswer p) (t : State p) : Prop :=
  FsSound s req.call ∧ Documented req.env ∧ fsExecute req s = .ok (answer, t)

def fsSystem (start : State p) : System (State p) (FsRequest p) (FsAnswer p) where
  init := start
  returns := FsReturns

abbrev FsStep (p : Platform) := Step (State p) (FsRequest p) (FsAnswer p)

variable {s t : State p}

theorem coherent_initInodeCache (start : State p) : Coherent (initInodeCache start) := by
  constructor
  · exact linked_initInodeCache start
  · exact fun _ _ _ hq => nomatch hq
  · exact idle_initInodeCache start
  · exact fun _ _ hk => nomatch hk

/-! ## Runs -/

/-- The inode is in the table, or there is an unused slot for it. -/
def Available (s : State p) (k : Dev × UInt32) : Prop :=
  (∃ r, slotKey (s.inode r) = some k) ∨ s.unused_inodes ≠ []

/-- The request recovers an inode: it can open the directory. -/
def Recovers (e : FsStep p) : Prop :=
  ∃ m, e.call.call = .fs_recover m ∧ Available e.before (m.REQ_DEV, m.REQ_DIR_INO)

/-- The request gives a new inode a number that another slot holds. -/
def Clashes (e : FsStep p) : Prop :=
  ∃ call, e.call.call = .inode call ∧ Collides ⟨e.before, ⟨e.call.env, call⟩, none, e.after⟩

/-- Without the directory nothing is recovered. -/
theorem fsRecover_unavailable (hl : Linked s) (env : Environment p) {m : Message}
    (hdir : ¬ Available s (m.REQ_DEV, m.REQ_DIR_INO)) :
    ∃ log misses, fsRecover env m s =
      .ok (.ENOENT, { s with log := log, inode_cache_miss := misses, err_code := .ENFILE }) := by
  have hprint : Linked (s.print "Entering System call recover: success\n" []) :=
    hl.of_eq rfl rfl rfl
  have hslots := not_or.mp hdir
  unfold fsRecover
  dsimp only
  rcases getInode_cases hprint env m.REQ_DEV m.REQ_DIR_INO with
    ⟨r, hkey, _⟩ | ⟨_, _, hget⟩ | ⟨_, r, hr, _⟩
  · exact absurd ⟨r, hkey⟩ hslots.1
  · rw [hget]
    exact ⟨_, _, rfl⟩
  · have hnone : s.unused_inodes = [] := not_not.mp hslots.2
    change s.unused_inodes.head? = some r at hr
    rw [hnone] at hr
    cases hr

theorem FsReturns.coherent (hp : Conversions p) (hb : InodesPerBlock p) (h : Coherent s)
    {req : FsRequest p} {answer : FsAnswer p} (hcall : FsReturns s req answer t)
    (hclash : ¬ Clashes ⟨s, req, answer, t⟩) (hrecover : ¬ Recovers ⟨s, req, answer, t⟩) :
    Coherent t := by
  obtain ⟨env, call⟩ := req
  obtain ⟨hsound, hdoc, hexecute⟩ := hcall
  have hready : Ready s [] := ⟨h, holding_nil s⟩
  unfold fsExecute at hexecute
  cases call with
  | inode call =>
      obtain ⟨out, hout, hpair⟩ := CheckedExecution.map_eq_ok.mp hexecute
      cases hpair
      have hreturns : Returns s ⟨env, call⟩ out.1 out.2 := ⟨hsound, hout⟩
      obtain ⟨heffect, hlinked⟩ := hreturns.effect hp hb h.linked
      have hsafe : ¬ Collides ⟨s, ⟨env, call⟩, none, out.2⟩ := fun hcollides =>
        hclash ⟨call, rfl, hcollides⟩
      exact coherent_of_effect h hlinked heffect hsafe
  | fs_link m =>
      obtain ⟨out, hout, hpair⟩ := CheckedExecution.map_eq_ok.mp hexecute
      cases hpair
      exact (hready.fsLink hp hb hdoc hsound.1 hsound.2.1 hsound.2.2 out hout).coherent
  | fs_unlink m =>
      obtain ⟨out, hout, hpair⟩ := CheckedExecution.map_eq_ok.mp hexecute
      cases hpair
      exact hready.fsUnlink hp hb hdoc hsound.1 hsound.2 out hout
  | fs_recover m =>
      obtain ⟨out, hout, hpair⟩ := CheckedExecution.map_eq_ok.mp hexecute
      cases hpair
      have hdir : ¬ Available s (m.REQ_DEV, m.REQ_DIR_INO) := fun hdir => hrecover ⟨m, rfl, hdir⟩
      obtain ⟨log, misses, hfails⟩ := fsRecover_unavailable h.linked env hdir
      rw [hfails] at hout
      cases hout
      exact h.kept (h.linked.of_eq rfl rfl rfl) (.of_eq rfl rfl rfl)

theorem coherent_of_run (hp : Conversions p) (hb : InodesPerBlock p) (h : Coherent s)
    {history : List (FsStep p)} (hr : Run (fsSystem s) history t)
    (hsafe : ∀ e ∈ history, ¬ Clashes e ∧ ¬ Recovers e) : Coherent t := by
  refine hr.guarded_invariant (I := fun _ t => Coherent t) h ?_ hsafe
  intro history u req answer v _ hu hcall hstep
  exact FsReturns.coherent hp hb hu hcall hstep.1 hstep.2

theorem searchEntries_dirp (entries : Directory) (string : Name) (numb : Option UInt32)
    (flag : Flag) : (searchEntries entries string numb flag).dirp = id ∨
      (searchEntries entries string numb flag).dirp = touched := by
  unfold searchEntries
  cases flag with
  | LOOK_UP =>
      left
      cases entries.find? fun e => e.1 = string ∧ e.2 ≠ NO_ENTRY with
      | none => rfl
      | some e => rfl
  | ENTER =>
      right
      rfl
  | DELETE =>
      cases entries.find? fun e => e.1 = string ∧ e.2 ≠ NO_ENTRY with
      | none =>
          left
          rfl
      | some e =>
          right
          rfl
  | IS_EMPTY =>
      left
      rfl

theorem documented_small : Documented smallEnvironment := by
  constructor
  · intro entries string numb flag rip
    change SameLinks ((searchEntries entries string numb flag).dirp rip) rip
    rcases searchEntries_dirp entries string numb flag with hid | htouched
    · rw [hid]
      exact ⟨rfl, rfl, rfl, rfl⟩
    · rw [htouched]
      exact ⟨rfl, rfl, rfl, rfl⟩
  · intro entries string numb flag rip
    right
    change Marks (searchEntries entries string numb flag).dirp rip
    rcases searchEntries_dirp entries string numb flag with hid | htouched
    · right
      rw [hid]
      exact ⟨fun _ => rfl, rfl⟩
    · left
      rw [htouched]
      rfl
  · intro entries string numb e hfound
    change findEntry entries string = .entry numb e at hfound
    unfold findEntry at hfound
    cases hfind : entries.find? fun e => e.1 = string ∧ e.2 ≠ NO_ENTRY with
    | none =>
        rw [hfind] at hfound
        cases hfound
    | some entry =>
        rw [hfind] at hfound
        cases hfound
        have hentry := List.find?_some hfind
        rw [decide_eq_true_eq] at hentry
        exact hentry.2

def fsNext (req : FsRequest p) (s : State p) : State p :=
  match fsExecute req s with
  | .ok out => out.2
  | .error _ => s

def fsAnswered (req : FsRequest p) (s : State p) : FsAnswer p :=
  match fsExecute req s with
  | .ok out => out.1
  | .error _ => .errno .OK

theorem fsReturns_next {req : FsRequest p} (hsound : FsSound s req.call)
    (hdoc : Documented req.env) (hok : (fsExecute req s).isOk = true) :
    FsReturns s req (fsAnswered req s) (fsNext req s) := by
  refine ⟨hsound, hdoc, ?_⟩
  unfold fsAnswered fsNext
  cases he : fsExecute req s with
  | ok out => rfl
  | error stop =>
      rw [he] at hok
      cases hok

/-- A link to the old file is made in the root directory. -/
def linkFile : FsRequest small :=
  ⟨smallEnvironment, .fs_link
    { fs_dev := 1, REQ_DEV := 1, REQ_INODE_NR := 2, REQ_DIR_INO := 1, copied := .OK,
      string := "test.c" }⟩

/-- The old file is recovered there, and has a link more than on disk without a mark. -/
def recoverFile : FsRequest small :=
  ⟨smallEnvironment, .fs_recover
    { fs_dev := 1, REQ_DEV := 1, REQ_INODE_NR := 2, REQ_DIR_INO := 1, copied := .OK,
      string := "test.c" }⟩

end MinixOS.LinkSystem
