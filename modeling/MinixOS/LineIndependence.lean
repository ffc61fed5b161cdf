import MinixOS.RelatedExecutions
import MinixOS.ShellSession

/-!
# One line after another

The loop of `main` uses the same buffer, the same stack and the same queue for every line. A line
is run all the same as if the shell had been started for it: of what earlier lines have left in
memory it reads nothing but the aliases. So the runs of a session are those of a system that starts
from scratch with every line.
-/
namespace MinixOS.LineIndependence
open CommandQueue
open ProfileFile hiding Reading
open LoopExecution CheckedExecution SystemRuns RelatedExecutions Tokenizer ShellExecution AliasFile
  CommandLine TypedCommands ShellSession

/-! ## The buffer -/

section Buffers
variable {before : List UInt8} {fuel : ℕ} {a b : Buffer} {stream : List UInt8}

/-- The texts up to a terminator depend on nothing behind it. -/
theorem takeWhile_congr {l l' : List UInt8} {n : ℕ} (hend : l[n]? = some 0)
    (h : ∀ k, k ≤ n → l[k]? = l'[k]?) : textOf l = textOf l' ∧ (textOf l).length ≤ n := by
  induction n generalizing l l' with
  | zero =>
      have hend' := (h 0 (Nat.le_refl 0)).symm.trans hend
      cases l with
      | nil => cases hend
      | cons c l =>
          cases l' with
          | nil => cases hend'
          | cons c' l' =>
              cases hend
              cases hend'
              exact ⟨rfl, Nat.le_refl 0⟩
  | succ n ih =>
      have hfirst := h 0 (Nat.zero_le _)
      have hend' := (h (n + 1) (Nat.le_refl _)).symm.trans hend
      cases l with
      | nil => cases hend
      | cons c l =>
          cases l' with
          | nil => cases hend'
          | cons c' l' =>
              cases hfirst
              have hrest : ∀ k, k ≤ n → l[k]? = l'[k]? := fun k hk => h (k + 1) (Nat.succ_le_succ hk)
              obtain ⟨htext, hlength⟩ := ih hend hrest
              unfold textOf at htext hlength ⊢
              by_cases hc : c = 0
              · rw [List.takeWhile_cons_of_neg (by simp [hc]), List.takeWhile_cons_of_neg (by simp [hc])]
                exact ⟨rfl, Nat.zero_le _⟩
              · rw [List.takeWhile_cons_of_pos (by simp [hc]),
                  List.takeWhile_cons_of_pos (by simp [hc]), htext, ← htext]
                exact ⟨rfl, Nat.succ_le_succ hlength⟩

/-- The buffers agree up to a terminator. -/
def SameText (a b : Buffer) : Prop := ∃ n : ℕ, a.toList[n]? = some 0 ∧ AgreeOn (· ≤ n) a b

theorem SameText.textOf_eq (h : SameText a b) : textOf a.toList = textOf b.toList := by
  obtain ⟨n, hend, hagree⟩ := h
  exact (takeWhile_congr hend hagree).1

theorem SameText.strlen (h : SameText a b) :
    CommandLine.strlen a = .ok (textOf a.toList).length ∧
      CommandLine.strlen b = .ok (textOf a.toList).length := by
  obtain ⟨n, hend, hagree⟩ := h
  have ha : 0 ∈ a.toList := List.mem_of_getElem? hend
  have hb : 0 ∈ b.toList := List.mem_of_getElem? ((hagree n (Nat.le_refl n)).symm.trans hend)
  unfold CommandLine.strlen
  rw [if_pos ha, if_pos hb, (takeWhile_congr hend hagree).1]
  exact ⟨rfl, rfl⟩

/-- The loops have read the same characters. -/
structure SameReading (s t : Reading) : Prop where
  stream : s.stream = t.stream
  i : s.i = t.i
  chars : AgreeOn (· < s.i) s.command_line t.command_line

theorem readPass_related {s t : Reading} (h : SameReading s t) :
    RelatedPasses SameReading SameReading (readPass s) (readPass t) := by
  obtain ⟨stream, a, i⟩ := s
  obtain ⟨stream', b, i'⟩ := t
  obtain ⟨rfl, rfl, hagree⟩ := h
  unfold readPass
  dsimp only at hagree ⊢
  split_ifs with hmore
  · rcases (hagree.write i (getchar stream).1).outcomes with
      ⟨a', b', ha, hb, hagree'⟩ | ⟨stop, ha, hb⟩
    · rw [ha, hb]
      refine .again ⟨rfl, rfl, hagree'.mono fun k hk => ?_⟩
      dsimp only at hk
      omega
    · rw [ha, hb]
      exact .leave (.stopped stop)
  · exact .leave (.ok ⟨rfl, rfl, hagree⟩)

/-- What is read is a text with its terminator, and it does not depend on what the buffer held. -/
theorem readCmdLine_related (fuel : ℕ) (stream : List UInt8) (a b : Buffer) :
    Related (fun p q => p.1.stream = q.1.stream ∧ SameText p.1.command_line q.1.command_line)
      (readCmdLine fuel stream a) (readCmdLine fuel stream b) := by
  have hstart : SameReading ⟨stream, a, 0⟩ ⟨stream, b, 0⟩ :=
    ⟨rfl, rfl, fun k hk => absurd hk (Nat.not_lt_zero k)⟩
  refine (related_loop (fun _ _ => readPass_related) fuel hstart).bind fun s t h => ?_
  obtain ⟨hstream, hi, hchars⟩ := h
  rw [← hi]
  rcases (hchars.write s.i 0).outcomes with ⟨a', b', ha, hb, hagree⟩ | ⟨stop, ha, hb⟩
  · rw [ha, hb, ok_bind, ok_bind]
    have hfirst : Related Eq (readAt a' 0) (readAt b' 0) := hagree.read fun k hk => by omega
    refine hfirst.bind fun _ _ _ => .ok ⟨hstream, s.i, written_self ha, hagree.mono fun k hk => ?_⟩
    omega
  · rw [ha, hb]
    exact .stopped stop

theorem charAt_related (before : List UInt8) {n : ℕ} {index : ℤ} (h : AgreeOn (· ≤ n) a b)
    (hindex : index ≤ n) : Related Eq (charAt before a index) (charAt before b index) := by
  cases index with
  | ofNat index =>
      refine h.read fun k hk => ?_
      change (index : ℤ) ≤ n at hindex
      omega
  | negSucc index => exact related_self _

/-- A comma is put behind the same text. -/
theorem appendComma_related (before : List UInt8) (h : SameText a b) :
    Related SameText (appendComma before a) (appendComma before b) := by
  obtain ⟨ha, hb⟩ := h.strlen
  obtain ⟨n, hend, hagree⟩ := h
  have hlength := (takeWhile_congr hend hagree).2
  generalize (textOf a.toList).length = bufferlen at ha hb hlength
  have hkept : Related SameText (pure a : Except Stop Buffer) (pure b) := .ok ⟨n, hend, hagree⟩
  unfold appendComma
  rw [ha, hb, ok_bind, ok_bind]
  refine .ite Iff.rfl (fun _ => ?_) fun _ => hkept
  refine (charAt_related before hagree (by omega)).bind fun last _ he => ?_
  subst he
  refine .ite Iff.rfl (fun _ => ?_) fun _ => hkept
  refine (charAt_related before hagree (by omega)).bind fun front _ he => ?_
  subst he
  refine .ite Iff.rfl (fun _ => ?_) fun _ => hkept
  refine (hagree.write bufferlen comma).bind fun a' b' hagree' => ?_
  rcases (hagree'.write (bufferlen + 1) 0).outcomes with ⟨c, d, hc, hd, hlast⟩ | ⟨stop, hc, hd⟩
  · rw [hc, hd]
    refine .ok ⟨bufferlen + 1, written_self (j := bufferlen + 1) hc, hlast.mono fun k hk => ?_⟩
    omega
  · rw [hc, hd]
    exact .stopped stop

end Buffers

/-! ## The stack -/

section Stacks
variable {before argv : List UInt8} {c : UInt8} {fuel : ℕ} {s t : Scan}

/-- The stacks hold the same elements. What stands above the top may differ. -/
structure SameStack (a b : Stack) : Prop where
  top : a.top = b.top
  elements : AgreeOn (fun k => (k : ℤ) ≤ a.top) a.stackmem b.stackmem

theorem sameStack_screate (a b : Stack) : SameStack (screate a) (screate b) := by
  refine ⟨rfl, fun k hk => ?_⟩
  change (k : ℤ) ≤ -1 at hk
  omega

theorem spush_related {a b : Stack} (h : SameStack a b) (paren : UInt8) :
    Related (fun p q => SameStack p.1 q.1 ∧ p.2 = q.2) (spush paren a) (spush paren b) := by
  obtain ⟨mem, top⟩ := a
  obtain ⟨mem', top'⟩ := b
  obtain ⟨rfl, hagree⟩ := h
  unfold spush
  dsimp only at hagree ⊢
  refine .ite Iff.rfl (fun _ => .ok ⟨⟨rfl, hagree⟩, rfl⟩) fun _ => ?_
  refine (hagree.write (top + 1) (.paren paren)).bind fun written written' h => ?_
  refine .ok ⟨⟨rfl, h.mono fun k hk => ?_⟩, rfl⟩
  change (k : ℤ) ≤ top + 1 at hk
  omega

theorem spop_related {a b : Stack} (h : SameStack a b) :
    Related (fun p q => SameStack p.1 q.1 ∧ p.2 = q.2) (spop a) (spop b) := by
  obtain ⟨mem, top⟩ := a
  obtain ⟨mem', top'⟩ := b
  obtain ⟨rfl, hagree⟩ := h
  unfold spop
  dsimp only at hagree ⊢
  refine .ite Iff.rfl (fun _ => .ok ⟨⟨rfl, hagree⟩, rfl⟩) fun _ => ?_
  have hread : Related Eq (readAt mem top) (readAt mem' top) := hagree.read fun k hk => hk.le
  refine hread.bind fun temp _ he => ?_
  subst he
  refine (hagree.write top .emptyString).bind fun written written' h => ?_
  refine .ok ⟨⟨rfl, h.mono fun k hk => ?_⟩, rfl⟩
  change (k : ℤ) ≤ top - 1 at hk
  omega

/-! ## The tokenizer -/

/-- The variables of the tokenizer are the same, and the stacks hold the same. -/
structure SameScan (s t : Scan) : Prop where
  fields : t = { s with stack := t.stack }
  stack : SameStack s.stack t.stack

/-- Both branches go on to the check, or both leave the loop. -/
inductive SameBranch : Branch → Branch → Prop
  | falls {s t : Scan} (h : SameScan s t) : SameBranch (.falls s) (.falls t)
  | breaks {s t : Scan} (h : SameScan s t) : SameBranch (.breaks s) (.breaks t)

theorem branch_related (before argv : List UInt8) (c : UInt8) (h : SameScan s t) :
    Related SameBranch (branch before argv c s) (branch before argv c t) := by
  obtain ⟨hfields, hstack⟩ := h
  generalize t.stack = stack at hfields hstack
  subst hfields
  unfold branch
  refine .ite Iff.rfl (fun _ => ?_) fun _ => ?_
  · unfold spaceBranch
    refine .ite Iff.rfl (fun _ => .ok (.falls ⟨rfl, hstack⟩)) fun _ => ?_
    refine (related_self _).bind fun token _ he => ?_
    subst he
    exact .ok (.falls ⟨rfl, hstack⟩)
  refine .ite Iff.rfl (fun _ => ?_) fun _ => ?_
  · unfold commaBranch
    refine (related_self _).bind fun skipped _ he => ?_
    subst he
    exact .ok (.falls ⟨rfl, hstack⟩)
  refine .ite Iff.rfl (fun _ => ?_) fun _ => ?_
  · refine .ite Iff.rfl (fun _ => ?_) fun _ => ?_
    · unfold leftBranch
      refine (spush_related hstack c).bind fun ⟨pushed, printed⟩ ⟨pushed', _⟩ ⟨hpushed, he⟩ => ?_
      dsimp only at hpushed he
      subst he
      exact .ok (.falls ⟨rfl, hpushed⟩)
    · unfold rightBranch
      refine (spop_related hstack).bind fun ⟨popped, popparen⟩ ⟨popped', _⟩ ⟨hpopped, he⟩ => ?_
      dsimp only at hpopped he
      subst he
      refine .ite Iff.rfl (fun _ => .ok (.breaks ⟨rfl, hpopped⟩)) fun _ => ?_
      exact .ok (.falls ⟨rfl, hpopped⟩)
  refine .ite Iff.rfl (fun _ => ?_) fun _ => ?_
  · unfold punctBranch
    refine (related_self _).bind fun token _ he => ?_
    subst he
    exact .ok (.falls ⟨rfl, hstack⟩)
  refine .ite Iff.rfl (fun _ => ?_) fun _ => .ok (.falls ⟨rfl, hstack⟩)
  unfold alnumBranch
  refine .ite Iff.rfl (fun _ => ?_) fun _ => ?_
  · refine (related_self _).bind fun skipped _ he => ?_
    subst he
    refine .ite Iff.rfl (fun _ => .ok (.breaks ⟨rfl, hstack⟩)) fun _ => ?_
    refine (related_self _).bind fun token _ he => ?_
    subst he
    exact .ok (.falls ⟨rfl, hstack⟩)
  · refine (related_self _).bind fun token _ he => ?_
    subst he
    exact .ok (.falls ⟨rfl, hstack⟩)

theorem scanPass_related (before argv : List UInt8) (h : SameScan s t) :
    RelatedPasses SameScan SameScan (scanPass before argv s) (scanPass before argv t) := by
  have hi : t.i = s.i := by rw [h.fields]
  unfold scanPass
  rw [hi]
  cases argv[s.i]? with
  | none => exact .leave (.ok h)
  | some c =>
      dsimp only
      rcases (branch_related before argv c h).outcomes with ⟨u, v, hu, hv, hsame⟩ | ⟨stop, hu, hv⟩
      · rw [hu, hv]
        cases hsame with
        | breaks hsame => exact .leave (.ok hsame)
        | @falls u v hsame =>
            obtain ⟨hfields, hstack⟩ := hsame
            generalize v.stack = stack at hfields hstack
            subst hfields
            dsimp only
            by_cases hbad : u.inputvalidity = false ∨ u.state = .error
            · rw [if_pos hbad, if_pos hbad]
              exact .leave (.ok ⟨rfl, hstack⟩)
            · rw [if_neg hbad, if_neg hbad]
              exact .again ⟨rfl, hstack⟩
      · rw [hu, hv]
        exact .leave (.stopped stop)

/-- The same commands are queued, and the same is printed. -/
theorem tokenizer_related (fuel : ℕ) (before argv : List UInt8) {a b : Stack} (h : SameStack a b)
    (queue : Queue) :
    Related (fun p q => SameScan p.scan q.scan ∧ p.ret = q.ret)
      (tokenizer fuel before argv a queue) (tokenizer fuel before argv b queue) := by
  have hstart : SameScan (Scan.initial a queue) (Scan.initial b queue) := ⟨rfl, h⟩
  have hloop := related_loop (fun _ _ => scanPass_related before argv) fuel hstart
  refine hloop.bind fun s t hsame => ?_
  obtain ⟨hfields, hstack⟩ := hsame
  generalize t.stack = stack at hfields hstack
  subst hfields
  refine (spop_related hstack).bind fun ⟨popped, popparen⟩ ⟨popped', _⟩ ⟨hpopped, he⟩ => ?_
  dsimp only at hpopped he
  subst he
  exact .ok ⟨⟨rfl, hpopped⟩, rfl⟩

end Stacks

/-! ## The loop of main -/

section Passes
variable {before : List UInt8} {fuel : ℕ} {a b : Stack} {s t : Shell}

theorem enterLine_related (fuel : ℕ) (before stream : List UInt8) (command command' : Buffer)
    (a b : Stack) :
    Related (fun p q => p.1 = q.1 ∧ textOf p.2.1.toList = textOf q.2.1.toList ∧
        SameScan p.2.2.scan q.2.2.scan)
      (enterLine fuel before stream command a) (enterLine fuel before stream command' b) := by
  have hread : Related (fun p q => p.1 = q.1 ∧ SameText p.2 q.2)
      (readLine fuel before stream command) (readLine fuel before stream command') := by
    refine (readCmdLine_related fuel stream command command').bind fun p q ⟨hstream, htext⟩ => ?_
    exact (appendComma_related before htext).bind fun _ _ hclosed => .ok ⟨hstream, hclosed⟩
  refine hread.bind fun p q ⟨hstream, htext⟩ => ?_
  dsimp only
  rw [← htext.textOf_eq]
  refine (tokenizer_related fuel before _ (sameStack_screate a b) qcreate).bind
    fun out out' ⟨hscan, _⟩ => ?_
  exact .ok ⟨hstream, htext.textOf_eq, hscan⟩

theorem clearFrom_related (stackmem stackmem' : Vector Pointer MAXSIZE) (left i : ℕ) :
    Related (fun _ _ => True) (clearFrom stackmem left i) (clearFrom stackmem' left i) := by
  induction left generalizing stackmem stackmem' i with
  | zero => exact .ok trivial
  | succ left ih =>
      have hnone : AgreeOn (fun _ => False) stackmem stackmem' := fun _ hk => hk.elim
      exact (hnone.write i .null).bind fun _ _ _ => ih _ _ (i + 1)

/-- The shells have the same input before them, and the same aliases. -/
structure Alike (s t : Shell) : Prop where
  stream : s.stream = t.stream
  aliases : s.aliases = t.aliases

inductive SameFate : Fate → Fate → Prop
  | loops {s t : Shell} (h : Alike s t) : SameFate (.loops s) (.loops t)
  | exits (file : List UInt8) : SameFate (.exits file) (.exits file)
  | child : SameFate .child .child

theorem fateOf_related (opened : Bool) (exec : Exec) (hstream : s.stream = t.stream)
    (hstack : SameStack s.stack t.stack) :
    Related SameFate (fateOf opened s exec) (fateOf opened t exec) := by
  unfold fateOf
  refine .ite Iff.rfl (fun _ => ?_) fun _ => ?_
  · refine (related_self _).bind fun saved _ he => ?_
    subst he
    exact .ok (.exits _)
  refine .ite Iff.rfl (fun _ => .ok .child) fun _ => ?_
  have hdelete : Related (fun _ _ => True) (sdelete s.stack) (sdelete t.stack) := by
    unfold sdelete
    rw [← hstack.top]
    exact (clearFrom_related _ _ _ _).bind fun _ _ _ => .ok trivial
  exact hdelete.bind fun _ _ _ => .ok (.loops ⟨hstream, rfl⟩)

/-- A line comes to the same, whatever the buffer and the stack hold. -/
theorem mainPass_related (env : Environment) (opened : Bool) (before : List UInt8) (fuel : ℕ)
    (h : Alike s t) :
    Related (fun p q => p.1 = q.1 ∧ SameFate p.2 q.2) (mainPass env opened before fuel s)
      (mainPass env opened before fuel t) := by
  obtain ⟨hstream, haliases⟩ := h
  unfold mainPass
  rw [← hstream, ← haliases]
  refine (enterLine_related fuel before s.stream s.command t.command s.stack t.stack).bind
    fun ⟨stream, command, out⟩ ⟨stream', command', out'⟩ ⟨he, htext, hscan⟩ => ?_
  dsimp only at he htext hscan ⊢
  subst he
  have hqueue : out'.scan.queue = out.scan.queue := by rw [hscan.fields]
  have hlog : out'.scan.log = out.scan.log := by rw [hscan.fields]
  rw [hqueue, hlog, ← htext]
  refine (related_self _).bind fun exec _ he => ?_
  subst he
  have hfate := fateOf_related (s := { s with stream := stream, command := command, stack := out.scan.stack })
    (t := { t with stream := stream, command := command', stack := out'.scan.stack }) opened exec rfl
    hscan.stack
  exact hfate.bind fun _ _ hfate => .ok ⟨rfl, hfate⟩

end Passes

/-! ## Sessions -/

/-- The shell as it is started, with this input before it and these aliases. -/
def fresh (stream : List UInt8) (aliases : List Alias) : Shell :=
  ⟨stream, .replicate _ 0, ⟨.replicate _ .null, -1⟩, aliases⟩

/-- Sessions in which the shell starts from scratch with every line. -/
def freshSessions (stream : List UInt8) (aliases : List Alias) :
    System (List UInt8 × List Alias) Request (List MainEvent × List Effect) where
  init := (stream, aliases)
  returns s request answer t :=
    ∃ shell, Serves (fresh s.1 s.2) request answer shell ∧ t = (shell.stream, shell.aliases)

theorem Alike.mainPass {s t : Shell} (h : Alike s t) {env : Environment} {opened : Bool}
    {before : List UInt8} {fuel : ℕ} {log : List MainEvent} {fate : Fate}
    (hpass : mainPass env opened before fuel s = .ok (log, fate)) :
    ∃ fate', ShellSession.mainPass env opened before fuel t = .ok (log, fate') ∧
      SameFate fate fate' := by
  rcases (mainPass_related env opened before fuel h).outcomes with
    ⟨p, ⟨log', fate'⟩, hp, hq, he, hfate⟩ | ⟨_, hp, _⟩
  · rw [hpass] at hp
    cases hp
    dsimp only at he hfate
    subst he
    exact ⟨fate', hq, hfate⟩
  · rw [hpass] at hp
    cases hp

theorem Alike.serves {s t s' : Shell} (h : Alike s t) {request : Request}
    {answer : List MainEvent × List Effect} (hserves : Serves s request answer s') :
    ∃ t', Serves t request answer t' ∧ Alike s' t' := by
  cases hserves with
  | line hpass =>
      obtain ⟨_, hpass', hfate⟩ := h.mainPass hpass
      cases hfate with
      | loops halike => exact ⟨_, .line hpass', halike⟩
  | restart hpass hstart =>
      obtain ⟨_, hpass', hfate⟩ := h.mainPass hpass
      cases hfate with
      | exits => exact ⟨_, .restart hpass' hstart, rfl, rfl⟩

theorem alike_fresh (s : Shell) : Alike s (fresh s.stream s.aliases) := ⟨rfl, rfl⟩

theorem Alike.symm {s t : Shell} (h : Alike s t) : Alike t s := ⟨h.stream.symm, h.aliases.symm⟩

/-- What the two systems have in common. -/
def Shown (s : Shell) (v : List UInt8 × List Alias) : Prop := v = (s.stream, s.aliases)

section Systems
variable {start s s' : Shell} {v w : List UInt8 × List Alias} {request : Request}
  {answer : List MainEvent × List Effect}

theorem Shown.fresh_serves (h : Shown s v) (hserves : (sessions start).returns s request answer s') :
    ∃ w, (freshSessions start.stream start.aliases).returns v request answer w ∧ Shown s' w := by
  obtain rfl := h
  obtain ⟨shell, hshell, halike⟩ := (alike_fresh s).serves hserves
  refine ⟨_, ⟨shell, hshell, rfl⟩, ?_⟩
  unfold Shown
  rw [halike.stream, halike.aliases]

theorem Shown.serves (h : Shown s v)
    (hserves : (freshSessions start.stream start.aliases).returns v request answer w) :
    ∃ s', (sessions start).returns s request answer s' ∧ Shown s' w := by
  obtain rfl := h
  obtain ⟨shell, hshell, rfl⟩ := hserves
  obtain ⟨s', hs', halike⟩ := (alike_fresh s).symm.serves hshell
  refine ⟨s', hs', ?_⟩
  unfold Shown
  rw [halike.stream, halike.aliases]

end Systems

end MinixOS.LineIndependence
