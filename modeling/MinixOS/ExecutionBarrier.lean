import MinixOS.CommandSplitting
import Mathlib.Data.List.SplitBy

/-!
# The barrier between priority levels

A queue of external commands is executed group by group: the commands of one priority
are forked one after the other, and those of priority 255 are each a group of their
own. The shell waits for every command of a group before it forks one of
the next group. It does so as long as a command fits into the arrays it is split
into, and a group into the array of process ids, none of which is checked.

Behind a group that is not the last one there is one more `waitpid`, for an element of
`pid_child` that was not assigned to.
-/
namespace MinixOS.ExecutionBarrier
open LoopExecution CheckedExecution CommandQueue Tokenizer ShellExecution CommandSplitting

/-! ## What is to be executed -/

/-- Executed at once: neighbours of equal priority, unless that is 255. -/
def sameLevel (a b : QueueNode) : Bool := a.priority = b.priority && a.priority ≠ 255

/-- The maximal groups of commands that are executed at once. -/
def groups (q : List QueueNode) : List (List QueueNode) := q.splitBy sameLevel

/-- The forks of one group, each with the process id, and the calls of `waitpid` that follow. -/
structure Block where
  forks : List (List Word × ℤ)
  waits : List ℤ

def Block.events (b : Block) : List Event :=
  b.forks.map (fun f => Event.fork f.1 f.2) ++ b.waits.map Event.waitpid

def isProcessCall : Event → Bool
  | .fork _ _ => true
  | .waitpid _ => true
  | _ => false

/-- The calls of `fork` and `waitpid` come in one block for each group, in the order of
the queue. A block forks the commands of its group, with words that the child can read, and waits for
each of them. -/
def Barrier (aliases : List Alias) (q : List QueueNode) (log : List Event) : Prop :=
  ∃ blocks : List Block, log.filter isProcessCall = blocks.flatMap Block.events ∧
    blocks.map (fun b => b.forks.map Prod.fst) =
      (groups q).map (fun g => g.map fun node => argsOf aliases node.command) ∧
    (∀ b ∈ blocks, ∀ f ∈ b.forks, Terminated f.1) ∧ ∀ b ∈ blocks, ∀ f ∈ b.forks, f.2 ∈ b.waits

/-! ## What fits -/

/-- The process ids fit into `pid_child`, with one more behind a group that is not the last. -/
def GroupsFit : List (List QueueNode) → Prop
  | [] => True
  | [g] => g.length ≤ MAX_CMD_NUM
  | g :: g' :: rest => g.length < MAX_CMD_NUM ∧ GroupsFit (g' :: rest)

instance decidableGroupsFit : DecidablePred GroupsFit
  | [] => inferInstanceAs (Decidable True)
  | [g] => inferInstanceAs (Decidable (g.length ≤ MAX_CMD_NUM))
  | g :: g' :: rest =>
      have := decidableGroupsFit (g' :: rest)
      inferInstanceAs (Decidable (g.length < MAX_CMD_NUM ∧ GroupsFit (g' :: rest)))

def Fits (q : List QueueNode) : Prop :=
  (∀ node ∈ q, CommandFits node.command) ∧ GroupsFit (groups q)

instance : DecidablePred Fits := fun q =>
  inferInstanceAs (Decidable ((∀ node ∈ q, CommandFits node.command) ∧ GroupsFit (groups q)))

/-- The arrays have room, and the children can read the words. -/
def Runs (q : List QueueNode) : Prop := Fits q ∧ ∀ node ∈ q, Terminated (words node.command)

instance : DecidablePred Runs := fun q =>
  inferInstanceAs (Decidable (Fits q ∧ ∀ node ∈ q, Terminated (words node.command)))

/-- A builtin is the last command, and no other one is executed at once with it. -/
def BuiltinLast (aliases : List Alias) : List (List QueueNode) → Prop
  | [] => True
  | [g] => (∀ a ∈ g, External aliases a.command) ∨ g.length = 1
  | g :: g' :: rest => (∀ a ∈ g, External aliases a.command) ∧ BuiltinLast aliases (g' :: rest)

instance decidableBuiltinLast (aliases : List Alias) : DecidablePred (BuiltinLast aliases)
  | [] => inferInstanceAs (Decidable True)
  | [g] => inferInstanceAs (Decidable ((∀ a ∈ g, External aliases a.command) ∨ g.length = 1))
  | g :: g' :: rest =>
      have := decidableBuiltinLast aliases (g' :: rest)
      inferInstanceAs (Decidable ((∀ a ∈ g, External aliases a.command) ∧
        BuiltinLast aliases (g' :: rest)))

/-! ## One group -/

/-- The first group of a queue, and the rest of the queue. -/
def takeLevel : QueueNode → List QueueNode → List QueueNode × List QueueNode
  | node, [] => ([node], [])
  | node, next :: rest =>
      if sameLevel node next then
        let (g, rem) := takeLevel next rest
        (node :: g, rem)
      else ([node], next :: rest)

theorem takeLevel_append (node : QueueNode) (rest : List QueueNode) :
    (takeLevel node rest).1 ++ (takeLevel node rest).2 = node :: rest := by
  induction rest generalizing node with
  | nil => rfl
  | cons next rest ih =>
      unfold takeLevel
      split_ifs
      · exact congrArg (node :: ·) (ih next)
      · rfl

theorem takeLevel_head (node : QueueNode) (rest : List QueueNode) :
    ∃ more, (takeLevel node rest).1 = node :: more := by
  cases rest with
  | nil => exact ⟨[], rfl⟩
  | cons next rest =>
      unfold takeLevel
      split_ifs
      · exact ⟨_, rfl⟩
      · exact ⟨[], rfl⟩

theorem takeLevel_isChain (node : QueueNode) (rest : List QueueNode) :
    (takeLevel node rest).1.IsChain fun a b => sameLevel a b := by
  induction rest generalizing node with
  | nil => exact List.isChain_singleton node
  | cons next rest ih =>
      unfold takeLevel
      split_ifs with hsame
      · obtain ⟨more, hmore⟩ := takeLevel_head next rest
        have hchain := ih next
        rw [hmore] at hchain
        simp only [hmore]
        exact List.isChain_cons_cons.mpr ⟨hsame, hchain⟩
      · exact List.isChain_singleton node

theorem takeLevel_maximal (node : QueueNode) (rest : List QueueNode) :
    ∀ a ∈ (takeLevel node rest).1.getLast?, ∀ b ∈ (takeLevel node rest).2.head?,
      sameLevel a b = false := by
  induction rest generalizing node with
  | nil =>
      intro a _ b hb
      cases hb
  | cons next rest ih =>
      unfold takeLevel
      split_ifs with hsame
      · obtain ⟨more, hmore⟩ := takeLevel_head next rest
        have hlast := ih next
        rw [hmore] at hlast
        simp only [hmore, List.getLast?_cons_cons]
        exact hlast
      · intro a ha b hb
        simp only [List.getLast?_singleton, Option.mem_some_iff] at ha
        simp only [List.head?_cons, Option.mem_some_iff] at hb
        subst ha hb
        exact Bool.eq_false_iff.mpr hsame

/-- The first group is maximal, so the groups of the rest are the other groups. -/
theorem groups_cons (node : QueueNode) (rest : List QueueNode) :
    groups (node :: rest) = (takeLevel node rest).1 :: groups (takeLevel node rest).2 := by
  obtain ⟨more, hmore⟩ := takeLevel_head node rest
  have hne : (takeLevel node rest).1 ≠ [] := by
    rw [hmore]
    exact List.cons_ne_nil node more
  unfold groups
  rw [← takeLevel_append node rest, List.splitBy_append (takeLevel_maximal node rest),
    List.splitBy_of_isChain hne (takeLevel_isChain node rest)]
  rfl

/-- The forks of a group, when `n` forks were made. -/
def forksOf (env : Environment) (aliases : List Alias) : ℕ → List QueueNode → List (List Word × ℤ)
  | _, [] => []
  | n, node :: g =>
      (argsOf aliases node.command, env.fork n) :: forksOf env aliases (n + 1) g

/-- What the launches of the commands `g` do to the variables that the loops carry along. -/
structure Launches (env : Environment) (g : List QueueNode) (s t : Exec) : Prop where
  aliases : t.aliases = s.aliases
  forks : t.forks = s.forks + g.length
  log : t.log = s.log ++ (forksOf env s.aliases s.forks g).flatMap fun f => forkLog f.1 f.2

/-- What the loop over the group `g` does, where `rem` is what follows in the chain. -/
structure LevelRun (env : Environment) (g rem : List QueueNode) (l l' : Level) : Prop where
  launches : Launches env g l.exec l'.exec
  rest : l'.exec.qforexecution = rem
  counted : l'.no_process + (if rem = [] then 1 else 0) = l.no_process + g.length
  pids : ∀ i < g.length, l'.pid_child.toList[l.no_process + i]? = some (env.fork (l.exec.forks + i))
  kept : ∀ i < l.no_process, l'.pid_child.toList[i]? = l.pid_child.toList[i]?

/-- The loop launched the commands in front of a builtin of the group `g`, and the builtin
returned `s`. -/
def ReturnsAt (env : Environment) (fuel : ℕ) (g : List QueueNode) (l : Level) (s : Exec) : Prop :=
  ∃ front builtin more m, g = front ++ builtin :: more ∧
    (∀ a ∈ front, External l.exec.aliases a.command ∧ CommandFits a.command) ∧
    ¬ External l.exec.aliases builtin.command ∧ Launches env front l.exec m.exec ∧
    launch env fuel builtin.command m = .ok (.returns s)

section Levels
variable {env : Environment} {fuel : ℕ}

theorem pid_forked {l : Level} {argv : List Word} (hroom : l.no_process < MAX_CMD_NUM) (i : ℕ) :
    (Level.forked env argv l hroom).pid_child.toList[i]? =
      if l.no_process = i then some (env.fork l.exec.forks) else l.pid_child.toList[i]? := by
  unfold Level.forked
  rw [Vector.toList_set, List.getElem?_set, Vector.length_toList, if_pos hroom]

theorem launches_nil (s : Exec) : Launches env [] s s := ⟨rfl, rfl, (List.append_nil _).symm⟩

theorem Launches.cons {node : QueueNode} {g : List QueueNode} {l m : Level} {t : Exec}
    (h : Launches env g m.exec t) (hroom : l.no_process < MAX_CMD_NUM)
    (hexec : m.exec = (Level.forked env (argsOf l.exec.aliases node.command) l hroom).exec) :
    Launches env (node :: g) l.exec t := by
  have haliases : m.exec.aliases = l.exec.aliases := by
    rw [hexec]
    rfl
  have hforks : m.exec.forks = l.exec.forks + 1 := by
    rw [hexec]
    rfl
  constructor
  · rw [h.aliases, haliases]
  · rw [h.forks, hforks, List.length_cons]
    omega
  · rw [h.log, haliases, hforks, hexec]
    simp [Level.forked, forksOf]

theorem levelRun_singleton {node : QueueNode} {rem : List QueueNode} {l l' : Level}
    (hroom : l.no_process < MAX_CMD_NUM)
    (hexec : l'.exec = { (Level.forked env (argsOf l.exec.aliases node.command) l hroom).exec with
      qforexecution := rem })
    (hpid : l'.pid_child =
      (Level.forked env (argsOf l.exec.aliases node.command) l hroom).pid_child)
    (hcount : l'.no_process + (if rem = [] then 1 else 0) = l.no_process + 1) :
    LevelRun env [node] rem l l' := by
  constructor
  · have hlaunch : Launches env [node] l.exec
        (Level.forked env (argsOf l.exec.aliases node.command) l hroom).exec :=
      (launches_nil _).cons hroom rfl
    rw [hexec]
    exact ⟨hlaunch.aliases, hlaunch.forks, hlaunch.log⟩
  · rw [hexec]
  · exact hcount
  · intro i hi
    have hzero : i = 0 := by simpa using hi
    rw [hpid, hzero, Nat.add_zero, pid_forked, if_pos rfl]
    rfl
  · intro i hi
    rw [hpid, pid_forked, if_neg (by omega)]

theorem LevelRun.cons {node : QueueNode} {g rem : List QueueNode} {l m l' : Level}
    (h : LevelRun env g rem m l') (hroom : l.no_process < MAX_CMD_NUM)
    (hexec : m.exec = (Level.forked env (argsOf l.exec.aliases node.command) l hroom).exec)
    (hpid : m.pid_child =
      (Level.forked env (argsOf l.exec.aliases node.command) l hroom).pid_child)
    (hcount : m.no_process = l.no_process + 1) : LevelRun env (node :: g) rem l l' := by
  have hforks : m.exec.forks = l.exec.forks + 1 := by
    rw [hexec]
    rfl
  constructor
  · exact h.launches.cons hroom hexec
  · exact h.rest
  · rw [h.counted, hcount, List.length_cons]
    omega
  · intro i hi
    cases i with
    | zero =>
        rw [Nat.add_zero, h.kept _ (by omega), hpid, pid_forked, if_pos rfl]
        rfl
    | succ i =>
        have hpids := h.pids i (Nat.lt_of_succ_lt_succ hi)
        rw [hcount, hforks] at hpids
        have hleft : l.no_process + (i + 1) = l.no_process + 1 + i := by omega
        have hright : l.exec.forks + (i + 1) = l.exec.forks + 1 + i := by omega
        rw [hleft, hright]
        exact hpids
  · intro i hi
    rw [h.kept i (by omega), hpid, pid_forked, if_neg (by omega)]

/-- The variables when the loop comes to the next command. -/
def Level.advanced (env : Environment) (node next : QueueNode) (l : Level)
    (hroom : l.no_process < MAX_CMD_NUM) : Level :=
  { Level.forked env (argsOf l.exec.aliases node.command)
      { l with paral := if node.priority = 255 then false else l.paral } hroom with
    eqprio := node.priority = next.priority
    no_process := l.no_process + 1 }

theorem levelLoop_next {node next : QueueNode} {rest : List QueueNode} {l : Level}
    (hgo : l.eqprio = true ∧ l.paral = true) {hroom : l.no_process < MAX_CMD_NUM}
    (hlaunch : launch env fuel node.command
      { l with paral := if node.priority = 255 then false else l.paral } =
        .ok (.proceeds (Level.forked env (argsOf l.exec.aliases node.command)
          { l with paral := if node.priority = 255 then false else l.paral } hroom))) :
    levelLoop env fuel (node :: next :: rest) l =
      levelLoop env fuel (next :: rest) (Level.advanced env node next l hroom) := by
  rw [levelLoop, if_pos hgo]
  simp only [hlaunch, ok_bind]
  rfl

theorem levelLoop_stop {node : QueueNode} {rest : List QueueNode} {l : Level}
    (hstop : ¬ (l.eqprio = true ∧ l.paral = true)) :
    levelLoop env fuel (node :: rest) l =
      .ok (.proceeds { l with exec := { l.exec with qforexecution := node :: rest } }) := by
  rw [levelLoop, if_neg hstop]
  rfl

theorem advanced_go (env : Environment) (node next : QueueNode) {l : Level}
    (hparal : l.paral = true) (hroom : l.no_process < MAX_CMD_NUM) :
    ((Level.advanced env node next l hroom).eqprio = true ∧
      (Level.advanced env node next l hroom).paral = true) ↔ sameLevel node next = true := by
  unfold Level.advanced Level.forked sameLevel
  simp only [hparal, Bool.and_eq_true, decide_eq_true_eq]
  split_ifs with h255
  · simp [h255]
  · simp [h255]

/-- A builtin at the head of the loop returns from within. -/
theorem levelLoop_builtin {node : QueueNode} {rest : List QueueNode} {l : Level} {r : Progress}
    (hgo : l.eqprio = true ∧ l.paral = true)
    (hext : ¬ External l.exec.aliases node.command) (hs : SingleSpaced node.command)
    (h : levelLoop env fuel (node :: rest) l = .ok r) :
    ∃ m s, m.exec = l.exec ∧ launch env fuel node.command m = .ok (.returns s) ∧
      r = .returns s := by
  rw [levelLoop, if_pos hgo] at h
  obtain ⟨p, hlaunch, h⟩ := bind_eq_ok.mp h
  obtain ⟨s, rfl⟩ := launch_builtin hlaunch hext hs
  cases h
  exact ⟨{ l with paral := if node.priority = 255 then false else l.paral }, s, rfl, hlaunch, rfl⟩

theorem returnsAt_head {node : QueueNode} {rest : List QueueNode} {l m : Level} {s : Exec}
    (hext : ¬ External l.exec.aliases node.command) (hexec : m.exec = l.exec)
    (hlaunch : launch env fuel node.command m = .ok (.returns s)) :
    ReturnsAt env fuel (node :: rest) l s := by
  refine ⟨[], node, rest, m, rfl, fun _ ha => absurd ha List.not_mem_nil, hext, ?_, hlaunch⟩
  rw [hexec]
  exact launches_nil _

theorem ReturnsAt.cons {node : QueueNode} {g : List QueueNode} {l m : Level} {s : Exec}
    (h : ReturnsAt env fuel g m s) (hext : External l.exec.aliases node.command)
    (hf : CommandFits node.command) (hroom : l.no_process < MAX_CMD_NUM)
    (hexec : m.exec = (Level.forked env (argsOf l.exec.aliases node.command) l hroom).exec) :
    ReturnsAt env fuel (node :: g) l s := by
  have haliases : m.exec.aliases = l.exec.aliases := by
    rw [hexec]
    rfl
  obtain ⟨front, builtin, more, k, rfl, hfront, hbuiltin, hlaunches, hlaunch⟩ := h
  rw [haliases] at hfront hbuiltin
  exact ⟨node :: front, builtin, more, k, rfl, List.forall_mem_cons.mpr ⟨⟨hext, hf⟩, hfront⟩,
    hbuiltin, hlaunches.cons hroom hexec, hlaunch⟩

variable (hfork : ∀ n, env.fork n ≠ 0)
include hfork

/-- The loop runs to the end of the group, and everything it launches fits, or it
returns at a builtin. -/
theorem levelLoop_cases (node : QueueNode) (rest : List QueueNode) {l : Level} {r : Progress}
    (hgo : l.eqprio = true ∧ l.paral = true)
    (hs : ∀ a ∈ node :: rest, SingleSpaced a.command)
    (h : levelLoop env fuel (node :: rest) l = .ok r) :
    ((∀ a ∈ (takeLevel node rest).1, External l.exec.aliases a.command ∧ CommandFits a.command) ∧
      l.no_process + (takeLevel node rest).1.length ≤ MAX_CMD_NUM ∧
      ∃ l', r = .proceeds l' ∧
        LevelRun env (takeLevel node rest).1 (takeLevel node rest).2 l l') ∨
    ∃ s, r = .returns s ∧ ReturnsAt env fuel (takeLevel node rest).1 l s := by
  induction rest generalizing node l with
  | nil =>
      by_cases hext : External l.exec.aliases node.command
      · left
        rw [levelLoop, if_pos hgo] at h
        obtain ⟨p, hlaunch, hcall⟩ := bind_eq_ok.mp h
        obtain ⟨hf, hroom, rfl⟩ := launch_cases hfork hlaunch hext (hs node List.mem_cons_self)
        cases hcall
        refine ⟨List.forall_mem_singleton.mpr ⟨hext, hf⟩, hroom, _, rfl, ?_⟩
        exact levelRun_singleton hroom rfl rfl rfl
      · right
        obtain ⟨m, s, hexec, hlaunch, rfl⟩ :=
          levelLoop_builtin hgo hext (hs node List.mem_cons_self) h
        exact ⟨s, rfl, returnsAt_head hext hexec hlaunch⟩
  | cons next rest ih =>
      by_cases hext : External l.exec.aliases node.command
      · have hcall := h
        rw [levelLoop, if_pos hgo] at hcall
        obtain ⟨p, hlaunch, _⟩ := bind_eq_ok.mp hcall
        obtain ⟨hf, hroom, rfl⟩ := launch_cases hfork hlaunch hext (hs node List.mem_cons_self)
        rw [levelLoop_next hgo hlaunch] at h
        have hadvanced := advanced_go env node next hgo.2 hroom
        unfold takeLevel
        split_ifs with hsame
        · have hs' : ∀ a ∈ next :: rest, SingleSpaced a.command :=
            fun a ha => hs a (List.mem_cons_of_mem node ha)
          rcases ih next (hadvanced.mpr hsame) hs' h with
            ⟨hfits, hcount, l', rfl, hrun⟩ | ⟨s, rfl, hreturns⟩
          · left
            refine ⟨List.forall_mem_cons.mpr ⟨⟨hext, hf⟩, hfits⟩, ?_, l', rfl, ?_⟩
            · rw [List.length_cons]
              have hnext : (Level.advanced env node next l hroom).no_process = l.no_process + 1 :=
                rfl
              omega
            · exact hrun.cons hroom rfl rfl rfl
          · right
            exact ⟨s, rfl, hreturns.cons hext hf hroom rfl⟩
        · left
          have hstop := mt hadvanced.mp hsame
          rw [levelLoop_stop hstop] at h
          cases h
          refine ⟨List.forall_mem_singleton.mpr ⟨hext, hf⟩, hroom, _, rfl, ?_⟩
          exact levelRun_singleton hroom rfl rfl rfl
      · right
        obtain ⟨m, s, hexec, hlaunch, rfl⟩ :=
          levelLoop_builtin hgo hext (hs node List.mem_cons_self) h
        obtain ⟨more, hmore⟩ := takeLevel_head node (next :: rest)
        rw [hmore]
        exact ⟨s, rfl, returnsAt_head hext hexec hlaunch⟩

/-- Everything in a group that fits is launched. -/
theorem levelLoop_fits (node : QueueNode) (rest : List QueueNode) {l : Level}
    (hgo : l.eqprio = true ∧ l.paral = true)
    (hs : ∀ a ∈ node :: rest, SingleSpaced a.command)
    (hfits : ∀ a ∈ (takeLevel node rest).1, External l.exec.aliases a.command ∧
      CommandFits a.command)
    (hcount : l.no_process + (takeLevel node rest).1.length ≤ MAX_CMD_NUM)
    (hfuel : argsSize < fuel) : ∃ l', levelLoop env fuel (node :: rest) l = .ok (.proceeds l') := by
  induction rest generalizing node l with
  | nil =>
      have hroom : l.no_process < MAX_CMD_NUM := hcount
      obtain ⟨hext, hf⟩ := hfits node List.mem_cons_self
      have hlaunch := launch_fits hfork
        (l := { l with paral := if node.priority = 255 then false else l.paral })
        hext (hs node List.mem_cons_self) hf hfuel hroom
      rw [levelLoop, if_pos hgo]
      simp only [hlaunch, ok_bind]
      exact ⟨_, rfl⟩
  | cons next rest ih =>
      obtain ⟨more, hmore⟩ := takeLevel_head node (next :: rest)
      rw [hmore] at hfits hcount
      rw [List.length_cons] at hcount
      have hroom : l.no_process < MAX_CMD_NUM := by omega
      obtain ⟨hext, hf⟩ := hfits node List.mem_cons_self
      have hlaunch := launch_fits hfork
        (l := { l with paral := if node.priority = 255 then false else l.paral })
        hext (hs node List.mem_cons_self) hf hfuel hroom
      have hadvanced := advanced_go env node next hgo.2 hroom
      rw [levelLoop_next hgo hlaunch]
      by_cases hsame : sameLevel node next = true
      · have htake : (takeLevel next rest).1 = more := by
          unfold takeLevel at hmore
          rw [if_pos hsame] at hmore
          exact (List.cons.inj hmore).2
        have hnext : (Level.advanced env node next l hroom).no_process = l.no_process + 1 := rfl
        rw [← htake] at hfits hcount
        apply ih next (hadvanced.mpr hsame)
        · exact fun a ha => hs a (List.mem_cons_of_mem node ha)
        · exact fun a ha => hfits a (List.mem_cons_of_mem node ha)
        · omega
      · rw [levelLoop_stop (mt hadvanced.mp hsame)]
        exact ⟨_, rfl⟩

end Levels

/-! ## Waiting -/

theorem waitLoop_eq_ok {pid_child : Vector ℤ MAX_CMD_NUM} {left k : ℕ} {events : List Event}
    (hk : k ≤ MAX_CMD_NUM) :
    waitLoop pid_child left k = .ok events ↔ k + left ≤ MAX_CMD_NUM ∧
      events = ((pid_child.toList.drop k).take left).map Event.waitpid := by
  induction left generalizing k events with
  | zero => simp [waitLoop, hk, eq_comm]
  | succ left ih =>
      rcases Nat.lt_or_ge k MAX_CMD_NUM with hlt | hge
      · have hread := readAt_fin pid_child ⟨k, hlt⟩
        have hdrop : pid_child.toList.drop k =
            pid_child.get ⟨k, hlt⟩ :: pid_child.toList.drop (k + 1) :=
          List.drop_eq_getElem_cons (by rwa [Vector.length_toList])
        simp only [waitLoop, hread, ok_bind, bind_eq_ok, ih hlt, hdrop, pure_eq_ok]
        constructor
        · rintro ⟨more, ⟨hroom, rfl⟩, h⟩
          cases h
          exact ⟨by omega, rfl⟩
        · rintro ⟨hroom, rfl⟩
          exact ⟨_, ⟨by omega, rfl⟩, rfl⟩
      · have hnot : ¬ (0 ≤ (k : ℤ) ∧ (k : ℤ).toNat < MAX_CMD_NUM) := by
          rw [Int.toNat_natCast]
          omega
        have hread : readAt pid_child k = .error (.outOfRange k) := by
          unfold readAt
          rw [dif_neg hnot]
        simp only [waitLoop, hread, error_bind, reduceCtorEq, false_iff, not_and]
        omega

/-! ## The queue -/

theorem groupsFit_cons (g rem : List QueueNode) :
    GroupsFit (g :: groups rem) ↔
      g.length + (if rem = [] then 0 else 1) ≤ MAX_CMD_NUM ∧ GroupsFit (groups rem) := by
  cases rem with
  | nil => exact (and_iff_left trivial).symm
  | cons node rest =>
      rw [groups_cons, if_neg (List.cons_ne_nil node rest)]
      exact Iff.rfl

/-- The group `g` fits, where `rem` is what follows in the chain. -/
structure GroupFits (g rem : List QueueNode) : Prop where
  commands : ∀ a ∈ g, CommandFits a.command
  pids : g.length + (if rem = [] then 0 else 1) ≤ MAX_CMD_NUM

theorem fits_cons (node : QueueNode) (rest : List QueueNode) :
    Fits (node :: rest) ↔
      GroupFits (takeLevel node rest).1 (takeLevel node rest).2 ∧ Fits (takeLevel node rest).2 := by
  unfold Fits
  rw [groups_cons, groupsFit_cons, ← takeLevel_append node rest, List.forall_mem_append]
  constructor
  · intro h
    exact ⟨⟨h.1.1, h.2.1⟩, h.1.2, h.2.2⟩
  · intro h
    exact ⟨⟨h.1.commands, h.2.1⟩, h.1.pids, h.2.2⟩

/-- What one pass over the group `g` adds, where `rem` is what follows in the chain. -/
structure GroupRun (env : Environment) (g rem : List QueueNode) (s t : Exec) : Prop where
  rest : t.qforexecution = rem
  aliases : t.aliases = s.aliases
  forks : t.forks = s.forks + g.length
  log : ∃ waits : List ℤ,
    t.log = s.log ++ (forksOf env s.aliases s.forks g).flatMap (fun f => forkLog f.1 f.2) ++
      waits.map Event.waitpid ∧
    ∀ f ∈ forksOf env s.aliases s.forks g, f.2 ∈ waits

theorem forksOf_args (env : Environment) (aliases : List Alias) (n : ℕ) (g : List QueueNode) :
    (forksOf env aliases n g).map Prod.fst = g.map fun node => argsOf aliases node.command := by
  induction g generalizing n with
  | nil => rfl
  | cons node g ih => exact congrArg (argsOf aliases node.command :: ·) (ih (n + 1))

theorem exists_of_mem_forksOf {env : Environment} {aliases : List Alias} {n : ℕ}
    {g : List QueueNode} {f : List Word × ℤ} (h : f ∈ forksOf env aliases n g) :
    ∃ i < g.length, f.2 = env.fork (n + i) := by
  induction g generalizing n with
  | nil => cases h
  | cons node g ih =>
      rcases List.mem_cons.mp h with rfl | h
      · exact ⟨0, Nat.succ_pos _, rfl⟩
      · obtain ⟨i, hi, he⟩ := ih h
        have hsum : n + 1 + i = n + (i + 1) := by omega
        exact ⟨i + 1, Nat.succ_lt_succ hi, by rw [he, hsum]⟩

theorem forksOf_getElem? (env : Environment) (aliases : List Alias) (n : ℕ) (g : List QueueNode)
    (i : ℕ) : (forksOf env aliases n g)[i]? =
      g[i]?.map fun node => (argsOf aliases node.command, env.fork (n + i)) := by
  induction g generalizing n i with
  | nil => rfl
  | cons node g ih =>
      cases i with
      | zero => rfl
      | succ i =>
          have hsum : n + 1 + i = n + (i + 1) := by omega
          rw [forksOf, List.getElem?_cons_succ, List.getElem?_cons_succ, ih, hsum]

theorem length_forksOf (env : Environment) (aliases : List Alias) (n : ℕ) (g : List QueueNode) :
    (forksOf env aliases n g).length = g.length := by
  rw [← List.length_map Prod.fst, forksOf_args, List.length_map]

section Queues
variable {env : Environment} {fuel : ℕ} {aliases : List Alias}

/-- The variables at the start of a pass over the queue. -/
def Level.start (env : Environment) (s : Exec) : Level :=
  { exec := s, pid_child := (env.leftover s.forks).pid_child, paral := true, eqprio := true,
    no_process := 0 }

theorem queuePass_nil {s : Exec} (hq : s.qforexecution = []) :
    queuePass env fuel s = .leave (.ok s) := by
  unfold queuePass
  rw [hq]

/-- A pass is stopped where its inner loop is. -/
theorem queuePass_stops {node : QueueNode} {rest : List QueueNode} {s : Exec} {stop : Stop}
    (hq : s.qforexecution = node :: rest)
    (hloop : levelLoop env fuel (node :: rest) (Level.start env s) = .error stop) :
    queuePass env fuel s = .leave (.error stop) := by
  unfold Level.start at hloop
  unfold queuePass
  simp only [hq, hloop]

theorem queuePass_waits {node : QueueNode} {rest : List QueueNode} {s : Exec} {l : Level}
    {stop : Stop} (hq : s.qforexecution = node :: rest)
    (hloop : levelLoop env fuel (node :: rest) (Level.start env s) = .ok (.proceeds l))
    (hwait : waitLoop l.pid_child (l.no_process + 1) 0 = .error stop) :
    queuePass env fuel s = .leave (.error stop) := by
  unfold Level.start at hloop
  unfold queuePass
  simp only [hq, hloop, hwait]

theorem queuePass_again {node : QueueNode} {rest : List QueueNode} {s : Exec} {l : Level}
    {waits : List Event} (hq : s.qforexecution = node :: rest)
    (hloop : levelLoop env fuel (node :: rest) (Level.start env s) = .ok (.proceeds l))
    (hwait : waitLoop l.pid_child (l.no_process + 1) 0 = .ok waits) :
    queuePass env fuel s = .again (l.exec.print waits) := by
  unfold Level.start at hloop
  unfold queuePass
  simp only [hq, hloop, hwait]

/-- The ids of a group are among the elements that are waited for. -/
theorem LevelRun.group {g rem : List QueueNode} {s : Exec} {l : Level}
    (h : LevelRun env g rem (Level.start env s) l) :
    GroupRun env g rem s
      (l.exec.print ((l.pid_child.toList.take (l.no_process + 1)).map Event.waitpid)) := by
  constructor
  · exact h.rest
  · exact h.launches.aliases
  · exact h.launches.forks
  · refine ⟨l.pid_child.toList.take (l.no_process + 1), ?_, ?_⟩
    · unfold Exec.print
      rw [h.launches.log]
      rfl
    · intro f hf
      obtain ⟨i, hi, he⟩ := exists_of_mem_forksOf hf
      have hpid := h.pids i hi
      have hcount := h.counted
      have hstart : (Level.start env s).no_process = 0 := rfl
      have hforks : (Level.start env s).exec.forks = s.forks := rfl
      rw [hstart, Nat.zero_add, hforks] at hpid
      have hlt : i < l.no_process + 1 := by
        split_ifs at hcount <;> omega
      rw [he]
      apply List.mem_iff_getElem?.mpr
      refine ⟨i, ?_⟩
      rw [List.getElem?_take_of_lt hlt, hpid]

theorem mem_rest {node a : QueueNode} {rest : List QueueNode} (ha : a ∈ (takeLevel node rest).2) :
    a ∈ node :: rest := by
  rw [← takeLevel_append node rest]
  exact List.mem_append_right _ ha

theorem mem_group {node a : QueueNode} {rest : List QueueNode} (ha : a ∈ (takeLevel node rest).1) :
    a ∈ node :: rest := by
  rw [← takeLevel_append node rest]
  exact List.mem_append_left _ ha

theorem fits_nil : Fits [] := ⟨fun _ h => absurd h List.not_mem_nil, trivial⟩

theorem builtinLast_cons (g rem : List QueueNode) :
    BuiltinLast aliases (g :: groups rem) ↔
      ((∀ a ∈ g, External aliases a.command) ∧ BuiltinLast aliases (groups rem)) ∨
        (rem = [] ∧ g.length = 1) := by
  cases rem with
  | nil =>
      have hnil : groups [] = [] := rfl
      simp [hnil, BuiltinLast]
  | cons node rest =>
      rw [groups_cons]
      simp [BuiltinLast]

theorem builtinLast_of_external {q : List QueueNode}
    (hext : ∀ a ∈ q, External aliases a.command) : BuiltinLast aliases (groups q) := by
  have hmem : ∀ g ∈ groups q, ∀ a ∈ g, External aliases a.command := by
    intro g hg a ha
    apply hext
    rw [← List.flatten_splitBy sameLevel q]
    exact List.mem_flatten.mpr ⟨g, hg, ha⟩
  generalize groups q = gs at hmem
  induction gs with
  | nil => trivial
  | cons g gs ih =>
      rw [List.forall_mem_cons] at hmem
      cases gs with
      | nil => exact .inl hmem.1
      | cons g' rest => exact ⟨hmem.1, ih hmem.2⟩

theorem filter_forkLog (forks : List (List Word × ℤ)) :
    (forks.flatMap fun f => forkLog f.1 f.2).filter isProcessCall =
      forks.map fun f => Event.fork f.1 f.2 := by
  induction forks with
  | nil => rfl
  | cons f forks ih =>
      rw [List.flatMap_cons, List.filter_append, ih, forkLog]
      split_ifs
      · rfl
      · rfl

theorem filter_waits (waits : List ℤ) :
    (waits.map Event.waitpid).filter isProcessCall = waits.map Event.waitpid := by
  apply List.filter_eq_self.mpr
  intro e he
  obtain ⟨pid, _, rfl⟩ := List.mem_map.mp he
  rfl

/-- A pass over a group is one block of calls. -/
theorem GroupRun.block {g rem : List QueueNode} {s t : Exec} (h : GroupRun env g rem s t) :
    ∃ b : Block, t.log.filter isProcessCall = s.log.filter isProcessCall ++ b.events ∧
      b.forks.map Prod.fst = g.map (fun node => argsOf s.aliases node.command) ∧
      ∀ f ∈ b.forks, f.2 ∈ b.waits := by
  obtain ⟨waits, hlog, hwaits⟩ := h.log
  refine ⟨⟨forksOf env s.aliases s.forks g, waits⟩, ?_, forksOf_args env s.aliases s.forks g,
    hwaits⟩
  unfold Block.events
  rw [hlog, List.filter_append, List.filter_append, filter_forkLog, filter_waits,
    List.append_assoc]

theorem queuePass_returns {node : QueueNode} {rest : List QueueNode} {s t : Exec}
    (hq : s.qforexecution = node :: rest)
    (hloop : levelLoop env fuel (node :: rest) (Level.start env s) = .ok (.returns t)) :
    queuePass env fuel s = .leave (.ok t) := by
  unfold Level.start at hloop
  unfold queuePass
  simp only [hq, hloop]

/-- A builtin alone at the end of the queue returns. -/
theorem queuePass_builtin {node : QueueNode} {s : Exec} (hq : s.qforexecution = [node])
    (hlaunch : ∀ l : Level, l.exec = s → ∃ t, launch env fuel node.command l = .ok (.returns t)) :
    ∃ t, queuePass env fuel s = .leave (.ok t) := by
  have hgo : (Level.start env s).eqprio = true ∧ (Level.start env s).paral = true := ⟨rfl, rfl⟩
  obtain ⟨t, ht⟩ := hlaunch
    { Level.start env s with paral := if node.priority = 255 then false else true } rfl
  have hloop : levelLoop env fuel [node] (Level.start env s) = .ok (.returns t) := by
    rw [levelLoop, if_pos hgo]
    exact bind_eq_ok.mpr ⟨_, ht, rfl⟩
  exact ⟨t, queuePass_returns hq hloop⟩

/-- The passes over the queue that lead from `s` to the result `u`: one for each group, the
last of which may return at a builtin. -/
inductive Executes (env : Environment) (fuel : ℕ) : Exec → Exec → Prop
  | finished {s : Exec} (hq : s.qforexecution = []) : Executes env fuel s s
  | group {s t u : Exec} {node : QueueNode} {rest : List QueueNode}
      (hq : s.qforexecution = node :: rest)
      (hext : ∀ a ∈ (takeLevel node rest).1, External s.aliases a.command)
      (hfits : GroupFits (takeLevel node rest).1 (takeLevel node rest).2)
      (hrun : GroupRun env (takeLevel node rest).1 (takeLevel node rest).2 s t)
      (h : Executes env fuel t u) : Executes env fuel s u
  | builtin {s u : Exec} {node : QueueNode} {rest : List QueueNode}
      (hq : s.qforexecution = node :: rest)
      (h : ReturnsAt env fuel (takeLevel node rest).1 (Level.start env s) u) :
      Executes env fuel s u

theorem ReturnsAt.not_external {g : List QueueNode} {l : Level} {s : Exec}
    (h : ReturnsAt env fuel g l s) : ∃ a ∈ g, ¬ External l.exec.aliases a.command := by
  obtain ⟨front, builtin, more, m, rfl, _, hbuiltin, _⟩ := h
  exact ⟨builtin, List.mem_append_right _ List.mem_cons_self, hbuiltin⟩

/-- Without a builtin all groups fit, and each of them is forked and waited for. -/
theorem Executes.barrier {s u : Exec} (h : Executes env fuel s u)
    (hext : ∀ a ∈ s.qforexecution, External s.aliases a.command) :
    Fits s.qforexecution ∧ ∃ blocks : List Block,
      u.log.filter isProcessCall = s.log.filter isProcessCall ++ blocks.flatMap Block.events ∧
      blocks.map (fun b => b.forks.map Prod.fst) =
        (groups s.qforexecution).map (fun g => g.map fun node => argsOf s.aliases node.command) ∧
      ∀ b ∈ blocks, ∀ f ∈ b.forks, f.2 ∈ b.waits := by
  induction h with
  | finished hq =>
      rw [hq]
      refine ⟨fits_nil, [], ?_, rfl, fun b hb => absurd hb List.not_mem_nil⟩
      exact (List.append_nil _).symm
  | group hq _ hfits hrun _ ih =>
      rw [hrun.rest, hrun.aliases] at ih
      rw [hq] at hext ⊢
      obtain ⟨hrest, blocks, hlog, hgroups, hwaits⟩ := ih fun a ha => hext a (mem_rest ha)
      obtain ⟨b, hblock, hforks, hwaited⟩ := hrun.block
      refine ⟨(fits_cons _ _).mpr ⟨hfits, hrest⟩, b :: blocks, ?_, ?_,
        List.forall_mem_cons.mpr ⟨hwaited, hwaits⟩⟩
      · rw [hlog, hblock, List.flatMap_cons, List.append_assoc]
      · rw [groups_cons, List.map_cons, List.map_cons, hforks, hgroups]
  | builtin hq h =>
      obtain ⟨a, ha, hnot⟩ := h.not_external
      rw [hq] at hext
      exact absurd (hext a (mem_group ha)) hnot

/-- A builtin at the end of the queue can be launched when the other commands were. -/
def LastLaunches (env : Environment) (fuel : ℕ) (s : Exec) : Prop :=
  ∀ b ∈ s.qforexecution.getLast?, ¬ External s.aliases b.command → ∀ l : Level,
    l.exec.aliases = s.aliases → l.exec.forks = s.forks + (s.qforexecution.length - 1) →
    ∃ t, launch env fuel b.command l = .ok (.returns t)

theorem LastLaunches.rest {node : QueueNode} {rest : List QueueNode} {s t : Exec}
    (h : LastLaunches env fuel s) (hq : s.qforexecution = node :: rest)
    (hrun : GroupRun env (takeLevel node rest).1 (takeLevel node rest).2 s t) :
    LastLaunches env fuel t := by
  intro b hb hext l haliases hforks
  have hne : (takeLevel node rest).2 ≠ [] := by
    intro hnil
    rw [hrun.rest, hnil] at hb
    cases hb
  have hlast : s.qforexecution.getLast? = t.qforexecution.getLast? := by
    rw [hq, hrun.rest, ← takeLevel_append node rest, List.getLast?_append_of_ne_nil _ hne]
  have hlength : s.qforexecution.length =
      (takeLevel node rest).1.length + t.qforexecution.length := by
    rw [hq, hrun.rest, ← List.length_append, takeLevel_append node rest]
  have hpos : 0 < t.qforexecution.length := by
    rw [hrun.rest]
    exact List.length_pos_of_ne_nil hne
  rw [← hlast] at hb
  rw [hrun.aliases] at hext haliases
  refine h b hb hext l haliases ?_
  rw [hforks, hrun.forks, hlength]
  omega

/-- A pass returns at the builtin that ends the queue, or its group is external. -/
theorem firstGroup_cases {node : QueueNode} {rest : List QueueNode} {s : Exec}
    (hq : s.qforexecution = node :: rest)
    (hbuiltin : BuiltinLast s.aliases (groups (node :: rest))) (hlast : LastLaunches env fuel s) :
    (∃ t, queuePass env fuel s = .leave (.ok t)) ∨
      (∀ a ∈ (takeLevel node rest).1, External s.aliases a.command) ∧
        BuiltinLast s.aliases (groups (takeLevel node rest).2) := by
  have happend := takeLevel_append node rest
  rw [groups_cons, builtinLast_cons] at hbuiltin
  rcases hbuiltin with hexternal | ⟨hnil, hone⟩
  · exact .inr hexternal
  · obtain ⟨more, hmore⟩ := takeLevel_head node rest
    rw [hmore, List.length_cons, Nat.add_eq_right, List.length_eq_zero_iff] at hone
    rw [hone] at hmore
    rw [hmore, hnil, List.append_nil] at happend
    by_cases hext : External s.aliases node.command
    · right
      rw [hmore, hnil]
      exact ⟨List.forall_mem_singleton.mpr hext, trivial⟩
    · left
      rw [← happend] at hq
      apply queuePass_builtin hq
      intro l hl
      have hlaunch := hlast node
      rw [hq] at hlaunch
      exact hlaunch rfl hext l (by rw [hl]) (by rw [hl]; rfl)

variable (hfork : ∀ n, env.fork n ≠ 0)
include hfork

/-- A pass over the queue that comes to an end runs one group and waits for it, or it
returns at a builtin. -/
theorem queuePass_cases (fuel : ℕ) (node : QueueNode) (rest : List QueueNode) {s : Exec}
    (hq : s.qforexecution = node :: rest) (hs : ∀ a ∈ node :: rest, SingleSpaced a.command) :
    (∃ stop, queuePass env fuel s = .leave (.error stop)) ∨
    ((∀ a ∈ (takeLevel node rest).1, External s.aliases a.command) ∧
      GroupFits (takeLevel node rest).1 (takeLevel node rest).2 ∧ ∃ t,
        queuePass env fuel s = .again t ∧
          GroupRun env (takeLevel node rest).1 (takeLevel node rest).2 s t) ∨
    ∃ t, queuePass env fuel s = .leave (.ok t) ∧
      ReturnsAt env fuel (takeLevel node rest).1 (Level.start env s) t := by
  have hgo : (Level.start env s).eqprio = true ∧ (Level.start env s).paral = true := ⟨rfl, rfl⟩
  cases hloop : levelLoop env fuel (node :: rest) (Level.start env s) with
  | error stop => exact .inl ⟨stop, queuePass_stops hq hloop⟩
  | ok r =>
      rcases levelLoop_cases hfork node rest hgo hs hloop with
        ⟨hcommands, _, l, rfl, hrun⟩ | ⟨t, rfl, hreturns⟩
      · cases hwait : waitLoop l.pid_child (l.no_process + 1) 0 with
        | error stop => exact .inl ⟨stop, queuePass_waits hq hloop hwait⟩
        | ok waits =>
            right
            left
            obtain ⟨hroom, rfl⟩ := (waitLoop_eq_ok (Nat.zero_le _)).mp hwait
            have hcounted := hrun.counted
            have hstart : (Level.start env s).no_process = 0 := rfl
            refine ⟨fun a ha => (hcommands a ha).1, ⟨fun a ha => (hcommands a ha).2, ?_⟩, ?_⟩
            · split_ifs at hcounted ⊢ <;> omega
            · exact ⟨_, queuePass_again hq hloop hwait, hrun.group⟩
      · right
        right
        exact ⟨t, queuePass_returns hq hloop, hreturns⟩

theorem queuePass_fits (node : QueueNode) (rest : List QueueNode) {s : Exec}
    (hq : s.qforexecution = node :: rest) (hs : ∀ a ∈ node :: rest, SingleSpaced a.command)
    (hext : ∀ a ∈ (takeLevel node rest).1, External s.aliases a.command)
    (hfits : GroupFits (takeLevel node rest).1 (takeLevel node rest).2) (hfuel : argsSize < fuel) :
    ∃ t, queuePass env fuel s = .again t ∧
      GroupRun env (takeLevel node rest).1 (takeLevel node rest).2 s t := by
  have hgo : (Level.start env s).eqprio = true ∧ (Level.start env s).paral = true := ⟨rfl, rfl⟩
  have hstart : (Level.start env s).no_process = 0 := rfl
  have hcount : (Level.start env s).no_process + (takeLevel node rest).1.length ≤ MAX_CMD_NUM := by
    have hpids := hfits.pids
    omega
  obtain ⟨l, hloop⟩ := levelLoop_fits hfork node rest hgo hs
    (fun a ha => ⟨hext a ha, hfits.commands a ha⟩) hcount hfuel
  rcases levelLoop_cases hfork node rest hgo hs hloop with
    ⟨_, _, l', he, hrun⟩ | ⟨t, he, _⟩
  · cases he
    have hroom : 0 + (l.no_process + 1) ≤ MAX_CMD_NUM := by
      have hpids := hfits.pids
      have hcounted := hrun.counted
      split_ifs at hpids hcounted <;> omega
    have hwait : waitLoop l.pid_child (l.no_process + 1) 0 = .ok _ :=
      (waitLoop_eq_ok (Nat.zero_le _)).mpr ⟨hroom, rfl⟩
    exact ⟨_, queuePass_again hq hloop hwait, hrun.group⟩
  · cases he

theorem executes_of_run {passes : ℕ} {s out : Exec}
    (hs : ∀ a ∈ s.qforexecution, SingleSpaced a.command)
    (h : run (queuePass env fuel) passes s = some (.ok out)) : Executes env fuel s out := by
  induction passes generalizing s with
  | zero => cases h
  | succ passes ih =>
      cases hq : s.qforexecution with
      | nil =>
          rw [run_succ_of_leave (queuePass_nil hq)] at h
          cases h
          exact .finished hq
      | cons node rest =>
          rw [hq] at hs
          rcases queuePass_cases hfork fuel node rest hq hs with
            ⟨stop, hstop⟩ | ⟨hext, hfits, t, hagain, hrun⟩ | ⟨t, hleave, hreturns⟩
          · rw [run_succ_of_leave hstop] at h
            cases h
          · rw [run_succ_of_again hagain] at h
            refine .group hq hext hfits hrun (ih ?_ h)
            intro a ha
            rw [hrun.rest] at ha
            exact hs a (mem_rest ha)
          · rw [run_succ_of_leave hleave] at h
            cases h
            exact .builtin hq hreturns

theorem executes_of_ok {q : List QueueNode} {out : Exec} (hne : q ≠ [])
    (h : qexecution env fuel aliases q = .ok out) (hs : ∀ a ∈ q, SingleSpaced a.command) :
    Executes env fuel { qforexecution := q, aliases := aliases, forks := 0, log := [] } out := by
  cases q with
  | nil => exact absurd rfl hne
  | cons first chain => exact executes_of_run hfork hs (loop_eq_ok.mp h)

theorem blocks_of_external {q : List QueueNode} {out : Exec}
    (h : qexecution env fuel aliases q = .ok out) (hext : ∀ a ∈ q, External aliases a.command)
    (hs : ∀ a ∈ q, SingleSpaced a.command) :
    Fits q ∧ ∃ blocks : List Block, out.log.filter isProcessCall = blocks.flatMap Block.events ∧
      blocks.map (fun b => b.forks.map Prod.fst) =
        (groups q).map (fun g => g.map fun node => argsOf aliases node.command) ∧
      ∀ b ∈ blocks, ∀ f ∈ b.forks, f.2 ∈ b.waits := by
  cases q with
  | nil =>
      cases h
      exact ⟨fits_nil, [], rfl, rfl, fun b hb => absurd hb List.not_mem_nil⟩
  | cons first chain =>
      have hexecutes := executes_of_ok hfork (List.cons_ne_nil first chain) h hs
      obtain ⟨hfits, blocks, hlog, hrest⟩ := hexecutes.barrier hext
      exact ⟨hfits, blocks, hlog, hrest⟩

/-- A queue that fits is worked off within as many passes as it has commands. -/
theorem queue_fits {s : Exec} {passes : ℕ} (hlength : s.qforexecution.length < passes)
    (hs : ∀ a ∈ s.qforexecution, SingleSpaced a.command) (hfits : Fits s.qforexecution)
    (hbuiltin : BuiltinLast s.aliases (groups s.qforexecution))
    (hlast : LastLaunches env fuel s) (hfuel : argsSize < fuel) :
    ∃ r, run (queuePass env fuel) passes s = some (.ok r) := by
  induction passes generalizing s with
  | zero => exact absurd hlength (Nat.not_lt_zero _)
  | succ passes ih =>
      cases hq : s.qforexecution with
      | nil => exact ⟨s, run_succ_of_leave (queuePass_nil hq) passes⟩
      | cons node rest =>
          have happend := takeLevel_append node rest
          rw [hq] at hlength hs hfits hbuiltin
          obtain ⟨hgroup, hrest⟩ := (fits_cons node rest).mp hfits
          rcases firstGroup_cases hq hbuiltin hlast with ⟨t, hleave⟩ | ⟨hext, hlater⟩
          · exact ⟨t, run_succ_of_leave hleave passes⟩
          · obtain ⟨t, hagain, hrun⟩ := queuePass_fits hfork node rest hq hs hext hgroup hfuel
            have hshorter : t.qforexecution.length < passes := by
              obtain ⟨more, hmore⟩ := takeLevel_head node rest
              have hlengths := congrArg List.length happend
              rw [hmore, List.length_append, List.length_cons, List.length_cons] at hlengths
              rw [List.length_cons] at hlength
              rw [hrun.rest]
              omega
            rw [run_succ_of_again hagain]
            apply ih hshorter
            · intro a ha
              rw [hrun.rest] at ha
              exact hs a (mem_rest ha)
            · rw [hrun.rest]
              exact hrest
            · rw [hrun.aliases, hrun.rest]
              exact hlater
            · exact hlast.rest hq hrun

theorem exists_ok_of_fits {q : List QueueNode} (hs : ∀ a ∈ q, SingleSpaced a.command)
    (hfits : Fits q) (hbuiltin : BuiltinLast aliases (groups q))
    (hlast : ∀ fuel, argsSize < fuel → LastLaunches env fuel
      { qforexecution := q, aliases := aliases, forks := 0, log := [] }) :
    ∃ fuel out, qexecution env fuel aliases q = .ok out := by
  cases q with
  | nil => exact ⟨0, _, rfl⟩
  | cons first chain =>
      have hlength : (first :: chain).length < argsSize + 1 + (first :: chain).length := by
        unfold argsSize
        omega
      have hfuel : argsSize < argsSize + 1 + (first :: chain).length := by omega
      obtain ⟨out, hrun⟩ := queue_fits hfork hlength hs hfits hbuiltin (hlast _ hfuel) hfuel
      exact ⟨_, out, loop_eq_ok.mpr hrun⟩

end Queues

/-- The children can read the words that are forked exactly if they can read those of the queue. -/
theorem terminated_blocks {aliases : List Alias} {q : List QueueNode} {blocks : List Block}
    (h : blocks.map (fun b => b.forks.map Prod.fst) =
      (groups q).map (fun g => g.map fun node => argsOf aliases node.command)) :
    (∀ b ∈ blocks, ∀ f ∈ b.forks, Terminated f.1) ↔ ∀ node ∈ q, Terminated (words node.command) := by
  have hforked : (blocks.map fun b => b.forks.map Prod.fst).flatten =
      q.map fun node => argsOf aliases node.command := by
    rw [h, ← List.map_flatten, groups, List.flatten_splitBy]
  have hall : (∀ argv ∈ (blocks.map fun b => b.forks.map Prod.fst).flatten, Terminated argv) ↔
      ∀ b ∈ blocks, ∀ f ∈ b.forks, Terminated f.1 := by
    simp only [List.forall_mem_flatten, List.forall_mem_map]
  rw [← hall, hforked, List.forall_mem_map]
  simp only [terminated_argsOf]

/-- The arrays are filled with zeros, and the ids are counted up from 100. -/
def plainEnvironment : Environment where
  fork n := 100 + n
  execvpFails _ := false
  leftover _ :=
    { pid_child := .replicate _ 0, args := .replicate _ none, tmp := .replicate _ 0 }

theorem plainEnvironment_fork (n : ℕ) : 0 < plainEnvironment.fork n := by
  change 0 < (100 : ℤ) + n
  omega

end MinixOS.ExecutionBarrier
