import MinixOS.InodeAllocation
import MinixOS.InodeRelease
import MinixOS.SystemRuns

/-!
# Runs of the inode table

The file server calls the functions of inode.c one after the other. A request carries the
environment of its call, so every answer of the functions of other files is possible at every
call. A caller names an inode of a device, and it puts or duplicates only an inode it holds. A
call that is stopped takes no step.

The relation `Effect` says once what a call can do to the view, to the marks and to the
free list. It leaves the view as it was, it reads an inode into an unused slot, it
puts back an inode with links or without, or it makes a new inode.
-/
namespace MinixOS.InodeSystem
open SystemRuns InodeState InodeCopy InodeCache WriteBackCache InodeView InodeRelease
  InodeAllocation

variable {p : Platform}

inductive Call (p : Platform) where
  | get_inode (dev : Dev) (numb : UInt32)
  | dup_inode (ip : Slot p)
  | put_inode (rip : Option (Slot p))
  | alloc_inode (dev : Dev) (bits : UInt16)
  | retrieve_inode (dev : Dev) (inumb : UInt32)
deriving DecidableEq, Repr

structure Request (p : Platform) where
  env : Environment p
  call : Call p

def execute (req : Request p) (s : State p) : Except Stop (Option (Slot p) × State p) :=
  match req.call with
  | .get_inode dev numb => .ok (getInode req.env s dev numb)
  | .dup_inode ip => .ok (none, dupInode s ip)
  | .put_inode rip => (putInode req.env s rip).map fun t => (none, t)
  | .alloc_inode dev bits => .ok (allocInode req.env s dev bits)
  | .retrieve_inode dev inumb => retrieveInode req.env s dev inumb

/-- Somebody holds the inode in this slot. -/
def Held (s : State p) (r : Slot p) : Prop :=
  (s.inode r).i_num ≠ NO_ENTRY ∧ 0 < (s.inode r).i_count

instance (s : State p) (r : Slot p) : Decidable (Held s r) := inferInstanceAs (Decidable (_ ∧ _))

/-- What a caller promises. -/
def Sound (s : State p) : Call p → Prop
  | .get_inode dev numb => dev ≠ NO_DEV ∧ numb ≠ NO_ENTRY
  | .dup_inode ip => Held s ip
  | .put_inode rip => ∀ r ∈ rip, Held s r
  | .alloc_inode dev _ => dev ≠ NO_DEV
  | .retrieve_inode dev inumb => dev ≠ NO_DEV ∧ inumb ≠ NO_ENTRY

instance (s : State p) (call : Call p) : Decidable (Sound s call) :=
  match call with
  | .get_inode _ _ => inferInstanceAs (Decidable (_ ∧ _))
  | .dup_inode ip => inferInstanceAs (Decidable (Held s ip))
  | .put_inode none => isTrue nofun
  | .put_inode (some r) => decidable_of_iff (Held s r) (by simp [Sound])
  | .alloc_inode _ _ => inferInstanceAs (Decidable (_ ≠ _))
  | .retrieve_inode _ _ => inferInstanceAs (Decidable (_ ∧ _))

def Returns (s : State p) (req : Request p) (answer : Option (Slot p)) (t : State p) : Prop :=
  Sound s req.call ∧ execute req s = .ok (answer, t)

def system (start : State p) : System (State p) (Request p) (Option (Slot p)) where
  init := start
  returns := Returns

/-- The state and the answer with which a call returns. -/
def next (req : Request p) (s : State p) : State p :=
  match execute req s with
  | .ok out => out.2
  | .error _ => s

def answered (req : Request p) (s : State p) : Option (Slot p) :=
  match execute req s with
  | .ok out => out.1
  | .error _ => none

theorem returns_next {req : Request p} {s : State p} (hsound : Sound s req.call)
    (hok : (execute req s).isOk = true) : Returns s req (answered req s) (next req s) := by
  refine ⟨hsound, ?_⟩
  unfold answered next
  cases he : execute req s with
  | ok out => rfl
  | error stop =>
      rw [he] at hok
      cases hok

/-! ## What a call can do -/

/-- No slot but this one is marked in another way. -/
def Unmarked (s t : State p) (r : Slot p) : Prop :=
  ∀ q, q ≠ r → (t.inode q).i_dirt = (s.inode q).i_dirt

/-- Nothing but users, bits and statistics is changed, and no slot becomes unused. -/
structure Kept (s t : State p) : Prop where
  view_eq : view t = view s
  dirt : ∀ q, (t.inode q).i_dirt = (s.inode q).i_dirt
  unused : ∀ q ∈ t.unused_inodes, q ∈ s.unused_inodes

/-- `get_inode` finds the inode, or has no slot for it, or reads it into an unused slot. -/
inductive Acquired (s : State p) (k : Dev × UInt32) (t : State p) : Prop
  | kept (h : Kept s t) : Acquired s k t
  | read (r : Slot p) (habsent : Absent (view s) k) (hr : r ∈ s.unused_inodes)
      (hview : view t = (view s).fetch r k) (hclean : (t.inode r).i_dirt = .IN_CLEAN)
      (hother : Unmarked s t r) (hunused : ∀ q ∈ t.unused_inodes, q ∈ s.unused_inodes) :
      Acquired s k t

/-- `put_inode` counts a user less, or releases an inode with links or one without. -/
inductive Released (env : Environment p) (s : State p) (r : Slot p) (t : State p) : Prop
  | counted (h : Kept s t) : Released env s r t
  | closed (k : Dev × UInt32) (hkey : slotKey (s.inode r) = some k)
      (hview : view t = if (s.inode r).i_dirt = .IN_DIRTY then saved env s r k else view s)
      (hclean : (t.inode r).i_dirt = .IN_CLEAN) (hother : Unmarked s t r)
      (hunused : ∀ q ∈ t.unused_inodes, q = r ∨ q ∈ s.unused_inodes) : Released env s r t
  | freed (k : Dev × UInt32) (hkey : slotKey (s.inode r) = some k)
      (hlinks : (s.inode r).i_nlinks = NO_LINK)
      (hview : view t = (if (dirtied (s.inode r)).i_dirt = .IN_DIRTY then saved env s r k
        else view s).drop r)
      (hother : Unmarked s t r) (hunused : ∀ q ∈ t.unused_inodes, q = r ∨ q ∈ s.unused_inodes) :
      Released env s r t

/-- The inode that a call acquires by its number. -/
def Call.opens : Call p → Option (Dev × UInt32)
  | .get_inode dev numb => some (dev, numb)
  | .retrieve_inode dev inumb => some (dev, inumb)
  | _ => none

/-- The call makes a new inode of this number, in this slot. -/
def Allocates (s : State p) (req : Request p) (r : Slot p) (k : Dev × UInt32) : Prop :=
  (∃ bits, req.call = .alloc_inode k.1 bits) ∧ (p.get_super k.1).s_rd_only = false ∧
    req.env.alloc_bit (s.imap k.1) (s.s_isearch k.1) = k.2 ∧ k.2 ≠ NO_BIT ∧
    s.unused_inodes.head? = some r

inductive Effect (s : State p) (req : Request p) (t : State p) : Prop
  | kept (hnot : ∀ r k, ¬ Allocates s req r k) (h : Kept s t) : Effect s req t
  | opened (k : Dev × UInt32) (hopens : req.call.opens = some k) (h : Acquired s k t) :
      Effect s req t
  | put (r : Slot p) (hputs : req.call = .put_inode (some r)) (h : Released req.env s r t) :
      Effect s req t
  | made (r : Slot p) (k : Dev × UInt32) (rip : Inode p) (hmakes : Allocates s req r k)
      (hview : view t = (view s).occupy r k (encode k.1 rip))
      (hzone : rip.i_zone = Vector.replicate _ NO_ZONE) (hdirty : (t.inode r).i_dirt = .IN_DIRTY)
      (hother : Unmarked s t r)
      (hunused : ∀ q ∈ t.unused_inodes, q ≠ r ∧ q ∈ s.unused_inodes) : Effect s req t

variable {s t u : State p} {env : Environment p} {r : Slot p} {dev : Dev} {numb : UInt32}
  {k : Dev × UInt32}

/-- The view depends on the inodes and the blocks. -/
theorem Kept.of_eq (hinode : t.inode = s.inode) (hblocks : t.blocks = s.blocks)
    (hunused : t.unused_inodes = s.unused_inodes) : Kept s t := by
  constructor
  · exact view_congr (fun q => by rw [hinode]) (fun q => by rw [hinode]) hblocks
  · exact fun q => by rw [hinode]
  · exact fun q hq => hunused ▸ hq

theorem Kept.trans (h : Kept s t) (h' : Kept t u) : Kept s u := by
  constructor
  · rw [h'.view_eq, h.view_eq]
  · intro q
    rw [h'.dirt, h.dirt]
  · exact fun q hq => h.unused q (h'.unused q hq)

/-- What is changed of one inode is not on disk. -/
theorem Kept.setCount (s : State p) (r : Slot p) (i_count : ℕ) :
    Kept s (s.modify r (setCount i_count)) := by
  constructor
  · exact view_setCount s r i_count
  · intro q
    rw [inode_modify]
    split_ifs with hq
    · rw [hq]
      rfl
    · rfl
  · exact fun _ hq => hq

theorem Kept.found (hl : Linked s) (r : Slot p) : Kept s (found s r) := by
  constructor
  · exact view_found s r
  · intro q
    rw [found_inode]
    split_ifs with hq
    · rw [hq]
      rfl
    · rfl
  · intro q hq
    rw [found_unused] at hq
    split_ifs at hq
    · exact (hl.unused_nodup.mem_erase_iff.mp hq).2
    · exact hq

/-- What comes before a call of `get_inode` may be left out of account. -/
theorem Acquired.of_kept (hkept : Kept s t) (h : Acquired t k u) : Acquired s k u := by
  cases h with
  | kept h => exact .kept (hkept.trans h)
  | read r habsent hr hview hclean hother hunused =>
      rw [hkept.view_eq] at habsent hview
      refine .read r habsent (hkept.unused r hr) hview hclean ?_ ?_
      · intro q hq
        rw [hother q hq, hkept.dirt]
      · exact fun q hq => hkept.unused q (hunused q hq)

/-- What comes after it as well. -/
theorem Acquired.then_kept (h : Acquired s k t) (hkept : Kept t u) : Acquired s k u := by
  cases h with
  | kept h => exact .kept (h.trans hkept)
  | read r habsent hr hview hclean hother hunused =>
      refine .read r habsent hr ?_ ?_ ?_ ?_
      · rw [hkept.view_eq, hview]
      · rw [hkept.dirt, hclean]
      · intro q hq
        rw [hkept.dirt, hother q hq]
      · exact fun q hq => hunused q (hkept.unused q hq)

/-! ## get_inode and put_inode -/

theorem acquired_loaded (hp : Conversions p) (hl : Linked s) (hdev : dev ≠ NO_DEV)
    (hnumb : numb ≠ NO_ENTRY) (habsent : Absent (view s) (dev, numb))
    (hr : s.unused_inodes.head? = some r) : Acquired s (dev, numb) (loaded s r dev numb) := by
  refine .read r habsent (List.mem_of_mem_head? hr) (view_loaded hp s r hdev hnumb) ?_ ?_ ?_
  · rw [loaded_inode, if_pos rfl]
    unfold loadInode
    rw [if_pos hdev]
    rfl
  · intro q hq
    rw [loaded_inode, if_neg hq]
  · exact fun q hq => (hl.unused_nodup.mem_erase_iff.mp hq).2

theorem getInode_acquired (hp : Conversions p) (hl : Linked s) (hdev : dev ≠ NO_DEV)
    (hnumb : numb ≠ NO_ENTRY) (env : Environment p) :
    Acquired s (dev, numb) (getInode env s dev numb).2 ∧ Linked (getInode env s dev numb).2 := by
  rcases getInode_cases hl env dev numb with ⟨r, hkey, h⟩ | ⟨_, _, h⟩ | ⟨habsent, r, hr, h⟩
  · rw [h]
    exact ⟨.kept (.found hl r), hl.found (slotKey_eq_some.mp hkey).1⟩
  · rw [h]
    exact ⟨.kept (.of_eq rfl rfl rfl), hl.of_eq rfl rfl rfl⟩
  · rw [h]
    exact ⟨acquired_loaded hp hl hdev hnumb habsent hr, hl.loaded r hdev hnumb⟩

theorem linked_setCount (hl : Linked s) (hnum : (s.inode r).i_num ≠ NO_ENTRY)
    (hcount : 0 < (s.inode r).i_count) {i_count : ℕ} (hpos : 0 < i_count) :
    Linked (s.modify r (setCount i_count)) := by
  have hr := hl.notMem_unused hnum hcount
  have hlinks : ∀ q, ((s.modify r (setCount i_count)).inode q).i_num = (s.inode q).i_num ∧
      ((s.modify r (setCount i_count)).inode q).i_dev = (s.inode q).i_dev ∧
      ((s.modify r (setCount i_count)).inode q).i_sp = (s.inode q).i_sp := by
    intro q
    rw [inode_modify]
    split_ifs with hq
    · rw [hq]
      exact ⟨rfl, rfl, rfl⟩
    · exact ⟨rfl, rfl, rfl⟩
  constructor
  · intro hashi q
    rw [(hlinks q).1]
    exact hl.hashed hashi q
  · exact hl.hash_nodup
  · exact hl.unused_nodup
  · intro q hq
    rw [(hlinks q).1, inode_modify]
    split_ifs with he
    · rw [he]
      exact ⟨hnum, hpos⟩
    · exact hl.busy q hq
  · intro q hq
    have he : q ≠ r := fun he => hr (he ▸ hq)
    rw [inode_modify_of_ne _ _ he]
    exact hl.idle q hq
  · intro q
    rw [(hlinks q).1, (hlinks q).2.1, (hlinks q).2.2]
    exact hl.attached q

theorem released_unused (env : Environment p) (s : State p) (r : Slot p) :
    ∀ q ∈ (released env s r).unused_inodes, q = r ∨ q ∈ s.unused_inodes := by
  have hself : (s.modify r (setCount 0)).inode r = setCount 0 (s.inode r) := inode_modify_self s r _
  intro q hq
  unfold released at hq
  by_cases hlinks : (s.inode r).i_nlinks = NO_LINK
  · rw [releaseInode_freed env (by rw [hself]; exact hlinks)] at hq
    exact List.mem_cons.mp hq
  · rw [releaseInode_kept env (by rw [hself]; exact hlinks)] at hq
    rcases List.mem_append.mp hq with hmem | hmem
    · right
      exact hmem
    · left
      exact List.mem_singleton.mp hmem

theorem released_released (hp : InodesPerBlock p) (env : Environment p)
    (hnum : (s.inode r).i_num ≠ NO_ENTRY) : Released env s r (released env s r) := by
  have hkey : slotKey (s.inode r) = some ((s.inode r).i_dev, (s.inode r).i_num) :=
    slotKey_eq_some.mpr ⟨hnum, rfl, rfl⟩
  have hother : Unmarked s (released env s r) r := by
    intro q hq
    rw [released_other env s hq]
  by_cases hlinks : (s.inode r).i_nlinks = NO_LINK
  · exact .freed _ hkey hlinks (view_released_freed hp env hkey hlinks) hother
      (released_unused env s r)
  · have hclean : ((released env s r).inode r).i_dirt = .IN_CLEAN := by
      rw [released_kept_inode env hlinks, writtenInode_fields]
    exact .closed _ hkey (view_released_kept hp env hkey hlinks) hclean hother
      (released_unused env s r)

/-- An inode that is held is put without a panic. -/
theorem putInode_released (hp : InodesPerBlock p) (hl : Linked s) (hheld : Held s r)
    (env : Environment p) :
    ∃ t, putInode env s (some r) = .ok t ∧ Released env s r t ∧ Linked t := by
  obtain ⟨hnum, hcount⟩ := hheld
  rcases putInode_cases env s r with ⟨hzero, _⟩ | ⟨hone, h⟩ | ⟨hmany, h⟩
  · omega
  · exact ⟨_, h, released_released hp env hnum, linked_released hl env hnum hone⟩
  · exact ⟨_, h, .counted (.setCount s r _), linked_setCount hl hnum hcount (by omega)⟩

/-! ## alloc_inode and retrieve_inode -/

theorem allocInode_effect (hl : Linked s) (env : Environment p) (hdev : dev ≠ NO_DEV)
    (bits : UInt16) :
    Effect s ⟨env, .alloc_inode dev bits⟩ (allocInode env s dev bits).2 ∧
      Linked (allocInode env s dev bits).2 := by
  have hkeep : ∀ t : State p, t.inode = s.inode → t.blocks = s.blocks →
      t.unused_inodes = s.unused_inodes → t.hash_inodes = s.hash_inodes →
      (∀ r k, ¬ Allocates s ⟨env, .alloc_inode dev bits⟩ r k) →
      Effect s ⟨env, .alloc_inode dev bits⟩ t ∧ Linked t := by
    intro t hinode hblocks hunused hhash hnot
    refine ⟨.kept hnot (.of_eq hinode hblocks hunused), hl.congr hunused hhash ?_⟩
    intro q
    rw [hinode]
    exact ⟨rfl, rfl, rfl, rfl⟩
  have hmakes : ∀ {r k}, Allocates s ⟨env, .alloc_inode dev bits⟩ r k → dev = k.1 := by
    rintro r k ⟨⟨b, hcall⟩, _⟩
    injection hcall
  have hanswer : env.alloc_bit (s.imap dev) (s.s_isearch dev) = _ := rfl
  rcases allocInode_cases hl bits hanswer with
    ⟨hro, h⟩ | ⟨hrw, hb, h⟩ | ⟨hrw, hb, hunused, h⟩ | ⟨hrw, hb, r, hr, h⟩
  · rw [h]
    refine hkeep _ rfl rfl rfl rfl fun r k hmade => ?_
    have hrw := hmade.2.1
    rw [← hmakes hmade, hro] at hrw
    cases hrw
  · rw [h]
    refine hkeep _ rfl rfl rfl rfl fun r k hmade => ?_
    obtain ⟨_, _, hanswer, hne, _⟩ := id hmade
    rw [← hmakes hmade, hb] at hanswer
    exact hne hanswer.symm
  · rw [h, withdrawn_eq]
    refine hkeep _ rfl rfl rfl rfl fun r k hmade => ?_
    have hhead := hmade.2.2.2.2
    rw [hunused] at hhead
    cases hhead
  · rw [h]
    have hinode := allocated_inode env s r r dev bits (env.alloc_bit (s.imap dev) (s.s_isearch dev))
    rw [if_pos rfl] at hinode
    have hfields := newInode_fields env s r bits
      (env.alloc_bit (s.imap dev) (s.s_isearch dev)) hrw
    refine ⟨.made r (dev, env.alloc_bit (s.imap dev) (s.s_isearch dev)) _
      ⟨⟨bits, rfl⟩, hrw, rfl, hb, hr⟩ (view_allocated env s r bits hrw hb)
      hfields.2.2.2.2.2.2 ?_ ?_ ?_, linked_allocated hl env r bits hrw hdev hb⟩
    · rw [hinode]
      exact hfields.2.2.2.2.2.1
    · intro q hq
      rw [allocated_inode, if_neg hq]
    · intro q hq
      obtain ⟨log, heq⟩ := allocated_eq env s r dev bits
        (env.alloc_bit (s.imap dev) (s.s_isearch dev))
      rw [heq] at hq
      exact hl.unused_nodup.mem_erase_iff.mp hq

theorem retrieveInode_acquired (hp : Conversions p) (hl : Linked s) (hdev : dev ≠ NO_DEV)
    (hnumb : numb ≠ NO_ENTRY) {answer : Option (Slot p)}
    (h : retrieveInode env s dev numb = .ok (answer, t)) :
    Acquired s (dev, numb) t ∧ Linked t := by
  have hclaimed : Kept s (claimed env s dev numb) := by
    apply Kept.of_eq
    · rw [claimed_eq]
    · rw [claimed_eq]
    · rw [claimed_eq]
  obtain ⟨hacquired, hlinked⟩ := getInode_acquired hp (linked_claimed hl env dev numb) hdev hnumb env
  have hstart := hacquired.of_kept hclaimed
  cases hget : getInode env (claimed env s dev numb) dev numb with
  | mk rip u =>
      rw [hget] at hstart hlinked
      cases rip with
      | none =>
          rw [retrieveInode_none hget] at h
          split_ifs at h
          cases h
          exact ⟨hstart.then_kept (.of_eq rfl rfl rfl),
            hlinked.of_eq rfl rfl rfl⟩
      | some r =>
          obtain ⟨log, hsome⟩ := retrieveInode_some hget
          rw [hsome] at h
          cases h
          exact ⟨hstart.then_kept (.of_eq rfl rfl rfl),
            hlinked.of_eq rfl rfl rfl⟩

/-! ## Every call -/

theorem Returns.effect (hp : Conversions p) (hb : InodesPerBlock p) (hl : Linked s)
    {req : Request p} {answer : Option (Slot p)} (h : Returns s req answer t) :
    Effect s req t ∧ Linked t := by
  obtain ⟨env, call⟩ := req
  obtain ⟨hsound, h⟩ := h
  have hnot : (∀ dev bits, call ≠ .alloc_inode dev bits) → ∀ r k, ¬ Allocates s ⟨env, call⟩ r k :=
    fun hne r k hmade => hne k.1 _ hmade.1.choose_spec
  unfold execute at h
  cases call with
  | get_inode dev numb =>
      obtain ⟨hacquired, hlinked⟩ := getInode_acquired hp hl hsound.1 hsound.2 env
      have hout := Except.ok.inj h
      simp only at hout
      rw [hout] at hacquired hlinked
      exact ⟨.opened (dev, numb) rfl hacquired, hlinked⟩
  | dup_inode ip =>
      cases h
      exact ⟨.kept (hnot nofun) (.setCount s ip _),
        linked_setCount hl hsound.1 hsound.2 (Nat.succ_pos _)⟩
  | put_inode rip =>
      cases rip with
      | none =>
          cases h
          exact ⟨.kept (hnot nofun) (.of_eq rfl rfl rfl), hl⟩
      | some r =>
          obtain ⟨u, hput, hreleased, hlinked⟩ := putInode_released hb hl (hsound r rfl) env
          simp only [hput] at h
          cases h
          exact ⟨.put r rfl hreleased, hlinked⟩
  | alloc_inode dev bits =>
      obtain ⟨heffect, hlinked⟩ := allocInode_effect hl env hsound bits
      have hout := Except.ok.inj h
      simp only at hout
      rw [hout] at heffect hlinked
      exact ⟨heffect, hlinked⟩
  | retrieve_inode dev inumb =>
      obtain ⟨hacquired, hlinked⟩ := retrieveInode_acquired hp hl hsound.1 hsound.2 h
      exact ⟨.opened (dev, inumb) rfl hacquired, hlinked⟩

theorem linked_of_run (hp : Conversions p) (hb : InodesPerBlock p) (hl : Linked s)
    {history : List (Step (State p) (Request p) (Option (Slot p)))}
    (h : Run (system s) history t) : Linked t := by
  apply h.invariant hl
  intro s req answer t hs hcall
  exact (Returns.effect hp hb hs hcall).2

/-! ## The zone map -/

theorem zmap_getInode (hl : Linked s) (env : Environment p) (dev : Dev) (numb : UInt32) :
    (getInode env s dev numb).2.zmap = s.zmap := by
  rcases getInode_cases hl env dev numb with ⟨r, _, h⟩ | ⟨_, _, h⟩ | ⟨_, r, _, h⟩
  · rw [h]
    unfold found
    split_ifs
    · rfl
    · rfl
  · rw [h]
    rfl
  · rw [h]
    rfl

theorem zmap_written (env : Environment p) (s : State p) (r : Slot p) :
    (written env s r).zmap = s.zmap := by
  rw [written_eq]

theorem zmap_released (env : Environment p) (s : State p) (r : Slot p) :
    (released env s r).zmap = s.zmap := by
  have hself : (s.modify r (setCount 0)).inode r = setCount 0 (s.inode r) := inode_modify_self s r _
  unfold released
  by_cases hlinks : (s.inode r).i_nlinks = NO_LINK
  · rw [releaseInode_freed env (by rw [hself]; exact hlinks)]
    change (written env _ r).zmap = s.zmap
    obtain ⟨log, hdirty⟩ := markDirty_eq (s.modify r (setCount 0)) r
    rw [zmap_written, unlinked, freeInode_eq, hdirty]
    rfl
  · rw [releaseInode_kept env (by rw [hself]; exact hlinks)]
    exact zmap_written env _ r

theorem zmap_allocInode (hl : Linked s) (env : Environment p) (dev : Dev) (bits : UInt16) :
    (allocInode env s dev bits).2.zmap = s.zmap := by
  have hanswer : env.alloc_bit (s.imap dev) (s.s_isearch dev) = _ := rfl
  rcases allocInode_cases hl bits hanswer with
    ⟨_, h⟩ | ⟨_, _, h⟩ | ⟨_, _, _, h⟩ | ⟨_, _, r, _, h⟩
  · rw [h]
    rfl
  · rw [h]
    rfl
  · rw [h, withdrawn_eq]
  · obtain ⟨log, heq⟩ := allocated_eq env s r dev bits
      (env.alloc_bit (s.imap dev) (s.s_isearch dev))
    rw [h, heq]
    rfl

/-- No call gives a zone back. -/
theorem Returns.zmap (hl : Linked s) {req : Request p} {answer : Option (Slot p)}
    (h : Returns s req answer t) : t.zmap = s.zmap := by
  obtain ⟨env, call⟩ := req
  obtain ⟨_, h⟩ := h
  unfold execute at h
  cases call with
  | get_inode dev numb =>
      rw [← zmap_getInode hl env dev numb, congrArg Prod.snd (Except.ok.inj h)]
  | dup_inode ip =>
      cases h
      rfl
  | put_inode rip =>
      cases rip with
      | none =>
          cases h
          rfl
      | some r =>
          rcases putInode_cases env s r with ⟨_, stop, hput⟩ | ⟨_, hput⟩ | ⟨_, hput⟩
          · simp only [hput] at h
            cases h
          · simp only [hput] at h
            cases h
            exact zmap_released env s r
          · simp only [hput] at h
            cases h
            rfl
  | alloc_inode dev bits =>
      have hout : (allocInode env s dev bits).2 = t := congrArg Prod.snd (Except.ok.inj h)
      rw [← hout]
      exact zmap_allocInode hl env dev bits
  | retrieve_inode dev inumb =>
      have hclaimed : (claimed env s dev inumb).zmap = s.zmap := by
        rw [claimed_eq]
      have hzmap := zmap_getInode (linked_claimed hl env dev inumb) env dev inumb
      cases hget : getInode env (claimed env s dev inumb) dev inumb with
      | mk rip u =>
          rw [hget, hclaimed] at hzmap
          cases rip with
          | none =>
              simp only [retrieveInode_none hget] at h
              split_ifs at h
              cases h
              exact hzmap
          | some r =>
              obtain ⟨log, hsome⟩ := retrieveInode_some hget
              simp only [hsome] at h
              cases h
              exact hzmap

/-! ## Unused inodes -/

def Dirty (s : State p) (r : Slot p) : Prop := (s.inode r).i_dirt = .IN_DIRTY

theorem Unmarked.dirty (h : Unmarked s t r) (q : Slot p) (hq : q ≠ r) : Dirty t q ↔ Dirty s q := by
  unfold Dirty
  rw [h q hq]

theorem Kept.dirty (h : Kept s t) (q : Slot p) : Dirty t q ↔ Dirty s q := by
  unfold Dirty
  rw [h.dirt]

theorem not_dirty_of_clean (h : (s.inode r).i_dirt = .IN_CLEAN) : ¬ Dirty s r := by
  unfold Dirty
  rw [h]
  exact nofun

/-- An inode that nobody uses is not dirty. -/
def Idle (s : State p) : Prop :=
  ∀ r ∈ s.unused_inodes, ∀ k, (view s).key r = some k → (s.inode r).i_dirt = .IN_CLEAN

theorem Idle.not_dirty (h : Idle s) (hr : r ∈ s.unused_inodes) (k : Dev × UInt32)
    (hkey : (view s).key r = some k) : ¬ Dirty s r :=
  not_dirty_of_clean (h r hr k hkey)

theorem Idle.kept (h : Idle s) (hkept : Kept s t) : Idle t := by
  intro q hq k hkey
  rw [hkept.view_eq] at hkey
  rw [hkept.dirt]
  exact h q (hkept.unused q hq) k hkey

theorem Idle.acquired (h : Idle s) (ha : Acquired s k t) : Idle t := by
  cases ha with
  | kept hkept => exact h.kept hkept
  | read r habsent hr hview hclean hother hunused =>
      intro q hq l hkey
      by_cases he : q = r
      · rw [he]
        exact hclean
      · rw [hview, View.fetch, key_occupy, if_neg he] at hkey
        rw [hother q he]
        exact h q (hunused q hq) l hkey

theorem Idle.released (h : Idle s) (hr : Released env s r t) : Idle t := by
  cases hr with
  | counted hkept => exact h.kept hkept
  | closed k hkeyr hview hclean hother hunused =>
      intro q hq l hkey
      by_cases he : q = r
      · rw [he]
        exact hclean
      · have hsame : (view t).key q = (view s).key q := by
          rw [hview]
          split_ifs
          · rfl
          · rfl
        rw [hsame] at hkey
        rw [hother q he]
        exact h q ((hunused q hq).resolve_left he) l hkey
  | freed k hkeyr hlinks hview hother hunused =>
      intro q hq l hkey
      rw [hview, key_drop] at hkey
      split_ifs at hkey with he
      · rw [hother q he]
        exact h q ((hunused q hq).resolve_left he) l hkey
      · rw [hother q he]
        exact h q ((hunused q hq).resolve_left he) l hkey

theorem Effect.idle {req : Request p} (h : Idle s) (he : Effect s req t) : Idle t := by
  cases he with
  | kept hnot hkept => exact h.kept hkept
  | opened k hopens ha => exact h.acquired ha
  | put r hputs hr => exact h.released hr
  | made r k rip hmakes hview hzone hdirty hother hunused =>
      intro q hq l hkey
      obtain ⟨hne, hmem⟩ := hunused q hq
      rw [hview, key_occupy, if_neg hne] at hkey
      rw [hother q hne]
      exact h q hmem l hkey

theorem idle_initInodeCache (s : State p) : Idle (initInodeCache s) := fun _ _ _ hkey => nomatch hkey

/-! ## A small file system -/

/-- The bytes in the other order. -/
def swap2 (w : UInt16) : UInt16 := UInt16.ofNat (w.toNat % 256 * 256 + w.toNat / 256)

def swap4 (x : UInt32) : UInt32 :=
  UInt32.ofNat (x.toNat % 256 * 16777216 + x.toNat / 256 % 256 * 65536 +
    x.toNat / 65536 % 256 * 256 + x.toNat / 16777216)

theorem toNat_swap2 (w : UInt16) : (swap2 w).toNat = w.toNat % 256 * 256 + w.toNat / 256 := by
  have hw := w.toNat_lt
  have hsize : w.toNat % 256 * 256 + w.toNat / 256 < 65536 := by omega
  exact UInt16.toNat_ofNat_of_lt hsize

theorem swap2_swap2 (w : UInt16) : swap2 (swap2 w) = w := by
  have hw := w.toNat_lt
  apply UInt16.toNat_inj.mp
  rw [toNat_swap2, toNat_swap2]
  omega

theorem bytes_eq {a b c d x : ℕ} (hb : b < 256) (hc : c < 256) (hd : d < 256)
    (hx : x = a * 16777216 + b * 65536 + c * 256 + d) :
    x % 256 = d ∧ x / 256 % 256 = c ∧ x / 65536 % 256 = b ∧ x / 16777216 = a := by
  constructor
  · omega
  · omega

theorem toNat_swap4 (x : UInt32) :
    (swap4 x).toNat = x.toNat % 256 * 16777216 + x.toNat / 256 % 256 * 65536 +
      x.toNat / 65536 % 256 * 256 + x.toNat / 16777216 := by
  have hx := x.toNat_lt
  have hsize : x.toNat % 256 * 16777216 + x.toNat / 256 % 256 * 65536 +
      x.toNat / 65536 % 256 * 256 + x.toNat / 16777216 < 4294967296 := by omega
  exact UInt32.toNat_ofNat_of_lt hsize

theorem swap4_swap4 (x : UInt32) : swap4 (swap4 x) = x := by
  have hx := x.toNat_lt
  apply UInt32.toNat_inj.mp
  obtain ⟨hfirst, hsecond, hthird, hfourth⟩ :=
    bytes_eq (by omega) (by omega) (by omega) (toNat_swap4 x)
  rw [toNat_swap4, hfirst, hsecond, hthird, hfourth]
  omega

/-- A table of two slots, and eight inodes on each device. -/
def small : Platform where
  NR_INODES := 2
  INODE_HASH_MASK := 127
  V1_NR_DZONES := 7
  V1_INDIRECTS := 512
  V1_NR_TZONES := 9
  V1_INODES_PER_BLOCK := 32
  V2_NR_DZONES := 7
  V2_INDIRECTS block_size := block_size / 4
  V2_NR_TZONES := 10
  V2_INODES_PER_BLOCK block_size := block_size / 64
  zones_le := by decide
  START_BLOCK := 2
  LINK_MAX := 32767
  SU_UID := 0
  I_TYPE := 0xF000
  I_DIRECTORY := 0x4000
  conv2 norm w := if norm then w else swap2 w
  conv4 norm x := if norm then x else swap4 x
  get_super _ :=
    { s_ninodes := 8, s_imap_blocks := 1, s_zmap_blocks := 1, s_inodes_per_block := 64,
      s_rd_only := false, s_native := true, s_version := .V3, s_ndzones := 7, s_nindirs := 1024,
      s_block_size := 4096 }

theorem conversions_small : Conversions small := by
  constructor
  · intro norm w
    cases norm with
    | true => rfl
    | false => exact swap2_swap2 w
  · intro norm x
    cases norm with
    | true => rfl
    | false => exact swap4_swap4 x

theorem inodesPerBlock_small : InodesPerBlock small := by
  intro dev
  change (64 : UInt32) = if Version.V3 = .V1 then 32 else 4096 / 64
  decide

def slot0 : Slot small := ⟨0, by decide⟩

def slot1 : Slot small := ⟨1, by decide⟩

/-- The lowest number whose bit is clear. -/
def lowestClear (map : UInt32 → Bool) (_origin : UInt32) : UInt32 :=
  ([1, 2, 3, 4, 5, 6, 7, 8].find? fun b => !map b).getD NO_BIT

def touched (dirp : Inode small) : Inode small :=
  { dirp with i_dirt := .IN_DIRTY, i_update := ⟨dirp.i_update.ATIME, true, true⟩ }

/-- The entries of a directory in the order of their making. -/
def searchEntries (entries : Directory) (name : Name) (numb : Option UInt32) (flag : Flag) :
    Searched small :=
  match flag, entries.find? fun e => e.1 = name ∧ e.2 ≠ NO_ENTRY with
  | .LOOK_UP, none => ⟨.ENOENT, NO_ENTRY, entries, id, false⟩
  | .LOOK_UP, some e => ⟨.OK, e.2, entries, id, false⟩
  | .ENTER, _ => ⟨.OK, NO_ENTRY, entries ++ [(name, numb.getD NO_ENTRY)], touched, false⟩
  | .DELETE, none => ⟨.ENOENT, NO_ENTRY, entries, id, false⟩
  | .DELETE, some e => ⟨.OK, NO_ENTRY, entries.erase e, touched, false⟩
  | .IS_EMPTY, _ => ⟨if entries = [] then .OK else .other (-66), NO_ENTRY, entries, id, false⟩

def findEntry (entries : Directory) (name : Name) : Found :=
  match entries.find? fun e => e.1 = name ∧ e.2 ≠ NO_ENTRY with
  | some e => .entry e.2 .OK
  | none => .missing .ENOENT

def smallEnvironment : Environment small where
  caller_uid := 8
  caller_gid := 3
  clock_time := 1000
  alloc_bit := lowestClear
  free_bit map b := Function.update map b false
  search_dir := searchEntries
  advance := findEntry

def noInode : D2Inode small where
  d2_mode := 0
  d2_nlinks := 0
  d2_uid := 0
  d2_gid := 0
  d2_size := 0
  d2_atime := 0
  d2_mtime := 0
  d2_ctime := 0
  d2_zone := Vector.replicate _ 0

/-- A regular file without links, with one zone. -/
def oldFile : D2Inode small :=
  { noInode with
    d2_mode := 0x81A4
    d2_uid := 8
    d2_gid := 3
    d2_size := 4096
    d2_zone := (Vector.replicate _ 0).set 0 5 }

def rootDirectory : D2Inode small :=
  { noInode with
    d2_mode := 0x41ED
    d2_nlinks := 2
    d2_size := 128
    d2_zone := (Vector.replicate _ 0).set 0 4 }

def emptySlot : Inode small where
  i_mode := 0
  i_nlinks := 0
  i_uid := 0
  i_gid := 0
  i_size := 0
  i_atime := 0
  i_mtime := 0
  i_ctime := 0
  i_zone := Vector.replicate _ 0
  i_dev := 0
  i_num := 0
  i_count := 0
  i_ndzones := 0
  i_nindirs := 0
  i_sp := 0
  i_dirt := .IN_CLEAN
  i_zsearch := 0
  i_last_dpos := 0
  i_mountpoint := false
  i_update := .none

/-- Inode 1 of every device is the root directory, and inode 2 a deleted file. -/
def mounted : State small :=
  initInodeCache
    { inode := fun _ => emptySlot
      unused_inodes := []
      hash_inodes := fun _ => []
      inode_cache_hit := 0
      inode_cache_miss := 0
      err_code := .OK
      s_isearch := fun _ => 0
      imap := fun _ b => b ≤ 1
      zmap := fun _ z => z = 4 ∨ z = 5
      blocks := fun _ _ =>
        { b_v1_ino := fun _ => ⟨0, 0, 0, 0, 0, 0, Vector.replicate _ 0⟩
          b_v2_ino := fun i =>
            if i = 0 then rootDirectory else if i = 1 then oldFile else noInode }
      directories := fun _ _ => []
      log := [] }

/-- `alloc_bit` answers with the number of a bit that was clear, or there is none. -/
structure FindsClear (env : Environment p) (s : State p) (dev : Dev) : Prop where
  clear : ∀ origin, env.alloc_bit (s.imap dev) origin ≠ NO_BIT →
    s.imap dev (env.alloc_bit (s.imap dev) origin) = false
  none_clear : ∀ origin, env.alloc_bit (s.imap dev) origin = NO_BIT →
    ∀ b, b ≠ NO_BIT → b ≤ (p.get_super dev).s_ninodes → s.imap dev b = true

/-- Inodes in use are acquired, deleted ones are recovered, and `alloc_bit` sets a clear bit. -/
def Allowed (e : Step (State p) (Request p) (Option (Slot p))) : Prop :=
  match e.call.call with
  | .get_inode dev numb => e.before.imap dev numb = true
  | .alloc_inode dev _ => FindsClear e.call.env e.before dev
  | .retrieve_inode dev inumb =>
      e.before.imap dev inumb = false ∧ FindsClear e.call.env e.before dev
  | _ => True

theorem findsClear_small (s : State small) (dev : Dev) :
    FindsClear smallEnvironment s dev := by
  have hsmall : ∀ b : UInt32, b ≠ NO_BIT → b ≤ 8 → b ∈ [1, 2, 3, 4, 5, 6, 7, 8] := by
    intro b hb hle
    have hpos : b.toNat ≠ 0 := fun hzero => hb (UInt32.toNat_inj.mp hzero)
    have hbound : b.toNat ≤ 8 := hle
    have hcases : b.toNat ∈ [1, 2, 3, 4, 5, 6, 7, 8] := by
      simp only [List.mem_cons, List.not_mem_nil, or_false]
      omega
    have hmem := List.mem_map_of_mem hcases (f := UInt32.ofNat)
    rw [UInt32.ofNat_toNat] at hmem
    exact hmem
  constructor
  · intro origin hanswer
    change lowestClear (s.imap dev) origin ≠ NO_BIT at hanswer
    change s.imap dev (lowestClear (s.imap dev) origin) = false
    unfold lowestClear at hanswer ⊢
    cases hfind : [1, 2, 3, 4, 5, 6, 7, 8].find? fun b => !s.imap dev b with
    | none =>
        rw [hfind] at hanswer
        exact absurd rfl hanswer
    | some b => simpa using List.find?_some hfind
  · intro origin hanswer b hb hle
    change lowestClear (s.imap dev) origin = NO_BIT at hanswer
    unfold lowestClear at hanswer
    cases hfind : [1, 2, 3, 4, 5, 6, 7, 8].find? fun b => !s.imap dev b with
    | none => simpa using List.find?_eq_none.mp hfind b (hsmall b hb hle)
    | some c =>
        rw [hfind] at hanswer
        have hmem := List.mem_of_find?_eq_some hfind
        rw [Option.getD_some] at hanswer
        rw [hanswer] at hmem
        exact absurd hmem (by decide)

theorem linked_mounted : Linked mounted := linked_initInodeCache _

def newFile : Request small := ⟨smallEnvironment, .alloc_inode 1 0x81A4⟩

end MinixOS.InodeSystem
