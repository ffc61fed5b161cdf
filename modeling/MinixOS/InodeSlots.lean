import MinixOS.InodeSystem

/-!
# One slot for an inode

No two slots of the table hold the same inode as long as a new inode never gets a number that
another slot holds. The bit map does not prevent that: `retrieve_inode` acquires the inode
it was asked for and sets whichever bit `alloc_bit` answers, so a number may be in
the table while its bit is clear.
-/
namespace MinixOS.InodeSlots
open SystemRuns InodeState InodeCopy InodeCache WriteBackCache InodeView InodeRelease
  InodeAllocation InodeSystem

variable {p : Platform} {s t : State p} {r : Slot p}

def Hashed (s : State p) (r : Slot p) : Prop := ∃ hashi, r ∈ s.hash_inodes hashi

/-- No two hashed slots hold the same inode. -/
def OneSlot (s : State p) : Prop :=
  ∀ q r, Hashed s q → Hashed s r → (s.inode q).i_num ≠ NO_ENTRY →
    (s.inode q).i_dev = (s.inode r).i_dev → (s.inode q).i_num = (s.inode r).i_num → q = r

theorem hashed_iff (hl : Linked s) : Hashed s r ↔ (s.inode r).i_num ≠ NO_ENTRY := by
  constructor
  · rintro ⟨hashi, hmem⟩
    exact ((hl.hashed hashi r).mp hmem).1
  · intro hnum
    exact ⟨hashIndex p (s.inode r).i_num, (hl.hashed _ r).mpr ⟨hnum, rfl⟩⟩

theorem oneSlot_iff (hl : Linked s) : OneSlot s ↔ Single (view s) := by
  constructor
  · rintro h q r ⟨dev, numb⟩ hq hr
    obtain ⟨hqnum, hqdev, hqnumb⟩ := slotKey_eq_some.mp hq
    obtain ⟨hrnum, hrdev, hrnumb⟩ := slotKey_eq_some.mp hr
    exact h q r ((hashed_iff hl).mpr hqnum) ((hashed_iff hl).mpr hrnum) hqnum
      (hqdev.trans hrdev.symm) (hqnumb.trans hrnumb.symm)
  · intro h q r _ _ hnum hdev hnumb
    have hq : slotKey (s.inode q) = some ((s.inode r).i_dev, (s.inode r).i_num) :=
      slotKey_eq_some.mpr ⟨hnum, hdev, hnumb⟩
    have hr : slotKey (s.inode r) = some ((s.inode r).i_dev, (s.inode r).i_num) :=
      slotKey_eq_some.mpr ⟨hnumb ▸ hnum, rfl, rfl⟩
    exact h hq hr

/-! ## What a call does to the keys -/

theorem single_saved (env : Environment p) (k : Dev × UInt32) (h : Single (view s)) :
    Single (saved env s r k) := h

theorem single_acquired {k : Dev × UInt32} (h : Single (view s)) (ha : Acquired s k t) :
    Single (view t) := by
  cases ha with
  | kept hkept =>
      rw [hkept.view_eq]
      exact h
  | read r habsent hr hview hclean hother hunused =>
      rw [hview]
      exact h.occupy habsent

theorem single_released {env : Environment p} (h : Single (view s)) (hr : Released env s r t) :
    Single (view t) := by
  cases hr with
  | counted hkept =>
      rw [hkept.view_eq]
      exact h
  | closed k hkey hview hclean hother hunused =>
      rw [hview]
      split_ifs
      · exact single_saved env k h
      · exact h
  | freed k hkey hlinks hview hother hunused =>
      rw [hview]
      apply Single.drop
      split_ifs
      · exact single_saved env k h
      · exact h

/-- The number of the new inode is held by another slot than the one it gets. -/
def Collides (e : Step (State p) (Request p) (Option (Slot p))) : Prop :=
  ∃ r k, Allocates e.before e.call r k ∧ ∃ q, q ≠ r ∧ slotKey (e.before.inode q) = some k

theorem Allocates.unique {req : Request p} {q r : Slot p} {k l : Dev × UInt32}
    (h : Allocates s req q k) (h' : Allocates s req r l) : q = r ∧ k = l := by
  obtain ⟨⟨bits, hcall⟩, _, hanswer, _, hhead⟩ := h
  obtain ⟨⟨bits', hcall'⟩, _, hanswer', _, hhead'⟩ := h'
  rw [hcall] at hcall'
  injection hcall' with hdev
  refine ⟨Option.some.inj (hhead.symm.trans hhead'), Prod.ext hdev ?_⟩
  rw [← hanswer, ← hanswer', hdev]

/-- A call keeps the slots apart exactly if it does not give a number away that is held. -/
theorem single_returns_iff (hp : Conversions p) (hb : InodesPerBlock p) (hl : Linked s)
    (h : Single (view s)) {req : Request p} {answer : Option (Slot p)}
    (hcall : Returns s req answer t) : Single (view t) ↔ ¬ Collides ⟨s, req, answer, t⟩ := by
  have hiff : ∀ {q k}, Allocates s req q k → (¬ Collides ⟨s, req, answer, t⟩ ↔
      ∀ r, slotKey (s.inode r) = some k → r = q) := by
    intro q k hmakes
    constructor
    · intro hnot r hkey
      by_contra hne
      exact hnot ⟨q, k, hmakes, r, hne, hkey⟩
    · rintro honly ⟨q', k', hmakes', r, hne, hkey⟩
      obtain ⟨rfl, rfl⟩ := Allocates.unique hmakes hmakes'
      exact hne (honly r hkey)
  have hnever : (∀ bits dev, req.call ≠ .alloc_inode dev bits) →
      ¬ Collides ⟨s, req, answer, t⟩ := by
    rintro hne ⟨q, k, ⟨⟨bits, hcall⟩, _⟩, _⟩
    exact hne bits k.1 hcall
  cases (hcall.effect hp hb hl).1 with
  | kept hnot hkept =>
      rw [hkept.view_eq]
      refine iff_of_true h ?_
      rintro ⟨q, k, hmakes, _⟩
      exact hnot q k hmakes
  | opened k hopens ha =>
      refine iff_of_true (single_acquired h ha) (hnever ?_)
      intro bits dev he
      rw [he] at hopens
      cases hopens
  | put r hputs hr =>
      refine iff_of_true (single_released h hr) (hnever ?_)
      intro bits dev he
      rw [he] at hputs
      cases hputs
  | made r k rip hmakes hview hzone hdirty hother hunused =>
      rw [hview, hiff hmakes]
      exact single_occupy_iff h

/-! ## Runs -/

theorem oneSlot_initInodeCache (start : State p) : OneSlot (initInodeCache start) :=
  fun _ _ ⟨_, hmem⟩ => absurd hmem List.not_mem_nil

/-- In all states of a run no two slots hold the same inode exactly if no number is given to a
new inode while another slot holds it. -/
theorem one_slot_iff (hp : Conversions p) (hb : InodesPerBlock p) (start : State p)
    {history : List (Step (State p) (Request p) (Option (Slot p)))}
    (hr : Run (system (initInodeCache start)) history s) :
    (∀ e ∈ history, OneSlot e.after) ↔ ∀ e ∈ history, ¬ Collides e := by
  apply hr.steps_iff (oneSlot_initInodeCache start)
  intro history s req answer t hr hs hcall
  have hl := linked_of_run hp hb (linked_initInodeCache start) hr
  have hlt := (Returns.effect hp hb hl hcall).2
  rw [oneSlot_iff hl] at hs
  rw [oneSlot_iff hlt]
  exact single_returns_iff hp hb hl hs hcall

theorem returns_newFile :
    Returns mounted newFile (answered newFile mounted) (next newFile mounted) := by
  have hdev : (1 : Dev) ≠ NO_DEV := by decide
  exact returns_next hdev (by decide)

theorem returns_newFile_second :
    Returns (next newFile mounted) newFile (answered newFile (next newFile mounted))
      (next newFile (next newFile mounted)) := by
  have hdev : (1 : Dev) ≠ NO_DEV := by decide
  exact returns_next hdev (by decide)

/-- Two new inodes are made in an empty table. -/
theorem one_slot_small : OneSlot (next newFile (next newFile mounted)) := by
  have hrun : Run (system mounted) _ _ :=
    (Run.init.call returns_newFile).call returns_newFile_second
  refine (one_slot_iff conversions_small inodesPerBlock_small _ hrun).mpr ?_ _ List.mem_cons_self
  rintro e he ⟨r, k, ⟨⟨bits, hcall⟩, _, hanswer, _, _⟩, q, _, hkey⟩
  rcases List.mem_cons.mp he with rfl | he
  · -- The first inode has the number 2, and the second one gets 3.
    have hdev : k.1 = 1 := by
      injection hcall with hdev
      exact hdev.symm
    have hnumber : k = (1, 3) := by
      refine Prod.ext hdev (hanswer.symm.trans ?_)
      rw [hdev]
      decide
    have hheld : ∀ q, slotKey ((next newFile mounted).inode q) ≠ some (1, 3) := by decide
    exact hheld q (hkey.trans (congrArg some hnumber))
  · rw [List.mem_singleton.mp he] at hkey
    have hempty : slotKey (mounted.inode q) = none := slotKey_eq_none.mpr rfl
    cases hempty.symm.trans hkey

def recoverThird : Request small := ⟨smallEnvironment, .retrieve_inode 1 3⟩

/-- Inode 3 is recovered while the lowest clear bit is the one of inode 2. The bit of inode 3
stays clear, and the next new inode gets its number. -/
def recovered : State small := next recoverThird mounted

def doubled : State small := next newFile recovered

theorem run_doubled :
    Run (system mounted)
      [⟨recovered, newFile, answered newFile recovered, doubled⟩,
        ⟨mounted, recoverThird, answered recoverThird mounted, recovered⟩] doubled := by
  have hnumbers : (1 : Dev) ≠ NO_DEV ∧ (3 : UInt32) ≠ NO_ENTRY := by decide
  have hrecovered : Returns mounted recoverThird (answered recoverThird mounted) recovered :=
    returns_next hnumbers (by decide)
  have hdoubled : Returns recovered newFile (answered newFile recovered) doubled :=
    returns_next hnumbers.1 (by decide)
  exact (Run.init.call hrecovered).call hdoubled

theorem one_slot_fails :
    ¬ ∀ history s, Run (system mounted) history s → (∀ e ∈ history, Allowed e) →
      OneSlot s := by
  intro h
  have hallowed : ∀ e ∈ [⟨recovered, newFile, answered newFile recovered, doubled⟩,
      ⟨mounted, recoverThird, answered recoverThird mounted, recovered⟩], Allowed e := by
    intro e he
    rcases List.mem_cons.mp he with rfl | he
    · exact findsClear_small recovered 1
    · rw [List.mem_singleton.mp he]
      exact ⟨rfl, findsClear_small mounted 1⟩
  have hdoubled := h _ _ run_doubled hallowed
  have hl : Linked doubled :=
    linked_of_run conversions_small inodesPerBlock_small linked_mounted run_doubled
  have hkey0 : (view doubled).key slot0 = some (1, 3) := by decide
  have hkey1 : (view doubled).key slot1 = some (1, 3) := by decide
  exact absurd ((oneSlot_iff hl).mp hdoubled hkey0 hkey1) (by decide)

end MinixOS.InodeSlots
