import MinixOS.InodeSlots

/-!
# Clean inodes

An inode on a device that may be written is dirty or as it is on disk. The functions of
inode.c keep that, and so does a change of an inode in use which marks it or writes it.
-/
namespace MinixOS.InodeCoherence
open SystemRuns InodeState InodeCopy InodeCache WriteBackCache InodeView InodeRelease
  InodeAllocation InodeSystem InodeSlots

variable {p : Platform} {s t : State p} {q r : Slot p} {k : Dev × UInt32} {env : Environment p}

/-! ## The invariant -/

/-- Unless its device is read-only, the inode in the slot is dirty or as it is on disk. -/
def Settled (s : State p) (r : Slot p) : Prop :=
  ∀ k, (view s).key r = some k → (p.get_super k.1).s_rd_only = false →
    (s.inode r).i_dirt = .IN_CLEAN → (view s).store k = (view s).value r

structure Coherent (s : State p) : Prop where
  linked : Linked s
  single : Single (view s)
  idle : Idle s
  settled : ∀ r, Settled s r

theorem Settled.congr (h : Settled s r) (hkey : (view t).key r = (view s).key r)
    (hvalue : (view t).value r = (view s).value r)
    (hstore : ∀ k, (view s).key r = some k → (view t).store k = (view s).store k)
    (hdirt : (t.inode r).i_dirt = (s.inode r).i_dirt) : Settled t r := by
  intro k hk hrw hclean
  rw [hkey] at hk
  rw [hdirt] at hclean
  rw [hstore k hk, hvalue]
  exact h k hk hrw hclean

theorem Settled.of_view (h : Settled s r) (hview : view t = view s)
    (hdirt : (t.inode r).i_dirt = (s.inode r).i_dirt) : Settled t r :=
  h.congr (by rw [hview]) (by rw [hview]) (fun _ _ => by rw [hview]) hdirt

theorem settled_of_dirty (h : (s.inode r).i_dirt = .IN_DIRTY) : Settled s r := by
  intro k _ _ hclean
  rw [h] at hclean
  cases hclean

/-- What is stored for another inode is of no account. -/
theorem Settled.other (h : Settled s q) (hs : Single (view s)) (hkey : (view s).key r = some k)
    (hne : q ≠ r) (hkeyq : (view t).key q = (view s).key q)
    (hvalue : (view t).value q = (view s).value q)
    (hstore : ∀ l, l ≠ k → (view t).store l = (view s).store l)
    (hdirt : (t.inode q).i_dirt = (s.inode q).i_dirt) : Settled t q := by
  apply h.congr hkeyq hvalue _ hdirt
  intro l hl
  apply hstore l
  intro he
  rw [he] at hl
  exact hne (hs hl hkey)

/-- The slot of another inode is assigned and saved. -/
theorem Settled.save (h : Settled s q) (hs : Single (view s)) (hkey : (view s).key r = some k)
    (hne : q ≠ r) {x : Record p} (hview : view t = ((view s).assign r x).save r k)
    (hdirt : (t.inode q).i_dirt = (s.inode q).i_dirt) : Settled t q := by
  apply h.other hs hkey hne
  · rw [hview]
    rfl
  · rw [hview]
    change ((view s).assign r x).value q = _
    rw [value_assign, if_neg hne]
  · intro l hl
    rw [hview, store_save, if_neg hl]
    rfl
  · exact hdirt

theorem settled_save (hkey : (view s).key r = some k) {x : Record p}
    (hview : view t = ((view s).assign r x).save r k) : Settled t r := by
  intro l hl _ _
  rw [hview] at hl ⊢
  exact synced_save (v := (view s).assign r x) hkey l hl

theorem Coherent.kept (h : Coherent s) (hl : Linked t) (hkept : Kept s t) : Coherent t := by
  constructor
  · exact hl
  · rw [hkept.view_eq]
    exact h.single
  · exact h.idle.kept hkept
  · exact fun r => (h.settled r).of_view hkept.view_eq (hkept.dirt r)

theorem Coherent.acquired (h : Coherent s) (hl : Linked t) (ha : Acquired s k t) :
    Coherent t := by
  constructor
  · exact hl
  · exact single_acquired h.single ha
  · exact h.idle.acquired ha
  · intro q
    cases ha with
    | kept hkept => exact (h.settled q).of_view hkept.view_eq (hkept.dirt q)
    | read r habsent hr hview hclean hother hunused =>
        by_cases he : q = r
        · intro l hl _ _
          rw [hview, he] at hl ⊢
          exact synced_fetch l hl
        · apply (h.settled q).congr
          · rw [hview, View.fetch, key_occupy, if_neg he]
          · rw [hview, View.fetch, value_occupy, if_neg he]
          · intro l _
            rw [hview]
            rfl
          · exact hother q he

/-- The inode of another slot is written, or not, and then that slot may lose its key. -/
theorem Settled.released (h : Settled s q) (hs : Single (view s)) (hkey : (view s).key r = some k)
    (hne : q ≠ r) {c : Prop} [Decidable c] (hkeyq : (view t).key q = (view s).key q)
    (hvalue : (view t).value = (if c then saved env s r k else view s).value)
    (hstore : (view t).store = (if c then saved env s r k else view s).store)
    (hdirt : (t.inode q).i_dirt = (s.inode q).i_dirt) : Settled t q := by
  split_ifs at hvalue hstore
  · apply h.other hs hkey hne hkeyq
    · rw [hvalue]
      change ((view s).assign r _).value q = _
      rw [value_assign, if_neg hne]
    · intro l hl
      rw [hstore]
      unfold saved
      rw [store_save, if_neg hl]
      rfl
    · exact hdirt
  · apply h.congr hkeyq
    · rw [hvalue]
    · intro l _
      rw [hstore]
    · exact hdirt

theorem Coherent.released (h : Coherent s) (hl : Linked t) (hr : Released env s r t) :
    Coherent t := by
  constructor
  · exact hl
  · exact single_released h.single hr
  · exact h.idle.released hr
  · intro q
    cases hr with
    | counted hkept => exact (h.settled q).of_view hkept.view_eq (hkept.dirt q)
    | closed k hkey hview hclean hother hunused =>
        by_cases he : q = r
        · rw [he]
          split_ifs at hview with hdirt
          · exact settled_save hkey hview
          · have hsame : (s.inode r).i_dirt = .IN_CLEAN := by
              cases hmark : (s.inode r).i_dirt with
              | IN_CLEAN => rfl
              | IN_DIRTY => exact absurd hmark hdirt
            exact (h.settled r).of_view hview (hclean.trans hsame.symm)
        · have hkeyq : (view t).key q = (view s).key q := by
            rw [hview]
            split_ifs
            · rfl
            · rfl
          have hvalue := congrArg View.value hview
          have hstore := congrArg View.store hview
          exact (h.settled q).released h.single hkey he hkeyq hvalue hstore (hother q he)
    | freed k hkey hlinks hview hother hunused =>
        by_cases he : q = r
        · intro l hl
          rw [hview, he, key_drop, if_pos rfl] at hl
          cases hl
        · have hkeyq : (view t).key q = (view s).key q := by
            rw [hview, key_drop, if_neg he]
            split_ifs
            · rfl
            · rfl
          have hvalue := congrArg View.value hview
          have hstore := congrArg View.store hview
          exact (h.settled q).released h.single hkey he hkeyq hvalue hstore (hother q he)

theorem coherent_of_effect (h : Coherent s) (hl : Linked t) {req : Request p}
    {answer : Option (Slot p)} (he : Effect s req t) (hsafe : ¬ Collides ⟨s, req, answer, t⟩) :
    Coherent t := by
  cases he with
  | kept hnot hkept => exact h.kept hl hkept
  | opened k hopens ha => exact h.acquired hl ha
  | put r hputs hr => exact h.released hl hr
  | made r k rip hmakes hview hzone hdirty hother hunused =>
      have honly : ∀ q, (view s).key q = some k → q = r := by
        intro q hq
        by_contra hne
        exact hsafe ⟨r, k, hmakes, q, hne, hq⟩
      constructor
      · exact hl
      · rw [hview]
        exact (single_occupy_iff h.single).mpr honly
      · exact (Effect.made r k rip hmakes hview hzone hdirty hother hunused).idle h.idle
      · intro q
        by_cases he : q = r
        · rw [he]
          exact settled_of_dirty hdirty
        · apply (h.settled q).congr
          · rw [hview, key_occupy, if_neg he]
          · rw [hview, value_occupy, if_neg he]
          · intro l _
            rw [hview]
            rfl
          · exact hother q he

/-! ## Changes of an inode in use -/

/-- A change of the inode that is marked, or no change of what is on disk. -/
def Marks (f : Inode p → Inode p) (rip : Inode p) : Prop :=
  (f rip).i_dirt = .IN_DIRTY ∨
    (∀ dev, encode dev (f rip) = encode dev rip) ∧ (f rip).i_dirt = rip.i_dirt

theorem slotKey_congr {a b : Inode p} (h : SameLinks a b) : slotKey a = slotKey b := by
  unfold slotKey
  rw [h.i_num, h.i_dev]

theorem sameLinks_modify {f : Inode p → Inode p} (hf : SameLinks (f (s.inode r)) (s.inode r))
    (q : Slot p) : SameLinks ((s.modify r f).inode q) (s.inode q) := by
  rw [inode_modify]
  split_ifs with hq
  · rw [hq]
    exact hf
  · exact ⟨rfl, rfl, rfl, rfl⟩

theorem key_modify {f : Inode p → Inode p} (hf : SameLinks (f (s.inode r)) (s.inode r))
    (q : Slot p) : (view (s.modify r f)).key q = (view s).key q := by
  rw [view_key, view_key, inode_modify]
  split_ifs with hq
  · rw [hq]
    exact slotKey_congr hf
  · rfl

/-- Only the inode in this slot may differ from its copy on disk without a mark. -/
structure CoherentBut (s : State p) (r : Slot p) : Prop where
  linked : Linked s
  single : Single (view s)
  idle : Idle s
  settled : ∀ q, q ≠ r → Settled s q

theorem CoherentBut.coherent (h : CoherentBut s r) (hr : Settled s r) : Coherent s := by
  refine ⟨h.linked, h.single, h.idle, fun q => ?_⟩
  by_cases he : q = r
  · rw [he]
    exact hr
  · exact h.settled q he

/-- An inode in use is changed. -/
theorem Coherent.change (h : Coherent s) (hr : r ∉ s.unused_inodes) {f : Inode p → Inode p}
    (hf : SameLinks (f (s.inode r)) (s.inode r)) : CoherentBut (s.modify r f) r := by
  have hother : ∀ q, q ≠ r → (s.modify r f).inode q = s.inode q := fun q hq =>
    inode_modify_of_ne s f hq
  constructor
  · exact h.linked.congr rfl rfl (sameLinks_modify hf)
  · intro q q' k hq hq'
    rw [key_modify hf] at hq hq'
    exact h.single hq hq'
  · intro q hq k hkey
    have hne : q ≠ r := fun he => hr (he ▸ hq)
    rw [key_modify hf] at hkey
    rw [hother q hne]
    exact h.idle q hq k hkey
  · intro q he
    apply (h.settled q).congr (key_modify hf q)
    · rw [view_value, view_value, hother q he]
    · exact fun _ _ => rfl
    · rw [hother q he]

/-- On a read-only device any change will do. -/
theorem Coherent.modify (h : Coherent s) (hr : r ∉ s.unused_inodes) {f : Inode p → Inode p}
    (hf : SameLinks (f (s.inode r)) (s.inode r))
    (hmarks : (p.get_super (s.inode r).i_dev).s_rd_only = false → Marks f (s.inode r)) :
    Coherent (s.modify r f) := by
  apply (h.change hr hf).coherent
  intro k hkey hrw
  rw [key_modify hf] at hkey
  have hdev := (slotKey_eq_some.mp hkey).2.1
  rw [view_value, inode_modify_self]
  rcases hmarks (hdev ▸ hrw) with hdirty | ⟨hsame, hdirt⟩
  · intro hclean
    rw [hdirty] at hclean
    cases hclean
  · intro hclean
    rw [hdirt] at hclean
    rw [hf.i_dev, hsame]
    exact h.settled r k hkey hrw hclean

theorem sameLinks_writing (cur_time : UInt32) {rip : Inode p} (hsp : rip.i_sp = rip.i_dev) :
    SameLinks (markClean (stamp cur_time rip)) rip := by
  rw [stamp_fields]
  exact ⟨rfl, rfl, hsp.symm, rfl⟩

theorem CoherentBut.write (hb : InodesPerBlock p) (h : CoherentBut s r)
    (hr : r ∉ s.unused_inodes) (cur_time : UInt32) : Coherent (rwInode cur_time s r .WRITING) := by
  obtain ⟨hnum, _⟩ := h.linked.busy r hr
  have hkey : (view s).key r = some ((s.inode r).i_dev, (s.inode r).i_num) :=
    slotKey_eq_some.mpr ⟨hnum, rfl, rfl⟩
  have hview := view_writing hb cur_time s hkey
  have hlinks := sameLinks_writing cur_time (h.linked.attached r hnum).2
  have hother : ∀ q, q ≠ r → (rwInode cur_time s r .WRITING).inode q = s.inode q := by
    intro q hq
    rw [writing_inode, if_neg hq]
  have hkeys : ∀ q, (view (rwInode cur_time s r .WRITING)).key q = (view s).key q := by
    intro q
    rw [hview]
    rfl
  have hunused : (rwInode cur_time s r .WRITING).unused_inodes = s.unused_inodes := by
    rw [writing_eq]
  constructor
  · apply h.linked.congr hunused
    · rw [writing_eq]
    · intro q
      rw [writing_inode]
      split_ifs with hq
      · rw [hq]
        exact hlinks
      · exact ⟨rfl, rfl, rfl, rfl⟩
  · intro q q' k hq hq'
    rw [hkeys] at hq hq'
    exact h.single hq hq'
  · intro q hq k hk
    rw [hunused] at hq
    have hne : q ≠ r := fun he => hr (he ▸ hq)
    rw [hkeys] at hk
    rw [hother q hne]
    exact h.idle q hq k hk
  · intro q
    by_cases he : q = r
    · rw [he]
      exact settled_save hkey hview
    · exact (h.settled q he).save h.single hkey he hview (by rw [hother q he])

end MinixOS.InodeCoherence
