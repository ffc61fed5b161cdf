import Mathlib.Data.List.Basic
import MinixOS.MailboxState
import MinixOS.CheckedExecution

/-!
# Groups of receivers

The function `remove_group` of mailboxtest.c. The array `groups` holds the addresses of blocks of
integers: the number of the receivers of a group, and then the receivers. The groups behind the
removed one are to move one place to the front. The loop over them has the index `j`, but it is
`groups[i + 1]` that is copied to `groups[i]` in each of the passes.
-/
namespace MinixOS.ReceiverGroups
open CheckedExecution MailboxState

/-! ## The function -/

/-- The blocks that `malloc` has answered with, by their addresses, and the array `groups`. No
block is ever freed: `free` is called with NULL only. -/
structure Memory (capacity : ℕ) where
  blocks : List (List ℤ)
  groups : Vector (Option ℕ) capacity
deriving DecidableEq, Repr

structure Outcome (capacity : ℕ) where
  memory : Memory capacity
  log : List Event
  ret : ℤ

variable {capacity : ℕ}

/-- The block at the address, which is stopped at NULL. -/
def blockAt (m : Memory capacity) : Option ℕ → Except Stop (ℕ × List ℤ)
  | none => .error .nullPointer
  | some address =>
      match m.blocks[address]? with
      | none => .error (.outOfRange address)
      | some block => .ok (address, block)

/-- The value of `groups[index][k]`. -/
def readInt (m : Memory capacity) (index : ℤ) (k : ℕ) : Except Stop ℤ := do
  let group ← readAt m.groups index
  let (_, block) ← blockAt m group
  match block[k]? with
  | none => .error (.outOfRange k)
  | some x => .ok x

/-- The assignment `groups[index][k] = x`. -/
def writeInt (m : Memory capacity) (index : ℤ) (k : ℕ) (x : ℤ) :
    Except Stop (Memory capacity) := do
  let group ← readAt m.groups index
  let (address, block) ← blockAt m group
  if k < block.length then .ok { m with blocks := m.blocks.set address (block.set k x) }
  else .error (.outOfRange k)

/-- The assignment `groups[index] = group`. -/
def setGroup (m : Memory capacity) (index : ℤ) (group : Option ℕ) :
    Except Stop (Memory capacity) := do
  let groups ← writeAt m.groups index group
  return { m with groups := groups }

/-- Room for `count` integers. What they hold depends on the address. A negative number is one
above all memory as a size, which is answered by NULL. -/
def malloc (junk : ℕ → ℕ → ℤ) (count : ℤ) (m : Memory capacity) : Memory capacity × Option ℕ :=
  if count < 0 then (m, none)
  else
    let block := (List.range count.toNat).map (junk m.blocks.length)
    ({ m with blocks := m.blocks ++ [block] }, some m.blocks.length)

/-- The inner loop, with `left` passes left. -/
def copyReceivers (i : ℤ) : ℕ → ℕ → Memory capacity → Except Stop (Memory capacity)
  | 0, _, m => .ok m
  | left + 1, k, m => do
      let receiver ← readInt m (i + 1) k
      let m ← writeInt m i k receiver
      copyReceivers i left (k + 1) m

/-- The body of the outer loop. -/
def copyGroup (junk : ℕ → ℕ → ℤ) (i : ℤ) (m : Memory capacity) :
    Except Stop (Memory capacity) := do
  let m ← setGroup m i none
  let numReceiversNextGroup ← readInt m (i + 1) 0
  let (m, block) := malloc junk (numReceiversNextGroup + 1) m
  let m ← setGroup m i block
  let m ← writeInt m i 0 numReceiversNextGroup
  copyReceivers i numReceiversNextGroup.toNat 1 m

/-- The outer loop, with `left` passes left. It leaves `j` where it has come to. -/
def shiftGroups (junk : ℕ → ℕ → ℤ) (i : ℤ) :
    ℕ → ℤ → Memory capacity → Except Stop (ℤ × Memory capacity)
  | 0, j, m => .ok (j, m)
  | left + 1, j, m => do
      let m ← copyGroup junk i m
      shiftGroups junk i left (j + 1) m

def removeGroup (junk : ℕ → ℕ → ℤ) (i numGroups : ℤ) (m : Memory capacity) :
    Except Stop (Outcome capacity) := do
  if 0 < numGroups then
    let (j, m) ← shiftGroups junk i (numGroups - 1 - i).toNat i m
    let m ← setGroup m j none
    return { memory := m, log := [], ret := 1 }
  else return { memory := m, log := [.printf "No group exists"], ret := -1 }

/-! ## What the array lists -/

/-- The group at this index of the array. -/
def Holds (m : Memory capacity) (index : ℕ) (group : List ℤ) : Prop :=
  ∃ address block, m.groups.toList[index]? = some (some address) ∧
    m.blocks[address]? = some block ∧ (group.length : ℤ) :: group <+: block

/-- The groups at the first indices. -/
def Lists (m : Memory capacity) (groups : List (List ℤ)) : Prop :=
  ∀ index group, groups[index]? = some group → Holds m index group

/-- The call returns 1 and leaves the groups without group `i`. -/
def Removes (junk : ℕ → ℕ → ℤ) (m : Memory capacity) (groups : List (List ℤ)) (i : ℕ) : Prop :=
  ∃ out, removeGroup junk i groups.length m = .ok out ∧ out.ret = 1 ∧
    Lists out.memory (groups.eraseIdx i)

/-- The groups behind group `i` are all alike. -/
def AlikeBehind (groups : List (List ℤ)) (i : ℕ) : Prop :=
  ∀ k, i < k → k + 1 < groups.length → groups[k]? = groups[k + 1]?

section Listed
variable {m m' : Memory capacity} {group group' : List ℤ} {groups groups' : List (List ℤ)}
  {index i : ℕ}

theorem Holds.unique (h : Holds m index group) (h' : Holds m index group') : group = group' := by
  rcases h with ⟨address, block, hgroups, hblock, hprefix⟩
  rcases h' with ⟨address', block', hgroups', hblock', hprefix'⟩
  cases hgroups.symm.trans hgroups'
  cases hblock.symm.trans hblock'
  rcases hprefix with ⟨rest, rfl⟩
  rcases hprefix' with ⟨rest', heq⟩
  rw [List.cons_append, List.cons_append, List.cons.injEq, Int.natCast_inj] at heq
  exact (List.append_inj_left heq.2 heq.1).symm

theorem Holds.lt (h : Holds m index group) : index < capacity := by
  rcases h with ⟨address, block, hgroups, _, _⟩
  have hlt := (List.getElem?_eq_some_iff.mp hgroups).choose
  rw [Vector.length_toList] at hlt
  exact hlt

theorem Lists.unique (h : Lists m groups) (h' : Lists m groups')
    (hlength : groups.length = groups'.length) : groups = groups' := by
  apply List.ext_getElem hlength
  intro index hlt hlt'
  exact (h index _ (List.getElem?_eq_getElem hlt)).unique
    (h' index _ (List.getElem?_eq_getElem hlt'))

/-- What is read at a group. -/
theorem Holds.readInt (h : Holds m index group) {k : ℕ} {x : ℤ}
    (hx : ((group.length : ℤ) :: group)[k]? = some x) : readInt m index k = .ok x := by
  rcases h with ⟨address, block, hgroups, hblock, hprefix⟩
  have hread : readAt m.groups (index : ℤ) = .ok (some address) := readAt_eq_ok_iff.mpr hgroups
  have hblockAt : blockAt m (some address) = .ok (address, block) := by
    simp only [blockAt, hblock]
  have hk : block[k]? = some x := by
    rcases hprefix with ⟨rest, rfl⟩
    rw [List.getElem?_append_left (List.getElem?_eq_some_iff.mp hx).choose, hx]
  rw [ReceiverGroups.readInt, hread, ok_bind, hblockAt]
  simp only [ok_bind, hk]

theorem Holds.readNext (h : Holds m (i + 1) group) {k : ℕ} {x : ℤ}
    (hx : ((group.length : ℤ) :: group)[k]? = some x) :
    ReceiverGroups.readInt m ((i : ℤ) + 1) k = .ok x :=
  h.readInt hx

/-- The other indices hold what they held. -/
def Kept (i : ℕ) (m m' : Memory capacity) : Prop :=
  ∀ index group, index ≠ i → Holds m index group → Holds m' index group

theorem Kept.next (h : Kept i m m') (hnext : Holds m (i + 1) group) : Holds m' (i + 1) group :=
  h (i + 1) group (Nat.succ_ne_self i) hnext

theorem Kept.trans {m'' : Memory capacity} (h : Kept i m m') (h' : Kept i m' m'') :
    Kept i m m'' :=
  fun index group hne hholds => h' index group hne (h index group hne hholds)

theorem setGroup_ok (m : Memory capacity) (hi : i < capacity) (group : Option ℕ) :
    ∃ m', setGroup m i group = .ok m' ∧ m'.blocks = m.blocks ∧
      m'.groups.toList = m.groups.toList.set i group := by
  have hwrite := writeAt_fin m.groups ⟨i, hi⟩ group
  dsimp only at hwrite
  refine ⟨{ m with groups := m.groups.set i group hi }, ?_, rfl, ?_⟩
  · rw [setGroup, hwrite]
    rfl
  · exact Vector.toList_set hi

theorem kept_of_set {group : Option ℕ} (hblocks : m'.blocks = m.blocks)
    (hgroups : m'.groups.toList = m.groups.toList.set i group) : Kept i m m' := by
  rintro index held hne ⟨address, block, hat, hblock, hprefix⟩
  refine ⟨address, block, ?_, ?_, hprefix⟩
  · rw [hgroups, List.getElem?_set_ne hne.symm]
    exact hat
  · rw [hblocks]
    exact hblock

end Listed

/-! ## One pass copies the next group -/

section Passes
variable {m w : Memory capacity} {group block : List ℤ} {i : ℕ}

/-- The block at index `i` is a new one. Nothing else has changed. -/
structure Filling (m : Memory capacity) (i : ℕ) (block : List ℤ) (w : Memory capacity) : Prop where
  blocks : w.blocks = m.blocks ++ [block]
  groups : w.groups.toList = m.groups.toList.set i (some m.blocks.length)

theorem Filling.kept (h : Filling m i block w) : Kept i m w := by
  rintro index group hne ⟨address, held, hgroups, hheld, hprefix⟩
  refine ⟨address, held, ?_, ?_, hprefix⟩
  · rw [h.groups, List.getElem?_set_ne hne.symm]
    exact hgroups
  · rw [h.blocks, List.getElem?_append_left (List.getElem?_eq_some_iff.mp hheld).choose]
    exact hheld

theorem Filling.at_index (h : Filling m i block w) (hi : i < capacity) :
    w.groups.toList[i]? = some (some m.blocks.length) ∧
      w.blocks[m.blocks.length]? = some block := by
  constructor
  · rw [h.groups, List.getElem?_set_self]
    rw [Vector.length_toList]
    exact hi
  · rw [h.blocks, List.getElem?_concat_length]

theorem Filling.holds (h : Filling m i ((group.length : ℤ) :: group) w) (hi : i < capacity) :
    Holds w i group :=
  ⟨_, _, (h.at_index hi).1, (h.at_index hi).2, List.prefix_rfl⟩

theorem Filling.write (h : Filling m i block w) (hi : i < capacity) (k : ℕ)
    (hk : k < block.length) (x : ℤ) :
    ∃ w', writeInt w i k x = .ok w' ∧ Filling m i (block.set k x) w' := by
  rcases h.at_index hi with ⟨hgroups, hblock⟩
  have hread : readAt w.groups (i : ℤ) = .ok (some m.blocks.length) :=
    readAt_eq_ok_iff.mpr hgroups
  have hblockAt : blockAt w (some m.blocks.length) = .ok (m.blocks.length, block) := by
    simp only [blockAt, hblock]
  refine ⟨{ w with blocks := w.blocks.set m.blocks.length (block.set k x) }, ?_, ?_, h.groups⟩
  · rw [writeInt, hread, ok_bind, hblockAt]
    exact if_pos hk
  · dsimp only
    rw [h.blocks, List.set_append_right _ _ (Nat.le_refl _), Nat.sub_self, List.set_cons_zero]

/-- What stands in front of the `k`-th integer has been copied. -/
theorem copyReceivers_ok (hnext : Holds m (i + 1) group) {left k : ℕ}
    (hk : k + left = group.length + 1) (h : Filling m i block w)
    (hlength : block.length = group.length + 1)
    (hfront : ∀ j < k, block[j]? = ((group.length : ℤ) :: group)[j]?) :
    ∃ w', copyReceivers i left k w = .ok w' ∧ Filling m i ((group.length : ℤ) :: group) w' := by
  have hi : i < capacity := Nat.lt_of_succ_lt hnext.lt
  induction left generalizing k block w with
  | zero =>
      have hall : block = (group.length : ℤ) :: group := by
        apply List.ext_getElem?
        intro j
        by_cases hj : j < k
        · exact hfront j hj
        · have hend : ((group.length : ℤ) :: group).length ≤ j := by
            rw [List.length_cons]
            omega
          rw [List.getElem?_eq_none (by omega), List.getElem?_eq_none hend]
      rw [← hall]
      exact ⟨w, rfl, h⟩
  | succ left ih =>
      have hin : k < ((group.length : ℤ) :: group).length := by
        rw [List.length_cons]
        omega
      have hreceiver := List.getElem?_eq_getElem hin
      have hread := (h.kept.next hnext).readNext hreceiver
      rcases h.write hi k (by omega) ((group.length : ℤ) :: group)[k] with ⟨w', hwrite, hw'⟩
      have hmore : ∀ j < k + 1, (block.set k ((group.length : ℤ) :: group)[k])[j]? =
          ((group.length : ℤ) :: group)[j]? := by
        intro j hj
        rcases Nat.lt_succ_iff_lt_or_eq.mp hj with hlt | rfl
        · rw [List.getElem?_set_ne (Nat.ne_of_gt hlt)]
          exact hfront j hlt
        · rw [List.getElem?_set_self (by omega), hreceiver]
      rcases ih (by omega) hw' (by rw [List.length_set, hlength]) hmore with ⟨w'', hrest, hw''⟩
      refine ⟨w'', ?_, hw''⟩
      rw [copyReceivers, hread, ok_bind, hwrite, ok_bind, hrest]

/-- The pass puts a copy of the next group at index `i`. -/
theorem copyGroup_ok (junk : ℕ → ℕ → ℤ) (hnext : Holds m (i + 1) group) :
    ∃ m', copyGroup junk i m = .ok m' ∧ Holds m' i group ∧ Kept i m m' := by
  have hi : i < capacity := Nat.lt_of_succ_lt hnext.lt
  rcases setGroup_ok m hi none with ⟨m₁, hnull, hblocks₁, hgroups₁⟩
  have hkept₁ := kept_of_set hblocks₁ hgroups₁
  have hnext₁ := hkept₁.next hnext
  have hsize : readInt m₁ ((i : ℤ) + 1) 0 = .ok (group.length : ℤ) := hnext₁.readNext rfl
  let fresh := (List.range (group.length + 1)).map (junk m₁.blocks.length)
  have hlength : fresh.length = group.length + 1 := by
    rw [List.length_map, List.length_range]
  have hmalloc : malloc junk ((group.length : ℤ) + 1) m₁ =
      ({ m₁ with blocks := m₁.blocks ++ [fresh] }, some m₁.blocks.length) := by
    rw [malloc, if_neg (by omega)]
    rfl
  rcases setGroup_ok { m₁ with blocks := m₁.blocks ++ [fresh] } hi (some m₁.blocks.length) with
    ⟨m₂, hset, hblocks₂, hgroups₂⟩
  have hfilling₂ : Filling m₁ i fresh m₂ := ⟨hblocks₂, hgroups₂⟩
  rcases hfilling₂.write hi 0 (by omega) group.length with ⟨m₃, hwrite, hfilling₃⟩
  have hlength₃ : (fresh.set 0 (group.length : ℤ)).length = group.length + 1 := by
    rw [List.length_set, hlength]
  have hfirst : ∀ j < 1, (fresh.set 0 (group.length : ℤ))[j]? =
      ((group.length : ℤ) :: group)[j]? := by
    intro j hj
    rw [Nat.lt_one_iff.mp hj, List.getElem?_set_self (by omega), List.getElem?_cons_zero]
  rcases copyReceivers_ok hnext₁ (Nat.add_comm 1 _) hfilling₃ hlength₃ hfirst with
    ⟨m', hcopy, hfull⟩
  refine ⟨m', ?_, hfull.holds hi, hkept₁.trans hfull.kept⟩
  rw [copyGroup, hnull, ok_bind, hsize, ok_bind, hmalloc]
  dsimp only
  rw [hset, ok_bind, hwrite, ok_bind]
  exact hcopy

/-! ## The loop -/

/-- Once the next group is at index `i` too, the passes change nothing that is listed. -/
theorem shiftGroups_ok (junk : ℕ → ℕ → ℤ) (hnext : Holds m (i + 1) group) (hholds : Holds m i group)
    (left : ℕ) (j : ℤ) :
    ∃ m', shiftGroups junk i left j m = .ok (j + left, m') ∧ Holds m' i group ∧ Kept i m m' := by
  induction left generalizing j m with
  | zero => exact ⟨m, by simp [shiftGroups], hholds, fun _ _ _ h => h⟩
  | succ left ih =>
      rcases copyGroup_ok junk hnext with ⟨m₁, hcopy, hholds₁, hkept₁⟩
      rcases ih (hkept₁.next hnext) hholds₁ (j + 1) with ⟨m', hrest, hholds', hkept'⟩
      refine ⟨m', ?_, hholds', hkept₁.trans hkept'⟩
      rw [shiftGroups, hcopy, ok_bind, hrest]
      push_cast
      rw [Int.add_assoc, Int.add_comm 1]

end Passes

/-! ## The call -/

section Calls
variable {m : Memory capacity} {groups : List (List ℤ)} {next : List ℤ} {i : ℕ}

/-- What the call leaves: the next group in place of group `i`, and one group less. -/
def overwritten (groups : List (List ℤ)) (i : ℕ) : List (List ℤ) :=
  match groups[i + 1]? with
  | none => groups.dropLast
  | some next => (groups.set i next).dropLast

theorem overwritten_length (groups : List (List ℤ)) (i : ℕ) :
    (overwritten groups i).length = groups.length - 1 := by
  unfold overwritten
  split
  · exact List.length_dropLast
  · rw [List.length_dropLast, List.length_set]

theorem Lists.dropLast (h : Lists m groups) {last : ℕ} (hlast : groups.length = last + 1)
    {m' : Memory capacity} (hkept : Kept last m m') : Lists m' groups.dropLast := by
  intro index group hgroup
  have hlt := (List.getElem?_eq_some_iff.mp hgroup).choose
  rw [List.length_dropLast] at hlt
  rw [List.getElem?_dropLast, if_pos hlt] at hgroup
  exact hkept index group (by omega) (h index group hgroup)

theorem Lists.set (h : Lists m groups) (hi : i < groups.length) {m' : Memory capacity}
    (hkept : Kept i m m') (hholds : Holds m' i next) : Lists m' (groups.set i next) := by
  intro index group hgroup
  by_cases he : i = index
  · subst he
    rw [List.getElem?_set_self hi] at hgroup
    cases hgroup
    exact hholds
  · rw [List.getElem?_set_ne he] at hgroup
    exact hkept index group (Ne.symm he) (h index group hgroup)

/-- The loop stops in front of the last group. -/
theorem shiftGroups_lists (junk : ℕ → ℕ → ℤ) (h : Lists m groups) {last : ℕ}
    (hlast : groups.length = last + 1) (hi : i < groups.length) :
    ∃ m' groups', shiftGroups junk i ((groups.length : ℤ) - 1 - i).toNat i m = .ok (last, m') ∧
      Lists m' groups' ∧ groups'.length = groups.length ∧
      overwritten groups i = groups'.dropLast := by
  unfold overwritten
  by_cases hend : i = last
  · have hnone : groups[i + 1]? = none := List.getElem?_eq_none (by omega)
    have hleft : ((groups.length : ℤ) - 1 - i).toNat = 0 := by omega
    rw [hnone, hleft, hend]
    exact ⟨m, groups, rfl, h, rfl, rfl⟩
  · have hin : i + 1 < groups.length := by omega
    have hsome := List.getElem?_eq_getElem hin
    have hnext := h (i + 1) _ hsome
    obtain ⟨left, hleft⟩ : ∃ left, ((groups.length : ℤ) - 1 - i).toNat = left + 1 :=
      ⟨last - i - 1, by omega⟩
    rcases copyGroup_ok junk hnext with ⟨m₁, hcopy, hholds₁, hkept₁⟩
    rcases shiftGroups_ok junk (hkept₁.next hnext) hholds₁ left ((i : ℤ) + 1) with
      ⟨m', hrest, hholds', hkept'⟩
    refine ⟨m', groups.set i groups[i + 1], ?_, ?_, List.length_set, ?_⟩
    · have hj : (i : ℤ) + 1 + left = last := by omega
      rw [hleft, shiftGroups, hcopy, ok_bind, hrest, hj]
    · exact h.set hi (hkept₁.trans hkept') hholds'
    · rw [hsome]

theorem removeGroup_ok (junk : ℕ → ℕ → ℤ) (h : Lists m groups) (hi : i < groups.length) :
    ∃ out, removeGroup junk i groups.length m = .ok out ∧ out.ret = 1 ∧
      Lists out.memory (overwritten groups i) := by
  obtain ⟨last, hlast⟩ : ∃ last, groups.length = last + 1 := ⟨groups.length - 1, by omega⟩
  rcases shiftGroups_lists junk h hlast hi with ⟨m₁, groups', hshift, hlists, hlength, hover⟩
  have hin : last < groups'.length := by omega
  have hroom : last < capacity := (hlists last _ (List.getElem?_eq_getElem hin)).lt
  rcases setGroup_ok m₁ hroom none with ⟨m₂, hset, hblocks, hgroups⟩
  refine ⟨{ memory := m₂, log := [], ret := 1 }, ?_, rfl, ?_⟩
  · rw [removeGroup, if_pos (by omega), hshift, ok_bind]
    dsimp only
    rw [hset, ok_bind]
    rfl
  · rw [hover]
    exact hlists.dropLast (hlength.trans hlast) (kept_of_set hblocks hgroups)

theorem overwritten_get (hi : i < groups.length) {k : ℕ} (hk : k + 1 < groups.length) :
    (overwritten groups i)[k]? = if k = i then groups[k + 1]? else groups[k]? := by
  unfold overwritten
  split
  · next hnone =>
      have hend := List.getElem?_eq_none_iff.mp hnone
      rw [List.getElem?_dropLast, if_pos (by omega), if_neg (by omega)]
  · next next hsome =>
      rw [List.getElem?_dropLast, List.length_set, if_pos (by omega)]
      by_cases he : k = i
      · rw [he, List.getElem?_set_self hi, if_pos rfl, hsome]
      · rw [List.getElem?_set_ne (Ne.symm he), if_neg he]

/-- The groups behind group `i` stay where they are. -/
theorem overwritten_eq_iff (hi : i < groups.length) :
    overwritten groups i = groups.eraseIdx i ↔ AlikeBehind groups i := by
  constructor
  · intro heq k hik hk
    have hget := overwritten_get hi hk
    rw [heq, List.getElem?_eraseIdx_of_ge (Nat.le_of_lt hik), if_neg (by omega)] at hget
    exact hget.symm
  · intro h
    apply List.ext_getElem?
    intro k
    by_cases hk : k + 1 < groups.length
    · rw [overwritten_get hi hk]
      rcases Nat.lt_trichotomy k i with hlt | rfl | hgt
      · rw [if_neg (by omega), List.getElem?_eraseIdx_of_lt hlt]
      · rw [if_pos rfl, List.getElem?_eraseIdx_of_ge (Nat.le_refl k)]
      · rw [if_neg (by omega), List.getElem?_eraseIdx_of_ge (Nat.le_of_lt hgt)]
        exact h k hgt hk
    · have hlength := overwritten_length groups i
      have hlength' := List.length_eraseIdx_of_lt hi
      rw [List.getElem?_eq_none (by omega), List.getElem?_eq_none (by omega)]

/-- The group is removed exactly if the groups behind it are all alike. -/
theorem removes_iff (junk : ℕ → ℕ → ℤ) {m : Memory capacity} {groups : List (List ℤ)} {i : ℕ}
    (h : Lists m groups) (hi : i < groups.length) :
    Removes junk m groups i ↔ AlikeBehind groups i := by
  rcases removeGroup_ok junk h hi with ⟨out, hout, hret, hlists⟩
  rw [← overwritten_eq_iff hi]
  constructor
  · rintro ⟨out', hout', _, hlists'⟩
    cases hout.symm.trans hout'
    apply hlists.unique hlists'
    rw [overwritten_length, List.length_eraseIdx_of_lt hi]
  · intro heq
    rw [heq] at hlists
    exact ⟨out, hout, hret, hlists⟩

end Calls

/-- Groups in blocks of their own, in the order of the array. -/
theorem lists_blocks {m : Memory capacity} {groups : List (List ℤ)}
    (hblocks : m.blocks = groups.map fun group => (group.length : ℤ) :: group)
    (hgroups : ∀ index < groups.length, m.groups.toList[index]? = some (some index)) :
    Lists m groups := by
  intro index group hgroup
  have hlt := (List.getElem?_eq_some_iff.mp hgroup).choose
  refine ⟨index, _, hgroups index hlt, ?_, List.prefix_rfl⟩
  rw [hblocks, List.getElem?_map, hgroup]
  rfl

/-- Of four groups, the last two of which are alike, the second is removed. -/
theorem removes_second :
    Removes (fun _ _ => 0)
      ⟨[[1, 5], [2, 6, 7], [1, 8], [1, 8]], #v[some 0, some 1, some 2, some 3, none]⟩
      [[5], [6, 7], [8], [8]] 1 := by
  have h : Lists ⟨[[1, 5], [2, 6, 7], [1, 8], [1, 8]], #v[some 0, some 1, some 2, some 3, none]⟩
      [[5], [6, 7], [8], [8]] := lists_blocks rfl (by decide)
  refine (removes_iff _ h (by decide)).mpr ?_
  intro k hik hk
  have hk2 : k = 2 := by
    simp only [List.length_cons, List.length_nil] at hk
    omega
  rw [hk2]
  rfl

/-- Of three groups the first is removed. The second one is listed twice then. -/
theorem removes_fails :
    ¬ ∀ (junk : ℕ → ℕ → ℤ) (capacity : ℕ) (m : Memory capacity) (groups : List (List ℤ)) (i : ℕ),
      Lists m groups → i < groups.length → Removes junk m groups i := by
  intro hall
  have h : Lists ⟨[[1, 5], [1, 6], [1, 7]], #v[some 0, some 1, some 2]⟩ [[5], [6], [7]] :=
    lists_blocks rfl (by decide)
  rcases hall (fun _ _ => 0) 3 _ _ 0 h (by decide) with ⟨out, hout, _, hlists⟩
  cases hout
  rcases hlists 1 [7] rfl with ⟨address, block, hat, hblock, hprefix⟩
  cases hat
  cases hblock
  exact absurd hprefix (by decide)

end MinixOS.ReceiverGroups
