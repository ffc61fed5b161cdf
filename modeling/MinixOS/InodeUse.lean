import Mathlib.Data.List.Find
import MinixOS.CheckedExecution
import MinixOS.InodeRecovery

/-!
# Inodes in use

`find_inode` looks for an inode that somebody uses, and `fs_putnode` releases several uses of one
with a single request. It counts down by hand and leaves the last use to `put_inode`, which
comes to the same as that many calls of `put_inode`.
-/
namespace MinixOS.InodeUse
open CheckedExecution (map_eq_ok)
open InodeState InodeCopy InodeCache WriteBackCache InodeView InodeRelease InodeSystem InodeRecovery

variable {p : Platform} {s t : State p} {r : Slot p} {env : Environment p} {dev : Dev}
  {numb : UInt32}

/-- The loop over a hash list. -/
def findInode (s : State p) (dev : Dev) (numb : UInt32) : Option (Slot p) :=
  (s.hash_inodes (hashIndex p numb)).find? fun rip =>
    (s.inode rip).i_count > 0 ∧ (s.inode rip).i_num = numb ∧ (s.inode rip).i_dev = dev

theorem findInode_congr {s t : State p} (hhash : t.hash_inodes = s.hash_inodes)
    (h : ∀ q, ((t.inode q).i_count > 0 ↔ (s.inode q).i_count > 0) ∧
      (t.inode q).i_num = (s.inode q).i_num ∧ (t.inode q).i_dev = (s.inode q).i_dev)
    (dev : Dev) (numb : UInt32) : findInode t dev numb = findInode s dev numb := by
  unfold findInode
  rw [hhash]
  apply List.find?_congr
  intro q _
  obtain ⟨hcount, hnum, hdev⟩ := h q
  rw [hnum, hdev, decide_eq_decide, hcount]

theorem key_of_findInode (hl : Linked s) (h : findInode s dev numb = some r) :
    slotKey (s.inode r) = some (dev, numb) ∧ 0 < (s.inode r).i_count := by
  have hmem := List.mem_of_find?_eq_some h
  have hfound := List.find?_some h
  rw [decide_eq_true_eq] at hfound
  exact ⟨slotKey_eq_some.mpr ⟨((hl.hashed _ r).mp hmem).1, hfound.2.2, hfound.2.1⟩, hfound.1⟩

theorem findInode_none (h : ∀ q, slotKey (s.inode q) = some (dev, numb) → (s.inode q).i_count = 0)
    (hl : Linked s) : findInode s dev numb = none := by
  cases hfound : findInode s dev numb with
  | none => rfl
  | some q =>
      obtain ⟨hkey, hused⟩ := key_of_findInode hl hfound
      have hzero := h q hkey
      omega

structure PutMessage where
  fs_dev : Dev
  REQ_INODE_NR : UInt32
  REQ_COUNT : ℤ
deriving DecidableEq, Repr

def fsPutnode (env : Environment p) (m : PutMessage) (s : State p) :
    Except Stop (Errno × State p) :=
  match findInode s m.fs_dev m.REQ_INODE_NR with
  | none => .error (.panic "fs_putnode failed")
  | some rip =>
      let count := m.REQ_COUNT
      if count ≤ 0 then .error (.panic "fs_putnode failed")
      else if count > (s.inode rip).i_count then .error (.panic "fs_putnode failed")
      else do
        let s := s.modify rip (setCount ((s.inode rip).i_count - (count - 1).toNat))
        let s ← putInode env s (some rip)
        return (.OK, s)

/-! ## Many at once -/

/-- So many calls of `put_inode`. -/
def putTimes (env : Environment p) (rip : Slot p) : ℕ → State p → Except Stop (State p)
  | 0, s => .ok s
  | n + 1, s => do
      let s ← putInode env s (some rip)
      putTimes env rip n s

theorem putTimes_some (env : Environment p) (n : ℕ) (hcount : n < (s.inode r).i_count) :
    putTimes env r n s = .ok (s.modify r (setCount ((s.inode r).i_count - n))) := by
  induction n generalizing s with
  | zero => exact congrArg Except.ok (modify_self s r).symm
  | succ n ih =>
      rcases putInode_cases env s r with ⟨hzero, _⟩ | ⟨hone, _⟩ | ⟨_, hput⟩
      · omega
      · omega
      · have hless : n < ((s.modify r (setCount ((s.inode r).i_count - 1))).inode r).i_count := by
          rw [inode_modify_self]
          change n < (s.inode r).i_count - 1
          omega
        have hleft : (s.inode r).i_count - 1 - n = (s.inode r).i_count - (n + 1) := by omega
        unfold putTimes
        rw [hput]
        change putTimes env r n _ = _
        rw [ih hless, inode_modify_self, modify_modify]
        change Except.ok (s.modify r (setCount ((s.inode r).i_count - 1 - n))) = _
        rw [hleft]

/-- The last use is left to `put_inode`. -/
theorem putTimes_succ (env : Environment p) (n : ℕ) (hcount : n < (s.inode r).i_count) :
    putTimes env r (n + 1) s =
      putInode env (s.modify r (setCount ((s.inode r).i_count - n))) (some r) := by
  induction n generalizing s with
  | zero =>
      unfold putTimes
      change (putInode env s (some r) >>= fun s => Except.ok s) =
        putInode env (s.modify r fun _ => s.inode r) (some r)
      rw [modify_self]
      exact bind_pure (putInode env s (some r))
  | succ n ih =>
      rcases putInode_cases env s r with ⟨hzero, _⟩ | ⟨hone, _⟩ | ⟨_, hput⟩
      · omega
      · omega
      · have hless : n < ((s.modify r (setCount ((s.inode r).i_count - 1))).inode r).i_count := by
          rw [inode_modify_self]
          change n < (s.inode r).i_count - 1
          omega
        have hleft : (s.inode r).i_count - 1 - n = (s.inode r).i_count - (n + 1) := by omega
        unfold putTimes
        rw [hput]
        change putTimes env r (n + 1) _ = _
        rw [ih hless, inode_modify_self, modify_modify]
        change putInode env (s.modify r (setCount ((s.inode r).i_count - 1 - n))) (some r) = _
        rw [hleft]

/-- What the request comes to for an inode in use. -/
theorem fsPutnode_eq (env : Environment p) {count : ℤ}
    (hfound : findInode s dev numb = some r) (hcount : 0 < count) :
    fsPutnode env ⟨dev, numb, count⟩ s =
      if count > (s.inode r).i_count then .error (.panic "fs_putnode failed")
      else (putTimes env r count.toNat s).map fun t => (.OK, t) := by
  unfold fsPutnode
  dsimp only
  rw [hfound]
  dsimp only
  rw [if_neg (not_le.mpr hcount)]
  split_ifs with hmany
  · rfl
  · obtain ⟨n, hn⟩ : ∃ n : ℕ, count = n + 1 := ⟨(count - 1).toNat, by omega⟩
    have htoNat : count.toNat = n + 1 := by omega
    have hlast : (count - 1).toNat = n := by omega
    rw [htoNat, hlast, putTimes_succ env n (by omega)]
    cases putInode env (s.modify r (setCount ((s.inode r).i_count - n))) (some r) with
    | ok t => rfl
    | error stop => rfl

theorem putTimes_add (env : Environment p) (r : Slot p) (m n : ℕ) (s : State p) :
    putTimes env r (m + n) s = putTimes env r m s >>= putTimes env r n := by
  induction m generalizing s with
  | zero =>
      rw [Nat.zero_add]
      rfl
  | succ m ih =>
      rw [Nat.succ_add]
      change (putInode env s (some r) >>= putTimes env r (m + n)) =
        (putInode env s (some r) >>= putTimes env r m) >>= putTimes env r n
      cases putInode env s (some r) with
      | ok t => exact ih t
      | error stop => rfl

/-- After the last use, the inode is not found any more. -/
theorem findInode_released (hl : Linked s) (hs : Single (view s))
    (hkey : slotKey (s.inode r) = some (dev, numb)) (hcount : (s.inode r).i_count = 1)
    (env : Environment p) : findInode (released env s r) dev numb = none := by
  have hnum := (slotKey_eq_some.mp hkey).1
  apply findInode_none _ (linked_released hl env hnum hcount)
  intro q hq
  by_cases he : q = r
  · subst he
    by_cases hlinks : (s.inode q).i_nlinks = NO_LINK
    · have hnone := released_freed_inode env hlinks
      exact absurd hnone (slotKey_eq_some.mp hq).1
    · rw [released_kept_inode env hlinks, writtenInode_fields]
      rfl
  · rw [released_other env s he] at hq
    exact absurd (hs hq hkey) he

/-- A release that leaves a use leaves the inode where it is found. -/
theorem findInode_setCount (hused : 0 < (s.inode r).i_count) {i_count : ℕ} (hpos : 0 < i_count)
    (dev : Dev) (numb : UInt32) :
    findInode (s.modify r (setCount i_count)) dev numb = findInode s dev numb := by
  apply findInode_congr (s := s) (t := s.modify r (setCount i_count)) rfl
  intro q
  rw [inode_modify]
  split_ifs with hq
  · rw [hq]
    exact ⟨iff_of_true hpos hused, rfl, rfl⟩
  · exact ⟨Iff.rfl, rfl, rfl⟩

/-- The rest of a request that asks for more uses than there are is refused as well. -/
theorem fsPutnode_rest (env : Environment p) (hl : Linked s) (hs : Single (view s))
    (hfound : findInode s dev numb = some r) {a : ℤ} (ha : 0 < a) {t : State p}
    (hput : putTimes env r a.toNat s = .ok t) (hle : a ≤ (s.inode r).i_count) :
    if a = (s.inode r).i_count then findInode t dev numb = none
    else findInode t dev numb = some r ∧ ((t.inode r).i_count : ℤ) = (s.inode r).i_count - a := by
  obtain ⟨hkey, hused⟩ := key_of_findInode hl hfound
  have hnum := (slotKey_eq_some.mp hkey).1
  split_ifs with hlast
  · obtain ⟨n, hn⟩ : ∃ n : ℕ, a.toNat = n + 1 := ⟨a.toNat - 1, by omega⟩
    have hone : (s.inode r).i_count - n = 1 := by omega
    rw [hn, putTimes_succ env n (by omega), hone] at hput
    have hself : (s.modify r (setCount 1)).inode r = setCount 1 (s.inode r) :=
      inode_modify_self s r _
    have hcounted : ((s.modify r (setCount 1)).inode r).i_count = 1 := by rw [hself]; rfl
    have hkeyed : slotKey ((s.modify r (setCount 1)).inode r) = some (dev, numb) := by
      rw [hself]
      exact hkey
    rcases putInode_cases env (s.modify r (setCount 1)) r with ⟨hzero, _⟩ | ⟨_, hreleased⟩ | ⟨hmany, _⟩
    · omega
    · rw [hput] at hreleased
      cases hreleased
      apply findInode_released _ _ hkeyed hcounted
      · exact linked_setCount hl hnum hused Nat.one_pos
      · rw [view_setCount]
        exact hs
    · omega
  · rw [putTimes_some env a.toNat (by omega)] at hput
    cases hput
    rw [findInode_setCount hused (by omega), inode_modify_self]
    refine ⟨hfound, ?_⟩
    change (((s.inode r).i_count - a.toNat : ℕ) : ℤ) = _
    omega

/-- Several uses released with one request, or with one request after the other. -/
theorem fs_putnode_add (hl : Linked s) (hs : Single (view s)) {a b : ℤ} (ha : 0 < a) (hb : 0 < b)
    (h : fsPutnode env ⟨dev, numb, a⟩ s = .ok (.OK, t)) :
    fsPutnode env ⟨dev, numb, b⟩ t = fsPutnode env ⟨dev, numb, a + b⟩ s := by
  cases hfound : findInode s dev numb with
  | none =>
      unfold fsPutnode at h
      rw [hfound] at h
      cases h
  | some r =>
      rw [fsPutnode_eq env hfound ha] at h
      rw [fsPutnode_eq env hfound (by omega : 0 < a + b)]
      split_ifs at h with hmany
      obtain ⟨u, hput, hpair⟩ := map_eq_ok.mp h
      cases hpair
      have hrest := fsPutnode_rest env hl hs hfound ha hput (by omega)
      split_ifs at hrest with hlast
      · -- nobody uses it any more
        rw [if_pos (by omega)]
        unfold fsPutnode
        rw [hrest]
      · obtain ⟨hfound', hleft⟩ := hrest
        have hsum : (a + b).toNat = a.toNat + b.toNat := by omega
        rw [fsPutnode_eq env hfound' hb, hleft, hsum, putTimes_add, hput]
        split_ifs with hless hmore hmore
        · rfl
        · omega
        · omega
        · rfl

/-- The file is open three times. -/
def openedThrice : State small := openedFile.modify slot1 (setCount 3)

theorem fs_putnode_add_small :
    ∃ t, fsPutnode smallEnvironment ⟨1, 2, 1⟩ openedThrice = .ok (.OK, t) ∧
      fsPutnode smallEnvironment ⟨1, 2, 2⟩ t = fsPutnode smallEnvironment ⟨1, 2, 3⟩ openedThrice := by
  have hkey : slotKey (openedFile.inode slot1) = some (1, 2) := by decide
  have hnum := (slotKey_eq_some.mp hkey).1
  have hl : Linked openedThrice :=
    linked_setCount linked_openedFile hnum (by decide) (Nat.succ_pos 2)
  have hs : Single (view openedThrice) := by
    unfold openedThrice
    rw [view_setCount]
    have honly : ∀ r, (view openedFile).key r ≠ none → r = slot1 := by
      intro r hr
      rcases (by decide : ∀ r : Slot small, r = slot0 ∨ r = slot1) r with rfl | rfl
      · exact absurd (by decide) hr
      · rfl
    intro q r k hq hr
    rw [honly q (by rw [hq]; exact nofun), honly r (by rw [hr]; exact nofun)]
  have hfound : findInode openedThrice 1 2 = some slot1 := by
    unfold openedThrice
    rw [findInode_setCount (by decide) (Nat.succ_pos 2)]
    decide
  have hput : fsPutnode smallEnvironment ⟨1, 2, 1⟩ openedThrice =
      .ok (.OK, openedThrice.modify slot1 (setCount 2)) := by
    rw [fsPutnode_eq _ hfound Int.one_pos]
    have hcount : (openedThrice.inode slot1).i_count = 3 := by decide
    rw [hcount, if_neg (by decide)]
    change (putTimes smallEnvironment slot1 1 openedThrice).map _ = _
    rw [putTimes_some _ 1 (by rw [hcount]; decide), hcount]
    rfl
  exact ⟨_, hput, fs_putnode_add hl hs Int.one_pos (by decide) hput⟩

end MinixOS.InodeUse
