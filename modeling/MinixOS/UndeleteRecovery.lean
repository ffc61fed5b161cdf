import MinixOS.UndeleteLookup
import MinixOS.UndeletePaths

/-!
# Recovering a directory

The function `returnFileName` answers with a part of the stored path, and takes the
last slash out of the path to get there. A second call for the same key looks
for the slash before that one. When there is none left, it reads through NULL.

The command that recovers all files of a directory calls it once in each pass of its
loop, and the body of the loop does not move to the next inode of the array. So the
loop is left only if the array lists nothing.
-/
namespace MinixOS.UndeleteRecovery
open LoopExecution CheckedExecution SystemRuns LinearProbing UndeleteTable UndeleteProbing
open UndeleteSystem UndeleteLookup UndeletePaths

variable {SIZE : ℕ}

/-! ## One name -/

/-- The part of a path behind its last slash. -/
def fileName (path : List UInt8) : List UInt8 := (path.reverse.takeWhile (· ≠ slash)).reverse

theorem moveDown_split (front back : List UInt8) :
    moveDown (front ++ slash :: back) front.length = front ++ back := by
  have hat : (front ++ slash :: back)[front.length]? = some slash := by simp
  unfold moveDown
  rw [if_pos hat, List.eraseIdx_append_of_length_le (Nat.le_refl _), Nat.sub_self,
    List.eraseIdx_cons_zero]

/-- The slot holds the path without its last slash. -/
def renameAt (t : Table SIZE) (i : Fin SIZE) (key : ℤ) (path : List UInt8) : Table SIZE :=
  { t with hashArray := t.hashArray.set i (some ⟨path, key⟩) i.isLt }

/-- What a call that returns has done: there was no item of the key, or the answer is the
name in the path of the item the search met, and its last slash is gone. -/
theorem returnFileName_cases {key : ℤ} {t : Table SIZE} {r : FileName SIZE}
    (h : returnFileName key t = .ok r) :
    (r.ret = none ∧ r.table = t) ∨
      ∃ i front back, t.hashArray.get i = some ⟨front ++ slash :: back, key⟩ ∧ slash ∉ back ∧
        r.ret = some back ∧ r.table = renameAt t i key (front ++ back) := by
  unfold returnFileName at h
  rcases bind_eq_ok.mp h with ⟨found, hsearch, hrest⟩
  cases found with
  | none =>
      left
      cases hrest
      exact ⟨rfl, rfl⟩
  | some found =>
      right
      rcases found with ⟨j, item⟩
      rcases searchLoop_sound hsearch with ⟨hkey, hread⟩
      rcases readAt_eq_ok.mp hread with ⟨i, rfl, hget⟩
      cases hslash : strrchr slash item.data with
      | none => simp [hslash] at hrest
      | some pathLoc =>
          rcases strrchr_split hslash with ⟨front, back, hdata, hback, rfl⟩
          rcases item with ⟨data, itemKey⟩
          dsimp only at hdata hkey hslash
          subst hdata hkey
          simp only [hslash, moveDown_split, writeAt_fin, ok_bind, pure_eq_ok,
            Except.ok.injEq] at hrest
          rw [← hrest]
          exact ⟨i, front, back, hget, hback, by simp, rfl⟩

/-- A call that answers with a name has changed the table. -/
theorem returnFileName_changes {key : ℤ} {t : Table SIZE} {r : FileName SIZE}
    (h : returnFileName key t = .ok r) (hret : r.ret ≠ none) :
    r.table.hashArray ≠ t.hashArray := by
  rcases returnFileName_cases h with ⟨hnone, _⟩ | ⟨i, front, back, hget, _, _, htable⟩
  · exact absurd hnone hret
  · intro hsame
    have hat := congrArg (fun a => a.get i) hsame
    unfold renameAt at htable
    rw [htable, hget, get_set, if_pos rfl, Option.some.injEq, DataItem.mk.injEq] at hat
    have hlength := congrArg List.length hat.1
    rw [List.length_append, List.length_append, List.length_cons] at hlength
    omega

/-- The answers of several calls for the key, one after the other, and the table they leave. -/
def namesOf (key : ℤ) : ℕ → Table SIZE → Except Stop (List (Option (List UInt8)) × Table SIZE)
  | 0, t => return ([], t)
  | calls + 1, t => do
      let r ← returnFileName key t
      let (answers, last) ← namesOf key calls r.table
      return (r.ret :: answers, last)

/-- Any number of calls for the key all answer with the name in the path, and leave every
stored path as it was. -/
def PureLookup (t : Table SIZE) (key : ℤ) (path : List UInt8) : Prop :=
  ∀ calls, ∃ answers last, namesOf key calls t = .ok (answers, last) ∧
    (∀ answer ∈ answers, answer = some (fileName path)) ∧ last.hashArray = t.hashArray

theorem pureLookup_first {t : Table SIZE} {key : ℤ} {path : List UInt8}
    (h : PureLookup t key path) :
    ∃ r, returnFileName key t = .ok r ∧ r.ret ≠ none ∧ r.table.hashArray = t.hashArray := by
  rcases h 1 with ⟨answers, last, hnames, hanswers, hsame⟩
  rcases bind_eq_ok.mp hnames with ⟨r, hr, hrest⟩
  cases hrest
  refine ⟨r, hr, ?_, hsame⟩
  rw [hanswers r.ret List.mem_cons_self]
  exact Option.some_ne_none _

/-- In no table is the function a pure lookup of any entry. -/
theorem not_pure_lookup (t : Table SIZE) (key : ℤ) (path : List UInt8) :
    ¬ PureLookup t key path := by
  intro h
  rcases pureLookup_first h with ⟨r, hr, hret, hsame⟩
  exact returnFileName_changes hr hret hsame

/-- The path of the only entry loses its slash. -/
theorem pure_lookup_fails :
    ¬ ∀ (history : List (Call 3)) (t : Table 3), Run (system 3) history t →
      (∀ e ∈ history, KeyNonneg e.call) → ∀ item ∈ entries t, slash ∈ item.data →
        PureLookup t item.key item.data := by
  intro h
  have hr : ∃ (history : List (Call 3)) (t : Table 3), Run (system 3) history t ∧
      (∀ e ∈ history, KeyNonneg e.call) ∧ ⟨[47, 97], 4⟩ ∈ entries t :=
    ⟨_, _, replay_run 4 [.insertToHash 4 [47, 97]] .init rfl, by decide, by decide⟩
  rcases hr with ⟨history, t, hrun, hcalls, hentry⟩
  rcases pureLookup_first (h history t hrun hcalls _ hentry (by decide)) with ⟨r, hr, hret, hsame⟩
  exact returnFileName_changes hr hret hsame

/-! ## All files of a directory -/

/-- What `main` reads of `struct stat`. -/
structure Stat where
  st_ino : ℤ
  st_dev : ℤ
deriving DecidableEq, Repr

/-- The message that `recover_file` sends to the file server. -/
structure RecoverFile where
  num : ℤ
  filename : Option (List UInt8)
  dirInode : ℤ
  dev : ℤ
deriving DecidableEq, Repr

/-- The loop state: `i`, the table, and the calls of `recover_file` so far. -/
structure Recovery (SIZE : ℕ) where
  table : Table SIZE
  i : ℕ
  recovered : List RecoverFile
deriving DecidableEq, Repr

/-- One pass of `while(array[i] != -1)`. Nothing in the body writes `i`. -/
def recoverPass (buf : Stat) (array : Vector ℤ SIZE) (s : Recovery SIZE) :
    Pass (Recovery SIZE) (Except Stop (Recovery SIZE)) :=
  match readAt array s.i with
  | .error stop => .leave (.error stop)
  | .ok num =>
      if num = -1 then .leave (.ok s)
      else
        match returnFileName num s.table with
        | .error stop => .leave (.error stop)
        | .ok r =>
            .again
              { s with
                table := r.table
                recovered := s.recovered ++ [⟨num, r.ret, buf.st_ino, buf.st_dev⟩] }

/-- Case '1' of `main`, once `getcwd` and `stat` have answered. -/
def recoverDirectory (fuel : ℕ) (curDir : List UInt8) (buf : Stat) (t : Table SIZE) :
    Except Stop (Recovery SIZE) := do
  let array ← searchOnPath curDir t
  loop (recoverPass buf array.arrInodes) fuel { table := t, i := 0, recovered := [] }

/-- The loop over the array ends, and it has called `recover_file` for the inodes in front
of the first -1, once for each and in their order. -/
def RecoversListed (buf : Stat) (array : Vector ℤ SIZE) (t : Table SIZE) : Prop :=
  ∃ s, Leaves (recoverPass buf array) ⟨t, 0, []⟩ (.ok s) ∧
    s.recovered.map RecoverFile.num = array.toList.takeWhile (· ≠ -1)

section Recover
variable [NeZero SIZE] {buf : Stat} {array : Vector ℤ SIZE}

/-- The pass from which the loop is left reads the first element again. -/
theorem first_of_leaves {s s' : Recovery SIZE} (hs : s.i = 0)
    (h : Leaves (recoverPass buf array) s (.ok s')) : array.get 0 = -1 := by
  have hstep : ∀ s t : Recovery SIZE, s.i = 0 → recoverPass buf array s = .again t → t.i = 0 := by
    intro s t hs hagain
    unfold recoverPass at hagain
    split at hagain
    · cases hagain
    · split_ifs at hagain
      split at hagain
      · cases hagain
      · cases hagain
        exact hs
  rcases h.invariant hs hstep with ⟨last, hlast, hleave⟩
  have hread : readAt array last.i = .ok (array.get 0) := by
    rw [hlast]
    exact readAt_fin array 0
  unfold recoverPass at hleave
  simp only [hread] at hleave
  split_ifs at hleave with hfirst
  · exact hfirst
  · split at hleave
    · cases hleave
    · cases hleave

/-- Where the first element is -1 the loop is left at once. -/
theorem recover_of_first (buf : Stat) (t : Table SIZE) (hfirst : array.get 0 = -1) :
    RecoversListed buf array t := by
  have hread : readAt array (0 : ℕ) = .ok (array.get 0) := readAt_fin array 0
  have hpass : recoverPass buf array ⟨t, 0, []⟩ = .leave (.ok ⟨t, 0, []⟩) := by
    simp only [recoverPass, hread, if_pos hfirst]
  refine ⟨⟨t, 0, []⟩, ⟨1, run_succ_of_leave hpass 0⟩, ?_⟩
  have hhead : array.toList[0]? = some (-1) := by
    rw [← hfirst]
    exact getElem?_toList array 0
  cases hlist : array.toList with
  | nil => simp [hlist] at hhead
  | cons num rest =>
      rw [hlist, List.getElem?_cons_zero, Option.some.injEq] at hhead
      rw [hhead, List.takeWhile_cons_of_neg (by simp)]
      rfl

/-- The loop does what it should exactly when the array lists nothing. -/
theorem recovers_listed_iff (buf : Stat) (array : Vector ℤ SIZE) (t : Table SIZE) :
    RecoversListed buf array t ↔ array.get 0 = -1 := by
  constructor
  · rintro ⟨s, hleaves, _⟩
    exact first_of_leaves rfl hleaves
  · exact recover_of_first buf t

/-- The command comes to an end only in a directory of which nothing is listed. -/
theorem recoverDirectory_returns_iff {curDir : List UInt8} {t : Table SIZE} :
    (∃ fuel s, recoverDirectory fuel curDir buf t = .ok s) ↔
      ∃ l, searchOnPath curDir t = .ok l ∧ l.arrInodes.get 0 = -1 := by
  constructor
  · rintro ⟨fuel, s, h⟩
    rcases bind_eq_ok.mp h with ⟨l, hl, hloop⟩
    exact ⟨l, hl, first_of_leaves rfl (leaves_of_loop hloop)⟩
  · rintro ⟨l, hl, hfirst⟩
    rcases recover_of_first buf t hfirst with ⟨s, hleaves, _⟩
    rcases exists_loop_of_leaves hleaves with ⟨fuel, hloop⟩
    exact ⟨fuel, s, bind_eq_ok.mpr ⟨l, hl, hloop⟩⟩

end Recover

/-- The loop over the array of a directory of which nothing is listed, and over one that lists a
file. -/
theorem recovers_listed_iff_three :
    RecoversListed ⟨1, 1⟩ (Vector.replicate 3 (-1)) (Table.initial 3) ∧
      ¬ RecoversListed ⟨1, 1⟩ (Vector.replicate 3 5) (Table.initial 3) := by
  constructor
  · exact (recovers_listed_iff ⟨1, 1⟩ (Vector.replicate 3 (-1)) (Table.initial 3)).mpr rfl
  · intro h
    have hfirst := (recovers_listed_iff ⟨1, 1⟩ (Vector.replicate 3 5) (Table.initial 3)).mp h
    exact absurd hfirst (by decide)

/-- The directory of one deleted file. -/
theorem recovers_listed_fails :
    ¬ ∀ (history : List (Call 3)) (t : Table 3), Run (system 3) history t →
      (∀ e ∈ history, KeyNonneg e.call) → ∀ curDir l, searchOnPath curDir t = .ok l →
        ∀ buf, RecoversListed buf l.arrInodes t := by
  intro h
  have hr : ∃ (history : List (Call 3)) (t : Table 3), Run (system 3) history t ∧
      (∀ e ∈ history, KeyNonneg e.call) ∧
      ∃ l, searchOnPath [47, 97] t = .ok l ∧ l.arrInodes.get 0 = 3 :=
    ⟨_, _, replay_run 4 [.insertToHash 3 [47, 97, 47, 98]] .init rfl, by decide, _, rfl, by decide⟩
  rcases hr with ⟨history, t, hrun, hcalls, l, hl, hthree⟩
  rcases h history t hrun hcalls [47, 97] l hl ⟨1, 1⟩ with ⟨s, hleaves, _⟩
  rw [first_of_leaves rfl hleaves] at hthree
  exact absurd hthree (by decide)

end MinixOS.UndeleteRecovery
