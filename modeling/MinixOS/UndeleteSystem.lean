import MinixOS.SystemRuns
import MinixOS.UndeleteTable

/-!
# Runs of the undelete table

The file server and the undelete command call one function of the table after the
other. A call takes a step when it returns. A call that is stopped takes none, so
that a statement about runs says nothing of it: that a call does return is
stated beside it where it holds.
-/
namespace MinixOS.UndeleteSystem
open LoopExecution CheckedExecution SystemRuns UndeleteTable

inductive Request where
  | insertToHash (key : ℤ) (data : List UInt8)
  | deleteFromHash
  | deleteFromHashTable (keyDel : ℤ)
deriving DecidableEq, Repr

variable {SIZE : ℕ}

/-- The fuel bounds the loop of `deleteFromHashTable`. -/
def execute (fuel : ℕ) : Request → Table SIZE → Except Stop (Outcome SIZE)
  | .insertToHash key data, t => insertToHash fuel key data t
  | .deleteFromHash, t => deleteFromHash fuel t
  | .deleteFromHashTable keyDel, t => deleteFromHashTable fuel keyDel t

/-- The call returns, with this outcome. -/
def Returns (call : Request) (t : Table SIZE) (out : Outcome SIZE) : Prop :=
  ∃ fuel, execute fuel call t = .ok out

structure Answer where
  log : List Output
  ret : Option DataItem
deriving DecidableEq, Repr

def system (SIZE : ℕ) : System (Table SIZE) Request Answer where
  init := Table.initial SIZE
  returns t call answer t' := Returns call t ⟨t', answer.log, answer.ret⟩

abbrev Call (SIZE : ℕ) := Step (Table SIZE) Request Answer

def serve (fuel : ℕ) (call : Request) (t : Table SIZE) : Option (Answer × Table SIZE) :=
  (execute fuel call t).toOption.map fun out => (⟨out.log, out.ret⟩, out.table)

theorem replay_run (fuel : ℕ) (calls : List Request) {history history' : List (Call SIZE)}
    {t t' : Table SIZE} (hr : Run (system SIZE) history t)
    (h : replay (serve fuel) calls history t = some (history', t')) :
    Run (system SIZE) history' t' := by
  refine hr.replay (fun {call s answer s'} hs => ?_) calls h
  obtain ⟨out, hout, hpair⟩ := Option.map_eq_some_iff.mp hs
  cases hpair
  refine ⟨fuel, ?_⟩
  cases he : execute fuel call s with
  | error stop =>
      rw [he] at hout
      cases hout
  | ok out' =>
      rw [he] at hout
      cases hout
      rfl

/-! ## More fuel keeps a result -/

theorem deleteFromHashTable_mono {fuel : ℕ} {keyDel : ℤ} {t : Table SIZE} {out : Outcome SIZE}
    (h : deleteFromHashTable fuel keyDel t = .ok out) (extra : ℕ) :
    deleteFromHashTable (fuel + extra) keyDel t = .ok out := by
  by_cases hs : t.hashSize < 1
  · simp only [deleteFromHashTable, if_pos hs] at h ⊢
    exact h
  · simp only [deleteFromHashTable, if_neg hs] at h ⊢
    obtain ⟨found, hloop, hrest⟩ := bind_eq_ok.mp h
    exact bind_eq_ok.mpr ⟨found, loop_mono hloop extra, hrest⟩

theorem deleteFromHash_mono {fuel : ℕ} {t : Table SIZE} {out : Outcome SIZE}
    (h : deleteFromHash fuel t = .ok out) (extra : ℕ) :
    deleteFromHash (fuel + extra) t = .ok out := by
  by_cases hs : 1 ≤ t.hashSize
  · simp only [deleteFromHash, if_pos hs] at h ⊢
    obtain ⟨key, hkey, h⟩ := bind_eq_ok.mp h
    obtain ⟨inodes, hinodes, h⟩ := bind_eq_ok.mp h
    obtain ⟨deleted, hdeleted, hrest⟩ := bind_eq_ok.mp h
    have hmono := deleteFromHashTable_mono hdeleted extra
    exact bind_eq_ok.mpr ⟨key, hkey, bind_eq_ok.mpr ⟨inodes, hinodes,
      bind_eq_ok.mpr ⟨deleted, hmono, hrest⟩⟩⟩
  · simp only [deleteFromHash, if_neg hs] at h ⊢
    exact h

theorem insertToHash_mono {fuel : ℕ} {key : ℤ} {data : List UInt8} {t : Table SIZE}
    {out : Outcome SIZE} (h : insertToHash fuel key data t = .ok out) (extra : ℕ) :
    insertToHash (fuel + extra) key data t = .ok out := by
  by_cases hs : t.hashSize < SIZE
  · simp only [insertToHash, if_pos hs] at h ⊢
    exact h
  · simp only [insertToHash, if_neg hs] at h ⊢
    obtain ⟨evicted, hevicted, hrest⟩ := bind_eq_ok.mp h
    exact bind_eq_ok.mpr ⟨evicted, deleteFromHash_mono hevicted extra, hrest⟩

theorem execute_mono {fuel : ℕ} {call : Request} {t : Table SIZE} {out : Outcome SIZE}
    (h : execute fuel call t = .ok out) (extra : ℕ) : execute (fuel + extra) call t = .ok out := by
  cases call with
  | insertToHash key data => exact insertToHash_mono h extra
  | deleteFromHash => exact deleteFromHash_mono h extra
  | deleteFromHashTable keyDel => exact deleteFromHashTable_mono h extra

theorem Returns.unique {call : Request} {t : Table SIZE} {out out' : Outcome SIZE}
    (h : Returns call t out) (h' : Returns call t out') : out = out' := by
  obtain ⟨fuel, hf⟩ := h
  obtain ⟨fuel', hf'⟩ := h'
  have hm := execute_mono hf fuel'
  have hm' := execute_mono hf' fuel
  rw [Nat.add_comm] at hm'
  exact Except.ok.inj (hm.symm.trans hm')

end MinixOS.UndeleteSystem
