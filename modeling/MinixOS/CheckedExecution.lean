import MinixOS.LoopExecution
import Mathlib.Data.Int.Notation
import Mathlib.Data.Nat.Notation
import Mathlib.Data.Vector.Defs

/-!
# Calls that may be stopped

A call of a C function comes to a result, or it is stopped: by an access outside
the bounds of an array, or by reading through NULL. What the program would do
after such an access is not modelled. Calls are chained in the monad `Except`, and
this file holds the rules for that, for checked arrays, and for a loop whose
body can be stopped.
-/
namespace MinixOS.CheckedExecution
open LoopExecution

/-- Why a call comes to no result. The last case says that the bound on the number
of passes ran out, and is not a behaviour of the program. -/
inductive Stop where
  | outOfRange (index : ℤ)
  | nullPointer
  | passesRanOut
deriving DecidableEq, Repr

section Chaining
universe u
variable {E : Type*} {A B : Type u}

@[simp] theorem ok_bind (a : A) (f : A → Except E B) : (Except.ok a >>= f) = f a := rfl

@[simp] theorem error_bind (e : E) (f : A → Except E B) :
    (Except.error e >>= f) = .error e := rfl

@[simp] theorem pure_eq_ok (a : A) : (pure a : Except E A) = .ok a := rfl

/-- A chained call with a result has one at every link. -/
theorem bind_eq_ok {x : Except E A} {f : A → Except E B} {b : B} :
    (x >>= f) = .ok b ↔ ∃ a, x = .ok a ∧ f a = .ok b := by
  cases x <;> simp

theorem map_eq_ok {x : Except E A} {f : A → B} {b : B} :
    x.map f = .ok b ↔ ∃ a, x = .ok a ∧ f a = b := by
  cases x <;> simp [Except.map]

/-- If the call has a result, the result is such. -/
def Ensures (x : Except E A) (Q : A → Prop) : Prop := ∀ a, x = .ok a → Q a

theorem ensures_ok {a : A} {Q : A → Prop} (h : Q a) : Ensures (.ok a : Except E A) Q := by
  intro b hb
  cases hb
  exact h

theorem Ensures.mono {x : Except E A} {Q R : A → Prop} (h : Ensures x Q) (hqr : ∀ a, Q a → R a) :
    Ensures x R :=
  fun a hx => hqr a (h a hx)

theorem ensures_error (e : E) (Q : A → Prop) : Ensures (.error e) Q := nofun

theorem Ensures.bind {x : Except E A} {f : A → Except E B} {Q : A → Prop} {R : B → Prop}
    (h : Ensures x Q) (hf : ∀ a, Q a → Ensures (f a) R) : Ensures (x >>= f) R := by
  intro b hb
  obtain ⟨a, hx, hfa⟩ := bind_eq_ok.mp hb
  exact hf a (h a hx) b hfa

/-- The call has such a result, or is stopped in such a way. -/
def Results (x : Except E A) (F : E → Prop) (Q : A → Prop) : Prop :=
  match x with
  | .ok a => Q a
  | .error e => F e

theorem Results.bind {x : Except E A} {f : A → Except E B} {F : E → Prop} {Q : A → Prop}
    {R : B → Prop} (h : Results x F Q) (hf : ∀ a, Q a → Results (f a) F R) :
    Results (x >>= f) F R := by
  cases x with
  | ok a => exact hf a h
  | error e => exact h

theorem results_of_ok {x : Except E A} {F : E → Prop} {Q : A → Prop} {a : A} (h : x = .ok a)
    (hq : Q a) : Results x F Q := by
  rw [h]
  exact hq

theorem Results.mono {x : Except E A} {F : E → Prop} {Q R : A → Prop} (h : Results x F Q)
    (hqr : ∀ a, Q a → R a) : Results x F R := by
  cases x with
  | ok a => exact hqr a h
  | error e => exact h

theorem Results.ensures {x : Except E A} {F : E → Prop} {Q : A → Prop} (h : Results x F Q) :
    Ensures x Q := by
  intro a hx
  rw [hx] at h
  exact h

/-- The call is not stopped, and has such a result. -/
abbrev Succeeds (x : Except E A) (Q : A → Prop) : Prop := Results x (fun _ => False) Q

theorem Succeeds.exists {x : Except E A} {Q : A → Prop} (h : Succeeds x Q) :
    ∃ a, x = .ok a ∧ Q a := by
  cases x with
  | ok a => exact ⟨a, rfl, h⟩
  | error e => exact h.elim

end Chaining

/-! ## Checked arrays -/

section Arrays
variable {n : ℕ} {A : Type*}

def readAt (a : Vector A n) (i : ℤ) : Except Stop A :=
  if h : 0 ≤ i ∧ i.toNat < n then .ok (a.get ⟨i.toNat, h.2⟩) else .error (.outOfRange i)

def writeAt (a : Vector A n) (i : ℤ) (x : A) : Except Stop (Vector A n) :=
  if h : 0 ≤ i ∧ i.toNat < n then .ok (a.set i.toNat x h.2) else .error (.outOfRange i)

theorem readAt_fin (a : Vector A n) (i : Fin n) : readAt a (i : ℕ) = .ok (a.get i) := by
  simp [readAt]

theorem writeAt_fin (a : Vector A n) (i : Fin n) (x : A) :
    writeAt a (i : ℕ) x = .ok (a.set i x i.isLt) := by
  simp [writeAt]

theorem readAt_eq_ok {a : Vector A n} {i : ℤ} {x : A} :
    readAt a i = .ok x ↔ ∃ j : Fin n, i = (j : ℕ) ∧ a.get j = x := by
  constructor
  · intro h
    unfold readAt at h
    split at h
    · next hi => exact ⟨⟨i.toNat, hi.2⟩, (Int.toNat_of_nonneg hi.1).symm, Except.ok.inj h⟩
    · cases h
  · rintro ⟨j, rfl, rfl⟩
    exact readAt_fin a j

theorem get_set (a : Vector A n) (i j : Fin n) (x : A) :
    (a.set i x i.isLt).get j = if i = j then x else a.get j := by
  simp only [Fin.ext_iff]
  exact Vector.getElem_set i.isLt j.isLt

theorem getElem?_toList (a : Vector A n) (i : Fin n) : a.toList[(i : ℕ)]? = some (a.get i) := by
  simp [Vector.get]

theorem readAt_eq_ok_iff {a : Vector A n} {i : ℕ} {x : A} :
    readAt a (i : ℕ) = .ok x ↔ a.toList[i]? = some x := by
  rw [readAt_eq_ok]
  constructor
  · rintro ⟨j, hj, rfl⟩
    rw [Int.ofNat_inj.mp hj]
    exact getElem?_toList a j
  · intro h
    have hi := (List.getElem?_eq_some_iff.mp h).choose
    rw [Vector.length_toList] at hi
    refine ⟨⟨i, hi⟩, rfl, ?_⟩
    have hget := getElem?_toList a ⟨i, hi⟩
    exact Option.some.inj (hget.symm.trans h)

theorem toList_set {a : Vector A n} {front tail : List A} {x : A}
    (h : a.toList = front ++ x :: tail) (hi : front.length < n) (y : A) :
    (a.set front.length y hi).toList = front ++ y :: tail := by
  rw [Vector.toList_set, h]
  simp

theorem tail_of_room {a : Vector A n} {front tail : List A} (h : a.toList = front ++ tail)
    (hi : front.length < n) : ∃ x tail', tail = x :: tail' := by
  have hlength : a.toList.length = n := Vector.length_toList
  cases tail with
  | nil =>
      rw [h, List.append_nil] at hlength
      omega
  | cons x tail' => exact ⟨x, tail', rfl⟩

/-- A write behind `front` is in range if anything stands there. -/
theorem write_tail {a : Vector A n} {front tail : List A} {x : A}
    (h : a.toList = front ++ x :: tail) (y : A) :
    ∃ b, writeAt a (front.length : ℕ) y = .ok b ∧ b.toList = front ++ y :: tail := by
  have hlength : a.toList.length = n := Vector.length_toList
  have hi : front.length < n := by
    rw [h, List.length_append, List.length_cons] at hlength
    omega
  exact ⟨_, writeAt_fin a ⟨front.length, hi⟩ y, toList_set h hi y⟩

theorem get_replicate (x : A) (i : Fin n) : (Vector.replicate n x).get i = x :=
  Vector.getElem_replicate i.isLt

end Arrays

/-! ## Loops -/

section Loops
variable {S R : Type*} {body : S → Pass S (Except Stop R)} {s : S}

/-- At most `fuel` passes of a loop whose body can be stopped. -/
def loop (body : S → Pass S (Except Stop R)) (fuel : ℕ) (s : S) : Except Stop R :=
  (run body fuel s).getD (.error .passesRanOut)

theorem loop_eq_ok {fuel : ℕ} {r : R} :
    loop body fuel s = .ok r ↔ run body fuel s = some (.ok r) := by
  cases h : run body fuel s with
  | none => simp [loop, h]
  | some q => simp [loop, h]

/-- More fuel keeps a result. -/
theorem loop_mono {fuel : ℕ} {r : R} (h : loop body fuel s = .ok r) (extra : ℕ) :
    loop body (fuel + extra) s = .ok r :=
  loop_eq_ok.mpr (run_mono (loop_eq_ok.mp h) extra)

theorem leaves_of_loop {fuel : ℕ} {r : R} (h : loop body fuel s = .ok r) :
    Leaves body s (.ok r) :=
  ⟨fuel, loop_eq_ok.mp h⟩

theorem exists_loop_of_leaves {r : R} (h : Leaves body s (.ok r)) :
    ∃ fuel, loop body fuel s = .ok r := by
  obtain ⟨fuel, hf⟩ := h
  exact ⟨fuel, loop_eq_ok.mpr hf⟩

/-- With every large enough bound on the passes, the call comes to this result. -/
def ComesTo (call : ℕ → Except Stop R) (r : R) : Prop :=
  ∃ enough, ∀ fuel, enough ≤ fuel → call fuel = .ok r

theorem ComesTo.unique {call : ℕ → Except Stop R} {q r : R} (hq : ComesTo call q)
    (hr : ComesTo call r) : q = r := by
  obtain ⟨m, hm⟩ := hq
  obtain ⟨n, hn⟩ := hr
  have hm' := hm (max m n) (Nat.le_max_left m n)
  have hn' := hn (max m n) (Nat.le_max_right m n)
  exact Except.ok.inj (hm'.symm.trans hn')

theorem comesTo_ok (r : R) : ComesTo (fun _ => .ok r) r := ⟨0, fun _ _ => rfl⟩

theorem comesTo_of_leaves {r : R} (h : Leaves body s (.ok r)) :
    ComesTo (fun fuel => loop body fuel s) r := by
  obtain ⟨fuel, hf⟩ := exists_loop_of_leaves h
  refine ⟨fuel, fun more hle => ?_⟩
  rw [← Nat.add_sub_of_le hle]
  exact loop_mono hf _

end Loops

theorem ComesTo.bind {A B : Type} {call : ℕ → Except Stop A} {rest : ℕ → A → Except Stop B}
    {a : A} {b : B} (ha : ComesTo call a) (hb : ComesTo (fun fuel => rest fuel a) b) :
    ComesTo (fun fuel => call fuel >>= rest fuel) b := by
  obtain ⟨m, hm⟩ := ha
  obtain ⟨n, hn⟩ := hb
  refine ⟨max m n, fun fuel hle => ?_⟩
  dsimp only
  rw [hm fuel (Nat.le_trans (Nat.le_max_left m n) hle), ok_bind]
  exact hn fuel (Nat.le_trans (Nat.le_max_right m n) hle)

/-- The call comes to this result, and with too few passes to none. -/
structure Yields {R : Type*} (call : ℕ → Except Stop R) (r : R) : Prop where
  comes : ComesTo call r
  only : ∀ fuel, call fuel = .ok r ∨ call fuel = .error .passesRanOut

theorem yields_of_leaves {S R : Type*} {body : S → Pass S (Except Stop R)} {s : S} {r : R}
    (h : Leaves body s (.ok r)) : Yields (fun fuel => loop body fuel s) r := by
  refine ⟨comesTo_of_leaves h, fun fuel => ?_⟩
  unfold loop
  cases hrun : run body fuel s with
  | none => exact .inr rfl
  | some q =>
      cases h.unique ⟨fuel, hrun⟩
      exact .inl rfl

section Yields
variable {A B : Type} {call : ℕ → Except Stop A} {rest : A → Except Stop B} {a : A} {b : B}

theorem Yields.bind (h : Yields call a) (hb : rest a = .ok b) :
    Yields (fun fuel => call fuel >>= rest) b := by
  constructor
  · have hrest : ComesTo (fun _ => rest a) b := ⟨0, fun _ _ => hb⟩
    exact h.comes.bind hrest
  · intro fuel
    rcases h.only fuel with hok | hout
    · rw [hok, ok_bind]
      exact .inl hb
    · rw [hout, error_bind]
      exact .inr rfl

/-- Two calls with the same bound on the passes. -/
theorem Yields.followed {next : ℕ → A → Except Stop B} (h : Yields call a)
    (hb : Yields (fun fuel => next fuel a) b) : Yields (fun fuel => call fuel >>= next fuel) b := by
  refine ⟨h.comes.bind hb.comes, fun fuel => ?_⟩
  rcases h.only fuel with hok | hout
  · rw [hok, ok_bind]
    exact hb.only fuel
  · rw [hout, error_bind]
    exact .inr rfl

/-- What follows the call decides whether an access is out of range. -/
theorem Yields.outOfRange_iff (h : Yields call a) (index : ℤ) :
    (∃ fuel, (call fuel >>= rest) = .error (.outOfRange index)) ↔
      rest a = .error (.outOfRange index) := by
  constructor
  · rintro ⟨fuel, hstop⟩
    rcases h.only fuel with hok | hout
    · rw [hok, ok_bind] at hstop
      exact hstop
    · rw [hout, error_bind] at hstop
      cases hstop
  · intro hstop
    rcases h.comes with ⟨enough, hcomes⟩
    refine ⟨enough, ?_⟩
    rw [hcomes enough (Nat.le_refl _), ok_bind, hstop]

end Yields

end MinixOS.CheckedExecution
