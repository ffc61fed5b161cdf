import Mathlib.Init
import Mathlib.Tactic.Common

/-!
# Loops with a body that may leave

A `while` or `for` loop is given by its body. One pass through the body either
leaves the loop with a result or comes back to the loop head with a new loop
state. No bound on the number of passes is part of the loop: a bound is only
supplied when the loop is executed, and running out of it is not a result.

The rules below are the ones a proof about such a loop uses. Two executions of
one loop agree, a loop whose body hands its own state back is never left, and a
loop is left once a described path of passes reaches a leaving one. What every pass
keeps still holds in the pass that leaves.
-/
namespace MinixOS.LoopExecution

variable {S R : Type*}

/-- What one pass through the body does. -/
inductive Pass (S R : Type*) where
  | leave (result : R)
  | again (state : S)

/-- At most `fuel` passes. The answer `none` says that the fuel ran out. -/
def run (body : S → Pass S R) : ℕ → S → Option R
  | 0, _ => none
  | fuel + 1, s =>
      match body s with
      | .leave r => some r
      | .again t => run body fuel t

/-- The loop is left with the result `r`, after some number of passes. -/
def Leaves (body : S → Pass S R) (s : S) (r : R) : Prop :=
  ∃ fuel, run body fuel s = some r

/-- No number of passes leaves the loop. -/
def Diverges (body : S → Pass S R) (s : S) : Prop :=
  ∀ fuel, run body fuel s = none

theorem run_succ_of_leave {body : S → Pass S R} {s : S} {r : R}
    (h : body s = .leave r) (fuel : ℕ) : run body (fuel + 1) s = some r := by
  simp only [run, h]

theorem run_succ_of_again {body : S → Pass S R} {s t : S}
    (h : body s = .again t) (fuel : ℕ) : run body (fuel + 1) s = run body fuel t := by
  simp only [run, h]

/-- More fuel keeps a result. -/
theorem run_mono {body : S → Pass S R} {fuel : ℕ} {s : S} {r : R}
    (h : run body fuel s = some r) (extra : ℕ) : run body (fuel + extra) s = some r := by
  induction fuel generalizing s with
  | zero => simp only [run, reduceCtorEq] at h
  | succ fuel ih =>
      rw [Nat.add_right_comm]
      cases hb : body s with
      | leave q =>
          rw [run_succ_of_leave hb] at h ⊢
          exact h
      | again t =>
          rw [run_succ_of_again hb] at h ⊢
          exact ih h

theorem Leaves.unique {body : S → Pass S R} {s : S} {q r : R}
    (hq : Leaves body s q) (hr : Leaves body s r) : q = r := by
  obtain ⟨m, hm⟩ := hq
  obtain ⟨n, hn⟩ := hr
  have hm' := run_mono hm n
  have hn' := run_mono hn m
  rw [Nat.add_comm] at hn'
  exact Option.some.inj (hm'.symm.trans hn')

/-- A loop that only meets states it comes back from is never left. -/
theorem diverges_of_invariant {body : S → Pass S R} {I : S → Prop}
    (step : ∀ s, I s → ∃ t, I t ∧ body s = .again t) {s : S} (hs : I s) : Diverges body s := by
  intro fuel
  induction fuel generalizing s with
  | zero => rfl
  | succ fuel ih =>
      rcases step s hs with ⟨t, ht, hagain⟩
      rw [run_succ_of_again hagain, ih ht]

/-- A body that hands the loop head its own state back is never left. -/
theorem diverges_of_again_self {body : S → Pass S R} {s : S}
    (h : body s = .again s) : Diverges body s :=
  diverges_of_invariant (I := fun t => t = s) (fun t ht => ⟨t, ht, by rw [ht, h]⟩) rfl

theorem Diverges.pass {body : S → Pass S R} {s t : S} (h : Diverges body t)
    (hp : body s = .again t) : Diverges body s := by
  intro fuel
  cases fuel with
  | zero => rfl
  | succ fuel => rw [run_succ_of_again hp, h]

/-- A loop that is never left has no result. -/
theorem Diverges.not_leaves {body : S → Pass S R} {s : S} {r : R} (h : Diverges body s) :
    ¬ Leaves body s r := by
  rintro ⟨fuel, hf⟩
  exact absurd ((h fuel).symm.trans hf) (Option.some_ne_none r).symm

/-- A loop that walks along `path` and leaves at its `n`-th state makes `n + 1` passes. -/
theorem run_of_path {body : S → Pass S R} {r : R} (n : ℕ) (path : ℕ → S)
    (walk : ∀ i < n, body (path i) = .again (path (i + 1)))
    (last : body (path n) = .leave r) : run body (n + 1) (path 0) = some r := by
  induction n generalizing path with
  | zero => exact run_succ_of_leave last 0
  | succ n ih =>
      rw [run_succ_of_again (walk 0 n.succ_pos)]
      exact ih (fun i => path (i + 1)) (fun i hi => walk (i + 1) (Nat.succ_lt_succ hi)) last

/-- Some number of passes leads from one loop state to the other. -/
inductive Walks (body : S → Pass S R) : S → S → Prop
  | refl (s : S) : Walks body s s
  | pass {s t u : S} : body s = .again t → Walks body t u → Walks body s u

theorem Walks.one {body : S → Pass S R} {s t : S} (h : body s = .again t) : Walks body s t :=
  .pass h (.refl t)

theorem Walks.trans {body : S → Pass S R} {s t u : S} (h : Walks body s t)
    (h' : Walks body t u) : Walks body s u := by
  induction h with
  | refl _ => exact h'
  | pass hp _ ih => exact .pass hp (ih h')

theorem Leaves.pass {body : S → Pass S R} {s t : S} {r : R} (h : Leaves body t r)
    (hp : body s = .again t) : Leaves body s r := by
  obtain ⟨fuel, hf⟩ := h
  exact ⟨fuel + 1, by rw [run_succ_of_again hp, hf]⟩

theorem Walks.leaves {body : S → Pass S R} {s t : S} {r : R} (h : Walks body s t)
    (hl : body t = .leave r) : Leaves body s r := by
  induction h with
  | refl s => exact ⟨1, run_succ_of_leave hl 0⟩
  | pass hp _ ih => exact (ih hl).pass hp

/-- The way to the result goes through every state that is walked to. -/
theorem Leaves.of_walks {body : S → Pass S R} {s t : S} {r : R} (h : Leaves body s r)
    (hw : Walks body s t) : Leaves body t r := by
  induction hw with
  | refl s => exact h
  | pass hp _ ih =>
      apply ih
      obtain ⟨fuel, hf⟩ := h
      cases fuel with
      | zero => cases hf
      | succ fuel =>
          rw [run_succ_of_again hp] at hf
          exact ⟨fuel, hf⟩

/-- What every pass keeps holds where the loop is left. -/
theorem Leaves.invariant {body : S → Pass S R} {I : S → Prop} {s : S} {r : R}
    (h : Leaves body s r) (hs : I s) (step : ∀ s t, I s → body s = .again t → I t) :
    ∃ t, I t ∧ body t = .leave r := by
  obtain ⟨fuel, hf⟩ := h
  induction fuel generalizing s with
  | zero => simp only [run, reduceCtorEq] at hf
  | succ fuel ih =>
      cases hb : body s with
      | leave q =>
          rw [run_succ_of_leave hb, Option.some.injEq] at hf
          subst hf
          exact ⟨s, hs, hb⟩
      | again t =>
          rw [run_succ_of_again hb] at hf
          exact ih (step s t hs hb) hf

/-- A loop that is left was walked to the pass that leaves it. -/
theorem Leaves.reached {body : S → Pass S R} {s : S} {r : R} (h : Leaves body s r) :
    ∃ t, Walks body s t ∧ body t = .leave r :=
  h.invariant (I := Walks body s) (.refl s) fun _ _ hs hp => hs.trans (.one hp)

/-! ## What the passes show -/

section Observation
variable {O : Type*} (body : S → Pass S R) (observe : S → List O)

/-- What is observed at the loop states of at most `fuel` passes, in their order. -/
def observed : ℕ → S → List O
  | 0, _ => []
  | fuel + 1, s =>
      match body s with
      | .leave _ => observe s
      | .again t => observe s ++ observed fuel t

variable {body observe}

/-- What every pass keeps between the loop state and the observations so far holds where
the loop is left. -/
theorem observed_invariant {I : List O → S → Prop} {fuel : ℕ} {s : S} {r : R} {seen : List O}
    (h : run body fuel s = some r) (hs : I seen s)
    (step : ∀ seen s t, I seen s → body s = .again t → I (seen ++ observe s) t) :
    ∃ before t, I before t ∧ body t = .leave r ∧
      seen ++ observed body observe fuel s = before ++ observe t := by
  induction fuel generalizing s seen with
  | zero => simp only [run, reduceCtorEq] at h
  | succ fuel ih =>
      cases hb : body s with
      | leave q =>
          rw [run_succ_of_leave hb, Option.some.injEq] at h
          subst h
          refine ⟨seen, s, hs, hb, ?_⟩
          simp only [observed, hb]
      | again t =>
          rw [run_succ_of_again hb] at h
          obtain ⟨before, u, hu, hleave, heq⟩ := ih h (step seen s t hs hb)
          refine ⟨before, u, hu, hleave, ?_⟩
          rw [← heq]
          simp only [observed, hb, List.append_assoc]

/-- More fuel shows nothing more of a loop that is left. -/
theorem observed_mono {fuel : ℕ} {s : S} {r : R} (h : run body fuel s = some r) (extra : ℕ) :
    observed body observe (fuel + extra) s = observed body observe fuel s := by
  induction fuel generalizing s with
  | zero => simp only [run, reduceCtorEq] at h
  | succ fuel ih =>
      rw [Nat.add_right_comm]
      cases hb : body s with
      | leave q => simp only [observed, hb]
      | again t =>
          rw [run_succ_of_again hb] at h
          simp only [observed, hb, ih h]

end Observation

end MinixOS.LoopExecution
