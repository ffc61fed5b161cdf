import MinixOS.CheckedExecution

/-!
# Two executions side by side

Two calls are related if they are stopped for the same reason, or come to related results. Chained
calls are related link by link, and loops pass by pass. Two arrays agree on some of their indices,
and a write to both adds an index to these.
-/
namespace MinixOS.RelatedExecutions
open LoopExecution CheckedExecution

section Calls
universe u
variable {E : Type*} {A B C D : Type u}

inductive Related (Q : A → B → Prop) : Except E A → Except E B → Prop
  | ok {a : A} {b : B} (h : Q a b) : Related Q (.ok a) (.ok b)
  | stopped (e : E) : Related Q (.error e) (.error e)

variable {Q Q' : A → B → Prop} {R : C → D → Prop} {x : Except E A} {y : Except E B}

theorem Related.outcomes (h : Related Q x y) :
    (∃ a b, x = .ok a ∧ y = .ok b ∧ Q a b) ∨ ∃ e, x = .error e ∧ y = .error e := by
  cases h with
  | ok h => exact .inl ⟨_, _, rfl, rfl, h⟩
  | stopped e => exact .inr ⟨e, rfl, rfl⟩

theorem Related.bind {f : A → Except E C} {g : B → Except E D} (h : Related Q x y)
    (hf : ∀ a b, Q a b → Related R (f a) (g b)) : Related R (x >>= f) (y >>= g) := by
  cases h with
  | ok h => exact hf _ _ h
  | stopped e => exact .stopped e

/-- A call beside itself. -/
theorem related_self (x : Except E A) : Related Eq x x := by
  cases x with
  | ok a => exact .ok rfl
  | error e => exact .stopped e

theorem Related.ite {p q : Prop} [Decidable p] [Decidable q] {x' : Except E A} {y' : Except E B}
    (hpq : p ↔ q) (h : p → Related Q x y) (h' : ¬ p → Related Q x' y') :
    Related Q (if p then x else x') (if q then y else y') := by
  by_cases hp : p
  · rw [if_pos hp, if_pos (hpq.mp hp)]
    exact h hp
  · rw [if_neg hp, if_neg fun hq => hp (hpq.mpr hq)]
    exact h' hp

end Calls

/-! ## Loops -/

section Loops
variable {S S' : Type*} {A B : Type} {R : S → S' → Prop} {Q : A → B → Prop}

/-- Both passes come back to the loop head, or both leave the loop. -/
inductive RelatedPasses (R : S → S' → Prop) (Q : A → B → Prop) :
    Pass S (Except Stop A) → Pass S' (Except Stop B) → Prop
  | leave {x : Except Stop A} {y : Except Stop B} (h : Related Q x y) :
      RelatedPasses R Q (.leave x) (.leave y)
  | again {s : S} {t : S'} (h : R s t) : RelatedPasses R Q (.again s) (.again t)

/-- With passes that are related so are the loops, for as many passes as there may be. -/
theorem related_loop {body : S → Pass S (Except Stop A)} {body' : S' → Pass S' (Except Stop B)}
    (hpass : ∀ s t, R s t → RelatedPasses R Q (body s) (body' t)) (fuel : ℕ) {s : S} {t : S'}
    (h : R s t) : Related Q (loop body fuel s) (loop body' fuel t) := by
  induction fuel generalizing s t with
  | zero => exact .stopped _
  | succ fuel ih =>
      have hboth := hpass s t h
      cases hs : body s with
      | leave x =>
          cases ht : body' t with
          | leave y =>
              rw [hs, ht] at hboth
              cases hboth with
              | leave hxy =>
                  unfold loop
                  rw [run_succ_of_leave hs, run_succ_of_leave ht]
                  exact hxy
          | again t' =>
              rw [hs, ht] at hboth
              cases hboth
      | again s' =>
          cases ht : body' t with
          | leave y =>
              rw [hs, ht] at hboth
              cases hboth
          | again t' =>
              rw [hs, ht] at hboth
              cases hboth with
              | again hnext =>
                  have hrest := ih hnext
                  unfold loop at hrest ⊢
                  rw [run_succ_of_again hs, run_succ_of_again ht]
                  exact hrest

end Loops

/-! ## Arrays -/

section Arrays
variable {n : ℕ} {A : Type} {a b : Vector A n} {P P' : ℕ → Prop}

/-- The arrays hold the same at these indices. -/
def AgreeOn (P : ℕ → Prop) (a b : Vector A n) : Prop := ∀ k, P k → a.toList[k]? = b.toList[k]?

theorem AgreeOn.mono (h : AgreeOn P a b) (hp : ∀ k, P' k → P k) : AgreeOn P' a b :=
  fun k hk => h k (hp k hk)

theorem AgreeOn.read (h : AgreeOn P a b) {i : ℤ} (hi : ∀ k : ℕ, (k : ℤ) = i → P k) :
    Related Eq (readAt a i) (readAt b i) := by
  by_cases hrange : 0 ≤ i ∧ i.toNat < n
  · have hget := h i.toNat (hi _ (Int.toNat_of_nonneg hrange.1))
    have ha := getElem?_toList a ⟨i.toNat, hrange.2⟩
    have hb := getElem?_toList b ⟨i.toNat, hrange.2⟩
    unfold readAt
    rw [dif_pos hrange, dif_pos hrange]
    apply Related.ok
    exact Option.some.inj (ha.symm.trans (hget.trans hb))
  · unfold readAt
    rw [dif_neg hrange, dif_neg hrange]
    exact .stopped _

theorem AgreeOn.write (h : AgreeOn P a b) (i : ℤ) (x : A) :
    Related (AgreeOn fun k => P k ∨ (k : ℤ) = i) (writeAt a i x) (writeAt b i x) := by
  unfold writeAt
  by_cases hrange : 0 ≤ i ∧ i.toNat < n
  · rw [dif_pos hrange, dif_pos hrange]
    apply Related.ok
    intro k hk
    rw [Vector.toList_set, Vector.toList_set]
    by_cases he : i.toNat = k
    · rw [he, List.getElem?_set_self (by rw [Vector.length_toList]; omega),
        List.getElem?_set_self (by rw [Vector.length_toList]; omega)]
    · rw [List.getElem?_set_ne he, List.getElem?_set_ne he]
      apply h
      rcases hk with hk | hk
      · exact hk
      · omega
  · rw [dif_neg hrange, dif_neg hrange]
    exact .stopped _

end Arrays

end MinixOS.RelatedExecutions
