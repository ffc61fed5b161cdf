import Mathlib.Data.Set.Card
import Mathlib.Logic.Relation
import MinixOS.LoopExecution

/-!
# Chains of parents

A relation says which node is a parent of which. The chains of parents end if no node is above
itself. This stays so when parents are taken away, and when a node gets a new parent that it is not
above. A loop that goes on to a parent in every pass makes at most as many passes as there are
nodes. Where each node has one parent, it meets every node above the first.
-/
namespace MinixOS.ParentChains
open LoopExecution Relation

variable {α : Type*} {up up' : α → α → Prop} {a b old new : α}

/-- No node is above itself. Here `up a b` says that `b` is a parent of `a`. -/
def Acyclic (up : α → α → Prop) : Prop := ∀ a, ¬ TransGen up a a

theorem Acyclic.of_imp (h : Acyclic up) (hsub : ∀ a b, up' a b → up a b) : Acyclic up' :=
  fun a ha => h a (TransGen.mono hsub a a ha)

section Moved
variable (hmoved : ∀ a b, up' a b → up a b ∨ a = old ∧ b = new)
include hmoved

/-- The new parent is not needed on the way to the node that got it. -/
theorem above_of_moved (h : ReflTransGen up' a old) : ReflTransGen up a old := by
  induction h using ReflTransGen.head_induction_on with
  | refl => exact .refl
  | head hstep _ ih =>
      rcases hmoved _ _ hstep with hup | ⟨rfl, _⟩
      · exact .head hup ih
      · exact .refl

theorem transGen_of_moved (h : TransGen up' a b) :
    TransGen up a b ∨ ReflTransGen up' a old ∧ ReflTransGen up' new b := by
  induction h with
  | single hstep =>
      rcases hmoved _ _ hstep with hup | ⟨rfl, rfl⟩
      · exact .inl (.single hup)
      · exact .inr ⟨.refl, .refl⟩
  | tail hpath hstep ih =>
      rcases ih with hup | ⟨hold, hnew⟩
      · rcases hmoved _ _ hstep with hlast | ⟨rfl, rfl⟩
        · exact .inl (hup.tail hlast)
        · exact .inr ⟨hpath.to_reflTransGen, .refl⟩
      · exact .inr ⟨hold, hnew.tail hstep⟩

/-- A node that is not above the new parent can get it. -/
theorem Acyclic.moved (h : Acyclic up) (hnew : ¬ ReflTransGen up new old) : Acyclic up' := by
  intro a ha
  rcases transGen_of_moved hmoved ha with hcycle | ⟨hold, hcycle⟩
  · exact h a hcycle
  · exact hnew (above_of_moved hmoved (hcycle.trans hold))

end Moved

section Walks
variable {S R : Type*} {body : S → Pass S R} {I : S → Prop} {node : S → α} {s : S} {r : R}

theorem ncard_above [Finite α] (h : Acyclic up) (hup : up a b) :
    {c | TransGen up b c}.ncard < {c | TransGen up a c}.ncard := by
  apply Set.ncard_lt_ncard _ (Set.toFinite _)
  refine ⟨fun c hc => .head hup hc, fun hsub => h b ?_⟩
  exact hsub (TransGen.single hup : TransGen up a b)

/-- A walk upwards comes to an end. -/
theorem run_of_acyclic [Finite α] (h : Acyclic up)
    (step : ∀ s t, I s → body s = .again t → I t ∧ up (node s) (node t)) (hs : I s) {fuel : ℕ}
    (hfuel : {c | TransGen up (node s) c}.ncard < fuel) : ∃ r, run body fuel s = some r := by
  induction fuel generalizing s with
  | zero => omega
  | succ fuel ih =>
      cases hpass : body s with
      | leave r => exact ⟨r, run_succ_of_leave hpass fuel⟩
      | again t =>
          obtain ⟨ht, hup⟩ := step s t hs hpass
          have hless := ncard_above h hup
          rw [run_succ_of_again hpass]
          exact ih ht (by omega)

theorem Acyclic.run_eq_some [Finite α] (h : Acyclic up)
    (step : ∀ s t, I s → body s = .again t → I t ∧ up (node s) (node t)) (hs : I s) {fuel : ℕ}
    (hfuel : Nat.card α ≤ fuel) : ∃ r, run body fuel s = some r := by
  apply run_of_acyclic h step hs
  have hself : {c | TransGen up (node s) c} ≠ Set.univ := by
    intro huniv
    have hmem : node s ∈ {c | TransGen up (node s) c} := by
      rw [huniv]
      trivial
    exact h _ hmem
  have hless := Set.ncard_lt_card hself
  omega

/-- With single parents, a walk upwards that does not come to a node has it in front of it. -/
theorem above_of_leaves (hone : ∀ a b c, up a b → up a c → b = c)
    (step : ∀ s t, I s → body s = .again t → I t ∧ up (node s) (node t) ∧ node s ≠ old)
    (hs : I s) (h : Leaves body s r) :
    ∃ t, I t ∧ body t = .leave r ∧
      (ReflTransGen up (node s) old → ReflTransGen up (node t) old) := by
  have hinv := h.invariant
    (I := fun t => I t ∧ (ReflTransGen up (node s) old → ReflTransGen up (node t) old)) ⟨hs, id⟩
  obtain ⟨t, ⟨ht, habove⟩, hleave⟩ := hinv fun t u ⟨ht, habove⟩ hpass => by
    obtain ⟨hu, hup, hne⟩ := step t u ht hpass
    refine ⟨hu, fun hold => ?_⟩
    rcases ReflTransGen.cases_head (habove hold) with heq | ⟨c, hc, hrest⟩
    · exact absurd heq hne
    · rwa [hone _ _ _ hup hc]
  exact ⟨t, ht, hleave, habove⟩

end Walks

end MinixOS.ParentChains
