import Mathlib.Algebra.BigOperators.Group.Finset.Piecewise
import Mathlib.Algebra.Order.BigOperators.Group.Finset
import Mathlib.Algebra.Order.Group.Multiset
import Mathlib.Data.Fintype.Card
import Mathlib.Data.Nat.ModEq
import Mathlib.Tactic.Abel

/-!
# Tables with linear probing and erased cells

A table has finitely many cells in a ring. A search for a key starts at the
home of the key and goes from cell to cell until it meets an unused one, so an
entry is not to be taken out by making its cell unused: it is marked as erased,
and the search walks over it. An insertion takes the first cell that holds no
entry, unused or erased.

A table is chained when no cell between the home of a key and an entry with
that key is unused. Storing an entry in the first free cell and erasing one
keep a table chained, and in a chained table a search for the key of some
entry meets one before it meets an unused cell.
-/
namespace MinixOS.LinearProbing
open scoped BigOperators

inductive Cell (A : Type*) where
  | unused
  | erased
  | live (entry : A)

/-- The entry of the cell, if there is one. -/
def Cell.held {A : Type*} : Cell A → Multiset A
  | .live a => {a}
  | _ => 0

/-! ## The ring -/

section Ring
variable {n : ℕ}

/-- The index that is visited `d` steps after `h`. -/
def visit (h : Fin n) (d : ℕ) : Fin n := ⟨(h + d) % n, Nat.mod_lt _ h.pos⟩

@[simp] theorem visit_zero (h : Fin n) : visit h 0 = h := by
  simp [visit, Nat.mod_eq_of_lt]

theorem visit_visit (h : Fin n) (d e : ℕ) : visit (visit h d) e = visit h (d + e) := by
  simp only [visit, Nat.mod_add_mod, Nat.add_assoc]

theorem visit_inj {h : Fin n} {d e : ℕ} (hd : d < n) (he : e < n)
    (heq : visit h d = visit h e) : d = e := by
  have hmod : (h : ℕ) + d ≡ h + e [MOD n] := Fin.mk.inj heq
  exact (Nat.ModEq.add_left_cancel' _ hmod).eq_of_lt_of_lt hd he

/-- Every index is met within one round. -/
theorem exists_visit (h i : Fin n) : ∃ d < n, visit h d = i := by
  have hh := h.isLt
  have hi := i.isLt
  rcases Nat.lt_or_ge i h with hlt | hge
  · refine ⟨n - h + i, by omega, Fin.ext ?_⟩
    have he : (h : ℕ) + (n - h + i) = i + n := by omega
    simp only [visit, he, Nat.add_mod_right, Nat.mod_eq_of_lt hi]
  · refine ⟨i - h, by omega, Fin.ext ?_⟩
    have he : (h : ℕ) + (i - h) = i := by omega
    simp only [visit, he, Nat.mod_eq_of_lt hi]

/-- The first index met that has a property, if any index has it. -/
theorem exists_first_visit (h : Fin n) {P : Fin n → Prop} (hP : ∃ i, P i) :
    ∃ d < n, P (visit h d) ∧ ∀ j < d, ¬ P (visit h j) := by
  classical
  obtain ⟨i, hi⟩ := hP
  obtain ⟨e, he, rfl⟩ := exists_visit h i
  have hex : ∃ d, P (visit h d) := ⟨e, hi⟩
  refine ⟨Nat.find hex, ?_, Nat.find_spec hex, fun j hj => Nat.find_min hex hj⟩
  exact (Nat.find_min' hex hi).trans_lt he

/-- A loop that counts its passes down and goes on to the next index wherever `P` holds. -/
theorem loop_walk {X : Type*} {f : ℕ → Fin n → X} {P : Fin n → Prop}
    (pass : ∀ left h, P h → f (left + 1) h = f left (visit h 1)) {d : ℕ} {h : Fin n}
    (hwalk : ∀ j < d, P (visit h j)) (left : ℕ) : f (left + d) h = f left (visit h d) := by
  induction d generalizing left with
  | zero => rw [visit_zero, Nat.add_zero]
  | succ d ih =>
      have hfirst : f (left + 1 + d) h = f (left + 1) (visit h d) :=
        ih (fun j hj => hwalk j (Nat.lt_succ_of_lt hj)) (left + 1)
      have hnext := pass left (visit h d) (hwalk d d.lt_succ_self)
      rw [← Nat.add_assoc, Nat.add_right_comm, hfirst, hnext, visit_visit]

end Ring

/-! ## What a table holds -/

section Contents
variable {n : ℕ} {A : Type*}

/-- The entries of the live cells, each as often as it is stored. -/
def contents (cells : Fin n → Cell A) : Multiset A := ∑ i, (cells i).held

variable {cells : Fin n → Cell A}

theorem Cell.mem_held {a : A} {c : Cell A} : a ∈ c.held ↔ c = .live a := by
  cases c <;> simp [Cell.held, eq_comm]

theorem mem_contents {a : A} : a ∈ contents cells ↔ ∃ i, cells i = .live a := by
  simp [contents, Multiset.mem_sum, Cell.mem_held]

theorem Cell.card_held_le (c : Cell A) : Multiset.card c.held ≤ 1 := by
  cases c <;> simp [Cell.held]

theorem card_contents (cells : Fin n → Cell A) :
    Multiset.card (contents cells) = ∑ i, Multiset.card (cells i).held :=
  Multiset.card_sum _ _

theorem card_contents_le (cells : Fin n → Cell A) : Multiset.card (contents cells) ≤ n := by
  rw [card_contents]
  have h := Finset.sum_le_card_nsmul Finset.univ (fun i => Multiset.card (cells i).held) 1
    fun i _ => (cells i).card_held_le
  simpa using h

/-- Overwriting a cell exchanges what the cell held. -/
theorem contents_update (cells : Fin n → Cell A) (i : Fin n) (c : Cell A) :
    contents (Function.update cells i c) + (cells i).held = contents cells + c.held := by
  have hu : ∀ j, (Function.update cells i c j).held =
      Function.update (fun j => (cells j).held) i c.held j := by
    intro j
    by_cases hj : j = i
    · subst hj
      simp
    · simp [hj]
  have hnew : contents (Function.update cells i c) =
      c.held + ∑ j ∈ Finset.univ \ {i}, (cells j).held := by
    simp only [contents, hu]
    exact Finset.sum_update_of_mem (Finset.mem_univ i) _ _
  have hold : contents cells = (cells i).held + ∑ j ∈ Finset.univ \ {i}, (cells j).held := by
    rw [contents, ← Finset.sum_sdiff (Finset.subset_univ {i}), Finset.sum_singleton, add_comm]
  rw [hnew, hold]
  abel

theorem contents_store {i : Fin n} (h : (cells i).held = 0) (a : A) :
    contents (Function.update cells i (.live a)) = a ::ₘ contents cells := by
  have hu := contents_update cells i (.live a)
  rw [h, add_zero] at hu
  rw [hu, ← Multiset.singleton_add, add_comm]
  rfl

theorem contents_erase {i : Fin n} {a : A} (h : cells i = .live a) :
    a ::ₘ contents (Function.update cells i .erased) = contents cells := by
  have hu := contents_update cells i .erased
  rw [h] at hu
  rw [← Multiset.singleton_add, add_comm]
  simpa [Cell.held] using hu

/-- A table with fewer entries than cells has a free cell, wherever one starts. -/
theorem exists_first_free (hroom : Multiset.card (contents cells) < n) (h : Fin n) :
    ∃ d < n, (cells (visit h d)).held = 0 ∧ ∀ j < d, (cells (visit h j)).held ≠ 0 := by
  apply exists_first_visit h (P := fun i => (cells i).held = 0)
  by_contra hall
  have hone : ∀ i, 1 ≤ Multiset.card (cells i).held := fun i =>
    Multiset.card_pos.mpr fun hi => hall ⟨i, hi⟩
  have hn : ∑ _i : Fin n, 1 ≤ ∑ i, Multiset.card (cells i).held :=
    Finset.sum_le_sum fun i _ => hone i
  rw [← card_contents, Finset.sum_const, Finset.card_univ, Fintype.card_fin] at hn
  simp only [nsmul_eq_mul, Nat.cast_id, mul_one] at hn
  omega

end Contents

/-! ## Chained tables -/

section Chain
variable {n : ℕ} {A K : Type*} (home : K → Fin n) (key : A → K)

/-- A search for the key of an entry gets as far as the entry. -/
def Chained (cells : Fin n → Cell A) : Prop :=
  ∀ a, ∀ d < n, cells (visit (home (key a)) d) = .live a →
    ∀ j < d, cells (visit (home (key a)) j) ≠ .unused

variable {home key} {cells : Fin n → Cell A}

theorem chained_unused : Chained home key fun _ => Cell.unused := by
  intro a d _ hd
  cases hd

/-- Only the walk to a new entry is to be looked at, as long as a cell is not made unused. -/
theorem Chained.update (hc : Chained home key cells) {i : Fin n} {c : Cell A}
    (hused : c ≠ .unused)
    (hnew : ∀ a, c = .live a → ∀ d < n, visit (home (key a)) d = i →
      ∀ j < d, cells (visit (home (key a)) j) ≠ .unused) :
    Chained home key (Function.update cells i c) := by
  intro a d hd hlive j hj
  have hwalk : cells (visit (home (key a)) j) ≠ .unused := by
    by_cases hi : visit (home (key a)) d = i
    · rw [hi, Function.update_self] at hlive
      exact hnew a hlive d hd hi j hj
    · rw [Function.update_of_ne hi] at hlive
      exact hc a d hd hlive j hj
  by_cases hi : visit (home (key a)) j = i
  · rw [hi, Function.update_self]
    exact hused
  · rw [Function.update_of_ne hi]
    exact hwalk

theorem Chained.erase (hc : Chained home key cells) (i : Fin n) :
    Chained home key (Function.update cells i .erased) :=
  hc.update nofun nofun

theorem Chained.store (hc : Chained home key cells) {a : A} {d : ℕ} (hd : d < n)
    (hwalk : ∀ j < d, (cells (visit (home (key a)) j)).held ≠ 0) :
    Chained home key (Function.update cells (visit (home (key a)) d) (.live a)) := by
  refine hc.update nofun ?_
  intro b hb e he hvisit j hj hunused
  obtain rfl : a = b := Cell.live.inj hb
  obtain rfl : e = d := visit_inj he hd hvisit
  have hheld := hwalk j hj
  rw [hunused] at hheld
  exact hheld rfl

/-- A search meets an entry with the key before any unused cell. -/
theorem Chained.exists_first_match (hc : Chained home key cells) {a : A}
    (ha : a ∈ contents cells) :
    ∃ d < n, ∃ b, cells (visit (home (key a)) d) = .live b ∧ key b = key a ∧
      ∀ j < d, cells (visit (home (key a)) j) ≠ .unused ∧
        ∀ b', cells (visit (home (key a)) j) = .live b' → key b' ≠ key a := by
  obtain ⟨i, hi⟩ := mem_contents.mp ha
  have hex : ∃ i, ∃ b, cells i = .live b ∧ key b = key a := ⟨i, a, hi, rfl⟩
  obtain ⟨d, hd, ⟨b, hlive, hb⟩, hfirst⟩ := exists_first_visit (home (key a)) hex
  have hlive' : cells (visit (home (key b)) d) = .live b := by rwa [hb]
  refine ⟨d, hd, b, hlive, hb, fun j hj => ⟨?_, fun b' hb' hkey => ?_⟩⟩
  · have hused := hc b d hd hlive' j hj
    rwa [hb] at hused
  · exact hfirst j hj ⟨b', hb', hkey⟩

end Chain

end MinixOS.LinearProbing
