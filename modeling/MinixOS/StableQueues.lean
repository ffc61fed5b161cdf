import Mathlib.Data.List.Perm.Basic
import Mathlib.Data.List.Sort
import Mathlib.Tactic.Common

/-!
# Stable priority queues

A queue that is kept sorted by the rank of its elements, and in which elements of
one rank stand in the order of their arrival. This arrangement is determined
by the sequence of arrivals. It is kept by an insertion behind all elements of no
higher rank, and its first element is the one that arrived first among those of
the lowest rank.
-/
namespace MinixOS.StableQueues

variable {A P : Type*} [LinearOrder P] (rank : A → P)

/-- The queue is the stable arrangement of the arrivals. -/
structure Stable (arrivals q : List A) : Prop where
  sorted : q.Pairwise fun a b => rank a ≤ rank b
  fifo : ∀ p, q.filter (fun a => rank a = p) = arrivals.filter fun a => rank a = p

/-- The new element goes behind those of no higher rank. -/
def insertBehind (a : A) (q : List A) : List A :=
  q.orderedInsert (fun a b => rank a < rank b) a

/-- No element of the list has a lower rank. -/
def Foremost (l : List A) (a : A) : Prop := ∀ b ∈ l, rank a ≤ rank b

instance (l : List A) : DecidablePred (Foremost rank l) := fun a =>
  inferInstanceAs (Decidable (∀ b ∈ l, rank a ≤ rank b))

/-- The first arrival among those of the lowest rank. -/
def earliest (arrivals : List A) : Option A := arrivals.find? fun a => Foremost rank arrivals a

def withoutEarliest (arrivals : List A) : List A :=
  arrivals.eraseP fun a => Foremost rank arrivals a

variable {rank} {arrivals q : List A} {a : A}

theorem stable_nil : Stable rank [] [] :=
  ⟨List.Pairwise.nil, fun _ => rfl⟩

/-! ## Insertion -/

theorem sorted_insertBehind (a : A) (h : q.Pairwise fun a b => rank a ≤ rank b) :
    (insertBehind rank a q).Pairwise fun a b => rank a ≤ rank b := by
  unfold insertBehind
  induction q with
  | nil => exact List.pairwise_singleton _ _
  | cons b q ih =>
      obtain ⟨hb, hq⟩ := List.pairwise_cons.mp h
      rw [List.orderedInsert_cons]
      split_ifs with hlt
      · rw [List.pairwise_cons]
        constructor
        · intro c hc
          rcases List.mem_cons.mp hc with rfl | hc
          · exact hlt.le
          · exact hlt.le.trans (hb c hc)
        · exact h
      · rw [List.pairwise_cons]
        constructor
        · intro c hc
          rcases (List.mem_orderedInsert _).mp hc with rfl | hc
          · exact le_of_not_gt hlt
          · exact hb c hc
        · exact ih hq

/-- A map that keeps the ranks takes an insertion to an insertion. -/
theorem map_insertBehind {B : Type*} {rank' : B → P} {f : A → B} (hf : ∀ a, rank' (f a) = rank a)
    (a : A) (q : List A) :
    (insertBehind rank a q).map f = insertBehind rank' (f a) (q.map f) := by
  have hbefore : ∀ b ∈ q, rank b < rank a ↔ rank' (f b) < rank' (f a) := by
    intro b _
    rw [hf, hf]
  have hbehind : ∀ b ∈ q, rank a < rank b ↔ rank' (f a) < rank' (f b) := by
    intro b _
    rw [hf, hf]
  exact List.map_orderedInsert _ (fun b c => rank' b < rank' c) f q a hbefore hbehind

/-- The new element is the last of its rank, and the other ranks are left as they are. -/
theorem filter_insertBehind (a : A) (h : q.Pairwise fun a b => rank a ≤ rank b) (p : P) :
    (insertBehind rank a q).filter (fun b => rank b = p) =
      q.filter (fun b => rank b = p) ++ [a].filter fun b => rank b = p := by
  unfold insertBehind
  induction q with
  | nil => rfl
  | cons b q ih =>
      obtain ⟨hb, hq⟩ := List.pairwise_cons.mp h
      rw [List.orderedInsert_cons]
      split_ifs with hlt
      · by_cases hp : rank a = p
        · have hnone : (b :: q).filter (fun c => rank c = p) = [] := by
            rw [List.filter_eq_nil_iff]
            intro c hc
            have hle : rank b ≤ rank c := by
              rcases List.mem_cons.mp hc with rfl | hc
              · exact le_rfl
              · exact hb c hc
            simp only [decide_eq_true_eq]
            exact (hp ▸ hlt.trans_le hle).ne'
          rw [List.filter_cons, hnone, List.nil_append, List.filter_singleton, decide_eq_true hp]
          rfl
        · simp [hp]
      · rw [List.filter_cons, List.filter_cons, ih hq]
        split_ifs
        · rfl
        · rfl

theorem Stable.insert (h : Stable rank arrivals q) (a : A) :
    Stable rank (arrivals ++ [a]) (insertBehind rank a q) := by
  constructor
  · exact sorted_insertBehind a h.sorted
  · intro p
    rw [filter_insertBehind a h.sorted, h.fifo, List.filter_append]

/-! ## What the queue holds -/

theorem Stable.perm (h : Stable rank arrivals q) : q.Perm arrivals := by
  classical
  rw [List.perm_iff_count]
  intro a
  have hcount := congrArg (List.count a) (h.fifo (rank a))
  have hself : ∀ l : List A, (l.filter fun b => rank b = rank a).count a = l.count a :=
    fun l => List.count_filter (p := fun b => decide (rank b = rank a)) (decide_eq_true rfl)
  rw [hself, hself] at hcount
  exact hcount

/-! ## Removal of the first element -/

theorem foremost_iff (h : Stable rank arrivals (a :: q)) :
    ∀ b ∈ arrivals, Foremost rank arrivals b ↔ rank b = rank a := by
  intro b hb
  have hmem : a ∈ arrivals := h.perm.mem_iff.mp List.mem_cons_self
  have hlow : ∀ c ∈ arrivals, rank a ≤ rank c := by
    intro c hc
    rcases List.mem_cons.mp (h.perm.mem_iff.mpr hc) with rfl | hc
    · exact le_rfl
    · exact (List.pairwise_cons.mp h.sorted).1 c hc
  constructor
  · intro hfirst
    exact le_antisymm (hfirst a hmem) (hlow b hb)
  · intro he c hc
    rw [he]
    exact hlow c hc

theorem Stable.earliest_eq (h : Stable rank arrivals (a :: q)) :
    earliest rank arrivals = some a := by
  have hiff : arrivals.filter (fun b => Foremost rank arrivals b) =
      arrivals.filter fun b => rank b = rank a := by
    apply List.filter_congr
    intro b hb
    rw [decide_eq_decide]
    exact foremost_iff h b hb
  unfold earliest
  rw [← List.head?_filter, hiff, ← h.fifo, List.filter_cons_of_pos (by simp)]
  rfl

theorem eraseP_congr {p r : A → Bool} {l : List A} (h : ∀ b ∈ l, p b = r b) :
    l.eraseP p = l.eraseP r := by
  induction l with
  | nil => rfl
  | cons b l ih =>
      rw [List.eraseP_cons, List.eraseP_cons, h b List.mem_cons_self,
        ih fun c hc => h c (List.mem_cons_of_mem b hc)]

theorem filter_eraseP_self (p : P) (l : List A) :
    (l.eraseP fun b => rank b = p).filter (fun b => rank b = p) =
      (l.filter fun b => rank b = p).tail := by
  induction l with
  | nil => rfl
  | cons b l ih =>
      by_cases hb : rank b = p
      · simp [hb]
      · simp [hb, ih]

theorem filter_eraseP_of_ne {p r : P} (hne : r ≠ p) (l : List A) :
    (l.eraseP fun b => rank b = p).filter (fun b => rank b = r) =
      l.filter fun b => rank b = r := by
  induction l with
  | nil => rfl
  | cons b l ih =>
      by_cases hb : rank b = p
      · have hbr : rank b ≠ r := fun he => hne (he.symm.trans hb)
        simp [hb, hne.symm]
      · simp only [List.eraseP_cons, hb, decide_false, cond_false, List.filter_cons, ih]

theorem Stable.tail (h : Stable rank arrivals (a :: q)) :
    Stable rank (withoutEarliest rank arrivals) q := by
  have herase : withoutEarliest rank arrivals = arrivals.eraseP fun b => rank b = rank a := by
    apply eraseP_congr
    intro b hb
    rw [decide_eq_decide]
    exact foremost_iff h b hb
  rw [herase]
  constructor
  · exact (List.pairwise_cons.mp h.sorted).2
  · intro r
    have hfifo := h.fifo r
    by_cases hr : r = rank a
    · subst hr
      rw [filter_eraseP_self, ← hfifo, List.filter_cons_of_pos (by simp), List.tail_cons]
    · rw [filter_eraseP_of_ne hr, ← hfifo, List.filter_cons_of_neg]
      simpa using Ne.symm hr

/-! ## The arrangement is unique -/

theorem Stable.unique {q' : List A} (h : Stable rank arrivals q) (h' : Stable rank arrivals q') :
    q = q' := by
  induction q generalizing arrivals q' with
  | nil =>
      have hperm := h'.perm.trans h.perm.symm
      exact hperm.eq_nil.symm
  | cons a q ih =>
      cases q' with
      | nil =>
          have hperm := h.perm.trans h'.perm.symm
          exact hperm.eq_nil
      | cons b q' =>
          have hhead : some a = some b := h.earliest_eq.symm.trans h'.earliest_eq
          rw [Option.some.inj hhead, ih h.tail h'.tail]

/-- The ranks in ascending order, and the arrivals of each rank in their order. -/
theorem stable_levels {levels : List P} (hlevels : levels.Pairwise (· < ·))
    (hall : ∀ a ∈ arrivals, rank a ∈ levels) :
    Stable rank arrivals (levels.flatMap fun p => arrivals.filter fun a => rank a = p) := by
  constructor
  · rw [List.pairwise_flatMap]
    constructor
    · intro p _
      apply List.pairwise_of_forall_mem_list
      intro a ha b hb
      simp only [List.mem_filter, decide_eq_true_eq] at ha hb
      rw [ha.2, hb.2]
    · apply hlevels.imp
      intro p r hpr a ha b hb
      simp only [List.mem_filter, decide_eq_true_eq] at ha hb
      rw [ha.2, hb.2]
      exact hpr.le
  · intro p
    have hother : ∀ r ≠ p,
        (arrivals.filter fun a => rank a = r).filter (fun a => rank a = p) = [] := by
      intro r hr
      rw [List.filter_eq_nil_iff]
      intro a ha
      simp only [List.mem_filter, decide_eq_true_eq] at ha ⊢
      rw [ha.2]
      exact hr
    rw [List.filter_flatMap]
    by_cases hp : p ∈ levels
    · obtain ⟨low, high, rfl⟩ := List.append_of_mem hp
      have hsplit := List.pairwise_append.mp hlevels
      have hlow : ∀ r ∈ low, r ≠ p := fun r hr => (hsplit.2.2 r hr p List.mem_cons_self).ne
      have hhigh : ∀ r ∈ high, r ≠ p := fun r hr => ((List.pairwise_cons.mp hsplit.2.1).1 r hr).ne'
      rw [List.flatMap_append, List.flatMap_cons,
        List.flatMap_eq_nil_iff.mpr fun r hr => hother r (hlow r hr),
        List.flatMap_eq_nil_iff.mpr fun r hr => hother r (hhigh r hr), List.nil_append,
        List.append_nil, List.filter_filter]
      simp
    · have hnone : arrivals.filter (fun a => rank a = p) = [] := by
        rw [List.filter_eq_nil_iff]
        intro a ha
        simp only [decide_eq_true_eq]
        exact fun he => hp (he ▸ hall a ha)
      rw [hnone, List.flatMap_eq_nil_iff]
      intro r hr
      exact hother r fun he => hp (he ▸ hr)

end MinixOS.StableQueues
