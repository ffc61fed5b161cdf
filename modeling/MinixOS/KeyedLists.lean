import Mathlib.Init
import Mathlib.Data.List.Basic
import Mathlib.Data.List.Nodup
import Mathlib.Logic.Function.Basic

/-!
# Lists of records searched by a key

A linked list of records is searched from the front for the first record with
a given key, and that record is then changed in place or unlinked. Seen from
outside such a list is a partial map from keys to records. This file relates
the two views: what each operation on the list does to the map, and which
records and keys it leaves.

An update reads and writes the map at one key only. Two updates at different
keys commute, and neither sees the other.
-/
namespace MinixOS.KeyedLists

variable {A K : Type*} [DecidableEq K] (key : A → K)

/-- The first record with the key `k`. -/
def find (k : K) (l : List A) : Option A := l.find? fun a => key a = k

/-- The first record with the key `k` is replaced by its image. -/
def change (k : K) (f : A → A) : List A → List A
  | [] => []
  | a :: l => if key a = k then f a :: l else a :: change k f l

/-- The first record with the key `k` is unlinked. -/
def remove (k : K) : List A → List A
  | [] => []
  | a :: l => if key a = k then l else a :: remove k l

variable {key}

@[simp] theorem find_nil (k : K) : find key k [] = none := rfl

@[simp] theorem find_cons (k : K) (a : A) (l : List A) :
    find key k (a :: l) = if key a = k then some a else find key k l := by
  unfold find
  split_ifs with h <;> simp [h]

theorem key_of_find {k : K} {l : List A} {a : A} (h : find key k l = some a) : key a = k := by
  simpa using List.find?_some h

theorem mem_of_find {k : K} {l : List A} {a : A} (h : find key k l = some a) : a ∈ l :=
  List.mem_of_find?_eq_some h

theorem find_eq_none {k : K} {l : List A} : find key k l = none ↔ ∀ a ∈ l, key a ≠ k := by
  simp [find]

theorem find_append (k : K) (l m : List A) :
    find key k (l ++ m) = (find key k l).or (find key k m) := List.find?_append

/-- A map that keeps the keys may be applied before or after the search. -/
theorem find_map {B : Type*} {key' : B → K} {g : A → B} (hg : ∀ a, key' (g a) = key a) (k : K)
    (l : List A) : find key' k (l.map g) = (find key k l).map g := by
  induction l with
  | nil => rfl
  | cons a l ih =>
      rw [List.map_cons, find_cons, find_cons, hg]
      split_ifs
      · rfl
      · exact ih

/-- With distinct keys every record is the one its key finds. -/
theorem find_of_mem {l : List A} (hn : (l.map key).Nodup) {a : A} (h : a ∈ l) :
    find key (key a) l = some a := by
  induction l with
  | nil => simp at h
  | cons b l ih =>
      rw [List.map_cons, List.nodup_cons] at hn
      rcases List.mem_cons.mp h with rfl | h
      · simp
      · have hne : key b ≠ key a := fun he => hn.1 (he ▸ List.mem_map_of_mem h)
        rw [find_cons, if_neg hne]
        exact ih hn.2 h

theorem eq_of_find {k : K} {l : List A} (hn : (l.map key).Nodup) {a b : A}
    (hf : find key k l = some a) (hb : b ∈ l) (hk : key b = k) : b = a := by
  have h := find_of_mem hn hb
  rw [hk, hf] at h
  exact (Option.some.inj h).symm

/-! ## Changing the record in place -/

section Change
variable {k : K} {f : A → A}

theorem change_of_find_none {l : List A} (h : find key k l = none) :
    change key k f l = l := by
  induction l with
  | nil => rfl
  | cons a l ih =>
      rw [find_cons] at h
      unfold change
      split_ifs at h ⊢ with ha
      rw [ih h]

/-- Only the image of the found record matters. -/
theorem change_of_find {l : List A} {a : A} (h : find key k l = some a) :
    change key k f l = change key k (fun _ => f a) l := by
  induction l with
  | nil => rfl
  | cons b l ih =>
      rw [find_cons] at h
      unfold change
      split_ifs at h ⊢ with hb
      · rw [Option.some.inj h]
      · rw [ih h]

theorem change_self {l : List A} {a : A} (h : find key k l = some a) :
    change key k (fun _ => a) l = l := by
  induction l with
  | nil => rfl
  | cons b l ih =>
      rw [find_cons] at h
      unfold change
      split_ifs at h ⊢ with hb
      · rw [Option.some.inj h]
      · rw [ih h]

theorem change_keys (hf : ∀ a, key a = k → key (f a) = k) (l : List A) :
    (change key k f l).map key = l.map key := by
  induction l with
  | nil => rfl
  | cons a l ih =>
      unfold change
      split_ifs with ha
      · simp [ha, hf a ha]
      · simp [ih]

theorem find_change (hf : ∀ a, key a = k → key (f a) = k) (j : K) (l : List A) :
    find key j (change key k f l) =
      if j = k then (find key k l).map f else find key j l := by
  induction l with
  | nil => simp [change]
  | cons a l ih =>
      by_cases ha : key a = k
      · by_cases hj : j = k
        · subst hj
          simp [change, ha, hf a ha]
        · have hne : ¬ k = j := fun h => hj h.symm
          simp [change, ha, hf a ha, hj, hne]
      · by_cases hj : j = k
        · subst hj
          simpa [change, ha] using ih
        · simp [change, ha, hj, ih]

/-- Two changes at one key are one. -/
theorem change_change (hf : ∀ a, key a = k → key (f a) = k) (g : A → A) (l : List A) :
    change key k g (change key k f l) = change key k (fun a => g (f a)) l := by
  induction l with
  | nil => rfl
  | cons a l ih =>
      by_cases ha : key a = k
      · simp [change, ha, hf a ha]
      · simp [change, ha, ih]

/-- Each record of the changed list is an old one or the image of the found one. -/
theorem mem_change {l : List A} {b : A} (h : b ∈ change key k f l) :
    b ∈ l ∨ ∃ a, find key k l = some a ∧ b = f a := by
  induction l with
  | nil => simp [change] at h
  | cons a l ih =>
      unfold change at h
      split_ifs at h with ha
      · rcases List.mem_cons.mp h with rfl | h
        · exact .inr ⟨a, by simp [ha], rfl⟩
        · exact .inl (List.mem_cons_of_mem a h)
      · rcases List.mem_cons.mp h with rfl | h
        · exact .inl List.mem_cons_self
        · rcases ih h with h | ⟨c, hc, rfl⟩
          · exact .inl (List.mem_cons_of_mem a h)
          · exact .inr ⟨c, by simpa [ha] using hc, rfl⟩

theorem mem_change_found {l : List A} {a : A} (h : find key k l = some a) :
    f a ∈ change key k f l := by
  induction l with
  | nil => simp at h
  | cons b l ih =>
      rw [find_cons] at h
      unfold change
      split_ifs at h ⊢ with hb
      · rw [Option.some.inj h]
        exact List.mem_cons_self
      · exact List.mem_cons_of_mem b (ih h)

/-- With distinct keys, changing the found record is a map over the list. -/
theorem change_eq_map {l : List A} (hn : (l.map key).Nodup) :
    change key k f l = l.map fun a => if key a = k then f a else a := by
  induction l with
  | nil => rfl
  | cons a l ih =>
      rw [List.map_cons, List.nodup_cons] at hn
      by_cases ha : key a = k
      · have hl : l.map (fun a => if key a = k then f a else a) = l := by
          conv_rhs => rw [← List.map_id l]
          refine List.map_congr_left fun b hb => ?_
          have hne : key b ≠ k := fun he => hn.1 (ha ▸ he ▸ List.mem_map_of_mem hb)
          simp [hne]
        simp [change, ha, hl]
      · simp [change, ha, ih hn.2]

/-- With distinct keys, a record of the changed list with the key is the new one. -/
theorem mem_change_of_nodup {l : List A} (hn : (l.map key).Nodup) {b : A}
    (h : b ∈ change key k f l) :
    (b ∈ l ∧ key b ≠ k) ∨ ∃ a, find key k l = some a ∧ b = f a := by
  rw [change_eq_map hn] at h
  obtain ⟨a, ha, rfl⟩ := List.mem_map.mp h
  by_cases hk : key a = k
  · exact .inr ⟨a, hk ▸ find_of_mem hn ha, if_pos hk⟩
  · rw [if_neg hk]
    exact .inl ⟨ha, hk⟩

/-- A field of the records tells whether the found record was replaced by an equal one. -/
theorem map_change_eq_iff {B : Type*} {g : A → B} {l : List A} {a b : A}
    (h : find key k l = some a) :
    (change key k (fun _ => b) l).map g = l.map g ↔ g b = g a := by
  induction l with
  | nil => simp at h
  | cons c l ih =>
      rw [find_cons] at h
      unfold change
      split_ifs at h ⊢ with hc
      · obtain rfl := Option.some.inj h
        rw [List.map_cons, List.map_cons, List.cons.injEq, and_iff_left rfl]
      · rw [List.map_cons, List.map_cons, List.cons.injEq, and_iff_right rfl]
        exact ih h

end Change

/-! ## Unlinking the record -/

section Remove
variable {k : K}

theorem remove_of_find_none {l : List A} (h : find key k l = none) : remove key k l = l := by
  induction l with
  | nil => rfl
  | cons a l ih =>
      rw [find_cons] at h
      unfold remove
      split_ifs at h ⊢ with ha
      rw [ih h]

theorem map_remove {B : Type*} {key' : B → K} {g : A → B} (hg : ∀ a, key' (g a) = key a)
    (l : List A) : (remove key k l).map g = remove key' k (l.map g) := by
  induction l with
  | nil => rfl
  | cons a l ih =>
      rw [List.map_cons, remove, remove, hg]
      split_ifs
      · rfl
      · rw [List.map_cons, ih]

theorem remove_sublist (l : List A) : (remove key k l).Sublist l := by
  induction l with
  | nil => exact List.Sublist.refl _
  | cons a l ih =>
      unfold remove
      split_ifs
      · exact List.sublist_cons_self a l
      · exact ih.cons_cons a

/-- With distinct keys, unlinking the found record leaves all records with other keys. -/
theorem remove_eq_filter {l : List A} (hn : (l.map key).Nodup) :
    remove key k l = l.filter fun a => key a ≠ k := by
  induction l with
  | nil => rfl
  | cons a l ih =>
      rw [List.map_cons, List.nodup_cons] at hn
      by_cases ha : key a = k
      · have hl : l.filter (fun a => key a ≠ k) = l := by
          refine List.filter_eq_self.mpr fun b hb => ?_
          have hne : key b ≠ k := fun he => hn.1 (ha ▸ he ▸ List.mem_map_of_mem hb)
          simpa using hne
        rw [remove, if_pos ha, List.filter_cons_of_neg (by simpa using ha), hl]
      · rw [remove, if_neg ha, List.filter_cons_of_pos (by simpa using ha), ih hn.2]

theorem find_remove {l : List A} (hn : (l.map key).Nodup) (j : K) :
    find key j (remove key k l) = if j = k then none else find key j l := by
  rw [remove_eq_filter hn]
  by_cases hj : j = k
  · subst hj
    simp [find_eq_none]
  · rw [if_neg hj, find, List.find?_filter]
    refine congrArg (fun p => l.find? p) (funext fun a => ?_)
    by_cases ha : key a = j
    · simp [ha, hj]
    · simp [ha]

end Remove

/-! ## Updates at one key -/

/-- A request that reads and writes a partial map at one key. -/
structure Update (K V R : Type*) where
  key : K
  act : Option V → Option V × R

namespace Update
variable {V R : Type*}

def apply (u : Update K V R) (m : K → Option V) : K → Option V :=
  Function.update m u.key (u.act (m u.key)).1

def answer (u : Update K V R) (m : K → Option V) : R := (u.act (m u.key)).2

theorem answer_apply {u v : Update K V R} (h : u.key ≠ v.key) (m : K → Option V) :
    u.answer (v.apply m) = u.answer m := by
  simp only [answer, apply, Function.update_of_ne h]

theorem apply_comm {u v : Update K V R} (h : u.key ≠ v.key) (m : K → Option V) :
    u.apply (v.apply m) = v.apply (u.apply m) := by
  simp only [apply, Function.update_of_ne h, Function.update_of_ne (Ne.symm h)]
  exact Function.update_comm (Ne.symm h) _ _ _

end Update

end MinixOS.KeyedLists
