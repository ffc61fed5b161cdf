import Mathlib.Init
import Mathlib.Logic.Function.Basic
import Mathlib.Tactic.Common

/-!
# Write-back caches

A cache keeps values in slots. A slot holds the value of one key or of none, and
behind the slots there is a store with a value for every key. A value that
was assigned in a slot reaches the store when the slot is saved, and a slot may be
given another key without that.

What counts as the current value of a key is the one in the slot that holds it, and
the stored one if there is no such slot. The rules say which steps keep no key in
two slots, a value at rest in the store, and a part of all the values as it is.
-/
namespace MinixOS.WriteBackCache

variable {Slot Key Value : Type*}

/-- What the slots hold, and what is stored behind them. -/
structure View (Slot Key Value : Type*) where
  key : Slot → Option Key
  value : Slot → Value
  store : Key → Value

/-- No slot holds the key. -/
def Absent (v : View Slot Key Value) (k : Key) : Prop := ∀ r, v.key r ≠ some k

/-- No key is in two slots. -/
def Single (v : View Slot Key Value) : Prop :=
  ∀ ⦃q r : Slot⦄ ⦃k : Key⦄, v.key q = some k → v.key r = some k → q = r

/-- The slot is in agreement with the store. -/
def Synced (v : View Slot Key Value) (r : Slot) : Prop :=
  ∀ k, v.key r = some k → v.store k = v.value r

/-- The current value of a key. -/
inductive Current (v : View Slot Key Value) (k : Key) : Value → Prop
  | held {r : Slot} : v.key r = some k → Current v k (v.value r)
  | stored : Absent v k → Current v k (v.store k)

theorem Current.unique {v : View Slot Key Value} (hv : Single v) {k : Key} {x y : Value}
    (hx : Current v k x) (hy : Current v k y) : x = y := by
  cases hx with
  | held hq =>
      cases hy with
      | held hr => rw [hv hq hr]
      | stored habsent => exact absurd hq (habsent _)
  | stored habsent =>
      cases hy with
      | held hr => exact absurd hr (habsent _)
      | stored _ => rfl

theorem exists_current (v : View Slot Key Value) (k : Key) : ∃ x, Current v k x := by
  by_cases h : ∃ r, v.key r = some k
  · exact ⟨_, .held h.choose_spec⟩
  · exact ⟨_, .stored (not_exists.mp h)⟩

/-! ## Steps -/

section Steps
variable [DecidableEq Slot]

/-- The slot loses its key. -/
def View.drop (v : View Slot Key Value) (r : Slot) : View Slot Key Value :=
  { v with key := Function.update v.key r none }

/-- The slot gets this key and this value. -/
def View.occupy (v : View Slot Key Value) (r : Slot) (k : Key) (x : Value) : View Slot Key Value :=
  { v with key := Function.update v.key r (some k), value := Function.update v.value r x }

/-- The slot gets this key and the stored value of it. -/
def View.fetch (v : View Slot Key Value) (r : Slot) (k : Key) : View Slot Key Value :=
  v.occupy r k (v.store k)

/-- A value is assigned in the slot. -/
def View.assign (v : View Slot Key Value) (r : Slot) (x : Value) : View Slot Key Value :=
  { v with value := Function.update v.value r x }

variable {v : View Slot Key Value} {q r : Slot} {k l : Key} {x : Value}

theorem key_drop : (v.drop r).key q = if q = r then none else v.key q :=
  Function.update_apply v.key r none q

theorem key_occupy : (v.occupy r k x).key q = if q = r then some k else v.key q :=
  Function.update_apply v.key r (some k) q

theorem value_occupy : (v.occupy r k x).value q = if q = r then x else v.value q :=
  Function.update_apply v.value r x q

theorem value_assign : (v.assign r x).value q = if q = r then x else v.value q :=
  Function.update_apply v.value r x q

/-! ## No key in two slots -/

theorem Single.drop (hv : Single v) : Single (v.drop r) := by
  intro p q k hp hq
  rw [key_drop] at hp hq
  split_ifs at hp hq
  exact hv hp hq

/-- A key may be given to a slot exactly if no other slot holds it. -/
theorem single_occupy_iff (hv : Single v) :
    Single (v.occupy r k x) ↔ ∀ q, v.key q = some k → q = r := by
  constructor
  · intro h q hq
    by_contra hne
    have hkey : (v.occupy r k x).key q = some k := by rw [key_occupy, if_neg hne, hq]
    have hkey' : (v.occupy r k x).key r = some k := by rw [key_occupy, if_pos rfl]
    exact hne (h hkey hkey')
  · intro h p q l hp hq
    rw [key_occupy] at hp hq
    split_ifs at hp hq with hpr hqr hqr
    · rw [hpr, hqr]
    · rw [← hp] at hq
      rw [hpr, h q hq]
    · rw [← hq] at hp
      rw [hqr, h p hp]
    · exact hv hp hq

theorem Single.occupy (hv : Single v) (hk : Absent v k) : Single (v.occupy r k x) :=
  (single_occupy_iff hv).mpr fun q hq => absurd hq (hk q)

/-! ## Agreement with the store -/

theorem synced_fetch : Synced (v.fetch r k) r := by
  intro l hl
  unfold View.fetch at hl ⊢
  rw [key_occupy, if_pos rfl] at hl
  rw [value_occupy, if_pos rfl, Option.some.inj hl]
  rfl

end Steps

/-! ## Saving -/

section Saving
variable [DecidableEq Key] {v : View Slot Key Value} {q r : Slot} {k l : Key}

/-- What is in the slot is stored under the key. -/
def View.save (v : View Slot Key Value) (r : Slot) (k : Key) : View Slot Key Value :=
  { v with store := Function.update v.store k (v.value r) }

theorem store_save : (v.save r k).store l = if l = k then v.value r else v.store l :=
  Function.update_apply v.store k (v.value r) l

theorem synced_save (hk : v.key r = some k) : Synced (v.save r k) r := by
  intro l hl
  have hkey : v.key r = some l := hl
  rw [hk] at hkey
  rw [store_save, if_pos (Option.some.inj hkey).symm]
  rfl

end Saving

/-! ## A key whose values are all good -/

/-- What is stored for the key is good, and so is the value of each slot that holds it. -/
structure Carries (v : View Slot Key Value) (k : Key) (good : Value → Prop) : Prop where
  stored : good (v.store k)
  held : ∀ r, v.key r = some k → good (v.value r)

section Carrying
variable [DecidableEq Slot] {v : View Slot Key Value} {r : Slot} {k l : Key} {x : Value}
  {good : Value → Prop}

theorem Carries.drop (h : Carries v k good) : Carries (v.drop r) k good := by
  refine ⟨h.stored, fun q hq => ?_⟩
  rw [key_drop] at hq
  split_ifs at hq
  exact h.held q hq

theorem Carries.occupy (h : Carries v k good) (hne : l ≠ k) :
    Carries (v.occupy r l x) k good := by
  refine ⟨h.stored, fun q hq => ?_⟩
  rw [key_occupy] at hq
  rw [value_occupy]
  split_ifs at hq ⊢
  · exact absurd (Option.some.inj hq) hne
  · exact h.held q hq

/-- A slot is assigned and saved, and if it holds the key, the value is a good one. -/
theorem Carries.save [DecidableEq Key] (h : Carries v k good) (hr : v.key r = some l)
    (hx : l = k → good x) : Carries ((v.assign r x).save r l) k good := by
  constructor
  · rw [store_save, value_assign, if_pos rfl]
    split_ifs with he
    · exact hx he.symm
    · exact h.stored
  · intro q hq
    change good ((v.assign r x).value q)
    rw [value_assign]
    split_ifs with he
    · have hkey : v.key r = some k := he ▸ hq
      exact hx (Option.some.inj (hr.symm.trans hkey))
    · exact h.held q hq

/-- A slot with the key is assigned a good value and saved, and loses the key. -/
theorem carries_save [DecidableEq Key] (hx : good x)
    (hothers : ∀ q, q ≠ r → v.key q = some k → good (v.value q)) :
    Carries (((v.assign r x).save r k).drop r) k good := by
  constructor
  · change good (((v.assign r x).save r k).store k)
    rw [store_save, if_pos rfl, value_assign, if_pos rfl]
    exact hx
  · intro q hq
    rw [key_drop] at hq
    split_ifs at hq with he
    change good ((v.assign r x).value q)
    rw [value_assign, if_neg he]
    exact hothers q he hq

end Carrying

/-! ## What of the values stays as it is -/

section Tracking
variable {A : Type*} {v : View Slot Key Value} {dirty dirty' : Slot → Prop} {part : Key → Value → A}
  {fixed : Key → A} {r : Slot} {k : Key} {x : Value}

/-- In each slot, this part of the value is the fixed one of its key. So it is in the store, as
long as no slot with the key is dirty. -/
structure Tracks (v : View Slot Key Value) (dirty : Slot → Prop) (part : Key → Value → A)
    (fixed : Key → A) : Prop where
  held : ∀ r k, v.key r = some k → part k (v.value r) = fixed k
  stored : ∀ k, (∀ r, v.key r = some k → ¬ dirty r) → part k (v.store k) = fixed k

theorem Tracks.congr (h : Tracks v dirty part fixed) (hdirty : ∀ r, dirty' r ↔ dirty r) :
    Tracks v dirty' part fixed := by
  constructor
  · exact h.held
  · intro k hclean
    exact h.stored k fun r hr hd => hclean r hr ((hdirty r).mpr hd)

theorem Tracks.current (h : Tracks v dirty part fixed) (hx : Current v k x) :
    part k x = fixed k := by
  cases hx with
  | held hr => exact h.held _ k hr
  | stored habsent => exact h.stored k fun r hr => absurd hr (habsent r)

variable [DecidableEq Slot]

/-- A slot that is clean may be given another key. -/
theorem Tracks.occupy (h : Tracks v dirty part fixed) (hr : ∀ l, v.key r = some l → ¬ dirty r)
    (hother : ∀ q, q ≠ r → (dirty' q ↔ dirty q)) (hx : part k x = fixed k)
    (hstore : ¬ dirty' r → part k (v.store k) = fixed k) :
    Tracks (v.occupy r k x) dirty' part fixed := by
  constructor
  · intro q l hq
    rw [key_occupy] at hq
    rw [value_occupy]
    split_ifs at hq ⊢ with he
    · rw [← Option.some.inj hq]
      exact hx
    · exact h.held q l hq
  · intro l hclean
    have hkey : (v.occupy r k x).key r = some k := by rw [key_occupy, if_pos rfl]
    by_cases hl : k = l
    · subst hl
      exact hstore (hclean r hkey)
    · apply h.stored l
      intro q hq
      by_cases he : q = r
      · subst he
        exact hr l hq
      · have hkey' : (v.occupy r k x).key q = some l := by rw [key_occupy, if_neg he, hq]
        exact fun hd => hclean q hkey' ((hother q he).mpr hd)

theorem Tracks.fetch (h : Tracks v dirty part fixed) (hk : Absent v k)
    (hr : ∀ l, v.key r = some l → ¬ dirty r) (hother : ∀ q, q ≠ r → (dirty' q ↔ dirty q)) :
    Tracks (v.fetch r k) dirty' part fixed := by
  have hstored := h.stored k fun q hq => absurd hq (hk q)
  exact h.occupy hr hother hstored fun _ => hstored

theorem Tracks.drop (h : Tracks v dirty part fixed) (hr : ¬ dirty r)
    (hother : ∀ q, q ≠ r → (dirty' q ↔ dirty q)) : Tracks (v.drop r) dirty' part fixed := by
  constructor
  · intro q l hq
    rw [key_drop] at hq
    split_ifs at hq
    exact h.held q l hq
  · intro l hclean
    apply h.stored l
    intro q hq
    by_cases he : q = r
    · subst he
      exact hr
    · have hkey : (v.drop r).key q = some l := by rw [key_drop, if_neg he, hq]
      exact fun hd => hclean q hkey ((hother q he).mpr hd)

/-- A slot is assigned another value, and with it the part may change that counts for its key. A
slot that is clean then had the part of before. -/
theorem Tracks.assign {fixed' : Key → A} (h : Tracks v dirty part fixed) (hv : Single v)
    (hr : v.key r = some k) (hx : part k x = fixed' k) (hfixed : ∀ l, l ≠ k → fixed' l = fixed l)
    (hother : ∀ q, q ≠ r → (dirty' q ↔ dirty q))
    (hclean : ¬ dirty' r → ¬ dirty r ∧ fixed' k = fixed k) :
    Tracks (v.assign r x) dirty' part fixed' := by
  constructor
  · intro q l hq
    have hkey : v.key q = some l := hq
    rw [value_assign]
    split_ifs with he
    · rw [he, hr] at hkey
      rw [← Option.some.inj hkey]
      exact hx
    · have hne : l ≠ k := fun hl => he (hv (hl ▸ hkey) hr)
      rw [hfixed l hne]
      exact h.held q l hkey
  · intro l hl
    change part l (v.store l) = fixed' l
    by_cases he : l = k
    · subst he
      obtain ⟨hnot, hsame⟩ := hclean (hl r hr)
      rw [hsame]
      apply h.stored l
      intro q hq
      rw [hv hq hr]
      exact hnot
    · rw [hfixed l he]
      apply h.stored l
      intro q hq
      have hne : q ≠ r := by
        intro hqr
        rw [hqr, hr] at hq
        exact he (Option.some.inj hq).symm
      exact fun hd => hl q hq ((hother q hne).mpr hd)

/-- A slot is assigned and saved. -/
theorem Tracks.save [DecidableEq Key] (h : Tracks v dirty part fixed) (hr : v.key r = some k)
    (hx : part k x = fixed k) (hother : ∀ q, q ≠ r → (dirty' q ↔ dirty q)) :
    Tracks ((v.assign r x).save r k) dirty' part fixed := by
  constructor
  · intro q l hq
    change part l ((v.assign r x).value q) = fixed l
    have hkey : v.key q = some l := hq
    rw [value_assign]
    split_ifs with he
    · rw [he, hr] at hkey
      rw [← Option.some.inj hkey]
      exact hx
    · exact h.held q l hkey
  · intro l hclean
    rw [store_save]
    split_ifs with hl
    · rw [hl, value_assign, if_pos rfl]
      exact hx
    · apply h.stored l
      intro q hq
      have he : q ≠ r := by
        intro he
        rw [he, hr] at hq
        exact hl (Option.some.inj hq).symm
      exact fun hd => hclean q hq ((hother q he).mpr hd)

end Tracking

end MinixOS.WriteBackCache
