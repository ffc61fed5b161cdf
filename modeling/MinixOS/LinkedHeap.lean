import MinixOS.CheckedExecution
import Mathlib.Data.List.Chain
import Mathlib.Data.List.Nodup
import Mathlib.Logic.Function.Basic

/-!
# Singly linked lists on a heap

A heap maps the addresses in use to cells, each of which holds a value and the
address of the next cell. A pointer is an address or NULL. Reading or writing
through NULL, or at an address that is not in use, stops the call.

A segment of a heap is a path along the `next` fields, with the values met on it.
A chain is a segment that ends in NULL. The rules say how segments are put
together and taken apart, that a chain has no cycle, that a write outside of a
segment leaves it, and where a loop along the `next` fields stops.
-/
namespace MinixOS.LinkedHeap
open LoopExecution CheckedExecution

structure Cell (V : Type*) where
  value : V
  next : Option ℕ
deriving DecidableEq, Repr

abbrev Heap (V : Type*) := ℕ → Option (Cell V)

variable {V : Type*}

def cellAt (h : Heap V) (p : Option ℕ) : Except Stop (Cell V) :=
  match p with
  | none => .error .nullPointer
  | some a =>
      match h a with
      | none => .error (.outOfRange a)
      | some c => .ok c

def store (h : Heap V) (a : ℕ) (c : Cell V) : Heap V := Function.update h a (some c)

/-- The statement `p->next = q`. -/
def setNext (h : Heap V) (p q : Option ℕ) : Except Stop (Heap V) :=
  match p with
  | none => .error .nullPointer
  | some a =>
      match h a with
      | none => .error (.outOfRange a)
      | some c => .ok (store h a { c with next := q })

/-- The fields of the cell at `p` other than `next` are set. -/
def setValue (h : Heap V) (p : Option ℕ) (v : V) : Except Stop (Heap V) :=
  match p with
  | none => .error .nullPointer
  | some a =>
      match h a with
      | none => .error (.outOfRange a)
      | some c => .ok (store h a { c with value := v })

/-- The address is in use no longer. Nothing is done for NULL. -/
def free (h : Heap V) (p : Option ℕ) : Except Stop (Heap V) :=
  match p with
  | none => .ok h
  | some a =>
      match h a with
      | none => .error (.outOfRange a)
      | some _ => .ok (Function.update h a none)

section Access
variable {h : Heap V} {a b : ℕ} {c : Cell V}

theorem cellAt_some (ha : h a = some c) : cellAt h (some a) = .ok c := by
  simp only [cellAt, ha]

theorem setNext_some (ha : h a = some c) (q : Option ℕ) :
    setNext h (some a) q = .ok (store h a { c with next := q }) := by
  simp only [setNext, ha]

theorem setValue_some (ha : h a = some c) (v : V) :
    setValue h (some a) v = .ok (store h a { c with value := v }) := by
  simp only [setValue, ha]

theorem free_some (ha : h a = some c) : free h (some a) = .ok (Function.update h a none) := by
  simp only [free, ha]

@[simp] theorem store_same : store h a c a = some c := Function.update_self _ _ _

theorem store_other (hb : b ≠ a) : store h a c b = h b := Function.update_of_ne hb _ _

@[simp] theorem store_store (c' : Cell V) : store (store h a c) a c' = store h a c' :=
  Function.update_idem _ _ _

theorem store_comm (hab : a ≠ b) (c c' : Cell V) :
    store (store h a c) b c' = store (store h b c') a c :=
  Function.update_comm hab _ _ _

/-- What was stored at `a` is stored anew, with something stored elsewhere in between. -/
theorem store_again (hab : a ≠ b) (c c' d : Cell V) :
    store (store (store h a c) b d) a c' = store (store h a c') b d := by
  rw [store_comm hab.symm, store_store]

end Access

/-! ## Segments and chains -/

/-- `Segment h p l q`: from `p` on, the cells of `l` follow one another, up to `q`. -/
inductive Segment (h : Heap V) : Option ℕ → List (ℕ × V) → Option ℕ → Prop
  | nil (p : Option ℕ) : Segment h p [] p
  | cons {a : ℕ} {c : Cell V} {l : List (ℕ × V)} {q : Option ℕ} :
      h a = some c → Segment h c.next l q → Segment h (some a) ((a, c.value) :: l) q

/-- The cells from `p` on up to the one whose `next` is NULL. -/
abbrev Chain (h : Heap V) (p : Option ℕ) (l : List (ℕ × V)) : Prop := Segment h p l none

section Rules
variable {h h' : Heap V} {p q r : Option ℕ} {l m : List (ℕ × V)}

theorem Segment.cons_inv {a : ℕ} {v : V} (hs : Segment h p ((a, v) :: l) q) :
    p = some a ∧ ∃ c, h a = some c ∧ c.value = v ∧ Segment h c.next l q := by
  cases hs with
  | cons ha hl => exact ⟨rfl, _, ha, rfl, hl⟩

theorem Segment.append (hl : Segment h p l q) (hm : Segment h q m r) :
    Segment h p (l ++ m) r := by
  induction hl with
  | nil p => exact hm
  | cons ha _ ih => exact .cons ha (ih hm)

theorem Segment.split (hs : Segment h p (l ++ m) r) :
    ∃ q, Segment h p l q ∧ Segment h q m r := by
  induction l generalizing p with
  | nil => exact ⟨p, .nil p, hs⟩
  | cons x l ih =>
      obtain ⟨rfl, c, ha, hv, hl⟩ := hs.cons_inv
      obtain ⟨q, hq, hm⟩ := ih hl
      refine ⟨q, ?_, hm⟩
      have hcons := Segment.cons ha hq
      rwa [hv] at hcons

/-- What holds of a segment depends on its own cells only. -/
theorem Segment.frame (hs : Segment h p l q) (hsame : ∀ x ∈ l, h' x.1 = h x.1) :
    Segment h' p l q := by
  induction hs with
  | nil p => exact .nil p
  | cons ha _ ih =>
      apply Segment.cons
      · rw [hsame _ List.mem_cons_self, ha]
      · exact ih fun x hx => hsame x (List.mem_cons_of_mem _ hx)

theorem Segment.in_use (hs : Segment h p l q) {x : ℕ × V} (hx : x ∈ l) : h x.1 ≠ none := by
  induction hs with
  | nil _ => exact absurd hx List.not_mem_nil
  | cons ha _ ih =>
      rcases List.mem_cons.mp hx with rfl | hx
      · rw [ha]
        exact Option.some_ne_none _
      · exact ih hx

/-- The pointer determines the chain. -/
theorem chain_unique (hl : Chain h p l) (hm : Chain h p m) : l = m := by
  induction l generalizing p m with
  | nil =>
      cases hl
      cases hm
      rfl
  | cons x l ih =>
      obtain ⟨rfl, c, ha, hv, hl⟩ := hl.cons_inv
      cases hm with
      | @cons _ c' m _ hb hm =>
          rw [ha, Option.some.injEq] at hb
          subst hb
          rw [ih hl hm, hv]

/-- A chain that ends in NULL does not come back to one of its cells. -/
theorem chain_nodup (hl : Chain h p l) : (l.map Prod.fst).Nodup := by
  induction l generalizing p with
  | nil => exact List.nodup_nil
  | cons x l ih =>
      have hwhole := hl
      obtain ⟨rfl, c, ha, hv, hl⟩ := hl.cons_inv
      rw [List.map_cons, List.nodup_cons]
      refine ⟨fun hm => ?_, ih hl⟩
      obtain ⟨y, hy, hxy⟩ := List.mem_map.mp hm
      obtain ⟨front, rest, rfl⟩ := List.append_of_mem hy
      obtain ⟨q, _, hq⟩ := hl.split
      have hstart : q = some x.1 := by
        obtain ⟨h1, _⟩ := Segment.cons_inv (a := y.1) (v := y.2) hq
        rw [h1, hxy]
      rw [hstart] at hq
      have hlen := congrArg List.length (chain_unique hwhole hq)
      simp only [List.length_cons, List.length_append] at hlen
      omega

/-- A change at an address off the segment leaves it. -/
theorem Segment.update_other (hs : Segment h p l q) {a : ℕ} (ha : a ∉ l.map Prod.fst)
    (x : Option (Cell V)) : Segment (Function.update h a x) p l q := by
  refine hs.frame fun y hy => ?_
  have hne : y.1 ≠ a := fun hya => ha (hya ▸ List.mem_map_of_mem hy)
  rw [Function.update_of_ne hne]

theorem Segment.store_other (hs : Segment h p l q) {a : ℕ} (ha : a ∉ l.map Prod.fst)
    (c : Cell V) : Segment (store h a c) p l q :=
  hs.update_other ha (some c)

/-- An address that is not in use is on no segment. -/
theorem Segment.not_mem_of_unused (hs : Segment h p l q) {a : ℕ} (ha : h a = none) :
    a ∉ l.map Prod.fst := by
  intro hm
  obtain ⟨x, hx, rfl⟩ := List.mem_map.mp hm
  exact hs.in_use hx ha

/-- The addresses of a chain behind and in front of a cell are others. -/
theorem chain_apart {b : ℕ} {v : V} (hc : Chain h p (l ++ (b, v) :: m)) :
    b ∉ l.map Prod.fst ∧ b ∉ m.map Prod.fst := by
  have hnd := chain_nodup hc
  rw [List.map_append, List.map_cons, List.nodup_middle, List.nodup_cons, List.mem_append,
    not_or] at hnd
  exact hnd.1

/-- The cell at `b` is made to point to another chain. -/
theorem Segment.relink {b : ℕ} {v : V} {m' : List (ℕ × V)} (hc : Chain h p (l ++ (b, v) :: m))
    (hm : Chain (store h b ⟨v, q⟩) q m') : Chain (store h b ⟨v, q⟩) p (l ++ (b, v) :: m') := by
  obtain ⟨r, hl, hr⟩ := hc.split
  obtain ⟨rfl, _⟩ := hr.cons_inv
  exact (hl.store_other (chain_apart hc).1 _).append (.cons store_same hm)

/-- A cell at an unused address is hung behind the last one. -/
theorem chain_extend {l : List (ℕ × V)} {b n : ℕ} {v w : V} (hc : Chain h p (l ++ [(b, v)]))
    (hn : h n = none) :
    Chain (store (store h n ⟨w, none⟩) b ⟨v, some n⟩) p (l ++ [(b, v), (n, w)]) := by
  have hnew := hc.store_other (hc.not_mem_of_unused hn) ⟨w, none⟩
  refine hnew.relink ?_
  have hne : n ≠ b := by
    rintro rfl
    exact hc.in_use (x := (n, v)) (List.mem_append_right _ List.mem_cons_self) hn
  have hcell : store (store h n ⟨w, none⟩) b ⟨v, some n⟩ n = some ⟨w, none⟩ := by
    rw [LinkedHeap.store_other hne, store_same]
  exact .cons hcell (.nil none)

/-- A chain of some cells starts at the first of them. -/
theorem chain_start {l : List (ℕ × V)} {x : ℕ × V} (hc : Chain h p (l ++ [x])) :
    ∃ a, p = some a := by
  cases l with
  | nil => exact ⟨x.1, hc.cons_inv.1⟩
  | cons y l => exact ⟨y.1, hc.cons_inv.1⟩

/-- A cell of a chain, and the chain behind it. -/
theorem chain_cell {b : ℕ} {v : V} (hc : Chain h p (l ++ (b, v) :: m)) :
    ∃ next, h b = some ⟨v, next⟩ ∧ Chain h next m := by
  obtain ⟨q, _, hq⟩ := hc.split
  obtain ⟨_, c, hb, rfl, hm⟩ := hq.cons_inv
  exact ⟨c.next, hb, hm⟩

theorem chain_from {b : ℕ} {v : V} (hc : Chain h p (l ++ (b, v) :: m)) :
    Chain h (some b) ((b, v) :: m) := by
  obtain ⟨q, _, hq⟩ := hc.split
  obtain ⟨rfl, _⟩ := hq.cons_inv
  exact hq

/-- The cell at `b` is made to point behind the next one, and that one is freed. -/
theorem chain_unlink {b c : ℕ} {v w : V} (hc : Chain h p (l ++ (b, v) :: (c, w) :: m))
    (hq : h c = some ⟨w, q⟩) :
    Chain (Function.update (store h b ⟨v, q⟩) c none) p (l ++ (b, v) :: m) := by
  have hb := (chain_apart hc).2
  have hsplit : Chain h p ((l ++ [(b, v)]) ++ (c, w) :: m) := by
    rw [List.append_assoc]
    exact hc
  obtain ⟨hfront, hbehind⟩ := chain_apart hsplit
  obtain ⟨next, hnext, hm⟩ := chain_cell hsplit
  rw [hq, Option.some.injEq, Cell.mk.injEq] at hnext
  rw [← hnext.2] at hm
  rw [List.map_cons, List.mem_cons, not_or] at hb
  have hlinked := hc.relink (hm.store_other hb.2 ⟨v, q⟩)
  refine hlinked.update_other ?_ none
  rw [List.map_append, List.mem_append, List.map_cons, List.mem_cons] at hfront ⊢
  rintro (hl | rfl | hm)
  · exact hfront (.inl hl)
  · exact hb.1 rfl
  · exact hbehind hm

/-- The first cell of a chain can be freed, if there is one. -/
theorem free_chain (hc : Chain h p l) :
    ∃ h', free h p = .ok h' ∧ ∀ a, a ∉ l.map Prod.fst → h' a = h a := by
  cases hc with
  | nil _ => exact ⟨h, rfl, fun _ _ => rfl⟩
  | @cons a c l _ ha _ =>
      refine ⟨_, free_some ha, fun b hb => ?_⟩
      rw [List.map_cons, List.mem_cons, not_or] at hb
      exact Function.update_of_ne hb.1 _ _

theorem chain_last {b : ℕ} {v : V} (hc : Chain h p (l ++ [(b, v)])) : h b = some ⟨v, none⟩ := by
  obtain ⟨next, hb, hend⟩ := chain_cell hc
  cases hend
  exact hb

end Rules

/-! ## Walks along a chain -/

/-- One pass of `while (p->next != NULL) { if (test) break; p = p->next; }`, where the test may
read the values of both cells. The flag says whether the loop was left by the break. -/
def walkPass (test : V → V → Bool) (h : Heap V) (p : ℕ) : Pass ℕ (Except Stop (ℕ × Bool)) :=
  match h p with
  | none => .leave (.error (.outOfRange p))
  | some cell =>
      match cell.next with
      | none => .leave (.ok (p, false))
      | some q =>
          match h q with
          | none => .leave (.error (.outOfRange q))
          | some next => if test cell.value next.value then .leave (.ok (p, true)) else .again q

section Walk
variable {h : Heap V} {test : V → V → Bool}

/-- The test fails at each of two neighbours. -/
def Passes (test : V → V → Bool) (l : List (ℕ × V)) : Prop :=
  l.IsChain fun x y => test x.2 y.2 = false

/-- Where a path to `b` starts there is a cell: the first of the path, or `b` itself. -/
theorem Segment.start {p : Option ℕ} {l : List (ℕ × V)} {b : ℕ} {cb : Cell V}
    (hs : Segment h p l (some b)) (hb : h b = some cb) :
    ∃ a c, p = some a ∧ h a = some c ∧ (l ++ [(b, cb.value)]).head? = some (a, c.value) := by
  cases hs with
  | nil _ => exact ⟨b, cb, rfl, hb, rfl⟩
  | @cons a c l _ ha _ => exact ⟨a, c, rfl, ha, rfl⟩

theorem walks_along {l : List (ℕ × V)} {a b : ℕ} {cb : Cell V}
    (hs : Segment h (some a) l (some b)) (hb : h b = some cb)
    (hp : Passes test (l ++ [(b, cb.value)])) : Walks (walkPass test h) a b := by
  induction l generalizing a with
  | nil =>
      cases hs
      exact .refl b
  | cons x l ih =>
      obtain ⟨hx, c, ha, hv, hl⟩ := hs.cons_inv
      obtain rfl := Option.some.inj hx
      obtain ⟨a', c', hnext, ha', hhead⟩ := hl.start hb
      rw [hnext] at hl
      rw [Passes, List.cons_append, List.isChain_cons] at hp
      have htest : test c.value c'.value = false := by
        have hxy := hp.1 (a', c'.value) hhead
        rwa [← hv] at hxy
      refine .pass ?_ (ih hl hp.2)
      simp only [walkPass, ha, hnext, ha', htest, Bool.false_eq_true, if_false]

/-- The test fails everywhere: the loop ends at the last cell. -/
theorem walk_to_last {l : List (ℕ × V)} {a b : ℕ} {v : V}
    (hc : Chain h (some a) (l ++ [(b, v)])) (hp : Passes test (l ++ [(b, v)])) :
    Leaves (walkPass test h) a (.ok (b, false)) := by
  obtain ⟨q, hl, hq⟩ := hc.split
  obtain ⟨rfl, cb, hb, rfl, hend⟩ := hq.cons_inv
  refine (walks_along hl hb hp).leaves ?_
  cases hend' : cb.next with
  | none => simp only [walkPass, hb, hend']
  | some _ =>
      rw [hend'] at hend
      cases hend

/-- The loop ends at the first cell that passes the test together with the one behind it. -/
theorem walk_to_found {l rest : List (ℕ × V)} {a b c : ℕ} {v w : V}
    (hc : Chain h (some a) (l ++ (b, v) :: (c, w) :: rest)) (hp : Passes test (l ++ [(b, v)]))
    (ht : test v w = true) : Leaves (walkPass test h) a (.ok (b, true)) := by
  obtain ⟨q, hl, hq⟩ := hc.split
  obtain ⟨rfl, cb, hb, rfl, hrest⟩ := hq.cons_inv
  obtain ⟨hnext, cc, hcc, rfl, _⟩ := hrest.cons_inv
  refine (walks_along hl hb hp).leaves ?_
  simp only [walkPass, hb, hnext, hcc, ht, if_true]

end Walk

end MinixOS.LinkedHeap
