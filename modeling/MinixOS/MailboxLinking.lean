import MinixOS.MailboxHeap

/-!
# The chains behind the message lists

What the statements of `do_msend` and `do_mreceive` that touch `next` fields do to the
chain of one mailbox. A send extends it by the new node: the second linking makes the
node point to itself, and to NULL again, and leaves the heap as it was. A receive
takes off the first node, or makes the found node the head and frees the one behind
it. In each case the messages on the new chain are those of the list model.
-/
namespace MinixOS.MailboxLinking
open LoopExecution CheckedExecution SystemRuns KeyedLists LinkedHeap MailboxState MailboxCalls
  MailboxReceive MailboxSystem MailboxHeap

/-! ## Linking a new node -/

section Link
variable {h : Heap MessageNode} {mbList : Option ℕ} {node : ℕ} {left : Cell MessageNode}

theorem lastNode_comesTo {l : List (ℕ × MessageNode)} {a b : ℕ} {v : MessageNode}
    (hc : Chain h (some a) (l ++ [(b, v)])) :
    ComesTo (fun fuel => lastNode fuel h a) (b, false) := by
  apply comesTo_of_leaves
  exact walk_to_last hc (List.pairwise_of_forall fun _ _ => rfl).isChain

/-- The heap in which the cell at `b` is followed by a new last one. -/
def extended (h : Heap MessageNode) (b : ℕ) (v : MessageNode) (node : ℕ) (w : MessageNode) :
    Heap MessageNode :=
  store (store h node ⟨w, none⟩) b ⟨v, some node⟩

theorem extended_node {b : ℕ} {v w : MessageNode} (hne : node ≠ b) :
    extended h b v node w node = some ⟨w, none⟩ := by
  rw [extended, store_other hne, store_same]

theorem last_ne_node {l : List (ℕ × MessageNode)} {p : Option ℕ} {b : ℕ} {v : MessageNode}
    (hc : Chain h p (l ++ [(b, v)])) (hn : h node = none) : node ≠ b := by
  rintro rfl
  exact absurd ((chain_last hc).symm.trans hn) (Option.some_ne_none _)

/-- The node is linked behind the last one, with its `next` at NULL. -/
theorem makeNode_comesTo {l : List (ℕ × MessageNode)} {a b : ℕ} {v : MessageNode}
    (hc : Chain h (some a) (l ++ [(b, v)])) (hn : h node = none) :
    ComesTo (fun fuel => makeNode fuel node left (some a) h)
      (extended h b v node left.value, some node) := by
  have hne := last_ne_node hc hn
  have hold : store h node left b = some ⟨v, none⟩ := by
    rw [store_other hne.symm, chain_last hc]
  have hnew : store (store h node left) b ⟨v, some node⟩ node = some left := by
    rw [store_other hne, store_same]
  unfold makeNode
  refine (lastNode_comesTo hc).bind ?_
  simp only [setNext_some hold, ok_bind, cellAt_some store_same, setNext_some hnew,
    store_again hne]
  exact comesTo_ok _

/-- The second walk ends at the node that the first part linked. -/
theorem hangNode_comesTo {l : List (ℕ × MessageNode)} {a : ℕ} {w : MessageNode}
    (hc : Chain h (some a) (l ++ [(node, w)])) :
    ComesTo (fun fuel => hangNode fuel (some node) (some a) h) (h, some a) := by
  have hlast := chain_last hc
  have hsame : store h node ⟨w, none⟩ = h := Function.update_eq_self_iff.mpr hlast.symm
  unfold hangNode
  refine (lastNode_comesTo hc).bind ?_
  simp only [setNext_some hlast, ok_bind, cellAt_some store_same, setNext_some store_same,
    store_store, hsame]
  exact comesTo_ok _

variable {cursor : HeapMailBox} {l : List (ℕ × MessageNode)}

/-- A message is linked: the chain of the mailbox is the old one and the new node. -/
theorem heapLinkMessage_comesTo (req : SendRequest) (left : Cell MessageNode)
    (hc : Chain h cursor.mbList l) (hn : h node = none) :
    ∃ head h', ComesTo (fun fuel => heapLinkMessage fuel req node left cursor h)
        { cursor := { cursor with mbList := head, numMes := cursor.numMes + 1 }
          heap := h', value := 1 } ∧
      Chain h' head (l ++ [(node, req.tempML)]) ∧
      ∀ a, a ≠ node → a ∉ l.map Prod.fst → h' a = h a := by
  obtain ⟨numMes, owner, senders, mbList⟩ := cursor
  cases l using List.reverseRecOn with
  | nil =>
      cases hc
      refine ⟨some node, store h node ⟨req.tempML, none⟩, ?_, ?_, ?_⟩
      · unfold heapLinkMessage makeNode hangNode
        simp only [setNext_some store_same, store_store, ok_bind, setValue_some store_same]
        exact comesTo_ok _
      · exact .cons store_same (.nil none)
      · exact fun a ha _ => store_other ha
  | append_singleton l last _ =>
      obtain ⟨b, v⟩ := last
      dsimp only at hc
      obtain ⟨a, rfl⟩ := chain_start hc
      have hne := last_ne_node hc hn
      have hext : Chain (extended h b v node req.tempML) (some a)
          ((l ++ [(b, v)]) ++ [(node, req.tempML)]) := by
        rw [List.append_assoc]
        exact chain_extend hc hn
      have hset : setValue (extended h b v node left.value) (some node) req.tempML =
          .ok (extended h b v node req.tempML) := by
        rw [setValue_some (extended_node hne)]
        exact congrArg Except.ok (store_again hne _ _ _)
      refine ⟨some a, extended h b v node req.tempML, ?_, hext, ?_⟩
      · unfold heapLinkMessage
        refine (makeNode_comesTo hc hn).bind ?_
        simp only [hset, ok_bind]
        exact (hangNode_comesTo hext).bind (comesTo_ok _)
      · intro x hx hxl
        have hxb : x ≠ b := by
          rintro rfl
          exact hxl (by simp)
        rw [extended, store_other hxb, store_other hx]

end Link

/-! ## Taking a node off -/

/-- From `h` to `h'` the chain `l` became `l'`, and the cells of other chains are kept. -/
structure Updates (h : Heap MessageNode) (l : List (ℕ × MessageNode)) (h' : Heap MessageNode)
    (p : Option ℕ) (l' : List (ℕ × MessageNode)) : Prop where
  chain : Chain h' p l'
  within : ∀ x ∈ l', x.1 ∈ l.map Prod.fst ∨ h x.1 = none
  frame : ∀ a, a ∉ l.map Prod.fst → h a ≠ none → h' a = h a

theorem updates_refl {h : Heap MessageNode} {p : Option ℕ} {l : List (ℕ × MessageNode)}
    (hc : Chain h p l) : Updates h l h p l where
  chain := hc
  within := fun _ hx => .inl (List.mem_map_of_mem hx)
  frame := fun _ _ _ => rfl

/-- The messages on a chain. -/
def messages (l : List (ℕ × MessageNode)) : List MessageNode := l.map Prod.snd

@[simp] theorem messages_nil : messages [] = [] := rfl

@[simp] theorem messages_cons (x : ℕ × MessageNode) (l : List (ℕ × MessageNode)) :
    messages (x :: l) = x.2 :: messages l := rfl

@[simp] theorem messages_append (l m : List (ℕ × MessageNode)) :
    messages (l ++ m) = messages l ++ messages m := List.map_append

section Receive
variable {h : Heap MessageNode} {p : Option ℕ} {l : List (ℕ × MessageNode)} {source : ℤ}

/-- No message behind the first one is from the source. -/
theorem passes_next {x : ℕ × MessageNode} (hl : ∀ y ∈ l, y.2.sender ≠ source) :
    Passes (fun _ next => next.sender = source) (x :: l) := by
  rw [Passes, List.isChain_iff_forall_rel_of_append_cons_cons]
  intro a b l₁ l₂ he
  have hb : b ∈ l := by
    cases l₁ with
    | nil =>
        rw [List.nil_append, List.cons.injEq] at he
        rw [he.2]
        exact List.mem_cons_self
    | cons y l₁ =>
        rw [List.cons_append, List.cons.injEq] at he
        rw [he.2]
        simp
  simpa using hl b hb

/-- No message in front of the last one is from the source. -/
theorem passes_this {x : ℕ × MessageNode} (hl : ∀ y ∈ l, y.2.sender ≠ source) :
    Passes (fun this _ => this.sender = source) (l ++ [x]) := by
  rw [Passes, List.isChain_iff_forall_rel_of_append_cons_cons]
  intro a b l₁ l₂ he
  have ha : a ∈ l := by
    have hdrop := congrArg List.dropLast he
    rw [List.dropLast_concat, List.dropLast_append_of_ne_nil (List.cons_ne_nil _ _)] at hdrop
    rw [hdrop]
    simp
  simpa using hl a ha

/-- A list is empty or has a last element. -/
theorem eq_concat_of_cons (x : ℕ × MessageNode) (l : List (ℕ × MessageNode)) :
    ∃ front last, x :: l = front ++ [last] :=
  ⟨_, _, (List.dropLast_append_getLast (List.cons_ne_nil x l)).symm⟩

/-- The search on the heap finds a node exactly when the search in the list finds one. -/
theorem heapSearch_comesTo (source : ℤ) (hc : Chain h p l) :
    ∃ found, ComesTo (fun fuel => heapSearch fuel source p h) found ∧
      (found = none ↔ searchMessage source (messages l) = none) := by
  cases l with
  | nil =>
      cases hc
      exact ⟨none, comesTo_ok none, iff_of_true rfl rfl⟩
  | cons x rest =>
      obtain ⟨rfl, c, ha, hv, hrest⟩ := hc.cons_inv
      simp only [heapSearch, cellAt_some ha, ok_bind, hv]
      by_cases hx : x.2.sender = source
      · refine ⟨some x.1, ?_, ?_⟩
        · simp only [if_pos hx]
          exact comesTo_ok _
        · exact iff_of_false (by simp) (by simp [messages, searchMessage, hx])
      simp only [if_neg hx]
      rw [messages, List.map_cons, searchMessage_eq, List.find?_cons_of_neg (by simpa using hx)]
      cases hf : rest.find? fun y => y.2.sender = source with
      | none =>
          rw [List.find?_eq_none] at hf
          obtain ⟨front, last, hlast⟩ := eq_concat_of_cons x rest
          rw [hlast] at hc
          have hpass := passes_next (x := x) fun y hy => by simpa using hf y hy
          rw [hlast] at hpass
          have hwalk := walk_to_last hc hpass
          refine ⟨none, ?_, ?_⟩
          · refine (comesTo_of_leaves hwalk).bind ?_
            simp only [cellAt_some (chain_last hc), ok_bind, Bool.false_eq_true, if_false]
            exact comesTo_ok _
          · refine iff_of_true rfl ?_
            rw [List.find?_eq_none]
            intro y hy
            obtain ⟨z, hz, rfl⟩ := List.mem_map.mp hy
            exact hf z hz
      | some found =>
          rw [List.find?_eq_some_iff_append] at hf
          obtain ⟨hfound, front, behind, hsplit, hfront⟩ := hf
          subst hsplit
          obtain ⟨ahead, last, hlast⟩ := eq_concat_of_cons x front
          have hcell : x :: (front ++ found :: behind) = ahead ++ last :: found :: behind := by
            rw [← List.cons_append, hlast, List.append_assoc, List.singleton_append]
          rw [hcell] at hc
          have hpass := passes_next (x := x) fun y hy => by simpa using hfront y hy
          rw [hlast] at hpass
          have hwalk := walk_to_found hc hpass hfound
          obtain ⟨next, hb, hnext⟩ := chain_cell hc
          obtain ⟨rfl, _⟩ := Segment.cons_inv (v := found.2) hnext
          refine ⟨some found.1, ?_, ?_⟩
          · refine (comesTo_of_leaves hwalk).bind ?_
            simp only [cellAt_some hb, ok_bind, if_true]
            exact comesTo_ok _
          · refine iff_of_false (by simp) ?_
            rw [List.find?_eq_none]
            exact fun hall => hall found.2 (List.mem_map_of_mem (by simp)) hfound

/-- The chain of a mailbox is updated as a block of the list model changes its messages. -/
structure Realises (h : Heap MessageNode) (l : List (ℕ × MessageNode)) (b : HeapBlock)
    (l' : List (ℕ × MessageNode)) (cursor : MailBox) (value : ℤ) : Prop where
  updates : Updates h l b.heap b.cursor.mbList l'
  cursor : b.cursor.withMessages (messages l') = cursor
  value : b.value = value

variable {cursor : HeapMailBox}

theorem unlinkBehind_eq {front rest : List (ℕ × MessageNode)} {x y : ℕ × MessageNode}
    {q : Option ℕ} (hc : Chain h p (front ++ x :: y :: rest)) (hy : h y.1 = some ⟨y.2, q⟩) :
    unlinkBehind x.1 cursor h =
      .ok
        { cursor := { cursor with mbList := some x.1 }
          heap := Function.update (store h x.1 ⟨x.2, q⟩) y.1 none, value := 1 } := by
  obtain ⟨next, hx, hnext⟩ := chain_cell hc
  obtain ⟨rfl, _⟩ := Segment.cons_inv (v := y.2) hnext
  have hne : y.1 ≠ x.1 := by
    have hxy := (chain_apart hc).2
    rw [List.map_cons, List.mem_cons, not_or] at hxy
    exact Ne.symm hxy.1
  have hy' : store h x.1 ⟨x.2, q⟩ y.1 = some ⟨y.2, q⟩ := by rw [store_other hne, hy]
  simp only [unlinkBehind, cellAt_some hx, ok_bind, cellAt_some hy, setNext_some hx, free_some hy']

theorem updates_unlink {front rest : List (ℕ × MessageNode)} {x y : ℕ × MessageNode}
    {q : Option ℕ} (hc : Chain h p (front ++ x :: y :: rest)) (hy : h y.1 = some ⟨y.2, q⟩) :
    Updates h (front ++ x :: y :: rest) (Function.update (store h x.1 ⟨x.2, q⟩) y.1 none)
      (some x.1) (x :: rest) where
  chain := chain_from (chain_unlink hc hy)
  within := by
    intro z hz
    refine .inl (List.mem_map_of_mem (List.mem_append_right _ ?_))
    rcases List.mem_cons.mp hz with rfl | hz
    · exact List.mem_cons_self
    · exact List.mem_cons_of_mem _ (List.mem_cons_of_mem _ hz)
  frame := by
    intro a ha _
    have hay : a ≠ y.1 := by
      rintro rfl
      exact ha (by simp)
    have hax : a ≠ x.1 := by
      rintro rfl
      exact ha (by simp)
    rw [Function.update_of_ne hay, store_other hax]

/-- The deletion on the heap comes to an end, and is the deletion in the list. -/
def Deletes (h : Heap MessageNode) (l : List (ℕ × MessageNode)) (cursor : HeapMailBox)
    (w : Resumed) (log : List Event) : Prop :=
  ∃ b l', ComesTo (fun fuel => heapDelete fuel w.m1_i1 cursor h) b ∧
    Realises h l b l' (deleteMessage w (cursor.withMessages (messages l)) log).cursor
      (deleteMessage w (cursor.withMessages (messages l)) log).value

section Deletion
variable {w : Resumed} {front rest : List (ℕ × MessageNode)} {first x y : ℕ × MessageNode}

theorem deletes_first (hc : Chain h cursor.mbList (x :: rest)) (log : List Event)
    (hm : x.2.sender = w.m1_i1) : Deletes h (x :: rest) cursor w log := by
  obtain ⟨numMes, owner, senders, mbList⟩ := cursor
  dsimp only at hc
  have hx : x.1 ∉ rest.map Prod.fst := (chain_apart (l := []) hc).2
  obtain ⟨rfl, c, ha, hv, hrest⟩ := hc.cons_inv
  have hv' : w.m1_i1 = c.value.sender := by rw [hv, hm]
  refine ⟨⟨⟨numMes, owner, senders, c.next⟩, Function.update h x.1 none, 1⟩, rest, ?_, ?_⟩
  · simp only [heapDelete, cellAt_some ha, ok_bind, free_some ha, if_pos hv']
    exact comesTo_ok _
  · simp only [messages, List.map_cons, HeapMailBox.withMessages, deleteMessage, if_pos hm.symm]
    constructor
    · constructor
      · exact hrest.update_other hx none
      · exact fun z hz => .inl (List.mem_map_of_mem (List.mem_cons_of_mem _ hz))
      · intro a hal _
        have hax : a ≠ x.1 := by
          rintro rfl
          exact hal (by simp)
        exact Function.update_of_ne hax _ _
    · rfl
    · rfl

theorem senders_of_front (hfront : ∀ z ∈ front, z.2.sender ≠ w.m1_i1) :
    ∀ node ∈ messages front, node.sender ≠ w.m1_i1 := by
  intro node hn
  obtain ⟨z, hz, rfl⟩ := List.mem_map.mp hn
  exact hfront z hz

/-- At the last node the deletion finds nothing behind it, and fails. -/
theorem deletes_last (hc : Chain h cursor.mbList (first :: front ++ [x])) (log : List Event)
    (hfront : ∀ z ∈ first :: front, z.2.sender ≠ w.m1_i1) :
    Deletes h (first :: front ++ [x]) cursor w log := by
  obtain ⟨numMes, owner, senders, mbList⟩ := cursor
  dsimp only at hc
  have hstart := hc.cons_inv
  obtain ⟨rfl, c, ha, hv, _⟩ := hstart
  have hne : ¬ w.m1_i1 = first.2.sender := fun he => hfront first List.mem_cons_self he.symm
  have hne' : ¬ w.m1_i1 = c.value.sender := by rwa [hv]
  have hwalk := walk_to_last hc (passes_this (x := x) hfront)
  have hlast := deleteWalk_last (senders_of_front hfront) x.2
  rw [messages_cons, List.cons_append] at hlast
  refine ⟨⟨⟨numMes, owner, senders, some first.1⟩, h, -1⟩, first :: front ++ [x], ?_, ?_⟩
  · simp only [heapDelete, cellAt_some ha, ok_bind, if_neg hne']
    refine (comesTo_of_leaves hwalk).bind ?_
    exact comesTo_ok _
  · simp only [HeapMailBox.withMessages, messages_append, messages_cons, messages_nil,
      List.cons_append, deleteMessage, if_neg hne, hlast]
    constructor
    · exact updates_refl hc
    · simp [HeapMailBox.withMessages]
    · rfl

/-- The node behind the found one is freed, and the found one is the new head. -/
theorem deletes_behind (hc : Chain h cursor.mbList (first :: front ++ x :: y :: rest))
    (log : List Event) (hm : x.2.sender = w.m1_i1)
    (hfront : ∀ z ∈ first :: front, z.2.sender ≠ w.m1_i1) :
    Deletes h (first :: front ++ x :: y :: rest) cursor w log := by
  obtain ⟨numMes, owner, senders, mbList⟩ := cursor
  dsimp only at hc
  have hstart := hc.cons_inv
  obtain ⟨rfl, c, ha, hv, _⟩ := hstart
  have hne : ¬ w.m1_i1 = first.2.sender := fun he => hfront first List.mem_cons_self he.symm
  have hne' : ¬ w.m1_i1 = c.value.sender := by rwa [hv]
  have hwalk := walk_to_found hc (passes_this (x := x) hfront) (decide_eq_true hm)
  have hbehind := deleteWalk_behind (senders_of_front hfront) hm y.2 (messages rest)
  rw [messages_cons, List.cons_append] at hbehind
  have hsplit : Chain h (some first.1) ((first :: front ++ [x]) ++ y :: rest) := by
    rw [List.append_assoc]
    exact hc
  obtain ⟨q, hy, _⟩ := chain_cell hsplit
  refine ⟨⟨⟨numMes, owner, senders, some x.1⟩,
    Function.update (store h x.1 ⟨x.2, q⟩) y.1 none, 1⟩, x :: rest, ?_, ?_⟩
  · simp only [heapDelete, cellAt_some ha, ok_bind, if_neg hne']
    refine (comesTo_of_leaves hwalk).bind ?_
    simp only [if_true, unlinkBehind_eq hc hy]
    exact comesTo_ok _
  · simp only [HeapMailBox.withMessages, messages_append, messages_cons,
      List.cons_append, deleteMessage, if_neg hne, hbehind]
    constructor
    · exact updates_unlink hc hy
    · rfl
    · rfl

theorem heapDelete_comesTo (hc : Chain h cursor.mbList l) (w : Resumed) (log : List Event)
    (hfound : ∃ x ∈ l, x.2.sender = w.m1_i1) : Deletes h l cursor w log := by
  have hf : (l.find? fun x => x.2.sender = w.m1_i1).isSome := by
    rw [List.find?_isSome]
    obtain ⟨x, hx, hs⟩ := hfound
    exact ⟨x, hx, by simpa using hs⟩
  obtain ⟨x, hx⟩ := Option.isSome_iff_exists.mp hf
  rw [List.find?_eq_some_iff_append] at hx
  obtain ⟨hm, front, rest, rfl, hfront⟩ := hx
  have hm' : x.2.sender = w.m1_i1 := by simpa using hm
  have hfront' : ∀ y ∈ front, y.2.sender ≠ w.m1_i1 := by simpa using hfront
  cases front with
  | nil => exact deletes_first hc log hm'
  | cons first front =>
      cases rest with
      | nil => exact deletes_last hc log hfront'
      | cons y rest => exact deletes_behind hc log hm' hfront'

end Deletion

theorem deleteMessage_deadlockOne (w : Resumed) (mb : MailBox) (log : List Event) :
    (deleteMessage w mb log).deadlockOne = w.deadlockOne := by
  unfold deleteMessage
  split
  · split_ifs
    · rfl
    · split <;> rfl
  · rfl

/-- What a receive does to the chain of its mailbox, and to the suspended list. -/
theorem heapReceiveFrom_comesTo (hc : Chain h cursor.mbList l) (req : ReceiveRequest)
    (w : Resumed) :
    ∃ r l', ComesTo (fun fuel => heapReceiveFrom fuel req w cursor h) r ∧
      Realises h l r.block l' (receiveFrom req w (cursor.withMessages (messages l))).cursor
        (receiveFrom req w (cursor.withMessages (messages l))).value ∧
      r.deadlockOne = (receiveFrom req w (cursor.withMessages (messages l))).deadlockOne := by
  obtain ⟨found, hsearch, hiff⟩ := heapSearch_comesTo w.m1_i1 hc
  have hsame : Realises h l ⟨cursor, h, -1⟩ l (cursor.withMessages (messages l)) (-1) :=
    ⟨updates_refl hc, rfl, rfl⟩
  have hmessages : (cursor.withMessages (messages l)).mbList = messages l := rfl
  by_cases hstop : found = none ∨ w.m1_i1 = 0
  · obtain ⟨log, hlist⟩ : ∃ log, receiveFrom req w (cursor.withMessages (messages l)) =
        suspendCaller req w (cursor.withMessages (messages l)) log := by
      unfold receiveFrom
      rw [hmessages]
      cases hs : searchMessage w.m1_i1 (messages l) with
      | none => exact ⟨_, rfl⟩
      | some message =>
          rw [hiff, hs] at hstop
          rw [or_iff_right (Option.some_ne_none message)] at hstop
          simp only [if_pos hstop]
          exact ⟨_, rfl⟩
    rw [hlist]
    refine ⟨⟨⟨cursor, h, -1⟩, ⟨req.ownerID, w.m1_i1, req.m1_p1⟩ :: w.deadlockOne⟩, l,
      hsearch.bind ?_, hsame, rfl⟩
    simp only [if_pos hstop]
    exact comesTo_ok _
  have hgo := not_or.mp hstop
  obtain ⟨message, hs⟩ := Option.ne_none_iff_exists'.mp (mt hiff.mpr hgo.1)
  cases hok : req.copyOk with
  | false =>
      refine ⟨⟨⟨cursor, h, -1⟩, w.deadlockOne⟩, l, hsearch.bind ?_, ?_, ?_⟩
      · simp only [if_neg hstop, hok, Bool.false_eq_true, if_false]
        exact comesTo_ok _
      · simp only [receiveFrom, hmessages, hs, if_neg hgo.2, hok, Bool.false_eq_true, if_false]
        exact hsame
      · simp only [receiveFrom, hmessages, hs, if_neg hgo.2, hok, Bool.false_eq_true, if_false]
  | true =>
      obtain ⟨log, hlist⟩ : ∃ log, receiveFrom req w (cursor.withMessages (messages l)) =
          deleteMessage w (cursor.withMessages (messages l)) log := by
        simp only [receiveFrom, hmessages, hs, if_neg hgo.2, hok, if_true]
        exact ⟨_, rfl⟩
      have hmem : ∃ x ∈ l, x.2.sender = w.m1_i1 := by
        rw [searchMessage_eq] at hs
        obtain ⟨x, hx, rfl⟩ := List.mem_map.mp (List.mem_of_find?_eq_some hs)
        exact ⟨x, hx, by simpa using List.find?_some hs⟩
      obtain ⟨b, l', hdelete, hreal⟩ := heapDelete_comesTo hc w log hmem
      rw [hlist]
      refine ⟨⟨b, w.deadlockOne⟩, l', hsearch.bind ?_, hreal, ?_⟩
      · simp only [if_neg hstop, hok, if_true]
        exact hdelete.bind (comesTo_ok _)
      · rw [deleteMessage_deadlockOne]

end Receive

end MinixOS.MailboxLinking
