import MinixOS.MailboxLinking
import MinixOS.MailboxSending
import MinixOS.MailboxSenders

/-!
# The heap model refines the list model

In every reachable state of the heap model each mailbox points to a chain that ends
in NULL, and the chains of two mailboxes have no node in common. With the messages
of its chain in the place of the pointer, the state is a reachable state of the list
model: each call of the heap model that returns is the same call there.

What is known of the list model so holds of the heap. A send to one receiver is read
off at the end.
-/
namespace MinixOS.MailboxRefinement
open LoopExecution CheckedExecution SystemRuns KeyedLists LinkedHeap MailboxState MailboxCalls
  MailboxReceive MailboxSystem MailboxHeap MailboxLinking MailboxRegistry MailboxSending
  MailboxSenders

/-! ## Layouts -/

/-- The chain of each owner's mailbox. -/
abbrev Chains := ℤ → List (ℕ × MessageNode)

structure Layout (pm : HeapPM) (chains : Chains) : Prop where
  distinct : (pm.mailboxFront.map HeapMailBox.owner).Nodup
  chain : ∀ mb ∈ pm.mailboxFront, Chain pm.heap mb.mbList (chains mb.owner)
  apart : ∀ a ∈ pm.mailboxFront, ∀ b ∈ pm.mailboxFront, a.owner ≠ b.owner →
    ∀ x ∈ chains a.owner, x.1 ∉ (chains b.owner).map Prod.fst

def box (chains : Chains) (mb : HeapMailBox) : MailBox :=
  mb.withMessages (messages (chains mb.owner))

/-- The state of the list model that the heap stands for. -/
def view (chains : Chains) (pm : HeapPM) : PM :=
  { mailboxFront := pm.mailboxFront.map (box chains), deadlockOne := pm.deadlockOne }

section Views
variable {pm : HeapPM} {chains : Chains} {o : ℤ}

theorem lookup_view (o : ℤ) (front : List HeapMailBox) :
    lookup o (front.map (box chains)) = (heapLookup o front).map (box chains) :=
  find_map (fun _ => rfl) o front

theorem box_update_other {mb : HeapMailBox} (h : mb.owner ≠ o) (l : List (ℕ × MessageNode)) :
    box (Function.update chains o l) mb = box chains mb := by
  simp only [box, Function.update_of_ne h]

/-- The mailbox of `o` is replaced, and its chain. -/
theorem view_change (hl : Layout pm chains) {mb' : HeapMailBox} (ho : mb'.owner = o)
    (l : List (ℕ × MessageNode)) :
    (change HeapMailBox.owner o (fun _ => mb') pm.mailboxFront).map
        (box (Function.update chains o l)) =
      change MailBox.owner o (fun _ => mb'.withMessages (messages l))
        (pm.mailboxFront.map (box chains)) := by
  have hd : ((pm.mailboxFront.map (box chains)).map MailBox.owner).Nodup := by
    rw [List.map_map]
    exact hl.distinct
  rw [change_eq_map hl.distinct, change_eq_map hd, List.map_map, List.map_map]
  refine List.map_congr_left fun mb _ => ?_
  simp only [Function.comp_apply]
  by_cases hmb : mb.owner = o
  · have hbox : (box chains mb).owner = o := hmb
    rw [if_pos hmb, if_pos hbox]
    simp only [box, ho, Function.update_self]
  · have hbox : ¬ (box chains mb).owner = o := hmb
    rw [if_neg hmb, if_neg hbox, box_update_other hmb]

/-- The cells of another mailbox's chain are in use, and not on the chain of `o`. -/
theorem Layout.other_cells (hl : Layout pm chains) {mb b : HeapMailBox}
    (hm : heapLookup o pm.mailboxFront = some mb) (hb : b ∈ pm.mailboxFront) (hbo : b.owner ≠ o) :
    ∀ x ∈ chains b.owner, x.1 ∉ (chains o).map Prod.fst ∧ pm.heap x.1 ≠ none := by
  intro x hx
  have hmo : mb.owner = o := key_of_find hm
  have hap := hl.apart b hb mb (mem_of_find hm) (by rwa [hmo]) x hx
  rw [hmo] at hap
  exact ⟨hap, (hl.chain b hb).in_use hx⟩

/-- So a new chain of `o` does not meet them. -/
theorem Layout.new_cells (hl : Layout pm chains) {mb b : HeapMailBox} {h' : Heap MessageNode}
    {p' : Option ℕ} {l' : List (ℕ × MessageNode)}
    (hm : heapLookup o pm.mailboxFront = some mb) (hu : Updates pm.heap (chains o) h' p' l')
    (hb : b ∈ pm.mailboxFront) (hbo : b.owner ≠ o) :
    ∀ x ∈ chains b.owner, ∀ y ∈ l', x.1 ≠ y.1 := by
  intro x hx y hy he
  rcases hl.other_cells hm hb hbo x hx with ⟨hoff, hin⟩
  rw [he] at hoff hin
  rcases hu.within y hy with hold | hunused
  · exact hoff hold
  · exact hin hunused

/-- The mailbox of `o` and its chain are updated, and the other chains stay. -/
theorem Layout.change (hl : Layout pm chains) {mb mb' : HeapMailBox} {h' : Heap MessageNode}
    {l' : List (ℕ × MessageNode)} (deadlockOne : List ProcDeadlock)
    (hm : heapLookup o pm.mailboxFront = some mb) (ho : mb'.owner = o)
    (hu : Updates pm.heap (chains o) h' mb'.mbList l') :
    Layout
      { mailboxFront := KeyedLists.change HeapMailBox.owner o (fun _ => mb') pm.mailboxFront
        deadlockOne := deadlockOne, heap := h' }
      (Function.update chains o l') := by
  -- A mailbox of the new list is the new one, or one of another owner.
  have hcases : ∀ b ∈ KeyedLists.change HeapMailBox.owner o (fun _ => mb') pm.mailboxFront,
      (b ∈ pm.mailboxFront ∧ b.owner ≠ o) ∨ b = mb' := by
    intro b hb
    rcases mem_change_of_nodup hl.distinct hb with hb | ⟨_, _, hb⟩
    · exact .inl hb
    · exact .inr hb
  constructor
  · rw [change_keys fun _ _ => ho]
    exact hl.distinct
  · intro b hb
    rcases hcases b hb with ⟨hb, hbo⟩ | rfl
    · rw [Function.update_of_ne hbo]
      apply (hl.chain b hb).frame
      intro x hx
      rcases hl.other_cells hm hb hbo x hx with ⟨hoff, hin⟩
      exact hu.frame _ hoff hin
    · rw [ho, Function.update_self]
      exact hu.chain
  · intro a ha b hb hab x hx
    rcases hcases a ha with ⟨ha', hao⟩ | rfl
    · rw [Function.update_of_ne hao] at hx
      rcases hcases b hb with ⟨hb', hbo⟩ | rfl
      · rw [Function.update_of_ne hbo]
        exact hl.apart a ha' b hb' hab x hx
      · rw [ho, Function.update_self]
        intro hmem'
        obtain ⟨y, hy, hyx⟩ := List.mem_map.mp hmem'
        exact hl.new_cells hm hu ha' hao x hx y hy hyx.symm
    · rw [ho, Function.update_self] at hx
      rcases hcases b hb with ⟨hb', hbo⟩ | rfl
      · rw [Function.update_of_ne hbo]
        intro hmem'
        obtain ⟨y, hy, hyx⟩ := List.mem_map.mp hmem'
        exact hl.new_cells hm hu hb' hbo y hy x hx hyx
      · exact absurd rfl hab

end Views

/-! ## Each call is the call of the list model -/

/-- The outcome is one of the list model, with the state seen through some layout. -/
def Refines (call : Request) (chains : Chains) (pm : HeapPM) (out : HeapOutcome) : Prop :=
  ∃ chains' log, Layout out.pm chains' ∧
    Returns call (view chains pm) ⟨view chains' out.pm, log, out.ret⟩

section Calls
variable {pm : HeapPM} {chains : Chains} {o : ℤ}

theorem refines_of_eq {call : Request} {chains' : Chains} {out : HeapOutcome} {outcome : Outcome}
    (hl : Layout out.pm chains') (hr : Returns call (view chains pm) outcome)
    (hp : view chains' out.pm = outcome.pm) (hv : out.ret = outcome.ret) :
    Refines call chains pm out := by
  obtain ⟨after, log, ret⟩ := outcome
  subst hp hv
  exact ⟨chains', log, hl, hr⟩

theorem atMailbox_comesTo (hl : Layout pm chains)
    {body : ℕ → HeapMailBox → Heap MessageNode → Except Stop HeapBlock} {f : MailBox → MailBox}
    {v : MailBox → ℤ}
    (hb : ∀ mb, heapLookup o pm.mailboxFront = some mb →
      ∃ b l', ComesTo (fun fuel => body fuel mb pm.heap) b ∧ b.cursor.owner = mb.owner ∧
        Realises pm.heap (chains mb.owner) b l' (f (box chains mb)) (v (box chains mb))) :
    ∃ out chains', ComesTo (fun fuel => atMailbox o (body fuel) pm) out ∧ Layout out.pm chains' ∧
      view chains' out.pm =
        { view chains pm with
          mailboxFront := change MailBox.owner o f (view chains pm).mailboxFront } ∧
      out.ret = some (((lookup o (view chains pm).mailboxFront).map v).getD (-1)) := by
  have hlook : lookup o (view chains pm).mailboxFront =
      (heapLookup o pm.mailboxFront).map (box chains) := lookup_view o pm.mailboxFront
  unfold atMailbox
  cases hm : heapLookup o pm.mailboxFront with
  | none =>
      rw [hm, Option.map_none] at hlook
      refine ⟨⟨pm, some (-1)⟩, chains, comesTo_ok _, hl, ?_, ?_⟩
      · rw [change_of_find_none hlook]
      · rw [hlook]
        rfl
  | some mb =>
      rw [hm, Option.map_some] at hlook
      obtain ⟨b, l', hbody, ho, hreal⟩ := hb mb hm
      have hmo : mb.owner = o := key_of_find hm
      rw [hmo] at ho hreal
      refine ⟨_, Function.update chains o l', hbody.bind (comesTo_ok _), ?_, ?_, ?_⟩
      · exact hl.change pm.deadlockOne hm ho hreal.updates
      · rw [change_of_find hlook, ← hreal.cursor]
        exact congrArg (PM.mk · pm.deadlockOne) (view_change hl ho l')
      · rw [hlook, Option.map_some, Option.getD_some, ← hreal.value]

theorem box_owner (mb : HeapMailBox) : (box chains mb).owner = mb.owner := rfl

/-- The block looks at the sender list only, and changes nothing else. -/
def AboutSenders (body : MailBox → Block) : Prop :=
  ∃ (senders : List ℤ → List ℤ) (control : List ℤ → Control), ∀ mb,
    (body mb).cursor = { mb with mbSender := senders mb.mbSender } ∧
      (body mb).control = control mb.mbSender

theorem senderBlock_comesTo (hl : Layout pm chains) {body : MailBox → Block}
    (hbody : AboutSenders body) :
    ∃ out chains', ComesTo (fun _ => atMailbox o (senderBlock body) pm) out ∧
      Layout out.pm chains' ∧
      view chains' out.pm =
        { view chains pm with
          mailboxFront := change MailBox.owner o (fun mb => (body mb).cursor)
            (view chains pm).mailboxFront } ∧
      out.ret = some (((lookup o (view chains pm).mailboxFront).map fun mb =>
        (body mb).control.valueOrError).getD (-1)) := by
  refine atMailbox_comesTo hl fun mb hfound => ?_
  have hchain := hl.chain mb (mem_of_find hfound)
  obtain ⟨senders, control, hspec⟩ := hbody
  obtain ⟨hcursor, hcontrol⟩ := hspec (box chains mb)
  obtain ⟨hcursor', hcontrol'⟩ := hspec (mb.withMessages [])
  refine ⟨_, chains mb.owner, comesTo_ok _, rfl, updates_refl hchain, ?_, ?_⟩
  · rw [hcursor, hcursor']
    rfl
  · rw [hcontrol, hcontrol']
    rfl

theorem aboutSenders_addSenderTo (id : ℤ) : AboutSenders (addSenderTo id) := by
  refine ⟨fun l => if id ∈ l then l.dropWhile (· ≠ id) else l ++ [id],
    fun l => if id ∈ l then .ret (-1) else .ret 1, fun mb => ?_⟩
  by_cases h : id ∈ mb.mbSender
  · simp only [if_pos h]
    exact addSenderTo_known h
  · simp only [if_neg h]
    exact addSenderTo_new h

theorem aboutSenders_removeSenderFrom (id : ℤ) : AboutSenders (removeSenderFrom id) := by
  refine ⟨fun l => if id ∈ l then l.erase id else l,
    fun l => if id ∈ l then .ret 1 else .ret (-1), fun mb => ?_⟩
  by_cases h : id ∈ mb.mbSender
  · simp only [if_pos h]
    exact removeSenderFrom_known h
  · simp only [if_neg h]
    exact removeSenderFrom_unknown h

/-- What the block of a send comes to, and how the chain and the counter of the mailbox change
when the message is let in, and when it is not. -/
structure Sends (req : SendRequest) (node : ℕ) (mb : HeapMailBox) (h : Heap MessageNode)
    (l : List (ℕ × MessageNode)) (list : Block) (b : HeapBlock) (l' : List (ℕ × MessageNode)) :
    Prop where
  owner : b.cursor.owner = mb.owner
  realises : Realises h l b l' list.cursor list.control.valueOrError
  accepted : mb.numMes < bufferSize ∧ req.ownerID ∈ mb.mbSender →
    l' = l ++ [(node, req.tempML)] ∧ b.value = 1 ∧ b.cursor.numMes = mb.numMes + 1
  refused : ¬ (mb.numMes < bufferSize ∧ req.ownerID ∈ mb.mbSender) →
    b.heap = h ∧ b.value = -1 ∧ (b.cursor.numMes, b.cursor.mbList) = (mb.numMes, mb.mbList)

section Send
variable {req : SendRequest} {node : ℕ} {left : Cell MessageNode} {mb : HeapMailBox}
  {h : Heap MessageNode} {l : List (ℕ × MessageNode)} {suspended : List ProcDeadlock} {r : ℤ}

theorem sends_full (hc : Chain h mb.mbList l) (hfull : bufferSize ≤ mb.numMes) :
    ∃ b l', ComesTo (fun fuel => heapSendTo fuel req node left mb h) b ∧
      Sends req node mb h l (sendTo req suspended r (mb.withMessages (messages l))) b l' := by
  have hbox : bufferSize ≤ (mb.withMessages (messages l)).numMes := hfull
  obtain ⟨hcur, hcon⟩ := sendTo_full req suspended r hbox
  refine ⟨⟨mb, h, -1⟩, l, ?_, ?_⟩
  · simp only [heapSendTo, ge_iff_le, if_pos hfull]
    exact comesTo_ok _
  · constructor
    · rfl
    · rw [hcur, hcon]
      exact ⟨updates_refl hc, rfl, rfl⟩
    · exact fun hroom => absurd hfull (Nat.not_le.mpr hroom.1)
    · exact fun _ => ⟨rfl, rfl, rfl⟩

theorem sends_refused (hc : Chain h mb.mbList l) (hroom : mb.numMes < bufferSize)
    (hs : req.ownerID ∉ mb.mbSender) :
    ∃ b l', ComesTo (fun fuel => heapSendTo fuel req node left mb h) b ∧
      Sends req node mb h l (sendTo req suspended r (mb.withMessages (messages l))) b l' := by
  have hroom' : (mb.withMessages (messages l)).numMes < bufferSize := hroom
  have hs' : req.ownerID ∉ (mb.withMessages (messages l)).mbSender := hs
  have hempty : req.ownerID ∉ (mb.withMessages []).mbSender := hs
  obtain ⟨hcur, hcon⟩ := sendTo_refused req suspended r hroom' hs'
  obtain ⟨hperm, hret⟩ := checkPermissions_spec (mb.withMessages []) req.ownerID
  rw [if_neg hempty] at hret
  rw [dropWhile_ne_eq_nil.mpr hempty] at hperm
  refine ⟨⟨{ mb with mbSender := [] }, h, -1⟩, l, ?_, ?_⟩
  · simp only [heapSendTo, ge_iff_le, if_neg (Nat.not_le.mpr hroom), hret, if_true, hperm]
    exact comesTo_ok _
  · constructor
    · rfl
    · rw [hcur, hcon]
      exact ⟨updates_refl hc, rfl, rfl⟩
    · exact fun hok => absurd hok.2 hs
    · exact fun _ => ⟨rfl, rfl, rfl⟩

theorem sends_accepted (hc : Chain h mb.mbList l) (hn : h node = none)
    (hroom : mb.numMes < bufferSize) (hs : req.ownerID ∈ mb.mbSender) :
    ∃ b l', ComesTo (fun fuel => heapSendTo fuel req node left mb h) b ∧
      Sends req node mb h l (sendTo req suspended r (mb.withMessages (messages l))) b l' := by
  have hroom' : (mb.withMessages (messages l)).numMes < bufferSize := hroom
  have hs' : req.ownerID ∈ (mb.withMessages (messages l)).mbSender := hs
  have hsender : req.ownerID ∈ (mb.withMessages []).mbSender := hs
  have hne : ¬ ((1 : ℤ) = -1) := by decide
  obtain ⟨hcur, hcon⟩ := sendTo_accepted req suspended r hroom' hs'
  obtain ⟨hperm, hret⟩ := checkPermissions_spec (mb.withMessages []) req.ownerID
  rw [if_pos hsender] at hret
  have hmoved : Chain h
      { mb with mbSender := mb.mbSender.dropWhile (· ≠ req.ownerID) }.mbList l := hc
  obtain ⟨head, h', hlink, hchain, hframe⟩ := heapLinkMessage_comesTo req left hmoved hn
  refine ⟨⟨⟨mb.numMes + 1, mb.owner, mb.mbSender.dropWhile (· ≠ req.ownerID), head⟩, h', 1⟩,
    l ++ [(node, req.tempML)], ?_, ?_⟩
  · simp only [heapSendTo, ge_iff_le, if_neg (Nat.not_le.mpr hroom), hret, if_neg hne, hperm,
      if_pos hroom]
    exact hlink
  · constructor
    · rfl
    · rw [hcur, hcon]
      refine ⟨⟨hchain, ?_, ?_⟩, ?_, rfl⟩
      · intro x hx
        rcases List.mem_append.mp hx with hx | hx
        · exact .inl (List.mem_map_of_mem hx)
        · rw [List.mem_singleton.mp hx]
          exact .inr hn
      · intro a ha hin
        refine hframe a ?_ ha
        rintro rfl
        exact hin hn
      · simp only [HeapMailBox.withMessages, messages_append, messages_cons, messages_nil]
    · exact fun _ => ⟨rfl, rfl, rfl⟩
    · exact fun hno => absurd ⟨hroom, hs⟩ hno

end Send

/-- The chain of the receiver's mailbox is the old one, or the old one and the new node. -/
theorem heapSendTo_comesTo (hl : Layout pm chains) (req : SendRequest) {node : ℕ}
    (left : Cell MessageNode) (hn : pm.heap node = none) {mb : HeapMailBox}
    (hmem : mb ∈ pm.mailboxFront) (suspended : List ProcDeadlock) (r : ℤ) :
    ∃ b l', ComesTo (fun fuel => heapSendTo fuel req node left mb pm.heap) b ∧
      Sends req node mb pm.heap (chains mb.owner) (sendTo req suspended r (box chains mb)) b l' := by
  have hc := hl.chain mb hmem
  by_cases hfull : bufferSize ≤ mb.numMes
  · exact sends_full hc hfull
  have hroom := Nat.not_le.mp hfull
  by_cases hs : req.ownerID ∈ mb.mbSender
  · exact sends_accepted hc hn hroom hs
  · exact sends_refused hc hroom hs

/-! ### The six calls -/

/-- A mailbox of a new owner, with no chain. -/
theorem Layout.create (hl : Layout pm chains) (hm : heapLookup o pm.mailboxFront = none) :
    Layout { pm with mailboxFront := pm.mailboxFront ++ [HeapMailBox.fresh o] }
      (Function.update chains o []) := by
  rw [find_eq_none] at hm
  have hcases : ∀ b ∈ pm.mailboxFront ++ [HeapMailBox.fresh o],
      (b ∈ pm.mailboxFront ∧ b.owner ≠ o) ∨ b = HeapMailBox.fresh o := by
    intro b hb
    rcases List.mem_append.mp hb with hb | hb
    · exact .inl ⟨hb, hm b hb⟩
    · exact .inr (List.mem_singleton.mp hb)
  have hnone : Function.update chains o [] (HeapMailBox.fresh o).owner = [] :=
    Function.update_self _ _ _
  constructor
  · rw [List.map_append, List.map_singleton, List.nodup_append]
    refine ⟨hl.distinct, List.nodup_singleton _, ?_⟩
    rintro x hx _ hy rfl
    obtain ⟨mb, hmb, rfl⟩ := List.mem_map.mp hx
    exact hm mb hmb (List.mem_singleton.mp hy)
  · intro b hb
    rcases hcases b hb with ⟨hb', hbo⟩ | rfl
    · rw [Function.update_of_ne hbo]
      exact hl.chain b hb'
    · rw [hnone]
      exact .nil none
  · intro a ha b hb hab x hx
    rcases hcases a ha with ⟨ha', hao⟩ | rfl
    · rw [Function.update_of_ne hao] at hx
      rcases hcases b hb with ⟨hb', hbo⟩ | rfl
      · rw [Function.update_of_ne hbo]
        exact hl.apart a ha' b hb' hab x hx
      · rw [hnone]
        exact List.not_mem_nil
    · rw [hnone] at hx
      exact absurd hx List.not_mem_nil

theorem createMailbox_refines (hl : Layout pm chains) (o : ℤ) :
    ∃ out, ComesTo (fun _ => heapCreateMailbox o pm) out ∧
      Refines (.createMailbox o) chains pm out := by
  have hlook : lookup o (view chains pm).mailboxFront =
      (heapLookup o pm.mailboxFront).map (box chains) := lookup_view o pm.mailboxFront
  unfold heapCreateMailbox
  cases hm : heapLookup o pm.mailboxFront with
  | some mb =>
      rw [hm, Option.map_some] at hlook
      have hex : lookup o (view chains pm).mailboxFront ≠ none := by
        rw [hlook]
        exact Option.some_ne_none _
      obtain ⟨hp, hv⟩ := doCreateMailbox_exists hex
      exact ⟨⟨pm, some (-1)⟩, comesTo_ok _, refines_of_eq hl ⟨0, rfl⟩ hp.symm hv.symm⟩
  | none =>
      rw [hm, Option.map_none] at hlook
      obtain ⟨hp, hv⟩ := doCreateMailbox_new hlook
      refine ⟨_, comesTo_ok _, refines_of_eq (hl.create hm) ⟨0, rfl⟩ ?_ hv.symm⟩
      rw [find_eq_none] at hm
      rw [hp, view, view, List.map_append]
      have hold : pm.mailboxFront.map (box (Function.update chains o [])) =
          pm.mailboxFront.map (box chains) :=
        List.map_congr_left fun mb hmb => box_update_other (hm mb hmb) []
      have hnew : [HeapMailBox.fresh o].map (box (Function.update chains o [])) =
          [MailBox.fresh o] := by
        simp [box, HeapMailBox.fresh, HeapMailBox.withMessages, MailBox.fresh]
      rw [hold, hnew]

/-- The first node of the removed mailbox is freed, which the other chains do not use. -/
theorem Layout.remove (hl : Layout pm chains) {mb : HeapMailBox} {h' : Heap MessageNode}
    (hm : heapLookup o pm.mailboxFront = some mb)
    (hh : ∀ a, a ∉ (chains mb.owner).map Prod.fst → h' a = pm.heap a) :
    Layout
      { pm with
        mailboxFront := KeyedLists.remove HeapMailBox.owner o pm.mailboxFront
        heap := h' } chains := by
  have hmem := mem_of_find hm
  have hmo : mb.owner = o := key_of_find hm
  have hkept : ∀ b ∈ KeyedLists.remove HeapMailBox.owner o pm.mailboxFront,
      b ∈ pm.mailboxFront ∧ b.owner ≠ o := by
    intro b hb
    rw [remove_eq_filter hl.distinct, List.mem_filter] at hb
    exact ⟨hb.1, by simpa using hb.2⟩
  constructor
  · exact hl.distinct.sublist ((remove_sublist _).map _)
  · intro b hb
    obtain ⟨hb', hbo⟩ := hkept b hb
    refine (hl.chain b hb').frame fun x hx => hh _ ?_
    exact hl.apart b hb' mb hmem (by rwa [hmo]) x hx
  · intro a ha b hb
    exact hl.apart a (hkept a ha).1 b (hkept b hb).1

theorem removeMailbox_refines (hl : Layout pm chains) (o : ℤ) :
    ∃ out, ComesTo (fun _ => heapRemoveMailbox o pm) out ∧
      Refines (.removeMailbox o) chains pm out := by
  have hlook : lookup o (view chains pm).mailboxFront =
      (heapLookup o pm.mailboxFront).map (box chains) := lookup_view o pm.mailboxFront
  obtain ⟨hp, hv⟩ := doRemoveMailbox_spec o (view chains pm)
  rw [hlook] at hv
  unfold heapRemoveMailbox
  cases hm : heapLookup o pm.mailboxFront with
  | none =>
      rw [hm, Option.map_none] at hlook
      rw [hm, Option.map_none, if_pos rfl] at hv
      rw [remove_of_find_none hlook] at hp
      exact ⟨⟨pm, some (-1)⟩, comesTo_ok _, refines_of_eq hl ⟨0, rfl⟩ hp.symm hv.symm⟩
  | some mb =>
      rw [hm, Option.map_some, if_neg (Option.some_ne_none _)] at hv
      obtain ⟨h', hfree, hh⟩ := free_chain (hl.chain mb (mem_of_find hm))
      simp only [hfree, ok_bind]
      refine ⟨_, comesTo_ok _, refines_of_eq (hl.remove hm hh) ⟨0, rfl⟩ ?_ hv.symm⟩
      rw [hp]
      exact congrArg (PM.mk · pm.deadlockOne) (map_remove box_owner pm.mailboxFront)

theorem addSender_refines (hl : Layout pm chains) (o id : ℤ) :
    ∃ out, ComesTo (fun _ => atMailbox o (senderBlock (addSenderTo id)) pm) out ∧
      Refines (.addSender o id) chains pm out := by
  obtain ⟨out, chains', hout, hl', hp, hv⟩ :=
    senderBlock_comesTo (o := o) hl (aboutSenders_addSenderTo id)
  rw [← doAddSender_ret] at hv
  rw [← doAddSender_pm] at hp
  exact ⟨out, hout, refines_of_eq hl' ⟨0, rfl⟩ hp hv⟩

theorem removeSender_refines (hl : Layout pm chains) (o id : ℤ) :
    ∃ out, ComesTo (fun _ => atMailbox o (senderBlock (removeSenderFrom id)) pm) out ∧
      Refines (.removeSender o id) chains pm out := by
  obtain ⟨out, chains', hout, hl', hp, hv⟩ :=
    senderBlock_comesTo (o := o) hl (aboutSenders_removeSenderFrom id)
  rw [← doRemoveSender_ret] at hv
  rw [← doRemoveSender_pm] at hp
  exact ⟨out, hout, refines_of_eq hl' ⟨0, rfl⟩ hp hv⟩

theorem msend_refines (hl : Layout pm chains) (req : SendRequest) {node : ℕ}
    (left : Cell MessageNode) (hn : pm.heap node = none) :
    ∃ out, ComesTo (fun fuel => heapMsend fuel req node left pm) out ∧
      Refines (.msend req) chains pm out := by
  unfold heapMsend
  cases hf : pm.mailboxFront with
  | nil =>
      have hview : (view chains pm).mailboxFront = [] := by rw [view, hf, List.map_nil]
      refine ⟨⟨pm, some (-1)⟩, comesTo_ok _, refines_of_eq hl ⟨0, rfl⟩ ?_ ?_⟩
      · simp only [doMsend, hview]
      · simp only [doMsend, hview]
  | cons first rest =>
      cases hr : req.receivers with
      | nil =>
          have hview : (view chains pm).mailboxFront =
              box chains first :: rest.map (box chains) := by
            rw [view, hf, List.map_cons]
          refine ⟨⟨pm, none⟩, comesTo_ok _, refines_of_eq hl ⟨0, rfl⟩ ?_ ?_⟩
          · exact (doMsend_nobody hr _).1.symm
          · simp only [doMsend, hview, hr, forReceivers]
      | cons r more =>
          obtain ⟨out, chains', hout, hl', hp, hv⟩ := atMailbox_comesTo (o := r) hl
            (f := fun mb => (sendTo req pm.deadlockOne r mb).cursor)
            (v := fun mb => (sendTo req pm.deadlockOne r mb).control.valueOrError) fun mb hm => by
              obtain ⟨b, l', hb, hsends⟩ :=
                heapSendTo_comesTo hl req left hn (mem_of_find hm) pm.deadlockOne r
              exact ⟨b, l', hb, hsends.owner, hsends.realises⟩
          obtain ⟨hp', hv'⟩ := doMsend_to hr (view chains pm)
          exact ⟨out, hout, refines_of_eq hl' ⟨0, rfl⟩ (hp.trans hp'.symm) (hv.trans hv'.symm)⟩

theorem mreceive_refines (hl : Layout pm chains) (req : ReceiveRequest)
    (hfirst : ∀ mb ∈ pm.mailboxFront.head?, mb.owner = req.ownerID) :
    ∃ out, ComesTo (fun fuel => heapMreceive fuel req pm) out ∧
      Refines (.mreceive req) chains pm out := by
  unfold heapMreceive
  cases hf : pm.mailboxFront with
  | nil =>
      have hview : (view chains pm).mailboxFront = [] := by rw [view, hf, List.map_nil]
      exact ⟨⟨pm, some (-1)⟩, comesTo_ok _,
        refines_of_eq hl ⟨0, doMreceive_empty hview 0⟩ rfl rfl⟩
  | cons mb rest =>
      have ho : mb.owner = req.ownerID := hfirst mb (by rw [hf]; rfl)
      have hview : (view chains pm).mailboxFront = box chains mb :: rest.map (box chains) := by
        rw [view, hf, List.map_cons]
      have hmem : mb ∈ pm.mailboxFront := by
        rw [hf]
        exact List.mem_cons_self
      have hm : heapLookup mb.owner pm.mailboxFront = some mb := by
        rw [hf, heapLookup, find_cons, if_pos rfl]
      obtain ⟨r, l', hr, hreal, hdead⟩ :=
        heapReceiveFrom_comesTo (hl.chain mb hmem) req (takeRecord req pm.deadlockOne)
      have hbox : mb.withMessages (messages (chains mb.owner)) = box chains mb := rfl
      rw [hbox] at hreal hdead
      have hreceipt := (receiveFrom_receipt req (takeRecord req pm.deadlockOne) (box chains mb)).1
      have hro : r.block.cursor.owner = mb.owner := by
        have hcursor := congrArg MailBox.owner hreal.cursor
        rw [hreceipt] at hcursor
        exact hcursor
      have hl' := hl.change r.deadlockOne hm hro hreal.updates
      have hview' := view_change hl hro l'
      have hchange : ∀ (a b : HeapMailBox), a.owner = mb.owner →
          change HeapMailBox.owner mb.owner (fun _ => b) (a :: rest) = b :: rest := by
        intro a b ha
        simp only [change, if_pos ha]
      rw [hf, hchange mb _ rfl] at hl' hview'
      simp only [List.map_cons, change, if_pos (box_owner mb), hreal.cursor] at hview'
      have hfound := doMreceive_found hview ho 0
      simp only [if_pos ho]
      refine ⟨_, hr.bind (comesTo_ok _), refines_of_eq hl' ⟨1, hfound⟩ ?_ ?_⟩
      · rw [view, hdead]
        exact congrArg (PM.mk · _) hview'
      · rw [hreal.value]
        rfl

/-- A call that returns is the call of the list model. -/
theorem heap_call_refines (hl : Layout pm chains) {c : HeapRequest} (hn : pm.heap c.node = none)
    {out : HeapOutcome} (h : HeapReturns c pm out) : Refines c.call chains pm out := by
  obtain ⟨call, node, left⟩ := c
  have hsame : ∀ {f : ℕ → Except Stop HeapOutcome} {request : Request}, ComesTo f out →
      (∃ out', ComesTo f out' ∧ Refines request chains pm out') →
      Refines request chains pm out := by
    rintro f request hout ⟨out', hout', href⟩
    rwa [hout.unique hout']
  cases call with
  | createMailbox o => exact hsame h (createMailbox_refines hl o)
  | removeMailbox o => exact hsame h (removeMailbox_refines hl o)
  | addSender o id => exact hsame h (addSender_refines hl o id)
  | removeSender o id => exact hsame h (removeSender_refines hl o id)
  | msend req => exact hsame h (msend_refines hl req left hn)
  | mreceive req =>
      by_cases hfirst : ∀ mb ∈ pm.mailboxFront.head?, mb.owner = req.ownerID
      · exact hsame h (mreceive_refines hl req hfirst)
      · exfalso
        obtain ⟨enough, hall⟩ := h
        have hok := hall enough le_rfl
        simp only [heapExecute, heapMreceive] at hok
        cases hf : pm.mailboxFront with
        | nil => exact hfirst (by simp [hf])
        | cons mb rest =>
            have ho : mb.owner ≠ req.ownerID := fun ho => hfirst (by simpa [hf] using ho)
            rw [hf] at hok
            simp only [if_neg ho, reduceCtorEq] at hok

end Calls

/-- Every reachable state of the heap model has a layout, and stands for a reachable state of
the list model. -/
theorem reachable_refines {pm : HeapPM} (h : Reachable heapSystem pm) :
    ∃ chains, Layout pm chains ∧ Reachable system (view chains pm) := by
  refine h.invariant (I := fun pm => ∃ chains, Layout pm chains ∧ Reachable system (view chains pm))
    ?_ ?_
  · refine ⟨fun _ => [], ⟨List.nodup_nil, ?_, ?_⟩, ⟨[], .init⟩⟩
    · exact fun mb hm => absurd hm List.not_mem_nil
    · exact fun a ha => absurd ha List.not_mem_nil
  · rintro pm c ret pm' ⟨chains, hl, history, hr⟩ ⟨hn, hc⟩
    obtain ⟨chains', log, hl', hret⟩ := heap_call_refines hl hn hc
    have hstep : system.returns (view chains pm) c.call ⟨log, ret⟩ (view chains' pm') := hret
    exact ⟨chains', hl', (hr.call hstep).reachable⟩

/-! ## A send to one receiver -/

/-- The mailbox of `r` leaves room and allows the sender. -/
def Accepting (r : ℤ) (req : SendRequest) (pm : HeapPM) : Prop :=
  ∃ mb, heapLookup r pm.mailboxFront = some mb ∧ mb.numMes < bufferSize ∧
    req.ownerID ∈ mb.mbSender

/-- The message is let in exactly when the mailbox of `r` leaves room and allows the sender.
Then one node, which holds it, is hung behind the chain of `r`. -/
structure SingleSend (r : ℤ) (req : SendRequest) (node : ℕ) (pm : HeapPM) (out : HeapOutcome) :
    Prop where
  value : out.ret = some 1 ∨ out.ret = some (-1)
  accepted_iff : out.ret = some 1 ↔ Accepting r req pm
  appended : out.ret = some 1 → ∃ mb mb' l message, heapLookup r pm.mailboxFront = some mb ∧
    heapLookup r out.pm.mailboxFront = some mb' ∧ Chain pm.heap mb.mbList l ∧
    Chain out.pm.heap mb'.mbList (l ++ [(node, message)]) ∧ req.Holds message ∧
    ((l ++ [(node, message)]).map Prod.fst).Nodup ∧ mb'.numMes = mb.numMes + 1
  refused : out.ret = some (-1) → out.pm.heap = pm.heap ∧
    ∀ p, (heapLookup p out.pm.mailboxFront).map (fun mb => (mb.numMes, mb.mbList)) =
      (heapLookup p pm.mailboxFront).map fun mb => (mb.numMes, mb.mbList)
  others : ∀ p, p ≠ r → heapLookup p out.pm.mailboxFront = heapLookup p pm.mailboxFront ∧
    ∀ mb, heapLookup p pm.mailboxFront = some mb →
      ∃ l, Chain pm.heap mb.mbList l ∧ Chain out.pm.heap mb.mbList l

section Single
variable {pm : HeapPM} {chains : Chains} {r : ℤ}

theorem single_send_absent (hl : Layout pm chains) (hm : heapLookup r pm.mailboxFront = none)
    (req : SendRequest) (node : ℕ) : SingleSend r req node pm ⟨pm, some (-1)⟩ where
  value := .inr rfl
  accepted_iff := by
    unfold Accepting
    rw [hm]
    exact iff_of_false (by simp) (by simp)
  appended := fun h => absurd h (by simp)
  refused := fun _ => ⟨rfl, fun _ => rfl⟩
  others := fun p _ => ⟨rfl, fun mb hp =>
    ⟨chains mb.owner, hl.chain mb (mem_of_find hp), hl.chain mb (mem_of_find hp)⟩⟩

/-- Looking up a mailbox when that of `r` was replaced. -/
theorem lookup_replaced {front : List HeapMailBox} {mb mb' : HeapMailBox}
    (hm : heapLookup r front = some mb) (ho : mb'.owner = r) (p : ℤ) :
    heapLookup p (change HeapMailBox.owner r (fun _ => mb') front) =
      if p = r then some mb' else heapLookup p front := by
  have hfound : find HeapMailBox.owner r front = some mb := hm
  rw [heapLookup, find_change fun _ _ => ho, hfound, Option.map_some]

/-- The mailboxes of other owners keep their pointers and their chains. -/
theorem others_kept (hl : Layout pm chains) {mb : HeapMailBox} {b : HeapBlock}
    {l' : List (ℕ × MessageNode)} (hm : heapLookup r pm.mailboxFront = some mb)
    (ho : b.cursor.owner = r) (hu : Updates pm.heap (chains r) b.heap b.cursor.mbList l')
    {p : ℤ} (hp : p ≠ r) :
    heapLookup p (change HeapMailBox.owner r (fun _ => b.cursor) pm.mailboxFront) =
        heapLookup p pm.mailboxFront ∧
      ∀ other, heapLookup p pm.mailboxFront = some other →
        ∃ l, Chain pm.heap other.mbList l ∧ Chain b.heap other.mbList l := by
  have hsame := lookup_replaced hm ho p
  rw [if_neg hp] at hsame
  refine ⟨hsame, fun other hfound =>
    ⟨chains other.owner, hl.chain other (mem_of_find hfound), ?_⟩⟩
  have hl' := hl.change pm.deadlockOne hm ho hu
  have hkept := hl'.chain other (mem_of_find (hsame.trans hfound))
  rwa [Function.update_of_ne ((key_of_find hfound).symm ▸ hp)] at hkept

theorem single_send_found (hl : Layout pm chains) {mb : HeapMailBox}
    (hm : heapLookup r pm.mailboxFront = some mb) (req : SendRequest) {node : ℕ}
    (left : Cell MessageNode) (hn : pm.heap node = none) :
    ∃ out, ComesTo (fun fuel => atMailbox r (heapSendTo fuel req node left) pm) out ∧
      (SingleSend r req node pm out ↔ (Accepting r req pm → req.Readable)) := by
  have hmem := mem_of_find hm
  have hmo : mb.owner = r := key_of_find hm
  obtain ⟨b, l', hb, hsends⟩ := heapSendTo_comesTo hl req left hn hmem [] r
  have hbo : b.cursor.owner = r := hsends.owner.trans hmo
  rw [hmo] at hsends
  have hu := hsends.realises.updates
  refine ⟨⟨⟨change HeapMailBox.owner r (fun _ => b.cursor) pm.mailboxFront, pm.deadlockOne,
    b.heap⟩, some b.value⟩, ?_, ?_⟩
  · unfold atMailbox
    simp only [hm]
    exact hb.bind (comesTo_ok _)
  by_cases hok : mb.numMes < bufferSize ∧ req.ownerID ∈ mb.mbSender
  · -- The new node holds what the copy left in it.
    obtain ⟨rfl, hv, hcount⟩ := hsends.accepted hok
    have haccepting : Accepting r req pm := ⟨mb, hm, hok⟩
    have hnew := (lookup_replaced hm hbo r).trans (if_pos rfl)
    rw [← SendRequest.holds_tempML]
    constructor
    · intro h _
      obtain ⟨old, mb', l, message, hold, hmb', hchain, hchain', hholds, _, _⟩ :=
        h.appended (congrArg some hv)
      rw [hm, Option.some.injEq] at hold
      rw [hnew, Option.some.injEq] at hmb'
      subst hold hmb'
      obtain rfl := chain_unique hchain (hmo ▸ hl.chain mb hmem)
      have heq := List.append_cancel_left (chain_unique hchain' hu.chain)
      rw [List.cons.injEq, Prod.mk.injEq] at heq
      exact heq.1.2 ▸ hholds
    · intro hholds
      constructor
      · exact .inl (congrArg some hv)
      · exact iff_of_true (congrArg some hv) haccepting
      · intro _
        exact ⟨mb, b.cursor, chains r, req.tempML, hm, hnew, hmo ▸ hl.chain mb hmem, hu.chain,
          hholds haccepting, chain_nodup hu.chain, hcount⟩
      · intro h
        rw [hv] at h
        simp at h
      · exact fun p hp => others_kept hl hm hbo hu hp
  · obtain ⟨hheap, hv, hfields⟩ := hsends.refused hok
    have hne : some b.value ≠ some 1 := by
      rw [hv]
      decide
    have hrefusing : ¬ Accepting r req pm := by
      rintro ⟨mb', hm', hok'⟩
      rw [hm, Option.some.injEq] at hm'
      exact hok (hm' ▸ hok')
    refine iff_of_true ?_ fun h => absurd h hrefusing
    constructor
    · exact .inr (congrArg some hv)
    · exact iff_of_false hne hrefusing
    · exact fun h => absurd h hne
    · refine fun _ => ⟨hheap, fun p => ?_⟩
      simp only [lookup_replaced hm hbo p]
      split_ifs with hp
      · rw [hp, hm, Option.map_some, Option.map_some, hfields]
      · rfl
    · exact fun p hp => others_kept hl hm hbo hu hp

end Single

/-- In every reachable state of the heap model, a send to one receiver returns, whatever address
in no use `malloc` answers with and whatever is left there. It does what `SingleSend` says
exactly when a text that is let in can be copied. -/
theorem single_send_iff {pm : HeapPM} (h : Reachable heapSystem pm) {req : SendRequest} {r : ℤ}
    (hr : req.receivers = [r]) {node : ℕ} (hn : pm.heap node = none) (left : Cell MessageNode) :
    ∃ out, HeapReturns ⟨.msend req, node, left⟩ pm out ∧
      (SingleSend r req node pm out ↔ (Accepting r req pm → req.Readable)) := by
  obtain ⟨chains, hl, _⟩ := reachable_refines h
  have hunfold : ∀ fuel, heapExecute fuel ⟨.msend req, node, left⟩ pm =
      if pm.mailboxFront = [] then .ok ⟨pm, some (-1)⟩
      else atMailbox r (heapSendTo fuel req node left) pm := by
    intro fuel
    simp only [heapExecute, heapMsend, hr]
    cases pm.mailboxFront <;> rfl
  unfold HeapReturns
  simp only [hunfold]
  cases hm : heapLookup r pm.mailboxFront with
  | none =>
      have hrefusing : ¬ Accepting r req pm := by
        rintro ⟨mb, hmb, _⟩
        rw [hm] at hmb
        exact absurd hmb (by simp)
      refine ⟨⟨pm, some (-1)⟩, ?_,
        iff_of_true (single_send_absent hl hm req node) fun h => absurd h hrefusing⟩
      have habsent : ∀ fuel, atMailbox r (heapSendTo fuel req node left) pm =
          .ok ⟨pm, some (-1)⟩ := by
        intro fuel
        simp only [atMailbox, hm]
      simp only [habsent, ite_self]
      exact comesTo_ok _
  | some mb =>
      have hne : pm.mailboxFront ≠ [] := List.ne_nil_of_mem (mem_of_find hm)
      simp only [if_neg hne]
      exact single_send_found hl hm req left hn

/-- The mailbox of 7 allows 3 and 4. -/
theorem seven_open_reachable : Reachable heapSystem
    ⟨[{ HeapMailBox.fresh 7 with mbSender := [3, 4] }], [], fun _ => none⟩ := by
  have hcreate : heapSystem.returns HeapPM.initial
      ⟨.createMailbox 7, 0, ⟨⟨⟨0, 0, 0, [], 0⟩, 0⟩, none⟩⟩ (some 1)
      ⟨[HeapMailBox.fresh 7], [], fun _ => none⟩ := ⟨rfl, 0, fun _ _ => rfl⟩
  have hadd : heapSystem.returns ⟨[HeapMailBox.fresh 7], [], fun _ => none⟩
      ⟨.addSender 7 3, 0, ⟨⟨⟨0, 0, 0, [], 0⟩, 0⟩, none⟩⟩ (some 1)
      ⟨[{ HeapMailBox.fresh 7 with mbSender := [3] }], [], fun _ => none⟩ :=
    ⟨rfl, 0, fun _ _ => rfl⟩
  have hadd' : heapSystem.returns
      ⟨[{ HeapMailBox.fresh 7 with mbSender := [3] }], [], fun _ => none⟩
      ⟨.addSender 7 4, 0, ⟨⟨⟨0, 0, 0, [], 0⟩, 0⟩, none⟩⟩ (some 1)
      ⟨[{ HeapMailBox.fresh 7 with mbSender := [3, 4] }], [], fun _ => none⟩ :=
    ⟨rfl, 0, fun _ _ => rfl⟩
  exact (((Run.init.call hcreate).call hadd).call hadd').reachable

theorem single_send_iff_seven :
    ∃ pm, Reachable heapSystem pm ∧ ∃ out,
      HeapReturns ⟨.msend (testMsend 3 [104, 105] [7]), 12, ⟨⟨⟨0, 0, 0, [], 0⟩, 0⟩, some 9⟩⟩ pm out ∧
        SingleSend 7 (testMsend 3 [104, 105] [7]) 12 pm out ∧ out.ret = some 1 := by
  have hto : (testMsend 3 [104, 105] [7]).receivers = [7] := rfl
  obtain ⟨out, hout, hsend⟩ := single_send_iff seven_open_reachable hto rfl
    ⟨⟨⟨0, 0, 0, [], 0⟩, 0⟩, some 9⟩
  have hdoes := hsend.mpr fun _ => by decide
  exact ⟨_, seven_open_reachable, out, hout, hdoes,
    hdoes.accepted_iff.mpr ⟨_, rfl, by decide, by decide⟩⟩

/-- The text of the process 3 is at an address of which nothing can be read. -/
theorem single_send_fails :
    ¬ ∀ pm req r node left, Reachable heapSystem pm → req.receivers = [r] → pm.heap node = none →
      ∃ out, HeapReturns ⟨.msend req, node, left⟩ pm out ∧ SingleSend r req node pm out := by
  intro h
  let req : SendRequest := { testMsend 3 [104, 105] [7] with memory := [] }
  obtain ⟨out, hout, hsend⟩ := h _ req 7 12 ⟨⟨⟨0, 0, 0, [], 0⟩, 0⟩, none⟩ seven_open_reachable
    rfl rfl
  have haccepting : Accepting 7 req
      ⟨[{ HeapMailBox.fresh 7 with mbSender := [3, 4] }], [], fun _ => none⟩ :=
    ⟨_, rfl, by decide, by decide⟩
  obtain ⟨_, _, _, message, _, _, _, _, hholds, _, _⟩ :=
    hsend.appended (hsend.accepted_iff.mpr haccepting)
  have hle := hholds.text.length_le
  have hlength := hholds.length
  have hmin : min req.m_in.m1_i1 messageSize = 2 := by decide
  have hnone : req.memory.length = 0 := rfl
  omega

end MinixOS.MailboxRefinement
