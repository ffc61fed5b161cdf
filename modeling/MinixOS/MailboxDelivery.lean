import MinixOS.MailboxRegistry

/-!
# Receiving: when it ends, and what it delivers

A receive ends exactly when there are no mailboxes or the first one is the caller's,
since the loop over mailboxes never moves its cursor.

For delivery the history keeps two sequences for an owner and a sender, both started
again when the mailbox is created: the messages accepted and the messages copied out.
What is accepted and not yet copied out should be what is pending. A receive whose
message is the first of the list keeps this. One whose message stands further back
does not: the search and the deletion stop at different nodes, and the message that
was copied out stays in the list.
-/
namespace MinixOS.MailboxDelivery
open SystemRuns KeyedLists MailboxState MailboxCalls MailboxReceive MailboxSystem MailboxRegistry

/-! ## When a receive ends -/

/-- In every state, a receive returns 1 or -1 exactly when no mailbox of another owner
is the first of the list. Otherwise it does not return. -/
theorem receive_ends_iff (pm : PM) (req : ReceiveRequest) :
    (∃ out, Returns (.mreceive req) pm out ∧ (out.ret = some 1 ∨ out.ret = some (-1))) ↔
      ∀ mb ∈ pm.mailboxFront.head?, mb.owner = req.ownerID := by
  cases hf : pm.mailboxFront with
  | nil =>
      refine iff_of_true ⟨_, ⟨0, doMreceive_empty hf 0⟩, .inr rfl⟩ ?_
      simp
  | cons mb rest =>
      by_cases ho : mb.owner = req.ownerID
      · refine iff_of_true ⟨_, ⟨1, doMreceive_found hf ho 0⟩, ?_⟩ (by simp [ho])
        have hv := (receiveFrom_receipt req (takeRecord req pm.deadlockOne) mb).2.value
        simpa only [Option.some.injEq] using hv
      · refine iff_of_false ?_ (by simp [ho])
        rintro ⟨out, ⟨fuel, h⟩, _⟩
        exact absurd ((doMreceive_stuck hf ho fuel).symm.trans h) (Option.some_ne_none out).symm

/-- The second of two owners never gets an answer. -/
theorem receive_hangs :
    ¬ ∀ pm, Reachable system pm → ∀ req,
      ∃ out, Returns (.mreceive req) pm out ∧ (out.ret = some 1 ∨ out.ret = some (-1)) := by
  intro h
  have hr := (replay_run 0 [.createMailbox 1, .createMailbox 2] .init rfl).reachable
  obtain ⟨out, ⟨fuel, hout⟩, _⟩ := h _ hr (testMreceive 2 5 0)
  have hstuck : doMreceive fuel (testMreceive 2 5 0) ⟨[MailBox.fresh 1, MailBox.fresh 2], []⟩ =
      none := doMreceive_stuck rfl (by decide) fuel
  exact absurd (hstuck.symm.trans hout) (Option.some_ne_none out).symm

/-! ## What the history accepts and delivers -/

/-- The messages of `s` by which the list of `o` grew in a send that returned 1. -/
def accepted (o s : ℤ) (e : Call) : List MessageNode :=
  match e.call with
  | .msend _ =>
      if e.answer.ret = some 1 then
        ((e.after.messagesOf o).drop (e.before.messagesOf o).length).filter (·.sender = s)
      else []
  | _ => []

/-- The messages of `s` that a receive of `o` copied out, whatever it returned. -/
def delivered (o s : ℤ) (e : Call) : List MessageNode :=
  match e.call with
  | .mreceive req =>
      if req.ownerID = o then (copiedOut e.answer.log).filter (·.sender = s) else []
  | _ => []

/-- The messages of the steps since the mailbox of `o` was last created, in order. -/
def sinceCreation (o : ℤ) (messages : Call → List MessageNode) : List Call → List MessageNode
  | [] => []
  | e :: history =>
      if Creates o e then [] else sinceCreation o messages history ++ messages e

theorem sinceCreation_cons {o : ℤ} {messages : Call → List MessageNode} {e : Call}
    (h : ¬ Creates o e) (history : List Call) :
    sinceCreation o messages (e :: history) = sinceCreation o messages history ++ messages e :=
  if_neg h

theorem sinceCreation_created {o : ℤ} {messages : Call → List MessageNode} {e : Call}
    (h : Creates o e) (history : List Call) : sinceCreation o messages (e :: history) = [] :=
  if_pos h

/-- The message a receive copies out is not the first of the list. -/
def ReceivesBehind (pm : PM) (req : ReceiveRequest) : Prop :=
  ∃ mb ∈ pm.mailboxFront.head?, mb.owner = req.ownerID ∧ awaitedSource pm req ≠ 0 ∧
    req.copyOk = true ∧ (∀ node ∈ mb.mbList.head?, node.sender ≠ awaitedSource pm req) ∧
    ∃ node ∈ mb.mbList, node.sender = awaitedSource pm req

instance (pm : PM) (req : ReceiveRequest) : Decidable (ReceivesBehind pm req) :=
  inferInstanceAs (Decidable (∃ mb ∈ pm.mailboxFront.head?, _ ∧ _ ∧ _ ∧ _ ∧ ∃ node ∈ _, _))

def ReceivesBehindStep (e : Call) : Prop :=
  match e.call with
  | .mreceive req => ReceivesBehind e.before req
  | _ => False

instance (e : Call) : Decidable (ReceivesBehindStep e) := by
  unfold ReceivesBehindStep
  split <;> infer_instance

/-- What is accepted is what is delivered, followed by what is pending, as long as the
mailbox stands. Once it is removed, what is pending is lost. -/
structure InOrder (o s : ℤ) (history : List Call) (pm : PM) : Prop where
  pending : lookup o pm.mailboxFront ≠ none →
    sinceCreation o (accepted o s) history =
      sinceCreation o (delivered o s) history ++ (pm.messagesOf o).filter (·.sender = s)
  initial_part :
    sinceCreation o (delivered o s) history <+: sinceCreation o (accepted o s) history

theorem InOrder.of_pending {o s : ℤ} {history : List Call} {pm : PM}
    (h : sinceCreation o (accepted o s) history =
      sinceCreation o (delivered o s) history ++ (pm.messagesOf o).filter (·.sender = s)) :
    InOrder o s history pm :=
  ⟨fun _ => h, ⟨_, h.symm⟩⟩

section Step
variable {o s : ℤ} {history : List Call} {pm pm' : PM} {call : Request} {answer : Answer}

/-- A step that accepts and delivers nothing for `o`, and leaves its mailbox. -/
theorem InOrder.frame (h : InOrder o s history pm) (hc : ¬ Creates o ⟨pm, call, answer, pm'⟩)
    (ha : accepted o s ⟨pm, call, answer, pm'⟩ = [])
    (hd : delivered o s ⟨pm, call, answer, pm'⟩ = [])
    (hl : lookup o pm'.mailboxFront = none ∨
      (lookup o pm.mailboxFront ≠ none ∧ pm'.messagesOf o = pm.messagesOf o)) :
    InOrder o s (⟨pm, call, answer, pm'⟩ :: history) pm' := by
  refine ⟨fun hsome => ?_, ?_⟩
  · rcases hl with hl | ⟨hold, hm⟩
    · exact absurd hl hsome
    · rw [sinceCreation_cons hc, sinceCreation_cons hc, ha, hd, hm, List.append_nil,
        List.append_nil]
      exact h.pending hold
  · rw [sinceCreation_cons hc, sinceCreation_cons hc, ha, hd, List.append_nil, List.append_nil]
    exact h.initial_part

/-- The same mailbox, or none, is found before and after. -/
theorem InOrder.frame_lookup (h : InOrder o s history pm)
    (hc : ¬ Creates o ⟨pm, call, answer, pm'⟩)
    (ha : accepted o s ⟨pm, call, answer, pm'⟩ = [])
    (hd : delivered o s ⟨pm, call, answer, pm'⟩ = [])
    (hl : lookup o pm'.mailboxFront = lookup o pm.mailboxFront) :
    InOrder o s (⟨pm, call, answer, pm'⟩ :: history) pm' := by
  apply h.frame hc ha hd
  by_cases hnone : lookup o pm.mailboxFront = none
  · exact .inl (hl.trans hnone)
  · exact .inr ⟨hnone, by simp only [PM.messagesOf, hl]⟩

theorem accepted_of_refused (h : answer.ret ≠ some 1) :
    accepted o s ⟨pm, call, answer, pm'⟩ = [] := by
  simp only [accepted, if_neg h]
  split <;> rfl

theorem accepted_of_same (h : pm'.messagesOf o = pm.messagesOf o) :
    accepted o s ⟨pm, call, answer, pm'⟩ = [] := by
  simp only [accepted, h, List.drop_length, List.filter_nil, ite_self]
  split <;> rfl

theorem delivered_of_not_receive (h : ∀ req, call ≠ .mreceive req) :
    delivered o s ⟨pm, call, answer, pm'⟩ = [] := by
  cases call with
  | mreceive req => exact absurd rfl (h req)
  | _ => rfl

/-- A call that is not a receive, and changes the mailbox of `p`. -/
theorem inOrder_changed {p v : ℤ} {mb mb' : MailBox} (h : InOrder o s history pm)
    (hnot : ∀ req, call ≠ .mreceive req) (hl : lookup p pm.mailboxFront = some mb)
    (hch : Changes pm call p mb mb' v) (hret : answer.ret = some v)
    (hfront : pm'.mailboxFront = change MailBox.owner p (fun _ => mb') pm.mailboxFront) :
    InOrder o s (⟨pm, call, answer, pm'⟩ :: history) pm' := by
  have hd : delivered o s ⟨pm, call, answer, pm'⟩ = [] := delivered_of_not_receive hnot
  have hkey : ∀ a : MailBox, a.owner = p → mb'.owner = p := fun _ _ =>
    hch.owner.trans (key_of_find hl)
  have hfind : lookup o pm'.mailboxFront =
      if o = p then (lookup p pm.mailboxFront).map fun _ => mb' else lookup o pm.mailboxFront := by
    rw [hfront]
    exact find_change hkey o pm.mailboxFront
  have hnc : ¬ Creates o ⟨pm, call, answer, pm'⟩ := fun hc => by
    cases hch <;> exact Request.noConfusion hc.1
  by_cases ho : o = p
  · subst ho
    rw [if_pos rfl, hl, Option.map_some] at hfind
    have hbefore := PM.messagesOf_of_some hl
    have hafter := PM.messagesOf_of_some hfind
    have hsome : lookup o pm.mailboxFront ≠ none := by
      rw [hl]
      exact Option.some_ne_none mb
    have hsame (hm : mb'.mbList = mb.mbList) :
        InOrder o s (⟨pm, call, answer, pm'⟩ :: history) pm' := by
      have hmess : pm'.messagesOf o = pm.messagesOf o := by rw [hafter, hbefore, hm]
      exact h.frame hnc (accepted_of_same hmess) hd (.inr ⟨hsome, hmess⟩)
    cases hch with
    | @sendAccepted req _ _ _ _ _ _ =>
        apply InOrder.of_pending
        rw [sinceCreation_cons hnc, sinceCreation_cons hnc, hd, List.append_nil, h.pending hsome,
          hafter, hbefore]
        simp only [accepted, hret, if_true, hafter, hbefore, List.drop_left, List.filter_append,
          List.append_assoc]
    | received _ _ _ => exact absurd rfl (hnot _)
    | senderAdded _ => exact hsame rfl
    | senderKnown _ => exact hsame rfl
    | senderRemoved _ => exact hsame rfl
    | sendRefused _ _ _ => exact hsame rfl
  · rw [if_neg ho] at hfind
    refine h.frame_lookup hnc (accepted_of_same ?_) hd hfind
    simp only [PM.messagesOf, hfind]

/-- Every call that is not a receive. -/
theorem inOrder_other (hn : DistinctOwners pm) (h : InOrder o s history pm)
    (hnot : ∀ req, call ≠ .mreceive req) (hs : system.returns pm call answer pm') :
    InOrder o s (⟨pm, call, answer, pm'⟩ :: history) pm' := by
  have hd : delivered o s ⟨pm, call, answer, pm'⟩ = [] := delivered_of_not_receive hnot
  have he := effect_of_step hs
  generalize hfront : pm'.mailboxFront = front at he
  generalize hret : answer.ret = ret at he
  cases he with
  | idle hi =>
      have hne : answer.ret ≠ some 1 := hret ▸ hi.ret_ne_one
      exact h.frame_lookup (fun hc => hne hc.2) (accepted_of_refused hne) hd (by rw [hfront])
  | @created p hnone =>
      have hnew : lookup o [MailBox.fresh p] = if p = o then some (MailBox.fresh p) else none :=
        find_cons o (MailBox.fresh p) []
      have hlookup : lookup o pm'.mailboxFront =
          (lookup o pm.mailboxFront).or (lookup o [MailBox.fresh p]) := by
        rw [hfront]
        exact find_append o _ _
      by_cases ho : p = o
      · subst ho
        have hc : Creates p ⟨pm, .createMailbox p, answer, pm'⟩ := ⟨rfl, hret⟩
        rw [hnone, Option.none_or, hnew, if_pos rfl] at hlookup
        apply InOrder.of_pending
        rw [sinceCreation_created hc, sinceCreation_created hc, PM.messagesOf_of_some hlookup]
        rfl
      · have hc : ¬ Creates o ⟨pm, .createMailbox p, answer, pm'⟩ := fun hc =>
          ho (Request.createMailbox.inj hc.1)
        apply h.frame_lookup hc rfl hd
        rw [hlookup, hnew, if_neg ho, Option.or_none]
  | @removed p _ _ =>
      have hc : ¬ Creates o ⟨pm, .removeMailbox p, answer, pm'⟩ := fun hc =>
        Request.noConfusion hc.1
      have hlookup : lookup o pm'.mailboxFront =
          if o = p then none else lookup o pm.mailboxFront := by
        rw [hfront]
        exact find_remove hn o
      by_cases ho : o = p
      · rw [if_pos ho] at hlookup
        exact h.frame hc rfl hd (.inl hlookup)
      · rw [if_neg ho] at hlookup
        exact h.frame_lookup hc rfl hd hlookup
  | changed hl hc => exact inOrder_changed h hnot hl hc hret hfront

/-- A receive that copies out the first message of the list, or none. -/
theorem inOrder_receive {req : ReceiveRequest} (h : InOrder o s history pm)
    (hs : system.returns pm (.mreceive req) answer pm') (hok : ¬ ReceivesBehind pm req) :
    InOrder o s (⟨pm, .mreceive req, answer, pm'⟩ :: history) pm' := by
  have hc : ¬ Creates o ⟨pm, .mreceive req, answer, pm'⟩ := fun hc => Request.noConfusion hc.1
  obtain ⟨fuel, hf⟩ := hs
  rcases doMreceive_cases hf with
    ⟨_, hp, _, hcop⟩ | ⟨mb, rest, l, v, hfront, ho, hp, _, hr⟩
  · -- No mailboxes at all.
    obtain rfl : pm' = pm := hp
    refine h.frame_lookup hc rfl ?_ rfl
    simp only [delivered]
    split_ifs
    · exact congrArg (List.filter (·.sender = s)) hcop
    · rfl
  dsimp only at hp
  by_cases hown : req.ownerID = o
  · subst hown
    have hbefore : lookup req.ownerID pm.mailboxFront = some mb := by simp [hfront, ho]
    have hafter : lookup req.ownerID pm'.mailboxFront = some { mb with mbList := l } := by
      simp [hp, ho]
    have hmess := PM.messagesOf_of_some hbefore
    have hmess' := PM.messagesOf_of_some hafter
    have hpending := h.pending (by rw [hbefore]; exact Option.some_ne_none mb)
    rw [hmess] at hpending
    apply InOrder.of_pending
    rw [sinceCreation_cons hc, sinceCreation_cons hc, hmess', hpending]
    simp only [accepted, delivered, if_true, List.append_nil]
    have hbehind (front : List MessageNode) (message : MessageNode) (back : List MessageNode)
        (first : MessageNode) (hl : mb.mbList = first :: front ++ message :: back)
        (hs : awaitedSource pm req ≠ 0) (hcopy : req.copyOk = true)
        (hne : first.sender ≠ awaitedSource pm req)
        (hm : message.sender = awaitedSource pm req) : False := by
      refine hok ⟨mb, by simp [hfront], ho, hs, hcopy, ?_, message, by simp [hl], hm⟩
      simpa [hl] using hne
    rw [takeRecord_source] at hr
    generalize hmb : mb.mbList = pending at hr
    generalize copiedOut answer.log = copied at hr
    cases hr with
    | nothing _ => simp
    | failed _ _ => simp
    | first _ _ _ =>
        rw [List.append_assoc, ← List.filter_append, List.singleton_append]
    | behind hs hcopy hfr hm => exact (hbehind _ _ _ _ hmb hs hcopy (hfr _ (by simp)) hm).elim
    | last hs hcopy hfr hm => exact (hbehind _ _ _ _ hmb hs hcopy (hfr _ (by simp)) hm).elim
  · have hlookup : lookup o pm'.mailboxFront = lookup o pm.mailboxFront := by
      have hne : mb.owner ≠ o := fun he => hown (ho.symm.trans he)
      simp [hp, hfront, hne]
    exact h.frame_lookup hc rfl (if_neg hown) hlookup

end Step

/-! ## Over whole runs -/

/-- A run with no receive from behind the first message keeps the two sequences in order. -/
theorem inOrder_run (o s : ℤ) {history : List Call} {pm : PM} (h : Run system history pm)
    (hok : ∀ e ∈ history, ¬ ReceivesBehindStep e) : InOrder o s history pm := by
  refine Run.guarded_invariant (I := InOrder o s) (.of_pending rfl) ?_ h hok
  intro history pm call answer pm' hr ih hs hmeets
  cases call with
  | mreceive req =>
      have hfirst : ¬ ReceivesBehind pm req := hmeets
      exact inOrder_receive ih hs hfirst
  | createMailbox _ => exact inOrder_other (distinctOwners hr.reachable) ih nofun hs
  | removeMailbox _ => exact inOrder_other (distinctOwners hr.reachable) ih nofun hs
  | addSender _ _ => exact inOrder_other (distinctOwners hr.reachable) ih nofun hs
  | removeSender _ _ => exact inOrder_other (distinctOwners hr.reachable) ih nofun hs
  | msend _ => exact inOrder_other (distinctOwners hr.reachable) ih nofun hs

/-- What is delivered of a sender since the mailbox was created is a prefix of what was
accepted, in every run none of whose receives copies out a message that is not the first. -/
theorem deliveries_in_order {history : List Call} {pm : PM} (h : Run system history pm)
    (hok : ∀ e ∈ history, ¬ ReceivesBehindStep e) (o s : ℤ) :
    sinceCreation o (delivered o s) history <+: sinceCreation o (accepted o s) history :=
  (inOrder_run o s h hok).initial_part

theorem deliveries_in_order_seven :
    ∃ history pm, Run system history pm ∧ sinceCreation 7 (delivered 7 3) history ≠ [] ∧
      sinceCreation 7 (delivered 7 3) history <+: sinceCreation 7 (accepted 7 3) history := by
  have hr := replay_run 1
    [.createMailbox 7, .addSender 7 3, .msend (testMsend 3 [104, 105] [7]),
      .mreceive (testMreceive 7 3 0)] .init rfl
  exact ⟨_, _, hr, by decide, deliveries_in_order hr (by decide) 7 3⟩

/-- The message of 3 stands behind one of 2. It is copied out twice. -/
theorem deliveries_in_order_fails :
    ¬ ∀ history pm, Run system history pm → ∀ o s, s ≠ 0 →
      sinceCreation o (delivered o s) history <+: sinceCreation o (accepted o s) history := by
  intro h
  have hr := replay_run 1
    [.createMailbox 1, .addSender 1 2, .addSender 1 3, .msend (testMsend 2 [104, 105] [1]),
      .msend (testMsend 3 [104, 111] [1]), .mreceive (testMreceive 1 3 0),
      .mreceive (testMreceive 1 3 0)] .init rfl
  have hp := h _ _ hr 1 3 (by decide)
  exact absurd hp.length_le (by decide)

end MinixOS.MailboxDelivery
