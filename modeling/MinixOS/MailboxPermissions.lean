import MinixOS.MailboxRegistry

/-!
# Who may send

The sender list of a mailbox is changed by `do_addSender` and `do_removeSender`, and
also by every permission check and by an `do_addSender` that fails, both of which
leave the head pointer where their walk stopped. None of these ever lets a sender
in: in every reachable state each id on the list of a mailbox was added since the
mailbox was created, and has not been taken back since.

The history of a run says what that means, and the invariant relates the lists to
it. Lists have no duplicates, or else taking an id back would leave a copy of it.
-/
namespace MinixOS.MailboxPermissions
open SystemRuns KeyedLists MailboxState MailboxCalls MailboxReceive MailboxSystem MailboxRegistry

/-! ## What the history says -/

/-- The mailbox of `o` was created and neither removed nor created since. -/
def Standing (o : ℤ) (history : List Call) : Prop :=
  ∃ recent creation older, history = recent ++ creation :: older ∧ Creates o creation ∧
    ∀ e ∈ recent, ¬ Creates o e ∧ ¬ Removes o e

/-- `s` was allowed after the last creation of the mailbox of `o`, and since then
neither was `s` taken back nor the mailbox removed or created. -/
def Granted (o s : ℤ) (history : List Call) : Prop :=
  ∃ recent grant older, history = recent ++ grant :: older ∧ Allows o s grant ∧
    Standing o older ∧
    ∀ e ∈ recent, ¬ Creates o e ∧ ¬ Removes o e ∧ ¬ Forbids o s e

theorem Standing.cons {o : ℤ} {history : List Call} {e : Call} (h : Standing o history)
    (hc : ¬ Creates o e) (hr : ¬ Removes o e) : Standing o (e :: history) := by
  obtain ⟨recent, creation, older, rfl, hcr, hall⟩ := h
  refine ⟨e :: recent, creation, older, rfl, hcr, fun d hd => ?_⟩
  rcases List.mem_cons.mp hd with rfl | hd
  · exact ⟨hc, hr⟩
  · exact hall d hd

theorem Granted.cons {o s : ℤ} {history : List Call} {e : Call} (h : Granted o s history)
    (hc : ¬ Creates o e) (hr : ¬ Removes o e) (hf : ¬ Forbids o s e) :
    Granted o s (e :: history) := by
  obtain ⟨recent, grant, older, rfl, hg, hst, hall⟩ := h
  refine ⟨e :: recent, grant, older, rfl, hg, hst, fun d hd => ?_⟩
  rcases List.mem_cons.mp hd with rfl | hd
  · exact ⟨hc, hr, hf⟩
  · exact hall d hd

theorem Standing.grant {o s : ℤ} {history : List Call} {e : Call} (h : Standing o history)
    (ha : Allows o s e) : Granted o s (e :: history) :=
  ⟨[], e, history, rfl, ha, h, fun _ hd => absurd hd List.not_mem_nil⟩

/-! ## The invariant -/

/-- What the history must account for in one mailbox. -/
structure Authorised (history : List Call) (mb : MailBox) : Prop where
  standing : Standing mb.owner history
  nodup : mb.mbSender.Nodup
  granted : ∀ s ∈ mb.mbSender, Granted mb.owner s history

/-- A step that neither makes nor removes the mailbox, and takes back none of its
senders, leaves what was known of it. -/
theorem Authorised.cons {history : List Call} {mb : MailBox} {e : Call}
    (h : Authorised history mb) (hc : ¬ Creates mb.owner e) (hr : ¬ Removes mb.owner e)
    (hf : ∀ s ∈ mb.mbSender, ¬ Forbids mb.owner s e) : Authorised (e :: history) mb where
  standing := h.standing.cons hc hr
  nodup := h.nodup
  granted := fun s hs => (h.granted s hs).cons hc hr (hf s hs)

/-- A shorter sender list needs no more than the longer one. -/
theorem Authorised.sublist {history : List Call} {mb mb' : MailBox} (h : Authorised history mb)
    (ho : mb'.owner = mb.owner) (hs : mb'.mbSender.Sublist mb.mbSender) :
    Authorised history mb' where
  standing := ho ▸ h.standing
  nodup := h.nodup.sublist hs
  granted := fun s hm => ho ▸ h.granted s (hs.subset hm)

theorem authorised_fresh {history : List Call} {e : Call} {o : ℤ} (h : Creates o e) :
    Authorised (e :: history) (MailBox.fresh o) where
  standing := ⟨[], e, history, rfl, h, fun _ hd => absurd hd List.not_mem_nil⟩
  nodup := List.nodup_nil
  granted := fun _ hm => absurd hm List.not_mem_nil

section Step
variable {history : List Call} {pm : PM}

/-- A call that changes the mailbox of `o` makes and removes none, and takes back
senders of `o` only. -/
theorem changes_about {call : Request} {o v : ℤ} {mb mb' : MailBox}
    (h : Changes pm call o mb mb' v) :
    (∀ p, call ≠ .createMailbox p) ∧ (∀ p, call ≠ .removeMailbox p) ∧
      ∀ p s, call = .removeSender p s → p = o := by
  cases h <;> simp

/-- The changed mailbox. -/
theorem authorised_changes {call : Request} {answer : Answer} {pm' : PM} {o v : ℤ}
    {mb mb' : MailBox} (h : Changes pm call o mb mb' v) (ho : mb.owner = o)
    (hv : answer.ret = some v) (ha : Authorised history mb) :
    Authorised (⟨pm, call, answer, pm'⟩ :: history) mb' := by
  obtain ⟨hnc, hnr, _⟩ := changes_about h
  have hc : ¬ Creates mb.owner ⟨pm, call, answer, pm'⟩ := fun hc => hnc _ hc.1
  have hr : ¬ Removes mb.owner ⟨pm, call, answer, pm'⟩ := fun hr => hnr _ hr.1
  cases h with
  | @senderAdded _ id _ hid =>
      have hold := ha.cons hc hr fun s _ hf => Request.noConfusion hf
      refine ⟨hold.standing, ?_, fun s hs => ?_⟩
      · rw [List.nodup_append]
        refine ⟨ha.nodup, List.nodup_singleton id, ?_⟩
        rintro s hs _ hm rfl
        exact hid (List.mem_singleton.mp hm ▸ hs)
      · rcases List.mem_append.mp hs with hs | hs
        · exact hold.granted s hs
        · rw [List.mem_singleton.mp hs]
          exact ha.standing.grant ⟨congrArg (Request.addSender · id) ho.symm, hv⟩
  | senderKnown _ =>
      have hold := ha.cons hc hr fun s _ hf => Request.noConfusion hf
      exact hold.sublist rfl (List.dropWhile_sublist _)
  | @senderRemoved _ id _ _ =>
      have hshort : Authorised history { mb with mbSender := mb.mbSender.erase id } :=
        ha.sublist rfl List.erase_sublist
      refine hshort.cons hc hr fun s hs hf => ?_
      have hs' : s ≠ id := ((ha.nodup.mem_erase_iff).mp hs).1
      exact hs' (Request.removeSender.inj hf).2.symm
  | sendRefused _ _ _ =>
      have hold := ha.cons hc hr fun s _ hf => Request.noConfusion hf
      exact hold.sublist rfl (List.nil_sublist _)
  | sendAccepted _ _ _ =>
      have hold := ha.cons hc hr fun s _ hf => Request.noConfusion hf
      exact hold.sublist rfl (List.dropWhile_sublist _)
  | received _ _ _ =>
      have hold := ha.cons hc hr fun s _ hf => Request.noConfusion hf
      exact hold.sublist rfl (List.Sublist.refl _)

/-- An idle call takes back nobody who is on a list. -/
theorem idle_not_forbids {call : Request} {ret : Option ℤ} {mb : MailBox}
    (h : Idle pm call ret) (hn : DistinctOwners pm) (hm : mb ∈ pm.mailboxFront) {s : ℤ}
    (hs : s ∈ mb.mbSender) : call ≠ .removeSender mb.owner s := by
  rintro rfl
  have hl := find_of_mem hn hm
  cases h with
  | noMailbox hc h =>
      cases hc
      exact absurd (hl.symm.trans h) (Option.some_ne_none mb)
  | senderUnknown h hid =>
      obtain rfl := Option.some.inj (hl.symm.trans h)
      exact hid hs

theorem authorised_step {call : Request} {answer : Answer} {pm' : PM} (hn : DistinctOwners pm)
    (ha : ∀ mb ∈ pm.mailboxFront, Authorised history mb)
    (hs : system.returns pm call answer pm') :
    ∀ mb ∈ pm'.mailboxFront, Authorised (⟨pm, call, answer, pm'⟩ :: history) mb := by
  have he := effect_of_step hs
  generalize hfront : pm'.mailboxFront = front at he
  generalize hret : answer.ret = ret at he
  intro mb hm
  cases he with
  | idle hi =>
      have hne : answer.ret ≠ some 1 := hret ▸ hi.ret_ne_one
      exact (ha mb hm).cons (fun h => hne h.2) (fun h => hne h.2)
        fun s hs hf => idle_not_forbids hi hn hm hs hf
  | @created o hnone =>
      rcases List.mem_append.mp hm with hm | hm
      · refine (ha mb hm).cons (fun h => ?_) (fun h => Request.noConfusion h.1)
          fun s _ hf => Request.noConfusion hf
        exact find_eq_none.mp hnone mb hm (Request.createMailbox.inj h.1).symm
      · rw [List.mem_singleton.mp hm]
        exact authorised_fresh ⟨rfl, hret⟩
  | @removed o _ _ =>
      rw [remove_eq_filter hn, List.mem_filter] at hm
      refine (ha mb hm.1).cons (fun h => Request.noConfusion h.1) (fun h => ?_)
        fun s _ hf => Request.noConfusion hf
      exact of_decide_eq_true hm.2 (Request.removeMailbox.inj h.1).symm
  | changed hl hc =>
      rcases mem_change_of_nodup hn hm with ⟨hm, hne⟩ | ⟨_, _, rfl⟩
      · obtain ⟨hnc, hnr, hnf⟩ := changes_about hc
        exact (ha mb hm).cons (fun h => hnc _ h.1) (fun h => hnr _ h.1)
          fun s _ hf => hne (hnf _ s hf)
      · exact authorised_changes hc (key_of_find hl) hret (ha _ (mem_of_find hl))

end Step

/-- Every sender on the list of a mailbox is there because it was allowed. -/
theorem authorised {history : List Call} {pm : PM} (h : Run system history pm) :
    ∀ mb ∈ pm.mailboxFront, Authorised history mb := by
  refine h.history_invariant (I := fun history pm => ∀ mb ∈ pm.mailboxFront, Authorised history mb)
    (fun _ hm => absurd hm List.not_mem_nil) ?_
  intro history s c a t hr ha hs
  exact authorised_step (distinctOwners hr.reachable) ha hs

/-- A message is only accepted from a sender who was allowed after the last creation of
the mailbox, and neither taken back nor cut off by a removal since. -/
theorem accepted_send_was_granted {later history : List Call} {e : Call} {pm : PM}
    (h : Run system (later ++ e :: history) pm) {req : SendRequest} {o : ℤ}
    (hcall : e.call = .msend req) (hr : req.receivers = [o]) (hret : e.answer.ret = some 1) :
    Granted o req.ownerID history := by
  obtain ⟨t, ht⟩ := h.earlier
  cases ht with
  | call hrun hs =>
      dsimp only at hcall hret
      have he := effect_of_step hs
      rw [hcall, hret] at he
      generalize t.mailboxFront = front at he
      cases he with
      | idle hi => exact absurd rfl hi.ret_ne_one
      | changed hl hc =>
          cases hc with
          | sendAccepted hr' _ hmem =>
              obtain ⟨rfl, _⟩ := List.cons.inj (hr'.symm.trans hr)
              have hg := (authorised hrun _ (mem_of_find hl)).granted _ hmem
              rwa [key_of_find hl] at hg

theorem accepted_send_was_granted_seven :
    Granted 7 3
      [callOf ⟨[MailBox.fresh 7], []⟩ (.addSender 7 3) (doAddSender 7 3 ⟨[MailBox.fresh 7], []⟩),
        callOf PM.initial (.createMailbox 7) (doCreateMailbox 7 PM.initial)] :=
  @accepted_send_was_granted [] _ _ _
    (replay_run 0
      [.createMailbox 7, .addSender 7 3, .msend (testMsend 3 [104, 105] [7])] .init rfl)
    (testMsend 3 [104, 105] [7]) 7 rfl rfl rfl

end MinixOS.MailboxPermissions
