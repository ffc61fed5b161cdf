import MinixOS.MailboxRegistry

/-!
# Sending to several receivers, and to a suspended one

The loop over the receivers of a send has a `return` on every way through its body,
so only the first receiver is served, and the statements that resume a suspended
receiver stand behind a `return` on both branches. This file says what a send
achieves all the same: a multicast is complete exactly when it names one receiver,
the counter of that mailbox leaves room and the text can be copied, and no send
resumes anybody.
-/
namespace MinixOS.MailboxSending
open SystemRuns KeyedLists MailboxState MailboxCalls MailboxSystem MailboxRegistry

/-! ## Multicast -/

/-- The call returns 1, and each receiver of the request, and no other mailbox, has one
node that holds the message added at the end of its list. -/
def Multicast (pm : PM) (req : SendRequest) (out : Outcome) : Prop :=
  out.ret = some 1 ∧ ∃ node, req.Holds node ∧
    out.pm.mailboxFront.map (fun mb => (mb.owner, mb.mbList)) =
      pm.mailboxFront.map fun mb =>
        (mb.owner, if mb.owner ∈ req.receivers then mb.mbList ++ [node] else mb.mbList)

section Multicast
variable {pm : PM} {req : SendRequest} {r : ℤ} {more : List ℤ} {mb : MailBox}

/-- A send returns 1 or -1, and 1 exactly when the first receiver has a mailbox that leaves
room and allows the sender. -/
theorem doMsend_ret (hr : req.receivers = r :: more) :
    ((doMsend req pm).ret = some 1 ↔ ∃ mb, lookup r pm.mailboxFront = some mb ∧
      mb.numMes < bufferSize ∧ req.ownerID ∈ mb.mbSender) ∧
    ((doMsend req pm).ret = some 1 ∨ (doMsend req pm).ret = some (-1)) := by
  obtain ⟨_, hv⟩ := doMsend_to hr pm
  rw [hv]
  cases hl : lookup r pm.mailboxFront with
  | none => simp
  | some mb =>
      by_cases hn : bufferSize ≤ mb.numMes
      · simp [(sendTo_full req pm.deadlockOne r hn).2, Control.valueOrError, Nat.not_lt.mpr hn]
      · have hroom := Nat.not_le.mp hn
        by_cases hs : req.ownerID ∈ mb.mbSender
        · simp [(sendTo_accepted req pm.deadlockOne r hroom hs).2, Control.valueOrError, hroom, hs]
        · simp [(sendTo_refused req pm.deadlockOne r hroom hs).2, Control.valueOrError, hs]

theorem doMsend_full (hr : req.receivers = r :: more) (hl : lookup r pm.mailboxFront = some mb)
    (hn : bufferSize ≤ mb.numMes) : (doMsend req pm).ret = some (-1) := by
  rw [(doMsend_to hr pm).2, hl, Option.map_some, Option.getD_some,
    (sendTo_full req pm.deadlockOne r hn).2]
  rfl

/-- An accepted message goes to the mailbox of the first receiver. -/
theorem doMsend_accepted (hd : DistinctOwners pm) (hr : req.receivers = r :: more)
    (hl : lookup r pm.mailboxFront = some mb) (hn : mb.numMes < bufferSize)
    (hs : req.ownerID ∈ mb.mbSender) :
    (doMsend req pm).ret = some 1 ∧
      (doMsend req pm).pm.mailboxFront.map (fun mb => (mb.owner, mb.mbList)) =
        pm.mailboxFront.map fun mb =>
          (mb.owner, if mb.owner = r then mb.mbList ++ [req.tempML] else mb.mbList) := by
  obtain ⟨hc, hv⟩ := sendTo_accepted req pm.deadlockOne r hn hs
  obtain ⟨hp, hret⟩ := doMsend_to hr pm
  constructor
  · rw [hret, hl, Option.map_some, Option.getD_some, hv]
    rfl
  · rw [hp]
    dsimp only
    rw [change_of_find hl, hc, change_eq_map hd, List.map_map]
    refine List.map_congr_left fun a ha => ?_
    by_cases hk : a.owner = r
    · obtain rfl := eq_of_find hd hl ha hk
      simp [hk]
    · simp [hk]

end Multicast

/-- For receivers that are distinct, have a mailbox with room on its list, and allow the
sender: the multicast is complete exactly when there is one receiver, the counter
of its mailbox, which receiving never lowers, is below `BUFFERSIZE`, and the text can
be copied. -/
theorem multicast_iff {pm : PM} (h : Reachable system pm) {req : SendRequest}
    (hne : req.receivers ≠ []) (hdistinct : req.receivers.Nodup)
    (hready : ∀ r ∈ req.receivers, ∃ mb ∈ pm.mailboxFront,
      mb.owner = r ∧ mb.mbList.length < bufferSize ∧ req.ownerID ∈ mb.mbSender) :
    Multicast pm req (doMsend req pm) ↔
      req.receivers.length = 1 ∧
        (∀ mb ∈ pm.mailboxFront, mb.owner ∈ req.receivers → mb.numMes < bufferSize) ∧
        req.Readable := by
  have hd := distinctOwners h
  obtain ⟨r, more, hr⟩ := List.exists_cons_of_ne_nil hne
  obtain ⟨mb, hm, rfl, _, hs⟩ := hready r (by simp [hr])
  have hl : lookup mb.owner pm.mailboxFront = some mb := find_of_mem hd hm
  by_cases hn : bufferSize ≤ mb.numMes
  · -- The first receiver refuses: its counter is at the limit.
    apply iff_of_false
    · rintro ⟨hret, _⟩
      rw [doMsend_full hr hl hn] at hret
      exact absurd hret (by decide)
    · rintro ⟨_, hall, _⟩
      exact absurd (hall mb hm (by simp [hr])) (Nat.not_lt.mpr hn)
  obtain ⟨hret, hmap⟩ := doMsend_accepted hd hr hl (Nat.not_le.mp hn) hs
  rw [← SendRequest.holds_tempML]
  cases more with
  | nil =>
      constructor
      · -- The node that was added is the one that `do_msend` filled.
        rintro ⟨_, node, hholds, hall⟩
        rw [hmap] at hall
        have hat := List.map_inj_left.mp hall mb hm
        simp only [hr, List.mem_singleton, if_true, Prod.mk.injEq, true_and,
          List.append_cancel_left_eq, List.cons.injEq, and_true] at hat
        refine ⟨by simp [hr], fun a ha ho => ?_, hat ▸ hholds⟩
        rw [hr, List.mem_singleton] at ho
        rw [eq_of_find hd hl ha ho]
        exact Nat.not_le.mp hn
      · rintro ⟨_, _, hholds⟩
        refine ⟨hret, req.tempML, hholds, ?_⟩
        simp only [hmap, hr, List.mem_singleton]
  | cons second more =>
      -- The second receiver gets nothing.
      refine iff_of_false ?_ (by simp [hr])
      rintro ⟨_, node, _, hall⟩
      obtain ⟨other, ho, rfl, _, _⟩ := hready second (by simp [hr])
      have hother : other.owner ≠ mb.owner := by
        intro he
        rw [hr, List.nodup_cons] at hdistinct
        exact hdistinct.1 (he ▸ List.mem_cons_self)
      rw [hmap] at hall
      have hat := List.map_inj_left.mp hall other ho
      simp [hother, hr] at hat

/-- One receiver that allows the sender, in a run of two calls. -/
theorem multicast_iff_seven :
    Multicast ⟨[{ MailBox.fresh 7 with mbSender := [3] }], []⟩ (testMsend 3 [104, 105] [7])
        (doMsend (testMsend 3 [104, 105] [7])
          ⟨[{ MailBox.fresh 7 with mbSender := [3] }], []⟩) ↔
      (testMsend 3 [104, 105] [7]).receivers.length = 1 ∧
        (∀ mb ∈ [{ MailBox.fresh 7 with mbSender := [3] }],
          mb.owner ∈ (testMsend 3 [104, 105] [7]).receivers → mb.numMes < bufferSize) ∧
        (testMsend 3 [104, 105] [7]).Readable :=
  multicast_iff (replay_run 0 [.createMailbox 7, .addSender 7 3] .init rfl).reachable
    (by decide) (by decide) (by decide)

/-- Two receivers that both allow the sender and have empty mailboxes: only the first
one gets the message. -/
theorem multicast_fails :
    ¬ ∀ pm req, Reachable system pm → req.receivers ≠ [] → req.receivers.Nodup →
      (∀ r ∈ req.receivers, ∃ mb ∈ pm.mailboxFront,
        mb.owner = r ∧ mb.mbList.length < bufferSize ∧ req.ownerID ∈ mb.mbSender) →
      Multicast pm req (doMsend req pm) := by
  intro h
  have hr := (replay_run 0
    [.createMailbox 1, .createMailbox 2, .addSender 1 3, .addSender 2 3] .init rfl).reachable
  have hm := h _ (testMsend 3 [104, 105] [1, 2]) hr (by decide) (by decide) (by decide)
  obtain ⟨_, node, _, hall⟩ := hm
  have hlengths : [1, 0] = [1, 1] := congrArg (List.map fun p : ℤ × List MessageNode => p.2.length) hall
  exact absurd hlengths (by decide)

/-! ## Resuming -/

theorem doMsend_no_resume (req : SendRequest) (pm : PM) (p : ℤ) :
    Event.sysResume p ∉ (doMsend req pm).log := by
  obtain ⟨front, suspended⟩ := pm
  have hb : ∀ r mb, (sendTo req suspended r mb).control ≠ .next := by
    intro r mb
    obtain ⟨v, hv⟩ := sendTo_returns req suspended r mb
    simp [hv]
  cases front with
  | nil => simp [doMsend]
  | cons first rest =>
      cases hr : req.receivers with
      | nil => simp [doMsend, hr, forReceivers]
      | cons r more =>
          simp only [doMsend, hr, forReceivers, whileCursor_spec (hb r)]
          cases hl : lookup r (first :: rest) with
          | none => simp
          | some mb => simp [sendTo_log]

/-- A send, accepted or not, leaves the suspended list as it is and resumes nobody. -/
theorem send_wakes_nobody (req : SendRequest) (pm : PM) :
    (doMsend req pm).pm.deadlockOne = pm.deadlockOne ∧
      ∀ r, Event.sysResume r ∉ (doMsend req pm).log := by
  refine ⟨?_, doMsend_no_resume req pm⟩
  cases hr : req.receivers with
  | nil => rw [(doMsend_nobody hr pm).1]
  | cons r more => rw [(doMsend_to hr pm).1]

/-- The process 1 waits for a message of 2, which comes and is accepted. -/
theorem resume_fails :
    ¬ ∀ pm req r, Reachable system pm → req.receivers = [r] →
      (∃ temp ∈ pm.deadlockOne, temp.deadlocked = r) → (doMsend req pm).ret = some 1 →
      Event.sysResume r ∈ (doMsend req pm).log := by
  intro h
  have hr := (replay_run 1
    [.createMailbox 1, .addSender 1 2, .mreceive (testMreceive 1 2 0)] .init rfl).reachable
  have hm := h _ (testMsend 2 [104, 105] [1]) 1 hr rfl (by decide) rfl
  exact doMsend_no_resume _ _ _ hm

end MinixOS.MailboxSending
