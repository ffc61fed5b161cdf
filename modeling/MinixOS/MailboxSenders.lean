import MinixOS.MailboxPermissions

/-!
# The sender lists, call by call

Three calls read the sender list of a mailbox through the mailbox's own head pointer,
or may change it. `do_addSender` restores the head when it appends, but not when it
finds the sender behind the first one. `do_removeSender` walks on a copy of the
pointer. The permission check of `do_msend` never restores the head. So removing is
exact, adding is a set insertion unless a sender is added again that is not the first,
and sending keeps the list only when the sender is the first of it.
-/
namespace MinixOS.MailboxSenders
open SystemRuns KeyedLists MailboxState MailboxCalls MailboxSystem MailboxRegistry
  MailboxPermissions

/-- The sender list of every mailbox. -/
def senderLists (pm : PM) : List (ℤ × List ℤ) :=
  pm.mailboxFront.map fun mb => (mb.owner, mb.mbSender)

theorem dropWhile_ne_eq_self {id : ℤ} {l : List ℤ} :
    l.dropWhile (· ≠ id) = l ↔ l = [] ∨ l.head? = some id := by
  cases l with
  | nil => simp
  | cons first rest =>
      by_cases h : first = id
      · simp [h]
      · have hlen := (List.dropWhile_sublist (p := (· ≠ id)) (l := rest)).length_le
        simp only [List.dropWhile_cons, ne_eq, h, not_false_eq_true, decide_true, if_true,
          reduceCtorEq, List.head?_cons, Option.some.injEq, or_false, iff_false]
        intro he
        rw [he, List.length_cons] at hlen
        omega

/-- Replacing the mailbox of `o` keeps all sender lists exactly when it keeps that one. -/
theorem senderLists_change {pm pm' : PM} {o : ℤ} {mb mb' : MailBox}
    (hl : lookup o pm.mailboxFront = some mb) (ho : mb'.owner = mb.owner)
    (hp : pm'.mailboxFront = change MailBox.owner o (fun _ => mb') pm.mailboxFront) :
    senderLists pm' = senderLists pm ↔ mb'.mbSender = mb.mbSender := by
  unfold senderLists
  rw [hp, map_change_eq_iff hl, Prod.mk.injEq, and_iff_right ho]

/-- The mailboxes of other owners are found as before. -/
theorem lookup_change_other {o p : ℤ} {f : MailBox → MailBox} (hf : ∀ mb, (f mb).owner = mb.owner)
    (hp : p ≠ o) (l : List MailBox) : lookup p (change MailBox.owner o f l) = lookup p l := by
  rw [lookup, find_change (fun a ha => (hf a).trans ha), if_neg hp]

theorem lookup_change_same {o : ℤ} {f : MailBox → MailBox} (hf : ∀ mb, (f mb).owner = mb.owner)
    {l : List MailBox} {mb : MailBox} (hl : lookup o l = some mb) :
    lookup o (change MailBox.owner o f l) = some (f mb) := by
  rw [lookup, find_change (fun a ha => (hf a).trans ha), if_pos rfl]
  exact congrArg (Option.map f) hl

/-! ## Adding a sender -/

/-- A new sender is put at the end of the list, and otherwise no list changes. -/
structure SetInsertion (o s : ℤ) (pm : PM) (out : Outcome) : Prop where
  inserted : ∀ mb, lookup o pm.mailboxFront = some mb → s ∉ mb.mbSender →
    out.ret = some 1 ∧
      lookup o out.pm.mailboxFront = some { mb with mbSender := mb.mbSender ++ [s] }
  refused : (∀ mb, lookup o pm.mailboxFront = some mb → s ∈ mb.mbSender) →
    out.ret = some (-1) ∧ senderLists out.pm = senderLists pm
  others : ∀ p, p ≠ o → lookup p out.pm.mailboxFront = lookup p pm.mailboxFront

section Add
variable {o s : ℤ} {pm : PM} {mb : MailBox}

theorem doAddSender_absent (hl : lookup o pm.mailboxFront = none) :
    (doAddSender o s pm).pm = pm ∧ (doAddSender o s pm).ret = some (-1) := by
  rw [doAddSender_pm, doAddSender_ret, hl, change_of_find_none hl]
  exact ⟨rfl, rfl⟩

theorem doAddSender_found (hl : lookup o pm.mailboxFront = some mb) :
    (doAddSender o s pm).pm.mailboxFront =
        change MailBox.owner o (fun _ => (addSenderTo s mb).cursor) pm.mailboxFront ∧
      (doAddSender o s pm).ret = some (addSenderTo s mb).control.valueOrError := by
  rw [doAddSender_pm, doAddSender_ret, hl]
  exact ⟨change_of_find hl, rfl⟩

/-- A sender that is added again keeps the list exactly when it is the first of it. -/
theorem doAddSender_known (hl : lookup o pm.mailboxFront = some mb) (hs : s ∈ mb.mbSender) :
    (doAddSender o s pm).ret = some (-1) ∧
      (senderLists (doAddSender o s pm).pm = senderLists pm ↔ mb.mbSender.head? = some s) := by
  obtain ⟨hp, hv⟩ := doAddSender_found (s := s) hl
  obtain ⟨hcur, hret⟩ := addSenderTo_known hs
  rw [hv, hret, senderLists_change hl (addSenderTo_owner s mb) hp, hcur]
  refine ⟨rfl, dropWhile_ne_eq_self.trans ?_⟩
  rw [or_iff_right (List.ne_nil_of_mem hs)]

theorem doAddSender_inserted (hl : lookup o pm.mailboxFront = some mb) (hs : s ∉ mb.mbSender) :
    (doAddSender o s pm).ret = some 1 ∧
      lookup o (doAddSender o s pm).pm.mailboxFront =
        some { mb with mbSender := mb.mbSender ++ [s] } := by
  obtain ⟨hcur, hret⟩ := addSenderTo_new hs
  constructor
  · rw [(doAddSender_found hl).2, hret]
    rfl
  · rw [doAddSender_pm, lookup_change_same (addSenderTo_owner s) hl, hcur]

end Add

/-- Adding is a set insertion with clean failure, unless the sender is on the list and
not the first of it. -/
theorem addSender_insertion_iff (o s : ℤ) (pm : PM) :
    SetInsertion o s pm (doAddSender o s pm) ↔
      ∀ mb, lookup o pm.mailboxFront = some mb → s ∈ mb.mbSender →
        mb.mbSender.head? = some s := by
  have hothers : ∀ p, p ≠ o →
      lookup p (doAddSender o s pm).pm.mailboxFront = lookup p pm.mailboxFront := by
    intro p hp
    rw [doAddSender_pm]
    exact lookup_change_other (addSenderTo_owner s) hp _
  constructor
  · intro h mb hl hs
    have hknown : ∀ mb', lookup o pm.mailboxFront = some mb' → s ∈ mb'.mbSender := by
      intro mb' hl'
      rw [hl, Option.some.injEq] at hl'
      exact hl' ▸ hs
    exact (doAddSender_known hl hs).2.mp (h.refused hknown).2
  · intro hfirst
    constructor
    · intro mb hl hs
      exact doAddSender_inserted hl hs
    · intro hknown
      cases hl : lookup o pm.mailboxFront with
      | none =>
          obtain ⟨hp, hv⟩ := doAddSender_absent (s := s) hl
          exact ⟨hv, congrArg senderLists hp⟩
      | some mb =>
          have hs := hknown mb hl
          obtain ⟨hv, hiff⟩ := doAddSender_known hl hs
          exact ⟨hv, hiff.mpr (hfirst mb hl hs)⟩
    · exact hothers

/-- Adding the second sender again loses the first. -/
theorem addSender_insertion_fails :
    ¬ ∀ pm, Reachable system pm → ∀ o s, SetInsertion o s pm (doAddSender o s pm) := by
  intro h
  have hr := (replay_run 0 [.createMailbox 1, .addSender 1 5, .addSender 1 6] .init rfl).reachable
  obtain ⟨_, hsame⟩ := (h _ hr 1 6).refused fun mb hl => by cases hl; decide
  have hbad : senderLists (doAddSender 1 6
      ⟨[{ MailBox.fresh 1 with mbSender := [5, 6] }], []⟩).pm ≠ [(1, [5, 6])] := by decide
  exact hbad hsame

/-! ## Removing a sender -/

/-- Exact deletion of `s` from the sender list of `o`. -/
structure ExactDeletion (o s : ℤ) (pm : PM) (out : Outcome) : Prop where
  succeeds_iff : out.ret = some 1 ↔ ∃ mb, lookup o pm.mailboxFront = some mb ∧ s ∈ mb.mbSender
  deleted : ∀ mb, lookup o pm.mailboxFront = some mb → s ∈ mb.mbSender →
    lookup o out.pm.mailboxFront = some { mb with mbSender := mb.mbSender.filter (· ≠ s) }
  refused : out.ret ≠ some 1 → out.ret = some (-1) ∧ out.pm = pm
  others : ∀ p, p ≠ o → lookup p out.pm.mailboxFront = lookup p pm.mailboxFront
  suspended : out.pm.deadlockOne = pm.deadlockOne

section Remove
variable {o s : ℤ} {pm : PM} {mb : MailBox}

theorem doRemoveSender_known (hl : lookup o pm.mailboxFront = some mb) (hs : s ∈ mb.mbSender) :
    (doRemoveSender o s pm).pm =
        { pm with
          mailboxFront := change MailBox.owner o
            (fun mb => { mb with mbSender := mb.mbSender.erase s }) pm.mailboxFront } ∧
      (doRemoveSender o s pm).ret = some 1 := by
  obtain ⟨hcur, hret⟩ := removeSenderFrom_known hs
  rw [doRemoveSender_pm, doRemoveSender_ret, hl, change_of_find hl, hcur,
    Option.map_some, Option.getD_some, hret]
  constructor
  · rw [change_of_find (f := fun mb => { mb with mbSender := mb.mbSender.erase s }) hl]
  · rfl

theorem doRemoveSender_unknown (h : ∀ mb, lookup o pm.mailboxFront = some mb → s ∉ mb.mbSender) :
    (doRemoveSender o s pm).pm = pm ∧ (doRemoveSender o s pm).ret = some (-1) := by
  rw [doRemoveSender_pm, doRemoveSender_ret]
  cases hl : lookup o pm.mailboxFront with
  | none =>
      rw [change_of_find_none hl]
      exact ⟨rfl, rfl⟩
  | some mb =>
      obtain ⟨hcur, hret⟩ := removeSenderFrom_unknown (h mb hl)
      rw [change_of_find hl, hcur, change_self hl, Option.map_some, Option.getD_some, hret]
      exact ⟨rfl, rfl⟩

/-- Removing what was just added gives back the state before. -/
theorem doRemoveSender_doAddSender (h : (doAddSender o s pm).ret = some 1) :
    (doRemoveSender o s (doAddSender o s pm).pm).pm = pm ∧
      (doRemoveSender o s (doAddSender o s pm).pm).ret = some 1 := by
  cases hl : lookup o pm.mailboxFront with
  | none =>
      rw [(doAddSender_absent hl).2] at h
      simp at h
  | some mb =>
      by_cases hs : s ∈ mb.mbSender
      · rw [(doAddSender_known hl hs).1] at h
        simp at h
      have hfound := (doAddSender_inserted hl hs).2
      obtain ⟨hp, hv⟩ := doRemoveSender_known hfound (List.mem_concat_self)
      refine ⟨?_, hv⟩
      have herase : (mb.mbSender ++ [s]).erase s = mb.mbSender := by
        rw [List.erase_append_right _ hs, List.erase_cons_head, List.append_nil]
      rw [hp, doAddSender_pm]
      dsimp only
      rw [change_change fun a ha => (addSenderTo_owner s a).trans ha, change_of_find hl,
        (addSenderTo_new hs).1]
      dsimp only
      rw [herase, change_self hl]

/-- In lists without duplicates, removing is exact. -/
theorem doRemoveSender_exact (hn : ∀ mb ∈ pm.mailboxFront, mb.mbSender.Nodup) :
    ExactDeletion o s pm (doRemoveSender o s pm) := by
  have hothers : ∀ p, p ≠ o →
      lookup p (doRemoveSender o s pm).pm.mailboxFront = lookup p pm.mailboxFront := by
    intro p hp
    rw [doRemoveSender_pm]
    exact lookup_change_other (removeSenderFrom_owner s) hp _
  have hsuspended : (doRemoveSender o s pm).pm.deadlockOne = pm.deadlockOne := by
    rw [doRemoveSender_pm]
  by_cases hknown : ∃ mb, lookup o pm.mailboxFront = some mb ∧ s ∈ mb.mbSender
  · have ⟨mb, hl, hs⟩ := hknown
    obtain ⟨hp, hv⟩ := doRemoveSender_known hl hs
    constructor
    · exact iff_of_true hv hknown
    · intro mb' hl' hs'
      have herase : mb'.mbSender.erase s = mb'.mbSender.filter (· ≠ s) := by
        rw [(hn mb' (mem_of_find hl')).erase_eq_filter]
        exact List.filter_congr fun a _ => by simp [bne, beq_eq_decide]
      rw [hp]
      dsimp only
      rw [lookup_change_same (f := fun mb => { mb with mbSender := mb.mbSender.erase s })
        (fun _ => rfl) hl', herase]
    · exact fun h => absurd hv h
    · exact hothers
    · exact hsuspended
  · have hunknown : ∀ mb, lookup o pm.mailboxFront = some mb → s ∉ mb.mbSender :=
      fun mb hl hs => hknown ⟨mb, hl, hs⟩
    obtain ⟨hp, hv⟩ := doRemoveSender_unknown hunknown
    constructor
    · rw [hv]
      exact iff_of_false (by simp) hknown
    · exact fun mb hl hs => absurd hs (hunknown mb hl)
    · exact fun _ => ⟨hv, hp⟩
    · exact hothers
    · exact hsuspended

end Remove

/-- In every reachable state removing is exact deletion, and in every state it undoes an
addition that succeeded. -/
theorem removeSender_exact {pm : PM} (h : Reachable system pm) (o s : ℤ) :
    ExactDeletion o s pm (doRemoveSender o s pm) ∧
      ∀ pm', (doAddSender o s pm').ret = some 1 →
        (doRemoveSender o s (doAddSender o s pm').pm).pm = pm' ∧
          (doRemoveSender o s (doAddSender o s pm').pm).ret = some 1 := by
  obtain ⟨history, hr⟩ := h
  constructor
  · exact doRemoveSender_exact fun mb hm => (authorised hr mb hm).nodup
  · exact fun _ hadd => doRemoveSender_doAddSender hadd

/-- The mailbox of 7 allows 3, 4 and 5. -/
theorem three_senders_reachable :
    Reachable system ⟨[{ MailBox.fresh 7 with mbSender := [3, 4, 5] }], []⟩ :=
  (replay_run 0 [.createMailbox 7, .addSender 7 3, .addSender 7 4, .addSender 7 5] .init
    rfl).reachable

/-- The sender 4 is removed from between two others, and 6 is added behind them and taken back. -/
theorem removeSender_exact_seven :
    (ExactDeletion 7 4 ⟨[{ MailBox.fresh 7 with mbSender := [3, 4, 5] }], []⟩
        (doRemoveSender 7 4 ⟨[{ MailBox.fresh 7 with mbSender := [3, 4, 5] }], []⟩) ∧
      (doRemoveSender 7 4 ⟨[{ MailBox.fresh 7 with mbSender := [3, 4, 5] }], []⟩).pm =
        ⟨[{ MailBox.fresh 7 with mbSender := [3, 5] }], []⟩) ∧
    (doAddSender 7 6 ⟨[{ MailBox.fresh 7 with mbSender := [3, 4, 5] }], []⟩).pm =
        ⟨[{ MailBox.fresh 7 with mbSender := [3, 4, 5, 6] }], []⟩ ∧
      (doRemoveSender 7 6 ⟨[{ MailBox.fresh 7 with mbSender := [3, 4, 5, 6] }], []⟩).pm =
        ⟨[{ MailBox.fresh 7 with mbSender := [3, 4, 5] }], []⟩ := by
  refine ⟨⟨(removeSender_exact three_senders_reachable 7 4).1, rfl⟩, rfl, ?_⟩
  exact ((removeSender_exact three_senders_reachable 7 6).2
    ⟨[{ MailBox.fresh 7 with mbSender := [3, 4, 5] }], []⟩ rfl).1

/-! ## Sending -/

/-- The request gets to the permission check, on this mailbox. -/
def Checks (pm : PM) (req : SendRequest) (mb : MailBox) : Prop :=
  ∃ r more, req.receivers = r :: more ∧ lookup r pm.mailboxFront = some mb ∧
    mb.numMes < bufferSize

/-- Where there is a check, it finds the sender first, or no sender at all. -/
def KeepsSenders (pm : PM) (req : SendRequest) : Prop :=
  ∀ mb, Checks pm req mb → mb.mbSender = [] ∨ mb.mbSender.head? = some req.ownerID

/-- All checks made for these requests, served one after the other, are passed. -/
def ChecksPass : PM → List SendRequest → Prop
  | _, [] => True
  | pm, req :: reqs =>
      (∀ mb, Checks pm req mb → (checkPermissions mb req.ownerID).ret = 1) ∧
        ChecksPass (doMsend req pm).pm reqs

section Send
variable {req : SendRequest} {pm : PM} {r : ℤ} {mb : MailBox}

theorem sendTo_senders (suspended : List ProcDeadlock) (hn : mb.numMes < bufferSize) :
    (sendTo req suspended r mb).cursor.mbSender = mb.mbSender.dropWhile (· ≠ req.ownerID) := by
  by_cases hs : req.ownerID ∈ mb.mbSender
  · rw [(sendTo_accepted req suspended r hn hs).1]
  · rw [(sendTo_refused req suspended r hn hs).1, dropWhile_ne_eq_nil.mpr hs]

theorem Checks.unique {r : ℤ} {more : List ℤ} {mb mb' : MailBox} (hr : req.receivers = r :: more)
    (hl : lookup r pm.mailboxFront = some mb) (h : Checks pm req mb') :
    mb' = mb ∧ mb.numMes < bufferSize := by
  obtain ⟨r', more', hr', hl', hn⟩ := h
  rw [hr, List.cons.injEq] at hr'
  rw [← hr'.1, hl, Option.some.injEq] at hl'
  exact ⟨hl'.symm, hl' ▸ hn⟩

/-- A send keeps the sender lists exactly when a check it makes stops at the first sender. -/
theorem senderLists_msend_iff (req : SendRequest) (pm : PM) :
    senderLists (doMsend req pm).pm = senderLists pm ↔ KeepsSenders pm req := by
  cases hr : req.receivers with
  | nil =>
      apply iff_of_true
      · rw [(doMsend_nobody hr pm).1]
      · rintro mb ⟨r, more, hr', _⟩
        rw [hr] at hr'
        simp at hr'
  | cons r more =>
      obtain ⟨hp, _⟩ := doMsend_to hr pm
      cases hl : lookup r pm.mailboxFront with
      | none =>
          apply iff_of_true
          · rw [hp, change_of_find_none hl]
          · rintro mb ⟨r', more', hr', hl', _⟩
            rw [hr, List.cons.injEq] at hr'
            rw [← hr'.1, hl] at hl'
            simp at hl'
      | some mb =>
          rw [change_of_find hl] at hp
          rw [senderLists_change hl (sendTo_owner req pm.deadlockOne r mb) (by rw [hp])]
          by_cases hn : mb.numMes < bufferSize
          · rw [sendTo_senders pm.deadlockOne hn, dropWhile_ne_eq_self]
            constructor
            · intro h mb' hc
              obtain ⟨rfl, _⟩ := hc.unique hr hl
              exact h
            · exact fun h => h mb ⟨r, more, hr, hl, hn⟩
          · apply iff_of_true
            · rw [(sendTo_full req pm.deadlockOne r (Nat.not_lt.mp hn)).1]
            · exact fun mb' hc => absurd (hc.unique hr hl).2 hn

/-! ### Two senders of one mailbox -/

theorem checksPass_full (hl : lookup r pm.mailboxFront = some mb) (hn : bufferSize ≤ mb.numMes)
    {reqs : List SendRequest} (hto : ∀ req ∈ reqs, req.receivers.head? = some r) :
    ChecksPass pm reqs := by
  induction reqs with
  | nil => exact trivial
  | cons req reqs ih =>
      obtain ⟨more, hr⟩ := List.head?_eq_some_iff.mp (hto req List.mem_cons_self)
      have hsame : (doMsend req pm).pm = pm := by
        rw [(doMsend_to hr pm).1, change_of_find hl, (sendTo_full req pm.deadlockOne r hn).1,
          change_self hl]
      constructor
      · exact fun mb' hc => absurd (hc.unique hr hl).2 (Nat.not_lt.mpr hn)
      · rw [hsame]
        exact ih fun req hm => hto req (List.mem_cons_of_mem _ hm)

/-- The mailbox behind an accepted send. -/
theorem lookup_accepted {more : List ℤ} (hr : req.receivers = r :: more)
    (hl : lookup r pm.mailboxFront = some mb) (hn : mb.numMes < bufferSize)
    (hs : req.ownerID ∈ mb.mbSender) :
    lookup r (doMsend req pm).pm.mailboxFront =
      some
        { mb with
          mbSender := mb.mbSender.dropWhile (· ≠ req.ownerID)
          mbList := mb.mbList ++ [req.tempML]
          numMes := mb.numMes + 1 } := by
  rw [(doMsend_to hr pm).1, lookup_change_same (sendTo_owner req pm.deadlockOne r) hl,
    (sendTo_accepted req pm.deadlockOne r hn hs).1]

/-- Of two senders in a list without duplicates, the walk to the one behind loses the other. -/
theorem dropWhile_ne_loses {l : List ℤ} (hnd : l.Nodup) {a b : ℤ} (hab : a ≠ b) :
    a ∉ l.dropWhile (· ≠ b) ∨ b ∉ l.dropWhile (· ≠ a) := by
  induction l with
  | nil => simp
  | cons first rest ih =>
      rw [List.nodup_cons] at hnd
      by_cases ha : first = a
      · left
        have hb : first ≠ b := fun h => hab (ha.symm.trans h)
        rw [List.dropWhile_cons_of_pos (by simpa using hb)]
        exact fun hm => hnd.1 (ha ▸ (List.dropWhile_sublist _).subset hm)
      · by_cases hb : first = b
        · right
          rw [List.dropWhile_cons_of_pos (by simpa using ha)]
          exact fun hm => hnd.1 (hb ▸ (List.dropWhile_sublist _).subset hm)
        · rw [List.dropWhile_cons_of_pos (by simpa using hb),
            List.dropWhile_cons_of_pos (by simpa using ha)]
          exact ih hnd.2

/-- Two permitted sends of which the first loses the sender of the second. -/
theorem not_checksPass {a b : ℤ} (hl : lookup r pm.mailboxFront = some mb)
    (hn : mb.numMes + 1 < bufferSize) (hb : b ∈ mb.mbSender)
    (ha : a ∉ mb.mbSender.dropWhile (· ≠ b)) :
    ¬ ChecksPass pm [testMsend b [] [r], testMsend a [] [r]] := by
  rintro ⟨_, hsecond, _⟩
  have hroom : mb.numMes < bufferSize := Nat.lt_of_succ_lt hn
  have hto : (testMsend b [] [r]).receivers = r :: [] := rfl
  have hl' := lookup_accepted hto hl hroom hb
  have hret := hsecond _ ⟨r, [], rfl, hl', hn⟩
  rw [(checkPermissions_spec _ _).2] at hret
  split_ifs at hret with hm
  exact ha hm

/-- The requests are sends to `r` by one of the two. -/
def SendsOf (r a b : ℤ) (reqs : List SendRequest) : Prop :=
  ∀ req ∈ reqs, req.receivers.head? = some r ∧ (req.ownerID = a ∨ req.ownerID = b)

/-- Sends of two permitted senders, in any order and number, pass all checks exactly when
at most one more message is let in. -/
theorem two_senders_iff {a b : ℤ} (hnd : mb.mbSender.Nodup)
    (hl : lookup r pm.mailboxFront = some mb) (ha : a ∈ mb.mbSender) (hb : b ∈ mb.mbSender)
    (hab : a ≠ b) :
    (∀ reqs, SendsOf r a b reqs → ChecksPass pm reqs) ↔ bufferSize ≤ mb.numMes + 1 := by
  have htest : ∀ x y, (x = a ∨ x = b) → (y = a ∨ y = b) →
      SendsOf r a b [testMsend x [] [r], testMsend y [] [r]] := by
    intro x y hx hy req hm
    rcases List.mem_cons.mp hm with rfl | hm
    · exact ⟨rfl, hx⟩
    · rw [List.mem_singleton.mp hm]
      exact ⟨rfl, hy⟩
  constructor
  · intro h
    by_contra hn
    have hroom := Nat.not_le.mp hn
    rcases dropWhile_ne_loses hnd hab with hlost | hlost
    · exact not_checksPass hl hroom hb hlost (h _ (htest b a (.inr rfl) (.inl rfl)))
    · exact not_checksPass hl hroom ha hlost (h _ (htest a b (.inl rfl) (.inr rfl)))
  · intro hn reqs hof
    by_cases hfull : bufferSize ≤ mb.numMes
    · exact checksPass_full hl hfull fun req hm => (hof req hm).1
    have hroom := Nat.not_le.mp hfull
    cases reqs with
    | nil => exact trivial
    | cons req reqs =>
        obtain ⟨hto, hwho⟩ := hof req List.mem_cons_self
        obtain ⟨more, hr⟩ := List.head?_eq_some_iff.mp hto
        have hs : req.ownerID ∈ mb.mbSender := by
          rcases hwho with hw | hw
          · exact hw ▸ ha
          · exact hw ▸ hb
        constructor
        · intro mb' hc
          obtain ⟨rfl, _⟩ := hc.unique hr hl
          rw [(checkPermissions_spec _ _).2, if_pos hs]
        · refine checksPass_full (lookup_accepted hr hl hroom hs) hn fun req hm => ?_
          exact (hof req (List.mem_cons_of_mem _ hm)).1

end Send

/-- In a reachable state, exactly when a send keeps the sender lists, and exactly when two
permitted senders of a mailbox cannot lose their permission by sending. -/
theorem sending_keeps_permissions_iff {pm : PM} (h : Reachable system pm) :
    (∀ req, senderLists (doMsend req pm).pm = senderLists pm ↔ KeepsSenders pm req) ∧
      ∀ r mb a b, lookup r pm.mailboxFront = some mb → a ∈ mb.mbSender → b ∈ mb.mbSender → a ≠ b →
        ((∀ reqs, SendsOf r a b reqs → ChecksPass pm reqs) ↔ bufferSize ≤ mb.numMes + 1) := by
  obtain ⟨history, hr⟩ := h
  constructor
  · exact fun req => senderLists_msend_iff req pm
  · intro r mb a b hl ha hb hab
    exact two_senders_iff (authorised hr mb (mem_of_find hl)).nodup hl ha hb hab

/-- The sends of two of three permitted senders. -/
theorem sending_keeps_permissions_iff_seven :
    (∀ req, senderLists (doMsend req ⟨[{ MailBox.fresh 7 with mbSender := [3, 4, 5] }], []⟩).pm =
        [(7, [3, 4, 5])] ↔
      KeepsSenders ⟨[{ MailBox.fresh 7 with mbSender := [3, 4, 5] }], []⟩ req) ∧
      ¬ ∀ reqs, SendsOf 7 3 5 reqs →
        ChecksPass ⟨[{ MailBox.fresh 7 with mbSender := [3, 4, 5] }], []⟩ reqs := by
  obtain ⟨hkeeps, hpass⟩ := sending_keeps_permissions_iff three_senders_reachable
  refine ⟨hkeeps, fun hall => ?_⟩
  have hfull := (hpass 7 _ 3 5 rfl (by decide) (by decide) (by decide)).mp hall
  exact absurd hfull (by decide)

/-- The second of two permitted senders sends, and the first is off the list. -/
theorem sending_keeps_permissions_fails :
    ¬ ∀ pm, Reachable system pm →
      (∀ req, senderLists (doMsend req pm).pm = senderLists pm) ∧
        ∀ r mb a b, lookup r pm.mailboxFront = some mb → a ∈ mb.mbSender → b ∈ mb.mbSender →
          ∀ reqs, SendsOf r a b reqs → ChecksPass pm reqs := by
  intro h
  have hr := (replay_run 0 [.createMailbox 1, .addSender 1 5, .addSender 1 6] .init rfl).reachable
  have hsame := (h _ hr).1 (testMsend 6 [] [1])
  have hbad : senderLists (doMsend (testMsend 6 [] [1])
      ⟨[{ MailBox.fresh 1 with mbSender := [5, 6] }], []⟩).pm ≠ [(1, [5, 6])] := by decide
  exact hbad hsame

end MinixOS.MailboxSenders
