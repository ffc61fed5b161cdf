import MinixOS.MailboxDelivery

/-!
# The records of suspended processes

A receive that finds no message puts a record of its process at the head of
`deadlockOne`. The next receive of the process takes the record off, and asks for the
source and the address the record holds in place of its own.

The first record is taken off alone. A record that stands further back takes the
records behind it along, since the pointer that was moved past it is set to NULL.
-/
namespace MinixOS.MailboxSuspended
open SystemRuns KeyedLists MailboxState MailboxCalls MailboxReceive MailboxSystem MailboxDelivery

/-! ## Taking the record of the caller off -/

/-- `Taken req l w`: the part that deals with a deadlocked process leaves `w` of the list `l`. -/
inductive Taken (req : ReceiveRequest) : List ProcDeadlock → Resumed → Prop
  | nobody {l : List ProcDeadlock} (h : ∀ temp ∈ l, temp.deadlocked ≠ req.ownerID) :
      Taken req l ⟨l, req.m1_i1, req.m1_p1⟩
  | first {record : ProcDeadlock} {behind : List ProcDeadlock}
      (h : record.deadlocked = req.ownerID) :
      Taken req (record :: behind) ⟨behind, record.deadlockedSource, record.procAddress⟩
  | later {first record : ProcDeadlock} {before behind : List ProcDeadlock}
      (hb : ∀ temp ∈ first :: before, temp.deadlocked ≠ req.ownerID)
      (h : record.deadlocked = req.ownerID) :
      Taken req (first :: before ++ record :: behind)
        ⟨first :: before, record.deadlockedSource, record.procAddress⟩

theorem cutRecord_nobody {req : ReceiveRequest} {l : List ProcDeadlock}
    (h : ∀ temp ∈ l, temp.deadlocked ≠ req.ownerID) :
    cutRecord req l = ⟨l, req.m1_i1, req.m1_p1⟩ := by
  induction l with
  | nil => rfl
  | cons next rest ih =>
      rw [List.forall_mem_cons] at h
      simp only [cutRecord, if_neg h.1, ih h.2]

theorem cutRecord_found {req : ReceiveRequest} {before : List ProcDeadlock}
    (hb : ∀ temp ∈ before, temp.deadlocked ≠ req.ownerID) {record : ProcDeadlock}
    (h : record.deadlocked = req.ownerID) (behind : List ProcDeadlock) :
    cutRecord req (before ++ record :: behind) =
      ⟨before, record.deadlockedSource, record.procAddress⟩ := by
  induction before with
  | nil => simp only [List.nil_append, cutRecord, if_pos h]
  | cons next rest ih =>
      rw [List.forall_mem_cons] at hb
      simp only [List.cons_append, cutRecord, if_neg hb.1, ih hb.2]

theorem takeRecord_taken (req : ReceiveRequest) (l : List ProcDeadlock) :
    Taken req l (takeRecord req l) := by
  cases l with
  | nil => exact .nobody (fun _ h => absurd h List.not_mem_nil)
  | cons first rest =>
      by_cases hfirst : first.deadlocked = req.ownerID
      · rw [takeRecord, if_pos hfirst]
        exact .first hfirst
      rw [takeRecord, if_neg hfirst]
      cases hf : find ProcDeadlock.deadlocked req.ownerID rest with
      | none =>
          rw [find_eq_none] at hf
          rw [cutRecord_nobody hf]
          exact .nobody (List.forall_mem_cons.mpr ⟨hfirst, hf⟩)
      | some record =>
          have hr : record.deadlocked = req.ownerID := key_of_find hf
          rw [find, List.find?_eq_some_iff_append] at hf
          rcases hf with ⟨_, before, behind, rfl, hbefore⟩
          have hb : ∀ temp ∈ before, temp.deadlocked ≠ req.ownerID := by simpa using hbefore
          rw [cutRecord_found hb hr]
          exact .later (List.forall_mem_cons.mpr ⟨hfirst, hb⟩) hr

theorem Taken.sublist {req : ReceiveRequest} {l : List ProcDeadlock} {w : Resumed}
    (h : Taken req l w) : w.deadlockOne.Sublist l := by
  cases h with
  | nobody _ => exact List.Sublist.refl _
  | first _ => exact List.sublist_cons_self _ _
  | later _ _ => exact List.sublist_append_left _ _

/-! ## What a call does to the records -/

/-- The rest of the call puts at most a record of the caller at the head. -/
theorem receiveFrom_records (req : ReceiveRequest) (w : Resumed) (mb : MailBox) :
    (receiveFrom req w mb).deadlockOne = w.deadlockOne ∨
      (receiveFrom req w mb).value = -1 ∧
        (receiveFrom req w mb).deadlockOne =
          ⟨req.ownerID, w.m1_i1, req.m1_p1⟩ :: w.deadlockOne := by
  unfold receiveFrom
  cases searchMessage w.m1_i1 mb.mbList with
  | none => exact .inr ⟨rfl, rfl⟩
  | some message =>
      dsimp only
      split_ifs
      · exact .inr ⟨rfl, rfl⟩
      · left
        unfold deleteMessage
        cases mb.mbList with
        | nil => rfl
        | cons tempML rest =>
            dsimp only
            split_ifs
            · rfl
            · cases deleteWalk w.m1_i1 (tempML :: rest) <;> rfl
      · exact .inl rfl

/-- `RecordsLeft pm call ret l`: the call leaves the suspended list `l`. -/
inductive RecordsLeft (pm : PM) : Request → Option ℤ → List ProcDeadlock → Prop
  | same {call : Request} {ret : Option ℤ}
      (h : ∀ req, call = .mreceive req → pm.mailboxFront = []) :
      RecordsLeft pm call ret pm.deadlockOne
  | taken {req : ReceiveRequest} {ret : Option ℤ} (hf : pm.mailboxFront ≠ []) :
      RecordsLeft pm (.mreceive req) ret (takeRecord req pm.deadlockOne).deadlockOne
  | suspended {req : ReceiveRequest} (hf : pm.mailboxFront ≠ []) :
      RecordsLeft pm (.mreceive req) (some (-1))
        (⟨req.ownerID, awaitedSource pm req, req.m1_p1⟩ ::
          (takeRecord req pm.deadlockOne).deadlockOne)

theorem recordsLeft_mreceive {req : ReceiveRequest} {pm : PM} {out : Outcome} {fuel : ℕ}
    (h : doMreceive fuel req pm = some out) :
    RecordsLeft pm (.mreceive req) out.ret out.pm.deadlockOne := by
  cases hf : pm.mailboxFront with
  | nil =>
      have hout := Option.some.inj ((doMreceive_empty hf fuel).symm.trans h)
      rw [← hout]
      exact .same fun _ _ => hf
  | cons mb rest =>
      have hne : pm.mailboxFront ≠ [] := by
        rw [hf]
        exact List.cons_ne_nil mb rest
      by_cases ho : mb.owner = req.ownerID
      · cases fuel with
        | zero => simp [doMreceive, hf, LoopExecution.run] at h
        | succ fuel =>
            have hout := Option.some.inj ((doMreceive_found hf ho fuel).symm.trans h)
            rw [← hout]
            rcases receiveFrom_records req (takeRecord req pm.deadlockOne) mb with hl | ⟨hv, hl⟩
            · dsimp only
              rw [hl]
              exact .taken hne
            · dsimp only
              rw [hl, hv, takeRecord_source]
              exact .suspended hne
      · exact absurd ((doMreceive_stuck hf ho fuel).symm.trans h) (by simp)

/-- The other calls leave the list as it is. -/
theorem recordsLeft_other {call : Request} {pm : PM} {ret : Option ℤ} {l : List ProcDeadlock}
    (hl : l = pm.deadlockOne) (hcall : ∀ req, call ≠ .mreceive req) :
    RecordsLeft pm call ret l := by
  rw [hl]
  exact .same fun req he => absurd he (hcall req)

theorem recordsLeft_of_returns {call : Request} {pm : PM} {out : Outcome}
    (h : Returns call pm out) : RecordsLeft pm call out.ret out.pm.deadlockOne := by
  rcases h with ⟨fuel, h⟩
  cases call with
  | mreceive req => exact recordsLeft_mreceive h
  | createMailbox o =>
      have hout := Option.some.inj h
      have hpm : (doCreateMailbox o pm).pm.deadlockOne = pm.deadlockOne := by
        by_cases hl : lookup o pm.mailboxFront = none
        · rw [(doCreateMailbox_new hl).1]
        · rw [(doCreateMailbox_exists hl).1]
      rw [← hout]
      exact recordsLeft_other hpm fun _ => Request.noConfusion
  | removeMailbox o =>
      have hout := Option.some.inj h
      have hpm : (doRemoveMailbox o pm).pm.deadlockOne = pm.deadlockOne := by
        rw [(doRemoveMailbox_spec o pm).1]
      rw [← hout]
      exact recordsLeft_other hpm fun _ => Request.noConfusion
  | addSender o id =>
      have hout := Option.some.inj h
      have hpm : (doAddSender o id pm).pm.deadlockOne = pm.deadlockOne := by
        rw [doAddSender_pm]
      rw [← hout]
      exact recordsLeft_other hpm fun _ => Request.noConfusion
  | removeSender o id =>
      have hout := Option.some.inj h
      have hpm : (doRemoveSender o id pm).pm.deadlockOne = pm.deadlockOne := by
        rw [doRemoveSender_pm]
      rw [← hout]
      exact recordsLeft_other hpm fun _ => Request.noConfusion
  | msend req =>
      have hout := Option.some.inj h
      have hpm : (doMsend req pm).pm.deadlockOne = pm.deadlockOne := by
        cases hr : req.receivers with
        | nil => rw [(doMsend_nobody hr pm).1]
        | cons o more => rw [(doMsend_to hr pm).1]
      rw [← hout]
      exact recordsLeft_other hpm fun _ => Request.noConfusion

/-! ## One record for each process -/

/-- No process has two records. -/
def OneRecordEach (l : List ProcDeadlock) : Prop := (l.map ProcDeadlock.deadlocked).Nodup

theorem OneRecordEach.sublist {l l' : List ProcDeadlock} (h : OneRecordEach l)
    (hs : l'.Sublist l) : OneRecordEach l' :=
  List.Nodup.sublist (hs.map ProcDeadlock.deadlocked) h

/-- Once its record is taken off, the caller has none. -/
theorem Taken.caller_gone {req : ReceiveRequest} {l : List ProcDeadlock} {w : Resumed}
    (h : Taken req l w) (hone : OneRecordEach l) :
    ∀ temp ∈ w.deadlockOne, temp.deadlocked ≠ req.ownerID := by
  cases h with
  | nobody h => exact h
  | first h =>
      intro temp hm he
      unfold OneRecordEach at hone
      rw [List.map_cons, List.nodup_cons] at hone
      exact hone.1 (List.mem_map.mpr ⟨temp, hm, he.trans h.symm⟩)
  | later hb _ => exact hb

theorem RecordsLeft.oneRecordEach {pm : PM} {call : Request} {ret : Option ℤ}
    {l : List ProcDeadlock} (h : RecordsLeft pm call ret l) (hone : OneRecordEach pm.deadlockOne) :
    OneRecordEach l := by
  cases h with
  | same _ => exact hone
  | taken _ => exact hone.sublist (takeRecord_taken _ _).sublist
  | @suspended req _ =>
      have ht := takeRecord_taken req pm.deadlockOne
      have hrest := hone.sublist ht.sublist
      unfold OneRecordEach at hrest ⊢
      rw [List.map_cons, List.nodup_cons]
      constructor
      · intro hm
        rcases List.mem_map.mp hm with ⟨temp, hmem, he⟩
        exact ht.caller_gone hone temp hmem he
      · exact hrest

theorem oneRecordEach {pm : PM} (h : Reachable system pm) : OneRecordEach pm.deadlockOne := by
  rcases h with ⟨history, hr⟩
  induction hr with
  | init => exact List.nodup_nil
  | call _ hs ih => exact (recordsLeft_of_returns hs).oneRecordEach ih

/-! ## The records of the other processes -/

/-- The records of the processes other than `o`, in their order. -/
def othersOf (o : ℤ) (l : List ProcDeadlock) : List ProcDeadlock :=
  l.filter fun temp => temp.deadlocked ≠ o

theorem othersOf_eq_self {o : ℤ} {l : List ProcDeadlock}
    (h : ∀ temp ∈ l, temp.deadlocked ≠ o) : othersOf o l = l :=
  List.filter_eq_self.mpr fun temp hm => decide_eq_true (h temp hm)

theorem othersOf_own {o : ℤ} {record : ProcDeadlock} (h : record.deadlocked = o)
    (l : List ProcDeadlock) : othersOf o (record :: l) = othersOf o l :=
  List.filter_cons_of_neg (by simp [h])

theorem othersOf_append (o : ℤ) (l l' : List ProcDeadlock) :
    othersOf o (l ++ l') = othersOf o l ++ othersOf o l' := List.filter_append l l'

/-- The records of the processes other than `o` are kept in their order, and no process
has two. -/
structure RecordsKept (o : ℤ) (pm pm' : PM) : Prop where
  others : othersOf o pm'.deadlockOne = othersOf o pm.deadlockOne
  single : OneRecordEach pm'.deadlockOne

/-- The record of `o` is neither the first of the list nor the last. -/
def InTheMiddle (o : ℤ) (l : List ProcDeadlock) : Prop :=
  ∃ first before record next behind,
    l = first :: before ++ record :: next :: behind ∧ record.deadlocked = o

/-- The records behind the record of the caller, if that is not the first, are all that
is lost. -/
theorem Taken.others_iff {req : ReceiveRequest} {l : List ProcDeadlock} {w : Resumed}
    (h : Taken req l w) (hone : OneRecordEach l) :
    othersOf req.ownerID w.deadlockOne = othersOf req.ownerID l ↔
      ¬ InTheMiddle req.ownerID l := by
  cases h with
  | nobody h =>
      apply iff_of_true rfl
      rintro ⟨first, before, record, next, behind, rfl, hr⟩
      exact h record (by simp) hr
  | @first record behind h =>
      apply iff_of_true (othersOf_own h behind).symm
      rintro ⟨first, before, second, next, rest, hl, hs⟩
      rw [List.cons_append, List.cons.injEq] at hl
      have htaken : Taken req (record :: behind)
          ⟨behind, record.deadlockedSource, record.procAddress⟩ := .first h
      have hgone := htaken.caller_gone hone second
      refine hgone ?_ hs
      simp [hl.2]
  | @later first record before behind hb h =>
      rw [othersOf_append, othersOf_own h, othersOf_eq_self hb]
      have hbehind : ∀ temp ∈ behind, temp.deadlocked ≠ req.ownerID := by
        intro temp hm he
        unfold OneRecordEach at hone
        rw [List.map_append, List.map_cons] at hone
        have hnot := (List.nodup_cons.mp (List.Nodup.of_append_right hone)).1
        exact hnot (List.mem_map.mpr ⟨temp, hm, he.trans h.symm⟩)
      rw [othersOf_eq_self hbehind, List.self_eq_append_right]
      constructor
      · rintro rfl ⟨first', before', record', next, rest, hl, hr⟩
        have hlast : record' ∈ (first :: before ++ [record]).dropLast := by
          rw [hl, List.dropLast_append_cons]
          simp
        rw [List.dropLast_concat] at hlast
        exact hb record' hlast hr
      · intro hmiddle
        cases behind with
        | nil => rfl
        | cons next rest => exact absurd ⟨first, before, record, next, rest, rfl, h⟩ hmiddle

/-- A receive keeps the records of the other processes exactly when there is no mailbox to
look at, or the record of the caller, if there is one, is the first or the last. -/
theorem records_kept_iff {pm : PM} (hr : Reachable system pm) {req : ReceiveRequest}
    {out : Outcome} (h : Returns (.mreceive req) pm out) :
    RecordsKept req.ownerID pm out.pm ↔
      pm.mailboxFront = [] ∨ ¬ InTheMiddle req.ownerID pm.deadlockOne := by
  have hone := oneRecordEach hr
  have hl := recordsLeft_of_returns h
  have hsingle := hl.oneRecordEach hone
  have hothers : othersOf req.ownerID out.pm.deadlockOne =
      othersOf req.ownerID pm.deadlockOne ↔
        pm.mailboxFront = [] ∨ ¬ InTheMiddle req.ownerID pm.deadlockOne := by
    have ht := (takeRecord_taken req pm.deadlockOne).others_iff hone
    generalize hcall : Request.mreceive req = call at hl
    generalize out.ret = ret at hl
    generalize out.pm.deadlockOne = l at hl ⊢
    cases hl with
    | same hf => exact iff_of_true rfl (.inl (hf req hcall.symm))
    | taken hf =>
        cases hcall
        rw [ht, or_iff_right hf]
    | suspended hf =>
        cases hcall
        have hrecord : (⟨req.ownerID, awaitedSource pm req, req.m1_p1⟩ :
            ProcDeadlock).deadlocked = req.ownerID := rfl
        rw [othersOf_own hrecord, ht, or_iff_right hf]
  constructor
  · intro hkept
    exact hothers.mp hkept.others
  · intro hcond
    exact ⟨hothers.mpr hcond, hsingle⟩

/-- Three owners are suspended one after the other, each as the first of the list. -/
theorem records_kept_iff_three :
    ∃ pm out, Reachable system pm ∧ Returns (.mreceive (testMreceive 3 9 0)) pm out ∧
      pm.deadlockOne.length = 3 ∧
      (RecordsKept 3 pm out.pm ↔
        pm.mailboxFront = [] ∨ ¬ InTheMiddle 3 pm.deadlockOne) := by
  have hr : Reachable system
      ⟨[MailBox.fresh 3], [⟨3, 9, 0⟩, ⟨2, 9, 0⟩, ⟨1, 9, 0⟩]⟩ :=
    (replay_run 1
      [.createMailbox 1, .mreceive (testMreceive 1 9 0), .removeMailbox 1,
        .createMailbox 2, .mreceive (testMreceive 2 9 0), .removeMailbox 2,
        .createMailbox 3, .mreceive (testMreceive 3 9 0)] .init rfl).reachable
  have hret : Returns (.mreceive (testMreceive 3 9 0))
      ⟨[MailBox.fresh 3], [⟨3, 9, 0⟩, ⟨2, 9, 0⟩, ⟨1, 9, 0⟩]⟩ _ := ⟨1, rfl⟩
  exact ⟨_, _, hr, hret, rfl, records_kept_iff hr hret⟩

/-- The second of three suspended owners is asked again, and the record of the third is lost. -/
theorem records_kept_fails :
    ¬ ∀ pm, Reachable system pm → ∀ req out, Returns (.mreceive req) pm out →
      RecordsKept req.ownerID pm out.pm := by
  intro h
  have hr := (replay_run 1
    [.createMailbox 1, .mreceive (testMreceive 1 9 0), .removeMailbox 1,
      .createMailbox 2, .mreceive (testMreceive 2 9 0), .removeMailbox 2,
      .createMailbox 3, .mreceive (testMreceive 3 9 0), .removeMailbox 3,
      .createMailbox 2] .init rfl).reachable
  have hkept := (h _ hr (testMreceive 2 9 0) _ ⟨1, rfl⟩).others
  exact absurd (congrArg List.length hkept) (by decide)

/-! ## What is copied, and where -/

/-- The address a receive copies to: the one in the suspended record of the caller if
there is a record, and the one in the request otherwise. -/
def awaitedAddress (pm : PM) (req : ReceiveRequest) : ℕ :=
  match pm.deadlockOne.find? fun temp => temp.deadlocked = req.ownerID with
  | some temp => temp.procAddress
  | none => req.m1_p1

/-- The messages that were copied to the receiver, each with its address. -/
def copiedTo (log : List Event) : List (MessageNode × ℕ) :=
  log.filterMap fun e =>
    match e with
    | .sysDatacopyOut source _ address true => some (source, address)
    | _ => none

/-- One message was copied out. It is from `source`, and went to `address`. -/
def DeliversFrom (source : ℤ) (address : ℕ) (out : Outcome) : Prop :=
  ∃ message, copiedTo out.log = [(message, address)] ∧ message.sender = source

theorem takeRecord_address (pm : PM) (req : ReceiveRequest) :
    (takeRecord req pm.deadlockOne).returnAddress = awaitedAddress pm req := by
  have ht := takeRecord_taken req pm.deadlockOne
  generalize takeRecord req pm.deadlockOne = w at ht
  unfold awaitedAddress
  generalize pm.deadlockOne = l at ht
  cases ht with
  | nobody h =>
      have hf : l.find? (fun temp => temp.deadlocked = req.ownerID) = none := by simpa using h
      rw [hf]
  | first h => rw [List.find?_cons_of_pos (by simp [h])]
  | later hb h =>
      rw [List.find?_append, List.find?_eq_none.mpr (by simpa using hb), Option.none_or,
        List.find?_cons_of_pos (by simp [h])]

theorem copiedTo_append (log log' : List Event) :
    copiedTo (log ++ log') = copiedTo log ++ copiedTo log' := List.filterMap_append

/-- The deletion copies nothing. -/
theorem deleteMessage_copied (w : Resumed) (mb : MailBox) (log : List Event) :
    copiedTo (deleteMessage w mb log).log = copiedTo log := by
  unfold deleteMessage
  cases mb.mbList with
  | nil => rfl
  | cons tempML rest =>
      dsimp only
      split_ifs
      · rw [copiedTo_append]
        exact List.append_nil _
      · cases deleteWalk w.m1_i1 (tempML :: rest) with
        | none =>
            dsimp only
            rw [copiedTo_append]
            exact List.append_nil _
        | some moved =>
            dsimp only
            rw [copiedTo_append]
            exact List.append_nil _

/-- The rest of the call, when it returns 1, has made one copy. -/
theorem receiveFrom_copied {req : ReceiveRequest} {w : Resumed} {mb : MailBox}
    (h : (receiveFrom req w mb).value = 1) :
    ∃ message, copiedTo (receiveFrom req w mb).log = [(message, w.returnAddress)] ∧
      message.sender = w.m1_i1 := by
  unfold receiveFrom at h ⊢
  cases hf : searchMessage w.m1_i1 mb.mbList with
  | none => simp [hf, suspendCaller] at h
  | some message =>
      rw [searchMessage_eq] at hf
      have hm : message.sender = w.m1_i1 := by simpa using List.find?_some hf
      simp only [searchMessage_eq, hf] at h ⊢
      split_ifs at h ⊢ with hs hok
      · simp [suspendCaller] at h
      · refine ⟨message, ?_, hm⟩
        rw [deleteMessage_copied, copiedTo_append, hok]
        rfl
      · simp at h

/-- A receive that returns 1 has copied out one message. It is of the awaited source, and
went to the awaited address. -/
theorem delivers_awaited {pm : PM} {req : ReceiveRequest} {out : Outcome}
    (h : Returns (.mreceive req) pm out) (h1 : out.ret = some 1) :
    DeliversFrom (awaitedSource pm req) (awaitedAddress pm req) out := by
  rcases h with ⟨fuel, h⟩
  rw [← takeRecord_source, ← takeRecord_address]
  cases hf : pm.mailboxFront with
  | nil =>
      have hout := Option.some.inj ((doMreceive_empty hf fuel).symm.trans h)
      rw [← hout] at h1
      exact absurd (Option.some.inj h1) (by decide)
  | cons mb rest =>
      by_cases ho : mb.owner = req.ownerID
      · cases fuel with
        | zero => simp [execute, doMreceive, hf, LoopExecution.run] at h
        | succ fuel =>
            have hout := Option.some.inj ((doMreceive_found hf ho fuel).symm.trans h)
            rw [← hout] at h1 ⊢
            exact receiveFrom_copied (Option.some.inj h1)
      · exact absurd ((doMreceive_stuck hf ho fuel).symm.trans h) (by simp)

/-- A record holds the address of an earlier receive of its process, and the source that
receive waited for. -/
def LeftByReceive (history : List Call) (record : ProcDeadlock) : Prop :=
  ∃ e ∈ history, ∃ req, e.call = .mreceive req ∧ e.answer.ret = some (-1) ∧
    record = ⟨req.ownerID, awaitedSource e.before req, req.m1_p1⟩

theorem leftByReceive_run {history : List Call} {pm : PM} (h : Run system history pm) :
    ∀ record ∈ pm.deadlockOne, LeftByReceive history record := by
  induction h with
  | init => exact fun record hm => absurd hm List.not_mem_nil
  | @call history pm pm' call answer hr hs ih =>
      have hold : ∀ record ∈ pm.deadlockOne,
          LeftByReceive (⟨pm, call, answer, pm'⟩ :: history) record := by
        intro record hm
        rcases ih record hm with ⟨e, he, hleft⟩
        exact ⟨e, List.mem_cons_of_mem _ he, hleft⟩
      have hl := recordsLeft_of_returns hs
      dsimp only at hl
      generalize hret : answer.ret = ret at hl
      generalize pm'.deadlockOne = l at hl
      intro record hm
      cases hl with
      | same _ => exact hold record hm
      | taken _ => exact hold record ((takeRecord_taken _ _).sublist.subset hm)
      | @suspended req _ =>
          rcases List.mem_cons.mp hm with rfl | hm
          · exact ⟨_, List.mem_cons_self, req, rfl, hret, rfl⟩
          · exact hold record ((takeRecord_taken _ _).sublist.subset hm)

/-- In every run, a receive that returns 1 has copied out one message. Without a record of the
caller it is from the source of the request and went to the address of the request. With a
record, the source and the address are the ones of the record, which an earlier receive of
the same process left. -/
theorem receive_faithful {history : List Call} {pm : PM} (hr : Run system history pm)
    {req : ReceiveRequest} {out : Outcome} (h : Returns (.mreceive req) pm out)
    (h1 : out.ret = some 1) :
    ((∀ record ∈ pm.deadlockOne, record.deadlocked ≠ req.ownerID) →
      DeliversFrom req.m1_i1 req.m1_p1 out) ∧
    ∀ record ∈ pm.deadlockOne, record.deadlocked = req.ownerID →
      DeliversFrom record.deadlockedSource record.procAddress out ∧
        LeftByReceive history record := by
  have hdelivers := delivers_awaited h h1
  constructor
  · intro hnobody
    have hfind : pm.deadlockOne.find? (fun temp => temp.deadlocked = req.ownerID) = none := by
      simpa using hnobody
    simpa only [awaitedSource, awaitedAddress, hfind] using hdelivers
  · intro record hm ho
    refine ⟨?_, leftByReceive_run hr record hm⟩
    have hfind := find_of_mem (oneRecordEach hr.reachable) hm
    rw [ho] at hfind
    unfold find at hfind
    simpa only [awaitedSource, awaitedAddress, hfind] using hdelivers

/-- The mailbox of 1 after it was suspended waiting for 2 and 2 has sent. -/
def resumable : PM :=
  ⟨[⟨1, 1, [2], [(testMsend 2 [104, 105] [1]).tempML]⟩], [⟨1, 2, 7⟩]⟩

theorem resumable_run : ∃ history, Run system history resumable :=
  ⟨_, replay_run 1
    [.createMailbox 1, .addSender 1 2, .mreceive (testMreceive 1 2 7),
      .msend (testMsend 2 [104, 105] [1])] .init rfl⟩

theorem receive_faithful_one :
    ∃ history out, Run system history resumable ∧
      Returns (.mreceive (testMreceive 1 3 0)) resumable out ∧
      ((∀ record ∈ resumable.deadlockOne, record.deadlocked ≠ 1) → DeliversFrom 3 0 out) ∧
      ∀ record ∈ resumable.deadlockOne, record.deadlocked = 1 →
        DeliversFrom record.deadlockedSource record.procAddress out ∧
          LeftByReceive history record := by
  rcases resumable_run with ⟨history, hr⟩
  have hret : Returns (.mreceive (testMreceive 1 3 0)) resumable _ := ⟨1, rfl⟩
  exact ⟨history, _, hr, hret, receive_faithful hr hret rfl⟩

/-- Asked for a message of 3 at address 0, the process gets the one of 2 at address 7. -/
theorem request_not_faithful :
    ¬ ∀ pm, Reachable system pm → ∀ req out, Returns (.mreceive req) pm out →
      out.ret = some 1 → DeliversFrom req.m1_i1 req.m1_p1 out := by
  intro h
  rcases h _ resumable_run (testMreceive 1 3 0) _ ⟨1, rfl⟩ rfl with ⟨message, hcopied, _⟩
  have haddress : [7] = [0] := congrArg (List.map Prod.snd) hcopied
  exact absurd haddress (by decide)

end MinixOS.MailboxSuspended
