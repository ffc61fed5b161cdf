import MinixOS.LoopExecution
import MinixOS.MailboxState

/-!
# Receiving

The function `do_mreceive` of mailbox.c. A record that an earlier receive of the
same process left in `deadlockOne` replaces the source and the address of the
request. The loop over mailboxes is kept as a loop: its body has no statement
that moves `cursor`, so whether it is ever left is part of what is to be proved.

The search for the message and the deletion of the message are separate walks
over the same list in the source, and separate recursions here.
-/
namespace MinixOS.MailboxReceive
open MailboxState LoopExecution

/-- A `do_mreceive` request. `copyOk` is the answer of the copy to the receiver. -/
structure ReceiveRequest where
  m1_i1 : ℤ
  ownerID : ℤ
  m1_p1 : ℕ
  who_e : ℤ
  copyOk : Bool
deriving DecidableEq, Repr

/-- The suspended list, `m_in.m1_i1` and `returnAddress` once the record of the
caller was looked for. -/
structure Resumed where
  deadlockOne : List ProcDeadlock
  m1_i1 : ℤ
  returnAddress : ℕ
deriving DecidableEq, Repr

/-- `while(temp->next!=NULL)`, run on `temp->next`. A found record is cut off together
with all records behind it, since `temp->next` is set to NULL after it was relinked. -/
def cutRecord (req : ReceiveRequest) : List ProcDeadlock → Resumed
  | [] => { deadlockOne := [], m1_i1 := req.m1_i1, returnAddress := req.m1_p1 }
  | next :: rest =>
      if next.deadlocked = req.ownerID then
        { deadlockOne := [], m1_i1 := next.deadlockedSource, returnAddress := next.procAddress }
      else
        let w := cutRecord req rest
        { w with deadlockOne := next :: w.deadlockOne }

/-- The part that deals with a deadlocked process. -/
def takeRecord (req : ReceiveRequest) : List ProcDeadlock → Resumed
  | [] => { deadlockOne := [], m1_i1 := req.m1_i1, returnAddress := req.m1_p1 }
  | temp :: rest =>
      if temp.deadlocked = req.ownerID then
        { deadlockOne := rest, m1_i1 := temp.deadlockedSource, returnAddress := temp.procAddress }
      else
        let w := cutRecord req rest
        { w with deadlockOne := temp :: w.deadlockOne }

/-- `while(tempML->next!=NULL)` of the search, run on `tempML->next`. -/
def searchNext (source : ℤ) : List MessageNode → Option MessageNode
  | [] => none
  | next :: rest => if next.sender = source then some next else searchNext source rest

/-- The node `sourceAddress` is taken from, or `none` when `found` stays 0. -/
def searchMessage (source : ℤ) : List MessageNode → Option MessageNode
  | [] => none
  | tempML :: rest => if tempML.sender = source then some tempML else searchNext source rest

/-- `while(tempML->next!=NULL)` of the deletion, from the first node on: the list the
head pointer is left at when `foundML` becomes 1. The test is made on `tempML`,
and the node that goes is `tempML->next`. -/
def deleteWalk (source : ℤ) : List MessageNode → Option (List MessageNode)
  | tempML :: prev :: rest =>
      if tempML.sender = source then some (tempML :: rest) else deleteWalk source (prev :: rest)
  | _ => none

/-- What the rest of the body leaves when the mailbox of the caller was found. -/
structure Reception where
  cursor : MailBox
  deadlockOne : List ProcDeadlock
  log : List Event
  value : ℤ

/-- The caller is put at the head of the suspended list and stopped. -/
def suspendCaller (req : ReceiveRequest) (w : Resumed) (cursor : MailBox) (log : List Event) :
    Reception :=
  let suspProc : ProcDeadlock :=
    { deadlocked := req.ownerID, deadlockedSource := w.m1_i1, procAddress := req.m1_p1 }
  { cursor := cursor
    deadlockOne := suspProc :: w.deadlockOne
    log := log ++
      [.sysStop req.who_e, .printf "No message in the mailbox, process suspended.\n"]
    value := -1 }

/-- The deletion of the message that was received. -/
def deleteMessage (w : Resumed) (cursor : MailBox) (log : List Event) : Reception :=
  match cursor.mbList with
  | tempML :: rest =>
      if w.m1_i1 = tempML.sender then
        { cursor := { cursor with mbList := rest }
          deadlockOne := w.deadlockOne
          log := log ++ [.printf "Deleting message.\n"]
          value := 1 }
      else
        match deleteWalk w.m1_i1 (tempML :: rest) with
        | some moved =>
            { cursor := { cursor with mbList := moved }
              deadlockOne := w.deadlockOne
              log := log ++ [.printf "Found message to delete. ", .printf "Message Deleted.\n"]
              value := 1 }
        | none =>
            { cursor := cursor
              deadlockOne := w.deadlockOne
              log := log ++ [.printf "Message not found.\n"]
              value := -1 }
  -- A message was found, so the list is not empty and control does not get here.
  | [] => { cursor := cursor, deadlockOne := w.deadlockOne, log := log, value := -1 }

/-- The body from the search for the message on. -/
def receiveFrom (req : ReceiveRequest) (w : Resumed) (cursor : MailBox) : Reception :=
  match searchMessage w.m1_i1 cursor.mbList with
  | none => suspendCaller req w cursor []
  | some message =>
      let located := [.printf s!"Found {w.m1_i1} sender.\n"]
      if w.m1_i1 = 0 then suspendCaller req w cursor located
      else
        let copied := located ++ [.sysDatacopyOut message req.who_e w.returnAddress req.copyOk]
        if req.copyOk then
          deleteMessage w cursor (copied ++ [.printf "Message Received.\n",
            .printf "Deleting message that was received from pending messages list.\n"])
        else
          { cursor := cursor
            deadlockOne := w.deadlockOne
            log := copied ++ [.printf "Error in the transfer from mailbox to process.\n"]
            value := -1 }

/-- One pass of `while(cursor!=NULL)`. The cursor is the position of its mailbox. -/
def receivePass (req : ReceiveRequest) (w : Resumed) (front : List MailBox) (cursor : ℕ) :
    Pass ℕ Outcome :=
  match front[cursor]? with
  | none => .leave { pm := ⟨front, w.deadlockOne⟩, log := [], ret := none }
  | some mb =>
      if mb.owner = req.ownerID then
        let r := receiveFrom req w mb
        .leave
          { pm := ⟨front.set cursor r.cursor, r.deadlockOne⟩
            log := .printf s!"Found {req.ownerID} mailbox.\n" :: r.log
            ret := some r.value }
      else .again cursor

def doMreceive (fuel : ℕ) (req : ReceiveRequest) (pm : PM) : Option Outcome :=
  match pm.mailboxFront with
  | [] => some { pm := pm, log := [.printf "Mailbox not set up.\n"], ret := some (-1) }
  | front => run (receivePass req (takeRecord req pm.deadlockOne) front) fuel 0

/-! ## Which message is found -/

/-- The source a receive waits for: the one in the suspended record of the caller if
there is a record, and the one in the request otherwise. -/
def awaitedSource (pm : PM) (req : ReceiveRequest) : ℤ :=
  match pm.deadlockOne.find? fun temp => temp.deadlocked = req.ownerID with
  | some temp => temp.deadlockedSource
  | none => req.m1_i1

theorem takeRecord_source (pm : PM) (req : ReceiveRequest) :
    (takeRecord req pm.deadlockOne).m1_i1 = awaitedSource pm req := by
  have hcut : ∀ l : List ProcDeadlock, (cutRecord req l).m1_i1 =
      match l.find? fun temp => temp.deadlocked = req.ownerID with
      | some temp => temp.deadlockedSource
      | none => req.m1_i1 := by
    intro l
    induction l with
    | nil => rfl
    | cons temp rest ih =>
        by_cases h : temp.deadlocked = req.ownerID <;> simp [cutRecord, h, ih]
  unfold awaitedSource
  cases pm.deadlockOne with
  | nil => rfl
  | cons temp rest =>
      by_cases h : temp.deadlocked = req.ownerID <;> simp [takeRecord, h, hcut]

theorem searchNext_eq (source : ℤ) (l : List MessageNode) :
    searchNext source l = l.find? fun node => node.sender = source := by
  induction l with
  | nil => rfl
  | cons next rest ih => by_cases h : next.sender = source <;> simp [searchNext, h, ih]

theorem searchMessage_eq (source : ℤ) (l : List MessageNode) :
    searchMessage source l = l.find? fun node => node.sender = source := by
  cases l with
  | nil => rfl
  | cons first rest =>
      by_cases h : first.sender = source <;> simp [searchMessage, h, searchNext_eq]

/-- The deletion tests every node but the last, and keeps the node it stops at. -/
theorem deleteWalk_behind {source : ℤ} {front : List MessageNode}
    (hf : ∀ node ∈ front, node.sender ≠ source) {message : MessageNode}
    (hm : message.sender = source) (next : MessageNode) (rest : List MessageNode) :
    deleteWalk source (front ++ message :: next :: rest) = some (message :: rest) := by
  induction front with
  | nil => simp [deleteWalk, hm]
  | cons first front ih =>
      have h : first.sender ≠ source := hf first List.mem_cons_self
      have ih' := ih fun node hn => hf node (List.mem_cons_of_mem _ hn)
      cases front with
      | nil => simpa [deleteWalk, h] using ih'
      | cons second front => simpa [deleteWalk, h] using ih'

theorem deleteWalk_last {source : ℤ} {front : List MessageNode}
    (hf : ∀ node ∈ front, node.sender ≠ source) (message : MessageNode) :
    deleteWalk source (front ++ [message]) = none := by
  induction front with
  | nil => simp [deleteWalk]
  | cons first front ih =>
      have h : first.sender ≠ source := hf first List.mem_cons_self
      have ih' := ih fun node hn => hf node (List.mem_cons_of_mem _ hn)
      cases front with
      | nil => simp [deleteWalk, h]
      | cons second front => simpa [deleteWalk, h] using ih'

/-! ## What one receive does to the message list -/

/-- The nodes whose text was copied out. -/
def copiedOut (log : List Event) : List MessageNode :=
  log.filterMap fun e =>
    match e with
    | .sysDatacopyOut source _ _ true => some source
    | _ => none

/-- `Receipt source ok l l' copied v`: asked for a message of `source`, the rest of the
call leaves the message list `l` as `l'`, copies out `copied` and returns `v`. -/
inductive Receipt (source : ℤ) (ok : Bool) :
    List MessageNode → List MessageNode → List MessageNode → ℤ → Prop
  | nothing {l : List MessageNode} (h : source = 0 ∨ ∀ node ∈ l, node.sender ≠ source) :
      Receipt source ok l l [] (-1)
  | failed {l : List MessageNode} (hs : source ≠ 0) (hok : ok = false) :
      Receipt source ok l l [] (-1)
  | first {message : MessageNode} {rest : List MessageNode} (hs : source ≠ 0) (hok : ok = true)
      (hm : message.sender = source) : Receipt source ok (message :: rest) rest [message] 1
  | behind {first : MessageNode} {front : List MessageNode} {message next : MessageNode}
      {rest : List MessageNode} (hs : source ≠ 0) (hok : ok = true)
      (hf : ∀ node ∈ first :: front, node.sender ≠ source) (hm : message.sender = source) :
      Receipt source ok (first :: front ++ message :: next :: rest) (message :: rest) [message] 1
  | last {first : MessageNode} {front : List MessageNode} {message : MessageNode}
      (hs : source ≠ 0) (hok : ok = true)
      (hf : ∀ node ∈ first :: front, node.sender ≠ source) (hm : message.sender = source) :
      Receipt source ok (first :: front ++ [message]) (first :: front ++ [message]) [message] (-1)

theorem Receipt.value {source v : ℤ} {ok : Bool} {l l' copied : List MessageNode}
    (h : Receipt source ok l l' copied v) : v = 1 ∨ v = -1 := by
  cases h <;> simp

/-- The part of the body behind the search only touches the message list of the
mailbox, in one of the five ways above. -/
theorem receiveFrom_receipt (req : ReceiveRequest) (w : Resumed) (mb : MailBox) :
    (receiveFrom req w mb).cursor =
        { mb with mbList := (receiveFrom req w mb).cursor.mbList } ∧
      Receipt w.m1_i1 req.copyOk mb.mbList (receiveFrom req w mb).cursor.mbList
        (copiedOut (receiveFrom req w mb).log) (receiveFrom req w mb).value := by
  cases hf : searchMessage w.m1_i1 mb.mbList with
  | none =>
      have hn := hf
      rw [searchMessage_eq, List.find?_eq_none] at hn
      simp only [receiveFrom, hf, suspendCaller]
      exact ⟨trivial, .nothing (.inr fun node hm => by simpa using hn node hm)⟩
  | some message =>
      by_cases hs : w.m1_i1 = 0
      · simp only [receiveFrom, hf, if_pos hs, suspendCaller]
        exact ⟨trivial, .nothing (.inl hs)⟩
      cases hok : req.copyOk with
      | false =>
          simp only [receiveFrom, hf, if_neg hs, hok]
          exact ⟨rfl, .failed hs rfl⟩
      | true =>
          have hd := hf
          rw [searchMessage_eq, List.find?_eq_some_iff_append] at hd
          obtain ⟨hm, front, rest, hl, hfront⟩ := hd
          replace hm : message.sender = w.m1_i1 := by simpa using hm
          replace hfront : ∀ node ∈ front, node.sender ≠ w.m1_i1 := by simpa using hfront
          obtain ⟨numMes, owner, senders, pending⟩ := mb
          dsimp only at hl hf
          subst hl
          cases front with
          | nil =>
              rw [List.nil_append] at hf ⊢
              simp only [receiveFrom, hf, if_neg hs, hok, if_true, deleteMessage, hm]
              exact ⟨trivial, .first hs rfl hm⟩
          | cons first front =>
              have hne : ¬ w.m1_i1 = first.sender := fun h =>
                hfront first List.mem_cons_self h.symm
              cases rest with
              | nil =>
                  have hw := deleteWalk_last hfront message
                  rw [List.cons_append] at hw hf
                  simp only [receiveFrom, List.cons_append, hf, if_neg hs, hok, if_true,
                    deleteMessage, if_neg hne, hw]
                  exact ⟨trivial, .last hs rfl hfront hm⟩
              | cons next rest =>
                  have hw := deleteWalk_behind hfront hm next rest
                  rw [List.cons_append] at hw hf
                  simp only [receiveFrom, List.cons_append, hf, if_neg hs, hok, if_true,
                    deleteMessage, if_neg hne, hw]
                  exact ⟨trivial, .behind hs rfl hfront hm⟩

/-! ## When the call returns -/

theorem doMreceive_empty {req : ReceiveRequest} {pm : PM} (hf : pm.mailboxFront = [])
    (fuel : ℕ) :
    doMreceive fuel req pm =
      some { pm := pm, log := [.printf "Mailbox not set up.\n"], ret := some (-1) } := by
  simp only [doMreceive, hf]

theorem doMreceive_found {req : ReceiveRequest} {pm : PM} {mb : MailBox} {rest : List MailBox}
    (hf : pm.mailboxFront = mb :: rest) (h : mb.owner = req.ownerID) (fuel : ℕ) :
    doMreceive (fuel + 1) req pm =
      let r := receiveFrom req (takeRecord req pm.deadlockOne) mb
      some
        { pm := ⟨r.cursor :: rest, r.deadlockOne⟩
          log := .printf s!"Found {req.ownerID} mailbox.\n" :: r.log
          ret := some r.value } := by
  simp only [doMreceive, hf, run, receivePass, List.getElem?_cons_zero, if_pos h,
    List.set_cons_zero]

/-- The cursor is not moved past a mailbox of another owner. -/
theorem doMreceive_stuck {req : ReceiveRequest} {pm : PM} {mb : MailBox} {rest : List MailBox}
    (hf : pm.mailboxFront = mb :: rest) (h : mb.owner ≠ req.ownerID) (fuel : ℕ) :
    doMreceive fuel req pm = none := by
  have hpass : receivePass req (takeRecord req pm.deadlockOne) (mb :: rest) 0 = .again 0 := by
    simp only [receivePass, List.getElem?_cons_zero, if_neg h]
  simp only [doMreceive, hf]
  exact diverges_of_again_self hpass fuel

/-- Everything a call that returns can have done. -/
theorem doMreceive_cases {fuel : ℕ} {req : ReceiveRequest} {pm : PM} {out : Outcome}
    (h : doMreceive fuel req pm = some out) :
    (pm.mailboxFront = [] ∧ out.pm = pm ∧ out.ret = some (-1) ∧ copiedOut out.log = []) ∨
    ∃ mb rest l v, pm.mailboxFront = mb :: rest ∧ mb.owner = req.ownerID ∧
      out.pm.mailboxFront = { mb with mbList := l } :: rest ∧ out.ret = some v ∧
      Receipt (takeRecord req pm.deadlockOne).m1_i1 req.copyOk mb.mbList l
        (copiedOut out.log) v := by
  cases hf : pm.mailboxFront with
  | nil =>
      rw [doMreceive_empty hf, Option.some.injEq] at h
      subst h
      exact .inl ⟨rfl, rfl, rfl, rfl⟩
  | cons mb rest =>
      by_cases ho : mb.owner = req.ownerID
      · cases fuel with
        | zero => simp [doMreceive, hf, run] at h
        | succ fuel =>
            rw [doMreceive_found hf ho, Option.some.injEq] at h
            subst h
            obtain ⟨hc, hr⟩ := receiveFrom_receipt req (takeRecord req pm.deadlockOne) mb
            refine .inr ⟨mb, rest, _, _, rfl, ho, ?_, rfl, hr⟩
            exact congrArg (· :: rest) hc
      · rw [doMreceive_stuck hf ho] at h
        exact absurd h (Option.some_ne_none out).symm

end MinixOS.MailboxReceive
