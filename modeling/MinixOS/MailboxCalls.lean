import MinixOS.MailboxState
import Mathlib.Data.List.TakeWhile

/-!
# Creating, removing, permitting and sending

The functions `do_createMailbox`, `do_removeMailbox`, `do_addSender`,
`do_removeSender`, `checkPermissions` and `do_msend` of mailbox.c. Each one takes
the fields of `m_in` it reads and the globals, and returns the globals it leaves,
what it printed and asked of the kernel, and its value.

A loop that runs along a list until it returns is a recursion on the list. Where
the source walks a list by moving the list's own head pointer, the list after the
walk is the part from the moved pointer on.
-/
namespace MinixOS.MailboxCalls
open MailboxState KeyedLists

/-! ## Creating and removing a mailbox -/

/-- `while(cursor->next!=NULL)` of `do_createMailbox`, run on `cursor->next`. -/
def mailboxExists (ownerID : ℤ) : List MailBox → Bool
  | [] => false
  | next :: rest => if next.owner = ownerID then true else mailboxExists ownerID rest

def doCreateMailbox (ownerID : ℤ) (pm : PM) : Outcome :=
  match pm.mailboxFront with
  | [] =>
      { pm := { pm with mailboxFront := [MailBox.fresh ownerID] }
        log := [.printf "Creating new mailbox and creating new list.\n"]
        ret := some 1 }
  | cursor :: rest =>
      if cursor.owner = ownerID then
        { pm := pm, log := [.printf "Mailbox already exists.\n"], ret := some (-1) }
      else if mailboxExists ownerID rest then
        { pm := pm, log := [.printf "Mailbox already exists.\n"], ret := some (-1) }
      else
        { pm := { pm with mailboxFront := cursor :: (rest ++ [MailBox.fresh ownerID]) }
          log := [.printf "Creating new mailbox to add to list.\n"]
          ret := some 1 }

/-- `while(temp->next!=NULL)` of `do_removeMailbox`, run on `temp->next`: the rest
of the list with the found mailbox unlinked, or `none` when `found` stays 0. -/
def unlinkMailbox (ownerID : ℤ) : List MailBox → Option (List MailBox)
  | [] => none
  | next :: rest =>
      if next.owner = ownerID then some rest
      else (unlinkMailbox ownerID rest).map (next :: ·)

def doRemoveMailbox (ownerID : ℤ) (pm : PM) : Outcome :=
  match pm.mailboxFront with
  | [] => { pm := pm, log := [.printf "No mailbox to remove\n"], ret := some (-1) }
  | cursor :: rest =>
      if cursor.owner = ownerID then
        { pm := { pm with mailboxFront := rest }
          log := [.printf s!"Removing Mailbox {cursor.owner}.\n"]
          ret := some 1 }
      else
        match unlinkMailbox ownerID rest with
        | some rest' =>
            { pm := { pm with mailboxFront := cursor :: rest' }
              log := [.printf s!"Removing Mailbox {ownerID}.\n"]
              ret := some 1 }
        | none => { pm := pm, log := [.printf "Mailbox not found.\n"], ret := some (-1) }

theorem mailboxExists_iff {o : ℤ} {l : List MailBox} :
    mailboxExists o l = true ↔ lookup o l ≠ none := by
  induction l with
  | nil => simp [mailboxExists]
  | cons next rest ih =>
      by_cases h : next.owner = o
      · simp [mailboxExists, h]
      · simpa [mailboxExists, h] using ih

theorem unlinkMailbox_eq (o : ℤ) (l : List MailBox) :
    unlinkMailbox o l = (lookup o l).map fun _ => remove MailBox.owner o l := by
  induction l with
  | nil => rfl
  | cons next rest ih =>
      by_cases h : next.owner = o
      · simp [unlinkMailbox, remove, h]
      · simp [unlinkMailbox, remove, h, ih, Option.map_map, Function.comp_def]

theorem doCreateMailbox_new {o : ℤ} {pm : PM} (h : lookup o pm.mailboxFront = none) :
    (doCreateMailbox o pm).pm =
        { pm with mailboxFront := pm.mailboxFront ++ [MailBox.fresh o] } ∧
      (doCreateMailbox o pm).ret = some 1 := by
  unfold doCreateMailbox
  cases hf : pm.mailboxFront with
  | nil => exact ⟨rfl, rfl⟩
  | cons cursor rest =>
      rw [hf, find_eq_none] at h
      have hc : cursor.owner ≠ o := h cursor List.mem_cons_self
      have hr : ¬ mailboxExists o rest = true := by
        rw [mailboxExists_iff, not_not, find_eq_none]
        exact fun a ha => h a (List.mem_cons_of_mem _ ha)
      simp [hc, hr]

theorem doCreateMailbox_exists {o : ℤ} {pm : PM} (h : lookup o pm.mailboxFront ≠ none) :
    (doCreateMailbox o pm).pm = pm ∧ (doCreateMailbox o pm).ret = some (-1) := by
  unfold doCreateMailbox
  cases hf : pm.mailboxFront with
  | nil => simp [hf] at h
  | cons cursor rest =>
      by_cases hc : cursor.owner = o
      · simp only [if_pos hc, and_self]
      · have hr : mailboxExists o rest = true := by
          rw [mailboxExists_iff]
          simpa [hf, hc] using h
        simp only [if_neg hc, if_pos hr, and_self]

theorem doRemoveMailbox_spec (o : ℤ) (pm : PM) :
    (doRemoveMailbox o pm).pm =
        { pm with mailboxFront := remove MailBox.owner o pm.mailboxFront } ∧
      (doRemoveMailbox o pm).ret =
        if lookup o pm.mailboxFront = none then some (-1) else some 1 := by
  obtain ⟨front, suspended⟩ := pm
  cases front with
  | nil => exact ⟨rfl, rfl⟩
  | cons cursor rest =>
      by_cases hc : cursor.owner = o
      · simp [doRemoveMailbox, remove, hc]
      · simp only [doRemoveMailbox, if_neg hc, unlinkMailbox_eq, remove, find_cons]
        cases hl : lookup o rest with
        | none => simp [remove_of_find_none hl, hl]
        | some mb => simp [hl]

/-! ## The walk to the mailbox of an owner -/

/-- How control leaves a statement: at its end, by `return`, or by `break`. -/
inductive Control where
  | next
  | ret (value : ℤ)
  | brk
deriving DecidableEq, Repr

/-- The effect of a statement on the mailbox under the cursor. -/
structure Block where
  cursor : MailBox
  log : List Event
  control : Control

/-- The effect of a loop over mailboxes on the part of the list it started at. -/
structure Walk where
  front : List MailBox
  log : List Event
  control : Control

/-- `while(cursor!=NULL)`: `body` runs at each mailbox of the owner, and where control
gets to the end of the body, or the owner is another, `cursor=cursor->next`. -/
def whileCursor (ownerID : ℤ) (body : MailBox → Block) : List MailBox → Walk
  | [] => { front := [], log := [], control := .next }
  | cursor :: next =>
      if cursor.owner = ownerID then
        let b := body cursor
        match b.control with
        | .next =>
            let w := whileCursor ownerID body next
            { front := b.cursor :: w.front, log := b.log ++ w.log, control := w.control }
        | c => { front := b.cursor :: next, log := b.log, control := c }
      else
        let w := whileCursor ownerID body next
        { w with front := cursor :: w.front }

/-- The value of a function that ends in `return -1` after its loop. -/
def Control.valueOrError : Control → ℤ
  | .ret v => v
  | _ => -1

/-- A body that never runs on to `cursor=cursor->next` acts on the first mailbox of
the owner only. -/
theorem whileCursor_spec {o : ℤ} {body : MailBox → Block}
    (hb : ∀ mb, (body mb).control ≠ .next) (l : List MailBox) :
    whileCursor o body l =
      { front := change MailBox.owner o (fun mb => (body mb).cursor) l
        log := ((lookup o l).map fun mb => (body mb).log).getD []
        control := ((lookup o l).map fun mb => (body mb).control).getD .next } := by
  induction l with
  | nil => rfl
  | cons cursor next ih =>
      by_cases hc : cursor.owner = o
      · simp only [whileCursor, if_pos hc, change, find_cons, Option.map_some, Option.getD_some]
        split
        · exact absurd ‹_› (hb cursor)
        · rfl
      · simp only [whileCursor, if_neg hc, change, find_cons, ih]

/-! ## The allowed senders of a mailbox -/

/-- `while(cursor->mbSender->next!=NULL)` of `do_addSender`, run on what follows the
first sender. The found sender is where the head pointer then stands. -/
def senderExists (id : ℤ) : List ℤ → Option (List ℤ)
  | [] => none
  | next :: rest => if next = id then some (next :: rest) else senderExists id rest

def addSenderTo (id : ℤ) (cursor : MailBox) : Block :=
  match cursor.mbSender with
  | [] =>
      { cursor := { cursor with mbSender := [id] }
        log := [.printf "Creating new SenderList and adding sender to it.\n"]
        control := .ret 1 }
  | first :: rest =>
      if first = id then
        { cursor := cursor
          log := [.printf "Adding sender to end of list.\n", .printf "Sender already exists.\n"]
          control := .ret (-1) }
      else
        match senderExists id rest with
        | some moved =>
            { cursor := { cursor with mbSender := moved }
              log := [.printf "Adding sender to end of list.\n", .printf "Sender already exists.\n"]
              control := .ret (-1) }
        | none =>
            { cursor := { cursor with mbSender := first :: (rest ++ [id]) }
              log := [.printf "Adding sender to end of list.\n"]
              control := .ret 1 }

def doAddSender (ownerID id : ℤ) (pm : PM) : Outcome :=
  let w := whileCursor ownerID (addSenderTo id) pm.mailboxFront
  { pm := { pm with mailboxFront := w.front }, log := w.log, ret := some w.control.valueOrError }

/-- `while(temp->next!=NULL)` of `do_removeSender`, run on `temp->next`. -/
def unlinkSender (id : ℤ) : List ℤ → Option (List ℤ)
  | [] => none
  | next :: rest => if next = id then some rest else (unlinkSender id rest).map (next :: ·)

def removeSenderFrom (id : ℤ) (cursor : MailBox) : Block :=
  match cursor.mbSender with
  | [] =>
      { cursor := cursor
        log := [.printf "Cannot remove sender. No senders exist.\n"]
        control := .ret (-1) }
  | first :: rest =>
      if first = id then
        { cursor := { cursor with mbSender := rest }
          log := [.printf s!"Found sender {first} to remove.\n"]
          control := .ret 1 }
      else
        match unlinkSender id rest with
        | some rest' =>
            { cursor := { cursor with mbSender := first :: rest' }
              log := [.printf s!"Found sender {id} to delete.\n"]
              control := .ret 1 }
        | none =>
            { cursor := cursor, log := [.printf "Sender not found.\n"], control := .ret (-1) }

def doRemoveSender (ownerID id : ℤ) (pm : PM) : Outcome :=
  let w := whileCursor ownerID (removeSenderFrom id) pm.mailboxFront
  { pm := { pm with mailboxFront := w.front }, log := w.log, ret := some w.control.valueOrError }

theorem senderExists_none {id : ℤ} {l : List ℤ} (h : id ∉ l) : senderExists id l = none := by
  induction l with
  | nil => rfl
  | cons next rest ih =>
      rw [List.mem_cons, not_or] at h
      rw [senderExists, if_neg (Ne.symm h.1), ih h.2]

theorem senderExists_some {id : ℤ} {l : List ℤ} (h : id ∈ l) :
    senderExists id l = some (l.dropWhile (· ≠ id)) := by
  induction l with
  | nil => simp at h
  | cons next rest ih =>
      by_cases hn : next = id
      · simp [senderExists, hn]
      · have hr : id ∈ rest := List.mem_of_ne_of_mem (Ne.symm hn) h
        simp [senderExists, hn, ih hr]

theorem addSenderTo_new {id : ℤ} {mb : MailBox} (h : id ∉ mb.mbSender) :
    (addSenderTo id mb).cursor = { mb with mbSender := mb.mbSender ++ [id] } ∧
      (addSenderTo id mb).control = .ret 1 := by
  unfold addSenderTo
  cases hs : mb.mbSender with
  | nil => exact ⟨rfl, rfl⟩
  | cons first rest =>
      rw [hs, List.mem_cons, not_or] at h
      simp [Ne.symm h.1, senderExists_none h.2]

/-- A known sender is where the head pointer stays: the senders before it are lost. -/
theorem addSenderTo_known {id : ℤ} {mb : MailBox} (h : id ∈ mb.mbSender) :
    (addSenderTo id mb).cursor = { mb with mbSender := mb.mbSender.dropWhile (· ≠ id) } ∧
      (addSenderTo id mb).control = .ret (-1) := by
  obtain ⟨numMes, owner, senders, pending⟩ := mb
  cases senders with
  | nil => simp at h
  | cons first rest =>
      by_cases hf : first = id
      · simp [addSenderTo, hf]
      · have hr : id ∈ rest := List.mem_of_ne_of_mem (Ne.symm hf) h
        simp [addSenderTo, hf, senderExists_some hr]

theorem unlinkSender_eq (id : ℤ) (l : List ℤ) :
    unlinkSender id l = if id ∈ l then some (l.erase id) else none := by
  induction l with
  | nil => rfl
  | cons next rest ih =>
      by_cases hn : next = id
      · simp [unlinkSender, hn]
      · have hne : ¬ id = next := fun h => hn h.symm
        by_cases hr : id ∈ rest <;> simp [unlinkSender, hn, hne, ih, hr]

theorem removeSenderFrom_known {id : ℤ} {mb : MailBox} (h : id ∈ mb.mbSender) :
    (removeSenderFrom id mb).cursor = { mb with mbSender := mb.mbSender.erase id } ∧
      (removeSenderFrom id mb).control = .ret 1 := by
  obtain ⟨numMes, owner, senders, pending⟩ := mb
  cases senders with
  | nil => simp at h
  | cons first rest =>
      by_cases hf : first = id
      · simp [removeSenderFrom, hf]
      · have hr : id ∈ rest := List.mem_of_ne_of_mem (Ne.symm hf) h
        simp [removeSenderFrom, hf, unlinkSender_eq, hr]

theorem removeSenderFrom_unknown {id : ℤ} {mb : MailBox} (h : id ∉ mb.mbSender) :
    (removeSenderFrom id mb).cursor = mb ∧ (removeSenderFrom id mb).control = .ret (-1) := by
  unfold removeSenderFrom
  cases hs : mb.mbSender with
  | nil => exact ⟨rfl, rfl⟩
  | cons first rest =>
      rw [hs, List.mem_cons, not_or] at h
      simp [Ne.symm h.1, unlinkSender_eq, h.2]

theorem addSenderTo_returns (id : ℤ) (mb : MailBox) : (addSenderTo id mb).control ≠ .next := by
  by_cases h : id ∈ mb.mbSender
  · simp [(addSenderTo_known h).2]
  · simp [(addSenderTo_new h).2]

theorem removeSenderFrom_returns (id : ℤ) (mb : MailBox) :
    (removeSenderFrom id mb).control ≠ .next := by
  by_cases h : id ∈ mb.mbSender
  · simp [(removeSenderFrom_known h).2]
  · simp [(removeSenderFrom_unknown h).2]

theorem doAddSender_pm (o id : ℤ) (pm : PM) :
    (doAddSender o id pm).pm =
      { pm with
        mailboxFront := change MailBox.owner o (fun mb => (addSenderTo id mb).cursor)
          pm.mailboxFront } := by
  simp only [doAddSender, whileCursor_spec (addSenderTo_returns id)]

theorem doAddSender_ret (o id : ℤ) (pm : PM) :
    (doAddSender o id pm).ret =
      some (((lookup o pm.mailboxFront).map fun mb =>
        (addSenderTo id mb).control.valueOrError).getD (-1)) := by
  simp only [doAddSender, whileCursor_spec (addSenderTo_returns id)]
  cases lookup o pm.mailboxFront <;> rfl

theorem doRemoveSender_pm (o id : ℤ) (pm : PM) :
    (doRemoveSender o id pm).pm =
      { pm with
        mailboxFront := change MailBox.owner o (fun mb => (removeSenderFrom id mb).cursor)
          pm.mailboxFront } := by
  simp only [doRemoveSender, whileCursor_spec (removeSenderFrom_returns id)]

theorem doRemoveSender_ret (o id : ℤ) (pm : PM) :
    (doRemoveSender o id pm).ret =
      some (((lookup o pm.mailboxFront).map fun mb =>
        (removeSenderFrom id mb).control.valueOrError).getD (-1)) := by
  simp only [doRemoveSender, whileCursor_spec (removeSenderFrom_returns id)]
  cases lookup o pm.mailboxFront <;> rfl

/-! ## Sending -/

/-- The result of `checkPermissions`, with the mailbox it moved the sender list of. -/
structure Permission where
  mailperm : MailBox
  log : List Event
  ret : ℤ

/-- `while(mailperm->mbSender!=NULL)` of `checkPermissions`: the part of the list the
head pointer is left at, NULL when the sender was not met. -/
def permissionWalk (ownerID : ℤ) : List ℤ → List ℤ
  | [] => []
  | id :: rest => if id = ownerID then id :: rest else permissionWalk ownerID rest

def checkPermissions (mailperm : MailBox) (ownerID : ℤ) : Permission :=
  match mailperm.mbSender with
  | [] => { mailperm := mailperm, log := [.printf "No senders allowed to post.\n"], ret := -1 }
  | senders =>
      let moved := permissionWalk ownerID senders
      match moved with
      | [] =>
          { mailperm := { mailperm with mbSender := [] }
            log := [.printf "Checking Permissions. ", .printf "Not OK.\n"], ret := -1 }
      | _ :: _ =>
          { mailperm := { mailperm with mbSender := moved }
            log := [.printf "Checking Permissions. ", .printf "OK.\n"], ret := 1 }

theorem permissionWalk_eq (id : ℤ) (l : List ℤ) :
    permissionWalk id l = l.dropWhile (· ≠ id) := by
  induction l with
  | nil => rfl
  | cons s rest ih => by_cases h : s = id <;> simp [permissionWalk, h, ih]

theorem dropWhile_ne_eq_nil {id : ℤ} {l : List ℤ} :
    l.dropWhile (· ≠ id) = [] ↔ id ∉ l := by
  simp only [List.dropWhile_eq_nil_iff, decide_eq_true_eq]
  exact ⟨fun h hm => h id hm rfl, fun h x hx he => h (he ▸ hx)⟩

/-- The check leaves the sender list at the sender it met, and empty if it met none. -/
theorem checkPermissions_spec (mb : MailBox) (id : ℤ) :
    (checkPermissions mb id).mailperm = { mb with mbSender := mb.mbSender.dropWhile (· ≠ id) } ∧
      (checkPermissions mb id).ret = if id ∈ mb.mbSender then 1 else -1 := by
  obtain ⟨numMes, owner, senders, pending⟩ := mb
  cases senders with
  | nil => exact ⟨rfl, rfl⟩
  | cons first rest =>
      have hw := permissionWalk_eq id (first :: rest)
      cases hd : (first :: rest).dropWhile (· ≠ id) with
      | nil =>
          have hm : id ∉ first :: rest := dropWhile_ne_eq_nil.mp hd
          rw [hd] at hw
          simp only [checkPermissions, hw, if_neg hm, and_self]
      | cons s moved =>
          have hm : id ∈ first :: rest := by
            by_contra hm
            rw [dropWhile_ne_eq_nil.mpr hm] at hd
            exact absurd hd (by simp)
          rw [hd] at hw
          simp only [checkPermissions, hw, if_pos hm, and_self]

/-- A `do_msend` request: `m_in`, the process `who_e` it came from, the integers the
first copy leaves in `tempReceiver`, the memory of the sender that can be read from
`m1_p1` on, and what the block that `malloc` gives for the text holds. -/
structure SendRequest where
  m_in : Message ℕ
  who_e : ℤ
  tempReceiver : List ℤ
  memory : List UInt8
  block : List UInt8
deriving DecidableEq, Repr

namespace SendRequest

/-- The sender the request names. -/
def ownerID (req : SendRequest) : ℤ := req.m_in.m1_i3

/-- The entries the loop over `i` goes through. -/
def receivers (req : SendRequest) : List ℤ := req.tempReceiver.take req.m_in.m1_i2.toNat

/-- `m_in.m1_i1` once it was cut down to `MESSAGESIZE`. -/
def textLength (req : SendRequest) : ℤ :=
  if req.m_in.m1_i1 > messageSize then messageSize else req.m_in.m1_i1

/-- The copy of the text: the bytes it moved, or `none` when it failed. -/
def copiedText (req : SendRequest) : Option (List UInt8) :=
  if 0 ≤ req.textLength + 1 ∧ req.textLength + 1 ≤ req.memory.length then
    some (req.memory.take (req.textLength + 1).toNat)
  else none

/-- The node `tempML` once all its fields are set. Its `m` was copied from `m_in`
before the length there was cut down. A copy that fails leaves the block as it was, and
the node is used all the same. -/
def tempML (req : SendRequest) : MessageNode :=
  { m :=
      { m1_i1 := req.m_in.m1_i1, m1_i2 := req.m_in.m1_i2, m1_i3 := req.m_in.m1_i3
        m1_p1 := req.copiedText.getD req.block, m1_p2 := req.m_in.m1_p2 }
    sender := req.ownerID }

/-- What filling `tempML` prints and copies. -/
def fillLog (req : SendRequest) : List Event :=
  (if req.m_in.m1_i1 > messageSize then
      [.printf s!"Message is too long, truncating to {messageSize} characters.\n"] else []) ++
    [.sysDatacopyIn req.who_e req.m_in.m1_p1 (req.textLength + 1)] ++
    (if req.copiedText.isSome then [.printf "Copy OK.\n"] else [])

/-- The text can be copied: its length is not negative, and the sender's memory goes as far. -/
def Readable (req : SendRequest) : Prop :=
  0 ≤ min req.m_in.m1_i1 messageSize + 1 ∧
    min req.m_in.m1_i1 messageSize + 1 ≤ req.memory.length
deriving Decidable

/-- The node holds the message: its sender, the members of `m_in`, and the text in the
sender's memory, cut down to `MESSAGESIZE` characters, with the byte behind it. -/
structure Holds (req : SendRequest) (node : MessageNode) : Prop where
  sender : node.sender = req.ownerID
  integers : (node.m.m1_i1, node.m.m1_i2, node.m.m1_i3) =
    (req.m_in.m1_i1, req.m_in.m1_i2, req.m_in.m1_i3)
  pointer : node.m.m1_p2 = req.m_in.m1_p2
  text : node.m.m1_p1 <+: req.memory
  length : (node.m.m1_p1.length : ℤ) = min req.m_in.m1_i1 messageSize + 1

theorem textLength_eq (req : SendRequest) :
    req.textLength = min req.m_in.m1_i1 messageSize := by
  unfold textLength
  split_ifs <;> omega

/-- The node that is hung in holds the message exactly when the text could be copied. -/
theorem holds_tempML {req : SendRequest} : Holds req req.tempML ↔ req.Readable := by
  constructor
  · intro h
    have hle := h.text.length_le
    have hlength := h.length
    unfold Readable
    omega
  · rintro ⟨hlow, hhigh⟩
    have hcopy : req.copiedText =
        some (req.memory.take (min req.m_in.m1_i1 messageSize + 1).toNat) := by
      unfold copiedText
      rw [textLength_eq, if_pos ⟨hlow, hhigh⟩]
    have htext : req.tempML.m.m1_p1 =
        req.memory.take (min req.m_in.m1_i1 messageSize + 1).toNat := by
      unfold tempML
      rw [hcopy, Option.getD_some]
    refine ⟨rfl, rfl, rfl, htext ▸ List.take_prefix _ _, ?_⟩
    rw [htext, List.length_take]
    omega

end SendRequest

/-- The node is hung behind the last one, and its `next` is NULL. The source does so
twice in a list that is not empty: the second walk ends at the new node itself. -/
def hangLast (tempML : MessageNode) : List MessageNode → List MessageNode
  | [] => [tempML]
  | node :: rest => node :: hangLast tempML rest

/-- From `tempML = cursor->mbList` on, up to the `return 1` of either branch. -/
def linkMessage (req : SendRequest) (cursor : MailBox) : Block :=
  match cursor.mbList with
  | [] =>
      { cursor := { cursor with mbList := [req.tempML], numMes := cursor.numMes + 1 }
        log := .printf "Message list did not exist. Creating it now.\n" :: req.fillLog ++
          [.printf "Creating message list and adding message to it now.\n"]
        control := .ret 1 }
  | pending =>
      { cursor :=
          { cursor with mbList := hangLast req.tempML pending, numMes := cursor.numMes + 1 }
        log := .printf "Message list exists. Adding to it now\n" :: req.fillLog ++
          [.printf "Message list exists. Adding to it now.\n"]
        control := .ret 1 }

/-- The part that resumes a receiver suspended in `do_mreceive`. -/
def resumeReceiver (deadlockOne : List ProcDeadlock) (receiver : ℤ) : List Event :=
  match deadlockOne.find? fun temp => temp.deadlocked = receiver with
  | some temp => [.sysResume temp.deadlocked]
  | none => []

/-- The body of the mailbox loop of `do_msend`, where the owner is the receiver. The
flag `mailboxOfRecExists` was just set, so the test of it succeeds. -/
def sendTo (req : SendRequest) (deadlockOne : List ProcDeadlock) (receiver : ℤ)
    (cursor : MailBox) : Block :=
  if cursor.numMes ≥ bufferSize then
    { cursor := cursor
      log := [.printf "Mailbox of Receiver Exists.\n", .printf "Mailbox buffer full.\n"]
      control := .ret (-1) }
  else
    let p := checkPermissions cursor req.ownerID
    let asked := .printf "Mailbox of Receiver Exists.\n" :: p.log
    if p.ret = -1 then
      { cursor := p.mailperm
        log := asked ++ [.printf "Sender does not have permission to send to this Receiver.\n"]
        control := .ret (-1) }
    else if p.mailperm.numMes < bufferSize then
      let b := linkMessage req p.mailperm
      match b.control with
      -- Both branches of the linking return, so control does not get here.
      | .next =>
          { b with log := asked ++ b.log ++ resumeReceiver deadlockOne receiver, control := .brk }
      | c => { b with log := asked ++ b.log, control := c }
    else { cursor := p.mailperm, log := asked, control := .next }

@[simp] theorem hangLast_eq (node : MessageNode) (l : List MessageNode) :
    hangLast node l = l ++ [node] := by
  induction l with
  | nil => rfl
  | cons first rest ih => simp only [hangLast, ih, List.cons_append]

theorem linkMessage_spec (req : SendRequest) (mb : MailBox) :
    (linkMessage req mb).cursor =
        { mb with mbList := mb.mbList ++ [req.tempML], numMes := mb.numMes + 1 } ∧
      (linkMessage req mb).control = .ret 1 := by
  unfold linkMessage
  cases mb.mbList <;> simp

/-! ### What a send does to the mailbox of its receiver -/

section Send
variable (req : SendRequest) {mb : MailBox} (suspended : List ProcDeadlock) (receiver : ℤ)

theorem sendTo_full (h : bufferSize ≤ mb.numMes) :
    (sendTo req suspended receiver mb).cursor = mb ∧
      (sendTo req suspended receiver mb).control = .ret (-1) := by
  simp only [sendTo, ge_iff_le, if_pos h, and_self]

theorem sendTo_refused (hn : mb.numMes < bufferSize) (h : req.ownerID ∉ mb.mbSender) :
    (sendTo req suspended receiver mb).cursor = { mb with mbSender := [] } ∧
      (sendTo req suspended receiver mb).control = .ret (-1) := by
  obtain ⟨hm, hr⟩ := checkPermissions_spec mb req.ownerID
  rw [if_neg h] at hr
  rw [dropWhile_ne_eq_nil.mpr h] at hm
  simp only [sendTo, ge_iff_le, if_neg (Nat.not_le.mpr hn), hr, if_true, hm, and_self]

theorem sendTo_accepted (hn : mb.numMes < bufferSize) (h : req.ownerID ∈ mb.mbSender) :
    (sendTo req suspended receiver mb).cursor =
        { mb with
          mbSender := mb.mbSender.dropWhile (· ≠ req.ownerID)
          mbList := mb.mbList ++ [req.tempML]
          numMes := mb.numMes + 1 } ∧
      (sendTo req suspended receiver mb).control = .ret 1 := by
  obtain ⟨hm, hr⟩ := checkPermissions_spec mb req.ownerID
  rw [if_pos h] at hr
  obtain ⟨hl, hc⟩ := linkMessage_spec req
    { mb with mbSender := mb.mbSender.dropWhile (· ≠ req.ownerID) }
  have hne : ¬ ((1 : ℤ) = -1) := by decide
  simp only [sendTo, ge_iff_le, if_neg (Nat.not_le.mpr hn), hr, if_neg hne, hm, if_pos hn, hc, hl,
    and_self]

/-- Every way through the body returns. -/
theorem sendTo_returns (mb : MailBox) :
    ∃ v, (sendTo req suspended receiver mb).control = .ret v := by
  by_cases hn : bufferSize ≤ mb.numMes
  · exact ⟨_, (sendTo_full req suspended receiver hn).2⟩
  · have hn' := Nat.not_le.mp hn
    by_cases hs : req.ownerID ∈ mb.mbSender
    · exact ⟨_, (sendTo_accepted req suspended receiver hn' hs).2⟩
    · exact ⟨_, (sendTo_refused req suspended receiver hn' hs).2⟩

end Send

/-- The loop over `i`. Its body ends in `return -1`, so there is no second pass. -/
def forReceivers (req : SendRequest) (deadlockOne : List ProcDeadlock) (front : List MailBox) :
    List ℤ → Walk
  | [] => { front := front, log := [], control := .next }
  | receiver :: _ =>
      let w := whileCursor receiver (sendTo req deadlockOne receiver) front
      { w with control := .ret w.control.valueOrError }

def doMsend (req : SendRequest) (pm : PM) : Outcome :=
  match pm.mailboxFront with
  | [] => { pm := pm, log := [.printf "Mailbox not set up.\n"], ret := some (-1) }
  | front =>
      let w := forReceivers req pm.deadlockOne front req.receivers
      { pm := { pm with mailboxFront := w.front }
        log := .sysDatacopyIn req.who_e req.m_in.m1_p2 (req.m_in.m1_i2 * 4) :: w.log
        ret := match w.control with
          | .ret v => some v
          | _ => none }

theorem doMsend_nobody {req : SendRequest} (h : req.receivers = []) (pm : PM) :
    (doMsend req pm).pm = pm ∧ (doMsend req pm).ret ≠ some 1 := by
  obtain ⟨front, suspended⟩ := pm
  cases front with
  | nil => simp [doMsend]
  | cons first rest => simp [doMsend, h, forReceivers]

/-- Only the first receiver of the list is ever looked at. -/
theorem doMsend_to {req : SendRequest} {r : ℤ} {more : List ℤ} (h : req.receivers = r :: more)
    (pm : PM) :
    (doMsend req pm).pm =
        { pm with
          mailboxFront := change MailBox.owner r
            (fun mb => (sendTo req pm.deadlockOne r mb).cursor) pm.mailboxFront } ∧
      (doMsend req pm).ret =
        some (((lookup r pm.mailboxFront).map fun mb =>
          (sendTo req pm.deadlockOne r mb).control.valueOrError).getD (-1)) := by
  obtain ⟨front, suspended⟩ := pm
  have hb : ∀ mb, (sendTo req suspended r mb).control ≠ .next := by
    intro mb
    obtain ⟨v, hv⟩ := sendTo_returns req suspended r mb
    simp [hv]
  cases front with
  | nil => exact ⟨rfl, rfl⟩
  | cons first rest =>
      simp only [doMsend, h, forReceivers, whileCursor_spec hb, true_and, Option.some.injEq]
      cases lookup r (first :: rest) <;> rfl

/-! ### Nothing in a send resumes a process -/

theorem checkPermissions_log (mb : MailBox) (id p : ℤ) :
    Event.sysResume p ∉ (checkPermissions mb id).log := by
  unfold checkPermissions
  split
  · simp
  · dsimp only
    split <;> simp

theorem fillLog_no_resume (req : SendRequest) (p : ℤ) : Event.sysResume p ∉ req.fillLog := by
  unfold SendRequest.fillLog
  split_ifs <;> simp

theorem linkMessage_log (req : SendRequest) (mb : MailBox) (p : ℤ) :
    Event.sysResume p ∉ (linkMessage req mb).log := by
  unfold linkMessage
  split <;> simp [fillLog_no_resume]

theorem sendTo_log (req : SendRequest) (suspended : List ProcDeadlock) (r p : ℤ) (mb : MailBox) :
    Event.sysResume p ∉ (sendTo req suspended r mb).log := by
  have hc := checkPermissions_log mb req.ownerID p
  have hl := linkMessage_log req (checkPermissions mb req.ownerID).mailperm p
  have hr := (linkMessage_spec req (checkPermissions mb req.ownerID).mailperm).2
  unfold sendTo
  simp only [hr]
  split_ifs <;> simp [hc, hl]

end MinixOS.MailboxCalls
