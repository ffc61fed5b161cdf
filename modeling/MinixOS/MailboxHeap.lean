import MinixOS.LinkedHeap
import MinixOS.MailboxSystem

/-!
# Message lists on the heap

The same six calls as in `MailboxSystem`, with the message lists as chains of nodes on
a heap. A mailbox holds the address of its first message node, or NULL. What
`do_msend` and `do_mreceive` do to the `next` fields is modelled statement by
statement, also where `do_msend` links its node a second time. The lists of
mailboxes, of senders and of suspended processes are lists as before: the search for
a mailbox is the search by owner which the walks of the source were shown to be, and
the sender list of a mailbox is changed by the definitions of `MailboxCalls`.

A `malloc` answers with an address that is not in use, and the cell there holds
whatever was left in the block.
-/
namespace MinixOS.MailboxHeap
open LoopExecution CheckedExecution SystemRuns KeyedLists LinkedHeap MailboxState MailboxCalls
  MailboxReceive MailboxSystem

/-- A node of `struct mailBox`, with `mbList` a pointer into the heap. -/
structure HeapMailBox where
  numMes : ℕ
  owner : ℤ
  mbSender : List ℤ
  mbList : Option ℕ
deriving DecidableEq, Repr

/-- The mailbox with the messages its chain holds. -/
def HeapMailBox.withMessages (mb : HeapMailBox) (messages : List MessageNode) : MailBox :=
  { numMes := mb.numMes, owner := mb.owner, mbSender := mb.mbSender, mbList := messages }

def HeapMailBox.fresh (ownerID : ℤ) : HeapMailBox :=
  { numMes := 0, owner := ownerID, mbSender := [], mbList := none }

structure HeapPM where
  mailboxFront : List HeapMailBox
  deadlockOne : List ProcDeadlock
  heap : Heap MessageNode

def HeapPM.initial : HeapPM := { mailboxFront := [], deadlockOne := [], heap := fun _ => none }

structure HeapOutcome where
  pm : HeapPM
  ret : Option ℤ

/-- What a call leaves of the mailbox it works on, and of the heap. -/
structure HeapBlock where
  cursor : HeapMailBox
  heap : Heap MessageNode
  value : ℤ

/-- The mailbox a search from the front stops at. -/
abbrev heapLookup (ownerID : ℤ) (front : List HeapMailBox) : Option HeapMailBox :=
  find HeapMailBox.owner ownerID front

/-- The walk to the mailbox of an owner, and `return -1` where there is none. -/
def atMailbox (ownerID : ℤ) (body : HeapMailBox → Heap MessageNode → Except Stop HeapBlock)
    (pm : HeapPM) : Except Stop HeapOutcome :=
  match heapLookup ownerID pm.mailboxFront with
  | none => .ok { pm := pm, ret := some (-1) }
  | some mb => do
      let b ← body mb pm.heap
      .ok
        { pm :=
            { pm with
              mailboxFront := change HeapMailBox.owner ownerID (fun _ => b.cursor) pm.mailboxFront
              heap := b.heap }
          ret := some b.value }

/-! ## The calls that follow no message pointer -/

def heapCreateMailbox (ownerID : ℤ) (pm : HeapPM) : Except Stop HeapOutcome :=
  match heapLookup ownerID pm.mailboxFront with
  | some _ => .ok { pm := pm, ret := some (-1) }
  | none =>
      .ok
        { pm := { pm with mailboxFront := pm.mailboxFront ++ [HeapMailBox.fresh ownerID] }
          ret := some 1 }

/-- Of the message nodes, only the first one is freed. -/
def heapRemoveMailbox (ownerID : ℤ) (pm : HeapPM) : Except Stop HeapOutcome :=
  match heapLookup ownerID pm.mailboxFront with
  | none => .ok { pm := pm, ret := some (-1) }
  | some mb => do
      let h ← free pm.heap mb.mbList
      .ok
        { pm :=
            { pm with
              mailboxFront := remove HeapMailBox.owner ownerID pm.mailboxFront
              heap := h }
          ret := some 1 }

/-- A block of `MailboxCalls` that is about the sender list. -/
def senderBlock (body : MailBox → Block) (cursor : HeapMailBox) (h : Heap MessageNode) :
    Except Stop HeapBlock :=
  let b := body (cursor.withMessages [])
  .ok
    { cursor := { cursor with mbSender := b.cursor.mbSender }, heap := h
      value := b.control.valueOrError }

/-! ## Sending -/

/-- `while(p->next != NULL) p = p->next;` -/
def lastNode (fuel : ℕ) (h : Heap MessageNode) (p : ℕ) : Except Stop (ℕ × Bool) :=
  loop (walkPass (fun _ _ => false) h) fuel p

/-- From `tempML = cursor->mbList` to the `else` branch's `tempML=tempML->next`: the heap, and
`tempML`. -/
def makeNode (fuel node : ℕ) (left : Cell MessageNode) (mbList : Option ℕ)
    (h : Heap MessageNode) : Except Stop (Heap MessageNode × Option ℕ) :=
  match mbList with
  | none => do
      let h ← setNext (store h node left) (some node) none
      .ok (h, some node)
  | some first => do
      let tempML ← lastNode fuel h first
      let h ← setNext (store h node left) (some tempML.1) (some node)
      let cell ← cellAt h (some tempML.1)
      let h ← setNext h cell.next none
      .ok (h, cell.next)

/-- From `mbListFront = cursor->mbList` on: the heap, and what `cursor->mbList` is left at. In a
list that is not empty, the walk ends at `tempML` itself, which is then made to point to itself
and to NULL again. -/
def hangNode (fuel : ℕ) (tempML mbList : Option ℕ) (h : Heap MessageNode) :
    Except Stop (Heap MessageNode × Option ℕ) :=
  match mbList with
  | none => .ok (h, tempML)
  | some mbListFront => do
      let last ← lastNode fuel h mbListFront
      let h ← setNext h (some last.1) tempML
      let cell ← cellAt h (some last.1)
      let h ← setNext h cell.next none
      .ok (h, some mbListFront)

def heapLinkMessage (fuel : ℕ) (req : SendRequest) (node : ℕ) (left : Cell MessageNode)
    (cursor : HeapMailBox) (h : Heap MessageNode) : Except Stop HeapBlock := do
  let made ← makeNode fuel node left cursor.mbList h
  let h ← setValue made.1 made.2 req.tempML
  let hung ← hangNode fuel made.2 cursor.mbList h
  .ok
    { cursor := { cursor with mbList := hung.2, numMes := cursor.numMes + 1 }
      heap := hung.1, value := 1 }

/-- The body of the mailbox loop of `do_msend`, where the owner is the receiver. -/
def heapSendTo (fuel : ℕ) (req : SendRequest) (node : ℕ) (left : Cell MessageNode)
    (cursor : HeapMailBox) (h : Heap MessageNode) : Except Stop HeapBlock :=
  if cursor.numMes ≥ bufferSize then .ok { cursor := cursor, heap := h, value := -1 }
  else
    let p := checkPermissions (cursor.withMessages []) req.ownerID
    let moved := { cursor with mbSender := p.mailperm.mbSender }
    if p.ret = -1 then .ok { cursor := moved, heap := h, value := -1 }
    else if moved.numMes < bufferSize then heapLinkMessage fuel req node left moved h
    -- The check does not change the counter, so control does not get here.
    else .ok { cursor := moved, heap := h, value := -1 }

def heapMsend (fuel : ℕ) (req : SendRequest) (node : ℕ) (left : Cell MessageNode)
    (pm : HeapPM) : Except Stop HeapOutcome :=
  match pm.mailboxFront with
  | [] => .ok { pm := pm, ret := some (-1) }
  | _ :: _ =>
      match req.receivers with
      | [] => .ok { pm := pm, ret := none }
      | receiver :: _ => atMailbox receiver (heapSendTo fuel req node left) pm

/-! ## Receiving -/

/-- The address of the node that `sourceAddress` is taken from. -/
def heapSearch (fuel : ℕ) (source : ℤ) (mbList : Option ℕ) (h : Heap MessageNode) :
    Except Stop (Option ℕ) :=
  match mbList with
  | none => .ok none
  | some first => do
      let cell ← cellAt h (some first)
      if cell.value.sender = source then .ok (some first)
      else do
        let tempML ← loop (walkPass (fun _ next => next.sender = source) h) fuel first
        let cell ← cellAt h (some tempML.1)
        .ok (if tempML.2 then cell.next else none)

/-- `prev = tempML->next; tempML->next = prev->next; cursor->mbList = tempML; free(prev);` -/
def unlinkBehind (tempML : ℕ) (cursor : HeapMailBox) (h : Heap MessageNode) :
    Except Stop HeapBlock := do
  let cell ← cellAt h (some tempML)
  let prev ← cellAt h cell.next
  let h ← setNext h (some tempML) prev.next
  let h ← free h cell.next
  .ok { cursor := { cursor with mbList := some tempML }, heap := h, value := 1 }

def heapDelete (fuel : ℕ) (source : ℤ) (cursor : HeapMailBox) (h : Heap MessageNode) :
    Except Stop HeapBlock :=
  match cursor.mbList with
  | none => .error .nullPointer
  | some first => do
      let cell ← cellAt h (some first)
      if source = cell.value.sender then do
        let h ← free h (some first)
        .ok { cursor := { cursor with mbList := cell.next }, heap := h, value := 1 }
      else do
        let tempML ← loop (walkPass (fun this _ => this.sender = source) h) fuel first
        if tempML.2 then unlinkBehind tempML.1 cursor h
        else .ok { cursor := cursor, heap := h, value := -1 }

/-- What the body of the receive leaves, with the suspended list. -/
structure HeapReception where
  block : HeapBlock
  deadlockOne : List ProcDeadlock

def heapReceiveFrom (fuel : ℕ) (req : ReceiveRequest) (w : Resumed) (cursor : HeapMailBox)
    (h : Heap MessageNode) : Except Stop HeapReception := do
  let found ← heapSearch fuel w.m1_i1 cursor.mbList h
  if found = none ∨ w.m1_i1 = 0 then
    .ok
      { block := { cursor := cursor, heap := h, value := -1 }
        deadlockOne := ⟨req.ownerID, w.m1_i1, req.m1_p1⟩ :: w.deadlockOne }
  else if req.copyOk then do
    let block ← heapDelete fuel w.m1_i1 cursor h
    .ok { block := block, deadlockOne := w.deadlockOne }
  else
    .ok
      { block := { cursor := cursor, heap := h, value := -1 }, deadlockOne := w.deadlockOne }

/-- The cursor is never moved past a mailbox of another owner, so the call does not return when
the first one is not the caller's. -/
def heapMreceive (fuel : ℕ) (req : ReceiveRequest) (pm : HeapPM) : Except Stop HeapOutcome :=
  match pm.mailboxFront with
  | [] => .ok { pm := pm, ret := some (-1) }
  | mb :: rest =>
      if mb.owner = req.ownerID then do
        let r ← heapReceiveFrom fuel req (takeRecord req pm.deadlockOne) mb pm.heap
        .ok
          { pm :=
              { mailboxFront := r.block.cursor :: rest, deadlockOne := r.deadlockOne
                heap := r.block.heap }
            ret := some r.block.value }
      else .error .passesRanOut

/-! ## The system -/

/-- A request, with the address the `malloc` of a send answers and what is left in the cell
there. -/
structure HeapRequest where
  call : Request
  node : ℕ
  left : Cell MessageNode
deriving DecidableEq, Repr

def heapExecute (fuel : ℕ) (c : HeapRequest) (pm : HeapPM) : Except Stop HeapOutcome :=
  match c.call with
  | .createMailbox ownerID => heapCreateMailbox ownerID pm
  | .removeMailbox ownerID => heapRemoveMailbox ownerID pm
  | .addSender ownerID id => atMailbox ownerID (senderBlock (addSenderTo id)) pm
  | .removeSender ownerID id => atMailbox ownerID (senderBlock (removeSenderFrom id)) pm
  | .msend req => heapMsend fuel req c.node c.left pm
  | .mreceive req => heapMreceive fuel req pm

/-- The call returns, with this outcome. -/
def HeapReturns (c : HeapRequest) (pm : HeapPM) (out : HeapOutcome) : Prop :=
  ComesTo (fun fuel => heapExecute fuel c pm) out

/-- A call returns in a state in which the address `malloc` answers with is not in use. -/
def heapSystem : System HeapPM HeapRequest (Option ℤ) where
  init := HeapPM.initial
  returns pm c ret pm' := pm.heap c.node = none ∧ HeapReturns c pm ⟨pm', ret⟩

end MinixOS.MailboxHeap
