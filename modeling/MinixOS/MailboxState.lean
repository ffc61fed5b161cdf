import MinixOS.KeyedLists
import Mathlib.Data.Int.Notation

/-!
# The lists the process manager keeps for mailboxes

The three kinds of linked lists of mailbox.h are lists here. A pointer into a
list is the part of the list that starts at the node pointed to, and NULL is
the empty list, so `cursor = cursor->next` takes the tail and moving a head
pointer forward drops the nodes in front of it. No node is reachable from two
heads, so nothing else is lost by this. Nodes of `mbReceiver` are never made,
and that field is left out.

Process ids are compared and never computed with. They are integers.
-/
namespace MinixOS.MailboxState
open KeyedLists

/-- `BUFFERSIZE` of mailbox.h. -/
def bufferSize : ℕ := 5

/-- `MESSAGESIZE` of mailbox.h. -/
def messageSize : ℕ := 1024

/-- The fields of `message` (mess_1) that the calls read. A request carries the
address of the text in `m1_p1`, a stored message the text itself. -/
structure Message (Text : Type) where
  m1_i1 : ℤ
  m1_i2 : ℤ
  m1_i3 : ℤ
  m1_p1 : Text
  m1_p2 : ℕ
deriving DecidableEq, Repr

/-- A node of `struct messageList`. The text is what the copy put at the start of
the block of `MESSAGESIZE` bytes; the rest of the block is what malloc left. -/
structure MessageNode where
  m : Message (List UInt8)
  sender : ℤ
deriving DecidableEq, Repr

/-- A node of `struct mailBox`. `mbSender` holds the ids of the sender nodes. -/
structure MailBox where
  numMes : ℕ
  owner : ℤ
  mbSender : List ℤ
  mbList : List MessageNode
deriving DecidableEq, Repr

/-- The mailbox both branches of `do_createMailbox` allocate. -/
def MailBox.fresh (ownerID : ℤ) : MailBox :=
  { numMes := 0, owner := ownerID, mbSender := [], mbList := [] }

/-- A node of `struct procDeadlock`: a process suspended in a receive. -/
structure ProcDeadlock where
  deadlocked : ℤ
  deadlockedSource : ℤ
  procAddress : ℕ
deriving DecidableEq, Repr

/-- The globals of mailbox.c. -/
structure PM where
  mailboxFront : List MailBox
  deadlockOne : List ProcDeadlock
deriving DecidableEq, Repr

def PM.initial : PM := { mailboxFront := [], deadlockOne := [] }

/-- The lines a call prints and the kernel calls it issues. The text that
`sysDatacopyOut` reads is named by the node whose block it starts. -/
inductive Event where
  | printf (line : String)
  | sysDatacopyIn (who_e : ℤ) (address : ℕ) (bytes : ℤ)
  | sysDatacopyOut (source : MessageNode) (who_e : ℤ) (address : ℕ) (ok : Bool)
  | sysStop (who_e : ℤ)
  | sysResume (process : ℤ)
deriving DecidableEq, Repr

/-- What a call leaves behind. The value `none` is for control that falls off the
end of the function: the caller then gets no particular value. -/
structure Outcome where
  pm : PM
  log : List Event
  ret : Option ℤ
deriving DecidableEq, Repr

/-! ## The contents by owner -/

/-- The mailbox a search from the front stops at. -/
abbrev lookup (ownerID : ℤ) (front : List MailBox) : Option MailBox :=
  find MailBox.owner ownerID front

/-- The pending messages of an owner, none when there is no mailbox. -/
def PM.messagesOf (pm : PM) (ownerID : ℤ) : List MessageNode :=
  ((lookup ownerID pm.mailboxFront).map MailBox.mbList).getD []

theorem PM.messagesOf_of_some {pm : PM} {o : ℤ} {mb : MailBox}
    (h : lookup o pm.mailboxFront = some mb) : pm.messagesOf o = mb.mbList := by
  simp only [messagesOf, h, Option.map_some, Option.getD_some]

end MinixOS.MailboxState
