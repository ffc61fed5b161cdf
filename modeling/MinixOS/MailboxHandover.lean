import MinixOS.MailboxSenders
import MinixOS.MailboxSending
import MinixOS.MailboxDelivery

/-!
# What a receive takes off the list, and what it hands over

The search of a receive finds the earliest message of the awaited source. When that
message is the first of the list, the deletion takes it off and nothing else. When it
stands further back, the deletion keeps it, makes it the first, and so loses every
message before it and the one behind it. When it is the last, nothing is taken off
and the call fails.

The text of a message is copied in with its terminating NUL, up to `MESSAGESIZE`
characters, into a block of `MESSAGESIZE` bytes. It is copied out up to the first NUL
that is met from the start of the block on.
-/
namespace MinixOS.MailboxHandover
open SystemRuns KeyedLists MailboxState MailboxCalls MailboxReceive MailboxSystem MailboxRegistry
  MailboxSenders MailboxSending

/-! ## What a receive removes -/

/-- The earliest message of `source` is gone from `l`, and all others kept their order. -/
def EarliestRemoved (source : ℤ) (l l' : List MessageNode) : Prop :=
  ∃ front message rest, l = front ++ message :: rest ∧ (∀ node ∈ front, node.sender ≠ source) ∧
    message.sender = source ∧ l' = front ++ rest

/-- A receive of a message from `source` removes what it delivers and nothing else. -/
structure RemovesOnly (source : ℤ) (req : ReceiveRequest) (pm : PM) (out : Outcome) : Prop where
  received : out.ret = some 1 →
    EarliestRemoved source (pm.messagesOf req.ownerID) (out.pm.messagesOf req.ownerID)
  refused : out.ret = some (-1) → out.pm.messagesOf req.ownerID = pm.messagesOf req.ownerID
  others : ∀ p, p ≠ req.ownerID → out.pm.messagesOf p = pm.messagesOf p

/-- Waiting for `awaited`, nothing is copied out of `l`, or the message is the first of `l` and
from `source`, or it is the last of several. -/
def OnlyFirstOrLast (source awaited : ℤ) (ok : Bool) (l : List MessageNode) : Prop :=
  awaited = 0 ∨ ok = false ∨ (∀ node ∈ l, node.sender ≠ awaited) ∨
    (awaited = source ∧ ∃ node ∈ l.head?, node.sender = awaited) ∨
    (l.dropLast ≠ [] ∧ ∀ node ∈ l.dropLast, node.sender ≠ awaited)

theorem earliestRemoved_length {source : ℤ} {l l' : List MessageNode}
    (h : EarliestRemoved source l l') : l.length = l'.length + 1 := by
  obtain ⟨front, message, rest, rfl, _, _, rfl⟩ := h
  simp only [List.length_append, List.length_cons]
  omega

/-- Without the first node the list lacks its earliest message of `source` only when the first
node is that message. -/
theorem earliestRemoved_tail {source : ℤ} {first : MessageNode} {rest : List MessageNode} :
    EarliestRemoved source (first :: rest) rest ↔ first.sender = source := by
  constructor
  · rintro ⟨front, message, behind, hl, hfront, hm, hl'⟩
    cases front with
    | nil =>
        rw [List.nil_append, List.cons.injEq] at hl
        exact hl.1 ▸ hm
    | cons node front =>
        rw [List.cons_append, List.cons.injEq] at hl
        have hsplit : (front ++ [message]) ++ behind = (node :: front) ++ behind := by
          rw [List.append_assoc, List.singleton_append, ← hl.2, hl']
        have hmem : message ∈ node :: front := by
          rw [← List.append_cancel_right hsplit]
          exact List.mem_concat_self
        exact absurd hm (hfront message hmem)
  · exact fun h => ⟨[], first, rest, rfl, fun _ hm => absurd hm List.not_mem_nil, h, rfl⟩

/-- What the message list must be like for the rest of the call to remove only what it
delivers. -/
theorem receipt_removes_iff {awaited v : ℤ} {ok : Bool} {l l' copied : List MessageNode}
    (h : Receipt awaited ok l l' copied v) (source : ℤ) :
    ((v = 1 → EarliestRemoved source l l') ∧ (v = -1 → l' = l)) ↔
      OnlyFirstOrLast source awaited ok l := by
  cases h with
  | nothing h =>
      apply iff_of_true ⟨by simp, fun _ => rfl⟩
      rcases h with h | h
      · exact .inl h
      · exact .inr (.inr (.inl h))
  | failed _ hok => exact iff_of_true ⟨by simp, fun _ => rfl⟩ (.inr (.inl hok))
  | @first message _ hs hok hm =>
      rw [earliestRemoved_tail]
      constructor
      · intro ⟨h, _⟩
        exact .inr (.inr (.inr (.inl ⟨hm.symm.trans (h rfl), message, rfl, hm⟩)))
      · rintro (h | h | h | ⟨h, _⟩ | ⟨hne, h⟩)
        · exact absurd h hs
        · exact absurd (hok.symm.trans h) (by decide)
        · exact absurd hm (h message List.mem_cons_self)
        · exact ⟨fun _ => hm.trans h, by simp⟩
        · cases l' with
          | nil => exact absurd rfl hne
          | cons next rest => exact absurd hm (h message List.mem_cons_self)
  | @behind first front message next rest hs hok hf hm =>
      apply iff_of_false
      · rintro ⟨h, _⟩
        have hlen := earliestRemoved_length (h rfl)
        simp only [List.length_append, List.length_cons] at hlen
        omega
      · rintro (h | h | h | ⟨_, node, hn, h⟩ | ⟨_, h⟩)
        · exact hs h
        · exact absurd (hok.symm.trans h) (by decide)
        · exact h message (by simp) hm
        · exact hf node (by rw [Option.mem_def.mp hn |> Option.some.inj]; simp) h
        · refine h message ?_ hm
          rw [List.dropLast_append_of_ne_nil (List.cons_ne_nil _ _)]
          simp
  | last _ _ hf _ =>
      apply iff_of_true ⟨by simp, fun _ => rfl⟩
      refine .inr (.inr (.inr (.inr ?_)))
      rw [List.dropLast_concat]
      exact ⟨List.cons_ne_nil _ _, hf⟩

theorem messagesOf_other {pm pm' : PM} {mb : MailBox} {rest : List MailBox}
    {l : List MessageNode} {p : ℤ} (hf : pm.mailboxFront = mb :: rest)
    (hp : pm'.mailboxFront = { mb with mbList := l } :: rest) (hne : p ≠ mb.owner) :
    pm'.messagesOf p = pm.messagesOf p := by
  simp [PM.messagesOf, hf, hp, Ne.symm hne]

theorem removesOnly_iff {pm : PM} {req : ReceiveRequest} {out : Outcome}
    (h : Returns (.mreceive req) pm out) (source : ℤ) :
    RemovesOnly source req pm out ↔
      OnlyFirstOrLast source (awaitedSource pm req) req.copyOk (pm.messagesOf req.ownerID) := by
  obtain ⟨fuel, h⟩ := h
  rcases doMreceive_cases h with ⟨hf, hp, hv, _⟩ | ⟨mb, rest, l, v, hf, ho, hp, hv, hr⟩
  · apply iff_of_true
    · constructor
      · exact fun h => absurd (hv.symm.trans h) (by decide)
      · exact fun _ => by rw [hp]
      · exact fun _ _ => by rw [hp]
    · refine .inr (.inr (.inl ?_))
      simp [PM.messagesOf, hf]
  · have hbefore : pm.messagesOf req.ownerID = mb.mbList :=
      PM.messagesOf_of_some (by simp [hf, ho])
    have hfound : lookup req.ownerID out.pm.mailboxFront = some { mb with mbList := l } := by
      simp [hp, ho]
    have hafter : out.pm.messagesOf req.ownerID = l := PM.messagesOf_of_some hfound
    rw [takeRecord_source] at hr
    rw [hbefore, ← receipt_removes_iff hr source]
    constructor
    · intro hall
      constructor
      · intro h1
        have hrec := hall.received (hv.trans (congrArg some h1))
        rwa [hbefore, hafter] at hrec
      · intro h1
        have hkept := hall.refused (hv.trans (congrArg some h1))
        rwa [hbefore, hafter] at hkept
    · rintro ⟨hrec, hkept⟩
      constructor
      · intro h1
        rw [hbefore, hafter]
        exact hrec (Option.some.inj (hv.symm.trans h1))
      · intro h1
        rw [hbefore, hafter]
        exact hkept (Option.some.inj (hv.symm.trans h1))
      · exact fun p hne => messagesOf_other hf hp (ho ▸ hne)

/-- A receive that returns removes only what it delivers exactly when it copies nothing out, or
its message is the first pending one or the last of several. The record of the caller,
if there is one, takes the place of the source in the request. -/
theorem receive_removes_iff {pm : PM} {req : ReceiveRequest} {out : Outcome}
    (h : Returns (.mreceive req) pm out) :
    (RemovesOnly req.m1_i1 req pm out ↔
      OnlyFirstOrLast req.m1_i1 (awaitedSource pm req) req.copyOk
        (pm.messagesOf req.ownerID)) ∧
    (RemovesOnly (awaitedSource pm req) req pm out ↔
      OnlyFirstOrLast (awaitedSource pm req) (awaitedSource pm req) req.copyOk
        (pm.messagesOf req.ownerID)) :=
  ⟨removesOnly_iff h _, removesOnly_iff h _⟩

theorem receive_removes_iff_seven :
    ∃ pm out, Returns (.mreceive (testMreceive 7 3 0)) pm out ∧ out.ret = some 1 ∧
      (RemovesOnly 3 (testMreceive 7 3 0) pm out ↔
        OnlyFirstOrLast 3 (awaitedSource pm (testMreceive 7 3 0)) true (pm.messagesOf 7)) ∧
      (RemovesOnly (awaitedSource pm (testMreceive 7 3 0)) (testMreceive 7 3 0) pm out ↔
        OnlyFirstOrLast (awaitedSource pm (testMreceive 7 3 0))
          (awaitedSource pm (testMreceive 7 3 0)) true (pm.messagesOf 7)) := by
  have hret : Returns (.mreceive (testMreceive 7 3 0))
      ⟨[{ MailBox.fresh 7 with
        numMes := 1, mbSender := [3], mbList := [(testMsend 3 [104, 105] [7]).tempML] }], []⟩ _ :=
    ⟨1, rfl⟩
  exact ⟨_, _, hret, by decide, receive_removes_iff hret⟩

/-- Receiving from 6 loses the message of 5 that was there first. -/
theorem receive_removes_fails :
    ¬ ∀ pm, Reachable system pm → ∀ req out, Returns (.mreceive req) pm out →
      RemovesOnly req.m1_i1 req pm out := by
  intro h
  have hr := replay_run 0
    [.createMailbox 1, .addSender 1 5, .addSender 1 6, .msend (testMsend 5 [104, 105] [1]),
      .msend (testMsend 6 [104, 111] [1]), .msend (testMsend 6 [104, 97] [1])] .init rfl
  have hrem := (h _ hr.reachable (testMreceive 1 6 0) _ ⟨1, rfl⟩).received (by decide)
  exact absurd (earliestRemoved_length hrem) (by decide)

/-! ## The text that is handed over -/

/-- `strlen`: the number of bytes before the first NUL. -/
def strlen (memory : List UInt8) : ℕ := (memory.takeWhile (· ≠ 0)).length

/-- The bytes a receive moves from the block of the message, behind which `behind` lies. -/
def handedOver (behind : List UInt8) (node : MessageNode) : List UInt8 :=
  let sourceAddress := node.m.m1_p1 ++ behind
  sourceAddress.take (strlen sourceAddress + 1)

/-- The text was put into a block of `MESSAGESIZE` bytes with its NUL, and every receive that
copies the new message out moves the text, cut to fit into the block, and a NUL. -/
def PayloadKept (r : ℤ) (text : List UInt8) (pm pm' : PM) : Prop :=
  ∃ node, pm'.messagesOf r = pm.messagesOf r ++ [node] ∧
    node.m.m1_p1.length ≤ messageSize ∧ 0 ∈ node.m.m1_p1.take messageSize ∧
    ∀ req later out, Returns (.mreceive req) later out → node ∈ copiedOut out.log →
      ∀ behind, handedOver behind node = text.take (messageSize - 1) ++ [0]

theorem strlen_append {text : List UInt8} (h : 0 ∉ text) (behind : List UInt8) :
    strlen (text ++ 0 :: behind) = text.length := by
  have hall : ∀ b ∈ text, decide (b ≠ 0) = true :=
    fun b hb => decide_eq_true (ne_of_mem_of_not_mem hb h)
  rw [strlen, List.takeWhile_append_of_pos hall, List.takeWhile_cons_of_neg (by decide),
    List.append_nil]

theorem take_terminated (text behind : List UInt8) :
    (text ++ 0 :: behind).take (text.length + 1) = text ++ [0] := by
  rw [List.take_length_add_append, List.take_succ_cons, List.take_zero]

section Payload
variable {req : SendRequest} {text beyond : List UInt8}

/-- A text that leaves room for its NUL is copied with it. -/
theorem copiedText_short (hmem : req.memory = text ++ 0 :: beyond)
    (hlen : req.m_in.m1_i1 = text.length) (h : text.length < messageSize) :
    req.tempML.m.m1_p1 = text ++ [0] := by
  have htl : req.textLength = text.length := by
    unfold SendRequest.textLength
    rw [hlen, if_neg]
    omega
  have hfits : 0 ≤ req.textLength + 1 ∧ req.textLength + 1 ≤ req.memory.length := by
    rw [htl, hmem, List.length_append, List.length_cons]
    omega
  have htake : (req.textLength + 1).toNat = text.length + 1 := by
    rw [htl]
    exact Int.toNat_natCast (text.length + 1)
  unfold SendRequest.tempML SendRequest.copiedText
  rw [if_pos hfits, htake, hmem, Option.getD_some, take_terminated]

/-- A longer one is copied past the end of the block. -/
theorem copiedText_long (hmem : req.memory = text ++ 0 :: beyond)
    (hlen : req.m_in.m1_i1 = text.length) (h : messageSize ≤ text.length) :
    req.tempML.m.m1_p1.length = messageSize + 1 := by
  have htl : req.textLength = messageSize := by
    unfold SendRequest.textLength
    rw [hlen]
    split_ifs with hgt
    · rfl
    · omega
  have hfits : 0 ≤ req.textLength + 1 ∧ req.textLength + 1 ≤ req.memory.length := by
    rw [htl, hmem, List.length_append, List.length_cons]
    omega
  have htake : (req.textLength + 1).toNat = messageSize + 1 := by
    rw [htl]
    exact Int.toNat_natCast (messageSize + 1)
  unfold SendRequest.tempML SendRequest.copiedText
  rw [if_pos hfits, htake, hmem, Option.getD_some, List.length_take, List.length_append,
    List.length_cons]
  omega

theorem messagesOf_accepted {pm : PM} {r : ℤ} {more : List ℤ} (hr : req.receivers = r :: more)
    (h : (doMsend req pm).ret = some 1) :
    (doMsend req pm).pm.messagesOf r = pm.messagesOf r ++ [req.tempML] := by
  obtain ⟨mb, hl, hn, hs⟩ := (doMsend_ret hr).1.mp h
  rw [PM.messagesOf_of_some (lookup_accepted hr hl hn hs), PM.messagesOf_of_some hl]

end Payload

/-- The text of an accepted message stays in its block and is handed over as it was sent
exactly when it is shorter than `MESSAGESIZE`. -/
theorem payload_iff {pm : PM} {req : SendRequest} {r : ℤ} {more : List ℤ}
    {text beyond : List UInt8} (hr : req.receivers = r :: more)
    (hret : (doMsend req pm).ret = some 1) (hmem : req.memory = text ++ 0 :: beyond)
    (hz : 0 ∉ text) (hlen : req.m_in.m1_i1 = text.length) :
    PayloadKept r text pm (doMsend req pm).pm ↔ text.length < messageSize := by
  have hnew := messagesOf_accepted hr hret
  constructor
  · rintro ⟨node, hnode, hin, _⟩
    rw [hnew, List.append_cancel_left_eq, List.cons.injEq] at hnode
    by_contra hlong
    rw [← hnode.1, copiedText_long hmem hlen (Nat.not_lt.mp hlong)] at hin
    omega
  · intro hshort
    have hcopied := copiedText_short hmem hlen hshort
    have hle : (text ++ [0]).length ≤ messageSize := by
      rw [List.length_append, List.length_singleton]
      exact hshort
    refine ⟨req.tempML, hnew, ?_, ?_, ?_⟩
    · rw [hcopied]
      exact hle
    · rw [hcopied, List.take_of_length_le hle]
      exact List.mem_concat_self
    · intro _ _ _ _ _ behind
      have htext : text.take (messageSize - 1) = text :=
        List.take_of_length_le (Nat.le_sub_one_of_lt hshort)
      unfold handedOver
      dsimp only
      rw [hcopied, List.append_assoc, List.singleton_append, strlen_append hz, htext,
        take_terminated]

theorem payload_iff_seven :
    PayloadKept 7 [104, 105]
        ⟨[{ MailBox.fresh 7 with mbSender := [3] }], []⟩
        (doMsend (testMsend 3 [104, 105] [7]) ⟨[{ MailBox.fresh 7 with mbSender := [3] }], []⟩).pm ↔
      ([104, 105] : List UInt8).length < messageSize := by
  have hto : (testMsend 3 [104, 105] [7]).receivers = 7 :: [] := rfl
  exact payload_iff hto (by decide) rfl (by decide) rfl

/-- A text of `MESSAGESIZE` characters is put one byte past the end of its block. -/
theorem payload_fails :
    ¬ ∀ pm, Reachable system pm → ∀ req r more text beyond, req.receivers = r :: more →
      (doMsend req pm).ret = some 1 → req.memory = text ++ 0 :: beyond → 0 ∉ text →
      req.m_in.m1_i1 = text.length → PayloadKept r text pm (doMsend req pm).pm := by
  intro h
  have hr : Reachable system ⟨[{ MailBox.fresh 1 with mbSender := [5] }], []⟩ :=
    (replay_run 0 [.createMailbox 1, .addSender 1 5] .init rfl).reachable
  have hto : (testMsend 5 (List.replicate messageSize 97) [1]).receivers = 1 :: [] := rfl
  have hmem : (testMsend 5 (List.replicate messageSize 97) [1]).memory =
      List.replicate messageSize 97 ++ 0 :: [] := rfl
  have hret : (doMsend (testMsend 5 (List.replicate messageSize 97) [1])
      ⟨[{ MailBox.fresh 1 with mbSender := [5] }], []⟩).ret = some 1 :=
    (doMsend_ret hto).1.mpr ⟨_, rfl, by decide, List.mem_cons_self⟩
  obtain ⟨node, hnode, hin, _⟩ :=
    h _ hr _ 1 [] _ [] hto hret hmem (by simp [List.mem_replicate]) rfl
  rw [messagesOf_accepted hto hret, List.append_cancel_left_eq, List.cons.injEq] at hnode
  have hlong := copiedText_long hmem rfl (by rw [List.length_replicate])
  rw [← hnode.1, hlong] at hin
  omega

end MinixOS.MailboxHandover
