import MinixOS.MailboxSystem

/-!
# Counters and pending messages

Sending adds one to `numMes` with each node it hangs up, and tests `numMes` against
`BUFFERSIZE`. Receiving takes nodes off the list and never touches `numMes`. The
counter is therefore an upper bound of the pending messages, and no bound on them
is lost; but it is their number only as long as no receive takes a node off.

When a receive takes nodes off is a matter of the state it is called in: the first
mailbox is the caller's, the source it waits for is not 0, the copy succeeds, and
the first message, or one that is not the last, is from that source.
-/
namespace MinixOS.MailboxCapacity
open SystemRuns KeyedLists MailboxState MailboxCalls MailboxReceive MailboxSystem

/-! ## The counter bounds the list -/

def Bounded (mb : MailBox) : Prop :=
  mb.mbList.length ≤ mb.numMes ∧ mb.numMes ≤ bufferSize

theorem receipt_length_le {source v : ℤ} {ok : Bool} {l l' copied : List MessageNode}
    (h : Receipt source ok l l' copied v) : l'.length ≤ l.length := by
  cases h with
  | nothing _ => exact le_rfl
  | failed _ _ => exact le_rfl
  | first _ _ _ => simp
  | behind _ _ _ _ =>
      simp only [List.length_append, List.length_cons]
      omega
  | last _ _ _ _ => exact le_rfl

theorem changes_bounded {pm : PM} {call : Request} {o v : ℤ} {mb mb' : MailBox}
    (h : Changes pm call o mb mb' v) (hb : Bounded mb) : Bounded mb' := by
  cases h with
  | senderAdded _ => exact hb
  | senderKnown _ => exact hb
  | senderRemoved _ => exact hb
  | sendRefused _ _ _ => exact hb
  | sendAccepted _ hn _ =>
      refine ⟨?_, hn⟩
      have := hb.1
      simp only [List.length_append, List.length_singleton]
      omega
  | received _ _ hr => exact ⟨(receipt_length_le hr).trans hb.1, hb.2⟩

theorem bounded_step {pm pm' : PM} {call : Request} {answer : Answer}
    (h : ∀ mb ∈ pm.mailboxFront, Bounded mb) (hs : system.returns pm call answer pm') :
    ∀ mb ∈ pm'.mailboxFront, Bounded mb :=
  (effect_of_step hs).forall_mailbox (fun _ => ⟨le_rfl, Nat.zero_le _⟩) changes_bounded h

theorem bounded {pm : PM} (h : Reachable system pm) : ∀ mb ∈ pm.mailboxFront, Bounded mb :=
  h.invariant (fun _ hm => absurd hm List.not_mem_nil) bounded_step

/-- In every reachable state no mailbox has more than `BUFFERSIZE` pending messages. -/
theorem pending_le_bufferSize {pm : PM} (h : Reachable system pm) {mb : MailBox}
    (hm : mb ∈ pm.mailboxFront) : mb.mbList.length ≤ bufferSize :=
  (bounded h mb hm).1.trans (bounded h mb hm).2

/-- Three messages were accepted by the mailbox of 7, and the first was received. -/
theorem pending_le_bufferSize_seven :
    ∃ pm, Reachable system pm ∧ ∃ mb ∈ pm.mailboxFront, mb.numMes = 3 ∧ mb.mbList.length = 2 ∧
      mb.mbList.length ≤ bufferSize := by
  have hr := replay_run 5
    [.createMailbox 7, .addSender 7 3, .msend (testMsend 3 [104, 105] [7]),
      .mreceive (testMreceive 7 3 0), .msend (testMsend 3 [111, 107] [7]),
      .msend (testMsend 3 [] [7])] .init rfl
  exact ⟨_, hr.reachable, _, List.mem_cons_self, rfl, rfl,
    pending_le_bufferSize hr.reachable List.mem_cons_self⟩

/-! ## When the counter is the length of the list -/

def Accounted (pm : PM) : Prop := ∀ mb ∈ pm.mailboxFront, mb.numMes = mb.mbList.length

/-- The first node, or one that is not the last, is from `source`. -/
def BeforeLast (source : ℤ) (l : List MessageNode) : Prop :=
  (∃ node ∈ l.head?, node.sender = source) ∨ ∃ node ∈ l.dropLast, node.sender = source

/-- The state in which a receive takes nodes off the list of its mailbox. -/
def TakesOff (pm : PM) (req : ReceiveRequest) : Prop :=
  ∃ mb ∈ pm.mailboxFront.head?, mb.owner = req.ownerID ∧ awaitedSource pm req ≠ 0 ∧
    req.copyOk = true ∧ BeforeLast (awaitedSource pm req) mb.mbList

theorem beforeLast_append {source : ℤ} {front : List MessageNode} {message : MessageNode}
    (hf : ∀ node ∈ front, node.sender ≠ source) (hne : front ≠ []) :
    ¬ BeforeLast source (front ++ [message]) := by
  rintro (⟨node, hn, hs⟩ | ⟨node, hn, hs⟩)
  · rw [List.head?_append_of_ne_nil _ hne] at hn
    exact hf node (List.mem_of_mem_head? hn) hs
  · rw [List.dropLast_concat] at hn
    exact hf node hn hs

theorem not_beforeLast {source : ℤ} {l : List MessageNode}
    (h : ∀ node ∈ l, node.sender ≠ source) : ¬ BeforeLast source l := by
  rintro (⟨node, hn, hs⟩ | ⟨node, hn, hs⟩)
  · exact h node (List.mem_of_mem_head? hn) hs
  · exact h node (List.dropLast_subset l hn) hs

/-- A receive keeps the length of the list exactly when it takes nothing off. -/
theorem receipt_length_iff {source v : ℤ} {ok : Bool} {l l' copied : List MessageNode}
    (h : Receipt source ok l l' copied v) :
    l'.length = l.length ↔ ¬ (source ≠ 0 ∧ ok = true ∧ BeforeLast source l) := by
  cases h with
  | nothing h =>
      apply iff_of_true rfl
      rintro ⟨hs, _, hb⟩
      rcases h with h | h
      · exact hs h
      · exact not_beforeLast h hb
  | failed _ hok =>
      apply iff_of_true rfl
      rintro ⟨_, ht, _⟩
      exact Bool.false_ne_true (hok.symm.trans ht)
  | first hs hok hm =>
      refine iff_of_false (by simp) (not_not.mpr ⟨hs, hok, .inl ⟨_, rfl, hm⟩⟩)
  | @behind first front message next rest hs hok _ hm =>
      have hb : BeforeLast source (first :: front ++ message :: next :: rest) := by
        refine .inr ⟨message, ?_, hm⟩
        rw [List.dropLast_append_of_ne_nil (List.cons_ne_nil _ _)]
        simp
      refine iff_of_false ?_ (not_not.mpr ⟨hs, hok, hb⟩)
      simp only [List.length_append, List.length_cons]
      omega
  | last _ _ hf _ =>
      apply iff_of_true rfl
      rintro ⟨_, _, hb⟩
      exact beforeLast_append hf (List.cons_ne_nil _ _) hb

/-- The step is a receive that takes nodes off. -/
def TakesOffStep (e : Call) : Prop := ∃ req, e.call = .mreceive req ∧ TakesOff e.before req

theorem changes_accounted {pm : PM} {call : Request} {o v : ℤ} {mb mb' : MailBox}
    (h : Changes pm call o mb mb' v) (hmb : mb.numMes = mb.mbList.length) :
    mb'.numMes = mb'.mbList.length ↔ ¬ ∃ req, call = .mreceive req ∧ TakesOff pm req := by
  cases h with
  | senderAdded _ => exact iff_of_true hmb (by simp)
  | senderKnown _ => exact iff_of_true hmb (by simp)
  | senderRemoved _ => exact iff_of_true hmb (by simp)
  | sendRefused _ _ _ => exact iff_of_true hmb (by simp)
  | sendAccepted _ _ _ => exact iff_of_true (by simp [hmb]) (by simp)
  | @received req _ l _ _ hh ho hr =>
      have htakes : TakesOff pm req ↔ awaitedSource pm req ≠ 0 ∧ req.copyOk = true ∧
          BeforeLast (awaitedSource pm req) mb.mbList := by
        simp [TakesOff, hh, ho]
      rw [takeRecord_source] at hr
      simp only [Request.mreceive.injEq, exists_eq_left', htakes, ← receipt_length_iff hr, hmb]
      exact eq_comm

theorem idle_not_takesOff {pm : PM} {call : Request} {ret : Option ℤ} (h : Idle pm call ret) :
    ¬ ∃ req, call = .mreceive req ∧ TakesOff pm req := by
  rintro ⟨req, rfl, mb, hm, _⟩
  cases h with
  | noMailbox hc _ => cases hc
  | noMailboxes hf => simp [hf] at hm

/-- One call, made where counters are right, leaves them right exactly when it is not
a receive that takes nodes off. -/
theorem accounted_step {pm pm' : PM} {call : Request} {answer : Answer} (h : Accounted pm)
    (hs : system.returns pm call answer pm') :
    Accounted pm' ↔ ¬ TakesOffStep ⟨pm, call, answer, pm'⟩ := by
  have he := effect_of_step hs
  unfold Accounted TakesOffStep
  generalize pm'.mailboxFront = front at he
  generalize answer.ret = ret at he
  cases he with
  | idle hi => exact iff_of_true h (idle_not_takesOff hi)
  | created _ =>
      refine iff_of_true (fun mb hm => ?_) (by simp)
      rcases List.mem_append.mp hm with hm | hm
      · exact h mb hm
      · rw [List.mem_singleton.mp hm]
        rfl
  | removed _ => exact iff_of_true (fun mb hm => h mb ((remove_sublist _).subset hm)) (by simp)
  | changed hl hc =>
      rw [← changes_accounted hc (h _ (mem_of_find hl))]
      constructor
      · exact fun hall => hall _ (mem_change_found hl)
      · intro hmb mb hm
        rcases mem_change hm with hm | ⟨_, _, rfl⟩
        · exact h mb hm
        · exact hmb

/-- A send from an allowed sender to an existing mailbox is only refused when the
mailbox holds `BUFFERSIZE` messages. -/
def RefusedOnlyWhenFull (e : Call) : Prop :=
  ∀ req o more mb, e.call = .msend req → req.receivers = o :: more →
    lookup o e.before.mailboxFront = some mb → req.ownerID ∈ mb.mbSender →
    e.answer.ret ≠ some 1 → mb.mbList.length = bufferSize

/-- Every counter is right after the step, and if the step is a send that is refused
although it is allowed, the mailbox was full. -/
def BufferAccounting (e : Call) : Prop := Accounted e.after ∧ RefusedOnlyWhenFull e

theorem refusedOnlyWhenFull {pm pm' : PM} {call : Request} {answer : Answer}
    (hb : ∀ mb ∈ pm.mailboxFront, Bounded mb) (ha : Accounted pm)
    (hs : system.returns pm call answer pm') :
    RefusedOnlyWhenFull ⟨pm, call, answer, pm'⟩ := by
  rintro req o more mb rfl hr hl hsend hret
  have hmem := mem_of_find hl
  have he := effect_of_step hs
  generalize pm'.mailboxFront = front at he
  dsimp only at hret hl
  generalize answer.ret = ret at he hret
  cases he with
  | idle hi =>
      cases hi with
      | noMailbox hc hnone =>
          cases hc with
          | msend hr' =>
              obtain ⟨rfl, rfl⟩ := List.cons.inj (hr'.symm.trans hr)
              rw [hl] at hnone
              exact absurd hnone (Option.some_ne_none mb)
      | bufferFull hr' hl' hn =>
          obtain ⟨rfl, rfl⟩ := List.cons.inj (hr'.symm.trans hr)
          obtain rfl := Option.some.inj (hl'.symm.trans hl)
          rw [← ha _ hmem]
          exact le_antisymm (hb _ hmem).2 hn
      | nobody hr' _ => exact absurd (hr'.symm.trans hr) (List.cons_ne_nil o more).symm
  | changed hl' hc =>
      cases hc with
      | sendRefused hr' _ hno =>
          obtain ⟨rfl, rfl⟩ := List.cons.inj (hr'.symm.trans hr)
          obtain rfl := Option.some.inj (hl'.symm.trans hl)
          exact absurd hsend hno
      | sendAccepted _ _ _ => exact absurd rfl hret

theorem accounted_of_no_takesOff {history : List Call} {pm : PM} (h : Run system history pm)
    (hno : ∀ e ∈ history, ¬ TakesOffStep e) :
    Accounted pm ∧ ∀ e ∈ history, BufferAccounting e := by
  refine h.guarded_invariant
    (I := fun history pm => Accounted pm ∧ ∀ e ∈ history, BufferAccounting e)
    ⟨fun _ hm => absurd hm List.not_mem_nil, by simp⟩ ?_ hno
  rintro history s c a t hr ⟨ha, hall⟩ hs hstep
  have hb : ∀ mb ∈ s.mailboxFront, Bounded mb := bounded hr.reachable
  have ht : Accounted t := (accounted_step ha hs).mpr hstep
  refine ⟨ht, fun e he => ?_⟩
  rcases List.mem_cons.mp he with rfl | he
  · exact ⟨ht, refusedOnlyWhenFull hb ha hs⟩
  · exact hall e he

/-- In a run, buffer accounting holds of every call exactly when no receive of the run
takes nodes off the list of its mailbox. -/
theorem buffer_accounting_iff {history : List Call} {pm : PM} (h : Run system history pm) :
    (∀ e ∈ history, BufferAccounting e) ↔ ∀ e ∈ history, ¬ TakesOffStep e := by
  refine ⟨fun hall => ?_, fun hno => (accounted_of_no_takesOff h hno).2⟩
  induction h with
  | init => simp
  | @call history s t c a hr hs ih =>
      have hrest := ih fun e he => hall e (List.mem_cons_of_mem _ he)
      have ha := (accounted_of_no_takesOff hr hrest).1
      have ht := (hall _ List.mem_cons_self).1
      intro e he
      rcases List.mem_cons.mp he with rfl | he
      · exact (accounted_step ha hs).mp ht
      · exact hrest e he

/-- Two messages are pending, and a receive waits for a sender of none of them. -/
theorem buffer_accounting_iff_pending : ∃ history pm, Run system history pm ∧
    pm.mailboxFront.map (fun mb => (mb.numMes, mb.mbList.length)) = [(2, 2)] ∧
    ∀ e ∈ history, BufferAccounting e := by
  have hr := replay_run 1
    [.createMailbox 7, .addSender 7 3, .msend (testMsend 3 [104, 105] [7]),
      .msend (testMsend 3 [111, 107] [7]), .mreceive (testMreceive 7 5 0)] .init rfl
  refine ⟨_, _, hr, rfl, (buffer_accounting_iff hr).mpr ?_⟩
  simp [TakesOffStep, TakesOff, BeforeLast]
  decide

/-- One message sent and received leaves `numMes` at 1 and the list empty. -/
theorem buffer_accounting_fails :
    ¬ ∀ history pm, Run system history pm → ∀ e ∈ history, BufferAccounting e := by
  intro h
  have hr := replay_run 1
    [.createMailbox 1, .addSender 1 2, .msend (testMsend 2 [104, 105] [1]),
      .mreceive (testMreceive 1 2 0)] .init rfl
  have hacc := (h _ _ hr _ List.mem_cons_self).1
  exact absurd (hacc _ List.mem_cons_self) (by decide)

end MinixOS.MailboxCapacity
