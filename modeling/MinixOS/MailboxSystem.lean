import MinixOS.SystemRuns
import MinixOS.MailboxCalls
import MinixOS.MailboxReceive

/-!
# The mailbox server

The process manager serves one of the six calls at a time, so a run is a sequence
of calls, each made on the lists the call before it left. A call takes a step when
it returns. What the kernel answers, and what the memory of the caller holds, is
part of the request: every answer is possible at every call.

The relation `Effect` says once what a returning call can do to the list of
mailboxes. It adds an empty mailbox, it unlinks one, it changes one in one of seven
ways, or it leaves the list as it was. Invariants are proved from it.
-/
namespace MinixOS.MailboxSystem
open LoopExecution SystemRuns KeyedLists MailboxState MailboxCalls MailboxReceive

inductive Request where
  | createMailbox (ownerID : ℤ)
  | removeMailbox (ownerID : ℤ)
  | addSender (ownerID id : ℤ)
  | removeSender (ownerID id : ℤ)
  | msend (req : SendRequest)
  | mreceive (req : ReceiveRequest)
deriving DecidableEq, Repr

/-- The fuel bounds the one loop that may not end, that of `do_mreceive`. -/
def execute (fuel : ℕ) : Request → PM → Option Outcome
  | .createMailbox ownerID, pm => some (doCreateMailbox ownerID pm)
  | .removeMailbox ownerID, pm => some (doRemoveMailbox ownerID pm)
  | .addSender ownerID id, pm => some (doAddSender ownerID id pm)
  | .removeSender ownerID id, pm => some (doRemoveSender ownerID id pm)
  | .msend req, pm => some (doMsend req pm)
  | .mreceive req, pm => doMreceive fuel req pm

/-- The call returns, with this outcome. -/
def Returns (call : Request) (pm : PM) (out : Outcome) : Prop :=
  ∃ fuel, execute fuel call pm = some out

theorem Returns.unique {call : Request} {pm : PM} {out out' : Outcome}
    (h : Returns call pm out) (h' : Returns call pm out') : out = out' := by
  obtain ⟨fuel, hf⟩ := h
  obtain ⟨fuel', hf'⟩ := h'
  cases call with
  | mreceive req =>
      obtain ⟨front, suspended⟩ := pm
      cases front with
      | nil => exact Option.some.inj (hf.symm.trans hf')
      | cons mb rest => exact Leaves.unique ⟨fuel, hf⟩ ⟨fuel', hf'⟩
  | _ => exact Option.some.inj (hf.symm.trans hf')

structure Answer where
  log : List Event
  ret : Option ℤ
deriving DecidableEq, Repr

def system : System PM Request Answer where
  init := PM.initial
  returns pm call answer pm' := Returns call pm ⟨pm', answer.log, answer.ret⟩

abbrev Call := Step PM Request Answer

/-- The step a call takes that returns with `out`. -/
def callOf (pm : PM) (call : Request) (out : Outcome) : Call :=
  { before := pm, call := call, answer := ⟨out.log, out.ret⟩, after := out.pm }

/-! ## What a step says of the past -/

def Creates (o : ℤ) (e : Call) : Prop := e.call = .createMailbox o ∧ e.answer.ret = some 1

instance (o : ℤ) (e : Call) : Decidable (Creates o e) := inferInstanceAs (Decidable (_ ∧ _))

def Removes (o : ℤ) (e : Call) : Prop := e.call = .removeMailbox o ∧ e.answer.ret = some 1

def Allows (o s : ℤ) (e : Call) : Prop := e.call = .addSender o s ∧ e.answer.ret = some 1

/-- Asked to take `s` back, whatever the call returned. -/
def Forbids (o s : ℤ) (e : Call) : Prop := e.call = .removeSender o s

def serve (fuel : ℕ) (call : Request) (pm : PM) : Option (Answer × PM) :=
  (execute fuel call pm).map fun out => (⟨out.log, out.ret⟩, out.pm)

theorem replay_run (fuel : ℕ) (calls : List Request) {history history' : List Call}
    {pm pm' : PM} (hr : Run system history pm)
    (h : replay (serve fuel) calls history pm = some (history', pm')) :
    Run system history' pm' := by
  refine hr.replay (fun {call s answer t} hs => ?_) calls h
  obtain ⟨out, hout, hpair⟩ := Option.map_eq_some_iff.mp hs
  cases hpair
  exact ⟨fuel, hout⟩

/-- The request `test_msend` of mailboxtest.c makes for the process `pid`, where `malloc` gives
an empty string. -/
def testMsend (pid : ℤ) (mesAct : List UInt8) (recList : List ℤ) : SendRequest :=
  { m_in :=
      { m1_i1 := mesAct.length, m1_i2 := recList.length, m1_i3 := pid, m1_p1 := 0, m1_p2 := 0 }
    who_e := pid
    tempReceiver := recList
    memory := mesAct ++ [0]
    block := [0] }

/-- The request `test_mreceive` makes, when the copy to `senderAddr` succeeds. -/
def testMreceive (pid senderID : ℤ) (senderAddr : ℕ) : ReceiveRequest :=
  { m1_i1 := senderID, ownerID := pid, m1_p1 := senderAddr, who_e := pid, copyOk := true }

theorem fresh_reachable (o : ℤ) : Reachable system ⟨[MailBox.fresh o], []⟩ :=
  (replay_run 0 [.createMailbox o] .init rfl).reachable

/-! ## What a returning call does to the mailboxes -/

/-- The ways to change the mailbox of `o`, with the value returned. -/
inductive Changes (pm : PM) : Request → ℤ → MailBox → MailBox → ℤ → Prop
  | senderAdded {o id : ℤ} {mb : MailBox} (h : id ∉ mb.mbSender) :
      Changes pm (.addSender o id) o mb { mb with mbSender := mb.mbSender ++ [id] } 1
  | senderKnown {o id : ℤ} {mb : MailBox} (h : id ∈ mb.mbSender) :
      Changes pm (.addSender o id) o mb
        { mb with mbSender := mb.mbSender.dropWhile (· ≠ id) } (-1)
  | senderRemoved {o id : ℤ} {mb : MailBox} (h : id ∈ mb.mbSender) :
      Changes pm (.removeSender o id) o mb { mb with mbSender := mb.mbSender.erase id } 1
  | sendRefused {req : SendRequest} {o : ℤ} {more : List ℤ} {mb : MailBox}
      (hr : req.receivers = o :: more) (hn : mb.numMes < bufferSize)
      (h : req.ownerID ∉ mb.mbSender) :
      Changes pm (.msend req) o mb { mb with mbSender := [] } (-1)
  | sendAccepted {req : SendRequest} {o : ℤ} {more : List ℤ} {mb : MailBox}
      (hr : req.receivers = o :: more) (hn : mb.numMes < bufferSize)
      (h : req.ownerID ∈ mb.mbSender) :
      Changes pm (.msend req) o mb
        { mb with
          mbSender := mb.mbSender.dropWhile (· ≠ req.ownerID)
          mbList := mb.mbList ++ [req.tempML]
          numMes := mb.numMes + 1 } 1
  | received {req : ReceiveRequest} {mb : MailBox} {l copied : List MessageNode} {v : ℤ}
      (hh : pm.mailboxFront.head? = some mb) (ho : mb.owner = req.ownerID)
      (h : Receipt (takeRecord req pm.deadlockOne).m1_i1 req.copyOk mb.mbList l copied v) :
      Changes pm (.mreceive req) req.ownerID mb { mb with mbList := l } v

/-- The request is about the mailbox of `o`, which it does not make. -/
inductive Names : Request → ℤ → Prop
  | removeMailbox (o : ℤ) : Names (.removeMailbox o) o
  | addSender (o id : ℤ) : Names (.addSender o id) o
  | removeSender (o id : ℤ) : Names (.removeSender o id) o
  | msend {req : SendRequest} {o : ℤ} {more : List ℤ} (h : req.receivers = o :: more) :
      Names (.msend req) o

/-- The ways to leave the list of mailboxes as it is. -/
inductive Idle (pm : PM) : Request → Option ℤ → Prop
  | mailboxExists {o : ℤ} (h : lookup o pm.mailboxFront ≠ none) :
      Idle pm (.createMailbox o) (some (-1))
  | noMailbox {call : Request} {o : ℤ} (hc : Names call o)
      (h : lookup o pm.mailboxFront = none) : Idle pm call (some (-1))
  | senderUnknown {o id : ℤ} {mb : MailBox} (h : lookup o pm.mailboxFront = some mb)
      (hs : id ∉ mb.mbSender) : Idle pm (.removeSender o id) (some (-1))
  | bufferFull {req : SendRequest} {o : ℤ} {more : List ℤ} {mb : MailBox}
      (hr : req.receivers = o :: more) (h : lookup o pm.mailboxFront = some mb)
      (hn : bufferSize ≤ mb.numMes) : Idle pm (.msend req) (some (-1))
  | nobody {req : SendRequest} {ret : Option ℤ} (hr : req.receivers = []) (h : ret ≠ some 1) :
      Idle pm (.msend req) ret
  | noMailboxes {req : ReceiveRequest} (h : pm.mailboxFront = []) :
      Idle pm (.mreceive req) (some (-1))

/-- The list of mailboxes a returning call leaves, and its value. -/
inductive Effect (pm : PM) : Request → List MailBox → Option ℤ → Prop
  | idle {call : Request} {ret : Option ℤ} (h : Idle pm call ret) :
      Effect pm call pm.mailboxFront ret
  | created {o : ℤ} (h : lookup o pm.mailboxFront = none) :
      Effect pm (.createMailbox o) (pm.mailboxFront ++ [MailBox.fresh o]) (some 1)
  | removed {o : ℤ} {mb : MailBox} (h : lookup o pm.mailboxFront = some mb) :
      Effect pm (.removeMailbox o) (remove MailBox.owner o pm.mailboxFront) (some 1)
  | changed {call : Request} {o : ℤ} {mb mb' : MailBox} {v : ℤ}
      (h : lookup o pm.mailboxFront = some mb) (hc : Changes pm call o mb mb' v) :
      Effect pm call (change MailBox.owner o (fun _ => mb') pm.mailboxFront) (some v)

theorem Changes.owner {pm : PM} {call : Request} {o v : ℤ} {mb mb' : MailBox}
    (h : Changes pm call o mb mb' v) : mb'.owner = mb.owner := by
  cases h <;> rfl

theorem Idle.ret_ne_one {pm : PM} {call : Request} {ret : Option ℤ} (h : Idle pm call ret) :
    ret ≠ some 1 := by
  cases h with
  | nobody _ h => exact h
  | _ => decide

/-- What a walk to the owner does, given what its body does there. -/
theorem effect_of_walk {pm : PM} {call : Request} {o : ℤ} {body : MailBox → Block}
    (hc : Names call o)
    (hb : ∀ mb, lookup o pm.mailboxFront = some mb →
      ∃ v, (body mb).control = .ret v ∧
        (((body mb).cursor = mb ∧ Idle pm call (some v)) ∨
          Changes pm call o mb (body mb).cursor v)) :
    Effect pm call (change MailBox.owner o (fun mb => (body mb).cursor) pm.mailboxFront)
      (some (((lookup o pm.mailboxFront).map fun mb =>
        (body mb).control.valueOrError).getD (-1))) := by
  cases hl : lookup o pm.mailboxFront with
  | none =>
      rw [change_of_find_none hl]
      exact .idle (.noMailbox hc hl)
  | some mb =>
      obtain ⟨v, hv, hcase⟩ := hb mb hl
      simp only [Option.map_some, Option.getD_some, hv, Control.valueOrError]
      rw [change_of_find hl]
      rcases hcase with ⟨he, hi⟩ | hch
      · rw [he, change_self hl]
        exact .idle hi
      · exact .changed hl hch

theorem effect_addSender (o id : ℤ) (pm : PM) :
    Effect pm (.addSender o id) (doAddSender o id pm).pm.mailboxFront (doAddSender o id pm).ret := by
  rw [doAddSender_pm, doAddSender_ret]
  refine effect_of_walk (.addSender o id) fun mb _ => ?_
  by_cases h : id ∈ mb.mbSender
  · obtain ⟨hcur, hv⟩ := addSenderTo_known h
    exact ⟨_, hv, .inr (hcur ▸ .senderKnown h)⟩
  · obtain ⟨hcur, hv⟩ := addSenderTo_new h
    exact ⟨_, hv, .inr (hcur ▸ .senderAdded h)⟩

theorem effect_removeSender (o id : ℤ) (pm : PM) :
    Effect pm (.removeSender o id) (doRemoveSender o id pm).pm.mailboxFront
      (doRemoveSender o id pm).ret := by
  rw [doRemoveSender_pm, doRemoveSender_ret]
  refine effect_of_walk (.removeSender o id) fun mb hl => ?_
  by_cases h : id ∈ mb.mbSender
  · obtain ⟨hcur, hv⟩ := removeSenderFrom_known h
    exact ⟨_, hv, .inr (hcur ▸ .senderRemoved h)⟩
  · obtain ⟨hcur, hv⟩ := removeSenderFrom_unknown h
    exact ⟨_, hv, .inl ⟨hcur, .senderUnknown hl h⟩⟩

theorem effect_msend (req : SendRequest) (pm : PM) :
    Effect pm (.msend req) (doMsend req pm).pm.mailboxFront (doMsend req pm).ret := by
  cases hr : req.receivers with
  | nil =>
      obtain ⟨hp, hv⟩ := doMsend_nobody hr pm
      rw [hp]
      exact .idle (.nobody hr hv)
  | cons o more =>
      obtain ⟨hp, hv⟩ := doMsend_to hr pm
      rw [hp, hv]
      refine effect_of_walk (.msend hr) fun mb hl => ?_
      by_cases hn : bufferSize ≤ mb.numMes
      · obtain ⟨hcur, hret⟩ := sendTo_full req pm.deadlockOne o hn
        exact ⟨_, hret, .inl ⟨hcur, .bufferFull hr hl hn⟩⟩
      · have hroom := Nat.not_le.mp hn
        by_cases hs : req.ownerID ∈ mb.mbSender
        · obtain ⟨hcur, hret⟩ := sendTo_accepted req pm.deadlockOne o hroom hs
          exact ⟨_, hret, .inr (hcur ▸ .sendAccepted hr hroom hs)⟩
        · obtain ⟨hcur, hret⟩ := sendTo_refused req pm.deadlockOne o hroom hs
          exact ⟨_, hret, .inr (hcur ▸ .sendRefused hr hroom hs)⟩

theorem effect_mreceive {fuel : ℕ} {req : ReceiveRequest} {pm : PM} {out : Outcome}
    (h : doMreceive fuel req pm = some out) :
    Effect pm (.mreceive req) out.pm.mailboxFront out.ret := by
  rcases doMreceive_cases h with ⟨hf, hp, hv, _⟩ | ⟨mb, rest, l, v, hf, ho, hp, hv, hr⟩
  · rw [hp, hv]
    exact .idle (.noMailboxes hf)
  · have hl : lookup req.ownerID pm.mailboxFront = some mb := by simp [hf, ho]
    have hh : pm.mailboxFront.head? = some mb := by simp [hf]
    have hc := Effect.changed hl (.received hh ho hr)
    rw [hp, hv]
    simpa [hf, change, ho] using hc

/-- Everything a step can do to the mailboxes. -/
theorem effect_of_returns {call : Request} {pm : PM} {out : Outcome} (h : Returns call pm out) :
    Effect pm call out.pm.mailboxFront out.ret := by
  obtain ⟨fuel, h⟩ := h
  cases call with
  | createMailbox o =>
      obtain rfl := Option.some.inj h
      by_cases hl : lookup o pm.mailboxFront = none
      · obtain ⟨hp, hv⟩ := doCreateMailbox_new hl
        rw [hp, hv]
        exact .created hl
      · obtain ⟨hp, hv⟩ := doCreateMailbox_exists hl
        rw [hp, hv]
        exact .idle (.mailboxExists hl)
  | removeMailbox o =>
      obtain rfl := Option.some.inj h
      obtain ⟨hp, hv⟩ := doRemoveMailbox_spec o pm
      rw [hp, hv]
      cases hl : lookup o pm.mailboxFront with
      | none =>
          simp only [remove_of_find_none hl, if_true]
          exact .idle (.noMailbox (.removeMailbox o) hl)
      | some mb =>
          simp only [reduceCtorEq, if_false]
          exact .removed hl
  | addSender o id =>
      obtain rfl := Option.some.inj h
      exact effect_addSender o id pm
  | removeSender o id =>
      obtain rfl := Option.some.inj h
      exact effect_removeSender o id pm
  | msend req =>
      obtain rfl := Option.some.inj h
      exact effect_msend req pm
  | mreceive req => exact effect_mreceive h

/-- A property of single mailboxes is kept if new mailboxes have it and changes keep it. -/
theorem Effect.forall_mailbox {P : MailBox → Prop} {pm : PM} {call : Request}
    {front : List MailBox} {ret : Option ℤ} (h : Effect pm call front ret)
    (fresh : ∀ o, P (MailBox.fresh o))
    (changes : ∀ {o mb mb' v}, Changes pm call o mb mb' v → P mb → P mb')
    (hP : ∀ mb ∈ pm.mailboxFront, P mb) : ∀ mb ∈ front, P mb := by
  cases h with
  | idle _ => exact hP
  | created _ =>
      intro mb hm
      rcases List.mem_append.mp hm with hm | hm
      · exact hP mb hm
      · rw [List.mem_singleton.mp hm]
        exact fresh _
  | removed _ => exact fun mb hm => hP mb ((remove_sublist _).subset hm)
  | changed hl hc =>
      intro mb hm
      rcases mem_change hm with hm | ⟨a, ha, rfl⟩
      · exact hP mb hm
      · exact changes hc (hP _ (mem_of_find hl))

theorem effect_of_step {pm pm' : PM} {call : Request} {answer : Answer}
    (h : system.returns pm call answer pm') : Effect pm call pm'.mailboxFront answer.ret :=
  effect_of_returns h

end MinixOS.MailboxSystem
