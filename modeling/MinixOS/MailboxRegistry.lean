import MinixOS.MailboxSystem

/-!
# The registry of mailboxes

Seen by owner, the list of mailboxes is a partial map. In reachable states no two
mailboxes have one owner, creating and removing are insertion into the map and
deletion from it, and each of the calls that name one mailbox is an update of the
map at that owner. Calls on different mailboxes therefore commute.
-/
namespace MinixOS.MailboxRegistry
open MailboxState KeyedLists MailboxCalls MailboxReceive MailboxSystem SystemRuns

/-! ## Owners are distinct -/

def DistinctOwners (pm : PM) : Prop := (pm.mailboxFront.map MailBox.owner).Nodup

theorem effect_distinctOwners {pm : PM} {call : Request} {front : List MailBox}
    {ret : Option ℤ} (h : Effect pm call front ret) (hn : DistinctOwners pm) :
    (front.map MailBox.owner).Nodup := by
  cases h with
  | idle _ => exact hn
  | created h =>
      rw [find_eq_none] at h
      rw [List.map_append, List.nodup_append]
      refine ⟨hn, List.nodup_singleton _, ?_⟩
      rintro _ ha _ hb rfl
      obtain ⟨mb, hm, he⟩ := List.mem_map.mp ha
      exact h mb hm (he.trans (List.mem_singleton.mp hb))
  | removed _ => exact hn.sublist ((remove_sublist _).map _)
  | @changed _ o mb mb' _ h hc =>
      have hk : ∀ a : MailBox, a.owner = o → mb'.owner = o := fun _ _ =>
        hc.owner.trans (key_of_find h)
      rw [change_keys hk]
      exact hn

theorem distinctOwners {pm : PM} (h : Reachable system pm) : DistinctOwners pm :=
  h.invariant List.nodup_nil fun hn hs => effect_distinctOwners (effect_of_step hs) hn

/-! ## Creating and removing -/

/-- In a reachable state owners are distinct. Creating succeeds exactly for an owner
without a mailbox, and puts an empty one at the end. Removing succeeds exactly for
an owner with one, and leaves the mailboxes of all others in their order. -/
theorem create_remove_registry {pm : PM} (h : Reachable system pm) (o : ℤ) :
    (pm.mailboxFront.map MailBox.owner).Nodup ∧
      ((doCreateMailbox o pm).ret = some 1 ↔ ∀ mb ∈ pm.mailboxFront, mb.owner ≠ o) ∧
      (doCreateMailbox o pm).pm.mailboxFront =
        (if (doCreateMailbox o pm).ret = some 1 then
          pm.mailboxFront ++ [{ numMes := 0, owner := o, mbSender := [], mbList := [] }]
        else pm.mailboxFront) ∧
      ((doCreateMailbox o pm).ret = some 1 ∨ (doCreateMailbox o pm).ret = some (-1)) ∧
      ((doRemoveMailbox o pm).ret = some 1 ↔ ∃ mb ∈ pm.mailboxFront, mb.owner = o) ∧
      (doRemoveMailbox o pm).pm.mailboxFront = pm.mailboxFront.filter (fun mb => mb.owner ≠ o) ∧
      ((doRemoveMailbox o pm).ret = some 1 ∨ (doRemoveMailbox o pm).ret = some (-1)) := by
  have hn := distinctOwners h
  obtain ⟨hp, hv⟩ := doRemoveMailbox_spec o pm
  have hr : (doRemoveMailbox o pm).pm.mailboxFront =
      pm.mailboxFront.filter (fun mb => mb.owner ≠ o) := by
    rw [hp]
    exact remove_eq_filter hn
  by_cases hl : lookup o pm.mailboxFront = none
  · obtain ⟨hc, hcv⟩ := doCreateMailbox_new hl
    rw [if_pos hl] at hv
    have hall := find_eq_none.mp hl
    refine ⟨hn, iff_of_true hcv hall, ?_, .inl hcv, ?_, hr, .inr hv⟩
    · rw [if_pos hcv, hc]
      rfl
    · rw [hv]
      apply iff_of_false (by decide)
      rintro ⟨mb, hm, ho⟩
      exact hall mb hm ho
  · obtain ⟨hc, hcv⟩ := doCreateMailbox_exists hl
    rw [if_neg hl] at hv
    have hsome : ∃ mb ∈ pm.mailboxFront, mb.owner = o := by
      obtain ⟨mb, hf⟩ := Option.ne_none_iff_exists'.mp hl
      exact ⟨mb, mem_of_find hf, key_of_find hf⟩
    refine ⟨hn, ?_, ?_, .inr hcv, iff_of_true hv hsome, hr, .inl hv⟩
    · rw [hcv]
      refine iff_of_false (by decide) fun hall => ?_
      obtain ⟨mb, hm, ho⟩ := hsome
      exact hall mb hm ho
    · rw [hcv, hc, if_neg (by decide)]

/-- The second of three mailboxes is removed, and its owner cannot create another. -/
theorem create_remove_registry_seven :
    (doRemoveMailbox 7 ⟨[MailBox.fresh 1, MailBox.fresh 7, MailBox.fresh 9], []⟩).ret = some 1 ∧
      (doRemoveMailbox 7
          ⟨[MailBox.fresh 1, MailBox.fresh 7, MailBox.fresh 9], []⟩).pm.mailboxFront =
        [MailBox.fresh 1, MailBox.fresh 9] ∧
      (doCreateMailbox 7 ⟨[MailBox.fresh 1, MailBox.fresh 7, MailBox.fresh 9], []⟩).ret ≠
        some 1 := by
  have hr := (replay_run 0 [.createMailbox 1, .createMailbox 7, .createMailbox 9] .init
    rfl).reachable
  obtain ⟨_, hcreate, _, _, hremove, hleft, _⟩ := create_remove_registry hr 7
  exact ⟨hremove.mpr ⟨MailBox.fresh 7, by decide, rfl⟩, hleft,
    fun hret => hcreate.mp hret (MailBox.fresh 7) (by decide) rfl⟩

/-! ## Calls as updates at one owner -/

/-- What the process manager keeps for an owner: senders, messages and `numMes`. -/
def contents (pm : PM) (o : ℤ) : Option (List ℤ × List MessageNode × ℕ) :=
  (lookup o pm.mailboxFront).map fun mb => (mb.mbSender, mb.mbList, mb.numMes)

/-- The owner a call is about. A send has one when it has exactly one receiver. -/
def target : Request → Option ℤ
  | .createMailbox o => some o
  | .removeMailbox o => some o
  | .addSender o _ => some o
  | .removeSender o _ => some o
  | .msend req =>
      match req.receivers with
      | [o] => some o
      | _ => none
  | .mreceive _ => none

/-- A loop that stops at the mailbox of the owner, as an update there. -/
def walkUpdate (o : ℤ) (body : MailBox → Block) : Update ℤ MailBox (Option ℤ) where
  key := o
  act found :=
    (found.map fun mb => (body mb).cursor,
      some ((found.map fun mb => (body mb).control.valueOrError).getD (-1)))

/-- The abstract meaning of a call on the map from owners to mailboxes. -/
def meaning : Request → Option (Update ℤ MailBox (Option ℤ))
  | .createMailbox o =>
      some
        { key := o
          act := fun
            | none => (some (MailBox.fresh o), some 1)
            | some mb => (some mb, some (-1)) }
  | .removeMailbox o =>
      some
        { key := o
          act := fun
            | none => (none, some (-1))
            | some _ => (none, some 1) }
  | .addSender o id => some (walkUpdate o (addSenderTo id))
  | .removeSender o id => some (walkUpdate o (removeSenderFrom id))
  | .msend req =>
      match req.receivers with
      | [o] => some (walkUpdate o (sendTo req [] o))
      | _ => none
  | .mreceive _ => none

theorem meaning_of_target {call : Request} {o : ℤ} (h : target call = some o) :
    ∃ u, meaning call = some u ∧ u.key = o := by
  cases call with
  | createMailbox p => exact ⟨_, rfl, Option.some.inj h⟩
  | removeMailbox p => exact ⟨_, rfl, Option.some.inj h⟩
  | addSender p id => exact ⟨_, rfl, Option.some.inj h⟩
  | removeSender p id => exact ⟨_, rfl, Option.some.inj h⟩
  | msend req =>
      simp only [target] at h
      split at h
      · rename_i p hp
        simp only [meaning, hp]
        exact ⟨_, rfl, Option.some.inj h⟩
      · exact absurd h.symm (Option.some_ne_none o)
  | mreceive req => exact absurd h.symm (Option.some_ne_none o)

/-- Except for what it resumes, a send does not depend on the suspended list. -/
theorem sendTo_suspended (req : SendRequest) (suspended : List ProcDeadlock) (r : ℤ)
    (mb : MailBox) :
    (sendTo req suspended r mb).cursor = (sendTo req [] r mb).cursor ∧
      (sendTo req suspended r mb).control = (sendTo req [] r mb).control := by
  by_cases hn : bufferSize ≤ mb.numMes
  · obtain ⟨h₁, h₂⟩ := sendTo_full req suspended r hn
    obtain ⟨h₃, h₄⟩ := sendTo_full req [] r hn
    exact ⟨h₁.trans h₃.symm, h₂.trans h₄.symm⟩
  · have hroom := Nat.not_le.mp hn
    by_cases hs : req.ownerID ∈ mb.mbSender
    · obtain ⟨h₁, h₂⟩ := sendTo_accepted req suspended r hroom hs
      obtain ⟨h₃, h₄⟩ := sendTo_accepted req [] r hroom hs
      exact ⟨h₁.trans h₃.symm, h₂.trans h₄.symm⟩
    · obtain ⟨h₁, h₂⟩ := sendTo_refused req suspended r hroom hs
      obtain ⟨h₃, h₄⟩ := sendTo_refused req [] r hroom hs
      exact ⟨h₁.trans h₃.symm, h₂.trans h₄.symm⟩

/-- The map from owners to mailboxes. -/
def registry (pm : PM) (o : ℤ) : Option MailBox := lookup o pm.mailboxFront

theorem registry_walk {pm pm' : PM} {o : ℤ} {body : MailBox → Block}
    (hb : ∀ mb, (body mb).cursor.owner = mb.owner)
    (hp : pm'.mailboxFront = change MailBox.owner o (fun mb => (body mb).cursor) pm.mailboxFront) :
    registry pm' = (walkUpdate o body).apply (registry pm) := by
  funext j
  have hk : ∀ a : MailBox, a.owner = o → (body a).cursor.owner = o := fun a ha => (hb a).trans ha
  simp only [registry, hp, find_change hk, Update.apply, walkUpdate, Function.update_apply]

theorem addSenderTo_owner (id : ℤ) (mb : MailBox) : (addSenderTo id mb).cursor.owner = mb.owner := by
  by_cases h : id ∈ mb.mbSender
  · rw [(addSenderTo_known h).1]
  · rw [(addSenderTo_new h).1]

theorem removeSenderFrom_owner (id : ℤ) (mb : MailBox) :
    (removeSenderFrom id mb).cursor.owner = mb.owner := by
  by_cases h : id ∈ mb.mbSender
  · rw [(removeSenderFrom_known h).1]
  · rw [(removeSenderFrom_unknown h).1]

theorem sendTo_owner (req : SendRequest) (suspended : List ProcDeadlock) (r : ℤ) (mb : MailBox) :
    (sendTo req suspended r mb).cursor.owner = mb.owner := by
  by_cases hn : bufferSize ≤ mb.numMes
  · rw [(sendTo_full req suspended r hn).1]
  · by_cases hs : req.ownerID ∈ mb.mbSender
    · rw [(sendTo_accepted req suspended r (Nat.not_le.mp hn) hs).1]
    · rw [(sendTo_refused req suspended r (Nat.not_le.mp hn) hs).1]

theorem createMailbox_registry (o : ℤ) (pm : PM) {u : Update ℤ MailBox (Option ℤ)}
    (hu : meaning (.createMailbox o) = some u) :
    registry (doCreateMailbox o pm).pm = u.apply (registry pm) ∧
      (doCreateMailbox o pm).ret = u.answer (registry pm) := by
  obtain rfl := Option.some.inj hu
  cases hl : lookup o pm.mailboxFront with
  | none =>
      obtain ⟨hp, hv⟩ := doCreateMailbox_new hl
      refine ⟨?_, by simp only [hv, Update.answer, registry, hl]⟩
      funext j
      simp only [hp, registry, Update.apply, hl, find_append, find_cons, find_nil,
        Function.update_apply, MailBox.fresh]
      by_cases hj : j = o
      · simp [hj, hl]
      · simp [hj, Ne.symm hj]
  | some mb =>
      obtain ⟨hp, hv⟩ := doCreateMailbox_exists (by rw [hl]; exact Option.some_ne_none mb)
      refine ⟨?_, by simp only [hv, Update.answer, registry, hl]⟩
      funext j
      simp only [hp, registry, Update.apply, hl, Function.update_apply]
      split_ifs with hj
      · rw [hj, hl]
      · rfl

theorem removeMailbox_registry (o : ℤ) {pm : PM} (hn : DistinctOwners pm)
    {u : Update ℤ MailBox (Option ℤ)} (hu : meaning (.removeMailbox o) = some u) :
    registry (doRemoveMailbox o pm).pm = u.apply (registry pm) ∧
      (doRemoveMailbox o pm).ret = u.answer (registry pm) := by
  obtain rfl := Option.some.inj hu
  obtain ⟨hp, hv⟩ := doRemoveMailbox_spec o pm
  cases hl : lookup o pm.mailboxFront with
  | none =>
      refine ⟨?_, by simp only [hv, hl, Update.answer, registry, if_true]⟩
      funext j
      simp only [hp, registry, Update.apply, hl, find_remove hn, Function.update_apply]
  | some mb =>
      refine ⟨?_, by simp only [hv, hl, Update.answer, registry, reduceCtorEq, if_false]⟩
      funext j
      simp only [hp, registry, Update.apply, hl, find_remove hn, Function.update_apply]

/-- A call that names one mailbox returns, and is the update it means. -/
theorem call_refines {pm : PM} (hn : DistinctOwners pm) {call : Request}
    {u : Update ℤ MailBox (Option ℤ)} (hu : meaning call = some u) :
    ∃ out, Returns call pm out ∧ registry out.pm = u.apply (registry pm) ∧
      out.ret = u.answer (registry pm) := by
  cases call with
  | createMailbox o =>
      exact ⟨doCreateMailbox o pm, ⟨0, rfl⟩, createMailbox_registry o pm hu⟩
  | removeMailbox o =>
      exact ⟨doRemoveMailbox o pm, ⟨0, rfl⟩, removeMailbox_registry o hn hu⟩
  | addSender o id =>
      obtain rfl := Option.some.inj hu
      exact ⟨doAddSender o id pm, ⟨0, rfl⟩,
        registry_walk (addSenderTo_owner id) (by rw [doAddSender_pm]), doAddSender_ret o id pm⟩
  | removeSender o id =>
      obtain rfl := Option.some.inj hu
      exact ⟨doRemoveSender o id pm, ⟨0, rfl⟩,
        registry_walk (removeSenderFrom_owner id) (by rw [doRemoveSender_pm]),
        doRemoveSender_ret o id pm⟩
  | msend req =>
      simp only [meaning] at hu
      split at hu
      · rename_i r hr
        obtain rfl := Option.some.inj hu
        obtain ⟨hp, hv⟩ := doMsend_to hr pm
        simp only [sendTo_suspended req pm.deadlockOne] at hp hv
        exact ⟨doMsend req pm, ⟨0, rfl⟩, registry_walk (sendTo_owner req [] r) (by rw [hp]), hv⟩
      · exact absurd hu.symm (Option.some_ne_none u)
  | mreceive req => exact absurd hu.symm (Option.some_ne_none u)

theorem contents_eq {pm pm' : PM} (h : registry pm = registry pm') : contents pm = contents pm' := by
  funext o
  exact congrArg (Option.map _) (congrFun h o)

/-- Two calls on different mailboxes, each one creating, removing, permitting,
forbidding or sending to one receiver, return the same in either order, and leave
the same senders, messages and counts for every owner. -/
theorem independent_calls_commute {pm : PM} (h : Reachable system pm) {a b : Request} {x y : ℤ}
    (ha : target a = some x) (hb : target b = some y) (hxy : x ≠ y) :
    ∃ outA outAB outB outBA,
      Returns a pm outA ∧ Returns b outA.pm outAB ∧ Returns b pm outB ∧ Returns a outB.pm outBA ∧
      outA.ret = outBA.ret ∧ outB.ret = outAB.ret ∧ contents outAB.pm = contents outBA.pm := by
  obtain ⟨u, hu, rfl⟩ := meaning_of_target ha
  obtain ⟨v, hv, rfl⟩ := meaning_of_target hb
  have hn := distinctOwners h
  obtain ⟨outA, hA, hrA, hvA⟩ := call_refines hn hu
  obtain ⟨outB, hB, hrB, hvB⟩ := call_refines hn hv
  have hnA : DistinctOwners outA.pm := effect_distinctOwners (effect_of_returns hA) hn
  have hnB : DistinctOwners outB.pm := effect_distinctOwners (effect_of_returns hB) hn
  obtain ⟨outAB, hAB, hrAB, hvAB⟩ := call_refines hnA hv
  obtain ⟨outBA, hBA, hrBA, hvBA⟩ := call_refines hnB hu
  refine ⟨outA, outAB, outB, outBA, hA, hAB, hB, hBA, ?_, ?_, contents_eq ?_⟩
  · rw [hvA, hvBA, hrB, Update.answer_apply hxy]
  · rw [hvB, hvAB, hrA, Update.answer_apply hxy.symm]
  · rw [hrAB, hrBA, hrA, hrB, Update.apply_comm hxy]

theorem independent_calls_commute_seven :
    ∃ outA outAB outB outBA,
      Returns (.addSender 7 3) ⟨[MailBox.fresh 7], []⟩ outA ∧
      Returns (.createMailbox 8) outA.pm outAB ∧
      Returns (.createMailbox 8) ⟨[MailBox.fresh 7], []⟩ outB ∧
      Returns (.addSender 7 3) outB.pm outBA ∧
      outA.ret = outBA.ret ∧ outB.ret = outAB.ret ∧ contents outAB.pm = contents outBA.pm :=
  independent_calls_commute (fresh_reachable 7) rfl rfl (by decide)

end MinixOS.MailboxRegistry
