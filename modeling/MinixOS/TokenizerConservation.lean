import MinixOS.TokenizerSteps
import Mathlib.Data.List.Basic

/-!
# No text of a command is lost

The calls of `qenqueue` are read off the loop states of the tokenizer. On a line that
ends in a comma and is read to its end without an error there is one call for every
comma, and the texts they pass are the text of the line, character for character.

The invariant speaks of the part of the line in front of `argv[i]`: what the calls
so far passed, and behind it the token, are the text of that part.
-/
namespace MinixOS.TokenizerConservation
open LoopExecution CheckedExecution CommandQueue Tokenizer TokenizerSteps

/-- The call of `qenqueue` that the next pass makes, by its arguments. -/
def enqueues (argv : List UInt8) (s : Scan) : List QueueNode :=
  match argv[s.i]? with
  | none => []
  | some c =>
      if isspace c = false ∧ (c = comma ∨ c = newline) ∧ s.inputvalidity = true then
        [⟨s.token, 255 - s.priority⟩]
      else []

/-- The calls of `qenqueue`, in their order. -/
def qenqueueCalls (fuel : ℕ) (before argv : List UInt8) (stack : Stack) (queue : Queue) :
    List QueueNode :=
  observed (scanPass before argv) (enqueues argv) fuel (Scan.initial stack queue)

def enqueueCalls (calls : List QueueNode) (q : Queue) : Queue :=
  calls.foldl (fun q call => qenqueue call.command call.priority q) q

/-- The tokenizer read the line to its end and reported no error. -/
def Processed (argv : List UInt8) (out : Outcome) : Prop :=
  out.scan.i = argv.length ∧ out.scan.log = []

/-- The characters of a line other than white space, commas and parentheses. -/
def textual (c : UInt8) : Bool :=
  !isspace c && c != comma && c != leftParen && c != rightParen

def withoutBlanks (text : List UInt8) : List UInt8 := text.filter fun c => c != blank

/-- The texts passed in the calls, behind one another. -/
def enqueuedText (calls : List QueueNode) : List UInt8 := calls.flatMap QueueNode.command

/-- The calls pass the text of the line, cut at its commas. -/
structure Conserves (line : List UInt8) (calls : List QueueNode) : Prop where
  count : calls.length = line.count comma
  text : withoutBlanks (enqueuedText calls) = line.filter textual

/-! ## The invariant -/

/-- The line is conserved up to `argv[i]`. -/
structure Reads (argv : List UInt8) (calls : List QueueNode) (s : Scan) : Prop where
  valid : s.inputvalidity = true
  count : calls.length = (argv.take s.i).count comma
  text : withoutBlanks (enqueuedText calls ++ s.token) = (argv.take s.i).filter textual
  fresh : (argv.take s.i).getLast? = some comma → s.token = []

section Passes
variable {before argv : List UInt8} {calls : List QueueNode} {s t : Scan} {c : UInt8}

theorem textual_facts (h : textual c = true) : c ≠ blank ∧ c ≠ comma := by
  simp only [textual, Bool.and_eq_true, Bool.not_eq_true', bne_iff_ne] at h
  obtain ⟨⟨⟨hspace, hcomma⟩, _⟩, _⟩ := h
  refine ⟨?_, hcomma⟩
  rintro rfl
  cases hspace

theorem enqueues_of_ne (hc : argv[s.i]? = some c) (hne : c ≠ comma) : enqueues argv s = [] := by
  simp only [enqueues, hc]
  refine if_neg ?_
  rintro ⟨hspace, rfl | rfl, _⟩
  · exact hne rfl
  · cases hspace

theorem enqueues_comma (hc : argv[s.i]? = some comma) (hv : s.inputvalidity = true) :
    enqueues argv s = [⟨s.token, 255 - s.priority⟩] := by
  simp only [enqueues, hc]
  exact if_pos ⟨rfl, .inl trivial, hv⟩

theorem withoutBlanks_append (l l' : List UInt8) :
    withoutBlanks (l ++ l') = withoutBlanks l ++ withoutBlanks l' := List.filter_append ..

/-- A character other than a comma goes to the token if it stands in a text, and is dropped
or comes to a blank otherwise. -/
theorem Reads.reads (h : Reads argv calls s) (hc : argv[s.i]? = some c)
    (hcomma : c ≠ comma) {added : List UInt8} (hadded : withoutBlanks added = [c].filter textual)
    (hi : t.i = s.i + 1) (hv : t.inputvalidity = true) (htoken : t.token = s.token ++ added) :
    Reads argv (calls ++ enqueues argv s) t := by
  obtain ⟨_, htake⟩ := take_next hc
  rw [enqueues_of_ne hc hcomma, List.append_nil]
  constructor
  · exact hv
  · rw [hi, htake, List.count_append, ← h.count]
    simp [hcomma]
  · rw [hi, htake, htoken, ← List.append_assoc, withoutBlanks_append, hadded, h.text,
      List.filter_append]
  · rw [hi, htake, List.getLast?_concat, Option.some.injEq]
    exact fun he => absurd he hcomma

theorem Reads.passes_over (h : Reads argv calls s) (hc : argv[s.i]? = some c)
    (hcomma : c ≠ comma) (htext : textual c = false) {added : List UInt8}
    (hadded : withoutBlanks added = []) (hi : t.i = s.i + 1) (hv : t.inputvalidity = true)
    (htoken : t.token = s.token ++ added) : Reads argv (calls ++ enqueues argv s) t := by
  have hnone : [c].filter textual = [] := by simp [htext]
  exact h.reads hc hcomma (hadded.trans hnone.symm) hi hv htoken

theorem Reads.takes_text (h : Reads argv calls s) (hc : argv[s.i]? = some c)
    (htext : textual c = true) (hi : t.i = s.i + 1) (hv : t.inputvalidity = true)
    (htoken : t.token = s.token ++ [c]) : Reads argv (calls ++ enqueues argv s) t := by
  obtain ⟨hblank, hcomma⟩ := textual_facts htext
  have hkept : withoutBlanks [c] = [c].filter textual := by
    simp [withoutBlanks, hblank, htext]
  exact h.reads hc hcomma hkept hi hv htoken

theorem Reads.takes_comma (h : Reads argv calls s) (hc : argv[s.i]? = some comma)
    (passes : ℕ) :
    Reads argv (calls ++ enqueues argv s)
      { s with
        queue := qenqueue s.token (255 - s.priority) s.queue, priority := s.priority - passes
        token := [], i := s.i + 1, state := .comma } := by
  obtain ⟨_, htake⟩ := take_next hc
  rw [enqueues_comma hc h.valid]
  constructor
  · exact h.valid
  · simp only [htake, List.count_append, List.length_append, ← h.count]
    rfl
  · have hsplit : enqueuedText (calls ++ [⟨s.token, 255 - s.priority⟩]) =
        enqueuedText calls ++ s.token := by
      simp [enqueuedText]
    have hcomma : [comma].filter textual = [] := rfl
    simp only [List.append_nil]
    rw [hsplit, htake, List.filter_append, hcomma, List.append_nil]
    exact h.text
  · exact fun _ => rfl

theorem textual_of_isspace (h : isspace c = true) : c ≠ comma ∧ textual c = false := by
  constructor
  · rintro rfl
    cases h
  · simp [textual, h]

theorem textual_of_plainPunct (h : plainPunct c) : textual c = true := by
  obtain ⟨hpunct, hcomma, hleft, hright⟩ := h
  simp [textual, (ispunct_facts hpunct).1, hcomma, hleft, hright]

theorem textual_of_isalnum (h : isalnum c = true) : textual c = true := by
  obtain ⟨hspace, hcomma, _, hleft, hright, _⟩ := isalnum_facts h
  simp [textual, hspace, hcomma, hleft, hright]

theorem Reads.next (h : Reads argv calls s) (hp : scanPass before argv s = .again t) :
    Reads argv (calls ++ enqueues argv s) t := by
  obtain ⟨c, hc, htakes⟩ := again_cases h.valid hp
  cases htakes with
  | skip hspace _ =>
      obtain ⟨hcomma, htext⟩ := textual_of_isspace hspace
      exact h.passes_over hc hcomma htext rfl rfl h.valid (List.append_nil _).symm
  | blank hspace _ =>
      obtain ⟨hcomma, htext⟩ := textual_of_isspace hspace
      exact h.passes_over hc hcomma htext rfl rfl h.valid rfl
  | comma he _ =>
      subst he
      exact h.takes_comma hc _
  | left he _ _ =>
      subst he
      exact h.passes_over hc (by decide) rfl rfl rfl h.valid (List.append_nil _).symm
  | right he _ _ =>
      subst he
      exact h.passes_over hc (by decide) rfl rfl rfl h.valid (List.append_nil _).symm
  | punct hpunct => exact h.takes_text hc (textual_of_plainPunct hpunct) rfl h.valid rfl
  | alnum halnum _ => exact h.takes_text hc (textual_of_isalnum halnum) rfl h.valid rfl
  | noClass hclass _ =>
      -- The character stays the next one, so that nothing is read and nothing passed.
      have hcomma : c ≠ comma := by
        rintro rfl
        cases hclass.2.1
      rw [enqueues_of_ne hc hcomma, List.append_nil]
      exact h

/-- A line is not rejected at its last character if that is a comma. -/
theorem Reads.leaves (h : Reads argv calls s) (hp : scanPass before argv s = .leave (.ok t))
    (hends : argv.getLast? = some comma) (hi : t.i = argv.length) : argv[s.i]? = none ∧ t = s := by
  rcases leave_cases h.valid hp with hend | ⟨c, hc, hrejects⟩
  · exact hend
  · obtain ⟨hlt, hget⟩ := List.getElem?_eq_some_iff.mp hc
    have hlast : s.i + 1 = argv.length → c = comma := by
      intro he
      rw [List.getLast?_eq_getElem?, ← he, Nat.add_sub_cancel, hc] at hends
      exact Option.some.inj hends
    cases hrejects with
    | left he _ _ =>
        rw [he] at hlast
        cases hlast hi
    | right he _ _ =>
        rw [he] at hlast
        cases hlast hi
    | unmatched _ _ _ => exact absurd hi hlt.ne
    | word _ _ _ _ => exact absurd hi hlt.ne
    | noClass _ _ => exact absurd hi hlt.ne

end Passes

theorem reads_initial (argv : List UInt8) (stack : Stack) (queue : Queue) :
    Reads argv [] (Scan.initial stack queue) := by
  constructor
  · rfl
  · rfl
  · rfl
  · nofun

theorem calls_read {fuel : ℕ} {before argv : List UInt8} {stack : Stack} {queue : Queue}
    {r : Except Stop Scan}
    (h : run (scanPass before argv) fuel (Scan.initial stack queue) = some r) :
    ∃ calls s, Reads argv calls s ∧ scanPass before argv s = .leave r ∧
      qenqueueCalls fuel before argv stack queue = calls ++ enqueues argv s := by
  have hstep : ∀ calls s t, Reads argv calls s → scanPass before argv s = .again t →
      Reads argv (calls ++ enqueues argv s) t := fun _ _ _ hr hp => hr.next hp
  exact observed_invariant h (reads_initial argv stack queue) hstep

/-- The line is valid so far, and the queue is what the calls have made of it. -/
def Queued (queue : Queue) (calls : List QueueNode) (s : Scan) : Prop :=
  s.inputvalidity = true ∧ s.queue = enqueueCalls calls queue

theorem enqueueCalls_append (calls calls' : List QueueNode) (q : Queue) :
    enqueueCalls (calls ++ calls') q = enqueueCalls calls' (enqueueCalls calls q) :=
  List.foldl_append

theorem Queued.next {before argv : List UInt8} {queue : Queue} {calls : List QueueNode}
    {s t : Scan} (h : Queued queue calls s) (hp : scanPass before argv s = .again t) :
    Queued queue (calls ++ enqueues argv s) t := by
  obtain ⟨hvalid, hqueue⟩ := h
  obtain ⟨c, hc, htakes⟩ := again_cases hvalid hp
  have hother (hcomma : c ≠ comma) : Queued queue (calls ++ enqueues argv s) s := by
    rw [enqueues_of_ne hc hcomma, List.append_nil]
    exact ⟨hvalid, hqueue⟩
  cases htakes with
  | skip hspace _ => exact hother (textual_of_isspace hspace).1
  | blank hspace _ => exact hother (textual_of_isspace hspace).1
  | comma he _ =>
      subst he
      rw [enqueues_comma hc hvalid]
      refine ⟨hvalid, ?_⟩
      rw [enqueueCalls_append, ← hqueue]
      rfl
  | left he _ _ => exact hother fun hcomma => absurd (he.symm.trans hcomma) (by decide)
  | right he _ _ => exact hother fun hcomma => absurd (he.symm.trans hcomma) (by decide)
  | punct hpunct => exact hother hpunct.2.1
  | alnum halnum _ => exact hother (isalnum_facts halnum).2.1
  | noClass hclass _ =>
      apply hother
      rintro rfl
      cases hclass.2.1

/-- The pass that leaves the loop makes no call. -/
theorem enqueues_of_leave {before argv : List UInt8} {s t : Scan} (hv : s.inputvalidity = true)
    (hp : scanPass before argv s = .leave (.ok t)) : enqueues argv s = [] ∧ t.queue = s.queue := by
  rcases leave_cases hv hp with ⟨hover, rfl⟩ | ⟨c, hc, hrejects⟩
  · exact ⟨by simp only [enqueues, hover], rfl⟩
  · refine ⟨enqueues_of_ne hc ?_, hrejects.queue⟩
    cases hrejects with
    | left he _ _ => exact fun hcomma => absurd (he.symm.trans hcomma) (by decide)
    | right he _ _ => exact fun hcomma => absurd (he.symm.trans hcomma) (by decide)
    | unmatched he _ _ => exact fun hcomma => absurd (he.symm.trans hcomma) (by decide)
    | word halnum _ _ _ => exact (isalnum_facts halnum).2.1
    | noClass hclass _ =>
        rintro rfl
        cases hclass.2.1

/-- Nothing but the calls of `qenqueue` makes the queue. -/
theorem queue_of_calls {fuel : ℕ} {before argv : List UInt8} {stack : Stack} {queue : Queue}
    {out : Outcome} (h : tokenizer fuel before argv stack queue = .ok out) :
    out.scan.queue = enqueueCalls (qenqueueCalls fuel before argv stack queue) queue := by
  unfold tokenizer at h
  obtain ⟨last, hloop, h⟩ := bind_eq_ok.mp h
  obtain ⟨popped, _, h⟩ := bind_eq_ok.mp h
  cases h
  have hinitial : Queued queue [] (Scan.initial stack queue) := ⟨rfl, rfl⟩
  have hstep : ∀ calls s t, Queued queue calls s → scanPass before argv s = .again t →
      Queued queue (calls ++ enqueues argv s) t := fun _ _ _ hs hp => hs.next hp
  obtain ⟨calls, s, hqueued, hleave, hcalls⟩ :=
    observed_invariant (loop_eq_ok.mp hloop) hinitial hstep
  have hall : qenqueueCalls fuel before argv stack queue = calls ++ enqueues argv s := hcalls
  obtain ⟨hnone, hlast⟩ := enqueues_of_leave hqueued.1 hleave
  rw [hall, hnone, List.append_nil]
  exact hlast.trans hqueued.2

/-- The calls of `qenqueue` pass all the text of the line and nothing else, and they
are what the queue was built by. -/
theorem text_conserved {fuel : ℕ} {before argv : List UInt8} {stack : Stack} {queue : Queue}
    {out : Outcome} (h : tokenizer fuel before argv stack queue = .ok out)
    (hends : argv.getLast? = some comma) (hprocessed : Processed argv out) :
    Conserves argv (qenqueueCalls fuel before argv stack queue) ∧
      out.scan.queue = enqueueCalls (qenqueueCalls fuel before argv stack queue) queue := by
  have hqueue := queue_of_calls h
  unfold tokenizer at h
  obtain ⟨last, hloop, h⟩ := bind_eq_ok.mp h
  obtain ⟨popped, _, h⟩ := bind_eq_ok.mp h
  cases h
  obtain ⟨calls, s, hreads, hleave, hcalls⟩ := calls_read (loop_eq_ok.mp hloop)
  obtain ⟨_, rfl⟩ := hreads.leaves hleave hends hprocessed.1
  have hnone := (enqueues_of_leave hreads.valid hleave).1
  have hall : argv.take last.i = argv := by
    rw [hprocessed.1]
    exact List.take_length
  have htoken : last.token = [] := by
    apply hreads.fresh
    rw [hall]
    exact hends
  refine ⟨?_, hqueue⟩
  rw [hcalls, hnone, List.append_nil]
  constructor
  · rw [hreads.count, hall]
  · have htext := hreads.text
    rw [hall, htoken, List.append_nil] at htext
    exact htext

/-- The line `( a b,c  -d),e,` comes to the texts ` a b`, `c -d` and `e`. -/
theorem text_conserved_three :
    ∃ calls, Conserves [40, 32, 97, 32, 98, 44, 99, 32, 32, 45, 100, 41, 44, 101, 44] calls ∧
      enqueuedText calls = [32, 97, 32, 98, 99, 32, 45, 100, 101] := by
  let line : List UInt8 := [40, 32, 97, 32, 98, 44, 99, 32, 32, 45, 100, 41, 44, 101, 44]
  let stack : Stack := screate ⟨Vector.replicate MAXSIZE .null, 0⟩
  have hout : ∃ out, tokenizer 16 [] line stack qcreate = .ok out ∧ Processed line out :=
    ⟨_, rfl, rfl, rfl⟩
  obtain ⟨out, h, hprocessed⟩ := hout
  have hconserved := text_conserved h rfl hprocessed
  exact ⟨qenqueueCalls 16 [] line stack qcreate, hconserved.1, rfl⟩

end MinixOS.TokenizerConservation
