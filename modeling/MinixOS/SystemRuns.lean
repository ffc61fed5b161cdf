import Mathlib.Init
import Mathlib.Tactic.Common

/-!
# Runs of a system that serves one call after another

A system has one initial state and a relation which says with which answer, and
in which state, a call returns. A call that does not return takes no step. A
history lists the steps of a run, the latest first, and keeps the state before
and after each call, so that what a history says of the past can be defined by
recursion on it.

The rules are the induction over runs: for a property of the state, for a
property that relates the state to the history which led there, and for a
property that only holds as long as every step meets a condition.
-/
namespace MinixOS.SystemRuns

/-- `returns s c a t`: called in `s`, the call `c` returns `a` and leaves `t`. -/
structure System (State Call Answer : Type*) where
  init : State
  returns : State → Call → Answer → State → Prop

structure Step (State Call Answer : Type*) where
  before : State
  call : Call
  answer : Answer
  after : State

variable {State Call Answer : Type*}

/-- Every interleaving of the callers is one order of calls, hence one history. -/
inductive Run (sys : System State Call Answer) : List (Step State Call Answer) → State → Prop
  | init : Run sys [] sys.init
  | call {history : List (Step State Call Answer)} {s t : State} {c : Call} {a : Answer} :
      Run sys history s → sys.returns s c a t → Run sys (⟨s, c, a, t⟩ :: history) t

def Reachable (sys : System State Call Answer) (s : State) : Prop :=
  ∃ history, Run sys history s

variable {sys : System State Call Answer}

theorem Run.invariant {I : State → Prop} (initial : I sys.init)
    (step : ∀ {s c a t}, I s → sys.returns s c a t → I t)
    {history : List (Step State Call Answer)} {s : State} (h : Run sys history s) : I s := by
  induction h with
  | init => exact initial
  | call _ hc ih => exact step ih hc

theorem Reachable.invariant {I : State → Prop} (initial : I sys.init)
    (step : ∀ {s c a t}, I s → sys.returns s c a t → I t)
    {s : State} (h : Reachable sys s) : I s := by
  obtain ⟨history, hr⟩ := h
  exact hr.invariant initial step

theorem Run.reachable {history : List (Step State Call Answer)} {s : State}
    (h : Run sys history s) : Reachable sys s := ⟨history, h⟩

/-- The step may use that the state before it is reachable by the history so far. -/
theorem Run.history_invariant {I : List (Step State Call Answer) → State → Prop}
    (initial : I [] sys.init)
    (step : ∀ {history s c a t}, Run sys history s → I history s → sys.returns s c a t →
      I (⟨s, c, a, t⟩ :: history) t)
    {history : List (Step State Call Answer)} {s : State} (h : Run sys history s) :
    I history s := by
  induction h with
  | init => exact initial
  | call hr hc ih => exact step hr ih hc

/-- A property kept by the steps that meet a condition holds at the end of
every run all of whose steps meet it. -/
theorem Run.guarded_invariant {I : List (Step State Call Answer) → State → Prop}
    {Meets : Step State Call Answer → Prop} (initial : I [] sys.init)
    (step : ∀ {history s c a t}, Run sys history s → I history s → sys.returns s c a t →
      Meets ⟨s, c, a, t⟩ → I (⟨s, c, a, t⟩ :: history) t)
    {history : List (Step State Call Answer)} {s : State} (h : Run sys history s)
    (meets : ∀ e ∈ history, Meets e) : I history s := by
  induction h with
  | init => exact initial
  | call hr hc ih =>
      have hbefore := ih fun e he => meets e (List.mem_cons_of_mem _ he)
      exact step hr hbefore hc (meets _ List.mem_cons_self)

/-- If one step decides whether a property survives, it holds in all states of a run
exactly when every step of the run decides so. -/
theorem Run.throughout_iff {Allowed : Step State Call Answer → Prop}
    {P Q : List (Step State Call Answer) → Prop} (hP : P []) (hQ : Q [])
    (step : ∀ {history s c a t}, Run sys history s →
      (∀ e ∈ (⟨s, c, a, t⟩ :: history : List (Step State Call Answer)), Allowed e) →
      P history → sys.returns s c a t → (P (⟨s, c, a, t⟩ :: history) ↔ Q (⟨s, c, a, t⟩ :: history)))
    {history : List (Step State Call Answer)} {s : State} (h : Run sys history s)
    (allowed : ∀ e ∈ history, Allowed e) :
    (∀ past, past <:+ history → P past) ↔ ∀ past, past <:+ history → Q past := by
  induction h with
  | init =>
      simp only [List.suffix_nil, forall_eq]
      exact iff_of_true hP hQ
  | call hr hc ih =>
      have hbefore := ih fun e he => allowed e (List.mem_cons_of_mem _ he)
      simp only [List.suffix_cons_iff, forall_eq_or_imp, hbefore]
      constructor
      · intro hall
        have hlast := hbefore.mpr hall.2 _ List.suffix_rfl
        exact ⟨(step hr allowed hlast hc).mp hall.1, hall.2⟩
      · intro hall
        have hlast := hbefore.mpr hall.2 _ List.suffix_rfl
        exact ⟨(step hr allowed hlast hc).mpr hall.1, hall.2⟩

/-- What holds initially and after each step of a run holds at its end. -/
theorem Run.last {I : State → Prop} (initial : I sys.init)
    {history : List (Step State Call Answer)} {s : State} (h : Run sys history s)
    (after : ∀ e ∈ history, I e.after) : I s := by
  cases h with
  | init => exact initial
  | call _ _ => exact after _ List.mem_cons_self

/-- If the step from a state with a property decides whether the property survives, it holds
in all states of a run exactly when every step of the run decides so. -/
theorem Run.steps_iff {I : State → Prop} {Meets : Step State Call Answer → Prop}
    (initial : I sys.init)
    (step : ∀ {history s c a t}, Run sys history s → I s → sys.returns s c a t →
      (I t ↔ Meets ⟨s, c, a, t⟩))
    {history : List (Step State Call Answer)} {s : State} (h : Run sys history s) :
    (∀ e ∈ history, I e.after) ↔ ∀ e ∈ history, Meets e := by
  induction h with
  | init =>
      exact iff_of_true (fun _ he => absurd he List.not_mem_nil)
        (fun _ he => absurd he List.not_mem_nil)
  | call hr hc ih =>
      simp only [List.forall_mem_cons, ih]
      constructor
      · intro hall
        have hlast := hr.last initial (ih.mpr hall.2)
        exact ⟨(step hr hlast hc).mp hall.1, hall.2⟩
      · intro hall
        have hlast := hr.last initial (ih.mpr hall.2)
        exact ⟨(step hr hlast hc).mpr hall.1, hall.2⟩

/-- The calls are served one after the other. The result is `none` if one is not answered. -/
def replay (serve : Call → State → Option (Answer × State)) :
    List Call → List (Step State Call Answer) → State →
      Option (List (Step State Call Answer) × State)
  | [], history, s => some (history, s)
  | c :: calls, history, s =>
      match serve c s with
      | none => none
      | some (a, t) => replay serve calls (⟨s, c, a, t⟩ :: history) t

/-- Calls served as the system would return make a run. -/
theorem Run.replay {serve : Call → State → Option (Answer × State)}
    (sound : ∀ {c s a t}, serve c s = some (a, t) → sys.returns s c a t) (calls : List Call)
    {history history' : List (Step State Call Answer)} {s s' : State} (hr : Run sys history s)
    (h : SystemRuns.replay serve calls history s = some (history', s')) :
    Run sys history' s' := by
  induction calls generalizing history s with
  | nil =>
      rw [SystemRuns.replay, Option.some.injEq, Prod.mk.injEq] at h
      obtain ⟨rfl, rfl⟩ := h
      exact hr
  | cons c calls ih =>
      rw [SystemRuns.replay] at h
      cases hs : serve c s with
      | none => simp [hs] at h
      | some answered =>
          obtain ⟨a, t⟩ := answered
          rw [hs] at h
          exact ih (hr.call (sound hs)) h

/-- What a run did up to some step is itself a run. -/
theorem Run.earlier {later history : List (Step State Call Answer)} {s : State}
    (h : Run sys (later ++ history) s) : ∃ t, Run sys history t := by
  induction later generalizing s with
  | nil => exact ⟨s, h⟩
  | cons e later ih =>
      cases h with
      | call hr _ => exact ih hr

/-! ## Two systems -/

/-- The calls of a history, with their answers. -/
def trace (history : List (Step State Call Answer)) : List (Call × Answer) :=
  history.map fun e => (e.call, e.answer)

/-- If each step from related states is a step of the other system, so is each run a run of it. -/
theorem Run.simulated {State' : Type*} {sys' : System State' Call Answer}
    {R : State → State' → Prop} (initial : R sys.init sys'.init)
    (step : ∀ {s c a t s'}, R s s' → sys.returns s c a t → ∃ t', sys'.returns s' c a t' ∧ R t t')
    {history : List (Step State Call Answer)} {s : State} (h : Run sys history s) :
    ∃ history' s', Run sys' history' s' ∧ trace history' = trace history ∧ R s s' := by
  induction h with
  | init => exact ⟨[], sys'.init, .init, rfl, initial⟩
  | call _ hc ih =>
      obtain ⟨history', s', hr', htrace, hrel⟩ := ih
      obtain ⟨t', hc', hrel'⟩ := step hrel hc
      refine ⟨_, t', hr'.call hc', ?_, hrel'⟩
      unfold trace at htrace ⊢
      rw [List.map_cons, List.map_cons, htrace]

end MinixOS.SystemRuns
