import Mathlib.Algebra.Group.Defs
import Mathlib.Logic.Relation
import Mathlib.Tactic.Common

/-!
# Runs of a labelled step relation

A run is a list of events along which a state is carried to another. The rules of this module are
the ones an invariant argument needs: a predicate kept by every step is kept by every run
(`Run.invariant`), a run over a concatenation is a run over each part (`run_append_iff`), and a step
relation that another relation simulates through an abstraction is simulated along whole runs
(`Run.simulate`); where an event stands for one of the other relation or for none, what the events
add up to is the same (`Run.relabel`). What steps put into a content at its end and take from its
front is conserved along a run (`Run.conserves`), and a balance that compares a quantity with what
one step adds to it holds along a run with the sum of what its steps add (`Run.balance`,
`Run.account`). A measure
that no step raises and some steps lower bounds how often these happen (`Run.countP_le`), and one that
can be lowered until a goal is reached leads there (`exists_run`). A step that only happens under a
side condition is a step relation of its own, and `Run.mono` leads from one such relation to another;
`Run.lift` leads back through an abstraction whose steps are all images. `EveryStep.everyState` is the invariant rule for
runs whose steps meet a condition, and `everyState_iff_everyStep` is for a property that the
condition decides: it finds the runs that keep it by their steps.
-/

set_option autoImplicit false
set_option relaxedAutoImplicit false

namespace IpRipStack.Runs

variable {State Event Abstract : Type*}

/-- `Run step s events s'`: the events lead from `s` to `s'`, one step each. -/
inductive Run (step : State → Event → State → Prop) : State → List Event → State → Prop
  | nil (s : State) : Run step s [] s
  | cons {s s' s'' : State} {event : Event} {events : List Event} :
      step s event s' → Run step s' events s'' → Run step s (event :: events) s''

variable {step step' : State → Event → State → Prop}

theorem run_nil_iff {s s' : State} : Run step s [] s' ↔ s' = s := by
  constructor
  · intro h
    cases h
    rfl
  · rintro rfl
    exact Run.nil _

theorem run_cons_iff {s s'' : State} {event : Event} {events : List Event} :
    Run step s (event :: events) s'' ↔ ∃ s', step s event s' ∧ Run step s' events s'' := by
  constructor
  · intro h
    cases h with
    | cons hstep hrest => exact ⟨_, hstep, hrest⟩
  · rintro ⟨s', hstep, hrest⟩
    exact Run.cons hstep hrest

/-- A run over a concatenation stops at one state in between. -/
theorem run_append_iff {s s'' : State} {first second : List Event} :
    Run step s (first ++ second) s'' ↔ ∃ s', Run step s first s' ∧ Run step s' second s'' := by
  induction first generalizing s with
  | nil => simp only [List.nil_append, run_nil_iff, exists_eq_left]
  | cons event events ih =>
    rw [List.cons_append, run_cons_iff]
    constructor
    · rintro ⟨t, hstep, hrest⟩
      obtain ⟨s', hfirst, hsecond⟩ := ih.mp hrest
      exact ⟨s', Run.cons hstep hfirst, hsecond⟩
    · rintro ⟨s', hfirst, hsecond⟩
      obtain ⟨t, hstep, hrest⟩ := run_cons_iff.mp hfirst
      exact ⟨t, hstep, ih.mpr ⟨s', hrest, hsecond⟩⟩

theorem Run.append {s s' s'' : State} {first second : List Event} (hfirst : Run step s first s')
    (hsecond : Run step s' second s'') : Run step s (first ++ second) s'' :=
  run_append_iff.mpr ⟨s', hfirst, hsecond⟩

theorem Run.single {s s' : State} {event : Event} (h : step s event s') : Run step s [event] s' :=
  Run.cons h (Run.nil s')

/-- Where the step is a function, its iteration along the events is a run. -/
theorem Run.of_foldlM {next : State → Event → Option State} {s s' : State} {events : List Event}
    (h : events.foldlM next s = some s') : Run (fun s event s' ↦ next s event = some s') s events s' := by
  induction events generalizing s with
  | nil =>
    obtain rfl := Option.some.inj h
    exact Run.nil s
  | cons event events ih =>
    obtain ⟨t, hstep, hrest⟩ := Option.bind_eq_some_iff.mp h
    exact Run.cons hstep (ih hrest)

/-- The invariant rule. Assumes: a predicate that every step keeps. -/
theorem Run.invariant {P : State → Prop} (hstep : ∀ s event s', P s → step s event s' → P s')
    {s s' : State} {events : List Event} (h : Run step s events s') (hs : P s) : P s' := by
  induction h with
  | nil => exact hs
  | cons hfirst _ ih => exact ih (hstep _ _ _ hs hfirst)

/-- The conservation rule. Assumes: an invariant that every step keeps, and a content of the states
from whose front each step takes some items and to whose end it adds those of its event; of the
items taken the record holds those that pass a test. The same is then true of a whole run. -/
theorem Run.conserves {Item : Type*} {P : State → Prop} {content record : State → List Item}
    {put : Event → List Item} {test : Item → Bool}
    (hkeep : ∀ s event s', P s → step s event s' → P s')
    (hconserve : ∀ s event s', P s → step s event s' → ∃ taken : List Item,
      content s ++ put event = taken ++ content s' ∧ record s' = record s ++ taken.filter test)
    {s s' : State} {events : List Event} (h : Run step s events s') (hs : P s) :
    ∃ taken : List Item, content s ++ events.flatMap put = taken ++ content s' ∧
      record s' = record s ++ taken.filter test := by
  induction h with
  | nil s => exact ⟨[], List.append_nil _, (List.append_nil _).symm⟩
  | @cons s t s' event events hfirst hrest ih =>
    obtain ⟨taken, hcontent, hrecord⟩ := hconserve s event t hs hfirst
    obtain ⟨later, hcontent', hrecord'⟩ := ih (hkeep s event t hs hfirst)
    refine ⟨taken ++ later, ?_, ?_⟩
    · rw [List.flatMap_cons, ← List.append_assoc, hcontent, List.append_assoc, hcontent',
        List.append_assoc]
    · rw [hrecord', hrecord, List.filter_append, List.append_assoc]

/-- What the events of a run add up to, where each adds an amount that may depend on the state. -/
def tally {M : Type*} [AddCommMonoid M] (next : State → Event → Option State)
    (added : State → Event → M) : State → List Event → M
  | _, [] => 0
  | s, event :: events =>
    added s event + (next s event).elim 0 fun s' ↦ tally next added s' events

/-- The balance rule. Assumes: a way to compare amounts that is reflexive and transitive and that
amounts may be added to; an invariant that every step keeps; and a quantity that after each step
compares with what it was and what the step adds. After a run it compares with what it was and what
the run adds. -/
theorem Run.balance {M : Type*} [AddCommMonoid M] {R : M → M → Prop} (hrefl : ∀ a, R a a)
    (htrans : ∀ a b c, R a b → R b c → R a c) (hadd : ∀ a b c, R a b → R (a + c) (b + c))
    {next : State → Event → Option State} {P : State → Prop} {quantity : State → M}
    {added : State → Event → M} (hnext : ∀ s event s', step s event s' → next s event = some s')
    (hkeep : ∀ s event s', P s → step s event s' → P s')
    (hbalance : ∀ s event s', P s → step s event s' →
      R (quantity s') (quantity s + added s event))
    {s s' : State} {events : List Event} (h : Run step s events s') (hs : P s) :
    R (quantity s') (quantity s + tally next added s events) := by
  induction h with
  | nil s =>
    rw [tally, add_zero]
    exact hrefl _
  | @cons s t s' event events hfirst hrest ih =>
    have hrest' := ih (hkeep s event t hs hfirst)
    have hfirst' := hadd _ _ (tally next added t events) (hbalance s event t hs hfirst)
    rw [add_assoc] at hfirst'
    rw [tally, hnext s event t hfirst]
    exact htrans _ _ _ hrest' hfirst'

/-- The accounting rule. Assumes: an invariant under which every step keeps it and another predicate,
and puts the quantity up by what the step adds. -/
theorem Run.account {M : Type*} [AddCommMonoid M] {P Q : State → Prop}
    {next : State → Event → Option State} {quantity : State → M} {added : State → Event → M}
    (hnext : ∀ s event s', step s event s' → next s event = some s')
    (hstep : ∀ s event s', P s → step s event s' →
      P s' ∧ quantity s' = quantity s + added s event ∧ (Q s → Q s'))
    {s s' : State} {events : List Event} (h : Run step s events s') (hs : P s) :
    P s' ∧ quantity s' = quantity s + tally next added s events ∧ (Q s → Q s') := by
  have hkeep : ∀ s event s', P s → step s event s' → P s' :=
    fun s event s' hs hfirst ↦ (hstep s event s' hs hfirst).1
  refine ⟨h.invariant hkeep hs, ?_, fun hq ↦ ?_⟩
  · refine h.balance (R := fun a b : M ↦ a = b) (fun a ↦ rfl) (fun a b c hab hbc ↦ hab.trans hbc)
      (fun a b c hab ↦ congrArg (· + c) hab) hnext hkeep ?_ hs
    exact fun s event s' hs hfirst ↦ (hstep s event s' hs hfirst).2.1
  · have hboth : P s' ∧ Q s' := by
      refine h.invariant (P := fun s ↦ P s ∧ Q s) ?_ ⟨hs, hq⟩
      rintro s event s' ⟨hs, hq⟩ hfirst
      obtain ⟨hs', -, hq'⟩ := hstep s event s' hs hfirst
      exact ⟨hs', hq' hq⟩
    exact hboth.2

/-- Assumes: a step relation that allows each step of the events of the run. -/
theorem Run.mono {s s' : State} {events : List Event} (h : Run step s events s')
    (hstep : ∀ s s', ∀ event ∈ events, step s event s' → step' s event s') :
    Run step' s events s' := by
  induction h with
  | nil s => exact Run.nil s
  | cons hfirst _ ih =>
    refine Run.cons (hstep _ _ _ List.mem_cons_self hfirst) (ih fun s s' event hevent ↦ ?_)
    exact hstep s s' event (List.mem_cons_of_mem _ hevent)

/-- Assumes: an invariant from which every step is a step of another relation that keeps it. -/
theorem Run.strengthen {P : State → Prop}
    (hstep : ∀ s event s', P s → step s event s' → step' s event s' ∧ P s') {s s' : State}
    {events : List Event} (h : Run step s events s') (hs : P s) : Run step' s events s' := by
  induction h with
  | nil s => exact Run.nil s
  | cons hfirst _ ih =>
    obtain ⟨hfirst', hs'⟩ := hstep _ _ _ hs hfirst
    exact Run.cons hfirst' (ih hs')

/-- The simulation rule. Assumes: an invariant that every step keeps, and an abstraction under
which every step from a state with the invariant is a sequence of abstract steps. A whole run is
then a sequence of abstract steps. -/
theorem Run.simulate {P : State → Prop} (hkeep : ∀ s event s', P s → step s event s' → P s')
    (abstraction : State → Abstract) {R : Abstract → Abstract → Prop}
    (hsimulate : ∀ s event s', P s → step s event s' →
      Relation.ReflTransGen R (abstraction s) (abstraction s'))
    {s s' : State} {events : List Event} (h : Run step s events s') (hs : P s) :
    Relation.ReflTransGen R (abstraction s) (abstraction s') := by
  induction h with
  | nil => exact Relation.ReflTransGen.refl
  | cons hfirst _ ih =>
    exact (hsimulate _ _ _ hs hfirst).trans (ih (hkeep _ _ _ hs hfirst))

/-- The lifting rule. Assumes: a predicate and an abstraction such that from a state with the
predicate every abstract step is the image of a step, which keeps the predicate. Every abstract run
is then the image of a run. -/
theorem Run.lift {AbstractEvent : Type*} {P : State → Prop} {abstraction : State → Abstract}
    {embed : AbstractEvent → Event} {abstractStep : Abstract → AbstractEvent → Abstract → Prop}
    (hlift : ∀ s event a', P s → abstractStep (abstraction s) event a' →
      ∃ s', step s (embed event) s' ∧ abstraction s' = a' ∧ P s')
    {a a' : Abstract} {events : List AbstractEvent} (h : Run abstractStep a events a') {s : State}
    (ha : abstraction s = a) (hs : P s) :
    ∃ s', Run step s (events.map embed) s' ∧ abstraction s' = a' ∧ P s' := by
  induction h generalizing s with
  | nil a => exact ⟨s, Run.nil s, ha, hs⟩
  | cons hfirst _ ih =>
    obtain ⟨t, hstep, ht, hkept⟩ := hlift s _ _ hs (ha ▸ hfirst)
    obtain ⟨s', hrest, hs', hkept'⟩ := ih ht hkept
    exact ⟨s', Run.cons hstep hrest, hs', hkept'⟩

/-- The rule for events that stand for others. Assumes: an abstraction, and for the events of a state
the abstract events they stand for; a step is then that of the abstract event, or changes nothing
where there is none. A whole run is one of abstract events, which add up to as much, and none of
which comes from nowhere. -/
theorem Run.relabel {AbstractEvent M : Type*} [AddCommMonoid M] (abstraction : State → Abstract)
    (label : State → Event → Option AbstractEvent)
    (next : State → Event → Option State) (abstractNext : Abstract → AbstractEvent → Option Abstract)
    (added : Abstract → AbstractEvent → M)
    {abstractStep : Abstract → AbstractEvent → Abstract → Prop}
    (hnext : ∀ s event s', step s event s' → next s event = some s')
    (habstract : ∀ a event a', abstractStep a event a' → abstractNext a event = some a')
    (hstep : ∀ s event s', step s event s' →
      (label s event = none ∧ abstraction s' = abstraction s) ∨
        ∃ event', label s event = some event' ∧
          abstractStep (abstraction s) event' (abstraction s'))
    {s s' : State} {events : List Event} (h : Run step s events s') :
    ∃ events', Run abstractStep (abstraction s) events' (abstraction s') ∧
      tally abstractNext added (abstraction s) events' =
        tally next (fun s event ↦ (label s event).elim 0 (added (abstraction s))) s events ∧
      ∀ event' ∈ events', ∃ t, ∃ event ∈ events, label t event = some event' := by
  induction h with
  | nil s => exact ⟨[], Run.nil _, rfl, fun _ h ↦ absurd h List.not_mem_nil⟩
  | @cons s t s' event events hfirst hrest ih =>
    obtain ⟨events', hrun', htally, hfrom⟩ := ih
    have hfrom' : ∀ event' ∈ events', ∃ t, ∃ first ∈ event :: events,
        label t first = some event' := by
      intro event' hevent'
      obtain ⟨t, first, hmem, hlabel⟩ := hfrom event' hevent'
      exact ⟨t, first, List.mem_cons_of_mem event hmem, hlabel⟩
    rw [tally, hnext s event t hfirst, Option.elim_some]
    rcases hstep s event t hfirst with ⟨hnone, hsame⟩ | ⟨event', hlabel, hmatched⟩
    · rw [hnone, Option.elim_none, zero_add, ← hsame]
      exact ⟨events', hrun', htally, hfrom'⟩
    · refine ⟨event' :: events', Run.cons hmatched hrun', ?_, ?_⟩
      · rw [tally, habstract _ event' _ hmatched, Option.elim_some, htally, hlabel, Option.elim_some]
      · exact List.forall_mem_cons.mpr ⟨⟨s, event, List.mem_cons_self, hlabel⟩, hfrom'⟩

/-- What every step of a relation keeps is kept by any number of steps. -/
theorem invariant_of_reflTransGen {R : Abstract → Abstract → Prop} {I : Abstract → Prop}
    (hstep : ∀ s s', I s → R s s' → I s') {s s' : Abstract} (h : Relation.ReflTransGen R s s')
    (hs : I s) : I s' := by
  induction h with
  | refl => exact hs
  | tail _ hlast ih => exact hstep _ _ ih hlast

/-- `Iterate R k s s'`: `k` successive stages lead from `s` to `s'`. -/
inductive Iterate (R : State → State → Prop) : ℕ → State → State → Prop
  | zero (s : State) : Iterate R 0 s s
  | succ {k : ℕ} {s s' s'' : State} : Iterate R k s s' → R s' s'' → Iterate R (k + 1) s s''

/-- Assumes: a family of predicates, of which each stage leads from one to the next. -/
theorem Iterate.invariant {R : State → State → Prop} {I : ℕ → State → Prop}
    (hstage : ∀ k s s', I k s → R s s' → I (k + 1) s') {k : ℕ} {s s' : State}
    (h : Iterate R k s s') (hs : I 0 s) : I k s' := by
  induction h with
  | zero => exact hs
  | succ _ hlast ih => exact hstage _ _ _ (ih hs) hlast

/-- An even number of stages is half as many pairs of stages. -/
theorem Iterate.pairs {R : State → State → Prop} {k : ℕ} {s s' : State}
    (h : Iterate R (2 * k) s s') : Iterate (Relation.Comp R R) k s s' := by
  induction k generalizing s' with
  | zero =>
    cases h
    exact Iterate.zero s
  | succ k ih =>
    rw [Nat.mul_succ] at h
    cases h with
    | succ hfirst hlast =>
      cases hfirst with
      | succ hbefore hfirst => exact Iterate.succ (ih hbefore) ⟨_, hfirst, hlast⟩

/-- The states some run leads to. -/
def Reachable (step : State → Event → State → Prop) (init s : State) : Prop :=
  ∃ events, Run step init events s

theorem Reachable.init (s : State) : Reachable step s s := ⟨[], Run.nil s⟩

theorem Reachable.run {init s s' : State} {events : List Event} (h : Reachable step init s)
    (hrun : Run step s events s') : Reachable step init s' := by
  obtain ⟨before, hbefore⟩ := h
  exact ⟨before ++ events, hbefore.append hrun⟩

theorem Reachable.invariant {P : State → Prop}
    (hstep : ∀ s event s', P s → step s event s' → P s') {init s : State}
    (h : Reachable step init s) (hinit : P init) : P s := by
  obtain ⟨events, hrun⟩ := h
  exact hrun.invariant hstep hinit

/-! ### All states and all steps of a run -/

/-- Every state that an initial part of the events leads to has the property. -/
def EveryState (step : State → Event → State → Prop) (P : State → Prop) (s : State)
    (events : List Event) : Prop :=
  ∀ before after u, events = before ++ after → Run step s before u → P u

/-- Every step the events make meets the condition, which speaks of the state before it. -/
def EveryStep (step : State → Event → State → Prop) (Safe : State → Event → Prop) (s : State)
    (events : List Event) : Prop :=
  ∀ before event after u v, events = before ++ event :: after → Run step s before u →
    step u event v → Safe u event

theorem everyState_nil {P : State → Prop} {s : State} : EveryState step P s [] ↔ P s := by
  constructor
  · intro h
    exact h [] [] s rfl (Run.nil s)
  · intro h before after u hsplit hrun
    obtain ⟨rfl, -⟩ := List.append_eq_nil_iff.mp hsplit.symm
    rwa [run_nil_iff.mp hrun]

theorem everyState_cons {P : State → Prop} {s : State} {event : Event} {events : List Event} :
    EveryState step P s (event :: events) ↔
      P s ∧ ∀ s', step s event s' → EveryState step P s' events := by
  constructor
  · intro h
    refine ⟨h [] (event :: events) s rfl (Run.nil s), fun s' hstep before after u hsplit hrun ↦ ?_⟩
    exact h (event :: before) after u (congrArg (event :: ·) hsplit) (Run.cons hstep hrun)
  · rintro ⟨hs, hrest⟩ before after u hsplit hrun
    cases hrun with
    | nil => exact hs
    | cons hstep hrun =>
      obtain ⟨rfl, htail⟩ := List.cons.inj hsplit
      exact hrest _ hstep _ _ _ htail hrun

theorem everyStep_nil {Safe : State → Event → Prop} {s : State} : EveryStep step Safe s [] := by
  intro before event after u v hsplit
  exact absurd hsplit.symm (List.append_ne_nil_of_right_ne_nil _ (List.cons_ne_nil _ _))

theorem everyStep_cons {Safe : State → Event → Prop} {s : State} {event : Event}
    {events : List Event} : EveryStep step Safe s (event :: events) ↔
      ∀ s', step s event s' → Safe s event ∧ EveryStep step Safe s' events := by
  constructor
  · intro h s' hstep
    refine ⟨h [] event events s s' rfl (Run.nil s) hstep, ?_⟩
    intro before event' after u v hsplit hrun
    exact h (event :: before) event' after u v (congrArg (event :: ·) hsplit) (Run.cons hstep hrun)
  · rintro h before event' after u v hsplit hrun hlast
    cases hrun with
    | nil =>
      obtain ⟨rfl, -⟩ := List.cons.inj hsplit
      exact (h v hlast).1
    | cons hstep hrun =>
      obtain ⟨rfl, htail⟩ := List.cons.inj hsplit
      exact (h _ hstep).2 _ _ _ _ _ htail hrun hlast

/-- The invariant rule for steps that meet a condition. Assumes: a predicate that each of these
keeps. It holds in all states of a run all of whose steps meet the condition. -/
theorem EveryStep.everyState {P : State → Prop} {Safe : State → Event → Prop}
    (hkeep : ∀ s event s', P s → Safe s event → step s event s' → P s') {s : State}
    {events : List Event} (h : EveryStep step Safe s events) (hs : P s) :
    EveryState step P s events := by
  induction events generalizing s with
  | nil => exact everyState_nil.mpr hs
  | cons event events ih =>
    rw [everyStep_cons] at h
    refine everyState_cons.mpr ⟨hs, fun s' hstep ↦ ?_⟩
    obtain ⟨hsafe, hrest⟩ := h s' hstep
    exact ih hrest (hkeep s event s' hs hsafe hstep)

/-- Assumes: a step that leads to at most one state. A run of steps that meet the condition is one
all of whose steps meet it. -/
theorem Run.everyStep {Safe : State → Event → Prop}
    (hfun : ∀ {s event u v}, step s event u → step s event v → u = v) {s s' : State}
    {events : List Event} (h : Run (fun s event s' ↦ step s event s' ∧ Safe s event) s events s') :
    EveryStep step Safe s events := by
  induction h with
  | nil => exact everyStep_nil
  | cons hfirst _ ih =>
    refine everyStep_cons.mpr fun t ht ↦ ?_
    obtain rfl := hfun ht hfirst.1
    exact ⟨hfirst.2, ih⟩

/-- The iteration of a step that tests the condition is a run of steps that meet it. -/
theorem Run.of_foldlM_if {next : State → Event → Option State} {Safe : State → Event → Prop}
    [∀ s event, Decidable (Safe s event)] {s s' : State} {events : List Event}
    (h : events.foldlM (fun s event ↦ if Safe s event then next s event else none) s = some s') :
    Run (fun s event s' ↦ next s event = some s' ∧ Safe s event) s events s' := by
  refine (Run.of_foldlM h).mono fun s s' event _ hstep ↦ ?_
  split_ifs at hstep with hsafe
  exact ⟨hstep, hsafe⟩

/-- All steps of a run meet a condition, or there is a first one that does not. -/
theorem Run.all_or_first (Safe : State → Event → Prop) {s s' : State} {events : List Event}
    (h : Run step s events s') :
    Run (fun s event s' ↦ step s event s' ∧ Safe s event) s events s' ∨
      ∃ before event after u v, Run (fun s event s' ↦ step s event s' ∧ Safe s event) s before u ∧
        step u event v ∧ ¬ Safe u event ∧ Run step v after s' := by
  induction h with
  | nil s => exact Or.inl (Run.nil s)
  | @cons s t s' event events hfirst hrest ih =>
    by_cases hsafe : Safe s event
    · rcases ih with hall | ⟨before, event', after, u, v, hbefore, hstep, hnotsafe, hafter⟩
      · exact Or.inl (Run.cons ⟨hfirst, hsafe⟩ hall)
      · exact Or.inr ⟨event :: before, event', after, u, v, Run.cons ⟨hfirst, hsafe⟩ hbefore, hstep,
          hnotsafe, hafter⟩
    · exact Or.inr ⟨[], event, events, s, t, Run.nil s, hfirst, hsafe, hrest⟩

theorem EveryState.mono {P Q : State → Prop} (hle : ∀ s, P s → Q s) {s : State}
    {events : List Event} (h : EveryState step P s events) : EveryState step Q s events :=
  fun before after u hsplit hrun ↦ hle u (h before after u hsplit hrun)

/-- Assumes: an invariant that every step keeps, and two conditions that agree on the steps from
states with the invariant. All steps of a run meet the one exactly when all meet the other. -/
theorem everyStep_congr {I : State → Prop} {Safe Safe' : State → Event → Prop}
    (hkeep : ∀ s event s', I s → step s event s' → I s')
    (hagree : ∀ s event s', I s → step s event s' → (Safe s event ↔ Safe' s event))
    {s : State} {events : List Event} (hinv : I s) :
    EveryStep step Safe s events ↔ EveryStep step Safe' s events := by
  have hreached : ∀ {before u}, Run step s before u → I u :=
    fun hrun ↦ hrun.invariant hkeep hinv
  constructor
  · intro h before event after u v hsplit hrun hlast
    exact (hagree u event v (hreached hrun) hlast).mp (h before event after u v hsplit hrun hlast)
  · intro h before event after u v hsplit hrun hlast
    exact (hagree u event v (hreached hrun) hlast).mpr (h before event after u v hsplit hrun hlast)

/-- Assumes: an invariant that every step keeps, and a condition that says of each step from a state
with the property whether it keeps the property. All states of a run have the property exactly when
all its steps meet the condition. -/
theorem everyState_iff_everyStep {I P : State → Prop} {Safe : State → Event → Prop}
    (hkeep : ∀ s event s', I s → step s event s' → I s')
    (hsafe : ∀ s event s', I s → P s → step s event s' → (P s' ↔ Safe s event))
    {s : State} {events : List Event} (hinv : I s) (hs : P s) :
    EveryState step P s events ↔ EveryStep step Safe s events := by
  induction events generalizing s with
  | nil => exact iff_of_true (everyState_nil.mpr hs) everyStep_nil
  | cons event events ih =>
    rw [everyState_cons, everyStep_cons]
    constructor
    · rintro ⟨-, hrest⟩ s' hstep
      have hs' : P s' := hrest s' hstep [] events s' rfl (Run.nil s')
      exact ⟨(hsafe s event s' hinv hs hstep).mp hs',
        (ih (hkeep s event s' hinv hstep) hs').mp (hrest s' hstep)⟩
    · intro h
      refine ⟨hs, fun s' hstep ↦ ?_⟩
      obtain ⟨hfirst, hrest⟩ := h s' hstep
      have hs' : P s' := (hsafe s event s' hinv hs hstep).mpr hfirst
      exact (ih (hkeep s event s' hinv hstep) hs').mpr hrest

end IpRipStack.Runs
