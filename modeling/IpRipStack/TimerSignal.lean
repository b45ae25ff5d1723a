import IpRipStack.Common
import IpRipStack.Library.Runs
import IpRipStack.MessageQueue

/-!
# The timer signal

`timerHandler` runs on whatever thread the signal of a timer reaches and pushes to
`Node::_timerQueue`, from which the loop of `RipLayer::update_refresh_rt` pops. Each thread has its
own code and, while a signal is handled on it, the code of the handler (`Activity`); both are
threads of the `MessageQueue`. The own code goes on only when no handler runs on the thread. While
the handler runs its signal is blocked on the thread, so that it is not interrupted by itself. Of
the own code only that of the RIP thread uses the queue.

The handler locks a mutex that the thread it runs on may own: then neither goes on (`Deadlocked`).
`next_deadlocked_iff` says which step leads there: the start of a handler on a thread that is
between the lock and the unlock of `pop`. So `timer_signal_deadlock`, and `deadlocked_for_good` says
that the queue is then never used again.
-/

set_option autoImplicit false
set_option relaxedAutoImplicit false

namespace IpRipStack

open Runs

/-- What can be in a call of `push` or `pop`: the own code of a thread, or the handler on it. -/
inductive Activity (ι : Type*)
  | own (t : ι)
  | handler (t : ι)
  deriving DecidableEq, Repr

/-- The identifiers `create_timer` filled in. -/
structure Timers (T : Type*) where
  ripUpdateTimer : T
  ripRefreshTimer : T

/-- `timerHandler`: what it pushes for a timer, if anything. -/
def timerHandler {T : Type*} [DecidableEq T] (timers : Timers T) (tid : T) : Option ℕ :=
  if tid = timers.ripUpdateTimer then some updateTimerId
  else if tid = timers.ripRefreshTimer then some refreshTimerId
  else none

/-- `Node::_timerQueue`. -/
abbrev TimerQueue (ι : Type*) := MessageQueue (Activity ι) ℕ

/-- A timer expires and its handler starts on a thread; the handler on a thread takes a step; the
RIP thread takes a step of its loop, or leaves the wait without a signal. -/
inductive TimerEvent (ι T : Type*)
  | expire (t : ι) (tid : T)
  | handler (t : ι) (chosen : Option (Activity ι))
  | rip (chosen : Option (Activity ι))
  | spurious

namespace TimerQueue

variable {ι T : Type*} [DecidableEq ι] [DecidableEq T]

/-- One step of the node, with the thread of `update_refresh_rt`. -/
def next (rip : ι) (timers : Timers T) (m : TimerQueue ι) :
    TimerEvent ι T → Option (TimerQueue ι)
  | .expire t tid =>
    match timerHandler timers tid with
    | none => some m
    | some item => MessageQueue.next m (.push (.handler t) item)
  | .handler t chosen => MessageQueue.next m (.step (.handler t) chosen)
  | .rip chosen =>
    match m.pc (.handler rip), m.pc (.own rip) with
    | .outside, .outside => MessageQueue.next m (.pop (.own rip))
    | .outside, _ => MessageQueue.next m (.step (.own rip) chosen)
    | _, _ => none
  | .spurious => MessageQueue.next m (.spurious (.own rip))

def Step (rip : ι) (timers : Timers T) (m : TimerQueue ι) (event : TimerEvent ι T)
    (m' : TimerQueue ι) : Prop :=
  next rip timers m event = some m'

/-- The handler on a thread waits for the mutex, and the thread owns it. -/
def Deadlocked (m : TimerQueue ι) (t : ι) : Prop :=
  (∃ item, m.pc (.handler t) = .pushing item) ∧ m.monitor.owner = some (.own t)

/-- No handler that pushes starts on a thread that is between the lock and the unlock of `pop`. -/
def Clear (timers : Timers T) (m : TimerQueue ι) : TimerEvent ι T → Prop
  | .expire t tid => timerHandler timers tid ≠ none → ¬ m.Holds (.own t)
  | .handler _ _ | .rip _ | .spurious => True

variable {rip : ι} {timers : Timers T} {m m' : TimerQueue ι} {event : TimerEvent ι T}

/-! ### What a step is -/

/-- The expiry of a timer that pushes begins a call of `push`, and any other changes nothing. -/
theorem step_expire {t : ι} {tid : T} (h : Step rip timers m (.expire t tid) m') :
    (timerHandler timers tid = none ∧ m' = m) ∨
      ∃ item, timerHandler timers tid = some item ∧ m.pc (.handler t) = .outside ∧
        m' = m.goTo (.handler t) m.monitor (.pushing item) := by
  simp only [Step, next] at h
  split at h
  · rename_i hnone
    exact Or.inl ⟨hnone, (Option.some.inj h).symm⟩
  · rename_i item hitem
    exact Or.inr ⟨item, hitem, MessageQueue.next_push h⟩

/-- The RIP thread takes a step when no handler runs on it: it calls `pop` or goes on with its
call. -/
theorem step_rip {chosen : Option (Activity ι)} (h : Step rip timers m (.rip chosen) m') :
    m.pc (.handler rip) = .outside ∧
      (MessageQueue.next m (.pop (.own rip)) = some m' ∨ m.step (.own rip) chosen = some m') := by
  simp only [Step, next] at h
  split at h
  · rename_i hhandler hown
    exact ⟨hhandler, Or.inl h⟩
  · rename_i hhandler hown
    exact ⟨hhandler, Or.inr h⟩
  · exact absurd h.symm (Option.some_ne_none m')

theorem locked_step (h : m.Locked) (hstep : Step rip timers m event m') : m'.Locked := by
  cases event with
  | expire t tid =>
    simp only [Step, next] at hstep
    split at hstep
    · exact Option.some.inj hstep ▸ h
    · exact h.next hstep
  | handler t chosen => exact h.turn (MessageQueue.step_turn hstep)
  | rip chosen =>
    rcases (step_rip hstep).2 with hpop | hgoes
    · exact h.next hpop
    · exact h.turn (MessageQueue.step_turn hgoes)
  | spurious =>
    obtain ⟨monitor, hleave, rfl⟩ := Option.map_eq_some_iff.mp hstep
    exact h.of_owner rfl (Monitor.owner_leave hleave)

/-! ### The way into a deadlock -/

/-- The step lemma. From a state without a deadlock exactly the steps that are not clear lead into
one. -/
theorem next_deadlocked_iff (hlocked : m.Locked) (hfree : ∀ t, ¬ Deadlocked m t)
    (hstep : Step rip timers m event m') : (∀ t, ¬ Deadlocked m' t) ↔ Clear timers m event := by
  cases event with
  | expire t tid =>
    rcases step_expire hstep with ⟨hnone, rfl⟩ | ⟨item, hitem, -, rfl⟩
    · exact iff_of_true hfree fun hpushes ↦ absurd hnone hpushes
    · have hstarts : (m.goTo (.handler t) m.monitor (.pushing item)).pc (.handler t) =
          .pushing item := m.goTo_pc_self _ _ _
      constructor
      · intro hnot _ hholds
        exact hnot t ⟨⟨item, hstarts⟩, (hlocked (.own t)).mpr hholds⟩
      · rintro hclear t' ⟨⟨item', hpushing⟩, howner⟩
        by_cases hsame : t' = t
        · rw [hsame] at howner
          have hpushes : timerHandler timers tid ≠ none := hitem ▸ Option.some_ne_none item
          exact hclear hpushes ((hlocked (.own t)).mp howner)
        · have hne : Activity.handler t' ≠ .handler t := fun heq ↦ hsame (Activity.handler.inj heq)
          have hbefore : m.pc (.handler t') = .pushing item' :=
            (m.goTo_pc_of_ne hne _ _).symm.trans hpushing
          exact hfree t' ⟨⟨item', hbefore⟩, howner⟩
  | handler t chosen =>
    refine iff_of_true ?_ trivial
    rintro t' ⟨-, howner⟩
    -- the handler only goes on while the interrupted thread does not own the mutex
    have hne : Activity.own t' ≠ .handler t := nofun
    have hbefore := (MessageQueue.step_turn hstep).owner_of_ne howner hne
    have hgoes : m.step (.handler t) chosen = some m' := hstep
    exact absurd (hlocked.blocked hbefore hne.symm chosen) (hgoes ▸ Option.some_ne_none m')
  | rip chosen =>
    refine iff_of_true ?_ trivial
    rintro t' ⟨⟨item, hpushing⟩, howner⟩
    obtain ⟨hidle, hgoes⟩ := step_rip hstep
    have hturn : m.Turn m' (.own rip) := by
      rcases hgoes with hpop | hgoes
      · exact MessageQueue.next_turn hpop
      · exact MessageQueue.step_turn hgoes
    have hne : Activity.handler t' ≠ .own rip := nofun
    have hpushing' : m.pc (.handler t') = .pushing item := (hturn.pc_of_ne hne).symm.trans hpushing
    by_cases hsame : t' = rip
    · rw [hsame, hidle] at hpushing'
      cases hpushing'
    · have howner' := hturn.owner_of_ne howner fun heq ↦ hsame (Activity.own.inj heq)
      exact hfree t' ⟨⟨item, hpushing'⟩, howner'⟩
  | spurious =>
    refine iff_of_true ?_ trivial
    rintro t' ⟨⟨item, hpushing⟩, howner⟩
    obtain ⟨monitor, hleave, rfl⟩ := Option.map_eq_some_iff.mp hstep
    exact hfree t' ⟨⟨item, hpushing⟩, (Monitor.owner_leave hleave).symm.trans howner⟩

/-- Whatever timers expire, on whatever threads their handlers run and however the RIP thread and
the handlers take turns: in no state does a handler wait for a mutex that the thread under it owns
exactly when no handler starts on a thread that is between the lock and the unlock of `pop`. -/
theorem timer_signal_deadlock (rip : ι) (timers : Timers T) (events : List (TimerEvent ι T)) :
    EveryState (Step rip timers) (fun m ↦ ∀ t, ¬ Deadlocked m t) MessageQueue.initialized events ↔
      EveryStep (Step rip timers) (Clear timers) MessageQueue.initialized events := by
  have hstart : ∀ t, ¬ Deadlocked (MessageQueue.initialized : TimerQueue ι) t :=
    fun t hdeadlocked ↦ absurd hdeadlocked.2 (Option.some_ne_none _).symm
  exact everyState_iff_everyStep (fun _ _ _ hlocked hstep ↦ locked_step hlocked hstep)
    (fun _ _ _ hlocked hfree hstep ↦ next_deadlocked_iff hlocked hfree hstep)
    MessageQueue.locked_initialized hstart

/-! ### After a deadlock -/

/-- What a deadlock keeps from changing. -/
def SameQueue (m m' : TimerQueue ι) : Prop :=
  m'.q = m.q ∧ m'.pushed = m.pushed ∧ m'.popped = m.popped

theorem Deadlocked.step {t : ι} (h : Deadlocked m t) (hlocked : m.Locked)
    (hstep : Step rip timers m event m') : Deadlocked m' t ∧ SameQueue m m' := by
  obtain ⟨⟨item, hpushing⟩, howner⟩ := h
  have hblocked : ∀ (a : Activity ι) chosen, a ≠ .own t → m.step a chosen ≠ some m' := by
    intro a chosen hne hgoes
    exact absurd (hlocked.blocked howner hne chosen) (hgoes ▸ Option.some_ne_none m')
  cases event with
  | expire t' tid =>
    rcases step_expire hstep with ⟨-, rfl⟩ | ⟨item', -, hidle, rfl⟩
    · exact ⟨⟨⟨item, hpushing⟩, howner⟩, rfl, rfl, rfl⟩
    · have hne : Activity.handler t ≠ .handler t' := by
        intro heq
        rw [heq, hidle] at hpushing
        cases hpushing
      exact ⟨⟨⟨item, (m.goTo_pc_of_ne hne _ _).trans hpushing⟩, howner⟩, rfl, rfl, rfl⟩
  | handler t' chosen => exact absurd hstep (hblocked _ chosen nofun)
  | rip chosen =>
    obtain ⟨hidle, hpop | hgoes⟩ := step_rip hstep
    · obtain ⟨-, rfl⟩ := MessageQueue.next_pop hpop
      have hne : Activity.handler t ≠ .own rip := nofun
      exact ⟨⟨⟨item, (m.goTo_pc_of_ne hne _ _).trans hpushing⟩, howner⟩, rfl, rfl, rfl⟩
    · refine absurd hgoes (hblocked _ chosen fun heq ↦ ?_)
      rw [Activity.own.inj heq, hpushing] at hidle
      cases hidle
  | spurious =>
    obtain ⟨monitor, hleave, rfl⟩ := Option.map_eq_some_iff.mp hstep
    exact ⟨⟨⟨item, hpushing⟩, (Monitor.owner_leave hleave).trans howner⟩, rfl, rfl, rfl⟩

/-- After a deadlock nothing is pushed to the queue and nothing is popped from it any more. Assumes:
a mutex that is owned by whoever is between its lock and its unlock. -/
theorem deadlocked_for_good {t : ι} (h : Deadlocked m t) (hlocked : m.Locked)
    {events : List (TimerEvent ι T)} (hrun : Run (Step rip timers) m events m') :
    Deadlocked m' t ∧ SameQueue m m' := by
  have hkeep : ∀ (s : TimerQueue ι) event s', s.Locked ∧ Deadlocked s t ∧ SameQueue m s →
      Step rip timers s event s' → s'.Locked ∧ Deadlocked s' t ∧ SameQueue m s' := by
    rintro s event s' ⟨hlocked, hdeadlocked, hq, hpushed, hpopped⟩ hstep
    obtain ⟨hstays, hq', hpushed', hpopped'⟩ := hdeadlocked.step hlocked hstep
    exact ⟨locked_step hlocked hstep, hstays, hq'.trans hq, hpushed'.trans hpushed,
      hpopped'.trans hpopped⟩
  exact (hrun.invariant hkeep ⟨hlocked, h, rfl, rfl, rfl⟩).2

/-- The RIP thread calls `pop` and locks the mutex, and the update timer expires on it. -/
def expireInPop : List (TimerEvent Unit Bool) := [.rip none, .rip none, .expire () true]

/-- Then the handler waits for the mutex that its own thread owns. -/
theorem handler_deadlocked : ∃ m,
    Run (Step () ⟨true, false⟩) MessageQueue.initialized expireInPop m ∧ Deadlocked m () := by
  have hfinal : expireInPop.foldlM (next () ⟨true, false⟩) MessageQueue.initialized = some _ := rfl
  exact ⟨_, Run.of_foldlM hfinal, ⟨updateTimerId, rfl⟩, rfl⟩

end TimerQueue

end IpRipStack
