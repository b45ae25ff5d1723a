import IpRipStack.Library.Monitor
import Mathlib.Logic.Function.Basic

/-!
# MessageQueue.hh

The queue between two threads. Each step is one call of the thread library or one access to `_q` of
a call of `push` or `pop`, and each thread is in at most one of these calls. The threads and the
items are any types. `pushed` and `popped` are the items that were put into the queue and taken from
it so far.

`Does` has a case for each step of a call. `Turn` is what all of them do to the mutex and to the
position of their thread: they keep the mutex as it is, take it, or give it up. So the mutex is owned
by the one thread that is between the lock and the unlock of its call (`Locked`).
-/

set_option autoImplicit false
set_option relaxedAutoImplicit false

namespace IpRipStack

/-- Where a thread is: in neither call; in `push` before the lock, the push of the item, the signal
and the unlock; in `pop` before the lock, the test and the wait, in the wait, and before the item is
taken and the unlock. -/
inductive QueuePc (α : Type*)
  | outside
  | pushing (item : α)
  | enqueueing (item : α)
  | signalling
  | pushed
  | popping
  | testing
  | parking
  | waiting
  | taking
  | popped (item : α)
  deriving DecidableEq, Repr

/-- The thread owns the mutex. -/
def QueuePc.Holds {α : Type*} : QueuePc α → Prop
  | .enqueueing _ | .signalling | .pushed | .testing | .parking | .taking | .popped _ => True
  | .outside | .pushing _ | .popping | .waiting => False

instance {α : Type*} (pc : QueuePc α) : Decidable pc.Holds :=
  match pc with
  | .enqueueing _ | .signalling | .pushed | .testing | .parking | .taking | .popped _ =>
    isTrue trivial
  | .outside | .pushing _ | .popping | .waiting => isFalse not_false

/-- `MessageQueue`, with the positions of the threads. -/
structure MessageQueue (τ α : Type*) where
  monitor : Monitor τ -- `_mlock` and `_cv`
  q : List α
  pc : τ → QueuePc α
  pushed : List α
  popped : List α

/-- A thread calls `push` or `pop`, goes on with its call, or leaves the wait without a signal.
Where it signals, the event says which of the waiting threads is woken. -/
inductive QueueEvent (τ α : Type*)
  | push (t : τ) (item : α)
  | pop (t : τ)
  | step (t : τ) (chosen : Option τ)
  | spurious (t : τ)

/-- The thread of an event. -/
def QueueEvent.thread {τ α : Type*} : QueueEvent τ α → τ
  | .push t _ | .pop t | .step t _ | .spurious t => t

namespace MessageQueue

variable {τ α : Type*} [DecidableEq τ]

/-- `initialize`, with all threads in neither call. -/
def initialized : MessageQueue τ α where
  monitor := Monitor.new
  q := []
  pc := fun _ ↦ .outside
  pushed := []
  popped := []

/-- A thread goes on to another position, with the mutex and the condition as they then are. -/
def goTo (m : MessageQueue τ α) (t : τ) (monitor : Monitor τ) (pc : QueuePc α) : MessageQueue τ α :=
  { m with monitor := monitor, pc := Function.update m.pc t pc }

/-- The next step of the call a thread is in, `none` where it cannot go on. -/
def step (m : MessageQueue τ α) (t : τ) (chosen : Option τ) : Option (MessageQueue τ α) :=
  match m.pc t with
  | .outside => none
  | .pushing item => (m.monitor.lock t).map fun monitor ↦ m.goTo t monitor (.enqueueing item)
  | .enqueueing item =>
    some { m.goTo t m.monitor .signalling with q := m.q ++ [item], pushed := m.pushed ++ [item] }
  | .signalling => (m.monitor.signal chosen).map fun monitor ↦ m.goTo t monitor .pushed
  | .pushed => some (m.goTo t m.monitor.unlock .outside)
  | .popping => (m.monitor.lock t).map fun monitor ↦ m.goTo t monitor .testing
  | .testing => some (m.goTo t m.monitor (if m.q.isEmpty then .parking else .taking))
  | .parking => some (m.goTo t (m.monitor.wait t) .waiting)
  | .waiting =>
    if t ∈ m.monitor.waiters then none
    else (m.monitor.lock t).map fun monitor ↦ m.goTo t monitor .testing
  | .taking =>
    match m.q with
    | [] => none -- the source takes the front of an empty queue
    | item :: rest =>
      some { m.goTo t m.monitor (.popped item) with q := rest, popped := m.popped ++ [item] }
  | .popped _ => some (m.goTo t m.monitor.unlock .outside)

/-- One step of one thread. -/
def next (m : MessageQueue τ α) : QueueEvent τ α → Option (MessageQueue τ α)
  | .push t item =>
    match m.pc t with
    | .outside => some (m.goTo t m.monitor (.pushing item))
    | _ => none
  | .pop t =>
    match m.pc t with
    | .outside => some (m.goTo t m.monitor .popping)
    | _ => none
  | .step t chosen => m.step t chosen
  | .spurious t => (m.monitor.leave t).map fun monitor ↦ { m with monitor := monitor }

theorem goTo_pc_self (m : MessageQueue τ α) (t : τ) (monitor : Monitor τ) (pc : QueuePc α) :
    (m.goTo t monitor pc).pc t = pc :=
  Function.update_self _ _ _

theorem goTo_pc_of_ne (m : MessageQueue τ α) {t t' : τ} (hne : t' ≠ t) (monitor : Monitor τ)
    (pc : QueuePc α) : (m.goTo t monitor pc).pc t' = m.pc t' :=
  Function.update_of_ne hne _ _

/-! ### What a step is -/

/-- A step of a call of `push`: it locks, enqueues its item, signals, unlocks; and of a call of
`pop`: it locks, finds the queue empty or not, waits, takes an item, unlocks. -/
inductive Does (m : MessageQueue τ α) (t : τ) : MessageQueue τ α → Prop
  | pushLocks (item : α) (monitor : Monitor τ) (pc : m.pc t = .pushing item)
      (lock : m.monitor.lock t = some monitor) : Does m t (m.goTo t monitor (.enqueueing item))
  | enqueues (item : α) (pc : m.pc t = .enqueueing item) :
      Does m t
        { m.goTo t m.monitor .signalling with q := m.q ++ [item], pushed := m.pushed ++ [item] }
  | signals (chosen : Option τ) (monitor : Monitor τ) (pc : m.pc t = .signalling)
      (signal : m.monitor.signal chosen = some monitor) : Does m t (m.goTo t monitor .pushed)
  | pushUnlocks (pc : m.pc t = .pushed) : Does m t (m.goTo t m.monitor.unlock .outside)
  | popLocks (monitor : Monitor τ)
      (pc : m.pc t = .popping ∨ (m.pc t = .waiting ∧ t ∉ m.monitor.waiters))
      (lock : m.monitor.lock t = some monitor) : Does m t (m.goTo t monitor .testing)
  | findsNone (pc : m.pc t = .testing) (empty : m.q = []) : Does m t (m.goTo t m.monitor .parking)
  | findsSome (pc : m.pc t = .testing) (nonempty : m.q ≠ []) :
      Does m t (m.goTo t m.monitor .taking)
  | waits (pc : m.pc t = .parking) : Does m t (m.goTo t (m.monitor.wait t) .waiting)
  | takes (item : α) (rest : List α) (pc : m.pc t = .taking) (front : m.q = item :: rest) :
      Does m t { m.goTo t m.monitor (.popped item) with q := rest, popped := m.popped ++ [item] }
  | popUnlocks (item : α) (pc : m.pc t = .popped item) :
      Does m t (m.goTo t m.monitor.unlock .outside)

theorem step_does {m m' : MessageQueue τ α} {t : τ} {chosen : Option τ}
    (h : m.step t chosen = some m') : m.Does t m' := by
  unfold step at h
  cases hpc : m.pc t with
  | outside =>
    rw [hpc] at h
    exact absurd h.symm (Option.some_ne_none m')
  | pushing item =>
    rw [hpc] at h
    obtain ⟨monitor, hlock, rfl⟩ := Option.map_eq_some_iff.mp h
    exact Does.pushLocks item monitor hpc hlock
  | enqueueing item =>
    rw [hpc] at h
    obtain rfl := Option.some.inj h
    exact Does.enqueues item hpc
  | signalling =>
    rw [hpc] at h
    obtain ⟨monitor, hsignal, rfl⟩ := Option.map_eq_some_iff.mp h
    exact Does.signals chosen monitor hpc hsignal
  | pushed =>
    rw [hpc] at h
    obtain rfl := Option.some.inj h
    exact Does.pushUnlocks hpc
  | popping =>
    rw [hpc] at h
    obtain ⟨monitor, hlock, rfl⟩ := Option.map_eq_some_iff.mp h
    exact Does.popLocks monitor (Or.inl hpc) hlock
  | testing =>
    rw [hpc] at h
    obtain rfl := Option.some.inj h
    by_cases hempty : m.q = []
    · rw [if_pos (List.isEmpty_iff.mpr hempty)]
      exact Does.findsNone hpc hempty
    · rw [if_neg (mt List.isEmpty_iff.mp hempty)]
      exact Does.findsSome hpc hempty
  | parking =>
    rw [hpc] at h
    obtain rfl := Option.some.inj h
    exact Does.waits hpc
  | waiting =>
    rw [hpc] at h
    dsimp only at h
    split_ifs at h with hwaits
    obtain ⟨monitor, hlock, rfl⟩ := Option.map_eq_some_iff.mp h
    exact Does.popLocks monitor (Or.inr ⟨hpc, hwaits⟩) hlock
  | taking =>
    rw [hpc] at h
    dsimp only at h
    split at h
    · exact absurd h.symm (Option.some_ne_none m')
    · rename_i item rest hq
      obtain rfl := Option.some.inj h
      exact Does.takes item rest hpc hq
  | popped item =>
    rw [hpc] at h
    obtain rfl := Option.some.inj h
    exact Does.popUnlocks item hpc

/-! ### The mutex -/

/-- The thread is between the lock and the unlock of its call, and not in the wait. -/
def Holds (m : MessageQueue τ α) (t : τ) : Prop := (m.pc t).Holds

instance (m : MessageQueue τ α) (t : τ) : Decidable (m.Holds t) :=
  inferInstanceAs (Decidable (m.pc t).Holds)

/-- What a step does to the position of its thread and to the mutex. -/
inductive Turn (m m' : MessageQueue τ α) (t : τ) : Prop
  | keeps (pc : QueuePc α) (goes : m'.pc = Function.update m.pc t pc)
      (owner : m'.monitor.owner = m.monitor.owner) (holds : pc.Holds ↔ m.Holds t)
  | locks (pc : QueuePc α) (goes : m'.pc = Function.update m.pc t pc)
      (free : m.monitor.owner = none) (owner : m'.monitor.owner = some t) (holds : pc.Holds)
  | unlocks (pc : QueuePc α) (goes : m'.pc = Function.update m.pc t pc)
      (held : m.Holds t) (owner : m'.monitor.owner = none) (holds : ¬ pc.Holds)

variable {m m' : MessageQueue τ α} {t : τ}

theorem Turn.pc_of_ne (h : m.Turn m' t) {t' : τ} (hne : t' ≠ t) : m'.pc t' = m.pc t' := by
  cases h with
  | keeps pc goes owner holds => rw [goes, Function.update_of_ne hne]
  | locks pc goes free owner holds => rw [goes, Function.update_of_ne hne]
  | unlocks pc goes held owner holds => rw [goes, Function.update_of_ne hne]

/-- Where somebody else owns the mutex after a step, nobody took it or gave it up. -/
theorem Turn.owner_of_ne (h : m.Turn m' t) {t' : τ} (howner : m'.monitor.owner = some t')
    (hne : t' ≠ t) : m.monitor.owner = some t' := by
  cases h with
  | keeps pc goes owner holds => exact owner.symm.trans howner
  | locks pc goes free owner holds =>
    exact absurd (Option.some.inj (owner.symm.trans howner)).symm hne
  | unlocks pc goes held owner holds =>
    exact absurd (owner.symm.trans howner).symm (Option.some_ne_none t')

/-- A call that locks the mutex and goes on. -/
theorem turn_of_lock (pc : QueuePc α) (hholds : pc.Holds) {monitor : Monitor τ}
    (hlock : m.monitor.lock t = some monitor) : m.Turn (m.goTo t monitor pc) t := by
  obtain ⟨hfree, howner⟩ := Monitor.owner_lock hlock
  exact Turn.locks pc rfl hfree howner hholds

theorem Does.turn (h : m.Does t m') : m.Turn m' t := by
  have hheld : ∀ pc, m.pc t = pc → pc.Holds → m.Holds t := by
    rintro pc rfl hholds
    exact hholds
  cases h with
  | pushLocks item monitor pc lock => exact turn_of_lock (.enqueueing item) trivial lock
  | enqueues item pc =>
    exact Turn.keeps .signalling rfl rfl (iff_of_true trivial (hheld _ pc trivial))
  | signals chosen monitor pc signal =>
    exact Turn.keeps .pushed rfl (Monitor.owner_signal signal)
      (iff_of_true trivial (hheld _ pc trivial))
  | pushUnlocks pc => exact Turn.unlocks .outside rfl (hheld _ pc trivial) rfl not_false
  | popLocks monitor pc lock => exact turn_of_lock .testing trivial lock
  | findsNone pc empty =>
    exact Turn.keeps .parking rfl rfl (iff_of_true trivial (hheld _ pc trivial))
  | findsSome pc nonempty =>
    exact Turn.keeps .taking rfl rfl (iff_of_true trivial (hheld _ pc trivial))
  | waits pc => exact Turn.unlocks .waiting rfl (hheld _ pc trivial) rfl not_false
  | takes item rest pc front =>
    exact Turn.keeps (.popped item) rfl rfl (iff_of_true trivial (hheld _ pc trivial))
  | popUnlocks item pc => exact Turn.unlocks .outside rfl (hheld _ pc trivial) rfl not_false

theorem step_turn {chosen : Option τ} (h : m.step t chosen = some m') : m.Turn m' t :=
  (step_does h).turn

/-- A call of `push` begins. -/
theorem next_push {item : α} (h : m.next (.push t item) = some m') :
    m.pc t = .outside ∧ m' = m.goTo t m.monitor (.pushing item) := by
  simp only [next] at h
  split at h
  · rename_i hpc
    exact ⟨hpc, (Option.some.inj h).symm⟩
  · exact absurd h.symm (Option.some_ne_none m')

/-- A call of `pop` begins. -/
theorem next_pop (h : m.next (.pop t) = some m') :
    m.pc t = .outside ∧ m' = m.goTo t m.monitor .popping := by
  simp only [next] at h
  split at h
  · rename_i hpc
    exact ⟨hpc, (Option.some.inj h).symm⟩
  · exact absurd h.symm (Option.some_ne_none m')

theorem next_turn {event : QueueEvent τ α} (h : m.next event = some m') :
    m.Turn m' event.thread := by
  have hcall : ∀ (t : τ) (pc : QueuePc α), m.pc t = .outside → ¬ pc.Holds →
      m.Turn (m.goTo t m.monitor pc) t := by
    intro t pc hpc hholds
    refine Turn.keeps pc rfl rfl (iff_of_false hholds ?_)
    rw [Holds, hpc]
    exact not_false
  cases event with
  | push t item =>
    obtain ⟨hpc, rfl⟩ := next_push h
    exact hcall t (.pushing item) hpc not_false
  | pop t =>
    obtain ⟨hpc, rfl⟩ := next_pop h
    exact hcall t .popping hpc not_false
  | step t chosen => exact step_turn h
  | spurious t =>
    obtain ⟨monitor, hleave, rfl⟩ := Option.map_eq_some_iff.mp h
    have hsame : m.pc = Function.update m.pc t (m.pc t) := (Function.update_eq_self _ _).symm
    exact Turn.keeps (m.pc t) hsame (Monitor.owner_leave hleave) Iff.rfl

/-- The mutex is owned by the one thread that is between the lock and the unlock of its call. -/
def Locked (m : MessageQueue τ α) : Prop := ∀ t, m.monitor.owner = some t ↔ m.Holds t

omit [DecidableEq τ] in
theorem locked_initialized : (initialized : MessageQueue τ α).Locked :=
  fun t ↦ iff_of_false (Option.some_ne_none t).symm not_false

omit [DecidableEq τ] in
/-- A step that moves no thread and leaves the mutex to its owner. -/
theorem Locked.of_owner (h : m.Locked) (hpc : m'.pc = m.pc)
    (howner : m'.monitor.owner = m.monitor.owner) : m'.Locked := by
  intro t
  rw [howner, h t, Holds, Holds, hpc]

theorem Locked.turn (h : m.Locked) (hturn : m.Turn m' t) : m'.Locked := by
  intro t'
  cases hturn with
  | keeps pc goes owner holds =>
    rw [owner, h t', Holds, Holds, goes]
    by_cases hsame : t' = t
    · rw [hsame, Function.update_self]
      exact holds.symm
    · rw [Function.update_of_ne hsame]
  | locks pc goes free owner holds =>
    rw [owner, Holds, goes]
    by_cases hsame : t' = t
    · rw [hsame, Function.update_self]
      exact iff_of_true rfl holds
    · rw [Function.update_of_ne hsame]
      refine iff_of_false (fun heq ↦ hsame (Option.some.inj heq).symm) fun hholds ↦ ?_
      exact absurd ((h t').mpr hholds) (free ▸ (Option.some_ne_none t').symm)
  | unlocks pc goes held owner holds =>
    rw [owner, Holds, goes]
    by_cases hsame : t' = t
    · rw [hsame, Function.update_self]
      exact iff_of_false (Option.some_ne_none t).symm holds
    · rw [Function.update_of_ne hsame]
      refine iff_of_false (Option.some_ne_none t').symm fun hholds ↦ hsame ?_
      exact Option.some.inj (((h t').mpr hholds).symm.trans ((h t).mpr held))

theorem Locked.next {event : QueueEvent τ α} (h : m.Locked) (hstep : m.next event = some m') :
    m'.Locked :=
  h.turn (next_turn hstep)

/-- While one thread owns the mutex no other goes on with its call. -/
theorem Locked.blocked (h : m.Locked) {owner : τ} (howner : m.monitor.owner = some owner)
    (hne : t ≠ owner) (chosen : Option τ) : m.step t chosen = none := by
  have hlock : m.monitor.lock t = none := Monitor.lock_eq_none howner
  have hholds : ¬ m.Holds t :=
    fun hholds ↦ hne (Option.some.inj (((h t).mpr hholds).symm.trans howner))
  unfold Holds at hholds
  unfold step
  cases hpc : m.pc t with
  | outside => rfl
  | pushing item => exact Option.map_eq_none_iff.mpr hlock
  | popping => exact Option.map_eq_none_iff.mpr hlock
  | waiting =>
    dsimp only
    rw [hlock]
    exact ite_self _
  | _ =>
    rw [hpc] at hholds
    exact absurd trivial hholds

end MessageQueue

end IpRipStack
