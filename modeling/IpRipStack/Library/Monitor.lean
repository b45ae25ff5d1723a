import Mathlib.Tactic.Common

/-!
# A mutex with a condition

The mutex and the condition variable of the thread library, by the steps of the calls that use them.
The threads are any type. `lock` is possible while nobody owns the mutex; a call that waits first
gives up the mutex and joins the waiters in one step (`wait`), and locks again when it is no longer
among them. A signal takes one waiter away, which the system chooses, and is lost when there is none
(`signal`); a waiter may also leave without a signal (`leave`).

Every operation says what becomes of the owner and of the waiters: `owner_lock`, `owner_signal` and
`owner_leave` are what an argument about mutual exclusion needs, `waiters_lock`, `waiters_signal`
and `waiters_leave` what one about lost signals needs.
-/

set_option autoImplicit false
set_option relaxedAutoImplicit false

namespace IpRipStack

/-- Who owns the mutex and who waits for the condition. -/
structure Monitor (τ : Type*) where
  owner : Option τ
  waiters : List τ
  deriving DecidableEq, Repr

namespace Monitor

variable {τ : Type*}

/-- An unlocked mutex and a condition nobody waits for. -/
def new : Monitor τ := ⟨none, []⟩

/-- The mutex is taken, `none` while somebody owns it. -/
def lock (m : Monitor τ) (t : τ) : Option (Monitor τ) :=
  match m.owner with
  | none => some { m with owner := some t }
  | some _ => none

/-- The mutex is given up. -/
def unlock (m : Monitor τ) : Monitor τ := { m with owner := none }

/-- The mutex is given up and a thread joins the waiters. -/
def wait (m : Monitor τ) (t : τ) : Monitor τ := ⟨none, m.waiters ++ [t]⟩

variable [DecidableEq τ]

/-- A waiter leaves. -/
def leave (m : Monitor τ) (t : τ) : Option (Monitor τ) :=
  if t ∈ m.waiters then some { m with waiters := m.waiters.erase t } else none

/-- The waiter that is chosen leaves; where nobody waits nobody is chosen. -/
def signal (m : Monitor τ) : Option τ → Option (Monitor τ)
  | none => if m.waiters = [] then some m else none
  | some t => m.leave t

variable {m m' : Monitor τ}

omit [DecidableEq τ] in
theorem owner_lock {t : τ} (h : m.lock t = some m') : m.owner = none ∧ m'.owner = some t := by
  unfold lock at h
  split at h
  · rename_i hfree
    obtain rfl := Option.some.inj h
    exact ⟨hfree, rfl⟩
  · exact absurd h.symm (Option.some_ne_none m')

omit [DecidableEq τ] in
theorem lock_eq_none {t t' : τ} (h : m.owner = some t') : m.lock t = none := by
  unfold lock
  rw [h]

theorem owner_leave {t : τ} (h : m.leave t = some m') : m'.owner = m.owner := by
  unfold leave at h
  split_ifs at h
  obtain rfl := Option.some.inj h
  rfl

theorem owner_signal {chosen : Option τ} (h : m.signal chosen = some m') : m'.owner = m.owner := by
  cases chosen with
  | none =>
    simp only [signal] at h
    split_ifs at h
    rw [Option.some.inj h]
  | some t => exact owner_leave h

omit [DecidableEq τ] in
theorem waiters_lock {t : τ} (h : m.lock t = some m') : m'.waiters = m.waiters := by
  unfold lock at h
  split at h
  · obtain rfl := Option.some.inj h
    rfl
  · exact absurd h.symm (Option.some_ne_none m')

theorem waiters_leave {t : τ} (h : m.leave t = some m') :
    t ∈ m.waiters ∧ m'.waiters = m.waiters.erase t := by
  unfold leave at h
  split_ifs at h with hwaits
  obtain rfl := Option.some.inj h
  exact ⟨hwaits, rfl⟩

/-- A signal finds nobody, or takes one waiter away. -/
theorem waiters_signal {chosen : Option τ} (h : m.signal chosen = some m') :
    (m.waiters = [] ∧ m'.waiters = []) ∨
      ∃ t ∈ m.waiters, m'.waiters = m.waiters.erase t := by
  cases chosen with
  | none =>
    simp only [signal] at h
    split_ifs at h with hnobody
    obtain rfl := Option.some.inj h
    exact Or.inl ⟨hnobody, hnobody⟩
  | some t =>
    obtain ⟨hwaits, hleft⟩ := waiters_leave h
    exact Or.inr ⟨t, hwaits, hleft⟩

end Monitor

end IpRipStack
