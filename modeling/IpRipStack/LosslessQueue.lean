import IpRipStack.MessageQueue
import IpRipStack.Library.Runs
import Mathlib.Data.Finset.Card

/-!
# The queue between threads

Any number of threads push to a `MessageQueue` and pop from it in any order of their steps. Items
are put in and taken out while the mutex is held, so they come out in the order in which they went
in (`Kept.order`), and whoever takes one has found one (`Knows`).

A thread that waits is woken by the signal of a `push`, but another may take the item first, and a
signal that finds nobody waiting is lost. While somebody waits there are at least as many threads
that will take an item, or are about to signal one, as there are items (`Served`): a signal turns
the thread that pushed into one that is awake, and a thread leaves only with an item. So where all
threads in `pop` wait, either a signal is still to come or the queue is empty.
-/

set_option autoImplicit false
set_option relaxedAutoImplicit false

namespace IpRipStack

open Runs

/-- The thread is in a call of `pop`. -/
def QueuePc.InPop {α : Type*} : QueuePc α → Prop
  | .popping | .testing | .parking | .waiting | .taking | .popped _ => True
  | .outside | .pushing _ | .enqueueing _ | .signalling | .pushed => False

/-- A thread at the position, asleep if it waits, looks for an item or is about to signal one. -/
def QueuePc.Serves {α : Type*} (asleep : Prop) : QueuePc α → Prop
  | .signalling | .popping | .testing | .taking => True
  | .waiting => ¬ asleep
  | .outside | .pushing _ | .enqueueing _ | .pushed | .parking | .popped _ => False

namespace MessageQueue

variable {τ α : Type*} [DecidableEq τ]

def Step (m : MessageQueue τ α) (event : QueueEvent τ α) (m' : MessageQueue τ α) : Prop :=
  m.next event = some m'

/-- The thread waits in `pop`, and nothing has woken it. -/
def Sleeps (m : MessageQueue τ α) (t : τ) : Prop :=
  m.pc t = .waiting ∧ t ∈ m.monitor.waiters

/-- There is an item and nobody uses the queue, and there are threads in `pop` and all of them
sleep. -/
def Stuck (m : MessageQueue τ α) : Prop :=
  m.q ≠ [] ∧ m.monitor.owner = none ∧ (∃ t, (m.pc t).InPop) ∧ ∀ t, (m.pc t).InPop → m.Sleeps t

/-- The thread will take an item or find none, or it is about to signal one. -/
def Serves (m : MessageQueue τ α) (t : τ) : Prop := (m.pc t).Serves (t ∈ m.monitor.waiters)

/-- While somebody waits there are as many threads that serve as there are items. -/
def Served (m : MessageQueue τ α) : Prop :=
  m.monitor.waiters ≠ [] →
    ∃ serving : Finset τ, (∀ t ∈ serving, m.Serves t) ∧ m.q.length ≤ serving.card

/-- What a thread at a position has found out about the queue, or has got from it. -/
def Knows (m : MessageQueue τ α) : QueuePc α → Prop
  | .taking => m.q ≠ []
  | .parking => m.q = []
  | .popped item => ∃ before, m.popped = before ++ [item]
  | .outside | .pushing _ | .enqueueing _ | .signalling | .pushed | .popping | .testing | .waiting =>
    True

/-- What holds between steps. -/
structure Kept (m : MessageQueue τ α) : Prop where
  locked : m.Locked
  order : m.popped ++ m.q = m.pushed
  knows : ∀ t, m.Knows (m.pc t)
  nodup : m.monitor.waiters.Nodup
  sleeps : ∀ t ∈ m.monitor.waiters, m.pc t = .waiting
  served : m.Served

variable {m m' : MessageQueue τ α} {t : τ}

omit [DecidableEq τ] in
theorem kept_initialized : (initialized : MessageQueue τ α).Kept :=
  ⟨locked_initialized, rfl, fun _ ↦ trivial, List.nodup_nil,
    fun _ hwaits ↦ absurd hwaits List.not_mem_nil, fun hwaits ↦ absurd rfl hwaits⟩

/-! ### What a thread knows -/

omit [DecidableEq τ] in
theorem knows_of_not_holds {pc : QueuePc α} (h : ¬ pc.Holds) : m.Knows pc := by
  cases pc with
  | taking => exact absurd trivial h
  | parking => exact absurd trivial h
  | popped item => exact absurd trivial h
  | _ => trivial

omit [DecidableEq τ] in
/-- Who does not hold the mutex knows nothing that could change. -/
theorem Kept.knows_of_holder (h : m.Kept) (hholds : m.Holds t) {t' : τ} (hne : t' ≠ t) :
    m'.Knows (m.pc t') := by
  refine knows_of_not_holds fun hholds' ↦ hne ?_
  exact Option.some.inj (((h.locked t').mpr hholds').symm.trans ((h.locked t).mpr hholds))

theorem Kept.knows_does (h : m.Kept) (hdoes : m.Does t m') (t' : τ) : m'.Knows (m'.pc t') := by
  by_cases hsame : t' = t
  · subst hsame
    cases hdoes with
    | findsNone pc empty =>
      rw [goTo_pc_self]
      exact empty
    | findsSome pc nonempty =>
      rw [goTo_pc_self]
      exact nonempty
    | takes item rest pc front =>
      change Knows _ (Function.update m.pc t' (.popped item) t')
      rw [Function.update_self]
      exact ⟨m.popped, rfl⟩
    | enqueues item pc =>
      change Knows _ (Function.update m.pc t' .signalling t')
      rw [Function.update_self]
      trivial
    | _ =>
      rw [goTo_pc_self]
      trivial
  · rw [hdoes.turn.pc_of_ne hsame]
    have hknows := h.knows t'
    cases hdoes with
    | enqueues item pc => exact h.knows_of_holder (by rw [Holds, pc]; trivial) hsame
    | takes item rest pc front => exact h.knows_of_holder (by rw [Holds, pc]; trivial) hsame
    | _ => exact hknows

theorem Kept.order_does (h : m.Kept) (hdoes : m.Does t m') : m'.popped ++ m'.q = m'.pushed := by
  have horder := h.order
  cases hdoes with
  | enqueues item pc =>
    change m.popped ++ (m.q ++ [item]) = m.pushed ++ [item]
    rw [← horder, List.append_assoc]
  | takes item rest pc front =>
    change m.popped ++ [item] ++ rest = m.pushed
    rw [← horder, front, List.append_assoc, List.singleton_append]
  | _ => exact horder

/-! ### Who waits -/

omit [DecidableEq τ] in
/-- A thread that is not awake is among the waiters, and every other is where it was. -/
theorem Kept.sleeps_of_subset (h : m.Kept) (hpc : ∀ t', t' ≠ t → m'.pc t' = m.pc t')
    (hwaiters : ∀ t' ∈ m'.monitor.waiters, t' ∈ m.monitor.waiters) (hawake : t ∉ m'.monitor.waiters) :
    ∀ t' ∈ m'.monitor.waiters, m'.pc t' = .waiting := by
  intro t' hwaits
  have hne : t' ≠ t := by
    rintro rfl
    exact hawake hwaits
  rw [hpc t' hne]
  exact h.sleeps t' (hwaiters t' hwaits)

omit [DecidableEq τ] in
/-- A thread in another place than the wait is not among the waiters. -/
theorem Kept.not_mem_waiters (h : m.Kept) (hpc : m.pc t ≠ .waiting) : t ∉ m.monitor.waiters :=
  fun hwaits ↦ hpc (h.sleeps t hwaits)

theorem Kept.waiters_does (h : m.Kept) (hdoes : m.Does t m') :
    m'.monitor.waiters.Nodup ∧ ∀ t' ∈ m'.monitor.waiters, m'.pc t' = .waiting := by
  have hothers : ∀ t', t' ≠ t → m'.pc t' = m.pc t' := fun t' hne ↦ hdoes.turn.pc_of_ne hne
  have hsame : m'.monitor.waiters = m.monitor.waiters → t ∉ m.monitor.waiters →
      m'.monitor.waiters.Nodup ∧ ∀ t' ∈ m'.monitor.waiters, m'.pc t' = .waiting := by
    intro hwaiters hawake
    rw [← hwaiters] at hawake
    refine ⟨hwaiters ▸ h.nodup, h.sleeps_of_subset hothers (fun t' ↦ ?_) hawake⟩
    rw [hwaiters]
    exact id
  have hawake : ∀ pc, m.pc t = pc → pc ≠ .waiting → t ∉ m.monitor.waiters := by
    rintro pc rfl hne
    exact h.not_mem_waiters hne
  cases hdoes with
  | pushLocks item monitor pc lock =>
    exact hsame (Monitor.waiters_lock lock) (hawake _ pc nofun)
  | enqueues item pc => exact hsame rfl (hawake _ pc nofun)
  | signals chosen monitor pc signal =>
    have hout := hawake _ pc nofun
    rcases Monitor.waiters_signal signal with ⟨hnobody, hstill⟩ | ⟨w, hwaits, hleft⟩
    · exact hsame (hstill.trans hnobody.symm) hout
    · have hsubset : ∀ t' ∈ monitor.waiters, t' ∈ m.monitor.waiters := by
        intro t' hmem
        rw [hleft] at hmem
        exact List.mem_of_mem_erase hmem
      refine ⟨?_, h.sleeps_of_subset hothers hsubset fun hmem ↦ hout (hsubset t hmem)⟩
      change monitor.waiters.Nodup
      rw [hleft]
      exact h.nodup.erase w
  | pushUnlocks pc => exact hsame rfl (hawake _ pc nofun)
  | popLocks monitor pc lock =>
    refine hsame (Monitor.waiters_lock lock) ?_
    rcases pc with hpopping | ⟨-, hout⟩
    · exact hawake _ hpopping nofun
    · exact hout
  | findsNone pc empty => exact hsame rfl (hawake _ pc nofun)
  | findsSome pc nonempty => exact hsame rfl (hawake _ pc nofun)
  | waits pc =>
    have hout := hawake _ pc nofun
    refine ⟨?_, fun t' hmem ↦ ?_⟩
    · change (m.monitor.waiters ++ [t]).Nodup
      rw [← List.concat_eq_append]
      exact List.Nodup.concat hout h.nodup
    · by_cases hself : t' = t
      · rw [hself, goTo_pc_self]
      · rw [hothers t' hself]
        rcases List.mem_append.mp hmem with hold | hnew
        · exact h.sleeps t' hold
        · exact absurd (List.mem_singleton.mp hnew) hself
  | takes item rest pc front => exact hsame rfl (hawake _ pc nofun)
  | popUnlocks item pc => exact hsame rfl (hawake _ pc nofun)

/-! ### Who serves -/

omit [DecidableEq τ] in
/-- A thread that keeps its position serves as before, unless it falls asleep. -/
theorem Serves.of_same {t' : τ} (h : m.Serves t') (hpc : m'.pc t' = m.pc t')
    (hwaiters : t' ∈ m'.monitor.waiters → t' ∈ m.monitor.waiters) : m'.Serves t' := by
  unfold Serves at h ⊢
  rw [hpc]
  cases hat : m.pc t' with
  | waiting =>
    rw [hat] at h
    exact fun hwaits ↦ h (hwaiters hwaits)
  | _ =>
    rw [hat] at h
    exact h

omit [DecidableEq τ] in
/-- Nobody new waits, no item comes, and whoever served still does. -/
theorem Served.of_same (h : m.Served) (hwaiters : m'.monitor.waiters ⊆ m.monitor.waiters)
    (hq : m'.q = m.q) (hserves : ∀ t', m.Serves t' → m'.Serves t') : m'.Served := by
  intro hsomebody
  have hbefore : m.monitor.waiters ≠ [] := by
    intro hnobody
    rw [hnobody] at hwaiters
    exact hsomebody (List.subset_nil.mp hwaiters)
  obtain ⟨serving, hserving, hlength⟩ := h hbefore
  exact ⟨serving, fun t' ht' ↦ hserves t' (hserving t' ht'), hq ▸ hlength⟩

omit [DecidableEq τ] in
theorem served_of_empty (hempty : m.q = []) : m.Served := by
  refine fun _ ↦ ⟨∅, fun t' ht' ↦ absurd ht' (Finset.notMem_empty t'), ?_⟩
  rw [hempty]
  exact Nat.zero_le _

/-- A thread that serves puts an item in. -/
theorem Served.enqueue {item : α} (h : m.Served) (hq : m'.q = m.q ++ [item])
    (hwaiters : m'.monitor.waiters = m.monitor.waiters) (hbefore : ¬ m.Serves t)
    (hafter : m'.Serves t) (hserves : ∀ t', t' ≠ t → m.Serves t' → m'.Serves t') : m'.Served := by
  intro hsomebody
  obtain ⟨serving, hserving, hlength⟩ := h (hwaiters ▸ hsomebody)
  have hnew : t ∉ serving := fun ht ↦ hbefore (hserving t ht)
  refine ⟨insert t serving, fun t' ht' ↦ ?_, ?_⟩
  · rcases Finset.mem_insert.mp ht' with rfl | hold
    · exact hafter
    · exact hserves t' (fun heq ↦ hnew (heq ▸ hold)) (hserving t' hold)
  · rw [hq, List.length_append, Finset.card_insert_of_notMem hnew]
    exact Nat.add_le_add_right hlength 1

/-- A thread that serves takes an item out. -/
theorem Served.take {item : α} (h : m.Served) (hq : m.q = item :: m'.q)
    (hwaiters : m'.monitor.waiters = m.monitor.waiters)
    (hserves : ∀ t', t' ≠ t → m.Serves t' → m'.Serves t') : m'.Served := by
  intro hsomebody
  obtain ⟨serving, hserving, hlength⟩ := h (hwaiters ▸ hsomebody)
  refine ⟨serving.erase t, fun t' ht' ↦ ?_, ?_⟩
  · obtain ⟨hne, hold⟩ := Finset.mem_erase.mp ht'
    exact hserves t' hne (hserving t' hold)
  · rw [hq, List.length_cons] at hlength
    have hleft := Finset.pred_card_le_card_erase (s := serving) (a := t)
    omega

/-- A thread that serves gives its place to one that slept. -/
theorem Served.handOn {woken : τ} (h : m.Served) (hq : m'.q = m.q)
    (hsomebody : m.monitor.waiters ≠ []) (hbefore : ¬ m.Serves woken) (hafter : m'.Serves woken)
    (hserves : ∀ t', t' ≠ t → m.Serves t' → m'.Serves t') : m'.Served := by
  intro _
  obtain ⟨serving, hserving, hlength⟩ := h hsomebody
  have hnew : woken ∉ serving.erase t :=
    fun hmem ↦ hbefore (hserving woken (Finset.mem_of_mem_erase hmem))
  refine ⟨insert woken (serving.erase t), fun t' ht' ↦ ?_, ?_⟩
  · rcases Finset.mem_insert.mp ht' with rfl | hold
    · exact hafter
    · obtain ⟨hne, hold⟩ := Finset.mem_erase.mp hold
      exact hserves t' hne (hserving t' hold)
  · rw [hq, Finset.card_insert_of_notMem hnew]
    have hleft := Finset.pred_card_le_card_erase (s := serving) (a := t)
    omega

theorem Kept.served_does (h : m.Kept) (hdoes : m.Does t m') : m'.Served := by
  have hserved := h.served
  have hothers : ∀ t', t' ≠ t → m'.pc t' = m.pc t' := fun t' hne ↦ hdoes.turn.pc_of_ne hne
  have hkeeps : m'.monitor.waiters ⊆ m.monitor.waiters → ∀ t', t' ≠ t → m.Serves t' →
      m'.Serves t' :=
    fun hwaiters t' hne hserves ↦ hserves.of_same (hothers t' hne) fun hmem ↦ hwaiters hmem
  have hsame : m'.monitor.waiters ⊆ m.monitor.waiters → m'.q = m.q →
      (m.Serves t → m'.Serves t) → m'.Served := by
    intro hwaiters hq hself
    refine hserved.of_same hwaiters hq fun t' hserves ↦ ?_
    by_cases hne : t' = t
    · rw [hne] at hserves ⊢
      exact hself hserves
    · exact hkeeps hwaiters t' hne hserves
  have hidle : ∀ pc : QueuePc α, m.pc t = pc → ¬ pc.Serves (t ∈ m.monitor.waiters) →
      ¬ m.Serves t := by
    rintro pc rfl hidle
    exact hidle
  have hnow : ∀ pc : QueuePc α, m'.pc t = pc → pc.Serves (t ∈ m'.monitor.waiters) →
      m'.Serves t := by
    rintro pc rfl hnow
    exact hnow
  cases hdoes with
  | pushLocks item monitor pc lock =>
    exact hsame (Monitor.waiters_lock lock ▸ List.Subset.refl _) rfl fun hserves ↦
      absurd hserves (hidle _ pc not_false)
  | enqueues item pc =>
    exact hserved.enqueue rfl rfl (hidle _ pc not_false)
      (hnow .signalling (Function.update_self _ _ _) trivial) (hkeeps (List.Subset.refl _))
  | signals chosen monitor pc signal =>
    rcases Monitor.waiters_signal signal with ⟨-, hnobody⟩ | ⟨woken, hwaits, hleft⟩
    · exact fun hsomebody ↦ absurd hnobody hsomebody
    · have hpc := h.sleeps woken hwaits
      have hne : woken ≠ t := by
        rintro rfl
        rw [pc] at hpc
        cases hpc
      have hsubset : monitor.waiters ⊆ m.monitor.waiters := hleft ▸ List.erase_subset
      have hbefore : ¬ m.Serves woken := by
        rw [Serves, hpc]
        exact not_not_intro hwaits
      have hafter : (m.goTo t monitor .pushed).Serves woken := by
        rw [Serves, hothers woken hne, hpc]
        change woken ∉ monitor.waiters
        rw [hleft]
        exact h.nodup.not_mem_erase
      exact hserved.handOn rfl (List.ne_nil_of_mem hwaits) hbefore hafter (hkeeps hsubset)
  | pushUnlocks pc =>
    exact hsame (List.Subset.refl _) rfl fun hserves ↦ absurd hserves (hidle _ pc not_false)
  | popLocks monitor pc lock =>
    exact hsame (Monitor.waiters_lock lock ▸ List.Subset.refl _) rfl fun _ ↦
      hnow .testing (goTo_pc_self _ _ _ _) trivial
  | findsNone pc empty => exact served_of_empty empty
  | findsSome pc nonempty =>
    exact hsame (List.Subset.refl _) rfl fun _ ↦ hnow .taking (goTo_pc_self _ _ _ _) trivial
  | waits pc =>
    have hempty := h.knows t
    rw [pc] at hempty
    exact served_of_empty hempty
  | takes item rest pc front => exact hserved.take front rfl (hkeeps (List.Subset.refl _))
  | popUnlocks item pc =>
    exact hsame (List.Subset.refl _) rfl fun hserves ↦ absurd hserves (hidle _ pc not_false)

/-! ### Runs -/

theorem Kept.does (h : m.Kept) (hdoes : m.Does t m') : m'.Kept := by
  obtain ⟨hnodup, hsleeps⟩ := h.waiters_does hdoes
  exact ⟨h.locked.turn hdoes.turn, h.order_does hdoes, h.knows_does hdoes, hnodup, hsleeps,
    h.served_does hdoes⟩

/-- A call of `push` or `pop` begins. -/
theorem Kept.call (h : m.Kept) (hpc : m.pc t = .outside) {pc : QueuePc α} (hholds : ¬ pc.Holds)
    (hlocked : (m.goTo t m.monitor pc).Locked) : (m.goTo t m.monitor pc).Kept := by
  have hout : t ∉ m.monitor.waiters := h.not_mem_waiters (by rw [hpc]; nofun)
  refine ⟨hlocked, h.order, fun t' ↦ ?_, h.nodup, ?_, ?_⟩
  · by_cases hsame : t' = t
    · rw [hsame, goTo_pc_self]
      exact knows_of_not_holds hholds
    · rw [goTo_pc_of_ne m hsame]
      exact h.knows t'
  · exact h.sleeps_of_subset (fun t' hne ↦ goTo_pc_of_ne m hne _ _) (fun _ hwaits ↦ hwaits) hout
  · refine h.served.of_same (List.Subset.refl _) rfl fun t' hserves ↦ ?_
    have hne : t' ≠ t := by
      rintro rfl
      rw [Serves, hpc] at hserves
      exact hserves
    exact hserves.of_same (goTo_pc_of_ne m hne _ _) id

/-- A thread is woken without a signal. -/
theorem Kept.leave (h : m.Kept) {monitor : Monitor τ} (hleave : m.monitor.leave t = some monitor) :
    Kept { m with monitor := monitor } := by
  obtain ⟨-, hleft⟩ := Monitor.waiters_leave hleave
  have hsubset : monitor.waiters ⊆ m.monitor.waiters := hleft ▸ List.erase_subset
  refine ⟨h.locked.of_owner rfl (Monitor.owner_leave hleave), h.order, h.knows, ?_,
    fun t' hwaits ↦ h.sleeps t' (hsubset hwaits), ?_⟩
  · change monitor.waiters.Nodup
    rw [hleft]
    exact h.nodup.erase t
  · exact h.served.of_same hsubset rfl fun t' hserves ↦ hserves.of_same rfl fun hmem ↦ hsubset hmem

/-- The step lemma. -/
theorem Kept.step {event : QueueEvent τ α} (h : m.Kept) (hstep : m.Step event m') : m'.Kept := by
  have hlocked := h.locked.next hstep
  cases event with
  | push t item =>
    obtain ⟨hpc, rfl⟩ := next_push hstep
    exact h.call hpc not_false hlocked
  | pop t =>
    obtain ⟨hpc, rfl⟩ := next_pop hstep
    exact h.call hpc not_false hlocked
  | step t chosen => exact h.does (step_does hstep)
  | spurious t =>
    obtain ⟨monitor, hleave, rfl⟩ := Option.map_eq_some_iff.mp hstep
    exact h.leave hleave

omit [DecidableEq τ] in
theorem Kept.not_stuck (h : m.Kept) : ¬ m.Stuck := by
  rintro ⟨hitem, hfree, ⟨t, hin⟩, hasleep⟩
  obtain ⟨serving, hserving, hlength⟩ := h.served (List.ne_nil_of_mem (hasleep t hin).2)
  have hpos : 0 < serving.card := (List.length_pos_iff.mpr hitem).trans_le hlength
  obtain ⟨t', ht'⟩ := Finset.card_pos.mp hpos
  have hserves := hserving t' ht'
  have hcannot : (m.pc t').InPop → False := by
    intro hin'
    obtain ⟨hpc, hwaits⟩ := hasleep t' hin'
    rw [Serves, hpc] at hserves
    exact hserves hwaits
  -- who serves is in `pop` and awake, or holds the mutex to signal
  rw [Serves] at hserves
  cases hpc : m.pc t' with
  | signalling =>
    have howner : m.monitor.owner = some t' := (h.locked t').mpr (by rw [Holds, hpc]; trivial)
    exact absurd (hfree.symm.trans howner).symm (Option.some_ne_none t')
  | popping => exact hcannot (hpc ▸ trivial)
  | testing => exact hcannot (hpc ▸ trivial)
  | taking => exact hcannot (hpc ▸ trivial)
  | waiting => exact hcannot (hpc ▸ trivial)
  | _ =>
    rw [hpc] at hserves
    exact hserves

/-- Whatever threads push and pop and however they take turns: the items popped, in the order in
which they were taken while the mutex was held, and then those still in the queue are the items
pushed, in the order in which they were put in; an item is taken from a queue that has one, and the
one a call returns is the last that was taken; and it never comes to a state with an item in the
queue and nobody at it in which threads are in `pop` and all of them wait for a signal. -/
theorem queue_lossless (h : Reachable Step (initialized : MessageQueue τ α) m) :
    m.popped ++ m.q = m.pushed ∧ (∀ t, m.pc t = .taking → m.q ≠ []) ∧
      (∀ t item, m.pc t = .popped item → ∃ before, m.popped = before ++ [item]) ∧ ¬ m.Stuck := by
  have hkept : m.Kept := h.invariant (fun _ _ _ hs hstep ↦ hs.step hstep) kept_initialized
  refine ⟨hkept.order, fun t hpc ↦ ?_, fun t item hpc ↦ ?_, hkept.not_stuck⟩
  · have hknows := hkept.knows t
    rw [hpc] at hknows
    exact hknows
  · have hknows := hkept.knows t
    rw [hpc] at hknows
    exact hknows

end MessageQueue

/-- A thread finds the queue empty and waits, another pushes an item and wakes it, and it takes the
item. -/
def wokenPop : List (QueueEvent Bool ℕ) :=
  [.pop true, .step true none, .step true none, .step true none, .push false 7, .step false none,
    .step false none, .step false (some true), .step false none, .step true none, .step true none,
    .step true none]

theorem queue_lossless_wokenPop : ∃ m : MessageQueue Bool ℕ,
    Run MessageQueue.Step MessageQueue.initialized wokenPop m ∧ m.pc true = .popped 7 ∧
    m.pushed = [7] ∧ m.popped ++ m.q = m.pushed ∧ (∀ t, m.pc t = .taking → m.q ≠ []) ∧
      (∀ t item, m.pc t = .popped item → ∃ before, m.popped = before ++ [item]) ∧ ¬ m.Stuck := by
  have hfinal : wokenPop.foldlM MessageQueue.next MessageQueue.initialized = some _ := rfl
  exact ⟨_, Run.of_foldlM hfinal, rfl, rfl,
    MessageQueue.queue_lossless ⟨wokenPop, Run.of_foldlM hfinal⟩⟩

end IpRipStack
