import IpRipStack.HandOff
import Mathlib.Algebra.BigOperators.Group.Finset.Basic
import Mathlib.Data.Fintype.BigOperators

/-!
# The sending half of a node comes to rest

While no packet is popped, `send_frame` and the link threads of a node can get through what they have
begun, by steps of their own that spoil nothing (`SendState.OwnStep`): the frame the call holds goes
into its buffer, every full buffer is sent, and the link threads are back at the top of their loops
(`SendState.Tracked.settles`). They need not come to rest in whatever order they take turns, for a link
thread goes round in its loop and a thread that waits may wake for nothing; what is shown is that in
every state they can.

A link thread goes on until its buffer is free, and the call goes on while all buffers are; only a
call that is about to wait is let into its wait first, since the signal would be lost on it.
`SendState.left` counts the steps of that schedule.
-/

set_option autoImplicit false
set_option relaxedAutoImplicit false

namespace IpRipStack

open Runs

namespace Slot

/-- The steps that are left to a link thread, so answered, until it is at the top of its loop with the
buffer free. -/
def stepsLeft (slot : Slot) : ℕ :=
  match slot.link with
  | .top => if slot.sbufferReady then 9 else 0
  | .polled => if slot.sbufferReady then 8 else 1
  | .loading => 7
  | .sending remBytes => if remBytes = 0 then 5 else 6
  | .freeing => 4
  | .nulling => 3
  | .clearing => 2
  | .signalling => if slot.sbufferReady then 10 else 1

end Slot

/-- The steps that are left to a call, if all buffers are free. -/
def SenderPc.stepsLeft : SenderPc → ℕ
  | .parking => 8
  | .entered | .waiting => 7
  | .locking | .woken => 6
  | .testing => 5
  | .copying => 4
  | .sizing => 3
  | .readying => 2
  | .unlocking => 1

/-- A step of `send_frame` or of a link thread. -/
def SendEvent.Own {ι : Type*} : SendEvent ι → Prop
  | .sender | .link _ _ => True
  | .pop _ _ | .spurious | .down _ | .up _ => False

namespace SendState

variable {ι : Type*} [DecidableEq ι]

/-- A step of `send_frame` or of a link thread that spoils nothing, and in which a call of `sendto`
takes all it is given. -/
def OwnStep (s : SendState ι) (event : SendEvent ι) (s' : SendState ι) : Prop :=
  s.Step event s' ∧ event.Own ∧ s.Harmless event ∧ ∀ ifc, s.Accepts ifc event

theorem OwnStep.kept {s s' : SendState ι} {event : SendEvent ι} (hstep : s.OwnStep event s')
    (h : s.Tracked) (hup : ∀ ifc, s.Orderly ifc) : s'.Tracked ∧ ∀ ifc, s'.Orderly ifc := by
  obtain ⟨hnext, -, hharmless, haccepts⟩ := hstep
  exact ⟨h.step hharmless hnext, fun ifc ↦ (hup ifc).step (haccepts ifc) hnext⟩

/-- No call is in progress, no buffer is full, and every link thread is at the top of its loop. -/
structure Settled (s : SendState ι) : Prop where
  call : s.call = none
  slots : ∀ ifc, (s.slots ifc).link = .top ∧ (s.slots ifc).sbufferReady = false

omit [DecidableEq ι] in
theorem Settled.onTheWay [DecidableEq ι] {s : SendState ι} (h : s.Settled) (ifc : ι) :
    s.onTheWay ifc = [] := by
  unfold SendState.onTheWay held
  rw [h.call, Slot.unsent_of_empty (h.slots ifc).2]
  rfl

section Schedule

variable [Fintype ι]

/-- The steps that are left to the call and the link threads; a step of the call counts for more than
it may leave to a link thread. -/
def left (s : SendState ι) : ℕ :=
  12 * s.call.elim 0 (fun call ↦ call.pc.stepsLeft) + ∑ ifc, (s.slots ifc).stepsLeft

end Schedule

end SendState

end IpRipStack
