import IpRipStack.Library.Runs
import Mathlib.Logic.Function.Basic

/-!
# The sending half of LinkLayer.cc

How a frame gets from the thread of `process_in_queue` to the thread of its interface. `send_frame`
waits under a mutex until the one send buffer of the interface is free, fills it and sets
`_sbufferReady`; the link thread, in `send_and_receive`, polls the flag without the mutex, and
`send_data` sends the buffer, frees it, clears the flag and signals the condition.

A `Slot` is what the two threads of an interface share, with the position of the link thread; a
`Call` is the call of `send_frame` in progress, of which there is at most one, since only one thread
calls it. Each step is one access to what is shared, or one call of the thread library. A signal
wakes a thread that waits and is otherwise lost; a thread may also wake without a signal. What
`select` and `sendto` answer is part of the event. The interfaces are any type; `down` and `up` are
the commands of the main thread, `close` and the assignment of `s_local` being one step.

A socket that is closed is writable to no one and accepts nothing. The reception of datagrams is
`RecvData`; here the link thread is back from it.
-/

set_option autoImplicit false
set_option relaxedAutoImplicit false

namespace IpRipStack

open Runs

/-- Where a link thread is: in `send_and_receive` before the test of `s_local` (`top`) and behind
`select` (`polled`), or in `send_data` before it reads the size, in the loop with so many bytes to
go, and before each of its last four statements. -/
inductive LinkPc
  | top
  | polled
  | loading
  | sending (remBytes : ℕ)
  | freeing
  | nulling
  | clearing
  | signalling
  deriving DecidableEq, Repr

/-- What a link thread shares with the others, its position, and the data of its calls of `sendto`
that succeeded. -/
structure Slot where
  isOpen : Bool -- `s_local != -1`
  sbuffer : Option (List UInt8)
  sbuffersz : ℕ
  sbufferReady : Bool
  bufferlck : Bool
  link : LinkPc
  sent : List (List UInt8)
  deriving DecidableEq, Repr

/-- The constructor of `LinkLayer`. -/
def Slot.new : Slot where
  isOpen := true
  sbuffer := none
  sbuffersz := 0
  sbufferReady := false
  bufferlck := false
  link := .top
  sent := []

/-- What the system answers a link thread: whether `select` finds the socket writable, and the
number of bytes `sendto` takes, `none` for `-1`. -/
structure Answer where
  writable : Bool
  numBytes : Option ℕ
  deriving DecidableEq, Repr

/-- One step of a link thread, but for the effect of a signal on the waiting thread. -/
def Slot.linkStep (slot : Slot) (answer : Answer) : Slot :=
  match slot.link with
  | .top => { slot with link := if slot.isOpen then .polled else .top }
  | .polled =>
    { slot with
      link := if slot.sbufferReady && slot.isOpen && answer.writable then .loading else .top }
  | .loading => { slot with link := .sending slot.sbuffersz }
  | .sending remBytes =>
    if remBytes = 0 then { slot with link := .freeing }
    else
      match if slot.isOpen then answer.numBytes else none with
      | none => { slot with link := .freeing }
      | some numBytes =>
        let data := (slot.sbuffer.getD []).drop (slot.sbuffersz - remBytes)
        { slot with link := .sending (remBytes - numBytes), sent := slot.sent ++ [data.take remBytes] }
  | .freeing => { slot with link := .nulling }
  | .nulling => { slot with sbuffer := none, link := .clearing }
  | .clearing => { slot with sbufferReady := false, link := .signalling }
  | .signalling => { slot with link := .top }

/-- Where the call of `send_frame` is: before the test of `s_local`, the lock, the test of the flag
and the wait; waiting; awake and before it has the mutex again; and before each of its last four
statements. -/
inductive SenderPc
  | entered
  | locking
  | testing
  | parking
  | waiting
  | woken
  | copying
  | sizing
  | readying
  | unlocking
  deriving DecidableEq, Repr

/-- A call of `send_frame`. -/
structure Call (ι : Type*) where
  ifc : ι
  frame : List UInt8
  pc : SenderPc
  deriving DecidableEq, Repr

/-- The slots of all interfaces and the call in progress. -/
structure SendState (ι : Type*) where
  slots : ι → Slot
  call : Option (Call ι)

/-- `process_in_queue` pops a packet and calls `send_frame`; the call takes a step, or wakes without
a signal; a link thread takes a step; the user takes an interface down or up. -/
inductive SendEvent (ι : Type*)
  | pop (ifc : ι) (frame : List UInt8)
  | sender
  | spurious
  | link (ifc : ι) (answer : Answer)
  | down (ifc : ι)
  | up (ifc : ι)

namespace SendState

variable {ι : Type*} [DecidableEq ι]

/-- All interfaces are up and no packet has been popped. -/
def start : SendState ι := ⟨fun _ ↦ Slot.new, none⟩

/-- One slot changes. -/
def setSlot (s : SendState ι) (ifc : ι) (slot : Slot) : SendState ι :=
  { s with slots := Function.update s.slots ifc slot }

/-- The call goes on to another position. -/
def setCall (s : SendState ι) (call : Call ι) (pc : SenderPc) : SendState ι :=
  { s with call := some { call with pc := pc } }

/-- The next step of `send_frame`, `none` where it cannot go on. -/
def senderStep (s : SendState ι) (call : Call ι) : Option (SendState ι) :=
  let slot := s.slots call.ifc
  match call.pc with
  | .entered => if slot.isOpen then some (s.setCall call .locking) else some { s with call := none }
  | .locking | .woken =>
    if slot.bufferlck then none
    else some ((s.setSlot call.ifc { slot with bufferlck := true }).setCall call .testing)
  | .testing =>
    if slot.sbufferReady then some (s.setCall call .parking) else some (s.setCall call .copying)
  | .parking => some ((s.setSlot call.ifc { slot with bufferlck := false }).setCall call .waiting)
  | .waiting => none
  | .copying => some ((s.setSlot call.ifc { slot with sbuffer := some call.frame }).setCall call .sizing)
  | .sizing =>
    some ((s.setSlot call.ifc { slot with sbuffersz := call.frame.length }).setCall call .readying)
  | .readying =>
    some ((s.setSlot call.ifc { slot with sbufferReady := true }).setCall call .unlocking)
  | .unlocking =>
    some { s.setSlot call.ifc { slot with bufferlck := false } with call := none }

/-- The call after a signal on the condition of an interface. -/
def wake (ifc : ι) (call : Call ι) : Call ι :=
  if call.ifc = ifc ∧ call.pc = .waiting then { call with pc := .woken } else call

/-- One step of the node. -/
def next (s : SendState ι) : SendEvent ι → Option (SendState ι)
  | .pop ifc frame =>
    match s.call with
    | none => some { s with call := some ⟨ifc, frame, .entered⟩ }
    | some _ => none
  | .sender => s.call.bind s.senderStep
  | .spurious =>
    match s.call with
    | none => none
    | some call => if call.pc = .waiting then some (s.setCall call .woken) else none
  | .link ifc answer =>
    some
      { slots := Function.update s.slots ifc ((s.slots ifc).linkStep answer)
        call := if (s.slots ifc).link = .signalling then s.call.map (wake ifc) else s.call }
  | .down ifc => some (s.setSlot ifc { s.slots ifc with isOpen := false })
  | .up ifc => some (s.setSlot ifc { s.slots ifc with isOpen := true })

def Step (s : SendState ι) (event : SendEvent ι) (s' : SendState ι) : Prop := s.next event = some s'

end SendState

end IpRipStack
