import IpRipStack.NetworkLayer
import IpRipStack.RipMessage
import IpRipStack.Library.Runs

/-!
# NodeImpl.cc

The node as a whole: its constructor, the commands `up` and `down`, and the operations that can
happen to it, each of them indivisible. A command that names an interface the node does not have
reads past the end of the interface list in the source; here it is not an operation (`none`).

`Command` is what a node does of its own accord: it sends a message of a given type to its
neighbours (the constructor sends requests, the update timer responses), sweeps its table when the
refresh timer fires, or takes an interface down or up. `Event` adds what others make it do. A step
of a node leaves its byte order and the addresses of its interfaces as they are, and leaves no
received frame waiting. What the two commands about an interface do to the interfaces and to the
table is said once (`downCmd_spec`, `upCmd_spec`); no other step changes an interface.
-/

set_option autoImplicit false
set_option relaxedAutoImplicit false

namespace IpRipStack

open MachineWord OrderedMap

namespace Node

/-- The constructor of `Node`: `add_interfaces` on the lines of the link file, an empty network
layer, and the constructor of the routing layer. -/
def new (order : ByteOrder) (links : List LinkConfig) (clock : ℕ → Timeval) : Node :=
  ripLayer
    { order := order
      interfaces := links.map LinkLayer.new
      rtable := ∅
      incomingqueue := []
      outgoingqueue := []
      output := [] }
    clock

@[simp] theorem new_interfaces (order : ByteOrder) (links : List LinkConfig)
    (clock : ℕ → Timeval) : (new order links clock).interfaces = links.map LinkLayer.new :=
  prepareMsg_interfaces _ 1

theorem new_outgoingqueue (order : ByteOrder) (links : List LinkConfig) (clock : ℕ → Timeval) :
    (new order links clock).outgoingqueue = [] :=
  prepareMsg_outgoingqueue _ 1

/-- `Node::down_cmd`. -/
def downCmd (node : Node) (interface : ℕ) : Option Node :=
  (node.interfaces[interface]?).map fun ifc ↦
    removeIfcEntry { node with interfaces := node.interfaces.set interface ifc.down } ifc.vipLocal

/-- `Node::up_cmd`. -/
def upCmd (node : Node) (interface : ℕ) (sockfd : Int) (now : Timeval) : Option Node :=
  (node.interfaces[interface]?).map fun ifc ↦
    addIfcEntry { node with interfaces := node.interfaces.set interface (ifc.up sockfd) }
      ifc.vipLocal now

end Node

/-- What a node does of its own accord. -/
inductive Command
  | send (msgType : UInt16)
  | refresh (curtv : Timeval)
  | down (interface : ℕ)
  | up (interface : ℕ) (sockfd : Int) (now : Timeval)

/-- What happens to a node: a command, a frame received over an interface, a packet the user sends,
the transmission of a queued packet. -/
inductive Event
  | command (c : Command)
  | receive (interface : ℕ) (frame stale : List UInt8) (clock : ℕ → Timeval)
  | application (dest : UInt32) (proto : UInt8) (payload : List UInt8)
  | transmit

/-- What is no command about an interface. -/
def Event.LeavesInterfaces : Event → Prop
  | .command (.down _) | .command (.up _ _ _) => False
  | _ => True

namespace Node

def execute (node : Node) : Command → Option Node
  | .send msgType => some (node.prepareMsg msgType)
  | .refresh curtv => some (node.refreshRouteTable curtv)
  | .down interface => node.downCmd interface
  | .up interface sockfd now => node.upCmd interface sockfd now

def handle (node : Node) : Event → Option Node
  | .command c => node.execute c
  | .receive interface frame stale clock =>
    (node.interfaces[interface]?).map fun ifc ↦ node.receiveFrame frame ifc.vipLocal stale clock
  | .application dest proto payload =>
    some (node.transferApplicationToIp dest proto payload payload.length)
  | .transmit => some { node with incomingqueue := node.incomingqueue.tail }

/-- One operation of a node. -/
def Step (node : Node) (event : Event) (node' : Node) : Prop := node.handle event = some node'

/-! ### What an operation leaves alone -/

/-- The node differs from another at most in its table, its queue of packets to send, its output and
the state of its interfaces. -/
structure SameLinks (node node' : Node) : Prop where
  order : node'.order = node.order
  vips : node'.interfaces.map LinkLayer.vipLocal = node.interfaces.map LinkLayer.vipLocal
  remotes : node'.interfaces.map LinkLayer.vipRemote = node.interfaces.map LinkLayer.vipRemote
  outgoingqueue : node'.outgoingqueue = node.outgoingqueue

theorem SameLinks.of_eq {node node' : Node} (horder : node'.order = node.order)
    (hinterfaces : node'.interfaces = node.interfaces)
    (hqueue : node'.outgoingqueue = node.outgoingqueue) : node.SameLinks node' :=
  ⟨horder, by rw [hinterfaces], by rw [hinterfaces], hqueue⟩

theorem prepareMsg_sameLinks (node : Node) (msgType : UInt16) :
    node.SameLinks (node.prepareMsg msgType) := by
  rw [prepareMsg_eq]
  exact SameLinks.of_eq rfl rfl rfl

theorem transferIpToRip_interfaces (node : Node) (data : List UInt8) (next : UInt32)
    (clock : ℕ → Timeval) : (node.transferIpToRip data next clock).interfaces = node.interfaces := by
  rcases node.transferIpToRip_cases data next clock with
    ⟨-, hrun⟩ | ⟨-, hrun⟩ | ⟨-, -, hrun⟩
  · rw [hrun, prepareMsg_interfaces]
  · rw [hrun]
    rfl
  · rw [hrun]

theorem transferIpToRip_sameLinks (node : Node) (data : List UInt8) (next : UInt32)
    (clock : ℕ → Timeval) : node.SameLinks (node.transferIpToRip data next clock) := by
  rcases node.transferIpToRip_cases data next clock with
    ⟨-, hrun⟩ | ⟨-, hrun⟩ | ⟨-, -, hrun⟩
  · rw [hrun]
    exact node.prepareMsg_sameLinks 2
  · rw [hrun]
    exact SameLinks.of_eq rfl rfl rfl
  · rw [hrun]
    exact SameLinks.of_eq rfl rfl rfl

/-- With nothing waiting in the queue, the routing layer takes a received frame, or the frame queues
packets and prints and leaves the rest of the node alone. -/
theorem receiveFrame_cases {node : Node} (hidle : node.outgoingqueue = []) (frame : List UInt8)
    (next : UInt32) (stale : List UInt8) (clock : ℕ → Timeval) :
    (node.Accepts (frame ++ stale) next ∧ node.receiveFrame frame next stale clock =
        node.transferIpToRip (ripPayload (frame ++ stale)) next clock) ∨
      (¬ node.Accepts (frame ++ stale) next ∧
        ∃ queue output, node.receiveFrame frame next stale clock =
          { node with incomingqueue := node.incomingqueue ++ queue, output := output }) := by
  rw [receiveFrame_eq hidle]
  exact node.transferData_cases (frame ++ stale) frame.length next clock

theorem receiveFrame_interfaces {node : Node} (hidle : node.outgoingqueue = [])
    (frame : List UInt8) (next : UInt32) (stale : List UInt8) (clock : ℕ → Timeval) :
    (node.receiveFrame frame next stale clock).interfaces = node.interfaces := by
  rcases receiveFrame_cases hidle frame next stale clock with
    ⟨-, hrip⟩ | ⟨-, queue, output, hother⟩
  · rw [hrip, transferIpToRip_interfaces]
  · rw [hother]

theorem receiveFrame_sameLinks {node : Node} (hidle : node.outgoingqueue = [])
    (frame : List UInt8) (next : UInt32) (stale : List UInt8) (clock : ℕ → Timeval) :
    node.SameLinks (node.receiveFrame frame next stale clock) := by
  rcases receiveFrame_cases hidle frame next stale clock with
    ⟨-, hrip⟩ | ⟨-, queue, output, hother⟩
  · rw [hrip]
    exact node.transferIpToRip_sameLinks _ next clock
  · rw [hother]
    exact SameLinks.of_eq rfl rfl rfl

/-- A predicate of the table that every entry of a received message keeps is kept by the reception
of any frame. Assumes: nothing waiting in the queue. -/
theorem receiveFrame_induction {P : RouteTable → Prop} {node : Node}
    (hidle : node.outgoingqueue = []) (frame : List UInt8) {next : UInt32} (stale : List UInt8)
    {clock : ℕ → Timeval} (h : P node.rtable)
    (hstep : ∀ table curEntry i id, node.getInterface next = some id → node.isUp id = true →
      curEntry.ntoh node.order ∈ readEntries node.order (ripPayload (frame ++ stale)) → P table →
        P (node.updateEntry table curEntry next (clock i))) :
    P (node.receiveFrame frame next stale clock).rtable := by
  rcases receiveFrame_cases hidle frame next stale clock with
    ⟨haccepts, hrip⟩ | ⟨-, queue, output, hother⟩
  · rw [hrip]
    obtain ⟨id, hid, hup⟩ := (Option.any_eq_true _ _).mp haccepts.2.2
    exact transferIpToRip_induction h fun table curEntry i ↦ hstep table curEntry i id hid hup
  · rw [hother]
    exact h

/-- Changing the state of one interface keeps what it keeps of that interface. -/
theorem map_set_interfaces {β : Type*} (f : LinkLayer → β) {ifcs : List LinkLayer} {id : ℕ}
    {ifc ifc' : LinkLayer} (hget : ifcs[id]? = some ifc) (h : f ifc' = f ifc) :
    (ifcs.set id ifc').map f = ifcs.map f := by
  refine List.ext_getElem? fun j ↦ ?_
  rw [List.getElem?_map, List.getElem?_map, List.getElem?_set]
  split_ifs with hindex hlt
  · rw [← hindex, hget, Option.map_some, Option.map_some, h]
  · rw [← hindex, List.getElem?_eq_none (Nat.not_lt.mp hlt), Option.map_none]
  · rfl

theorem execute_sameLinks {node node' : Node} {c : Command} (h : node.execute c = some node') :
    node.SameLinks node' := by
  cases c with
  | send msgType =>
    obtain rfl := Option.some.inj h
    exact node.prepareMsg_sameLinks msgType
  | refresh curtv =>
    obtain rfl := Option.some.inj h
    exact SameLinks.of_eq rfl rfl rfl
  | down interface =>
    obtain ⟨ifc, hget, rfl⟩ := Option.map_eq_some_iff.mp h
    rw [removeIfcEntry, prepareMsg_eq]
    exact ⟨rfl, map_set_interfaces _ hget rfl, map_set_interfaces _ hget rfl, rfl⟩
  | up interface sockfd now =>
    obtain ⟨ifc, hget, rfl⟩ := Option.map_eq_some_iff.mp h
    exact ⟨rfl, map_set_interfaces _ hget rfl, map_set_interfaces _ hget rfl, rfl⟩

theorem transferApplicationToIp_cases (node : Node) (dest : UInt32) (proto : UInt8)
    (data : List UInt8) (datasz : ℕ) :
    ∃ queue, node.transferApplicationToIp dest proto data datasz =
      { node with incomingqueue := node.incomingqueue ++ queue } := by
  have hsame : ∃ queue, node = { node with incomingqueue := node.incomingqueue ++ queue } :=
    ⟨[], by rw [List.append_nil]⟩
  unfold transferApplicationToIp
  dsimp only
  split
  · exact hsame
  · split
    · exact hsame
    · exact ⟨_, rfl⟩

/-- An operation keeps the byte order and the addresses of a node, and leaves no frame waiting. -/
theorem Step.sameLinks {node node' : Node} {event : Event} (hidle : node.outgoingqueue = [])
    (h : node.Step event node') : node.SameLinks node' := by
  cases event with
  | command c => exact execute_sameLinks h
  | receive interface frame stale clock =>
    obtain ⟨ifc, -, rfl⟩ := Option.map_eq_some_iff.mp h
    exact receiveFrame_sameLinks hidle frame ifc.vipLocal stale clock
  | application dest proto payload =>
    obtain rfl := Option.some.inj h
    obtain ⟨queue, hqueue⟩ := node.transferApplicationToIp_cases dest proto payload payload.length
    rw [hqueue]
    exact SameLinks.of_eq rfl rfl rfl
  | transmit =>
    obtain rfl := Option.some.inj h
    exact SameLinks.of_eq rfl rfl rfl

/-- An operation leaves no frame waiting. -/
theorem Step.idle {node node' : Node} {event : Event} (hidle : node.outgoingqueue = [])
    (h : node.Step event node') : node'.outgoingqueue = [] :=
  (h.sameLinks hidle).outgoingqueue.trans hidle

theorem Step.interfaces_eq {node node' : Node} {event : Event} (hidle : node.outgoingqueue = [])
    (hevent : event.LeavesInterfaces) (h : node.Step event node') :
    node'.interfaces = node.interfaces := by
  cases event with
  | command c =>
    cases c with
    | send msgType =>
      obtain rfl := Option.some.inj h
      exact node.prepareMsg_interfaces msgType
    | refresh curtv =>
      obtain rfl := Option.some.inj h
      rfl
    | down interface => exact absurd hevent id
    | up interface sockfd now => exact absurd hevent id
  | receive interface frame stale clock =>
    obtain ⟨ifc, -, rfl⟩ := Option.map_eq_some_iff.mp h
    exact receiveFrame_interfaces hidle frame ifc.vipLocal stale clock
  | application dest proto payload =>
    obtain rfl := Option.some.inj h
    obtain ⟨queue, hqueue⟩ := node.transferApplicationToIp_cases dest proto payload payload.length
    rw [hqueue]
  | transmit =>
    obtain rfl := Option.some.inj h
    rfl

/-- Assumes: a property of a node after its constructor, and a condition that says of each step
whether it keeps the property. All states of a run from the constructor have the property exactly
when all its steps meet the condition. -/
theorem everyState_new_iff {order : ByteOrder} {links : List LinkConfig} {clock : ℕ → Timeval}
    {P : Node → Prop} {Safe : Node → Event → Prop} (hnew : P (new order links clock))
    (hsafe : ∀ {node node' : Node} {event : Event}, node.outgoingqueue = [] → P node →
      node.Step event node' → (P node' ↔ Safe node event)) (events : List Event) :
    Runs.EveryState Step P (new order links clock) events ↔
      Runs.EveryStep Step Safe (new order links clock) events := by
  refine Runs.everyState_iff_everyStep (I := fun node ↦ node.outgoingqueue = []) ?_ ?_
    (new_outgoingqueue order links clock) hnew
  · exact fun _ _ _ hidle hstep ↦ hstep.idle hidle
  · exact fun _ _ _ hidle hs hstep ↦ hsafe hidle hs hstep

/-! ### What the commands about an interface do -/

/-- An operation on one interface leaves the others as they are. -/
theorem getElem?_set_interfaces {node : Node} {id : ℕ} {ifc : LinkLayer}
    (hget : node.interfaces[id]? = some ifc) (ifc' : LinkLayer) (other : ℕ) :
    (node.interfaces.set id ifc')[other]? =
      if other = id then some ifc' else node.interfaces[other]? := by
  obtain ⟨hlt, -⟩ := List.getElem?_eq_some_iff.mp hget
  rw [List.getElem?_set]
  split_ifs with hsame hsame' hsame'
  · rfl
  · exact absurd hsame.symm hsame'
  · exact absurd hsame'.symm hsame
  · rfl

/-- What `down` does to the interfaces and to the table. -/
theorem downCmd_spec {node node' : Node} {id : ℕ} (h : node.downCmd id = some node') :
    ∃ ifc, node.interfaces[id]? = some ifc ∧
      (∀ other, node'.interfaces[other]? =
        if other = id then some ifc.down else node.interfaces[other]?) ∧
      ∀ (a : UInt32) (ets : EntryWts), node'.rtable[a]? = some ets ↔
        node.rtable[a]? = some ets ∧ ets.nextHop ≠ ifc.vipLocal ∧ a ≠ ifc.vipLocal := by
  obtain ⟨ifc, hget, rfl⟩ := Option.map_eq_some_iff.mp h
  refine ⟨ifc, hget, fun other ↦ ?_, fun a ets ↦ ?_⟩
  · rw [removeIfcEntry, prepareMsg_interfaces]
    exact getElem?_set_interfaces hget ifc.down other
  · rw [removeIfcEntry, prepareMsg_rtable]
    exact eraseIfcEntries_eq_some

/-- What `up` does to the interfaces and to the table. -/
theorem upCmd_spec {node node' : Node} {id : ℕ} {sockfd : Int} {now : Timeval}
    (h : node.upCmd id sockfd now = some node') :
    ∃ ifc, node.interfaces[id]? = some ifc ∧
      (∀ other, node'.interfaces[other]? =
        if other = id then some (ifc.up sockfd) else node.interfaces[other]?) ∧
      ∀ a : UInt32, node'.rtable[a]? =
        if ifc.vipLocal = a then some (ifcEntry ifc.vipLocal now) else node.rtable[a]? := by
  obtain ⟨ifc, hget, rfl⟩ := Option.map_eq_some_iff.mp h
  exact ⟨ifc, hget, getElem?_set_interfaces hget (ifc.up sockfd),
    fun a ↦ getElem?_insert_eq node.rtable ifc.vipLocal a _⟩

theorem isUp_downCmd {node node' : Node} {id : ℕ} (h : node.downCmd id = some node') (other : ℕ) :
    node'.isUp other = if other = id then false else node.isUp other := by
  obtain ⟨ifc, -, hinterfaces, -⟩ := downCmd_spec h
  unfold isUp
  rw [hinterfaces]
  split_ifs
  · rfl
  · rfl

theorem isUp_upCmd {node node' : Node} {id : ℕ} {sockfd : Int} {now : Timeval}
    (h : node.upCmd id sockfd now = some node') (other : ℕ) :
    node'.isUp other = if other = id then true else node.isUp other := by
  obtain ⟨ifc, -, hinterfaces, -⟩ := upCmd_spec h
  unfold isUp
  rw [hinterfaces]
  split_ifs
  · rfl
  · rfl

end Node

end IpRipStack
