import IpRipStack.Common

/-!
# The node and its interfaces

The state of a node: its interfaces (`LinkLayer`), the routing table of its `RipLayer`, the two
queues of its `NetworkLayer` and what it has printed as received packets. The lookups of
`NodeImpl.cc` are linear searches over the interfaces; a pointer to an interface is its position in
the list, and a null pointer is `none`.

The host's byte order is part of the state because every conversion depends on it. The socket
descriptor that `create_socket` returns is the operating system's choice and is a parameter wherever
a socket is created.
-/

set_option autoImplicit false
set_option relaxedAutoImplicit false

namespace IpRipStack

open MachineWord

/-- One line of the link file together with the socket its interface is given: the arguments of the
`LinkLayer` constructor, addresses in host order. -/
structure LinkConfig where
  sockfd : Int
  remoteport : UInt16
  vipLocal : UInt32
  vipRemote : UInt32
  deriving DecidableEq, Repr

/-- `LinkLayer`: the socket (`-1` when closed), the up flag and the addresses of the link. -/
structure LinkLayer where
  sLocal : Int
  isup : Bool
  remoteport : UInt16
  vipLocal : UInt32
  vipRemote : UInt32
  deriving DecidableEq, Repr

/-- The constructor of `LinkLayer`: the interface starts up. -/
def LinkLayer.new (link : LinkConfig) : LinkLayer where
  sLocal := link.sockfd
  isup := true
  remoteport := link.remoteport
  vipLocal := link.vipLocal
  vipRemote := link.vipRemote

/-- `LinkLayer::up`. The source reports a socket that is already open and goes on. -/
def LinkLayer.up (ll : LinkLayer) (sockfd : Int) : LinkLayer :=
  { ll with sLocal := sockfd, isup := true }

/-- `LinkLayer::down`. The source reports a socket that is already closed and goes on. -/
def LinkLayer.down (ll : LinkLayer) : LinkLayer := { ll with sLocal := -1, isup := false }

/-- What `transfer_data` prints about a packet for the node itself: the arrival link, the addresses
and the protocol of the header, the payload length and the payload as a C string. -/
structure Delivery where
  interfaceid : Int
  saddr : UInt32
  daddr : UInt32
  proto : UInt8
  payloadLength : Int
  payload : List UInt8
  deriving DecidableEq, Repr

/-- A node: its host's byte order, `_interfaces`, `RipLayer::_rtable`,
`NetworkLayer::_incomingqueue` (packets to be sent), `NetworkLayer::_outgoingqueue` (frames
received), and its printed output. -/
structure Node where
  order : ByteOrder
  interfaces : List LinkLayer
  rtable : RouteTable
  incomingqueue : List IpMsg
  outgoingqueue : List RcvMsg
  output : List Delivery

namespace Node

/-- `Node::is_my_interface`. -/
def isMyInterface (node : Node) (addr : UInt32) : Bool :=
  node.interfaces.any fun ll ↦ ll.vipLocal == addr

/-- `Node::is_destined_to_me`. -/
def isDestinedToMe (node : Node) (addr : UInt32) : Bool :=
  node.interfaces.any fun ll ↦ ll.vipLocal == addr

/-- `Node::get_interface`. -/
def getInterface (node : Node) (nextAddr : UInt32) : Option ℕ :=
  node.interfaces.findIdx? fun ll ↦ ll.vipLocal == nextAddr

/-- `Node::get_interfaceid`: the first interface whose remote address is the given one, `-1` if
there is none. -/
def getInterfaceid (node : Node) (addr : UInt32) : Int :=
  match node.interfaces.findIdx? fun ll ↦ ll.vipRemote == addr with
  | some index => index
  | none => -1

/-- `is_up` of the interface at a position of the list. -/
def isUp (node : Node) (id : ℕ) : Bool := (node.interfaces[id]?).any LinkLayer.isup

theorem isMyInterface_iff (node : Node) (addr : UInt32) :
    node.isMyInterface addr = true ↔ ∃ ll ∈ node.interfaces, ll.vipLocal = addr := by
  simp [isMyInterface]

/-- `get_interface` finds an interface with the address, the first one. -/
theorem getInterface_eq_some {node : Node} {addr : UInt32} {id : ℕ}
    (h : node.getInterface addr = some id) :
    ∃ ll, node.interfaces[id]? = some ll ∧ ll.vipLocal = addr := by
  obtain ⟨hlt, hfound, -⟩ := List.findIdx?_eq_some_iff_getElem.mp h
  exact ⟨node.interfaces[id], List.getElem?_eq_getElem hlt, beq_iff_eq.mp hfound⟩

/-- The local addresses of the interfaces are pairwise distinct. -/
def DistinctVips (node : Node) : Prop := (node.interfaces.map LinkLayer.vipLocal).Nodup

/-- On a node with distinct addresses `get_interface` finds the interface that has the address. -/
theorem DistinctVips.getInterface_eq {node : Node} (h : node.DistinctVips) {id : ℕ} {ll : LinkLayer}
    (hget : node.interfaces[id]? = some ll) : node.getInterface ll.vipLocal = some id := by
  obtain ⟨hid, rfl⟩ := List.getElem?_eq_some_iff.mp hget
  refine List.findIdx?_eq_some_iff_getElem.mpr ⟨hid, by simp, ?_⟩
  intro j hj hsame
  have hvips : (node.interfaces.map LinkLayer.vipLocal)[j]? =
      (node.interfaces.map LinkLayer.vipLocal)[id]? := by
    rw [List.getElem?_map, List.getElem?_map, List.getElem?_eq_getElem (by omega),
      List.getElem?_eq_getElem hid, Option.map_some, Option.map_some, beq_iff_eq.mp hsame]
  have hindex : j = id := (List.getElem?_inj (by rw [List.length_map]; omega) h).mp hvips
  omega

end Node

end IpRipStack
