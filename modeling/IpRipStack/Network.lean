import IpRipStack.TableInvariant
import Mathlib.Data.Fintype.Fin
import Mathlib.Data.Fintype.Sigma
import Mathlib.Data.List.Nodup

/-!
# A network of nodes

Nodes that run this code, joined by point-to-point links, and the routing packets between them. A
`Topology` is what the link files say: each node's interfaces, and for each interface the one at the
other end of its link. The link files fit together when the far end of the far end is the interface
itself, remote addresses are the addresses of far ends, and no address is used twice.

A packet in flight stays there when it is delivered, so it may be delivered again, at any time and
in any order, until it is lost; a packet that a closed socket discards is lost like any other. It is
attributed to the interface at the far end of the link it was sent over. A step is a whole command or
the handling of a whole packet, and what a node queues in it is in flight after it. Only routing
packets travel here: packets of users change no table.

`Valid` is what holds of every reachable state whatever happens: the nodes are well formed, no cost
exceeds sixteen, and every packet in flight was built by the sending half of this code from a table
like that (`Valid.step`).
-/

set_option autoImplicit false
set_option relaxedAutoImplicit false

namespace IpRipStack

open MachineWord OrderedMap Runs

/-- The end of a link at a node: a position in the node's list of interfaces. -/
abbrev LinkEnd {size : ℕ} (links : Fin size → List LinkConfig) : Type :=
  Σ n : Fin size, Fin (links n).length

/-- The line of the link file that describes the end of a link. -/
def LinkEnd.config {size : ℕ} {links : Fin size → List LinkConfig} (e : LinkEnd links) :
    LinkConfig :=
  (links e.1).get e.2

/-- Link files that fit together. -/
structure Topology where
  size : ℕ
  order : Fin size → ByteOrder
  links : Fin size → List LinkConfig
  peer : LinkEnd links → LinkEnd links
  peer_peer : Function.Involutive peer
  remote : ∀ e, (LinkEnd.config e).vipRemote = (LinkEnd.config (peer e)).vipLocal
  vip_injective : Function.Injective fun e : LinkEnd links ↦ e.config.vipLocal

namespace Topology

abbrev End (T : Topology) : Type := LinkEnd T.links

/-- The local address of the interface at the end of a link. -/
def vip (T : Topology) (e : T.End) : UInt32 := e.config.vipLocal

end Topology

/-- A packet in flight: the end of the link it was sent from, its bytes, and how many steps the
network had taken when it was sent. -/
structure Flight (T : Topology) where
  source : T.End
  frame : List UInt8
  sentAt : ℕ

/-- The state of the network: its nodes, the packets in flight, and the number of steps taken. -/
structure Net (T : Topology) where
  nodes : Fin T.size → Node
  flight : List (Flight T)
  steps : ℕ

/-- What `process_in_queue` makes of the packets a node has queued. -/
def Topology.sent (T : Topology) (n : Fin T.size) (sentAt : ℕ) (queue : List IpMsg) :
    List (Flight T) :=
  queue.filterMap fun msg ↦
    if h : msg.ifc < (T.links n).length then
      some { source := ⟨n, msg.ifc, h⟩, frame := msg.packet.take msg.size, sentAt := sentAt }
    else none

/-- What happens in a network: a node does something of its own accord, a packet in flight is
delivered, a packet in flight is lost. -/
inductive NetEvent (T : Topology)
  | command (n : Fin T.size) (c : Command)
  | deliver (index : ℕ) (stale : List UInt8) (clock : ℕ → Timeval)
  | lose (index : ℕ)

namespace Net

variable {T : Topology}

/-- The network after one node has changed: what it queued is in flight. -/
def put (net : Net T) (n : Fin T.size) (node : Node) : Net T where
  nodes := Function.update net.nodes n { node with incomingqueue := [] }
  flight := net.flight ++ T.sent n net.steps node.incomingqueue
  steps := net.steps + 1

/-- The network after the constructors of all nodes, each with its requests in flight. -/
def start (T : Topology) (clock : Fin T.size → ℕ → Timeval) : Net T where
  nodes n := { Node.new (T.order n) (T.links n) (clock n) with incomingqueue := [] }
  flight := (List.finRange T.size).flatMap fun n ↦
    T.sent n 0 (Node.new (T.order n) (T.links n) (clock n)).incomingqueue
  steps := 1

/-- The network after an event, if the event is possible. -/
def handle (net : Net T) : NetEvent T → Option (Net T)
  | .command n c => ((net.nodes n).execute c).map (net.put n)
  | .deliver index stale clock =>
    (net.flight[index]?).map fun f ↦
      let e := T.peer f.source
      net.put e.1 ((net.nodes e.1).receiveFrame f.frame (T.vip e) stale clock)
  | .lose index => some { net with flight := net.flight.eraseIdx index, steps := net.steps + 1 }

/-- One step of the network. -/
def Step (net : Net T) (event : NetEvent T) (net' : Net T) : Prop := net.handle event = some net'

/-- A run is what executing its events leads to. -/
theorem run_iff {net net' : Net T} {events : List (NetEvent T)} :
    Run Step net events net' ↔ events.foldlM handle net = some net' := by
  induction events generalizing net with
  | nil =>
    rw [run_nil_iff, List.foldlM_nil]
    exact ⟨fun h ↦ congrArg some h.symm, fun h ↦ (Option.some.inj h).symm⟩
  | cons event events ih =>
    rw [run_cons_iff, List.foldlM_cons]
    simp only [ih]
    exact Option.bind_eq_some_iff.symm

theorem Step.deliver_eq {net net' : Net T} {index : ℕ} {stale : List UInt8}
    {clock : ℕ → Timeval} {f : Flight T} (hget : net.flight[index]? = some f)
    (hstep : net.Step (.deliver index stale clock) net') :
    net' = net.put (T.peer f.source).1 ((net.nodes (T.peer f.source).1).receiveFrame f.frame
      (T.vip (T.peer f.source)) stale clock) := by
  obtain ⟨f', hget', rfl⟩ := Option.map_eq_some_iff.mp hstep
  rw [Option.some.inj (hget'.symm.trans hget)]

theorem put_nodes_self (net : Net T) (n : Fin T.size) (node : Node) :
    (net.put n node).nodes n = { node with incomingqueue := [] } :=
  Function.update_self n _ _

theorem put_nodes_of_ne (net : Net T) {n m : Fin T.size} (h : m ≠ n) (node : Node) :
    (net.put n node).nodes m = net.nodes m :=
  Function.update_of_ne h _ _

end Net

/-! ### Routing packets -/

/-- Every cost in the table is at most `ripMaxCost`. -/
def RouteTable.CostsBounded (table : RouteTable) : Prop :=
  ∀ (a : UInt32) (ets : EntryWts), table[a]? = some ets → ets.e.cost ≤ ripMaxCost

/-- A packet that the sending half of the code built, from a table with bounded costs, for the
interface with the given address. -/
def Genuine (vip : UInt32) (frame : List UInt8) : Prop :=
  ∃ (sender : Node) (msgType : UInt16) (id : ℕ) (ifc : LinkLayer),
    frame = (sender.ripPacket msgType id ifc).packet ∧ ifc.vipLocal = vip ∧
      sender.rtable.KeysMatch ∧ sender.rtable.CostsBounded

/-- The entries of a routing packet. -/
def frameEntries (frame : List UInt8) : List Entry := readEntries .big (frame.drop 20)

theorem ripPayload_ripPacket (sender : Node) (msgType : UInt16) (id : ℕ) (ifc : LinkLayer)
    (stale : List UInt8) : ripPayload ((sender.ripPacket msgType id ifc).packet ++ stale) =
      (sender.ripMsg msgType ifc.vipLocal).bytes sender.order ++ stale := by
  have hlength : 4 * ((byteAt ((sender.ripPacket msgType id ifc).packet ++ stale) 0).toNat % 16) = 20 :=
    headerLength_buildIpPacket _ _ _ _ _ _ _
  unfold ripPayload
  rw [hlength, drop_overwrite _ _ _ _ (by decide), drop_ripPacket]

theorem frameEntries_ripPacket (sender : Node) (msgType : UInt16) (id : ℕ) (ifc : LinkLayer) :
    frameEntries (sender.ripPacket msgType id ifc).packet =
      (sender.rtable.toList.take (sender.rtable.size % 65536)).map fun kv ↦
        advertised ifc.vipLocal kv.2 := by
  unfold frameEntries
  have hdrop := drop_ripPacket sender msgType id ifc []
  rw [List.append_nil] at hdrop
  rw [hdrop, readEntries_ripMsg]

namespace Genuine

variable {vip : UInt32} {frame : List UInt8}

/-- Whoever receives a routing packet reads the entries it was built from. -/
theorem readEntries_eq (h : Genuine vip frame) (order : ByteOrder) (stale : List UInt8) :
    readEntries order (ripPayload (frame ++ stale)) = frameEntries frame := by
  obtain ⟨sender, msgType, id, ifc, rfl, -⟩ := h
  rw [ripPayload_ripPacket, readEntries_ripMsg, frameEntries_ripPacket]

theorem checksumValid (h : Genuine vip frame) (order : ByteOrder) (stale : List UInt8) :
    ChecksumValid order (frame ++ stale) := by
  obtain ⟨sender, msgType, id, ifc, rfl, -⟩ := h
  exact load16_checksum sender.order order _ _ _ _ _ stale

theorem protocol (h : Genuine vip frame) (stale : List UInt8) :
    byteAt (frame ++ stale) 9 = ripProto := by
  obtain ⟨sender, msgType, id, ifc, rfl, -⟩ := h
  exact protocol_buildIpPacket _ _ _ _ _ _ stale

theorem cost_le (h : Genuine vip frame) {e : Entry} (he : e ∈ frameEntries frame) :
    e.cost ≤ ripMaxCost := by
  obtain ⟨sender, msgType, id, ifc, rfl, -, -, hcosts⟩ := h
  rw [frameEntries_ripPacket] at he
  obtain ⟨kv, hkv, rfl⟩ := List.mem_map.mp he
  have hentry := Std.ExtTreeMap.mem_toList_iff_getElem?_eq_some.mp (List.mem_of_mem_take hkv)
  unfold advertised
  dsimp only
  split_ifs
  · exact UInt32.le_refl _
  · exact hcosts kv.1 kv.2 hentry

/-- A node handles a routing packet that is attributed to an interface exactly when that interface
is up, and otherwise ignores it. -/
theorem receiveFrame_eq (h : Genuine vip frame) {node : Node} (hidle : node.outgoingqueue = [])
    (next : UInt32) (stale : List UInt8) (clock : ℕ → Timeval) :
    node.receiveFrame frame next stale clock =
      if (node.getInterface next).any node.isUp then
        node.transferIpToRip (ripPayload (frame ++ stale)) next clock
      else node := by
  rw [Node.receiveFrame_eq hidle]
  exact Node.transferData_rip (h.checksumValid node.order stale) (h.protocol stale) _ _ _

end Genuine

/-! ### What a node queues -/

theorem Node.ripPacket_congr {node node' : Node} (horder : node'.order = node.order)
    (htable : node'.rtable = node.rtable) (msgType : UInt16) (id : ℕ) (ifc : LinkLayer) :
    node'.ripPacket msgType id ifc = node.ripPacket msgType id ifc := by
  unfold ripPacket ripMsg
  rw [horder, htable]

/-- A node that has queued nothing but messages made from the table it has. -/
def Node.QueuesMessages (node : Node) : Prop :=
  ∀ msg ∈ node.incomingqueue, ∃ msgType id ifc, node.interfaces[id]? = some ifc ∧
    msg = node.ripPacket msgType id ifc

theorem Node.QueuesMessages.of_nil {node : Node} (h : node.incomingqueue = []) :
    node.QueuesMessages := by
  intro msg hmsg
  rw [h] at hmsg
  exact absurd hmsg List.not_mem_nil

theorem Node.prepareMsg_queuesMessages {node : Node} (h : node.incomingqueue = [])
    (msgType : UInt16) : (node.prepareMsg msgType).QueuesMessages := by
  intro msg hmsg
  have hsame := ripPacket_congr (node.prepareMsg_order msgType) (node.prepareMsg_rtable msgType)
  rw [prepareMsg_interfaces]
  rw [prepareMsg_eq] at hmsg
  dsimp only at hmsg
  rw [h, List.nil_append] at hmsg
  obtain ⟨id, -, hpacket⟩ := List.mem_filterMap.mp hmsg
  obtain ⟨ifc, hget, -, rfl⟩ := ripPacket?_ifc hpacket
  exact ⟨msgType, id, ifc, hget, (hsame msgType id ifc).symm⟩

theorem Node.execute_queuesMessages {node node' : Node} (h : node.incomingqueue = [])
    {c : Command} (hexecute : node.execute c = some node') : node'.QueuesMessages := by
  cases c with
  | send msgType =>
    obtain rfl := Option.some.inj hexecute
    exact prepareMsg_queuesMessages h msgType
  | refresh curtv =>
    obtain rfl := Option.some.inj hexecute
    exact QueuesMessages.of_nil h
  | down interface =>
    obtain ⟨ifc, -, rfl⟩ := Option.map_eq_some_iff.mp hexecute
    have herased : (eraseIfcEntries { node with interfaces := node.interfaces.set interface ifc.down }
      ifc.vipLocal).incomingqueue = [] := h
    exact prepareMsg_queuesMessages herased 2
  | up interface sockfd now =>
    obtain ⟨ifc, -, rfl⟩ := Option.map_eq_some_iff.mp hexecute
    exact QueuesMessages.of_nil h

theorem Genuine.receiveFrame_queuesMessages {vip : UInt32} {frame : List UInt8}
    (hframe : Genuine vip frame) {node : Node} (hidle : node.outgoingqueue = [])
    (h : node.incomingqueue = []) (next : UInt32) (stale : List UInt8) (clock : ℕ → Timeval) :
    (node.receiveFrame frame next stale clock).QueuesMessages := by
  rw [hframe.receiveFrame_eq hidle]
  split_ifs
  · rcases node.transferIpToRip_cases (ripPayload (frame ++ stale)) next clock with
      ⟨-, hrun⟩ | ⟨-, hrun⟩ | ⟨-, -, hrun⟩
    · rw [hrun]
      exact Node.prepareMsg_queuesMessages h 2
    · rw [hrun]
      exact Node.QueuesMessages.of_nil h
    · rw [hrun]
      exact Node.QueuesMessages.of_nil h
  · exact Node.QueuesMessages.of_nil h

/-! ### Bounded costs -/

theorem toNat_cost_succ {cost : UInt32} (h : cost ≤ ripMaxCost) :
    (cost + 1).toNat = cost.toNat + 1 := by
  have hle : cost.toNat ≤ 16 := UInt32.le_iff_toNat_le.mp h
  rw [UInt32.toNat_add, UInt32.toNat_one]
  omega

theorem cost_succ_le {cost : UInt32} (h : cost ≤ ripMaxCost) (hne : cost ≠ ripMaxCost) :
    cost + 1 ≤ ripMaxCost := by
  have hlt : cost.toNat < 16 := UInt32.lt_iff_toNat_lt.mp (UInt32.lt_of_le_of_ne h hne)
  rw [UInt32.le_iff_toNat_le, toNat_cost_succ h]
  exact hlt

namespace RouteTable.CostsBounded

theorem insert {table : RouteTable} (h : table.CostsBounded) {a : UInt32} {ets : EntryWts}
    (hcost : ets.e.cost ≤ ripMaxCost) : RouteTable.CostsBounded (table.insert a ets) := by
  intro b ets' hb
  rw [getElem?_insert_eq] at hb
  split_ifs at hb
  · rw [← Option.some.inj hb]
    exact hcost
  · exact h b ets' hb

theorem execute {node node' : Node} (h : node.rtable.CostsBounded) {c : Command}
    (hexecute : node.execute c = some node') : node'.rtable.CostsBounded := by
  cases c with
  | send msgType =>
    obtain rfl := Option.some.inj hexecute
    rw [Node.prepareMsg_rtable]
    exact h
  | refresh curtv =>
    obtain rfl := Option.some.inj hexecute
    intro a ets ha
    exact h a ets (Node.refreshRouteTable_eq_some.mp ha).1
  | down interface =>
    obtain ⟨ifc, -, -, htable⟩ := Node.downCmd_spec hexecute
    intro a ets ha
    exact h a ets ((htable a ets).mp ha).1
  | up interface sockfd now =>
    obtain ⟨ifc, -, rfl⟩ := Option.map_eq_some_iff.mp hexecute
    have hzero : (0 : UInt32) ≤ ripMaxCost := by decide
    exact h.insert hzero

/-- Assumes: an entry whose cost is bounded. A received entry keeps the costs bounded, for the
greatest cost is not taken up. -/
theorem updateEntry {node : Node} {table : RouteTable} (h : table.CostsBounded)
    {curEntry : Entry} (hcost : (curEntry.ntoh node.order).cost ≤ ripMaxCost) (next : UInt32)
    (now : Timeval) : (node.updateEntry table curEntry next now).CostsBounded := by
  rcases node.updateEntry_cases table curEntry next now with ⟨-, hsame⟩ | ⟨hnot, hnew⟩
  · rw [hsame]
    exact h
  · rw [hnew]
    refine h.insert ?_
    have hmax : (curEntry.ntoh node.order).cost ≠ ripMaxCost := fun hmax ↦ hnot (Or.inr (Or.inl hmax))
    exact cost_succ_le hcost hmax

theorem receiveFrame {vip : UInt32} {frame : List UInt8} (hframe : Genuine vip frame) {node : Node}
    (h : node.rtable.CostsBounded) (hidle : node.outgoingqueue = []) (next : UInt32)
    (stale : List UInt8) (clock : ℕ → Timeval) :
    (node.receiveFrame frame next stale clock).rtable.CostsBounded := by
  refine Node.receiveFrame_induction hidle frame stale h ?_
  intro table curEntry i id _ _ hentry htable
  rw [hframe.readEntries_eq] at hentry
  exact htable.updateEntry (hframe.cost_le hentry) next (clock i)

end RouteTable.CostsBounded

theorem Node.new_costsBounded (order : ByteOrder) (links : List LinkConfig)
    (clock : ℕ → Timeval) : (Node.new order links clock).rtable.CostsBounded := by
  intro a ets ha
  rcases ripLayer_getElem? _ clock a with ⟨-, hnone⟩ | ⟨-, i, hentry⟩
  · exact absurd (ha.symm.trans hnone) (Option.some_ne_none ets)
  · rw [← Option.some.inj (hentry.symm.trans ha)]
    have hzero : (0 : UInt32) ≤ ripMaxCost := by decide
    exact hzero

/-! ### The invariant of all reachable states -/

namespace Net

variable {T : Topology}

/-- What holds of the network whatever happens. -/
structure Valid (net : Net T) : Prop where
  well : ∀ n, (net.nodes n).WellFormed
  vips : ∀ n, (net.nodes n).interfaces.map LinkLayer.vipLocal =
    (T.links n).map LinkConfig.vipLocal
  drained : ∀ n, (net.nodes n).incomingqueue = []
  costs : ∀ n, (net.nodes n).rtable.CostsBounded
  flight : ∀ f ∈ net.flight, Genuine (T.vip f.source) f.frame
  sentAt : ∀ f ∈ net.flight, f.sentAt < net.steps

end Net

namespace Topology

variable {T : Topology}

theorem vip_eq_of_getElem? {node : Node} {n : Fin T.size} (h : node.interfaces.map
    LinkLayer.vipLocal = (T.links n).map LinkConfig.vipLocal) {id : ℕ} {ifc : LinkLayer}
    (hget : node.interfaces[id]? = some ifc) :
    ∃ hid : id < (T.links n).length, T.vip ⟨n, id, hid⟩ = ifc.vipLocal := by
  have hvips : (node.interfaces.map LinkLayer.vipLocal)[id]? =
      ((T.links n).map LinkConfig.vipLocal)[id]? := by rw [h]
  rw [List.getElem?_map, List.getElem?_map, hget, Option.map_some] at hvips
  obtain ⟨link, hlink, hvip⟩ := Option.map_eq_some_iff.mp hvips.symm
  obtain ⟨hid, rfl⟩ := List.getElem?_eq_some_iff.mp hlink
  exact ⟨hid, hvip⟩

theorem nodup_vips (T : Topology) (n : Fin T.size) :
    ((T.links n).map LinkConfig.vipLocal).Nodup := by
  refine List.nodup_iff_injective_get.mpr fun i j hsame ↦ ?_
  rw [List.get_eq_getElem, List.get_eq_getElem, List.getElem_map, List.getElem_map] at hsame
  have hi : i.val < (T.links n).length := i.isLt.trans_eq (List.length_map _)
  have hj : j.val < (T.links n).length := j.isLt.trans_eq (List.length_map _)
  have hends : (⟨n, i.val, hi⟩ : T.End) = ⟨n, j.val, hj⟩ := T.vip_injective hsame
  have hindex : (⟨i.val, hi⟩ : Fin (T.links n).length) = ⟨j.val, hj⟩ := by
    rw [Sigma.mk.injEq] at hends
    exact eq_of_heq hends.2
  exact Fin.ext (Fin.mk.inj hindex)

/-- What is in flight after an operation of a node are the messages it queued. -/
theorem genuine_of_mem_sent {node : Node} {n : Fin T.size} {sentAt : ℕ} (hvips :
    node.interfaces.map LinkLayer.vipLocal = (T.links n).map LinkConfig.vipLocal)
    (hqueues : node.QueuesMessages) {f : Flight T} (hf : f ∈ T.sent n sentAt node.incomingqueue) :
    f.sentAt = sentAt ∧ f.source.1 = n ∧ ∃ msgType id ifc, ifc.vipLocal = T.vip f.source ∧
      node.interfaces[id]? = some ifc ∧ f.frame = (node.ripPacket msgType id ifc).packet := by
  obtain ⟨msg, hmsg, hsome⟩ := List.mem_filterMap.mp hf
  split_ifs at hsome with hid
  obtain rfl := Option.some.inj hsome
  obtain ⟨msgType, id, ifc, hget, rfl⟩ := hqueues msg hmsg
  obtain ⟨_, hvip⟩ := vip_eq_of_getElem? hvips hget
  refine ⟨rfl, rfl, msgType, id, ifc, hvip.symm, hget, ?_⟩
  refine List.take_of_length_le ?_
  unfold Node.ripPacket
  dsimp only
  rw [length_buildIpPacket, length_ripMsg_bytes, Nat.min_self]
  exact le_refl _

end Topology

namespace Net

variable {T : Topology}

/-- One node has changed. Assumes: a node that is well formed, has the addresses it should have and
bounded costs, and has queued messages made from its table. -/
theorem Valid.put {net : Net T} (h : net.Valid) (n : Fin T.size) {node : Node}
    (hwell : node.WellFormed) (hvips : node.interfaces.map LinkLayer.vipLocal =
      (T.links n).map LinkConfig.vipLocal) (hcosts : node.rtable.CostsBounded)
    (hqueues : node.QueuesMessages) : (net.put n node).Valid := by
  have hnode : ∀ P : Node → Prop, (∀ m, P (net.nodes m)) → P { node with incomingqueue := [] } →
      ∀ m, P ((net.put n node).nodes m) := by
    intro P hold hnew m
    by_cases hm : m = n
    · rw [hm, net.put_nodes_self]
      exact hnew
    · rw [net.put_nodes_of_ne hm]
      exact hold m
  have hsent : ∀ f ∈ (net.put n node).flight, f ∈ net.flight ∨ f.sentAt = net.steps ∧
      Genuine (T.vip f.source) f.frame := by
    intro f hf
    rcases List.mem_append.mp hf with hold | hnew
    · exact Or.inl hold
    · obtain ⟨hat, -, msgType, id, ifc, hvip, -, hframe⟩ := Topology.genuine_of_mem_sent hvips hqueues hnew
      exact Or.inr ⟨hat, node, msgType, id, ifc, hframe, hvip, hwell.table.keys, hcosts⟩
  refine ⟨?_, ?_, ?_, ?_, ?_, ?_⟩
  · exact hnode _ h.well ⟨hwell.distinct, hwell.idle, hwell.table⟩
  · intro m
    by_cases hm : m = n
    · rw [hm, net.put_nodes_self]
      exact hvips
    · rw [net.put_nodes_of_ne hm]
      exact h.vips m
  · exact hnode (fun node ↦ node.incomingqueue = []) h.drained rfl
  · exact hnode (fun node ↦ node.rtable.CostsBounded) h.costs hcosts
  · intro f hf
    rcases hsent f hf with hold | ⟨-, hgenuine⟩
    · exact h.flight f hold
    · exact hgenuine
  · intro f hf
    rcases hsent f hf with hold | ⟨hat, -⟩
    · exact Nat.lt_succ_of_lt (h.sentAt f hold)
    · rw [hat]
      exact Nat.lt_succ_self _

/-- Every step of the network keeps the invariant. -/
theorem Valid.step {net net' : Net T} (h : net.Valid) {event : NetEvent T}
    (hstep : net.Step event net') : net'.Valid := by
  cases event with
  | command n c =>
    obtain ⟨node, hexecute, rfl⟩ := Option.map_eq_some_iff.mp hstep
    exact h.put n ((h.well n).execute hexecute)
      ((Node.execute_sameLinks hexecute).vips.trans (h.vips n)) ((h.costs n).execute hexecute)
      (Node.execute_queuesMessages (h.drained n) hexecute)
  | deliver index stale clock =>
    obtain ⟨f, hget, rfl⟩ := Option.map_eq_some_iff.mp hstep
    have hgenuine := h.flight f (List.mem_of_getElem? hget)
    have hwell := h.well (T.peer f.source).1
    exact h.put _ (hwell.receiveFrame f.frame _ stale clock)
      ((Node.receiveFrame_sameLinks hwell.idle _ _ _ _).vips.trans (h.vips _))
      (RouteTable.CostsBounded.receiveFrame hgenuine (h.costs _) hwell.idle _ _ _)
      (hgenuine.receiveFrame_queuesMessages hwell.idle (h.drained _) _ _ _)
  | lose index =>
    obtain rfl := Option.some.inj hstep
    refine ⟨h.well, h.vips, h.drained, h.costs, ?_, ?_⟩
    · intro f hf
      exact h.flight f (List.mem_of_mem_eraseIdx hf)
    · intro f hf
      exact Nat.lt_succ_of_lt (h.sentAt f (List.mem_of_mem_eraseIdx hf))

/-- The interface at the end of a link. -/
theorem Valid.exists_interface {net : Net T} (h : net.Valid) (e : T.End) :
    ∃ ifc, (net.nodes e.1).interfaces[e.2.val]? = some ifc ∧ ifc.vipLocal = T.vip e := by
  have hlength : (net.nodes e.1).interfaces.length = (T.links e.1).length := by
    have hmap := congrArg List.length (h.vips e.1)
    rwa [List.length_map, List.length_map] at hmap
  have hget := List.getElem?_eq_getElem (e.2.isLt.trans_eq hlength.symm)
  exact ⟨_, hget, (Topology.vip_eq_of_getElem? (h.vips e.1) hget).2.symm⟩

/-- The network starts with the invariant. -/
theorem Valid.start (T : Topology) (clock : Fin T.size → ℕ → Timeval) : (start T clock).Valid := by
  have hwell : ∀ n, (Node.new (T.order n) (T.links n) (clock n)).WellFormed :=
    fun n ↦ Node.WellFormed.new (T.order n) (clock n) (T.nodup_vips n)
  have hvips : ∀ n, (Node.new (T.order n) (T.links n) (clock n)).interfaces.map LinkLayer.vipLocal =
      (T.links n).map LinkConfig.vipLocal := by
    intro n
    rw [Node.new_interfaces, List.map_map]
    rfl
  have hcosts : ∀ n, (Node.new (T.order n) (T.links n) (clock n)).rtable.CostsBounded :=
    fun n ↦ Node.new_costsBounded (T.order n) (T.links n) (clock n)
  have hsent : ∀ f ∈ (Net.start T clock).flight, f.sentAt = 0 ∧
      Genuine (T.vip f.source) f.frame := by
    intro f hf
    obtain ⟨n, -, hf⟩ := List.mem_flatMap.mp hf
    obtain ⟨hat, -, msgType, id, ifc, hvip, -, hframe⟩ := Topology.genuine_of_mem_sent (hvips n)
      (Node.prepareMsg_queuesMessages rfl 1) hf
    exact ⟨hat, _, msgType, id, ifc, hframe, hvip, (hwell n).table.keys, hcosts n⟩
  refine ⟨?_, hvips, fun n ↦ rfl, hcosts, fun f hf ↦ (hsent f hf).2, ?_⟩
  · intro n
    exact ⟨(hwell n).distinct, (hwell n).idle, (hwell n).table⟩
  · intro f hf
    rw [(hsent f hf).1]
    exact Nat.zero_lt_one

end Net

/-! ### Two nodes -/

/-- Two nodes, of different byte orders, joined by one link. -/
def pair : Topology where
  size := 2
  order n := if n = 0 then .little else .big
  links n :=
    [if n = 0 then ⟨3, 5001, 0x0A000001, 0x0A000002⟩ else ⟨3, 5002, 0x0A000002, 0x0A000001⟩]
  peer e := ⟨1 - e.1, 0, Nat.one_pos⟩
  peer_peer := by
    unfold Function.Involutive
    decide
  remote := by decide
  vip_injective := by
    unfold Function.Injective
    decide

/-- The end of the link at each of the two nodes. -/
def pairEnd (n : Fin 2) : pair.End := ⟨n, 0, Nat.one_pos⟩

end IpRipStack
