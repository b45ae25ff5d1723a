import IpRipStack.FrameEffects

/-!
# Where data packets go

What a node does with one data packet, which enters either from its user by
`transfer_application_to_ip` or in transit by `transfer_data`. Both ways end in the same lookup
(`Dispatched`): the next hop of the destination, `255.255.255.255` if there is none, and the
interface that has that address.

The table holds the node's own addresses, each as its own next hop. Transit asks `is_destined_to_me`
before the lookup, the application does not: a packet to the node's own address is sent to the
neighbour. And the address that stands for no route may be that of an interface. `data_routed_iff`
says that these are the only packets that go astray.
-/

set_option autoImplicit false
set_option relaxedAutoImplicit false

namespace IpRipStack

open MachineWord OrderedMap Runs

namespace Node

/-- The destination of the data packet an event brings, in host order: a packet of the user, or a
frame with a valid checksum that is not of the routing protocol. -/
def dataDest (node : Node) : Event → Option UInt32
  | .application dest _ _ => some (ntohl node.order dest)
  | .receive _ frame stale _ =>
    if ChecksumValid node.order (frame ++ stale) ∧ byteAt (frame ++ stale) 9 ≠ ripProto then
      some (ntohl node.order (load32 node.order (frame ++ stale) 16))
    else none
  | _ => none

/-- An interface that is up has the address. -/
def OwnUp (node : Node) (dest : UInt32) : Prop :=
  ∃ ifc ∈ node.interfaces, ifc.isup = true ∧ ifc.vipLocal = dest

/-- A data packet goes where it should. At most one packet is queued; it is queued when the
destination is a key of the table and not the node's own address, on the interface that is up and
has the address of the next hop; a packet for the address of an interface that is up is printed and
nothing is queued; and nothing is queued for a destination without an entry. -/
structure DataRouted (node : Node) (dest : UInt32) (node' : Node) : Prop where
  atMostOne : ∃ queue, node'.incomingqueue = node.incomingqueue ++ queue ∧ queue.length ≤ 1
  queued : ∀ queue, node'.incomingqueue = node.incomingqueue ++ queue → ∀ msg ∈ queue,
    node.isMyInterface dest = false ∧ ∃ ets ifc, node.rtable[dest]? = some ets ∧
      node.interfaces[msg.ifc]? = some ifc ∧ ifc.isup = true ∧ ifc.vipLocal = ets.nextHop
  own : node.OwnUp dest →
    (∃ printed, node'.output = node.output ++ [printed]) ∧ node'.incomingqueue = node.incomingqueue
  unknown : node.rtable[dest]? = none → node'.incomingqueue = node.incomingqueue

/-- The lookup of a destination does not take the absence of a route for the address of an
interface. -/
def LookupSound (node : Node) (dest : UInt32) : Prop :=
  node.rtable[dest]? ≠ none ∨ node.getInterface defaultAddr = none

/-- The data packets that go where they should: of the user, those for other addresses than those of
the interfaces that are up; in transit, those for the node itself and those that are dropped, and
otherwise those whose lookup is sound. -/
def ServesData (node : Node) : Event → Prop
  | .application dest _ _ =>
    ¬ node.OwnUp (ntohl node.order dest) ∧ node.LookupSound (ntohl node.order dest)
  | .receive _ frame stale _ =>
    node.IsDestination (frame ++ stale) ∨ forwardedTtl node.order (frame ++ stale) = 0 ∨
      node.LookupSound (ntohl node.order (load32 node.order (frame ++ stale) 16))
  | _ => True

/-! ### The lookup -/

/-- A packet is queued on the interface that the lookup of its destination leads to, if it leads to
one, and nothing else happens. -/
structure Dispatched (node : Node) (dest : UInt32) (node' : Node) : Prop where
  output : node'.output = node.output
  queue : ∃ queue, node'.incomingqueue = node.incomingqueue ++ queue ∧
    queue.map IpMsg.ifc = (node.getInterface (node.getNextAddress dest defaultAddr)).toList

theorem transferTransitData_dispatched (node : Node) (dest : UInt32) (data : List UInt8)
    (datasz : ℕ) : node.Dispatched dest (node.transferTransitData dest data datasz) := by
  unfold transferTransitData
  dsimp only
  cases hifc : node.getInterface (node.getNextAddress dest defaultAddr) with
  | none => exact ⟨rfl, [], (List.append_nil _).symm, by rw [hifc]; rfl⟩
  | some id => exact ⟨rfl, _, rfl, by rw [hifc]; rfl⟩

theorem transferApplicationToIp_dispatched (node : Node) (dest : UInt32) (proto : UInt8)
    (data : List UInt8) (datasz : ℕ) : node.Dispatched (ntohl node.order dest)
      (node.transferApplicationToIp dest proto data datasz) := by
  unfold transferApplicationToIp
  dsimp only
  cases hifc : node.getInterface (node.getNextAddress (ntohl node.order dest) defaultAddr) with
  | none => exact ⟨rfl, [], (List.append_nil _).symm, by rw [hifc]; rfl⟩
  | some id =>
    obtain ⟨ifc, hget, -⟩ := getInterface_eq_some hifc
    simp only [hget]
    exact ⟨rfl, _, rfl, by rw [hifc]; rfl⟩

/-- On a node whose table is well formed the lookup leads to the interface that is up and has the
address of the next hop, or goes by the default address. -/
theorem WellFormed.lookup_cases {node : Node} (h : node.WellFormed) (dest : UInt32) :
    (∃ ets id ifc, node.rtable[dest]? = some ets ∧
      node.getInterface (node.getNextAddress dest defaultAddr) = some id ∧
      node.interfaces[id]? = some ifc ∧ ifc.isup = true ∧ ifc.vipLocal = ets.nextHop) ∨
    (node.rtable[dest]? = none ∧
      node.getInterface (node.getNextAddress dest defaultAddr) = node.getInterface defaultAddr) := by
  have hnext := getNextAddress_eq h.table.keys dest defaultAddr
  cases hroute : node.rtable[dest]? with
  | none =>
    rw [hroute] at hnext
    exact Or.inr ⟨rfl, congrArg node.getInterface hnext⟩
  | some ets =>
    rw [hroute] at hnext
    obtain ⟨id, ifc, hfound, hget, hup⟩ := h.getInterface_nextHop hroute
    obtain ⟨ifc', hget', hvip⟩ := getInterface_eq_some hfound
    obtain rfl := Option.some.inj (hget.symm.trans hget')
    exact Or.inl ⟨ets, id, ifc, rfl, (congrArg node.getInterface hnext).trans hfound, hget, hup, hvip⟩

/-- A key of the table that is an address of the node is the address of an interface that is up. -/
theorem WellFormed.ownUp_of_key {node : Node} (h : node.WellFormed) {dest : UInt32}
    (hkey : node.rtable[dest]? ≠ none) (hmine : node.isMyInterface dest = true) :
    node.OwnUp dest := by
  obtain ⟨ifc, hifc, rfl⟩ := (isMyInterface_iff node dest).mp hmine
  cases hup : ifc.isup with
  | false => exact absurd (h.table.down ifc hifc hup) hkey
  | true => exact ⟨ifc, hifc, hup, rfl⟩

/-- A packet that leaves the queue alone goes where it should, if it is printed or not for an
interface that is up. -/
theorem DataRouted.of_same {node node' : Node} {dest : UInt32}
    (hqueue : node'.incomingqueue = node.incomingqueue)
    (hown : node.OwnUp dest → ∃ printed, node'.output = node.output ++ [printed]) :
    node.DataRouted dest node' := by
  refine ⟨⟨[], by rw [hqueue, List.append_nil], Nat.zero_le 1⟩, fun queue hsame msg hmsg ↦ ?_,
    fun hup ↦ ⟨hown hup, hqueue⟩, fun _ ↦ hqueue⟩
  rw [hqueue, List.self_eq_append_right] at hsame
  rw [hsame] at hmsg
  exact absurd hmsg List.not_mem_nil

/-- A packet that is dispatched goes where it should exactly when it is not for an interface that is
up and its lookup is sound. -/
theorem Dispatched.routed_iff {node node' : Node} {dest : UInt32} (hwell : node.WellFormed)
    (h : node.Dispatched dest node') :
    node.DataRouted dest node' ↔ ¬ node.OwnUp dest ∧ node.LookupSound dest := by
  obtain ⟨queue, hqueue, hifcs⟩ := h.queue
  constructor
  · intro hrouted
    refine ⟨fun hown ↦ ?_, ?_⟩
    · obtain ⟨⟨printed, hprinted⟩, -⟩ := hrouted.own hown
      rw [h.output] at hprinted
      exact List.cons_ne_nil _ _ (List.append_right_eq_self.mp hprinted.symm)
    · by_contra hunsound
      obtain ⟨hnone, hdefault⟩ := not_or.mp hunsound
      have hsame := hrouted.unknown (not_not.mp hnone)
      rw [hqueue, List.append_right_eq_self] at hsame
      rcases hwell.lookup_cases dest with ⟨ets, -, -, hroute, -⟩ | ⟨-, hlookup⟩
      · exact hnone (hroute ▸ Option.some_ne_none ets)
      · rw [hsame, hlookup, eq_comm, List.map_nil, Option.toList_eq_nil_iff] at hifcs
        exact hdefault hifcs
  · rintro ⟨hother, hsound⟩
    have hlength := congrArg List.length hifcs
    rw [List.length_map] at hlength
    rcases hwell.lookup_cases dest with
      ⟨ets, id, ifc, hroute, hlookup, hget, hup, hvip⟩ | ⟨hnone, hlookup⟩
    · have hkey : node.rtable[dest]? ≠ none := hroute ▸ Option.some_ne_none ets
      rw [hlookup] at hifcs hlength
      refine ⟨⟨queue, hqueue, hlength.le⟩, fun queue' hqueue' msg hmsg ↦ ?_,
        fun hown ↦ absurd hown hother, fun hnone ↦ absurd hnone hkey⟩
      obtain rfl := List.append_cancel_left (hqueue.symm.trans hqueue')
      have hifc : msg.ifc ∈ queue.map IpMsg.ifc := List.mem_map_of_mem hmsg
      rw [hifcs, Option.toList_some, List.mem_singleton] at hifc
      rw [hifc]
      refine ⟨?_, ets, ifc, hroute, hget, hup, hvip⟩
      rw [Bool.eq_false_iff]
      exact fun hmine ↦ hother (hwell.ownUp_of_key hkey hmine)
    · rw [hlookup, hsound.resolve_left (not_not_intro hnone)] at hifcs
      obtain rfl := List.map_eq_nil_iff.mp hifcs
      rw [List.append_nil] at hqueue
      exact DataRouted.of_same hqueue fun hown ↦ absurd hown hother

/-! ### The two ways in -/

theorem OwnUp.isDestinedToMe {node : Node} {dest : UInt32} (h : node.OwnUp dest) :
    node.isDestinedToMe dest = true := by
  obtain ⟨ifc, hifc, -, hvip⟩ := h
  exact (isMyInterface_iff node dest).mpr ⟨ifc, hifc, hvip⟩

/-- Assumes: a frame with a valid checksum that is not of the routing protocol. -/
theorem WellFormed.transit_routed_iff {node : Node} (h : node.WellFormed) {data : List UInt8}
    (hsum : ChecksumValid node.order data) (hproto : byteAt data 9 ≠ ripProto) (len : ℕ)
    (next : UInt32) (clock : ℕ → Timeval) :
    let dest := ntohl node.order (load32 node.order data 16)
    node.DataRouted dest (node.transferData data len next clock) ↔
      node.IsDestination data ∨ forwardedTtl node.order data = 0 ∨ node.LookupSound dest := by
  intro dest
  by_cases hdest : node.IsDestination data
  · rw [transferData_deliver hsum hproto hdest]
    exact iff_of_true (DataRouted.of_same rfl fun _ ↦ ⟨_, rfl⟩) (Or.inl hdest)
  · have hother : ¬ node.OwnUp dest := fun hown ↦ hdest hown.isDestinedToMe
    rw [transferData_forward hsum hproto (Bool.eq_false_iff.mpr hdest), or_iff_right hdest]
    split_ifs with httl
    · exact iff_of_true (DataRouted.of_same rfl fun hown ↦ absurd hown hother) (Or.inl httl)
    · rw [or_iff_right httl, (node.transferTransitData_dispatched _ _ _).routed_iff h]
      exact and_iff_right hother

/-- In every state a node with distinct addresses reaches from its constructor: a data packet goes
where it should exactly when it is one that the node serves. -/
theorem data_routed_iff (order : ByteOrder) (links : List LinkConfig) (clock : ℕ → Timeval)
    (hdistinct : (links.map LinkConfig.vipLocal).Nodup) {node : Node}
    (hreach : Reachable Step (new order links clock) node) {event : Event} {dest : UInt32}
    (hdata : node.dataDest event = some dest) {node' : Node} (hstep : node.Step event node') :
    node.DataRouted dest node' ↔ node.ServesData event := by
  have hwell := WellFormed.of_reachable hdistinct hreach
  cases event with
  | application addr proto payload =>
    obtain rfl := Option.some.inj hdata
    obtain rfl := Option.some.inj hstep
    exact (node.transferApplicationToIp_dispatched addr proto payload _).routed_iff hwell
  | receive interface frame stale now =>
    obtain ⟨ifc, -, rfl⟩ := Option.map_eq_some_iff.mp hstep
    simp only [dataDest] at hdata
    split_ifs at hdata with hvalid
    obtain rfl := Option.some.inj hdata
    rw [receiveFrame_eq hwell.idle]
    exact hwell.transit_routed_iff hvalid.1 hvalid.2 frame.length ifc.vipLocal now
  | command c => exact absurd hdata.symm (Option.some_ne_none dest)
  | transmit => exact absurd hdata.symm (Option.some_ne_none dest)

end Node

/-- A packet of the user of `10.0.0.1` for `10.0.0.9`, of protocol six. -/
def userPacket : Event := .application 0x0900000A 6 [104, 105]

/-- A packet of the user for the node itself. -/
def selfPacket : Event := .application 0x0100000A 6 [104, 105]

/-- A packet for a destination with a route is queued on the interface that has the address of the
next hop. -/
theorem userPacket_routed : routedNode.rtable[(0x0A000009 : UInt32)]? = some installedRoute ∧
    (∃ msg, (routedNode.transferApplicationToIp 0x0900000A 6 [104, 105] 2).incomingqueue =
      routedNode.incomingqueue ++ [msg] ∧ msg.ifc = 0) ∧
    (routedNode.interfaces[0]?).map LinkLayer.vipLocal = some installedRoute.nextHop ∧
    routedNode.DataRouted 0x0A000009
      (routedNode.transferApplicationToIp 0x0900000A 6 [104, 105] 2) := by
  have hroute : routedNode.rtable[(0x0A000009 : UInt32)]? = some installedRoute := by decide +kernel
  have hdistinct : ([⟨3, 5001, 0x0A000001, 0x0A000002⟩].map LinkConfig.vipLocal).Nodup := by decide
  have hreach : Reachable Node.Step leafNode routedNode :=
    ⟨[.receive 0 (responsePacket 1) [] fun _ ↦ seconds 0], Run.single rfl⟩
  have hinterfaces : routedNode.interfaces = [⟨3, true, 5001, 0x0A000001, 0x0A000002⟩] := by decide
  have hother : ¬ routedNode.OwnUp 0x0A000009 := by
    rintro ⟨ifc, hifc, -, hvip⟩
    rw [hinterfaces] at hifc
    obtain rfl := List.mem_singleton.mp hifc
    exact absurd hvip (by decide)
  have hdata : routedNode.dataDest userPacket = some 0x0A000009 := by decide
  refine ⟨hroute, ?_, ?_, ?_⟩
  · obtain ⟨queue, hqueue, hifcs⟩ :=
      (routedNode.transferApplicationToIp_dispatched 0x0900000A 6 [104, 105] 2).queue
    have hfound : routedNode.getInterface (routedNode.getNextAddress (ntohl routedNode.order
        0x0900000A) defaultAddr) = some 0 := by decide
    rw [hfound, Option.toList_some] at hifcs
    obtain ⟨msg, rfl, hifc⟩ := List.map_eq_singleton_iff.mp hifcs
    exact ⟨msg, hqueue, hifc⟩
  · rw [hinterfaces]
    rfl
  · exact (Node.data_routed_iff .little _ (fun _ ↦ seconds 0) hdistinct hreach hdata rfl).mpr
      ⟨hother, Or.inl (hroute ▸ Option.some_ne_none _)⟩

/-- A packet for the node itself is queued for the neighbour. -/
theorem selfPacket_sent : leafNode.dataDest selfPacket = some 0x0A000001 ∧
    leafNode.Step selfPacket (leafNode.transferApplicationToIp 0x0100000A 6 [104, 105] 2) ∧
    leafNode.isUp 0 = true ∧ leafNode.getInterface 0x0A000001 = some 0 ∧
    ¬ leafNode.DataRouted 0x0A000001
      (leafNode.transferApplicationToIp 0x0100000A 6 [104, 105] 2) := by
  refine ⟨by decide, rfl, rfl, rfl, fun hrouted ↦ ?_⟩
  have hown : leafNode.OwnUp 0x0A000001 :=
    ⟨⟨3, true, 5001, 0x0A000001, 0x0A000002⟩, List.mem_singleton_self _, rfl, rfl⟩
  obtain ⟨⟨printed, hprinted⟩, -⟩ := hrouted.own hown
  rw [(leafNode.transferApplicationToIp_dispatched _ _ _ _).output] at hprinted
  exact List.cons_ne_nil _ _ (List.append_right_eq_self.mp hprinted.symm)

end IpRipStack
