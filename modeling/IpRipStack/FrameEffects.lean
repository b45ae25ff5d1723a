import IpRipStack.RouteLife

/-!
# What a frame changes

Exactly when the handling of a frame leaves the table of a node and its queue of packets as they
were. The routing layer leaves them alone when the message is of neither type, or a response of
which every entry is passed over (`transferIpToRip_unmoved_iff`); a frame that is not for the
routing layer queues nothing when it is for the node itself, when its time-to-live is used up, or
when there is no route (`transferData_unmoved_iff`).

`receiveFrame_silent_iff` is about a frame that is attributed to an interface that is down. Only the
branch of the routing layer asks whether the interface is up, so other frames are printed and sent
on as if they had come over an interface that is up.
-/

set_option autoImplicit false
set_option relaxedAutoImplicit false

namespace IpRipStack

open MachineWord OrderedMap Runs

/-- The table and the two queues of a node are those of another. -/
structure Node.SameState (node node' : Node) : Prop where
  rtable : node'.rtable = node.rtable
  incomingqueue : node'.incomingqueue = node.incomingqueue
  outgoingqueue : node'.outgoingqueue = node.outgoingqueue

theorem Node.SameState.refl (node : Node) : node.SameState node := ⟨rfl, rfl, rfl⟩

namespace Node

/-- The routing layer has nothing to do for a frame: the interface it is attributed to is not up, or
the message is no request and, if it is a response, every entry of it is passed over. -/
def RipUnmoved (node : Node) (data : List UInt8) (next : UInt32) : Prop :=
  (node.getInterface next).any node.isUp = true →
    readCommand node.order (ripPayload data) ≠ 1 ∧
      (readCommand node.order (ripPayload data) = 2 →
        ∀ e ∈ readEntries node.order (ripPayload data), node.Ignores node.rtable e)

/-- There is no way on for a frame: its time-to-live is used up, or the lookup of its destination
leads to no interface. -/
def TransitUnmoved (node : Node) (data : List UInt8) : Prop :=
  forwardedTtl node.order data = 0 ∨
    node.getInterface (node.getNextAddress (ntohl node.order (load32 node.order data 16))
      defaultAddr) = none

/-- The node is the destination of a frame. -/
def IsDestination (node : Node) (data : List UInt8) : Prop :=
  node.isDestinedToMe (ntohl node.order (load32 node.order data 16)) = true

/-- A frame moves nothing: it fails the checksum test, or the branch that takes it has nothing to
do. -/
def Unmoved (node : Node) (data : List UInt8) (next : UInt32) : Prop :=
  ¬ ChecksumValid node.order data ∨
    (byteAt data 9 = ripProto ∧ node.RipUnmoved data next) ∨
    (byteAt data 9 ≠ ripProto ∧ (node.IsDestination data ∨ node.TransitUnmoved data))

/-! ### The routing layer -/

/-- Sending to the interfaces that are up queues something as soon as one is up. -/
theorem prepareMsg_incomingqueue_ne {node : Node} {id : ℕ} (hup : node.isUp id = true)
    (msgType : UInt16) : (node.prepareMsg msgType).incomingqueue ≠ node.incomingqueue := by
  have hid : id < node.interfaces.length := by
    obtain ⟨ifc, hget, -⟩ := (Option.any_eq_true _ _).mp hup
    exact (List.getElem?_eq_some_iff.mp hget).1
  intro hsame
  rw [prepareMsg_eq] at hsame
  have hnil := List.append_right_eq_self.mp hsame
  have hifcs := node.map_ifc_packets msgType (List.range node.interfaces.length)
  rw [hnil] at hifcs
  have hmem := List.mem_filter.mpr ⟨List.mem_range.mpr hid, hup⟩
  rw [← hifcs] at hmem
  exact List.not_mem_nil hmem

/-- A response leaves the table as it was exactly when each of its entries is passed over. -/
theorem updateRouteTable_rtable_iff (node : Node) (data : List UInt8) (next : UInt32)
    (clock : ℕ → Timeval) (hresponse : readCommand node.order data = 2) :
    (node.transferIpToRip data next clock).rtable = node.rtable ↔
      ∀ e ∈ readEntries node.order data, node.Ignores node.rtable e := by
  constructor
  · intro hsame e he
    cases hmine : node.isMyInterface e.address with
    | true => exact Or.inl hmine
    | false =>
      by_cases hmax : e.cost = ripMaxCost
      · exact Or.inr (Or.inl hmax)
      · rw [← map_fst_readTimed node.order data clock] at he
        obtain ⟨entry, hentry, rfl⟩ := List.mem_map.mp he
        obtain ⟨ets, hets, hle⟩ := foldl_hear_le next rfl hmax hentry node.rtable[entry.1.address]?
        rw [← transferIpToRip_route hmine hresponse, hsame] at hets
        exact Or.inr (Or.inr ⟨ets, hets, hle⟩)
  · intro hignores
    refine transferIpToRip_induction (P := fun table ↦ table = node.rtable) rfl ?_
    rintro table curEntry i hentry rfl
    rcases node.updateEntry_cases node.rtable curEntry next (clock i) with ⟨-, hsame⟩ | ⟨hnot, -⟩
    · exact hsame
    · exact absurd (hignores _ hentry) hnot

/-- Assumes: an interface that is up. A message changes neither the table nor the queue exactly when
it is no request and, if it is a response, every entry of it is passed over. -/
theorem transferIpToRip_unmoved_iff {node : Node} {id : ℕ} (hup : node.isUp id = true)
    (data : List UInt8) (next : UInt32) (clock : ℕ → Timeval) :
    node.SameState (node.transferIpToRip data next clock) ↔
      readCommand node.order data ≠ 1 ∧ (readCommand node.order data = 2 →
        ∀ e ∈ readEntries node.order data, node.Ignores node.rtable e) := by
  rcases node.transferIpToRip_cases data next clock with
    ⟨hrequest, hrun⟩ | ⟨hresponse, hrun⟩ | ⟨hnot, hnot', hrun⟩
  · refine iff_of_false (fun hsame ↦ ?_) fun h ↦ h.1 hrequest
    refine prepareMsg_incomingqueue_ne hup 2 ?_
    rw [← hrun]
    exact hsame.incomingqueue
  · have htable := node.updateRouteTable_rtable_iff data next clock hresponse
    constructor
    · intro hsame
      refine ⟨?_, fun _ ↦ htable.mp hsame.rtable⟩
      rw [hresponse]
      decide
    · rintro ⟨-, hignores⟩
      refine ⟨htable.mpr (hignores hresponse), ?_, ?_⟩
      · rw [hrun]
        rfl
      · rw [hrun]
        rfl
  · rw [hrun]
    exact iff_of_true (SameState.refl node) ⟨hnot, fun hresponse ↦ absurd hresponse hnot'⟩

/-! ### The network layer -/

/-- Transit queues nothing exactly when the lookup leads to no interface. -/
theorem transferTransitData_unmoved_iff (node : Node) (dest : UInt32) (data : List UInt8)
    (datasz : ℕ) : node.SameState (node.transferTransitData dest data datasz) ↔
      node.getInterface (node.getNextAddress dest defaultAddr) = none := by
  cases hifc : node.getInterface (node.getNextAddress dest defaultAddr) with
  | none =>
    refine iff_of_true ?_ rfl
    simp only [transferTransitData, hifc]
    exact SameState.refl node
  | some ifc =>
    refine iff_of_false (fun hsame ↦ ?_) (Option.some_ne_none ifc)
    have hqueue := hsame.incomingqueue
    simp only [transferTransitData, hifc] at hqueue
    exact List.cons_ne_nil _ _ (List.append_right_eq_self.mp hqueue)

/-- The handling of a frame leaves the table and the queues as they were exactly when the frame
moves nothing. -/
theorem transferData_unmoved_iff (node : Node) (data : List UInt8) (len : ℕ) (next : UInt32)
    (clock : ℕ → Timeval) :
    node.SameState (node.transferData data len next clock) ↔ node.Unmoved data next := by
  unfold Unmoved
  by_cases hsum : ChecksumValid node.order data
  · rw [or_iff_right (not_not_intro hsum)]
    by_cases hproto : byteAt data 9 = ripProto
    · rw [transferData_rip hsum hproto, or_iff_left fun h ↦ h.1 hproto, and_iff_right hproto]
      unfold RipUnmoved
      split_ifs with hup
      · obtain ⟨id, -, hid⟩ := (Option.any_eq_true _ _).mp hup
        rw [transferIpToRip_unmoved_iff hid]
        exact ⟨fun h _ ↦ h, fun h ↦ h hup⟩
      · exact iff_of_true (SameState.refl node) fun h ↦ absurd h hup
    · rw [or_iff_right fun h ↦ hproto h.1, and_iff_right hproto]
      by_cases hdest : node.IsDestination data
      · rw [transferData_deliver hsum hproto hdest]
        exact iff_of_true ⟨rfl, rfl, rfl⟩ (Or.inl hdest)
      · rw [or_iff_right hdest, transferData_forward hsum hproto (Bool.eq_false_iff.mpr hdest)]
        unfold TransitUnmoved
        split_ifs with httl
        · exact iff_of_true (SameState.refl node) (Or.inl httl)
        · rw [or_iff_right httl]
          exact node.transferTransitData_unmoved_iff _ _ _
  · rw [transferData_invalid hsum]
    exact iff_of_true (SameState.refl node) (Or.inl hsum)

/-- The output of a node grows by a line for each frame that is for the node itself and not for its
routing layer. -/
theorem transferData_output_iff (node : Node) (data : List UInt8) (len : ℕ) (next : UInt32)
    (clock : ℕ → Timeval) : (node.transferData data len next clock).output = node.output ↔
      ¬ (ChecksumValid node.order data ∧ byteAt data 9 ≠ ripProto ∧ node.IsDestination data) := by
  by_cases hprinted : ChecksumValid node.order data ∧ byteAt data 9 ≠ ripProto ∧
      node.IsDestination data
  · obtain ⟨hsum, hproto, hdest⟩ := hprinted
    rw [transferData_deliver hsum hproto hdest]
    refine iff_of_false (fun hsame ↦ ?_) (not_not_intro ⟨hsum, hproto, hdest⟩)
    exact List.cons_ne_nil _ _ (List.append_right_eq_self.mp hsame)
  · refine iff_of_true ?_ hprinted
    by_cases hsum : ChecksumValid node.order data
    · by_cases hproto : byteAt data 9 = ripProto
      · rw [transferData_rip hsum hproto]
        split_ifs
        · rcases node.transferIpToRip_cases (ripPayload data) next clock with
            ⟨-, hrun⟩ | ⟨-, hrun⟩ | ⟨-, -, hrun⟩
          · rw [hrun, prepareMsg_eq]
          · rw [hrun]
            rfl
          · rw [hrun]
        · rfl
      · have hdest : ¬ node.IsDestination data := fun hdest ↦ hprinted ⟨hsum, hproto, hdest⟩
        rw [transferData_forward hsum hproto (Bool.eq_false_iff.mpr hdest)]
        split_ifs
        · rfl
        · obtain ⟨queue, hqueue⟩ := node.transferTransitData_cases
            (ntohl node.order (load32 node.order data 16)) (forwardedFrame node.order data) len
          rw [hqueue]
    · rw [transferData_invalid hsum]

/-! ### Interfaces that are down -/

/-- The handling of a frame is not to be noticed: no entry of the table changes, nothing is printed,
nothing is queued. -/
def Silent (node node' : Node) : Prop :=
  node'.rtable = node.rtable ∧ node'.output = node.output ∧
    node'.incomingqueue = node.incomingqueue

theorem transferData_outgoingqueue (node : Node) (data : List UInt8) (len : ℕ) (next : UInt32)
    (clock : ℕ → Timeval) :
    (node.transferData data len next clock).outgoingqueue = node.outgoingqueue := by
  rcases node.transferData_cases data len next clock with ⟨-, hrip⟩ | ⟨-, queue, output, hother⟩
  · rw [hrip]
    exact (node.transferIpToRip_sameLinks _ next clock).outgoingqueue
  · rw [hother]

theorem transferData_silent_iff (node : Node) (data : List UInt8) (len : ℕ) (next : UInt32)
    (clock : ℕ → Timeval) : node.Silent (node.transferData data len next clock) ↔
      ¬ ChecksumValid node.order data ∨
      (byteAt data 9 = ripProto ∧ node.RipUnmoved data next) ∨
      (byteAt data 9 ≠ ripProto ∧ ¬ node.IsDestination data ∧ node.TransitUnmoved data) := by
  have hsilent : node.Silent (node.transferData data len next clock) ↔
      node.Unmoved data next ∧
        ¬ (ChecksumValid node.order data ∧ byteAt data 9 ≠ ripProto ∧ node.IsDestination data) := by
    rw [← node.transferData_output_iff data len next clock,
      ← node.transferData_unmoved_iff data len next clock]
    constructor
    · rintro ⟨htable, houtput, hqueue⟩
      exact ⟨⟨htable, hqueue, node.transferData_outgoingqueue data len next clock⟩, houtput⟩
    · rintro ⟨hsame, houtput⟩
      exact ⟨hsame.rtable, houtput, hsame.incomingqueue⟩
  rw [hsilent]
  unfold Unmoved
  by_cases hsum : ChecksumValid node.order data
  · by_cases hproto : byteAt data 9 = ripProto
    · simp only [hsum, hproto, not_true_eq_false, ne_eq, false_and, and_false, not_false_eq_true,
        and_true, true_and, or_false, false_or]
    · simp only [hsum, hproto, not_true_eq_false, ne_eq, not_false_eq_true, true_and, false_and,
        false_or]
      constructor
      · rintro ⟨hdest | hway, hother⟩
        · exact absurd hdest hother
        · exact ⟨hother, hway⟩
      · rintro ⟨hother, hway⟩
        exact ⟨Or.inr hway, hother⟩
  · exact iff_of_true ⟨Or.inl hsum, fun h ↦ hsum h.1⟩ (Or.inl hsum)

theorem outgoingqueue_of_reachable {order : ByteOrder} {links : List LinkConfig}
    {clock : ℕ → Timeval} {node : Node} (hreach : Reachable Step (new order links clock) node) :
    node.outgoingqueue = [] :=
  hreach.invariant (fun _ _ _ hidle hstep ↦ hstep.idle hidle)
    (new_outgoingqueue order links clock)

/-- In every state a node reaches from its constructor, and for every interface that is down: a
frame that is attributed to the interface goes unnoticed exactly when it fails the checksum test, or
is for the routing layer, which has nothing to do, or is not for the node itself and there is no way
on for it. Where the interfaces have distinct addresses, every frame for the routing layer goes
unnoticed. -/
theorem receiveFrame_silent_iff (order : ByteOrder) (links : List LinkConfig) (clock : ℕ → Timeval)
    {node : Node} (hreach : Reachable Step (new order links clock) node) {interface : ℕ}
    {ifc : LinkLayer} (hget : node.interfaces[interface]? = some ifc) (hdown : ifc.isup = false)
    (frame stale : List UInt8) (now : ℕ → Timeval) :
    (node.Silent (node.receiveFrame frame ifc.vipLocal stale now) ↔
      ¬ ChecksumValid node.order (frame ++ stale) ∨
      (byteAt (frame ++ stale) 9 = ripProto ∧
        node.RipUnmoved (frame ++ stale) ifc.vipLocal) ∨
      (byteAt (frame ++ stale) 9 ≠ ripProto ∧ ¬ node.IsDestination (frame ++ stale) ∧
        node.TransitUnmoved (frame ++ stale))) ∧
    (node.DistinctVips → byteAt (frame ++ stale) 9 = ripProto →
      node.Silent (node.receiveFrame frame ifc.vipLocal stale now)) := by
  have hsilent := node.transferData_silent_iff (frame ++ stale) frame.length ifc.vipLocal now
  rw [receiveFrame_eq (outgoingqueue_of_reachable hreach)]
  refine ⟨hsilent, fun hdistinct hproto ↦ hsilent.mpr (Or.inr (Or.inl ⟨hproto, fun hup ↦ ?_⟩))⟩
  rw [hdistinct.getInterface_eq hget, Option.any_some, isUp, hget, Option.any_some, hdown] at hup
  exact absurd hup Bool.false_ne_true

end Node

/-- A packet of protocol six from `10.0.0.5`, for any destination. -/
def dataPacket (dest : UInt32) : List UInt8 := buildIpPacket .little 0x0A000005 dest 6 [104, 105] 2

/-- A node of two interfaces. -/
def twoLinkNode : Node := Node.new .little
  [⟨3, 5001, 0x0A000001, 0x0A000002⟩, ⟨4, 5002, 0x0A000003, 0x0A000004⟩] fun _ ↦ seconds 0

/-- The first interface is down. -/
def oneDownNode : Node :=
  Node.removeIfcEntry
    { twoLinkNode with interfaces := [⟨-1, false, 5001, 0x0A000001, 0x0A000002⟩,
        ⟨4, true, 5002, 0x0A000003, 0x0A000004⟩] } 0x0A000001

theorem oneDownNode_reachable : Reachable Node.Step twoLinkNode oneDownNode :=
  ⟨[.command (.down 0)], Run.single rfl⟩

/-- A routing packet over the interface that is down goes unnoticed. -/
theorem routingPacket_silent : oneDownNode.Silent
    (oneDownNode.receiveFrame (responsePacket 1) 0x0A000001 [] fun _ ↦ seconds 1) := by
  have hget : oneDownNode.interfaces[0]? = some ⟨-1, false, 5001, 0x0A000001, 0x0A000002⟩ := rfl
  have hdistinct : oneDownNode.DistinctVips := by
    unfold Node.DistinctVips
    decide
  exact (Node.receiveFrame_silent_iff .little _ (fun _ ↦ seconds 0) oneDownNode_reachable hget rfl
    (responsePacket 1) [] fun _ ↦ seconds 1).2 hdistinct (by decide)

/-- A packet for the node itself is printed although the interface it came over is down. -/
theorem dataPacket_noticed : Reachable Node.Step twoLinkNode oneDownNode ∧
    oneDownNode.interfaces[0]? = some ⟨-1, false, 5001, 0x0A000001, 0x0A000002⟩ ∧
    ¬ oneDownNode.Silent
      (oneDownNode.receiveFrame (dataPacket 0x0A000003) 0x0A000001 [] fun _ ↦ seconds 1) := by
  refine ⟨oneDownNode_reachable, rfl, fun hsilent ↦ ?_⟩
  have hprinted : (oneDownNode.receiveFrame (dataPacket 0x0A000003) 0x0A000001 []
      fun _ ↦ seconds 1).output.length ≠ oneDownNode.output.length := by decide +kernel
  exact hprinted (congrArg List.length hsilent.2.1)

end IpRipStack
