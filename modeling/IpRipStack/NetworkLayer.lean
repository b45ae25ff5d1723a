import IpRipStack.RipLayer

/-!
# NetworkLayer.cc

The receiving half of the network layer: `transferLinkToIp` queues a received frame,
`processOutQueue` takes it off the queue, and `transferData` checks its header, hands it to the
routing layer, prints it, or forwards it (`transferTransitData`). Packets of the application enter
by `transferApplicationToIp`. Nothing is sent here: every packet goes to the queue that
`process_in_queue` empties.

The frame a function works on is a list of bytes that starts at its pointer: the `len` bytes that
were received and then whatever the stack held behind them, which `processOutQueue` takes as its
parameter `stale`.

`transferData_cases` says what a frame can change: the routing layer takes it, or a packet is queued
or printed and everything else stays. `transferData_forward` is the forwarding branch by itself,
with `forwardedFrame` the bytes it sends on.
-/

set_option autoImplicit false
set_option relaxedAutoImplicit false

namespace IpRipStack

open MachineWord

namespace Node

/-- `NetworkLayer::transfer_link_to_ip`. -/
def transferLinkToIp (node : Node) (data : List UInt8) (len : ℕ) (next : UInt32) : Node :=
  { node with
    outgoingqueue := node.outgoingqueue ++ [{ datalen := len, next := next, ippkt := data.take len }] }

/-- `NetworkLayer::transfer_transit_data`. -/
def transferTransitData (node : Node) (dest : UInt32) (data : List UInt8) (datasz : ℕ) : Node :=
  let nextAddr := node.getNextAddress dest defaultAddr
  match node.getInterface nextAddr with
  | none => node
  | some ifc =>
    { node with
      incomingqueue := node.incomingqueue ++
        [{ ifc := ifc, size := datasz, packet := data.take datasz }] }

/-- `NetworkLayer::transfer_application_to_ip`, with the destination as `inet_pton` filled it in. -/
def transferApplicationToIp (node : Node) (dest : UInt32) (proto : UInt8) (data : List UInt8)
    (datasz : ℕ) : Node :=
  let hdest := ntohl node.order dest
  let nextAddr := node.getNextAddress hdest defaultAddr
  match node.getInterface nextAddr with
  | none => node
  | some id =>
    match node.interfaces[id]? with
    | none => node
    | some ifc =>
      { node with
        incomingqueue := node.incomingqueue ++
          [{ ifc := id
             size := minHdrLen.val * 4 + datasz
             packet := buildIpPacket node.order ifc.vipLocal hdest proto data datasz }] }

/-- `NetworkLayer::transfer_data`. -/
def transferData (node : Node) (data : List UInt8) (len : ℕ) (next : UInt32)
    (clock : ℕ → Timeval) : Node :=
  let datapos := 4 * ((byteAt data 0).toNat % 16)
  let dest := ntohl node.order (load32 node.order data 16)
  let proto := byteAt data 9
  let origSum := load16 node.order data csumOffset
  let interfaceid := node.getInterfaceid next
  let data := overwrite data csumOffset [0, 0]
  let curSum := ipSum node.order data 20
  if origSum ≠ curSum then node
  else if proto = ripProto then
    match node.getInterface next with
    | none => node -- the source dereferences the null pointer
    | some ifc =>
      if node.isUp ifc then node.transferIpToRip (data.drop datapos) next clock else node
  else if node.isDestinedToMe dest then
    let data := overwrite data len [0]
    { node with
      output := node.output ++
        [{ interfaceid := interfaceid
           saddr := load32 .big data 12
           daddr := load32 .big data 16
           proto := proto
           payloadLength := (len : Int) - datapos
           payload := (data.drop datapos).takeWhile fun b ↦ b ≠ 0 }] }
  else
    let ttl := ntohs node.order (byteAt data ttlOffset).toUInt16 - 1
    if ttl = 0 then node
    else
      let data := overwrite data ttlOffset (store16 node.order (htons node.order ttl))
      let data := overwrite data csumOffset [0, 0]
      let csum := ipSum node.order data 20
      let data := overwrite data csumOffset (store16 node.order csum)
      node.transferTransitData dest data len

/-! ### The fates of a frame -/

end Node

/-- The checksum a frame carries is the one its receiver computes. -/
def ChecksumValid (order : ByteOrder) (data : List UInt8) : Prop :=
  load16 order data csumOffset = ipSum order (overwrite data csumOffset [0, 0]) 20

instance (order : ByteOrder) (data : List UInt8) : Decidable (ChecksumValid order data) :=
  inferInstanceAs (Decidable (_ = _))

/-- What `transfer_data` hands to the routing layer: the frame from the end of its header on, with
the checksum bytes cleared. -/
def ripPayload (data : List UInt8) : List UInt8 :=
  (overwrite data csumOffset [0, 0]).drop (4 * ((byteAt data 0).toNat % 16))

/-- The time-to-live a forwarded frame is to carry. -/
def forwardedTtl (order : ByteOrder) (data : List UInt8) : UInt16 :=
  ntohs order (byteAt data ttlOffset).toUInt16 - 1

/-- The frame the forwarding branch sends on. -/
def forwardedFrame (order : ByteOrder) (data : List UInt8) : List UInt8 :=
  let ttl := htons order (forwardedTtl order data)
  let data := overwrite (overwrite data csumOffset [0, 0]) ttlOffset (store16 order ttl)
  let data := overwrite data csumOffset [0, 0]
  overwrite data csumOffset (store16 order (ipSum order data 20))

namespace Node

/-- Transit queues at most one packet and changes nothing else. -/
theorem transferTransitData_cases (node : Node) (dest : UInt32) (data : List UInt8) (datasz : ℕ) :
    ∃ queue, node.transferTransitData dest data datasz =
      { node with incomingqueue := node.incomingqueue ++ queue } := by
  cases hifc : node.getInterface (node.getNextAddress dest defaultAddr) with
  | none =>
    refine ⟨[], ?_⟩
    simp only [transferTransitData, hifc, List.append_nil]
  | some ifc =>
    refine ⟨[{ ifc := ifc, size := datasz, packet := data.take datasz }], ?_⟩
    simp only [transferTransitData, hifc]

/-- A frame with a wrong checksum changes nothing. -/
theorem transferData_invalid {node : Node} {data : List UInt8}
    (hsum : ¬ ChecksumValid node.order data) (len : ℕ) (next : UInt32) (clock : ℕ → Timeval) :
    node.transferData data len next clock = node :=
  if_pos hsum

/-- The forwarding branch. Assumes: a valid checksum, a protocol other than the routing protocol and
a destination that is not one of the node's own addresses. -/
theorem transferData_forward {node : Node} {data : List UInt8} (hsum : ChecksumValid node.order data)
    (hproto : byteAt data 9 ≠ ripProto)
    (hdest : node.isDestinedToMe (ntohl node.order (load32 node.order data 16)) = false)
    (len : ℕ) (next : UInt32) (clock : ℕ → Timeval) : node.transferData data len next clock =
      if forwardedTtl node.order data = 0 then node
      else node.transferTransitData (ntohl node.order (load32 node.order data 16))
        (forwardedFrame node.order data) len := by
  have hbyte : byteAt (overwrite data csumOffset [0, 0]) ttlOffset = byteAt data ttlOffset := by
    rw [byteAt_overwrite, if_neg]
    rintro ⟨hle, -⟩
    exact absurd hle (by decide)
  have hvalid : ¬ load16 node.order data csumOffset ≠
      ipSum node.order (overwrite data csumOffset [0, 0]) 20 := not_not_intro hsum
  simp only [transferData, hbyte, hdest]
  rw [if_neg hvalid, if_neg hproto, if_neg Bool.false_ne_true]
  rfl

/-- What is printed about a packet for the node itself. -/
def delivery (node : Node) (data : List UInt8) (len : ℕ) (next : UInt32) : Delivery :=
  let datapos := 4 * ((byteAt data 0).toNat % 16)
  let printed := overwrite (overwrite data csumOffset [0, 0]) len [0]
  { interfaceid := node.getInterfaceid next
    saddr := load32 .big printed 12
    daddr := load32 .big printed 16
    proto := byteAt data 9
    payloadLength := (len : Int) - datapos
    payload := (printed.drop datapos).takeWhile fun b ↦ b ≠ 0 }

/-- The printing branch. Assumes: a valid checksum, a protocol other than the routing protocol and a
destination that is one of the node's own addresses. -/
theorem transferData_deliver {node : Node} {data : List UInt8} (hsum : ChecksumValid node.order data)
    (hproto : byteAt data 9 ≠ ripProto)
    (hdest : node.isDestinedToMe (ntohl node.order (load32 node.order data 16)) = true)
    (len : ℕ) (next : UInt32) (clock : ℕ → Timeval) : node.transferData data len next clock =
      { node with output := node.output ++ [node.delivery data len next] } := by
  have hvalid : ¬ load16 node.order data csumOffset ≠
      ipSum node.order (overwrite data csumOffset [0, 0]) 20 := not_not_intro hsum
  simp only [transferData, hdest]
  rw [if_neg hvalid, if_neg hproto, if_pos trivial]
  rfl

/-- The routing layer takes a frame: its checksum is valid, it is of the routing protocol, and the
interface it is attributed to is up. -/
def Accepts (node : Node) (data : List UInt8) (next : UInt32) : Prop :=
  ChecksumValid node.order data ∧ byteAt data 9 = ripProto ∧
    (node.getInterface next).any node.isUp = true

instance (node : Node) (data : List UInt8) (next : UInt32) : Decidable (node.Accepts data next) :=
  inferInstanceAs (Decidable (_ ∧ _))

/-- The routing branch. Assumes: a valid checksum and the routing protocol. -/
theorem transferData_rip {node : Node} {data : List UInt8} (hsum : ChecksumValid node.order data)
    (hproto : byteAt data 9 = ripProto) (len : ℕ) (next : UInt32) (clock : ℕ → Timeval) :
    node.transferData data len next clock =
      if (node.getInterface next).any node.isUp then
        node.transferIpToRip (ripPayload data) next clock
      else node := by
  have hrip : node.transferData data len next clock =
      match node.getInterface next with
      | none => node
      | some ifc =>
        if node.isUp ifc then node.transferIpToRip (ripPayload data) next clock
        else node :=
    (if_neg (not_not_intro hsum)).trans (if_pos hproto)
  rw [hrip]
  cases node.getInterface next with
  | none => rfl
  | some ifc => rfl

/-- The routing layer takes a frame, or the frame queues packets and prints and leaves the rest of
the node alone. -/
theorem transferData_cases (node : Node) (data : List UInt8) (len : ℕ) (next : UInt32)
    (clock : ℕ → Timeval) :
    (node.Accepts data next ∧ node.transferData data len next clock =
        node.transferIpToRip (ripPayload data) next clock) ∨
      (¬ node.Accepts data next ∧ ∃ queue output, node.transferData data len next clock =
        { node with incomingqueue := node.incomingqueue ++ queue, output := output }) := by
  have hsame : ∃ queue output, node =
      { node with incomingqueue := node.incomingqueue ++ queue, output := output } :=
    ⟨[], node.output, by rw [List.append_nil]⟩
  by_cases hsum : ChecksumValid node.order data
  · by_cases hproto : byteAt data 9 = ripProto
    · rw [transferData_rip hsum hproto]
      split_ifs with hup
      · exact Or.inl ⟨⟨hsum, hproto, hup⟩, rfl⟩
      · exact Or.inr ⟨fun haccepts ↦ hup haccepts.2.2, hsame⟩
    · refine Or.inr ⟨fun haccepts ↦ hproto haccepts.2.1, ?_⟩
      by_cases hdest : node.isDestinedToMe (ntohl node.order (load32 node.order data 16)) = true
      · refine ⟨[], node.output ++ [node.delivery data len next], ?_⟩
        rw [transferData_deliver hsum hproto hdest, List.append_nil]
      · rw [transferData_forward hsum hproto (Bool.eq_false_iff.mpr hdest)]
        split_ifs
        · exact hsame
        · obtain ⟨queue, hqueue⟩ := node.transferTransitData_cases
            (ntohl node.order (load32 node.order data 16)) (forwardedFrame node.order data) len
          exact ⟨queue, node.output, hqueue⟩
  · rw [transferData_invalid hsum]
    exact Or.inr ⟨fun haccepts ↦ hsum haccepts.1, hsame⟩

/-! ### The queue of received frames -/

/-- One turn of the loop of `NetworkLayer::process_out_queue`. -/
def processOutQueue (node : Node) (stale : List UInt8) (clock : ℕ → Timeval) : Node :=
  match node.outgoingqueue with
  | [] => node -- `pop` waits
  | msg :: rest =>
    transferData { node with outgoingqueue := rest } (msg.ippkt.take msg.datalen ++ stale)
      msg.datalen msg.next clock

/-- The reception of one frame: the link layer hands it over with the local address of the interface
it is attributed to, and the network layer takes it off its queue. -/
def receiveFrame (node : Node) (frame : List UInt8) (next : UInt32) (stale : List UInt8)
    (clock : ℕ → Timeval) : Node :=
  (node.transferLinkToIp frame frame.length next).processOutQueue stale clock

/-- With nothing waiting in the queue the frame received is the one handled. -/
theorem receiveFrame_eq {node : Node} (h : node.outgoingqueue = []) (frame : List UInt8)
    (next : UInt32) (stale : List UInt8) (clock : ℕ → Timeval) :
    node.receiveFrame frame next stale clock =
      node.transferData (frame ++ stale) frame.length next clock := by
  have hsame : { node with outgoingqueue := [] } = node := by
    cases node
    cases h
    rfl
  simp only [receiveFrame, transferLinkToIp, processOutQueue, h, List.nil_append, hsame,
    List.take_length]

end Node

end IpRipStack
