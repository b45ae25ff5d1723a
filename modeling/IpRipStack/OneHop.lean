import IpRipStack.Attribution
import IpRipStack.FrameBounds
import Mathlib.Data.List.TakeWhile

/-!
# One hop

A packet from the `build_ip_packet` of one host to the output of another. The lengths it depends on
are taken from three places: `recv_data` waits for as many bytes as the total length in the header
says, the network layer copies as many as were received, and the payload begins where the header
length says and ends where the received bytes do. `delivered` says that they agree for every packet
that fits the buffer of the receiver, and that all fields arrive as they were given, whatever the
byte orders of the two hosts. The payload is printed as a C string, which ends at a zero byte.
-/

set_option autoImplicit false
set_option relaxedAutoImplicit false

namespace IpRipStack

open MachineWord

section

variable (order : ByteOrder) (src dest : UInt32) (proto : UInt8) (payload : List UInt8)

theorem length_packet : (buildIpPacket order src dest proto payload payload.length).length =
    20 + payload.length := by
  rw [length_buildIpPacket, Nat.min_self]

/-- A packet that fits the buffer is whole for the `recv_data` of a host of either order. -/
theorem wholePacket_packet (order' : ByteOrder) (hsize : payload.length ≤ 1004) :
    WholePacket order' (buildIpPacket order src dest proto payload payload.length) := by
  have hlength := length_packet order src dest proto payload
  refine ⟨by omega, by unfold maxbuff; omega, ?_⟩
  have htotLen := totLen_buildIpPacket order order' src dest proto payload payload.length []
  rw [List.append_nil] at htotLen
  rw [htotLen, hlength, UInt16.toNat_ofNat']
  omega

/-- It is also a whole frame for `transfer_data`, unless it is of the routing protocol. -/
theorem wholeFrame_packet (order' : ByteOrder) (hproto : proto ≠ ripProto) :
    WholeFrame order' (buildIpPacket order src dest proto payload payload.length) := by
  have hlength := length_packet order src dest proto payload
  have hheader := headerLength_buildIpPacket order src dest proto payload payload.length []
  have hfield := protocol_buildIpPacket order src dest proto payload payload.length []
  rw [List.append_nil] at hheader hfield
  change headerLength _ = 20 at hheader
  refine ⟨by omega, hheader.ge, by omega, fun hrip ↦ ?_⟩
  exact absurd (hfield.symm.trans hrip) hproto

/-- What a receiver prints about the packet. -/
theorem delivery_packet (node : Node) (hproto : proto ≠ ripProto) (stale : List UInt8)
    (next : UInt32) :
    let packet := buildIpPacket order src dest proto payload payload.length
    node.delivery (packet ++ stale) packet.length next =
      { interfaceid := node.getInterfaceid next
        saddr := src
        daddr := dest
        proto := proto
        payloadLength := payload.length
        payload := payload.takeWhile fun b ↦ b ≠ 0 } := by
  intro packet
  have hlength : packet.length = 20 + payload.length := length_packet order src dest proto payload
  have hheader := headerLength_buildIpPacket order src dest proto payload payload.length []
  have hfield := protocol_buildIpPacket order src dest proto payload payload.length []
  have hsaddr := saddr_buildIpPacket order .big src dest proto payload payload.length []
  have hdaddr := daddr_buildIpPacket order .big src dest proto payload payload.length []
  have hdata := drop_buildIpPacket order src dest proto payload payload.length []
  rw [List.append_nil] at hheader hfield hsaddr hdaddr hdata
  rw [List.append_nil, List.take_length] at hdata
  -- nothing is received at the place where the end of the string is marked
  have hprinted : overwrite (overwrite packet csumOffset [0, 0]) packet.length [0] =
      overwrite packet csumOffset [0, 0] :=
    List.set_eq_of_length_le (length_overwrite _ _ _).le
  have hword : ∀ offset, 12 ≤ offset → load32 .big (overwrite packet csumOffset [0, 0]) offset =
      load32 .big packet offset := by
    intro offset hoffset
    have hbyte : ∀ i, 12 ≤ i →
        byteAt (overwrite packet csumOffset [0, 0]) i = byteAt packet i := by
      intro i hi
      rw [byteAt_overwrite, if_neg]
      simp only [csumOffset, List.length_cons, List.length_nil]
      omega
    unfold load32
    rw [hbyte _ (by omega), hbyte _ (by omega), hbyte _ (by omega), hbyte _ (by omega)]
  have hpayload : (overwrite packet csumOffset [0, 0]).drop 20 = payload := by
    rw [drop_overwrite _ _ _ _ (by simp only [csumOffset, List.length_cons, List.length_nil]; omega)]
    exact hdata
  rw [(wholeFrame_packet order src dest proto payload node.order hproto).delivery_append]
  unfold Node.delivery
  dsimp only
  rw [hprinted, hheader, hfield, hword 12 (le_refl 12), hword 16 (by omega), hpayload, hlength]
  congr 1
  omega

end

/-- Assumes: a packet that is not of the routing protocol, with data that fit the buffer of the
receiver, and a receiver that owns the destination. Received as one datagram it is handed on whole,
passes the checksum test, and is delivered with the addresses, the protocol, the length and the data
that were given; the data are printed up to the first zero byte, so all of them if there is none. -/
theorem delivered (order : ByteOrder) (src dest : UInt32) (proto : UInt8) (payload : List UInt8)
    (hproto : proto ≠ ripProto) (hsize : payload.length ≤ 1004) (node : Node)
    (hdest : node.isDestinedToMe dest = true) (stack : RecvBuffer) (results : List RecvResult)
    (next : UInt32) (stale : List UInt8) (clock : ℕ → Timeval) :
    let frame := buildIpPacket order src dest proto payload payload.length
    frame.length = 20 + payload.length ∧
    (∃ handed, recvData node.order stack (.datagram frame :: results) = some (handed, results) ∧
      ∀ receiver : Node, receiver.transferLinkToIp handed.buf handed.len.toNat next =
        { receiver with
          outgoingqueue := receiver.outgoingqueue ++ [⟨frame.length, next, frame⟩] }) ∧
    ChecksumValid node.order (frame ++ stale) ∧
    node.transferData (frame ++ stale) frame.length next clock =
      { node with
        output := node.output ++
          [{ interfaceid := node.getInterfaceid next
             saddr := src
             daddr := dest
             proto := proto
             payloadLength := payload.length
             payload := payload.takeWhile fun b ↦ b ≠ 0 }] } ∧
    (payload.takeWhile (fun b ↦ b ≠ 0) = payload ↔ ∀ b ∈ payload, b ≠ 0) := by
  intro frame
  have hvalid : ChecksumValid node.order (frame ++ stale) :=
    load16_checksum order node.order src dest proto payload payload.length stale
  have hfield : byteAt (frame ++ stale) 9 ≠ ripProto := by
    rw [protocol_buildIpPacket]
    exact hproto
  have hmine : node.isDestinedToMe (ntohl node.order (load32 node.order (frame ++ stale) 16)) =
      true := by
    rw [daddr_buildIpPacket]
    exact hdest
  refine ⟨length_packet order src dest proto payload, ?_, hvalid, ?_, ?_⟩
  · obtain ⟨handed, hrecv, hcarries⟩ := RecvData.recvData_whole
      (wholePacket_packet order src dest proto payload node.order hsize) stack results
    refine ⟨handed, hrecv, fun receiver ↦ ?_⟩
    rw [hcarries.transferLinkToIp, Node.transferLinkToIp, List.take_length]
  · rw [Node.transferData_deliver hvalid hfield hmine,
      delivery_packet order src dest proto payload node hproto stale next]
  · rw [List.takeWhile_eq_self_iff]
    simp only [decide_eq_true_eq]

/-- A packet for the node with the one interface `10.0.0.1`. -/
theorem delivered_leafNode :
    leafNode.transferData (buildIpPacket .big 0x0A000002 0x0A000001 6 [104, 105] 2 ++ [7])
        (buildIpPacket .big 0x0A000002 0x0A000001 6 [104, 105] 2).length 0x0A000001
          (fun _ ↦ seconds 0) =
      { leafNode with output := leafNode.output ++
        [⟨leafNode.getInterfaceid 0x0A000001, 0x0A000002, 0x0A000001, 6, 2, [104, 105]⟩] } :=
  (delivered .big 0x0A000002 0x0A000001 6 [104, 105] (by decide) (by decide) leafNode (by decide)
    zeroStack [] 0x0A000001 [7] fun _ ↦ seconds 0).2.2.2.1

/-- A payload of three bytes, the second of which is zero, is printed as one byte. -/
theorem payload_cut_short : (6 : UInt8) ≠ ripProto ∧ leafNode.isDestinedToMe 0x0A000001 = true ∧
    (leafNode.transferData (buildIpPacket .little 0x0A000002 0x0A000001 6 [104, 0, 105] 3)
      (buildIpPacket .little 0x0A000002 0x0A000001 6 [104, 0, 105] 3).length 0x0A000001
        fun _ ↦ seconds 0).output.map Delivery.payload = [[104]] ∧
    ([104] : List UInt8) ≠ [104, 0, 105] := by
  decide +kernel

end IpRipStack
