import IpRipStack.OneHop
import IpRipStack.Library.CScan

/-!
# The send command

`send_cmd` takes a line apart with `sscanf` and `inet_pton`, finds the payload by the number of
characters that were consumed, and hands it to the network layer with its length. The line is read
from memory, since nothing keeps the pointer to the payload inside of it. A token too long for the
array it is stored in is no address.

The payload then has to fit in four places: the data of a packet, into which `build_ip_packet`
copies it, the total length of the header, which has sixteen bits, the frame, and the buffer in
which the peer receives the frame. Nothing compares its length with any of them. The tightest is the
last: `payload_fits_iff`.
-/

set_option autoImplicit false
set_option relaxedAutoImplicit false

namespace IpRipStack

open MachineWord CScan

/-- `sizeof(packet.data)`. -/
def packetDataSize : ℕ := 1024

/-- The format of `send_cmd`, `send %s %hhu%n`: the token, the protocol and the number of characters
consumed. -/
def scanSend (line : List UInt8) : Option (List UInt8 × UInt8 × ℕ) := do
  let rest ← scanLiteral [115, 101, 110, 100] line
  let (ipString, rest) ← scanToken rest
  let (protocol, rest) ← scanUnsigned rest
  pure (ipString, UInt8.ofNat protocol, line.length - rest.length)

/-- What `send_cmd` finds in the line at a pointer: the address as `inet_pton` fills it in, the
protocol and the payload, or what it reports. -/
def parseSend (order : ByteOrder) (memory : List UInt8) :
    Except String (UInt32 × UInt8 × List UInt8) :=
  match scanSend (cString memory) with
  | none => .error "syntax error (usage: send [ip] [protocol] [payload])\n"
  | some (ipString, protocol, numConsumed) =>
    match inetPton ipString with
    | none => .error "syntax error (malformed ip address)\n"
    | some (a, b, c, d) =>
      let data := cString (memory.drop (numConsumed + 1))
      if data.length < 1 then .error "syntax error (payload unspecified)\n"
      else .ok (word32 order a b c d, protocol, data)

namespace Node

/-- `Node::send_cmd`. -/
def sendCmd (node : Node) (memory : List UInt8) : Except String Node :=
  match parseSend node.order memory with
  | .error message => .error message
  | .ok (dest, protocol, data) => .ok (node.transferApplicationToIp dest protocol data data.length)

/-- There is a way to the destination: the lookup leads to an interface. -/
def Reaches (node : Node) (dest : UInt32) : Prop :=
  node.getInterface (node.getNextAddress (ntohl node.order dest) defaultAddr) ≠ none

end Node

/-- A packet has room for its payload: the data of the packet hold it, the total length counts it,
and the packet is no longer than the buffer in which it is received. -/
structure PacketFits (order : ByteOrder) (data : List UInt8) (msg : IpMsg) : Prop where
  room : data.length ≤ packetDataSize
  totLen : (ntohs order (load16 order msg.packet 2)).toNat = 20 + data.length
  size : msg.size = 20 + data.length
  frame : msg.size ≤ maxbuff

/-- A payload that the command in a line passes on for a destination that can be reached is
rejected, or is queued in a packet that has room for it. -/
def Node.PayloadFits (node : Node) (memory : List UInt8) : Prop :=
  ∀ dest protocol data, parseSend node.order memory = .ok (dest, protocol, data) →
    node.Reaches dest → ∃ node', node.sendCmd memory = .ok node' ∧
      (node'.incomingqueue = node.incomingqueue ∨ ∃ msg,
        node'.incomingqueue = node.incomingqueue ++ [msg] ∧ PacketFits node.order data msg)

namespace Node

/-- What is queued for a destination that can be reached. -/
theorem Reaches.transferApplicationToIp {node : Node} {dest : UInt32} (h : node.Reaches dest)
    (proto : UInt8) (data : List UInt8) (datasz : ℕ) : ∃ id ifc, node.interfaces[id]? = some ifc ∧
      node.transferApplicationToIp dest proto data datasz =
        { node with
          incomingqueue := node.incomingqueue ++
            [{ ifc := id
               size := 20 + datasz
               packet := buildIpPacket node.order ifc.vipLocal (ntohl node.order dest) proto data
                 datasz }] } := by
  obtain ⟨id, hid⟩ := Option.ne_none_iff_exists'.mp h
  obtain ⟨ifc, hget, -⟩ := getInterface_eq_some hid
  refine ⟨id, ifc, hget, ?_⟩
  unfold Node.transferApplicationToIp
  dsimp only
  rw [hid]
  dsimp only
  rw [hget]
  rfl

theorem PayloadFits.length_le {node : Node} {memory : List UInt8} (h : node.PayloadFits memory)
    {dest : UInt32} {protocol : UInt8} {data : List UInt8}
    (hparse : parseSend node.order memory = .ok (dest, protocol, data))
    (hreach : node.Reaches dest) : data.length ≤ 1004 := by
  obtain ⟨node', hsend, hqueued⟩ := h dest protocol data hparse hreach
  obtain ⟨id, ifc, -, hqueue⟩ := hreach.transferApplicationToIp protocol data data.length
  have hnode : node.transferApplicationToIp dest protocol data data.length = node' := by
    unfold sendCmd at hsend
    rw [hparse] at hsend
    exact Except.ok.inj hsend
  rw [← hnode, hqueue] at hqueued
  rcases hqueued with hrejected | ⟨msg, -, hpacket⟩
  · exact absurd (List.append_right_eq_self.mp hrejected) (List.cons_ne_nil _ _)
  · have hsize := hpacket.size
    have hframe := hpacket.frame
    unfold maxbuff at hframe
    omega

/-- For every node and every line: a payload that is passed on fits exactly when it has at most
`1004` bytes or its destination cannot be reached. -/
theorem payload_fits_iff (node : Node) (memory : List UInt8) :
    node.PayloadFits memory ↔ ∀ dest protocol data,
      parseSend node.order memory = .ok (dest, protocol, data) → node.Reaches dest →
        data.length ≤ 1004 := by
  constructor
  · intro hfits dest protocol data hparse hreach
    exact hfits.length_le hparse hreach
  · intro hsmall dest protocol data hparse hreach
    have hlength := hsmall dest protocol data hparse hreach
    obtain ⟨id, ifc, -, hqueue⟩ := hreach.transferApplicationToIp protocol data data.length
    have hsend : node.sendCmd memory =
        .ok (node.transferApplicationToIp dest protocol data data.length) := by
      unfold sendCmd
      rw [hparse]
    have htotLen := totLen_buildIpPacket node.order node.order ifc.vipLocal (ntohl node.order dest)
      protocol data data.length []
    rw [List.append_nil] at htotLen
    refine ⟨_, hsend, Or.inr ⟨_, congrArg incomingqueue hqueue, ?_, ?_, rfl, ?_⟩⟩
    · unfold packetDataSize
      omega
    · rw [htotLen, UInt16.toNat_ofNat']
      omega
    · change 20 + data.length ≤ 1024
      omega

end Node

/-- The line `send 10.0.0.9 6` with a payload of `1005` characters. -/
def longLine : List UInt8 :=
  [115, 101, 110, 100, 32, 49, 48, 46, 48, 46, 48, 46, 57, 32, 54, 32] ++
    (List.replicate 1005 120 ++ [0])

/-- The packet that is queued for it does not fit the buffer in which the peer receives it. -/
theorem long_payload_queued : parseSend .little longLine =
      .ok (0x0900000A, 6, List.replicate 1005 120) ∧
    routerNode.Reaches 0x0900000A ∧ ¬ routerNode.PayloadFits longLine := by
  have hparse : parseSend .little longLine = .ok (0x0900000A, 6, List.replicate 1005 120) := by
    decide +kernel
  have hreach : routerNode.Reaches 0x0900000A := by
    unfold Node.Reaches
    decide +kernel
  refine ⟨hparse, hreach, fun hfits ↦ ?_⟩
  have hlength := hfits.length_le hparse hreach
  rw [List.length_replicate] at hlength
  omega

end IpRipStack
