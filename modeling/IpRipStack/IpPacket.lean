import IpRipStack.IpSum
import IpRipStack.Node

/-!
# Building IP packets

The sending half of `NetworkLayer.cc`: `struct iphdr`, `build_ip_packet` and `transfer_rip_to_ip`.
A packet is the bytes of its header followed by its data. The fields of `IpHdr` hold what the source
assigns to them, so the fields that are kept in network order are converted by `buildIpPacket`.

`drop_buildIpPacket` and its companions say what a receiver finds in the fields of a built packet;
`overwrite_checksum` says that a receiver which clears the two checksum bytes sums the header the
sender summed, and `load16_checksum` that the stored sum is the one it then finds, whatever the byte
orders of the two hosts.
-/

set_option autoImplicit false
set_option relaxedAutoImplicit false

namespace IpRipStack

open MachineWord

def minHdrLen : Fin 16 := 5
def ipVersion : Fin 16 := 4
def maxCost : UInt8 := 16
def ripProto : UInt8 := 200
def ttlOffset : ℕ := 8
def csumOffset : ℕ := 10

/-- `struct iphdr`. -/
structure IpHdr where
  ihl : Fin 16
  version : Fin 16
  tos : UInt8
  totLen : UInt16
  id : UInt16
  fragOff : UInt16
  ttl : UInt8
  protocol : UInt8
  check : UInt16
  saddr : UInt32
  daddr : UInt32
  deriving DecidableEq, Repr

/-- The ten bytes of a header before its checksum. The two bit-fields share a byte, `ihl` in its low
half on hosts of either order. -/
def IpHdr.front (order : ByteOrder) (hdr : IpHdr) : List UInt8 :=
  [UInt8.ofNat (16 * hdr.version.val + hdr.ihl.val), hdr.tos] ++
    (store16 order hdr.totLen ++ (store16 order hdr.id ++ (store16 order hdr.fragOff ++
      [hdr.ttl, hdr.protocol])))

/-- The twenty bytes of a header in memory. -/
def IpHdr.bytes (order : ByteOrder) (hdr : IpHdr) : List UInt8 :=
  hdr.front order ++ (store16 order hdr.check ++
    (store32 order hdr.saddr ++ store32 order hdr.daddr))

/-- The header `build_ip_packet` sums: every field but the checksum, which is zero. -/
def ipHeader (order : ByteOrder) (src dest : UInt32) (proto : UInt8) (datasz : ℕ) : IpHdr where
  ihl := minHdrLen
  version := ipVersion
  tos := 0
  totLen := htons order (UInt16.ofNat (minHdrLen.val * 4 + datasz))
  id := 0
  fragOff := 0
  ttl := maxCost
  protocol := proto
  check := 0
  saddr := htonl order src
  daddr := htonl order dest

/-- `NetworkLayer::build_ip_packet`. -/
def buildIpPacket (order : ByteOrder) (src dest : UInt32) (proto : UInt8) (data : List UInt8)
    (datasz : ℕ) : List UInt8 :=
  let hdr := ipHeader order src dest proto datasz
  let cksum := ipSum order (hdr.bytes order) 20
  IpHdr.bytes order { hdr with check := cksum } ++ data.take datasz

/-- `NetworkLayer::transfer_rip_to_ip`. -/
def Node.transferRipToIp (node : Node) (id : ℕ) (data : List UInt8) (datasz : ℕ) : Node :=
  match node.interfaces[id]? with
  | none => node
  | some ifc =>
    { node with
      incomingqueue := node.incomingqueue ++
        [{ ifc := id
           size := minHdrLen.val * 4 + datasz
           packet := buildIpPacket node.order ifc.vipLocal ifc.vipRemote ripProto data datasz }] }

/-! ### Where the fields of a header lie -/

@[simp] theorem length_front (order : ByteOrder) (hdr : IpHdr) : (hdr.front order).length = 10 := by
  simp [IpHdr.front]

@[simp] theorem length_header (order : ByteOrder) (hdr : IpHdr) :
    (hdr.bytes order).length = 20 := by
  simp [IpHdr.bytes]

theorem length_buildIpPacket (order : ByteOrder) (src dest : UInt32) (proto : UInt8)
    (data : List UInt8) (datasz : ℕ) :
    (buildIpPacket order src dest proto data datasz).length = 20 + min datasz data.length := by
  simp [buildIpPacket]

section Fields

variable (order order' : ByteOrder) (src dest : UInt32) (proto : UInt8) (data : List UInt8)
  (datasz : ℕ) (rest : List UInt8)

/-- The data of a built packet lie behind its twenty bytes of header. -/
theorem drop_buildIpPacket :
    (buildIpPacket order src dest proto data datasz ++ rest).drop 20 = data.take datasz ++ rest := by
  rw [buildIpPacket, List.append_assoc, List.drop_left' (length_header _ _)]

/-- The bytes of a built packet, with the addresses in network order. -/
theorem buildIpPacket_append : buildIpPacket order src dest proto data datasz ++ rest =
    (ipHeader order src dest proto datasz).front order ++
      (store16 order (ipSum order ((ipHeader order src dest proto datasz).bytes order) 20) ++
        (store32 .big src ++ (store32 .big dest ++ (data.take datasz ++ rest)))) := by
  rw [← store32_htonl order src, ← store32_htonl order dest]
  simp only [buildIpPacket, IpHdr.bytes, List.append_assoc]
  rfl

/-- The header length a receiver computes from the first byte. -/
theorem headerLength_buildIpPacket :
    4 * ((byteAt (buildIpPacket order src dest proto data datasz ++ rest) 0).toNat % 16) = 20 := by
  have hfirst : byteAt (buildIpPacket order src dest proto data datasz ++ rest) 0 = 0x45 := by
    rw [buildIpPacket_append]
    rfl
  rw [hfirst]
  rfl

theorem protocol_buildIpPacket :
    byteAt (buildIpPacket order src dest proto data datasz ++ rest) 9 = proto := by
  rw [buildIpPacket_append]
  cases order <;> rfl

/-- The total length a receiver reads, in a field of sixteen bits. -/
theorem totLen_buildIpPacket :
    ntohs order' (load16 order' (buildIpPacket order src dest proto data datasz ++ rest) 2) =
      UInt16.ofNat (20 + datasz) := by
  have hstored := load16_store16 .big [0x45, 0] ([0, 0, 0, 0, maxCost, proto] ++
    (store16 order (ipSum order ((ipHeader order src dest proto datasz).bytes order) 20) ++
      (store32 .big src ++ (store32 .big dest ++ (data.take datasz ++ rest)))))
    (UInt16.ofNat (20 + datasz))
  have hfront : (ipHeader order src dest proto datasz).front order =
      [0x45, 0] ++ (store16 .big (UInt16.ofNat (20 + datasz)) ++
        [0, 0, 0, 0, maxCost, proto]) := by
    have htotLen : store16 order (ipHeader order src dest proto datasz).totLen =
        store16 .big (UInt16.ofNat (20 + datasz)) := store16_htons order _
    have hid : store16 order (ipHeader order src dest proto datasz).id = [0, 0] := store16_zero order
    have hfragOff : store16 order (ipHeader order src dest proto datasz).fragOff = [0, 0] :=
      store16_zero order
    unfold IpHdr.front
    rw [htotLen, hid, hfragOff]
    rfl
  rw [ntohs_load16, buildIpPacket_append, hfront, List.append_assoc, List.append_assoc]
  exact hstored

theorem saddr_buildIpPacket :
    ntohl order' (load32 order' (buildIpPacket order src dest proto data datasz ++ rest) 12) =
      src := by
  have hstored := load32_store32 ((ipHeader order src dest proto datasz).front order ++
    store16 order (ipSum order ((ipHeader order src dest proto datasz).bytes order) 20))
    (store32 .big dest ++ (data.take datasz ++ rest)) src
  rw [List.length_append, length_front, length_store16, List.append_assoc] at hstored
  rw [ntohl_load32, buildIpPacket_append]
  exact hstored

theorem daddr_buildIpPacket :
    ntohl order' (load32 order' (buildIpPacket order src dest proto data datasz ++ rest) 16) =
      dest := by
  have hstored := load32_store32 ((ipHeader order src dest proto datasz).front order ++
    (store16 order (ipSum order ((ipHeader order src dest proto datasz).bytes order) 20) ++
      store32 .big src)) (data.take datasz ++ rest) dest
  rw [List.length_append, List.length_append, length_front, length_store16, length_store32,
    List.append_assoc, List.append_assoc] at hstored
  rw [ntohl_load32, buildIpPacket_append]
  exact hstored

end Fields

/-- Clearing the checksum bytes of a frame leaves the header with a zero checksum. -/
theorem overwrite_checksum (order : ByteOrder) (hdr : IpHdr) (rest : List UInt8) :
    (overwrite (hdr.bytes order ++ rest) csumOffset [0, 0]).take 20 =
      IpHdr.bytes order { hdr with check := 0 } := by
  have hclear := overwrite_append [0, 0] (hdr.front order) (store16 order hdr.check)
    (store32 order hdr.saddr ++ store32 order hdr.daddr ++ rest) (by simp)
  rw [length_front] at hclear
  have hheader : overwrite (hdr.bytes order ++ rest) csumOffset [0, 0] =
      IpHdr.bytes order { hdr with check := 0 } ++ rest := by
    simp only [IpHdr.bytes, store16_zero, List.append_assoc] at hclear ⊢
    exact hclear
  rw [hheader, List.take_left' (by simp)]

/-- The checksum a receiver finds in a built packet is the one it computes itself. -/
theorem load16_checksum (order order' : ByteOrder) (src dest : UInt32) (proto : UInt8)
    (data : List UInt8) (datasz : ℕ) (rest : List UInt8) :
    let packet := buildIpPacket order src dest proto data datasz ++ rest
    load16 order' packet csumOffset = ipSum order' (overwrite packet csumOffset [0, 0]) 20 := by
  intro packet
  have hsum : ipSum order' (overwrite packet csumOffset [0, 0]) 20 =
      ipSum order' ((ipHeader order src dest proto datasz).bytes order) 20 := by
    rw [ipSum, ipSum]
    simp only [packet, buildIpPacket, List.append_assoc, overwrite_checksum]
    rw [List.take_of_length_le (by simp)]
    rfl
  rw [hsum]
  have hlen : 20 ≤ 131074 := by omega
  have hstored := load16_store16_ipSum order order' hlen
    ((ipHeader order src dest proto datasz).bytes order)
    ((ipHeader order src dest proto datasz).front order)
    (store32 order (htonl order src) ++ store32 order (htonl order dest) ++
      (data.take datasz ++ rest))
  rw [length_front] at hstored
  rw [← hstored]
  simp only [packet, buildIpPacket, IpHdr.bytes, List.append_assoc]
  rfl

end IpRipStack
