import IpRipStack.Emission
import IpRipStack.OneHop

/-!
# The frames this code emits

A `Regular` frame is one as this code emits it: whole, with a header of twenty bytes and with a
checksum that verifies. The packets a node builds are regular, and a regular frame that is sent on
stays so (`Regular.forwardedFrame`).

What becomes of a regular frame at a node does not depend on the memory behind it
(`Regular.transferData_cases`): the routing layer takes it, or it is printed, dropped or sent on.
`Shown` is what its last receiver prints of it. The bytes this comes from are left alone on the way
(`shown_forwardedFrame`), so what is printed was fixed when the packet was built.
-/

set_option autoImplicit false
set_option relaxedAutoImplicit false

namespace IpRipStack

open MachineWord

/-- A frame as this code emits it. -/
structure Regular (bytes : List UInt8) : Prop where
  whole : ∀ order, WholePacket order bytes
  options : headerLength bytes = 20
  verifies : ∀ stale, Verifies (bytes ++ stale)

/-- The destination of a frame. -/
def destination (bytes : List UInt8) : UInt32 := load32 .big bytes 16

/-- What the receiver of a packet prints about it, but for the arrival link and the protocol. -/
structure Shown where
  saddr : UInt32
  daddr : UInt32
  payloadLength : Int
  payload : List UInt8
  deriving DecidableEq, Repr

def Delivery.shown (printed : Delivery) : Shown where
  saddr := printed.saddr
  daddr := printed.daddr
  payloadLength := printed.payloadLength
  payload := printed.payload

/-- What the receiver of a frame will print about it. -/
def shown (bytes : List UInt8) : Shown where
  saddr := load32 .big bytes 12
  daddr := destination bytes
  payloadLength := (bytes.length : Int) - 20
  payload := (bytes.drop 20).takeWhile fun b ↦ b ≠ 0

theorem Node.protocol_ripPacket (node : Node) (msgType : UInt16) (id : ℕ) (ifc : LinkLayer) :
    byteAt (node.ripPacket msgType id ifc).packet 9 = ripProto := by
  have hproto := protocol_buildIpPacket node.order ifc.vipLocal ifc.vipRemote ripProto
    ((node.ripMsg msgType ifc.vipLocal).bytes node.order)
    (12 * (node.ripMsg msgType ifc.vipLocal).entries.length + 4) []
  rwa [List.append_nil] at hproto

namespace Regular

variable {bytes : List UInt8}

theorem header (h : Regular bytes) : 20 ≤ bytes.length := (h.whole .big).header

theorem checksumValid (h : Regular bytes) (order : ByteOrder) (stale : List UInt8) :
    ChecksumValid order (bytes ++ stale) :=
  (h.verifies stale).valid order

/-! ### Frames that are built and frames that are sent on -/

/-- Assumes: data that fit the buffer of a receiver. -/
theorem build (order : ByteOrder) (src dest : UInt32) (proto : UInt8) (payload : List UInt8)
    (hsize : payload.length ≤ 1004) :
    Regular (buildIpPacket order src dest proto payload payload.length) := by
  have hoptions := headerLength_buildIpPacket order src dest proto payload payload.length []
  rw [List.append_nil] at hoptions
  exact ⟨fun order' ↦ wholePacket_packet order src dest proto payload order' hsize, hoptions,
    fun stale ↦ verifies_buildIpPacket order src dest proto payload payload.length stale⟩

/-- A message made from a table of at most sixty-four entries is regular. -/
theorem ripPacket {node : Node} (hsize : node.rtable.size ≤ maxEntries) (msgType : UInt16) (id : ℕ)
    (ifc : LinkLayer) : Regular (node.ripPacket msgType id ifc).packet := by
  let msg := node.ripMsg msgType ifc.vipLocal
  have hentries : msg.entries.length = node.rtable.size := by
    rw [← Std.ExtTreeMap.length_toList]
    exact List.length_map _
  have hlength : (msg.bytes node.order).length = 12 * msg.entries.length + 4 :=
    length_ripMsg_bytes _ _
  have hfits : (msg.bytes node.order).length ≤ 1004 := by
    unfold maxEntries at hsize
    omega
  have hbuilt := build node.order ifc.vipLocal ifc.vipRemote ripProto (msg.bytes node.order) hfits
  rwa [hlength] at hbuilt

/-- The bytes behind the checksum are left alone on the way. -/
theorem drop_forwardedFrame (order : ByteOrder) (bytes : List UInt8) {count : ℕ}
    (hcount : 12 ≤ count) : (IpRipStack.forwardedFrame order bytes).drop count =
      bytes.drop count := by
  have hpast : ∀ (buffer new : List UInt8) (offset : ℕ), new.length = 2 → offset ≤ csumOffset →
      (overwrite buffer offset new).drop count = buffer.drop count := by
    intro buffer new offset hnew hoffset
    apply drop_overwrite
    unfold csumOffset at hoffset
    omega
  unfold IpRipStack.forwardedFrame
  dsimp only
  rw [hpast _ _ _ (length_store16 _ _) le_rfl, hpast _ _ _ rfl le_rfl,
    hpast _ _ _ (length_store16 _ _) (by decide), hpast _ _ _ rfl le_rfl]

theorem load32_forwardedFrame (order order' : ByteOrder) (h : 20 ≤ bytes.length) {offset : ℕ}
    (hoffset : 12 ≤ offset) : load32 order' (IpRipStack.forwardedFrame order bytes) offset =
      load32 order' bytes offset := by
  have hbyte : ∀ i, 12 ≤ i →
      byteAt (IpRipStack.forwardedFrame order bytes) i = byteAt bytes i := by
    intro i hi
    rw [byteAt_forwardedFrame order h (by omega) (by omega), if_neg (by omega)]
  unfold load32
  rw [hbyte _ (by omega), hbyte _ (by omega), hbyte _ (by omega), hbyte _ (by omega)]

theorem forwardedFrame (h : Regular bytes) (order : ByteOrder) :
    Regular (IpRipStack.forwardedFrame order bytes) := by
  have hbyte : ∀ i, i < 8 → byteAt (IpRipStack.forwardedFrame order bytes) i = byteAt bytes i := by
    intro i hi
    rw [byteAt_forwardedFrame order h.header (by omega) (by omega), if_neg (by omega)]
  refine ⟨fun order' ↦ ?_, ?_, verifies_forwardedFrame order h.header⟩
  · obtain ⟨hheader, hfits, htotLen⟩ := h.whole order'
    refine ⟨?_, ?_, ?_⟩
    · rwa [length_forwardedFrame]
    · rwa [length_forwardedFrame]
    · unfold load16
      rw [hbyte 2 (by omega), hbyte 3 (by omega), length_forwardedFrame]
      exact htotLen
  · unfold headerLength
    rw [hbyte 0 (by omega)]
    exact h.options

end Regular

/-- What is printed about a packet does not change on the way. -/
theorem shown_forwardedFrame (order : ByteOrder) {bytes : List UInt8} (h : 20 ≤ bytes.length) :
    shown (forwardedFrame order bytes) = shown bytes := by
  unfold shown destination
  rw [Regular.load32_forwardedFrame order .big h (by omega),
    Regular.load32_forwardedFrame order .big h (by omega), length_forwardedFrame,
    Regular.drop_forwardedFrame order bytes (by omega)]

/-! ### What becomes of a frame -/

namespace Regular

variable {bytes : List UInt8}

/-- What is printed about a packet. -/
theorem delivery_shown (h : Regular bytes) (hproto : byteAt bytes 9 ≠ ripProto) (node : Node)
    (stale : List UInt8) (next : UInt32) :
    (node.delivery (bytes ++ stale) bytes.length next).shown = shown bytes := by
  have hwhole : WholeFrame node.order bytes :=
    ⟨h.header, h.options.ge, h.options.trans_le h.header, fun hrip ↦ absurd hrip hproto⟩
  have hprinted : overwrite (overwrite bytes csumOffset [0, 0]) bytes.length [0] =
      overwrite bytes csumOffset [0, 0] :=
    List.set_eq_of_length_le (length_overwrite _ _ _).le
  have hword : ∀ offset, 12 ≤ offset → load32 .big (overwrite bytes csumOffset [0, 0]) offset =
      load32 .big bytes offset := by
    intro offset hoffset
    have hbyte : ∀ i, 12 ≤ i →
        byteAt (overwrite bytes csumOffset [0, 0]) i = byteAt bytes i := by
      intro i hi
      rw [byteAt_overwrite, if_neg]
      simp only [csumOffset, List.length_cons, List.length_nil]
      omega
    unfold load32
    rw [hbyte _ (by omega), hbyte _ (by omega), hbyte _ (by omega), hbyte _ (by omega)]
  have hdata : (overwrite bytes csumOffset [0, 0]).drop 20 = bytes.drop 20 :=
    drop_overwrite _ _ _ _ (by decide)
  have hheader : 4 * ((byteAt bytes 0).toNat % 16) = 20 := h.options
  rw [hwhole.delivery_append]
  unfold Node.delivery Delivery.shown shown destination
  dsimp only
  rw [hprinted, hheader, hword 12 (le_refl 12), hword 16 (by omega), hdata]
  rfl

/-- What becomes of a frame: the routing layer takes it, if the interface it is attributed to is up;
a packet for the node is printed; a packet that is used up or that has no way on is dropped; any
other packet is queued on the interface its destination is looked up to. -/
theorem transferData_cases (h : Regular bytes) (node : Node) (stale : List UInt8) (next : UInt32)
    (clock : ℕ → Timeval) :
    let node' := node.transferData (bytes ++ stale) bytes.length next clock
    let found := node.getInterface (node.getNextAddress (destination bytes) defaultAddr)
    (byteAt bytes 9 = ripProto ∧ node' =
        if (node.getInterface next).any node.isUp then
          node.transferIpToRip (ripPayload (bytes ++ stale)) next clock
        else node) ∨
      (byteAt bytes 9 ≠ ripProto ∧ node.isDestinedToMe (destination bytes) = true ∧
        ∃ printed : Delivery, printed.shown = shown bytes ∧
          node' = { node with output := node.output ++ [printed] }) ∨
      (byteAt bytes 9 ≠ ripProto ∧ node.isDestinedToMe (destination bytes) = false ∧
        (forwardedTtl node.order bytes = 0 ∨ found = none) ∧ node' = node) ∨
      (byteAt bytes 9 ≠ ripProto ∧ node.isDestinedToMe (destination bytes) = false ∧
        forwardedTtl node.order bytes ≠ 0 ∧ ∃ id, found = some id ∧
          node' = { node with
            incomingqueue := node.incomingqueue ++
              [⟨id, bytes.length, IpRipStack.forwardedFrame node.order bytes⟩] }) := by
  intro node' found
  have hvalid := h.checksumValid node.order stale
  have hbyte : byteAt (bytes ++ stale) 9 = byteAt bytes 9 :=
    byteAt_append_left stale (by have := h.header; omega)
  have hdestination : ntohl node.order (load32 node.order (bytes ++ stale) 16) =
      destination bytes := by
    rw [load32_append_left stale _ h.header, ntohl_load32]
    rfl
  by_cases hproto : byteAt bytes 9 = ripProto
  · exact Or.inl ⟨hproto, Node.transferData_rip hvalid (hbyte.trans hproto) _ _ _⟩
  · refine Or.inr ?_
    cases hdest : node.isDestinedToMe (destination bytes) with
    | true =>
      refine Or.inl ⟨hproto, rfl, _, h.delivery_shown hproto node stale next, ?_⟩
      exact Node.transferData_deliver hvalid (by rwa [hbyte]) (by rwa [hdestination]) _ _ _
    | false =>
      refine Or.inr ?_
      have hvalid' := (checksumValid_append_left stale node.order h.header).mp hvalid
      have hdest' : node.isDestinedToMe (ntohl node.order (load32 node.order bytes 16)) = false := by
        rw [ntohl_load32]
        exact hdest
      let hop : Hop := ⟨node, next, stale, clock⟩
      have hrun := @Hop.transferData_eq hop bytes h.header hvalid' hproto hdest'
      simp only [hop] at hrun
      rw [ntohl_load32] at hrun
      change node' = if forwardedTtl node.order bytes = 0 then node else
        node.transferTransitData (destination bytes)
          (IpRipStack.forwardedFrame node.order bytes ++ stale) bytes.length at hrun
      by_cases hword : forwardedTtl node.order bytes = 0
      · rw [if_pos hword] at hrun
        exact Or.inl ⟨hproto, rfl, Or.inl hword, hrun⟩
      · rw [if_neg hword] at hrun
        unfold Node.transferTransitData at hrun
        dsimp only at hrun
        cases hfound : found with
        | none =>
          simp only [found] at hfound
          rw [hfound] at hrun
          exact Or.inl ⟨hproto, rfl, Or.inr rfl, hrun⟩
        | some id =>
          simp only [found] at hfound
          rw [hfound] at hrun
          refine Or.inr ⟨hproto, rfl, hword, id, rfl, ?_⟩
          dsimp only at hrun
          rw [hrun, List.take_left' (length_forwardedFrame _ _)]

end Regular

end IpRipStack
