import IpRipStack.Forwarding
import IpRipStack.FrameEffects

/-!
# What a node emits

The checksum of every packet a node queues. `build_ip_packet` fills in the fields of a header and
stores the sum of it; the forwarding branch of `transfer_data` rewrites a received header by offsets
and stores the sum again. Both leave a header whose two checksum bytes hold the sum of the header
with those bytes cleared (`verifies_append`), which is all that a receiver depends on, whether it
clears the bytes and compares or sums the header as it is, and whatever its byte order.

`Step.emitted` is the step of the invariant and `emitted_verifies` what it says of the queue of any
reachable node.
-/

set_option autoImplicit false
set_option relaxedAutoImplicit false

namespace IpRipStack

open MachineWord Runs

/-- Hosts of either order find in the frame the sum they compute themselves, and sum its header to
zero. -/
structure Verifies (frame : List UInt8) : Prop where
  valid : ∀ order, ChecksumValid order frame
  sum : ∀ order, ipSum order frame 20 = 0

/-- A packet to be sent is as long as it says and, if it has a whole header, verifies with any
memory behind it. -/
structure Emitted (msg : IpMsg) : Prop where
  length : msg.packet.length = msg.size
  verifies : 20 ≤ msg.size → ∀ stale, Verifies (msg.packet ++ stale)

/-! ### A stored checksum -/

/-- Clearing two bytes that lie behind the first ten. -/
theorem overwrite_csumOffset {before : List UInt8} (hbefore : before.length = 10)
    (old new behind : List UInt8) (h : old.length = new.length) :
    overwrite (before ++ (old ++ behind)) csumOffset new = before ++ (new ++ behind) := by
  have hreplace := overwrite_append new before old behind h
  rwa [hbefore] at hreplace

/-- A header verifies that holds, behind its first ten bytes, the sum of itself with that sum
cleared. -/
theorem verifies_append (order : ByteOrder) {before : List UInt8} (hbefore : before.length = 10)
    (behind : List UInt8) : Verifies (before ++
      (store16 order (ipSum order (before ++ ([0, 0] ++ behind)) 20) ++ behind)) := by
  refine ⟨fun order' ↦ ?_, fun order' ↦ ?_⟩
  · have hlen : 20 ≤ 131074 := by omega
    have hstored := load16_store16_ipSum order order' hlen (before ++ ([0, 0] ++ behind)) before behind
    unfold ChecksumValid
    rw [overwrite_csumOffset hbefore _ [0, 0] behind (length_store16 _ _), ← hstored, hbefore]
    rfl
  · refine ipSum_checksummed order order' ?_ behind ?_ (by omega)
    · rw [hbefore]
      decide
    · omega

/-! ### The packets the node builds -/

/-- A packet built from fields verifies. -/
theorem verifies_buildIpPacket (order : ByteOrder) (src dest : UInt32) (proto : UInt8)
    (data : List UInt8) (datasz : ℕ) (stale : List UInt8) :
    Verifies (buildIpPacket order src dest proto data datasz ++ stale) := by
  let hdr := ipHeader order src dest proto datasz
  let behind := store32 .big src ++ (store32 .big dest ++ (data.take datasz ++ stale))
  have hsummed : ipSum order (hdr.bytes order) 20 =
      ipSum order (hdr.front order ++ ([0, 0] ++ behind)) 20 := by
    have hbytes : hdr.front order ++ ([0, 0] ++ behind) =
        hdr.bytes order ++ (data.take datasz ++ stale) := by
      have hcheck : store16 order hdr.check = [0, 0] := store16_zero order
      have hsaddr : store32 order hdr.saddr = store32 .big src := store32_htonl order src
      have hdaddr : store32 order hdr.daddr = store32 .big dest := store32_htonl order dest
      simp only [IpHdr.bytes, hcheck, hsaddr, hdaddr, behind, List.append_assoc]
    unfold ipSum
    rw [hbytes, List.take_left' (length_header order hdr),
      List.take_of_length_le (length_header order hdr).le]
  rw [buildIpPacket_append, hsummed]
  exact verifies_append order (length_front order hdr) behind

theorem Node.ripPacket_emitted (node : Node) (msgType : UInt16) (id : ℕ) (ifc : LinkLayer) :
    Emitted (node.ripPacket msgType id ifc) := by
  refine ⟨?_, fun _ stale ↦ verifies_buildIpPacket _ _ _ _ _ _ stale⟩
  have hpayload := length_ripMsg_bytes node.order (node.ripMsg msgType ifc.vipLocal)
  unfold ripPacket
  dsimp only
  rw [length_buildIpPacket, hpayload, Nat.min_self]
  rfl

/-! ### The packets the node sends on -/

/-- A packet that is sent on verifies. Assumes: a whole header. -/
theorem verifies_forwardedFrame (order : ByteOrder) {frame : List UInt8} (h : 20 ≤ frame.length)
    (stale : List UInt8) : Verifies (forwardedFrame order frame ++ stale) := by
  let stored := overwrite (overwrite frame csumOffset [0, 0]) ttlOffset
    (store16 order (htons order (forwardedTtl order frame)))
  let before := stored.take csumOffset
  let behind := stored.drop 12 ++ stale
  have hstored : 20 ≤ stored.length := by
    simp only [stored, length_overwrite]
    exact h
  have hbefore : before.length = 10 := by
    unfold before csumOffset
    rw [List.length_take]
    omega
  have hcleared : overwrite stored csumOffset [0, 0] = before ++ ([0, 0] ++ stored.drop 12) :=
    overwrite_eq_append (by simp only [csumOffset, List.length_cons, List.length_nil]; omega)
  have hsummed : ipSum order (overwrite stored csumOffset [0, 0]) 20 =
      ipSum order (before ++ ([0, 0] ++ behind)) 20 := by
    have hbytes : before ++ ([0, 0] ++ behind) = overwrite stored csumOffset [0, 0] ++ stale := by
      rw [hcleared]
      simp only [behind, List.append_assoc]
    rw [hbytes, ipSum_append_left stale order (by rw [length_overwrite]; exact hstored)]
  have hframe : forwardedFrame order frame ++ stale = before ++ (store16 order
      (ipSum order (before ++ ([0, 0] ++ behind)) 20) ++ behind) := by
    change overwrite (overwrite stored csumOffset [0, 0]) csumOffset
      (store16 order (ipSum order (overwrite stored csumOffset [0, 0]) 20)) ++ stale = _
    rw [hsummed, hcleared, overwrite_csumOffset hbefore [0, 0] _ _ (length_store16 _ _).symm]
    simp only [behind, List.append_assoc]
  rw [hframe]
  exact verifies_append order hbefore behind

/-! ### Hosts of either byte order -/

/-- A checksum stored in the order of the host that computes it is the same two bytes on hosts of
either order, for every block of at most `131074` bytes. So a packet that one kind of host builds or
sends on passes the test of the other. -/
theorem checksum_portable (block : List UInt8) (hlen : block.length ≤ 131074) :
    store16 .little (ipSum .little block block.length) =
        store16 .big (ipSum .big block block.length) ∧
      (∀ (order order' : ByteOrder) (src dest : UInt32) (proto : UInt8) (data : List UInt8)
        (datasz : ℕ) (stale : List UInt8),
          ChecksumValid order' (buildIpPacket order src dest proto data datasz ++ stale)) ∧
      ∀ (order order' : ByteOrder) (frame : List UInt8), 20 ≤ frame.length →
        ∀ stale : List UInt8, ChecksumValid order' (forwardedFrame order frame ++ stale) := by
  refine ⟨?_, ?_, ?_⟩
  · rw [store16_little_eq, swap16_ipSum hlen]
  · intro order order' src dest proto data datasz stale
    exact (verifies_buildIpPacket order src dest proto data datasz stale).valid order'
  · intro order order' frame hframe stale
    exact (verifies_forwardedFrame order hframe stale).valid order'

/-- A block of three bytes. -/
theorem checksum_portable_oddBlock : store16 .little (ipSum .little [0xFF, 0xFF, 0x01] 3) =
    store16 .big (ipSum .big [0xFF, 0xFF, 0x01] 3) :=
  (checksum_portable [0xFF, 0xFF, 0x01] (by decide)).1

/-! ### Everything in the queue -/

namespace Node

/-- Every packet waiting to be sent is as the node emits it. -/
def QueueEmitted (node : Node) : Prop := ∀ msg ∈ node.incomingqueue, Emitted msg

theorem QueueEmitted.append {node node' : Node} {queue : List IpMsg} (h : node.QueueEmitted)
    (hqueue : node'.incomingqueue = node.incomingqueue ++ queue) (hnew : ∀ msg ∈ queue, Emitted msg) :
    node'.QueueEmitted := by
  unfold QueueEmitted
  rw [hqueue]
  exact List.forall_mem_append.mpr ⟨h, hnew⟩

theorem QueueEmitted.prepareMsg {node : Node} (h : node.QueueEmitted) (msgType : UInt16) :
    (node.prepareMsg msgType).QueueEmitted := by
  refine h.append (congrArg incomingqueue (node.prepareMsg_eq msgType)) fun msg hmsg ↦ ?_
  obtain ⟨id, -, hpacket⟩ := List.mem_filterMap.mp hmsg
  obtain ⟨ifc, -, -, rfl⟩ := ripPacket?_ifc hpacket
  exact node.ripPacket_emitted msgType id ifc

theorem QueueEmitted.transferIpToRip {node : Node} (h : node.QueueEmitted) (data : List UInt8)
    (next : UInt32) (clock : ℕ → Timeval) : (node.transferIpToRip data next clock).QueueEmitted := by
  rcases node.transferIpToRip_cases data next clock with
    ⟨-, hrun⟩ | ⟨-, hrun⟩ | ⟨-, -, hrun⟩
  · rw [hrun]
    exact h.prepareMsg 2
  · rw [hrun]
    exact h
  · rw [hrun]
    exact h

theorem QueueEmitted.transferApplicationToIp {node : Node} (h : node.QueueEmitted) (dest : UInt32)
    (proto : UInt8) (payload : List UInt8) :
    (node.transferApplicationToIp dest proto payload payload.length).QueueEmitted := by
  unfold Node.transferApplicationToIp
  dsimp only
  split
  · exact h
  · split
    · exact h
    · refine h.append rfl fun msg hmsg ↦ ?_
      obtain rfl := List.mem_singleton.mp hmsg
      refine ⟨?_, fun _ stale ↦ verifies_buildIpPacket _ _ _ _ _ _ stale⟩
      rw [length_buildIpPacket, Nat.min_self]
      rfl

theorem QueueEmitted.transferTransitData {node : Node} (h : node.QueueEmitted) (dest : UInt32)
    (frame stale : List UInt8) : (node.transferTransitData dest
      (forwardedFrame node.order (frame ++ stale)) frame.length).QueueEmitted := by
  unfold Node.transferTransitData
  dsimp only
  split
  · exact h
  · refine h.append rfl fun msg hmsg ↦ ?_
    obtain rfl := List.mem_singleton.mp hmsg
    refine ⟨?_, fun hsize stale' ↦ ?_⟩
    · rw [List.length_take, length_forwardedFrame, List.length_append]
      exact Nat.min_eq_left (Nat.le_add_right _ _)
    · rw [forwardedFrame_append_left stale node.order hsize,
        List.take_left' (length_forwardedFrame node.order frame)]
      exact verifies_forwardedFrame node.order hsize stale'

theorem QueueEmitted.transferData {node : Node} (h : node.QueueEmitted) (frame stale : List UInt8)
    (next : UInt32) (clock : ℕ → Timeval) :
    (node.transferData (frame ++ stale) frame.length next clock).QueueEmitted := by
  by_cases hsum : ChecksumValid node.order (frame ++ stale)
  · by_cases hproto : byteAt (frame ++ stale) 9 = ripProto
    · rw [transferData_rip hsum hproto]
      split_ifs
      · exact h.transferIpToRip _ next clock
      · exact h
    · by_cases hdest : node.IsDestination (frame ++ stale)
      · rw [transferData_deliver hsum hproto hdest]
        exact h
      · rw [transferData_forward hsum hproto (Bool.eq_false_iff.mpr hdest)]
        split_ifs
        · exact h
        · exact h.transferTransitData _ frame stale
  · rw [transferData_invalid hsum]
    exact h

/-- An operation of a node keeps the invariant. Assumes: no received frame waiting. -/
theorem Step.emitted {node node' : Node} {event : Event} (hidle : node.outgoingqueue = [])
    (h : node.QueueEmitted) (hstep : node.Step event node') : node'.QueueEmitted := by
  cases event with
  | command c =>
    cases c with
    | send msgType =>
      obtain rfl := Option.some.inj hstep
      exact h.prepareMsg msgType
    | refresh curtv =>
      obtain rfl := Option.some.inj hstep
      exact h
    | down interface =>
      obtain ⟨ifc, -, rfl⟩ := Option.map_eq_some_iff.mp hstep
      refine QueueEmitted.prepareMsg ?_ 2
      exact h
    | up interface sockfd now =>
      obtain ⟨ifc, -, rfl⟩ := Option.map_eq_some_iff.mp hstep
      exact h
  | receive interface frame stale clock =>
    obtain ⟨ifc, -, rfl⟩ := Option.map_eq_some_iff.mp hstep
    rw [receiveFrame_eq hidle]
    exact h.transferData frame stale ifc.vipLocal clock
  | application dest proto payload =>
    obtain rfl := Option.some.inj hstep
    exact h.transferApplicationToIp dest proto payload
  | transmit =>
    obtain rfl := Option.some.inj hstep
    exact fun msg hmsg ↦ h msg (List.mem_of_mem_tail hmsg)

/-- Every packet that waits to be sent in a state the node reaches from its constructor, if it has a
whole header, passes the test of a peer of either byte order, and its header sums to zero there. -/
theorem emitted_verifies (order : ByteOrder) (links : List LinkConfig) (clock : ℕ → Timeval)
    {node : Node} (hreach : Reachable Step (new order links clock) node) {msg : IpMsg}
    (hmsg : msg ∈ node.incomingqueue) (hsize : 20 ≤ msg.size) (peer : ByteOrder)
    (stale : List UInt8) : msg.packet.length = msg.size ∧
      ChecksumValid peer (msg.packet ++ stale) ∧ ipSum peer (msg.packet ++ stale) 20 = 0 := by
  have hinit : (new order links clock).QueueEmitted :=
    QueueEmitted.prepareMsg (fun msg hmsg ↦ absurd hmsg List.not_mem_nil) 1
  have hkeep : ∀ (node : Node) (event : Event) (node' : Node),
      (node.outgoingqueue = [] ∧ node.QueueEmitted) →
      node.Step event node' → node'.outgoingqueue = [] ∧ node'.QueueEmitted := by
    rintro node event node' ⟨hidle, hqueue⟩ hstep
    exact ⟨hstep.idle hidle, hstep.emitted hidle hqueue⟩
  obtain ⟨-, hqueue⟩ := hreach.invariant hkeep ⟨new_outgoingqueue order links clock, hinit⟩
  obtain ⟨hlength, hverifies⟩ := hqueue msg hmsg
  exact ⟨hlength, (hverifies hsize stale).valid peer, (hverifies hsize stale).sum peer⟩

end Node

/-- The request a node of two interfaces starts with, as a big-endian peer checks it. -/
theorem request_verifies :
    let msg := twoLinkNode.ripPacket 1 1 ⟨4, true, 5002, 0x0A000003, 0x0A000004⟩
    msg.packet.length = msg.size ∧ ChecksumValid .big (msg.packet ++ [7]) ∧
      ipSum .big (msg.packet ++ [7]) 20 = 0 := by
  intro msg
  have hqueued : twoLinkNode.incomingqueue[1]? = some msg := rfl
  exact Node.emitted_verifies .little _ (fun _ ↦ seconds 0) (Reachable.init twoLinkNode)
    (List.mem_of_getElem? hqueued) (by decide) .big [7]

end IpRipStack
