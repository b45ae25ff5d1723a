import IpRipStack.FrameEffects
import IpRipStack.HeaderCorruption

/-!
# The bounds of a frame

Whether the handling of a frame stays inside the frame. Nothing in `transfer_data` compares the
header length or the number of entries with the length that was received, and the routing layer is
not told that length: a message that announces more entries than it carries is read on into the
memory behind it.

A frame that is whole is handled without regard to that memory (`WholeFrame.transferData_append`),
and what is learned from it are entries that lie in it (`WholeFrame.learned`). `parsing_inside_iff`
says that other frames are harmless exactly when nothing acts on them, whatever lies behind them,
and when what is printed of them, if anything, begins inside them.
-/

set_option autoImplicit false
set_option relaxedAutoImplicit false

namespace IpRipStack

open MachineWord OrderedMap Runs

/-- The length of the header, from its first byte. -/
def headerLength (frame : List UInt8) : ℕ := 4 * ((byteAt frame 0).toNat % 16)

/-- The lengths a frame gives for its parts fit the bytes that were received: there is a header, its
length is at least that of a header without options, and a message of the routing protocol carries
the entries it announces. -/
structure WholeFrame (order : ByteOrder) (frame : List UInt8) : Prop where
  header : 20 ≤ frame.length
  options : 20 ≤ headerLength frame
  payload : headerLength frame ≤ frame.length
  entries : byteAt frame 9 = ripProto →
    headerLength frame + 4 + 12 * (readCount order (frame.drop (headerLength frame))).toNat ≤
      frame.length

/-- The values of the entry at an offset of a frame. -/
def entryAt (order : ByteOrder) (frame : List UInt8) (offset : ℕ) : Entry :=
  (Entry.load order (frame.drop offset)).ntoh order

/-- The handling of a frame stays inside it: it has the same effect, whatever lies behind it; a frame
that is not whole changes neither the table nor a queue; and what is learned are entries that lie
wholly inside the frame. -/
structure Node.ParsesInside (node : Node) (frame : List UInt8) (next : UInt32)
    (clock : ℕ → Timeval) : Prop where
  bounded : ∀ stale stale', node.transferData (frame ++ stale) frame.length next clock =
    node.transferData (frame ++ stale') frame.length next clock
  rejected : ¬ WholeFrame node.order frame → ∀ stale,
    node.SameState (node.transferData (frame ++ stale) frame.length next clock)
  learned : ∀ stale (a : UInt32) (ets : EntryWts),
    (node.transferData (frame ++ stale) frame.length next clock).rtable[a]? = some ets →
      node.rtable[a]? = some ets ∨ ∃ offset now, offset + 12 ≤ frame.length ∧
        ets = (entryAt node.order frame offset).route next now

/-- A frame is for the node itself and not for its routing layer: it is printed. -/
def Node.Prints (node : Node) (data : List UInt8) : Prop :=
  ChecksumValid node.order data ∧ byteAt data 9 ≠ ripProto ∧ node.IsDestination data

/-- Nothing acts on a frame, whatever lies behind it, and it is printed only if it has a header and
what the header gives for its length lies inside it. -/
def Node.InertInside (node : Node) (frame : List UInt8) (next : UInt32) : Prop :=
  ∀ stale, node.Unmoved (frame ++ stale) next ∧
    (node.Prints (frame ++ stale) → 20 ≤ frame.length ∧ headerLength frame ≤ frame.length)

/-! ### The memory behind a message -/

theorem load16_append_left {bytes : List UInt8} (stale : List UInt8) (order : ByteOrder) {offset : ℕ}
    (h : offset + 2 ≤ bytes.length) :
    load16 order (bytes ++ stale) offset = load16 order bytes offset := by
  unfold load16
  rw [byteAt_append_left stale (by omega), byteAt_append_left stale (by omega)]

theorem load_append_left {bytes : List UInt8} (stale : List UInt8) (order : ByteOrder)
    (h : 12 ≤ bytes.length) : Entry.load order (bytes ++ stale) = Entry.load order bytes := by
  unfold Entry.load
  rw [load32_append_left stale order (by omega), load32_append_left stale order (by omega),
    load32_append_left stale order (by omega)]

/-- Assumes: a message that carries the entries it announces. -/
theorem Node.updateRouteTable_append (node : Node) {data : List UInt8} (stale : List UInt8)
    (next : UInt32) (clock : ℕ → Timeval)
    (h : 2 + 12 * (ntohs node.order (load16 node.order data 0)).toNat ≤ data.length) :
    node.updateRouteTable (data ++ stale) next clock = node.updateRouteTable data next clock := by
  unfold updateRouteTable
  dsimp only
  rw [load16_append_left stale _ (by omega), List.drop_append_of_le_length (by omega)]
  congr 1
  refine List.foldl_ext _ _ _ fun table i hi ↦ ?_
  have hturn := List.mem_range.mp hi
  rw [List.drop_append_of_le_length (by rw [List.length_drop]; omega),
    load_append_left stale _ (by rw [List.length_drop, List.length_drop]; omega)]

/-- Assumes: a message that carries the entries it announces. -/
theorem Node.transferIpToRip_append (node : Node) {data : List UInt8} (stale : List UInt8)
    (next : UInt32) (clock : ℕ → Timeval)
    (h : 4 + 12 * (readCount node.order data).toNat ≤ data.length) :
    node.transferIpToRip (data ++ stale) next clock = node.transferIpToRip data next clock := by
  have hcount : 2 + 12 * (ntohs node.order (load16 node.order (data.drop 2) 0)).toNat ≤
      (data.drop 2).length := by
    rw [List.length_drop]
    change 2 + 12 * (readCount node.order data).toNat ≤ data.length - 2
    omega
  unfold transferIpToRip
  dsimp only
  rw [load16_append_left stale _ (by omega), List.drop_append_of_le_length (by omega),
    updateRouteTable_append node stale next clock hcount]

/-! ### What is printed of a frame -/

/-- The output for a packet for the node itself ends where the packet ends: a byte is cleared
there. Assumes: a header, and a length it gives for itself that lies inside the packet. -/
theorem Node.delivery_append (node : Node) {frame : List UInt8} (hheader : 20 ≤ frame.length)
    (hpayload : headerLength frame ≤ frame.length) (stale : List UInt8) (next : UInt32) :
    node.delivery (frame ++ stale) frame.length next = node.delivery frame frame.length next := by
  let cleared := overwrite frame csumOffset [0, 0]
  have hlength : cleared.length = frame.length := length_overwrite _ _ _
  have hclear : overwrite (frame ++ stale) csumOffset [0, 0] = cleared ++ stale := by
    apply overwrite_append_left
    unfold csumOffset
    rw [List.length_cons, List.length_singleton]
    omega
  have hend : ∀ stale, ∃ rest, overwrite (cleared ++ stale) frame.length [0] = cleared ++ rest ∧
      rest.takeWhile (fun b ↦ decide (b ≠ 0)) = [] := by
    intro stale
    rw [← hlength]
    cases stale with
    | nil =>
      refine ⟨[], ?_, rfl⟩
      rw [overwrite, overwrite, List.append_nil, List.set_eq_of_length_le (le_refl _)]
    | cons b rest => exact ⟨0 :: rest, overwrite_append [0] cleared [b] rest rfl, rfl⟩
  have hsame : ∀ rest, rest.takeWhile (fun b ↦ decide (b ≠ 0)) = [] →
      ((cleared ++ rest).drop (headerLength frame)).takeWhile (fun b ↦ decide (b ≠ 0)) =
        (cleared.drop (headerLength frame)).takeWhile (fun b ↦ decide (b ≠ 0)) := by
    intro rest hrest
    rw [List.drop_append_of_le_length (hlength.symm ▸ hpayload), List.takeWhile_append]
    split_ifs with hall
    · rw [hrest, List.append_nil]
      exact (List.takeWhile_prefix _).eq_of_length hall |>.symm
    · rfl
  obtain ⟨rest, hrest, hstop⟩ := hend stale
  obtain ⟨none', hnone, hstop'⟩ := hend []
  rw [List.append_nil] at hnone
  have hzero : byteAt (frame ++ stale) 0 = byteAt frame 0 := byteAt_append_left stale (by omega)
  have hproto : byteAt (frame ++ stale) 9 = byteAt frame 9 := byteAt_append_left stale (by omega)
  unfold Node.delivery
  dsimp only
  rw [hclear, hrest, hnone, hzero, hproto]
  have hword : ∀ rest offset, offset + 4 ≤ 20 →
      load32 .big (cleared ++ rest) offset = load32 .big cleared offset :=
    fun rest offset hoffset ↦ load32_append_left rest .big (by omega)
  rw [hword rest 12 (by omega), hword none' 12 (by omega), hword rest 16 (by omega),
    hword none' 16 (by omega)]
  congr 1
  exact (hsame rest hstop).trans (hsame none' hstop').symm

/-! ### Whole frames -/

namespace WholeFrame

variable {node : Node} {frame : List UInt8}

theorem headerLength_append (h : WholeFrame node.order frame) (stale : List UInt8) :
    headerLength (frame ++ stale) = headerLength frame := by
  have hheader := h.header
  unfold headerLength
  rw [byteAt_append_left stale (by omega)]

/-- What the routing layer is handed. -/
theorem ripPayload_append (h : WholeFrame node.order frame) (stale : List UInt8) :
    ripPayload (frame ++ stale) = frame.drop (headerLength frame) ++ stale := by
  have hoptions := h.options
  change (overwrite (frame ++ stale) csumOffset [0, 0]).drop (headerLength (frame ++ stale)) = _
  rw [h.headerLength_append, drop_overwrite _ _ _ _ ?_, List.drop_append_of_le_length h.payload]
  unfold csumOffset
  rw [List.length_cons, List.length_singleton]
  omega

theorem delivery_append (h : WholeFrame node.order frame) (stale : List UInt8) (next : UInt32) :
    node.delivery (frame ++ stale) frame.length next = node.delivery frame frame.length next :=
  node.delivery_append h.header h.payload stale next

/-- What lies behind a whole frame does not matter. -/
theorem transferData_append (h : WholeFrame node.order frame) (stale : List UInt8) (next : UInt32)
    (clock : ℕ → Timeval) : node.transferData (frame ++ stale) frame.length next clock =
      node.transferData frame frame.length next clock := by
  have hheader := h.header
  have hsum := checksumValid_append_left stale node.order hheader
  have hproto : byteAt (frame ++ stale) 9 = byteAt frame 9 := byteAt_append_left stale (by omega)
  have hword : load32 node.order (frame ++ stale) 16 = load32 node.order frame 16 :=
    load32_append_left stale _ hheader
  by_cases hvalid : ChecksumValid node.order frame
  · by_cases hrip : byteAt frame 9 = ripProto
    · rw [Node.transferData_rip (hsum.mpr hvalid) (hproto.trans hrip),
        Node.transferData_rip hvalid hrip]
      have hpayload := h.ripPayload_append []
      rw [List.append_nil, List.append_nil] at hpayload
      have hentries := h.entries hrip
      rw [h.ripPayload_append, hpayload, node.transferIpToRip_append stale next clock
        (by rw [List.length_drop]; omega)]
    · have hrip' : byteAt (frame ++ stale) 9 ≠ ripProto := hproto.symm ▸ hrip
      cases hdest : node.isDestinedToMe (ntohl node.order (load32 node.order frame 16)) with
      | true =>
        rw [Node.transferData_deliver (hsum.mpr hvalid) hrip' (by rw [hword]; exact hdest),
          Node.transferData_deliver hvalid hrip hdest, h.delivery_append]
      | false =>
        have httl : forwardedTtl node.order (frame ++ stale) = forwardedTtl node.order frame := by
          unfold forwardedTtl ttlOffset
          rw [byteAt_append_left stale (by omega)]
        rw [Node.transferData_forward (hsum.mpr hvalid) hrip' (by rw [hword]; exact hdest),
          Node.transferData_forward hvalid hrip hdest, httl, hword,
          forwardedFrame_append_left stale _ hheader]
        unfold Node.transferTransitData
        rw [List.take_append_of_le_length (length_forwardedFrame _ _).ge]
  · rw [Node.transferData_invalid hvalid, Node.transferData_invalid fun hold ↦ hvalid (hsum.mp hold)]

/-- What is learned from a whole frame are entries that lie in it. -/
theorem learned (h : WholeFrame node.order frame) (next : UInt32) (clock : ℕ → Timeval) {a : UInt32}
    {ets : EntryWts}
    (hets : (node.transferData frame frame.length next clock).rtable[a]? = some ets) :
    node.rtable[a]? = some ets ∨ ∃ offset now, offset + 12 ≤ frame.length ∧
      ets = (entryAt node.order frame offset).route next now := by
  rcases node.transferData_cases frame frame.length next clock with
    ⟨haccepts, hrip⟩ | ⟨-, queue, output, hother⟩
  · have hpayload := h.ripPayload_append []
    have hentries := h.entries haccepts.2.1
    rw [List.append_nil, List.append_nil] at hpayload
    rw [hrip, hpayload] at hets
    rcases Node.transferIpToRip_origin hets with hold | ⟨e, hentry, now, rfl⟩
    · exact Or.inl hold
    · obtain ⟨turn, hturn, rfl⟩ := List.mem_map.mp hentry
      have hlt := List.mem_range.mp hturn
      refine Or.inr ⟨headerLength frame + 4 + 12 * turn, now, by omega, ?_⟩
      have hread : readEntry node.order (frame.drop (headerLength frame)) turn =
          entryAt node.order frame (headerLength frame + 4 + 12 * turn) := by
        unfold readEntry entryAt
        rw [List.drop_drop, List.drop_drop, List.drop_drop]
        congr 3
        omega
      rw [hread]
  · rw [hother] at hets
    exact Or.inl hets

end WholeFrame

/-! ### Frames that are not whole -/

namespace Node

variable {node : Node} {frame : List UInt8}

/-- The handling of a frame leaves alone all but the table, the queue of packets and the output. -/
theorem transferData_changes (node : Node) (data : List UInt8) (len : ℕ) (next : UInt32)
    (clock : ℕ → Timeval) : ∃ table queue output, node.transferData data len next clock =
      { node with rtable := table, incomingqueue := queue, output := output } := by
  rcases node.transferData_cases data len next clock with ⟨-, hrip⟩ | ⟨-, queue, output, hother⟩
  · rcases node.transferIpToRip_cases (ripPayload data) next clock with
      ⟨-, hrun⟩ | ⟨-, hrun⟩ | ⟨-, -, hrun⟩
    · rw [hrip, hrun, prepareMsg_eq]
      exact ⟨node.rtable, _, node.output, rfl⟩
    · rw [hrip, hrun]
      exact ⟨_, node.incomingqueue, node.output, rfl⟩
    · rw [hrip, hrun]
      exact ⟨node.rtable, node.incomingqueue, node.output, rfl⟩
  · exact ⟨node.rtable, _, output, hother⟩

/-- A frame that moves nothing and is not printed changes nothing. -/
theorem transferData_eq_self {data : List UInt8} {next : UInt32} (hunmoved : node.Unmoved data next)
    (hprints : ¬ node.Prints data) (len : ℕ) (clock : ℕ → Timeval) :
    node.transferData data len next clock = node := by
  have hsame := (node.transferData_unmoved_iff data len next clock).mpr hunmoved
  have houtput := (node.transferData_output_iff data len next clock).mpr hprints
  obtain ⟨table, queue, output, hrun⟩ := node.transferData_changes data len next clock
  rw [hrun] at hsame houtput ⊢
  obtain rfl : table = node.rtable := hsame.rtable
  obtain rfl : queue = node.incomingqueue := hsame.incomingqueue
  obtain rfl : output = node.output := houtput
  rfl

theorem Prints.transferData_eq {data : List UInt8} (h : node.Prints data) (len : ℕ) (next : UInt32)
    (clock : ℕ → Timeval) : node.transferData data len next clock =
      { node with output := node.output ++ [node.delivery data len next] } :=
  transferData_deliver h.1 h.2.1 h.2.2 len next clock

/-- Whether a frame with a header is printed does not depend on what lies behind it. -/
theorem prints_append_iff (hheader : 20 ≤ frame.length) (stale : List UInt8) :
    node.Prints (frame ++ stale) ↔ node.Prints frame := by
  unfold Prints IsDestination
  rw [checksumValid_append_left stale node.order hheader, byteAt_append_left stale (by omega),
    load32_append_left stale node.order (by omega)]

/-- Behind a frame without a whole header there can be bytes with which it fails the checksum
test. -/
theorem exists_not_checksumValid (order : ByteOrder) (hheader : frame.length < 20) :
    ∃ stale, ¬ ChecksumValid order (frame ++ stale) := by
  let zeros : List UInt8 := List.replicate 20 0
  by_cases hvalid : ChecksumValid order (frame ++ zeros)
  · -- the last byte of the header is one of those behind the frame, and was zero
    have hlength : (frame ++ zeros).length = frame.length + 20 := by
      rw [List.length_append, List.length_replicate]
    have hset : (frame ++ zeros).set 19 1 = frame ++ zeros.set (19 - frame.length) 1 := by
      rw [List.set_append_right _ _ (by omega)]
    have hlast : byteAt (frame ++ zeros) 19 = 0 := by
      rw [byteAt_append, if_neg (by omega)]
      unfold byteAt
      rw [List.getD_eq_getElem?_getD, List.getElem?_replicate]
      split_ifs <;> rfl
    have hchanged : byteAt ((frame ++ zeros).set 19 1) 19 = 1 := by
      rw [byteAt_set, if_pos ⟨rfl, by omega⟩]
    have hcorrupts : Corrupts 9 (frame ++ zeros) ((frame ++ zeros).set 19 1) := by
      refine ⟨by decide, List.length_set, fun i _ hi ↦ ?_, fun hsame ↦ ?_, fun _ ↦ ⟨?_, ?_⟩⟩
      · rw [byteAt_set, if_neg fun h ↦ hi h.1]
      · rw [hsame, hlast] at hchanged
        exact absurd hchanged (by decide)
      · rintro ⟨-, hones⟩
        have hbyte := (word16_inj (hones.trans (by rfl : (0xFFFF : UInt16) = word16 .big 255 255))).2
        rw [hchanged] at hbyte
        exact absurd hbyte (by decide)
      · rintro ⟨hones, -⟩
        have hbyte := (word16_inj (hones.trans (by rfl : (0xFFFF : UInt16) = word16 .big 255 255))).2
        rw [hlast] at hbyte
        exact absurd hbyte (by decide)
    refine ⟨zeros.set (19 - frame.length) 1, ?_⟩
    rw [← hset]
    exact hcorrupts.not_checksumValid (by omega) hvalid
  · exact ⟨zeros, hvalid⟩

/-- What is printed of a packet whose header is longer than the packet comes from behind it. -/
theorem delivery_outside (node : Node) (hheader : 20 ≤ frame.length)
    (hpayload : frame.length < headerLength frame) (next : UInt32) :
    ∃ stale, node.delivery (frame ++ stale) frame.length next ≠
      node.delivery frame frame.length next := by
  let gap := headerLength frame - frame.length
  let stale : List UInt8 := List.replicate gap 0 ++ [1]
  refine ⟨stale, fun hsame ↦ ?_⟩
  have hpayloads := congrArg Delivery.payload hsame
  unfold Node.delivery at hpayloads
  dsimp only at hpayloads
  have hzero : byteAt (frame ++ stale) 0 = byteAt frame 0 := byteAt_append_left stale (by omega)
  have hskip : ∀ data : List UInt8, (overwrite (overwrite data csumOffset [0, 0]) frame.length
      [0]).drop (headerLength frame) = data.drop (headerLength frame) := by
    intro data
    rw [drop_overwrite _ _ _ _ (by rw [List.length_singleton]; omega), drop_overwrite]
    unfold csumOffset
    rw [List.length_cons, List.length_singleton]
    omega
  have hfirst : (frame ++ stale).drop (headerLength frame) = [1] := by
    have hlength : headerLength frame = (frame ++ List.replicate gap 0).length := by
      rw [List.length_append, List.length_replicate]
      omega
    rw [← List.append_assoc, hlength, List.drop_left]
  rw [hzero] at hpayloads
  change ((overwrite (overwrite (frame ++ stale) csumOffset [0, 0]) frame.length [0]).drop
    (headerLength frame)).takeWhile _ = ((overwrite (overwrite frame csumOffset [0, 0])
      frame.length [0]).drop (headerLength frame)).takeWhile _ at hpayloads
  rw [hskip, hskip, hfirst, List.drop_eq_nil_of_le hpayload.le] at hpayloads
  exact absurd hpayloads (by decide)

/-- Nothing that lies behind such a frame has an effect. -/
theorem InertInside.bounded {next : UInt32} (h : node.InertInside frame next)
    (clock : ℕ → Timeval) (stale stale' : List UInt8) :
    node.transferData (frame ++ stale) frame.length next clock =
      node.transferData (frame ++ stale') frame.length next clock := by
  obtain ⟨hunmoved, hinside⟩ := h stale
  obtain ⟨hunmoved', hinside'⟩ := h stale'
  by_cases hprints : node.Prints (frame ++ stale)
  · obtain ⟨hheader, hpayload⟩ := hinside hprints
    have hprints' := (prints_append_iff hheader stale').mpr ((prints_append_iff hheader stale).mp hprints)
    rw [hprints.transferData_eq, hprints'.transferData_eq,
      node.delivery_append hheader hpayload stale, node.delivery_append hheader hpayload stale']
  · have hprints' : ¬ node.Prints (frame ++ stale') := fun hprints' ↦ by
      obtain ⟨hheader, -⟩ := hinside' hprints'
      exact hprints ((prints_append_iff hheader stale).mpr
        ((prints_append_iff hheader stale').mp hprints'))
    rw [transferData_eq_self hunmoved hprints, transferData_eq_self hunmoved' hprints']

/-- A frame that is printed has a header and begins to be printed inside it, if what lies behind it
has no effect. -/
theorem Prints.inside {next : UInt32} {clock : ℕ → Timeval} {stale : List UInt8}
    (h : node.Prints (frame ++ stale))
    (hbounded : ∀ stale stale', node.transferData (frame ++ stale) frame.length next clock =
      node.transferData (frame ++ stale') frame.length next clock) :
    20 ≤ frame.length ∧ headerLength frame ≤ frame.length := by
  have hheader : 20 ≤ frame.length := by
    by_contra hshort
    obtain ⟨stale', hinvalid⟩ := exists_not_checksumValid node.order (Nat.not_le.mp hshort)
    have hsame := congrArg output (hbounded stale stale')
    rw [h.transferData_eq, transferData_invalid hinvalid] at hsame
    exact List.cons_ne_nil _ _ (List.append_right_eq_self.mp hsame)
  refine ⟨hheader, ?_⟩
  by_contra hlong
  obtain ⟨stale', hother⟩ := node.delivery_outside hheader (Nat.not_le.mp hlong) next
  have hprints := (prints_append_iff hheader stale).mp h
  have hprints' := (prints_append_iff hheader stale').mpr hprints
  have hsame := congrArg output (hbounded stale' [])
  rw [List.append_nil, hprints'.transferData_eq, hprints.transferData_eq] at hsame
  exact hother (List.cons.inj (List.append_cancel_left hsame)).1

end Node

/-- The handling of a frame stays inside it exactly when the frame is whole, or nothing acts on it
whatever lies behind it and what is printed of it, if anything, begins inside it. -/
theorem parsing_inside_iff (node : Node) (frame : List UInt8) (next : UInt32) (clock : ℕ → Timeval) :
    node.ParsesInside frame next clock ↔
      WholeFrame node.order frame ∨ node.InertInside frame next := by
  have hunmoved := fun stale ↦
    node.transferData_unmoved_iff (frame ++ stale) frame.length next clock
  constructor
  · intro hinside
    by_cases hwhole : WholeFrame node.order frame
    · exact Or.inl hwhole
    · exact Or.inr fun stale ↦ ⟨(hunmoved stale).mp (hinside.rejected hwhole stale),
        fun hprints ↦ hprints.inside hinside.bounded⟩
  · intro hcases
    by_cases hwhole : WholeFrame node.order frame
    · refine ⟨fun stale stale' ↦ ?_, fun hnot ↦ absurd hwhole hnot, fun stale a ets hets ↦ ?_⟩
      · rw [hwhole.transferData_append, hwhole.transferData_append]
      · rw [hwhole.transferData_append] at hets
        exact hwhole.learned next clock hets
    · have hinert := hcases.resolve_left hwhole
      have hsame := fun stale ↦ (hunmoved stale).mpr (hinert stale).1
      refine ⟨hinert.bounded clock, fun _ ↦ hsame, fun stale a ets hets ↦ ?_⟩
      rw [(hsame stale).rtable] at hets
      exact Or.inl hets

/-- A response that announces one entry and carries none. -/
def emptyResponse : List UInt8 :=
  buildIpPacket .little 0x0A000002 0x0A000001 ripProto [0, 2, 0, 1] 4

/-- What may lie behind it: the entry of an earlier response. -/
def leftOver : List UInt8 := [0, 0, 0, 1, 10, 0, 0, 9, 255, 255, 255, 255]

/-- The response without its entry installs a route that was read behind it. -/
theorem parsing_outside : ChecksumValid leafNode.order (emptyResponse ++ leftOver) ∧
    ¬ leafNode.ParsesInside emptyResponse 0x0A000001 fun _ ↦ seconds 0 := by
  refine ⟨by decide, fun hinside ↦ ?_⟩
  have hshort : ¬ WholeFrame leafNode.order emptyResponse := by
    intro hwhole
    exact absurd (hwhole.entries (by decide)) (by decide)
  have hinstalled : (leafNode.transferData (emptyResponse ++ leftOver) emptyResponse.length
      0x0A000001 fun _ ↦ seconds 0).rtable[(0x0A000009 : UInt32)]? ≠
        leafNode.rtable[(0x0A000009 : UInt32)]? := by decide +kernel
  have hsame := hinside.rejected hshort leftOver
  exact hinstalled (congrArg (·[(0x0A000009 : UInt32)]?) hsame.rtable)

end IpRipStack
