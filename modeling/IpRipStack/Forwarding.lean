import IpRipStack.NetworkLayer
import Mathlib.Data.List.Basic

/-!
# Packets in transit

What the forwarding branch of `transfer_data` does to a packet on its way through any nodes. A `Hop`
is a node in whatever state the packet finds it, with whatever the memory behind the packet holds;
`Hop.carry` is the frame that node sends on, if it sends one, and `Hop.Routes` says that the node
has a route for it.

The branch decrements a sixteen-bit word made of the one byte of the time-to-live, and stores two
bytes where the header has one. `ttl_forwardedFrame` and `protocol_forwardedFrame` say what the two
bytes then are: the decremented time-to-live followed by `0xFF` on a little-endian host, zero
followed by the decremented time-to-live on a big-endian one, where only the test against zero
works. No other byte but the checksum changes (`byteAt_forwardedFrame`).

`ttl_respected_iff` and `transparent_iff` follow these bytes along whole journeys: exactly when the
time-to-live bounds forwarding, and exactly when the protocol survives it.
-/

set_option autoImplicit false
set_option relaxedAutoImplicit false

namespace IpRipStack

open MachineWord

/-- The time-to-live of a frame. -/
def ttl (frame : List UInt8) : UInt8 := byteAt frame ttlOffset

/-- A node on a packet's way, in the state in which the packet finds it: the address of the
interface the packet is attributed to, the memory behind the packet, the clock. -/
structure Hop where
  node : Node
  next : UInt32
  stale : List UInt8
  clock : ℕ → Timeval

/-- The frame the node queues when it handles a packet that is not of the routing protocol. -/
def Hop.carry (hop : Hop) (frame : List UInt8) : Option (List UInt8) :=
  if byteAt frame 9 = ripProto then none
  else
    let node' := hop.node.transferData (frame ++ hop.stale) frame.length hop.next hop.clock
    (node'.incomingqueue.drop hop.node.incomingqueue.length).head?.map IpMsg.packet

/-- The node has a route for a packet: the checksum is valid, the packet is neither of the routing
protocol nor for the node itself, and the lookup of its destination leads to an interface. -/
def Hop.Routes (hop : Hop) (frame : List UInt8) : Prop :=
  let dest := ntohl hop.node.order (load32 hop.node.order frame 16)
  ChecksumValid hop.node.order frame ∧ byteAt frame 9 ≠ ripProto ∧
    hop.node.isDestinedToMe dest = false ∧
    (hop.node.getInterface (hop.node.getNextAddress dest defaultAddr)).isSome = true

/-! ### The memory behind the packet does not matter -/

section Stale

variable {frame : List UInt8} (stale : List UInt8)

theorem byteAt_append_left {offset : ℕ} (h : offset < frame.length) :
    byteAt (frame ++ stale) offset = byteAt frame offset := by
  rw [byteAt_append, if_pos h]

theorem overwrite_append_left (bytes : List UInt8) : ∀ (frame : List UInt8) (offset : ℕ),
    offset + bytes.length ≤ frame.length →
      overwrite (frame ++ stale) offset bytes = overwrite frame offset bytes ++ stale := by
  induction bytes with
  | nil => intro frame offset h; rfl
  | cons b rest ih =>
    intro frame offset h
    rw [List.length_cons] at h
    have hset : (frame ++ stale).set offset b = frame.set offset b ++ stale := by
      rw [List.set_append, if_pos (by omega)]
    rw [overwrite, overwrite, hset, ih _ _ (by rw [List.length_set]; omega)]

theorem ipSum_append_left (order : ByteOrder) {len : ℕ} (h : len ≤ frame.length) :
    ipSum order (frame ++ stale) len = ipSum order frame len := by
  unfold ipSum
  rw [List.take_append_of_le_length h]

theorem load32_append_left (order : ByteOrder) {offset : ℕ} (h : offset + 4 ≤ frame.length) :
    load32 order (frame ++ stale) offset = load32 order frame offset := by
  unfold load32
  rw [byteAt_append_left stale (by omega), byteAt_append_left stale (by omega),
    byteAt_append_left stale (by omega), byteAt_append_left stale (by omega)]

/-- The checksum covers the header alone. -/
theorem checksumValid_append_left (order : ByteOrder) (h : 20 ≤ frame.length) :
    ChecksumValid order (frame ++ stale) ↔ ChecksumValid order frame := by
  unfold ChecksumValid load16 csumOffset
  rw [overwrite_append_left stale _ _ _ (by rw [List.length_cons, List.length_singleton]; omega),
    ipSum_append_left stale order (by rw [length_overwrite]; exact h),
    byteAt_append_left stale (by omega), byteAt_append_left stale (by omega)]

theorem forwardedFrame_append_left (order : ByteOrder) (h : 20 ≤ frame.length) :
    forwardedFrame order (frame ++ stale) = forwardedFrame order frame ++ stale := by
  have hbyte : byteAt (frame ++ stale) ttlOffset = byteAt frame ttlOffset :=
    byteAt_append_left stale (by unfold ttlOffset; omega)
  have hclear : ∀ data : List UInt8, data.length = frame.length →
      overwrite (data ++ stale) csumOffset [0, 0] = overwrite data csumOffset [0, 0] ++ stale := by
    intro data hdata
    apply overwrite_append_left
    unfold csumOffset
    rw [List.length_cons, List.length_singleton]
    omega
  have hstore : ∀ (data : List UInt8) (offset : ℕ) (x : UInt16), data.length = frame.length →
      offset ≤ csumOffset → overwrite (data ++ stale) offset (store16 order x) =
        overwrite data offset (store16 order x) ++ stale := by
    intro data offset x hdata hoffset
    apply overwrite_append_left
    unfold csumOffset at hoffset
    rw [length_store16]
    omega
  unfold forwardedFrame forwardedTtl
  dsimp only
  rw [hbyte, hclear frame rfl, hstore _ _ _ (length_overwrite _ _ _) (by decide),
    hclear _ (by rw [length_overwrite, length_overwrite]),
    ipSum_append_left stale order (by simp only [length_overwrite]; exact h),
    hstore _ _ _ (by simp only [length_overwrite]) le_rfl]

end Stale

/-! ### The bytes a forwarded frame carries -/

@[simp] theorem length_forwardedFrame (order : ByteOrder) (frame : List UInt8) :
    (forwardedFrame order frame).length = frame.length := by
  simp only [forwardedFrame, length_overwrite]

/-- Besides the checksum the branch stores the two bytes of the decremented word, in network order,
where the time-to-live and the protocol are. -/
theorem byteAt_forwardedFrame (order : ByteOrder) {frame : List UInt8} (h : 20 ≤ frame.length)
    {offset : ℕ} (hlow : offset ≠ 10) (hhigh : offset ≠ 11) :
    byteAt (forwardedFrame order frame) offset =
      if 8 ≤ offset ∧ offset < 10 then byteAt (store16 .big (forwardedTtl order frame)) (offset - 8)
      else byteAt frame offset := by
  have hkept : ∀ (data bytes : List UInt8), bytes.length = 2 →
      byteAt (overwrite data csumOffset bytes) offset = byteAt data offset := by
    intro data bytes hbytes
    rw [byteAt_overwrite, if_neg]
    unfold csumOffset
    omega
  unfold forwardedFrame
  dsimp only
  rw [hkept _ _ (length_store16 _ _), hkept _ _ rfl, store16_htons, byteAt_overwrite,
    length_store16, length_overwrite, hkept _ _ rfl]
  unfold ttlOffset
  split_ifs with hstored hword hword
  · rfl
  · omega
  · omega
  · rfl

theorem toNat_forwardedTtl_little (frame : List UInt8) :
    (forwardedTtl .little frame).toNat = (256 * (ttl frame).toNat + 65535) % 65536 := by
  have ht := (byteAt frame ttlOffset).toNat_lt
  unfold forwardedTtl ttl ntohs
  rw [UInt16.toNat_sub, toNat_swap16, UInt8.toNat_toUInt16, UInt16.toNat_one,
    Nat.mod_eq_of_lt ht, Nat.div_eq_of_lt ht]
  omega

theorem toNat_forwardedTtl_big (frame : List UInt8) :
    (forwardedTtl .big frame).toNat = ((ttl frame).toNat + 65535) % 65536 := by
  have ht := (byteAt frame ttlOffset).toNat_lt
  unfold forwardedTtl ttl ntohs
  rw [UInt16.toNat_sub, UInt8.toNat_toUInt16, UInt16.toNat_one]
  omega

/-- The time-to-live a forwarded frame carries: on a little-endian host one less than it had, below
zero `255`; on a big-endian host the high half of a word that has nothing there unless it wraps. -/
theorem toNat_ttl_forwardedFrame (order : ByteOrder) {frame : List UInt8} (h : 20 ≤ frame.length) :
    (ttl (forwardedFrame order frame)).toNat =
      match order with
      | .little => ((ttl frame).toNat + 255) % 256
      | .big => if (ttl frame).toNat = 0 then 255 else 0 := by
  have ht := (ttl frame).toNat_lt
  have hbyte : (ttl (forwardedFrame order frame)).toNat = (forwardedTtl order frame).toNat / 256 := by
    have hx := (forwardedTtl order frame).toNat_lt
    unfold ttl ttlOffset
    rw [byteAt_forwardedFrame order h (by decide) (by decide), if_pos (by decide)]
    simp only [store16, byteAt_cons_zero, Nat.sub_self, UInt8.toNat_ofNat']
    omega
  rw [hbyte]
  cases order with
  | little =>
    dsimp only
    rw [toNat_forwardedTtl_little]
    omega
  | big =>
    dsimp only
    rw [toNat_forwardedTtl_big]
    split_ifs <;> omega

/-- The protocol a forwarded frame carries is the low half of the decremented word. -/
theorem toNat_protocol_forwardedFrame (order : ByteOrder) {frame : List UInt8}
    (h : 20 ≤ frame.length) :
    (byteAt (forwardedFrame order frame) 9).toNat =
      match order with
      | .little => 255
      | .big => ((ttl frame).toNat + 255) % 256 := by
  have ht := (ttl frame).toNat_lt
  have hbyte : (byteAt (forwardedFrame order frame) 9).toNat =
      (forwardedTtl order frame).toNat % 256 := by
    rw [byteAt_forwardedFrame order h (by decide) (by decide), if_pos (by decide)]
    simp only [store16, byteAt_cons_zero, byteAt_cons_succ, Nat.reduceSub, UInt8.toNat_ofNat']
    omega
  rw [hbyte]
  cases order with
  | little =>
    dsimp only
    rw [toNat_forwardedTtl_little]
    omega
  | big =>
    dsimp only
    rw [toNat_forwardedTtl_big]
    omega

/-- The test against zero drops no packet on a little-endian host, and on a big-endian one those
with a time-to-live of one. -/
theorem forwardedTtl_eq_zero_iff (order : ByteOrder) (frame : List UInt8) :
    forwardedTtl order frame = 0 ↔ order = .big ∧ (ttl frame).toNat = 1 := by
  have ht := (ttl frame).toNat_lt
  rw [← UInt16.toNat_inj, UInt16.toNat_zero]
  cases order with
  | little =>
    rw [toNat_forwardedTtl_little]
    constructor
    · intro h
      omega
    · rintro ⟨h, -⟩
      cases h
  | big =>
    rw [toNat_forwardedTtl_big]
    constructor
    · intro h
      exact ⟨rfl, by omega⟩
    · rintro ⟨-, h⟩
      omega

/-! ### What a node sends on -/

namespace Hop

variable {hop : Hop} {frame : List UInt8}

theorem carry_of_queued (hproto : byteAt frame 9 ≠ ripProto) {queue : List IpMsg}
    (hqueue : (hop.node.transferData (frame ++ hop.stale) frame.length hop.next
      hop.clock).incomingqueue = hop.node.incomingqueue ++ queue) :
    hop.carry frame = queue.head?.map IpMsg.packet := by
  unfold carry
  dsimp only
  rw [if_neg hproto, hqueue, List.drop_left]

theorem carry_of_unchanged (hproto : byteAt frame 9 ≠ ripProto)
    (hqueue : (hop.node.transferData (frame ++ hop.stale) frame.length hop.next
      hop.clock).incomingqueue = hop.node.incomingqueue) : hop.carry frame = none := by
  rw [carry_of_queued hproto (hqueue.trans (List.append_nil _).symm)]
  rfl

/-- The forwarding branch of a hop. Assumes: a packet with a whole header, a valid checksum, another
protocol and another destination. -/
theorem transferData_eq (h : 20 ≤ frame.length) (hsum : ChecksumValid hop.node.order frame)
    (hproto : byteAt frame 9 ≠ ripProto)
    (hdest : hop.node.isDestinedToMe (ntohl hop.node.order (load32 hop.node.order frame 16)) = false) :
    hop.node.transferData (frame ++ hop.stale) frame.length hop.next hop.clock =
      if forwardedTtl hop.node.order frame = 0 then hop.node
      else hop.node.transferTransitData (ntohl hop.node.order (load32 hop.node.order frame 16))
        (forwardedFrame hop.node.order frame ++ hop.stale) frame.length := by
  have hword : load32 hop.node.order (frame ++ hop.stale) 16 = load32 hop.node.order frame 16 :=
    load32_append_left hop.stale _ h
  have hbyte : byteAt (frame ++ hop.stale) ttlOffset = byteAt frame ttlOffset :=
    byteAt_append_left hop.stale (by unfold ttlOffset; omega)
  rw [Node.transferData_forward ((checksumValid_append_left hop.stale _ h).mpr hsum)
    (by rwa [byteAt_append_left hop.stale (by omega)]) (by rwa [hword]),
    forwardedFrame_append_left hop.stale _ h, hword]
  unfold forwardedTtl
  rw [hbyte]

/-- A node that has a route for a packet sends it on, unless the decremented word is zero. -/
theorem carry_of_routes (h : 20 ≤ frame.length) (hroutes : hop.Routes frame)
    (hword : forwardedTtl hop.node.order frame ≠ 0) :
    hop.carry frame = some (forwardedFrame hop.node.order frame) := by
  obtain ⟨hsum, hproto, hdest, hifc⟩ := hroutes
  obtain ⟨ifc, hifc⟩ := Option.isSome_iff_exists.mp hifc
  have hrun := transferData_eq h hsum hproto hdest
  rw [if_neg hword] at hrun
  have hqueue := congrArg Node.incomingqueue hrun
  unfold Node.transferTransitData at hqueue
  simp only [hifc] at hqueue
  rw [carry_of_queued hproto hqueue, List.head?_cons, Option.map_some,
    List.take_left' (length_forwardedFrame _ _)]

/-- A node without a route for a packet, and one whose decremented word is zero, sends nothing. -/
theorem carry_eq_none (h : 20 ≤ frame.length)
    (hnot : hop.Routes frame → forwardedTtl hop.node.order frame = 0) : hop.carry frame = none := by
  by_cases hproto : byteAt frame 9 = ripProto
  · exact if_pos hproto
  by_cases hsum : ChecksumValid hop.node.order frame
  · cases hdest : hop.node.isDestinedToMe
        (ntohl hop.node.order (load32 hop.node.order frame 16)) with
    | true =>
      have hword : load32 hop.node.order (frame ++ hop.stale) 16 = load32 hop.node.order frame 16 :=
    load32_append_left hop.stale _ h
      apply carry_of_unchanged hproto
      rw [Node.transferData_deliver ((checksumValid_append_left hop.stale _ h).mpr hsum)
        (by rwa [byteAt_append_left hop.stale (by omega)]) (by rwa [hword])]
    | false =>
      apply carry_of_unchanged hproto
      rw [transferData_eq h hsum hproto hdest]
      split_ifs with hword
      · rfl
      · cases hifc : hop.node.getInterface (hop.node.getNextAddress
            (ntohl hop.node.order (load32 hop.node.order frame 16)) defaultAddr) with
        | none =>
          unfold Node.transferTransitData
          simp only [hifc]
        | some ifc => exact absurd (hnot ⟨hsum, hproto, hdest, by rw [hifc]; rfl⟩) hword
  · apply carry_of_unchanged hproto
    rw [Node.transferData_invalid]
    rwa [checksumValid_append_left hop.stale _ h]

/-- A node sends a packet on exactly when it has a route for it and the decremented word is not
zero, and then it sends `forwardedFrame`. -/
theorem carry_eq_some_iff (h : 20 ≤ frame.length) {frame' : List UInt8} :
    hop.carry frame = some frame' ↔ hop.Routes frame ∧ forwardedTtl hop.node.order frame ≠ 0 ∧
      frame' = forwardedFrame hop.node.order frame := by
  constructor
  · intro hcarry
    by_contra hnot
    have hcases : hop.Routes frame → forwardedTtl hop.node.order frame = 0 := by
      intro hroutes
      by_contra hword
      rw [carry_of_routes h hroutes hword] at hcarry
      exact hnot ⟨hroutes, hword, (Option.some.inj hcarry).symm⟩
    rw [carry_eq_none h hcases] at hcarry
    exact Option.some_ne_none frame' hcarry.symm
  · rintro ⟨hroutes, hword, rfl⟩
    exact carry_of_routes h hroutes hword

end Hop

/-! ### Journeys -/

/-- How often a packet is sent on when it visits the given nodes. -/
def forwards : List Hop → List UInt8 → ℕ
  | [], _ => 0
  | hop :: hops, frame =>
    match hop.carry frame with
    | none => 0
    | some frame' => forwards hops frame' + 1

/-- Each node that sends the packet on receives it with a time-to-live of at least two, and sends it
with one less. -/
def TtlRespected : List Hop → List UInt8 → Prop
  | [], _ => True
  | hop :: hops, frame =>
    ∀ frame', hop.carry frame = some frame' →
      2 ≤ (ttl frame).toNat ∧ (ttl frame').toNat = (ttl frame).toNat - 1 ∧ TtlRespected hops frame'

/-- Each node that has a route for the packet receives it with a time-to-live it handles right: at
least two on a little-endian host, one on a big-endian host. -/
def TtlServed : List Hop → List UInt8 → Prop
  | [], _ => True
  | hop :: hops, frame =>
    (hop.Routes frame → match hop.node.order with
      | .little => 2 ≤ (ttl frame).toNat
      | .big => (ttl frame).toNat = 1) ∧
    ∀ frame', hop.carry frame = some frame' → TtlServed hops frame'

/-- Where the time-to-live is respected it bounds the journey. -/
theorem TtlRespected.forwards_le {hops : List Hop} {frame : List UInt8}
    (h : TtlRespected hops frame) : forwards hops frame ≤ (ttl frame).toNat - 1 := by
  induction hops generalizing frame with
  | nil => exact Nat.zero_le _
  | cons hop hops ih =>
    unfold forwards
    cases hcarry : hop.carry frame with
    | none => exact Nat.zero_le _
    | some frame' =>
      obtain ⟨htwo, hless, hrest⟩ := h frame' hcarry
      have hle := ih hrest
      dsimp only
      omega

/-- One node respects the time-to-live exactly when it can handle what it receives. -/
theorem Hop.ttl_iff (hop : Hop) {frame : List UInt8} (h : 20 ≤ frame.length) :
    (∀ frame', hop.carry frame = some frame' →
        2 ≤ (ttl frame).toNat ∧ (ttl frame').toNat = (ttl frame).toNat - 1) ↔
      (hop.Routes frame → match hop.node.order with
        | .little => 2 ≤ (ttl frame).toNat
        | .big => (ttl frame).toNat = 1) := by
  have ht := (ttl frame).toNat_lt
  have hzero := forwardedTtl_eq_zero_iff hop.node.order frame
  have hsent := toNat_ttl_forwardedFrame hop.node.order h
  constructor
  · intro hrespects hroutes
    by_cases hword : forwardedTtl hop.node.order frame = 0
    · obtain ⟨horder, hone⟩ := hzero.mp hword
      rw [horder]
      exact hone
    · obtain ⟨htwo, hless⟩ := hrespects _ (carry_of_routes h hroutes hword)
      rw [hless] at hsent
      cases horder : hop.node.order with
      | little => exact htwo
      | big =>
        rw [horder] at hsent
        dsimp only at hsent ⊢
        split_ifs at hsent <;> omega
  · intro hserves frame' hcarry
    obtain ⟨hroutes, hword, rfl⟩ := (carry_eq_some_iff h).mp hcarry
    have hhandled := hserves hroutes
    rw [hsent]
    cases horder : hop.node.order with
    | little =>
      rw [horder] at hhandled
      dsimp only at hhandled ⊢
      omega
    | big =>
      rw [horder] at hhandled
      exact absurd (hzero.mpr ⟨horder, hhandled⟩) hword

/-- Assumes: a packet with a whole header. Through any nodes in any states, the packet is sent on
only with a time-to-live of at least two, each time with one less, and so less often than its
time-to-live says, exactly when each node that has a route for it can handle the time-to-live it
receives. -/
theorem ttl_respected_iff (hops : List Hop) (frame : List UInt8) (h : 20 ≤ frame.length) :
    TtlRespected hops frame ∧ forwards hops frame ≤ (ttl frame).toNat - 1 ↔
      TtlServed hops frame := by
  have hall : TtlRespected hops frame ↔ TtlServed hops frame := by
    induction hops generalizing frame with
    | nil => exact Iff.rfl
    | cons hop hops ih =>
      have hlength : ∀ frame', hop.carry frame = some frame' → 20 ≤ frame'.length := by
        intro frame' hcarry
        obtain ⟨-, -, rfl⟩ := (Hop.carry_eq_some_iff h).mp hcarry
        rwa [length_forwardedFrame]
      unfold TtlRespected TtlServed
      rw [← hop.ttl_iff h]
      constructor
      · intro hrespects
        refine ⟨fun frame' hcarry ↦ ?_, fun frame' hcarry ↦ ?_⟩
        · obtain ⟨htwo, hless, -⟩ := hrespects frame' hcarry
          exact ⟨htwo, hless⟩
        · obtain ⟨-, -, hrest⟩ := hrespects frame' hcarry
          exact (ih frame' (hlength frame' hcarry)).mp hrest
      · rintro ⟨hfirst, hrest⟩ frame' hcarry
        obtain ⟨htwo, hless⟩ := hfirst frame' hcarry
        exact ⟨htwo, hless, (ih frame' (hlength frame' hcarry)).mpr (hrest frame' hcarry)⟩
  constructor
  · intro hproperty
    exact hall.mp hproperty.1
  · intro hserved
    have hrespected := hall.mpr hserved
    exact ⟨hrespected, hrespected.forwards_le⟩

/-- A little-endian node with the one interface `10.0.0.1` and a route for `10.0.0.9`. -/
def routerNode : Node where
  order := .little
  interfaces := [⟨3, true, 5001, 0x0A000001, 0x0A000002⟩]
  rtable := ((∅ : RouteTable).insert 0x0A000001
    ⟨⟨0, 0x0A000001, 0xFFFFFFFF⟩, 0x0A000001, ⟨0, 0⟩⟩).insert 0x0A000009
      ⟨⟨2, 0x0A000009, 0xFFFFFFFF⟩, 0x0A000001, ⟨0, 0⟩⟩
  incomingqueue := []
  outgoingqueue := []
  output := []

def routerHop : Hop := ⟨routerNode, 0x0A000001, [], fun _ ↦ ⟨0, 0⟩⟩

/-- A packet for `10.0.0.9` of protocol six, with a given time-to-live and two bytes of data. -/
def transitPacket (timeToLive : UInt8) : List UInt8 :=
  let hdr := { ipHeader .little 0x0A000005 0x0A000009 6 2 with ttl := timeToLive }
  IpHdr.bytes .little { hdr with check := ipSum .little (hdr.bytes .little) 20 } ++ [104, 105]

/-- A packet whose time-to-live is three is sent on twice, with two and with one. -/
theorem ttl_respected_twice : forwards [routerHop, routerHop] (transitPacket 3) = 2 ∧
    TtlServed [routerHop, routerHop] (transitPacket 3) ∧
      TtlRespected [routerHop, routerHop] (transitPacket 3) ∧
        forwards [routerHop, routerHop] (transitPacket 3) ≤ (ttl (transitPacket 3)).toNat - 1 := by
  have hserved : TtlServed [routerHop, routerHop] (transitPacket 3) := by
    have htwo : 2 ≤ (ttl (transitPacket 3)).toNat := by decide
    refine ⟨fun _ ↦ htwo, fun frame' hfirst ↦ ⟨fun _ ↦ ?_, fun _ _ ↦ trivial⟩⟩
    obtain rfl : forwardedFrame .little (transitPacket 3) = frame' := Option.some.inj hfirst
    show 2 ≤ (ttl (forwardedFrame .little (transitPacket 3))).toNat
    decide
  exact ⟨by decide, hserved,
    (ttl_respected_iff [routerHop, routerHop] (transitPacket 3) (by decide)).mpr hserved⟩

/-- A packet whose time-to-live is one is sent on. -/
theorem ttl_one_sent_on : 20 ≤ (transitPacket 1).length ∧
    ChecksumValid .little (transitPacket 1) ∧ byteAt (transitPacket 1) 9 ≠ ripProto ∧
    (ttl (transitPacket 1)).toNat = 1 ∧ forwards [routerHop] (transitPacket 1) = 1 ∧
    ¬ (TtlRespected [routerHop] (transitPacket 1) ∧
      forwards [routerHop] (transitPacket 1) ≤ (ttl (transitPacket 1)).toNat - 1) := by
  refine ⟨by decide, by decide, by decide, by decide, by decide, fun h ↦ ?_⟩
  exact absurd h.2 (by decide)

/-- The frame that leaves the last of the given nodes, if every one of them sends the packet on. -/
def travel : List Hop → List UInt8 → Option (List UInt8)
  | [], frame => some frame
  | hop :: hops, frame => (hop.carry frame).bind (travel hops)

/-- Two frames that agree in every byte but the time-to-live and the checksum. -/
def Transparent (frame frame' : List UInt8) : Prop :=
  frame'.length = frame.length ∧
    ∀ offset, offset ≠ 8 → offset ≠ 10 → offset ≠ 11 → byteAt frame' offset = byteAt frame offset

/-- What a node that sends a packet on leaves where the protocol was. -/
def storedProtocol (order : ByteOrder) (arrived : List UInt8) : UInt8 :=
  match order with
  | .little => 0xFF
  | .big => ttl arrived - 1

theorem travel_append (before after : List Hop) (frame : List UInt8) :
    travel (before ++ after) frame = (travel before frame).bind (travel after) := by
  induction before generalizing frame with
  | nil => rfl
  | cons hop before ih =>
    rw [List.cons_append, travel, travel, Option.bind_assoc]
    congr 1
    ext1 frame'
    exact ih frame'

/-- What a whole journey leaves alone. -/
theorem travel_keeps {hops : List Hop} {frame frame' : List UInt8} (h : 20 ≤ frame.length)
    (htravel : travel hops frame = some frame') : frame'.length = frame.length ∧
      ∀ offset, offset < 8 ∨ 12 ≤ offset → byteAt frame' offset = byteAt frame offset := by
  induction hops generalizing frame with
  | nil =>
    obtain rfl := Option.some.inj htravel
    exact ⟨rfl, fun offset _ ↦ rfl⟩
  | cons hop hops ih =>
    obtain ⟨next, hcarry, hrest⟩ := Option.bind_eq_some_iff.mp htravel
    obtain ⟨-, -, rfl⟩ := (Hop.carry_eq_some_iff h).mp hcarry
    obtain ⟨hlength, hbytes⟩ := ih (by rwa [length_forwardedFrame]) hrest
    refine ⟨hlength.trans (length_forwardedFrame _ _), ?_⟩
    intro offset hoffset
    rw [hbytes offset hoffset, byteAt_forwardedFrame _ h (by omega) (by omega), if_neg (by omega)]

theorem protocol_forwardedFrame (order : ByteOrder) {frame : List UInt8} (h : 20 ≤ frame.length) :
    byteAt (forwardedFrame order frame) 9 = storedProtocol order frame := by
  have ht := (ttl frame).toNat_lt
  rw [← UInt8.toNat_inj, toNat_protocol_forwardedFrame order h]
  unfold storedProtocol
  cases order with
  | little => rfl
  | big =>
    dsimp only
    rw [UInt8.toNat_sub, UInt8.toNat_one]
    omega

/-- Assumes: a packet with a whole header that every one of the nodes sends on. What leaves the last
node is what the origin sent, but for the time-to-live and the checksum, exactly when there is no
node in between or the byte the last one stores where the protocol was happens to be the protocol.
-/
theorem transparent_iff (hops : List Hop) (frame frame' : List UInt8) (h : 20 ≤ frame.length)
    (htravel : travel hops frame = some frame') : Transparent frame frame' ↔
      hops = [] ∨ ∃ before last arrived, hops = before ++ [last] ∧
        travel before frame = some arrived ∧
          storedProtocol last.node.order arrived = byteAt frame 9 := by
  rcases hops.eq_nil_or_concat' with rfl | ⟨before, last, rfl⟩
  · obtain rfl := Option.some.inj htravel
    exact iff_of_true ⟨rfl, fun _ _ _ _ ↦ rfl⟩ (Or.inl rfl)
  · obtain ⟨hlength, hbytes⟩ := travel_keeps h htravel
    rw [travel_append] at htravel
    obtain ⟨arrived, hbefore, hlast⟩ := Option.bind_eq_some_iff.mp htravel
    obtain ⟨sent, hcarry, hsent⟩ := Option.bind_eq_some_iff.mp hlast
    obtain rfl := Option.some.inj hsent
    have harrived : 20 ≤ arrived.length := (travel_keeps h hbefore).1.symm ▸ h
    obtain ⟨-, -, rfl⟩ := (Hop.carry_eq_some_iff harrived).mp hcarry
    have hprotocol := protocol_forwardedFrame last.node.order harrived
    constructor
    · rintro ⟨-, hsame⟩
      refine Or.inr ⟨before, last, arrived, rfl, hbefore, ?_⟩
      rw [← hprotocol]
      exact hsame 9 (by decide) (by decide) (by decide)
    · rintro (hnone | ⟨before', last', arrived', hhops, hbefore', hstored⟩)
      · exact absurd hnone (by simp)
      · obtain ⟨rfl, hlasts⟩ := List.append_inj' hhops rfl
        obtain rfl := List.head_eq_of_cons_eq hlasts
        obtain rfl := Option.some.inj (hbefore.symm.trans hbefore')
        refine ⟨hlength, ?_⟩
        intro offset h8 h10 h11
        by_cases h9 : offset = 9
        · rw [h9, hprotocol, hstored]
        · exact hbytes offset (by omega)

/-- Two nodes in a row: the packet leaves the second as it left the first, of protocol `255`. -/
theorem transparent_after_first : Transparent (forwardedFrame .little (transitPacket 16))
    (forwardedFrame .little (forwardedFrame .little (transitPacket 16))) :=
  (transparent_iff [routerHop] (forwardedFrame .little (transitPacket 16))
    (forwardedFrame .little (forwardedFrame .little (transitPacket 16))) (by decide)
    (by decide)).mpr
      (Or.inr ⟨[], routerHop, forwardedFrame .little (transitPacket 16), rfl, rfl, by decide⟩)

/-- One node sends a packet of protocol six on as a packet of protocol `255`. -/
theorem protocol_overwritten : 20 ≤ (transitPacket 16).length ∧ (transitPacket 16).length ≤ 1024 ∧
    ChecksumValid .little (transitPacket 16) ∧ byteAt (transitPacket 16) 9 = 6 ∧
    travel [routerHop] (transitPacket 16) = some (forwardedFrame .little (transitPacket 16)) ∧
    ¬ Transparent (transitPacket 16) (forwardedFrame .little (transitPacket 16)) := by
  refine ⟨by decide, by decide, by decide, by decide, by decide, fun h ↦ ?_⟩
  exact absurd (h.2 9 (by decide) (by decide) (by decide)) (by decide)

end IpRipStack
