import IpRipStack.RouteLife
import Mathlib.Data.List.Dedup

/-!
# The size of the table

An update carries the whole table. `prepare_msg_ifc` fills the slots of a message one for each
entry, without looking at how many there are; `update_route_table` adds entries without looking
either. So the message has room for the table exactly while the table has at most `maxEntries`
entries (`updateFits_iff`), and no later limit is tighter: the data of a packet and the buffer of
the receiver would hold more.

The table grows by the addresses a response brings and by that of an interface that comes up
(`Node.newKeys`). `Step.size_le_iff` counts them for one step, and `update_fits_iff` for whole runs.
-/

set_option autoImplicit false
set_option relaxedAutoImplicit false

namespace IpRipStack

open MachineWord OrderedMap Runs

/-- `sizeof(packet.data)` of the sender and `MAXBUFF` of the receiver. -/
def maxBuff : ℕ := 1024

namespace Node

/-- A message of the node, whichever interface it is for, has room for its entries; its bytes have
room in the data of a packet, and the packet has room in the buffer of the receiver. -/
def UpdateFits (node : Node) : Prop :=
  ∀ (msgType : UInt16) (id : ℕ) (ifc : LinkLayer),
    (node.ripMsg msgType ifc.vipLocal).entries.length ≤ maxEntries ∧
    ((node.ripMsg msgType ifc.vipLocal).bytes node.order).length ≤ maxBuff ∧
    (node.ripPacket msgType id ifc).packet.length ≤ maxBuff

/-- The addresses an event adds to the table: those of the routes it offers for destinations that
are neither the node's own nor in the table, and that of an interface it brings up. -/
def newKeys (node : Node) : Event → List UInt32
  | .command (.up interface _ _) =>
    match node.interfaces[interface]? with
    | none => []
    | some ifc => if ifc.vipLocal ∈ node.rtable then [] else [ifc.vipLocal]
  | event =>
    ((((node.heard event).map Prod.fst).filter fun e ↦
      !node.isMyInterface e.address && e.cost != ripMaxCost && decide (e.address ∉ node.rtable)).map
        Entry.address).dedup

/-- There is room for what an event adds to the table. -/
def RoomFor (node : Node) (event : Event) : Prop :=
  node.rtable.size + (node.newKeys event).length ≤ maxEntries

theorem updateFits_iff (node : Node) : node.UpdateFits ↔ node.rtable.size ≤ maxEntries := by
  have hentries : ∀ msgType neighbor,
      (node.ripMsg msgType neighbor).entries.length = node.rtable.size := by
    intro msgType neighbor
    rw [ripMsg_entries, List.length_map, Std.ExtTreeMap.length_toList]
  constructor
  · intro h
    obtain ⟨hslots, -, -⟩ := h 2 0 ⟨0, true, 0, 0, 0⟩
    rwa [hentries] at hslots
  · intro hsize msgType id ifc
    have hlength := length_ripMsg_bytes node.order (node.ripMsg msgType ifc.vipLocal)
    have hpacket : (node.ripPacket msgType id ifc).packet.length =
        20 + (12 * node.rtable.size + 4) := by
      unfold ripPacket
      dsimp only
      rw [length_buildIpPacket, hlength, Nat.min_self, hentries]
    rw [hpacket, hlength, hentries]
    unfold maxEntries at hsize ⊢
    unfold maxBuff
    omega

/-! ### One step -/

/-- The reception of a frame leaves the routes for the node's own addresses alone. -/
theorem receive_own {node : Node} (hidle : node.outgoingqueue = []) (frame : List UInt8)
    (next : UInt32) (stale : List UInt8) (clock : ℕ → Timeval) {d : UInt32}
    (hmine : node.isMyInterface d = true) :
    (node.receiveFrame frame next stale clock).rtable[d]? = node.rtable[d]? := by
  refine receiveFrame_induction (P := fun table ↦ table[d]? = node.rtable[d]?) hidle frame stale
    rfl ?_
  intro table curEntry i id _ _ _ htable
  rw [← htable]
  exact updateEntry_own hmine table curEntry next (clock i)

theorem mem_newKeys_receive {node : Node} {interface : ℕ} {frame stale : List UInt8}
    {clock : ℕ → Timeval} {d : UInt32} :
    d ∈ node.newKeys (.receive interface frame stale clock) ↔
      node.isMyInterface d = false ∧ d ∉ node.rtable ∧
        ∃ entry ∈ node.heard (.receive interface frame stale clock),
          entry.1.address = d ∧ entry.1.cost ≠ ripMaxCost := by
  simp only [newKeys, List.mem_dedup, List.mem_map, List.mem_filter, Bool.and_eq_true,
    Bool.not_eq_true', bne_iff_ne, decide_eq_true_eq]
  constructor
  · rintro ⟨e, ⟨⟨entry, hentry, rfl⟩, ⟨hother, hcost⟩, hnew⟩, rfl⟩
    exact ⟨hother, hnew, entry, hentry, rfl, hcost⟩
  · rintro ⟨hother, hnew, entry, hentry, rfl, hcost⟩
    exact ⟨entry.1, ⟨⟨entry, hentry, rfl⟩, ⟨hother, hcost⟩, hnew⟩, rfl⟩

/-- The keys after the reception of a frame. -/
theorem mem_receive_iff {node : Node} (hidle : node.outgoingqueue = []) {interface : ℕ}
    {ifc : LinkLayer} (hget : node.interfaces[interface]? = some ifc) (frame stale : List UInt8)
    (clock : ℕ → Timeval) (d : UInt32) :
    d ∈ (node.receiveFrame frame ifc.vipLocal stale clock).rtable ↔
      d ∈ node.rtable ∨ d ∈ node.newKeys (.receive interface frame stale clock) := by
  cases hmine : node.isMyInterface d with
  | true =>
    rw [mem_iff_getElem?_ne_none, receive_own hidle frame ifc.vipLocal stale clock hmine,
      ← mem_iff_getElem?_ne_none]
    refine (or_iff_left fun hnew ↦ ?_).symm
    rw [mem_newKeys_receive, hmine] at hnew
    exact Bool.noConfusion hnew.1
  | false =>
    rw [mem_iff_getElem?_ne_none, receive_route hidle hget frame stale clock hmine, ne_eq,
      foldl_hear_eq_none_iff, mem_newKeys_receive, mem_iff_getElem?_ne_none]
    constructor
    · intro hsome
      by_cases hold : node.rtable[d]? = none
      · have hoffered : ∃ entry ∈ node.heard (.receive interface frame stale clock),
            entry.1.address = d ∧ entry.1.cost ≠ ripMaxCost := by
          by_contra hnone
          exact hsome ⟨hold, fun entry hentry haddress ↦
            by_contra fun hcost ↦ hnone ⟨entry, hentry, haddress, hcost⟩⟩
        exact Or.inr ⟨hmine, not_not_intro hold, hoffered⟩
      · exact Or.inl hold
    · rintro (hold | ⟨-, -, entry, hentry, haddress, hcost⟩) ⟨hnone, hmax⟩
      · exact hold hnone
      · exact hcost (hmax entry hentry haddress)

/-- Assumes: a table that fits. After a step the table fits exactly when there was room for what the
step added. -/
theorem Step.size_le_iff {node node' : Node} {event : Event} (hidle : node.outgoingqueue = [])
    (hsize : node.rtable.size ≤ maxEntries) (hstep : node.Step event node') :
    node'.rtable.size ≤ maxEntries ↔ node.RoomFor event := by
  have hkept : node.newKeys event = [] → (∀ d ∈ node'.rtable, d ∈ node.rtable) →
      (node'.rtable.size ≤ maxEntries ↔ node.RoomFor event) := by
    intro hnone hsub
    refine iff_of_true ((size_le_of_subset hsub).trans hsize) ?_
    rw [RoomFor, hnone]
    exact hsize
  have hgrown : node'.rtable.size = node.rtable.size + (node.newKeys event).length →
      (node'.rtable.size ≤ maxEntries ↔ node.RoomFor event) := by
    intro heq
    rw [RoomFor, heq]
  have hmem : ∀ {table table' : RouteTable},
      (∀ (d : UInt32) (ets : EntryWts), table'[d]? = some ets → table[d]? = some ets) →
        ∀ d ∈ table', d ∈ table := by
    intro table table' h d hd
    obtain ⟨ets, hets⟩ := getElem?_of_mem hd
    exact mem_of_getElem? (h d ets hets)
  cases event with
  | command c =>
    cases c with
    | send msgType =>
      obtain rfl := Option.some.inj hstep
      refine hkept rfl ?_
      rw [prepareMsg_rtable]
      exact fun d ↦ id
    | refresh curtv =>
      obtain rfl := Option.some.inj hstep
      exact hkept rfl (hmem fun d ets hets ↦ (refreshRouteTable_eq_some.mp hets).1)
    | down interface =>
      obtain ⟨ifc, -, -, htable⟩ := downCmd_spec hstep
      exact hkept rfl (hmem fun d ets hets ↦ ((htable d ets).mp hets).1)
    | up interface sockfd now =>
      obtain ⟨ifc, hget, rfl⟩ := Option.map_eq_some_iff.mp hstep
      refine hgrown ?_
      change (node.rtable.insert ifc.vipLocal (ifcEntry ifc.vipLocal now)).size = _
      rw [Std.ExtTreeMap.size_insert]
      simp only [newKeys, hget, Std.ExtTreeMap.mem_iff_contains]
      split_ifs with hkey
      · rfl
      · rfl
  | receive interface frame stale clock =>
    obtain ⟨ifc, hget, rfl⟩ := Option.map_eq_some_iff.mp hstep
    refine hgrown (size_eq_add_length (List.nodup_dedup _) ?_
      (mem_receive_iff hidle hget frame stale clock))
    intro d hd
    exact (mem_newKeys_receive.mp hd).2.1
  | application dest proto payload =>
    obtain rfl := Option.some.inj hstep
    obtain ⟨queue, hqueue⟩ := node.transferApplicationToIp_cases dest proto payload payload.length
    refine hkept rfl ?_
    rw [hqueue]
    exact fun d ↦ id
  | transmit =>
    obtain rfl := Option.some.inj hstep
    exact hkept rfl fun d ↦ id

/-! ### Whole runs -/

/-- The constructor's table has one entry for each address of the link file. -/
theorem new_size (order : ByteOrder) (links : List LinkConfig) (clock : ℕ → Timeval) :
    (new order links clock).rtable.size = (links.map LinkConfig.vipLocal).dedup.length := by
  have hkeys : ∀ d, d ∈ (new order links clock).rtable ↔
      d ∈ (∅ : RouteTable) ∨ d ∈ (links.map LinkConfig.vipLocal).dedup := by
    intro d
    have hmine : (⟨order, links.map LinkLayer.new, ∅, [], [], []⟩ : Node).isMyInterface d = true ↔
        d ∈ links.map LinkConfig.vipLocal := by
      rw [isMyInterface_iff, List.mem_map]
      constructor
      · rintro ⟨ll, hll, rfl⟩
        obtain ⟨link, hlink, rfl⟩ := List.mem_map.mp hll
        exact ⟨link, hlink, rfl⟩
      · rintro ⟨link, hlink, rfl⟩
        exact ⟨_, List.mem_map_of_mem hlink, rfl⟩
    rw [List.mem_dedup, ← hmine, Std.ExtTreeMap.mem_iff_isSome_getElem?,
      or_iff_right Std.ExtTreeMap.not_mem_empty]
    rcases ripLayer_getElem? ⟨order, links.map LinkLayer.new, ∅, [], [], []⟩ clock d with
      ⟨hother, hnone⟩ | ⟨hown, i, hentry⟩
    · rw [new, hnone, hother]
      exact iff_of_false Bool.false_ne_true Bool.false_ne_true
    · rw [new, hentry, hown]
      exact iff_of_true rfl rfl
  rw [size_eq_add_length (List.nodup_dedup _) (fun d _ ↦ Std.ExtTreeMap.not_mem_empty) hkeys]
  exact Nat.zero_add _

/-- In every state of a run from the constructor the messages of the node have room for the table,
the data of a packet for the messages, and the buffer of the receiver for the packets, exactly when
there are no more than `maxEntries` addresses in the link file and every step that adds addresses to
the table finds room for them. -/
theorem update_fits_iff (order : ByteOrder) (links : List LinkConfig) (clock : ℕ → Timeval)
    (events : List Event) :
    EveryState Step UpdateFits (new order links clock) events ↔
      (links.map LinkConfig.vipLocal).dedup.length ≤ maxEntries ∧
        EveryStep Step RoomFor (new order links clock) events := by
  have hall : (new order links clock).rtable.size ≤ maxEntries →
      (EveryState Step UpdateFits (new order links clock) events ↔
        EveryStep Step RoomFor (new order links clock) events) := by
    intro hstart
    refine everyState_new_iff ((updateFits_iff _).mpr hstart) (fun hidle hfits hstep ↦ ?_) events
    rw [updateFits_iff] at hfits ⊢
    exact hstep.size_le_iff hidle hfits
  rw [← new_size order links clock]
  constructor
  · intro hfits
    have hstart := (updateFits_iff _).mp (hfits [] events _ rfl (Run.nil _))
    exact ⟨hstart, (hall hstart).mp hfits⟩
  · rintro ⟨hstart, hroom⟩
    exact (hall hstart).mpr hroom

end Node

/-- The packet of the neighbour `10.0.0.2` that offers routes of cost one for as many addresses of
`11.0.0.0` as a message has room for. -/
def fullPacket : List UInt8 :=
  let entries := (List.range maxEntries).flatMap fun i ↦
    [0, 0, 0, 1, 11, 0, 0, UInt8.ofNat i, 255, 255, 255, 255]
  buildIpPacket .little 0x0A000002 0x0A000001 ripProto ([0, 2, 0, 64] ++ entries) (12 * maxEntries + 4)

/-- The node with the one interface `10.0.0.1` receives that packet. -/
def fillUp : Event := .receive 0 fullPacket [] fun _ ↦ seconds 0

/-- A response with as many entries as a message has room for, all of cost one, makes the table one
entry larger than that. -/
theorem update_overflows :
    (leafNode.heard fillUp).length = maxEntries ∧
    ((leafNode.heard fillUp).all fun entry ↦ entry.1.cost == 1) = true ∧
    ¬ EveryState Node.Step Node.UpdateFits leafNode [fillUp] := by
  have hheard : (leafNode.heard fillUp).length = maxEntries ∧
      ((leafNode.heard fillUp).all fun entry ↦ entry.1.cost == 1) = true ∧
      (leafNode.receiveFrame fullPacket 0x0A000001 [] fun _ ↦ seconds 0).rtable.size = 65 := by
    decide +kernel
  obtain ⟨hcount, hcosts, hsize⟩ := hheard
  refine ⟨hcount, hcosts, fun hfits ↦ ?_⟩
  have hstep : leafNode.Step fillUp
      (leafNode.receiveFrame fullPacket 0x0A000001 [] fun _ ↦ seconds 0) := rfl
  have hafter := (Node.updateFits_iff _).mp
    (hfits _ [] _ (List.append_nil _).symm (Run.single hstep))
  rw [hsize] at hafter
  exact absurd hafter (by decide)

end IpRipStack
