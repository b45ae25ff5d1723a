import IpRipStack.RipLayer

/-!
# Messages between routing layers

What one routing layer sends and what another reads. `readCommand`, `readCount` and `readEntry` are
the values that `transfer_ip_to_rip` and `update_route_table` take out of a payload, in the
receiving host's byte order; `advertised` is what a message for an interface says about a route, in
host order.

`readEntries_ripMsg` is the round trip: the two hosts may have different byte orders, and whatever
lies behind the message does not matter. `Node.prepareMsg_poisonedReverse` says which packets an
update sends and what the peers read from them.
-/

set_option autoImplicit false
set_option relaxedAutoImplicit false

namespace IpRipStack

open MachineWord

/-! ### Reading a payload -/

/-- `cmdType` of `transfer_ip_to_rip`. -/
def readCommand (order : ByteOrder) (data : List UInt8) : UInt16 := ntohs order (load16 order data 0)

/-- `nentries` of `update_route_table`, which is handed the payload behind the command. -/
def readCount (order : ByteOrder) (data : List UInt8) : UInt16 :=
  ntohs order (load16 order (data.drop 2) 0)

/-- The values of the entry that turn `i` of `update_route_table` copies out. -/
def readEntry (order : ByteOrder) (data : List UInt8) (i : ℕ) : Entry :=
  (Entry.load order (((data.drop 2).drop 2).drop (12 * i))).ntoh order

/-- The entries of a response. -/
def readEntries (order : ByteOrder) (data : List UInt8) : List Entry :=
  (List.range (readCount order data).toNat).map (readEntry order data)

theorem mem_readEntries {order : ByteOrder} {data : List UInt8} {i : ℕ}
    (h : i < (readCount order data).toNat) : readEntry order data i ∈ readEntries order data :=
  List.mem_map.mpr ⟨i, List.mem_range.mpr h, rfl⟩

namespace Node

/-- What a received message changes: a request is answered, a response is learned from, and nothing
else happens to any other message. -/
theorem transferIpToRip_cases (node : Node) (data : List UInt8) (next : UInt32)
    (clock : ℕ → Timeval) :
    (readCommand node.order data = 1 ∧
        node.transferIpToRip data next clock = node.prepareMsg 2) ∨
      (readCommand node.order data = 2 ∧
        node.transferIpToRip data next clock = node.updateRouteTable (data.drop 2) next clock) ∨
      (readCommand node.order data ≠ 1 ∧ readCommand node.order data ≠ 2 ∧
        node.transferIpToRip data next clock = node) := by
  by_cases hrequest : readCommand node.order data = 1
  · exact Or.inl ⟨hrequest, if_pos hrequest⟩
  · by_cases hresponse : readCommand node.order data = 2
    · refine Or.inr (Or.inl ⟨hresponse, ?_⟩)
      exact (if_neg hrequest).trans (if_pos hresponse)
    · refine Or.inr (Or.inr ⟨hrequest, hresponse, ?_⟩)
      exact (if_neg hrequest).trans (if_neg hresponse)

/-- A predicate of the table that every entry of a message keeps is kept by the message. -/
theorem transferIpToRip_induction {P : RouteTable → Prop} {node : Node} {data : List UInt8}
    {next : UInt32} {clock : ℕ → Timeval} (h : P node.rtable)
    (hstep : ∀ table curEntry i, curEntry.ntoh node.order ∈ readEntries node.order data → P table →
      P (node.updateEntry table curEntry next (clock i))) :
    P (node.transferIpToRip data next clock).rtable := by
  rcases node.transferIpToRip_cases data next clock with
    ⟨-, hrun⟩ | ⟨-, hrun⟩ | ⟨-, -, hrun⟩
  · rw [hrun, prepareMsg_rtable]
    exact h
  · rw [hrun]
    refine updateRouteTable_induction node _ next clock h fun table i hi htable ↦ ?_
    exact hstep table _ i (mem_readEntries hi) htable
  · rw [hrun]
    exact h

/-- After a message every entry of the table is one there was or the route of an entry the message
carries. -/
theorem transferIpToRip_origin {node : Node} {data : List UInt8} {next : UInt32}
    {clock : ℕ → Timeval} {a : UInt32} {ets : EntryWts}
    (h : (node.transferIpToRip data next clock).rtable[a]? = some ets) :
    node.rtable[a]? = some ets ∨
      ∃ e ∈ readEntries node.order data, ∃ now, ets = e.route next now := by
  refine transferIpToRip_induction (P := fun table ↦ table[a]? = some ets →
    node.rtable[a]? = some ets ∨ ∃ e ∈ readEntries node.order data, ∃ now, ets = e.route next now)
    Or.inl ?_ h
  intro table curEntry i hentry htable hets
  rcases node.updateEntry_cases table curEntry next (clock i) with ⟨-, hsame⟩ | ⟨-, hnew⟩
  · rw [hsame] at hets
    exact htable hets
  · rw [hnew, OrderedMap.getElem?_insert_eq] at hets
    split_ifs at hets
    · exact Or.inr ⟨_, hentry, clock i, (Option.some.inj hets).symm⟩
    · exact htable hets

end Node

/-! ### What a message says -/

/-- The fields of an entry in network order, as a host stores them. -/
def Entry.hton (order : ByteOrder) (e : Entry) : Entry where
  cost := htonl order e.cost
  address := htonl order e.address
  mask := htonl order e.mask

/-- What the message for an interface says about a route, in host order. -/
def advertised (neighbor : UInt32) (ets : EntryWts) : Entry where
  cost := if ets.e.address ≠ neighbor ∧ neighbor = ets.nextHop then ripMaxCost else ets.e.cost
  address := ets.e.address
  mask := ets.e.mask

theorem ripMsg_entries (node : Node) (msgType : UInt16) (neighbor : UInt32) :
    (node.ripMsg msgType neighbor).entries =
      node.rtable.toList.map fun kv ↦ (advertised neighbor kv.2).hton node.order := by
  refine List.map_congr_left fun kv _ ↦ ?_
  simp only [Entry.hton, advertised]
  split_ifs <;> rfl

/-! ### The bytes of a message -/

theorem length_flatMap_bytes (order : ByteOrder) (entries : List Entry) :
    (entries.flatMap (Entry.bytes order)).length = 12 * entries.length := by
  induction entries with
  | nil => rfl
  | cons e rest ih =>
    rw [List.flatMap_cons, List.length_append, length_entry_bytes, ih, List.length_cons]
    omega

/-- Skipping whole entries leads to the next one. -/
theorem exists_drop_flatMap_bytes (order : ByteOrder) {entries : List Entry} {i : ℕ} {e : Entry}
    (h : entries[i]? = some e) (rest : List UInt8) :
    ∃ rest', (entries.flatMap (Entry.bytes order) ++ rest).drop (12 * i) =
      e.bytes order ++ rest' := by
  induction i generalizing entries with
  | zero =>
    cases entries with
    | nil => exact absurd h.symm (Option.some_ne_none e)
    | cons e' entries =>
      obtain rfl : e' = e := Option.some.inj h
      exact ⟨entries.flatMap (Entry.bytes order) ++ rest,
        by rw [List.flatMap_cons, List.append_assoc, Nat.mul_zero, List.drop_zero]⟩
  | succ i ih =>
    cases entries with
    | nil => exact absurd h.symm (Option.some_ne_none e)
    | cons e' entries =>
      have htail : entries[i]? = some e := h
      obtain ⟨rest', hdrop⟩ := ih htail
      refine ⟨rest', ?_⟩
      have hskip : 12 * (i + 1) = (e'.bytes order).length + 12 * i := by
        rw [length_entry_bytes]
        omega
      rw [List.flatMap_cons, List.append_assoc, hskip, ← List.drop_drop, List.drop_left, hdrop]

@[simp] theorem length_ripMsg_bytes (order : ByteOrder) (msg : RipMsg) :
    (msg.bytes order).length = 12 * msg.entries.length + 4 := by
  simp only [RipMsg.bytes, List.length_append, length_store16, length_flatMap_bytes]
  omega

section RoundTrip

variable (node : Node) (order' : ByteOrder) (msgType : UInt16) (neighbor : UInt32)
  (rest : List UInt8)

/-- The peer reads the command that was sent. -/
theorem readCommand_ripMsg :
    readCommand order' ((node.ripMsg msgType neighbor).bytes node.order ++ rest) = msgType := by
  rw [readCommand, ntohs_load16, RipMsg.bytes, List.append_assoc]
  simp only [Node.ripMsg, store16_htons]
  exact load16_store16 .big [] _ msgType

/-- The peer reads the number of entries of the table. -/
theorem readCount_ripMsg :
    readCount order' ((node.ripMsg msgType neighbor).bytes node.order ++ rest) =
      UInt16.ofNat node.rtable.size := by
  rw [readCount, ntohs_load16, RipMsg.bytes, List.append_assoc, List.append_assoc,
    List.drop_left' (length_store16 _ _)]
  simp only [Node.ripMsg, store16_htons]
  exact load16_store16 .big [] _ _

/-- The peer reads, as entry `i`, what the message says about the route at position `i` of the
table. -/
theorem readEntry_ripMsg {i : ℕ} {kv : UInt32 × EntryWts} (h : node.rtable.toList[i]? = some kv) :
    readEntry order' ((node.ripMsg msgType neighbor).bytes node.order ++ rest) i =
      advertised neighbor kv.2 := by
  have hentry : (node.ripMsg msgType neighbor).entries[i]? =
      some ((advertised neighbor kv.2).hton node.order) := by
    rw [ripMsg_entries, List.getElem?_map, h]
    rfl
  obtain ⟨rest', hdrop⟩ := exists_drop_flatMap_bytes node.order hentry rest
  rw [readEntry, RipMsg.bytes, List.append_assoc, List.append_assoc,
    List.drop_left' (length_store16 _ _), List.drop_left' (length_store16 _ _), hdrop]
  obtain ⟨hcost, haddress, hmask⟩ := ntohl_load_bytes node.order order'
    (advertised neighbor kv.2).cost (advertised neighbor kv.2).address
    (advertised neighbor kv.2).mask rest'
  exact Entry.ext hcost haddress hmask

/-- The entries the peer reads are what the message says about the routes of the table, in the order
of their keys, as many as the sixteen-bit count says. -/
theorem readEntries_ripMsg :
    readEntries order' ((node.ripMsg msgType neighbor).bytes node.order ++ rest) =
      (node.rtable.toList.take (node.rtable.size % 65536)).map fun kv ↦
        advertised neighbor kv.2 := by
  have hcount : (readCount order'
      ((node.ripMsg msgType neighbor).bytes node.order ++ rest)).toNat =
        node.rtable.size % 65536 := by
    rw [readCount_ripMsg, UInt16.toNat_ofNat']
  have hle : node.rtable.size % 65536 ≤ node.rtable.toList.length := by
    rw [Std.ExtTreeMap.length_toList]
    exact Nat.mod_le _ _
  refine List.ext_getElem ?_ fun i hleft hright ↦ ?_
  · rw [readEntries, List.length_map, List.length_range, hcount, List.length_map,
      List.length_take_of_le hle]
  · rw [List.length_map, List.length_take_of_le hle] at hright
    simp only [readEntries, List.getElem_map, List.getElem_range, List.getElem_take]
    exact readEntry_ripMsg node order' msgType neighbor rest
      (List.getElem?_eq_getElem (hright.trans_le hle))

end RoundTrip

/-! ### The packets of an update -/

theorem Node.ripPacket?_ifc {node : Node} {msgType : UInt16} {id : ℕ} {msg : IpMsg}
    (h : node.ripPacket? msgType id = some msg) :
    ∃ ifc, node.interfaces[id]? = some ifc ∧ ifc.isup = true ∧
      msg = node.ripPacket msgType id ifc := by
  obtain ⟨ifc, hget, hpacket⟩ := Option.bind_eq_some_iff.mp h
  split_ifs at hpacket with hup
  exact ⟨ifc, hget, hup, (Option.some.inj hpacket).symm⟩

theorem Node.ripPacket?_isSome (node : Node) (msgType : UInt16) (id : ℕ) :
    (node.ripPacket? msgType id).isSome = node.isUp id := by
  rw [ripPacket?, isUp]
  cases node.interfaces[id]? with
  | none => rfl
  | some ifc => cases hup : ifc.isup <;> simp [hup]

/-- The packets of an update go out by the interfaces that are up, one by each. -/
theorem Node.map_ifc_packets (node : Node) (msgType : UInt16) (ids : List ℕ) :
    (ids.filterMap (node.ripPacket? msgType)).map IpMsg.ifc = ids.filter node.isUp := by
  induction ids with
  | nil => rfl
  | cons id ids ih =>
    have hup := node.ripPacket?_isSome msgType id
    rw [List.filterMap_cons, List.filter_cons, ← hup]
    cases hpacket : node.ripPacket? msgType id with
    | none => exact ih
    | some msg =>
      obtain ⟨ifc, -, -, rfl⟩ := ripPacket?_ifc hpacket
      simp only [List.map_cons, ih, Option.isSome_some, if_true]
      rfl

/-- The payload of a routing packet, as a receiver finds it behind the header. -/
theorem drop_ripPacket (node : Node) (msgType : UInt16) (id : ℕ) (ifc : LinkLayer)
    (rest : List UInt8) : ((node.ripPacket msgType id ifc).packet ++ rest).drop 20 =
      (node.ripMsg msgType ifc.vipLocal).bytes node.order ++ rest := by
  rw [Node.ripPacket, drop_buildIpPacket, List.take_of_length_le (length_ripMsg_bytes _ _).le]

/-- On a table whose keys are the addresses of its entries, what a message says about a route is
its key, its mask, and its cost unless the route is poisoned. -/
theorem advertised_eq {table : RouteTable} (hkeys : table.KeysMatch) (neighbor : UInt32)
    {kv : UInt32 × EntryWts} (h : kv ∈ table.toList) : advertised neighbor kv.2 =
      { cost := if kv.2.nextHop = neighbor ∧ kv.1 ≠ neighbor then 16 else kv.2.e.cost
        address := kv.1
        mask := kv.2.e.mask } := by
  have haddress : kv.2.e.address = kv.1 :=
    hkeys kv.1 kv.2 (Std.ExtTreeMap.mem_toList_iff_getElem?_eq_some.mp h)
  simp only [advertised, haddress, ripMaxCost, eq_comm, and_comm, ne_eq]

/-- An update queues one packet for every interface that is up, as long as it says and addressed from
its local to its remote address; the peer reads from it a response with one entry for every route of
the table, in the order of the keys, poisoned when the route goes through the interface. -/
theorem Node.prepareMsg_poisonedReverse (node : Node) (hkeys : node.rtable.KeysMatch)
    (hsize : node.rtable.size ≤ maxEntries) :
    ∃ packets : List IpMsg,
      (node.prepareMsg 2).incomingqueue = node.incomingqueue ++ packets ∧
      packets.map IpMsg.ifc = (List.range node.interfaces.length).filter node.isUp ∧
      ∀ msg ∈ packets, msg.size = msg.packet.length ∧ ∃ ifc, node.interfaces[msg.ifc]? = some ifc ∧
        ∀ (order' : ByteOrder) (rest : List UInt8),
          let frame := msg.packet ++ rest
          let data := frame.drop (4 * ((byteAt frame 0).toNat % 16))
          ntohl order' (load32 order' frame 12) = ifc.vipLocal ∧
          ntohl order' (load32 order' frame 16) = ifc.vipRemote ∧
          byteAt frame 9 = ripProto ∧
          readCommand order' data = 2 ∧
          (readCount order' data).toNat = node.rtable.size ∧
          readEntries order' data = node.rtable.toList.map fun kv ↦
            { cost :=
                if kv.2.nextHop = ifc.vipLocal ∧ kv.1 ≠ ifc.vipLocal then 16 else kv.2.e.cost
              address := kv.1
              mask := kv.2.e.mask } := by
  refine ⟨_, congrArg Node.incomingqueue (node.prepareMsg_eq 2), node.map_ifc_packets 2 _, ?_⟩
  intro msg hmsg
  obtain ⟨id, -, hpacket⟩ := List.mem_filterMap.mp hmsg
  obtain ⟨ifc, hget, -, rfl⟩ := ripPacket?_ifc hpacket
  have hlength : (node.ripPacket 2 id ifc).size = (node.ripPacket 2 id ifc).packet.length := by
    rw [ripPacket, length_buildIpPacket, length_ripMsg_bytes, Nat.min_self]
    rfl
  refine ⟨hlength, ifc, hget, ?_⟩
  intro order' rest frame data
  have hdata : data = (node.ripMsg 2 ifc.vipLocal).bytes node.order ++ rest := by
    rw [← drop_ripPacket node 2 id ifc rest]
    exact congrArg (List.drop · frame) (headerLength_buildIpPacket _ _ _ _ _ _ _)
  have hlt : node.rtable.size < 65536 := hsize.trans_lt (by decide)
  rw [hdata]
  refine ⟨saddr_buildIpPacket _ _ _ _ _ _ _ _, daddr_buildIpPacket _ _ _ _ _ _ _ _,
    protocol_buildIpPacket _ _ _ _ _ _ _, readCommand_ripMsg _ _ _ _ _, ?_, ?_⟩
  · rw [readCount_ripMsg, UInt16.toNat_ofNat']
    exact Nat.mod_eq_of_lt hlt
  · rw [readEntries_ripMsg, Nat.mod_eq_of_lt hlt, List.take_of_length_le
      (Std.ExtTreeMap.length_toList).le]
    exact List.map_congr_left fun kv hkv ↦ advertised_eq hkeys ifc.vipLocal hkv

/-- A node with one interface up and one down, and a route through the first. -/
def halfDownNode : Node where
  order := .little
  interfaces := [⟨3, true, 5001, 0x0A000001, 0x0A000002⟩, ⟨-1, false, 5002, 0x0A000003, 0x0A000004⟩]
  rtable := ((∅ : RouteTable).insert 0x0A000001 (ifcEntry 0x0A000001 ⟨0, 0⟩)).insert 0x0A000009
    ⟨⟨2, 0x0A000009, 0xFFFFFFFF⟩, 0x0A000001, ⟨0, 0⟩⟩
  incomingqueue := []
  outgoingqueue := []
  output := []

/-- Its update is one packet over the first interface, which tells a big-endian peer that the
distant address is out of reach this way. -/
theorem halfDownNode_update : ∃ packets : List IpMsg,
    (halfDownNode.prepareMsg 2).incomingqueue = packets ∧ packets.map IpMsg.ifc = [0] ∧
      ∀ msg ∈ packets,
        let frame := msg.packet.take msg.size ++ []
        readEntries .big (frame.drop (4 * ((byteAt frame 0).toNat % 16))) =
          [⟨0, 0x0A000001, 0xFFFFFFFF⟩, ⟨16, 0x0A000009, 0xFFFFFFFF⟩] := by
  obtain ⟨packets, hqueue, hifcs, hread⟩ :=
    Node.prepareMsg_poisonedReverse halfDownNode (by decide) (by decide)
  have hfirst : packets.map IpMsg.ifc = [0] := hifcs
  refine ⟨packets, hqueue, hfirst, fun msg hmsg ↦ ?_⟩
  have hifc : msg.ifc = 0 := by
    have hmem : msg.ifc ∈ packets.map IpMsg.ifc := List.mem_map_of_mem hmsg
    rw [hfirst] at hmem
    exact List.mem_singleton.mp hmem
  obtain ⟨hlength, ifc, hget, hread⟩ := hread msg hmsg
  rw [hifc] at hget
  obtain rfl : (⟨3, true, 5001, 0x0A000001, 0x0A000002⟩ : LinkLayer) = ifc := Option.some.inj hget
  obtain ⟨-, -, -, -, -, hentries⟩ := hread .big []
  rw [hlength, List.take_length]
  intro frame
  rw [hentries]
  decide

end IpRipStack
