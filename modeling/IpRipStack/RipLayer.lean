import IpRipStack.IpPacket
import IpRipStack.Library.OrderedMap

/-!
# RipLayer.cc

The routing information protocol of a node: the table the constructor starts with, the handling of
a received message (`transferIpToRip`, `updateRouteTable`), the building of messages with split
horizon and poisoned reverse (`prepareMsg`, `prepareMsgIfc`), the expiry sweep
(`refreshRouteTable`), the lookup (`getNextAddress`) and the entries of an interface that comes up
or goes down. Every function is a whole operation on the node.

`gettimeofday` is read once in every turn of a loop that writes entries; the readings are a
parameter, `clock i` for turn `i`. A message is read from the memory at the pointer the layer below
hands over, which goes on behind the frame that was received.

The second half says once what each operation does. Sending only queues packets (`prepareMsg_eq`);
one received entry writes at most one route (`updateEntry_cases`); the two erasing walks keep
exactly the entries they do not pick (`refreshRouteTable_eq_some`, `eraseIfcEntries_eq_some`); the
constructor's table holds the node's own addresses (`ripLayer_getElem?`).
-/

set_option autoImplicit false
set_option relaxedAutoImplicit false

namespace IpRipStack

open MachineWord OrderedMap

def ripMask : UInt32 := 0xFFFFFFFF
def ripMaxCost : UInt32 := 0x00000010

/-- Every key of the table is the address of its entry. -/
def RouteTable.KeysMatch (table : RouteTable) : Prop :=
  ∀ (a : UInt32) (ets : EntryWts), table[a]? = some ets → ets.e.address = a

instance (table : RouteTable) : Decidable table.KeysMatch :=
  decidable_of_iff (∀ kv ∈ table.toList, kv.2.e.address = kv.1) <| by
    constructor
    · intro h a ets ha
      exact h (a, ets) (Std.ExtTreeMap.mem_toList_iff_getElem?_eq_some.mpr ha)
    · intro h kv hkv
      exact h kv.1 kv.2 (Std.ExtTreeMap.mem_toList_iff_getElem?_eq_some.mp hkv)

/-- The entry of one of the node's own interfaces, as the constructor and `add_ifc_entry` fill it
in. -/
def ifcEntry (addr : UInt32) (ts : Timeval) : EntryWts where
  e := { cost := 0, address := addr, mask := ripMask }
  nextHop := addr
  ts := ts

namespace Node

/-! ### Sending messages -/

/-- The message `prepare_msg_ifc` fills in: the whole table in the order of its keys, a route whose
next hop is the interface itself poisoned unless it is the interface's own address. -/
def ripMsg (node : Node) (msgType : UInt16) (neighbor : UInt32) : RipMsg where
  command := htons node.order msgType
  numEntries := htons node.order (UInt16.ofNat node.rtable.size)
  entries := node.rtable.toList.map fun kv ↦
    { cost :=
        if kv.2.e.address ≠ neighbor ∧ neighbor = kv.2.nextHop then htonl node.order ripMaxCost
        else htonl node.order kv.2.e.cost
      address := htonl node.order kv.2.e.address
      mask := htonl node.order kv.2.e.mask }

end Node

/-- The buffer into which `prepare_msg_ifc` copies the command, the count and the entries. -/
def RipMsg.bytes (order : ByteOrder) (msg : RipMsg) : List UInt8 :=
  store16 order msg.command ++
    (store16 order msg.numEntries ++ msg.entries.flatMap (Entry.bytes order))

namespace Node

/-- `RipLayer::prepare_msg_ifc`. -/
def prepareMsgIfc (node : Node) (msgType : UInt16) (id : ℕ) : Node :=
  match node.interfaces[id]? with
  | none => node
  | some ifc =>
    let msg := node.ripMsg msgType ifc.vipLocal
    node.transferRipToIp id (msg.bytes node.order) (12 * msg.entries.length + 4)

/-- `RipLayer::prepare_msg`: a message over every interface that is up. -/
def prepareMsg (node : Node) (msgType : UInt16) : Node :=
  (List.range node.interfaces.length).foldl
    (fun node id ↦ if node.isUp id then node.prepareMsgIfc msgType id else node) node

/-! ### Receiving messages -/

/-- One turn of the loop of `update_route_table`, on the entry it has copied out: the table before
to the table after. -/
def updateEntry (node : Node) (table : RouteTable) (curEntry : Entry) (next : UInt32)
    (now : Timeval) : RouteTable :=
  let curaddress := ntohl node.order curEntry.address
  let cost := ntohl node.order curEntry.cost
  let e : Entry :=
    { cost := cost + 1
      address := ntohl node.order curEntry.address
      mask := ntohl node.order curEntry.mask }
  if node.isMyInterface curaddress ∨ cost = ripMaxCost then table
  else
    match table[curaddress]? with
    | none => table.insert curaddress { e := e, nextHop := next, ts := now }
    | some ets =>
      if ets.e.cost > cost + 1 then table.insert curaddress { e := e, nextHop := next, ts := now }
      else table

/-- `RipLayer::update_route_table`. -/
def updateRouteTable (node : Node) (data : List UInt8) (next : UInt32) (clock : ℕ → Timeval) :
    Node :=
  let nentries := ntohs node.order (load16 node.order data 0)
  let data := data.drop 2
  { node with
    rtable := (List.range nentries.toNat).foldl
      (fun table i ↦
        node.updateEntry table (Entry.load node.order (data.drop (12 * i))) next (clock i))
      node.rtable }

/-- `RipLayer::transfer_ip_to_rip`. An unknown command is reported and otherwise ignored. -/
def transferIpToRip (node : Node) (data : List UInt8) (next : UInt32) (clock : ℕ → Timeval) :
    Node :=
  let cmdType := ntohs node.order (load16 node.order data 0)
  let data := data.drop 2
  if cmdType = 1 then node.prepareMsg 2
  else if cmdType = 2 then node.updateRouteTable data next clock
  else node

/-! ### Expiry, lookup and interfaces -/

/-- `RipLayer::refresh_route_table`, with the clock reading it takes. -/
def refreshRouteTable (node : Node) (curtv : Timeval) : Node :=
  { node with
    rtable := eraseWhere (fun key ets ↦ !node.isMyInterface key &&
      decide (curtv.micros - ets.ts.micros > UInt64.ofNat (refreshTimerVal * 1000000))) node.rtable }

/-- `RipLayer::get_next_address`: the scan goes on after a match. -/
def getNextAddress (node : Node) (dest nextAddr : UInt32) : UInt32 :=
  node.rtable.toList.foldl (fun next kv ↦ if kv.2.e.address = dest then kv.2.nextHop else next)
    nextAddr

/-- The walk of `RipLayer::remove_ifc_entry`. -/
def eraseIfcEntries (node : Node) (daddr : UInt32) : Node :=
  { node with
    rtable := eraseWhere (fun key ets ↦ ets.nextHop == daddr || key == daddr) node.rtable }

/-- `RipLayer::remove_ifc_entry`: the walk, then an update to the neighbours. -/
def removeIfcEntry (node : Node) (daddr : UInt32) : Node :=
  (node.eraseIfcEntries daddr).prepareMsg 2

/-- `RipLayer::add_ifc_entry`. -/
def addIfcEntry (node : Node) (addr : UInt32) (now : Timeval) : Node :=
  { node with rtable := node.rtable.insert addr (ifcEntry addr now) }

/-- The constructor of `RipLayer`: an entry for every interface, then a request to the
neighbours. -/
def ripLayer (node : Node) (clock : ℕ → Timeval) : Node :=
  let table : RouteTable := node.interfaces.zipIdx.foldl
    (fun table ifc ↦ table.insert ifc.1.vipLocal (ifcEntry ifc.1.vipLocal (clock ifc.2))) ∅
  prepareMsg { node with rtable := table } 1

/-! ### What sending does -/

/-- The packet `prepare_msg_ifc` queues for an interface that exists. -/
def ripPacket (node : Node) (msgType : UInt16) (id : ℕ) (ifc : LinkLayer) : IpMsg :=
  let msg := node.ripMsg msgType ifc.vipLocal
  { ifc := id
    size := minHdrLen.val * 4 + (12 * msg.entries.length + 4)
    packet := buildIpPacket node.order ifc.vipLocal ifc.vipRemote ripProto (msg.bytes node.order)
      (12 * msg.entries.length + 4) }

/-- The packet `prepare_msg` queues for a position of the interface list, if any. -/
def ripPacket? (node : Node) (msgType : UInt16) (id : ℕ) : Option IpMsg :=
  (node.interfaces[id]?).bind fun ifc ↦
    if ifc.isup then some (node.ripPacket msgType id ifc) else none

theorem prepareMsgIfc_eq {node : Node} {id : ℕ} {ifc : LinkLayer} (msgType : UInt16)
    (h : node.interfaces[id]? = some ifc) : node.prepareMsgIfc msgType id =
      { node with incomingqueue := node.incomingqueue ++ [node.ripPacket msgType id ifc] } := by
  simp only [prepareMsgIfc, transferRipToIp, h]
  rfl

/-- Sending to the interfaces of a list of positions appends the packets of those that are up. -/
theorem foldl_prepareMsgIfc (msgType : UInt16) (ids : List ℕ) (node : Node) :
    ids.foldl (fun node id ↦ if node.isUp id then node.prepareMsgIfc msgType id else node) node =
      { node with
        incomingqueue := node.incomingqueue ++ ids.filterMap (node.ripPacket? msgType) } := by
  induction ids generalizing node with
  | nil => rw [List.filterMap_nil, List.append_nil, List.foldl_nil]
  | cons id ids ih =>
    rw [List.foldl_cons, ih, List.filterMap_cons]
    cases hget : node.interfaces[id]? with
    | none =>
      have hdown : node.isUp id = false := by simp [isUp, hget]
      have hnone : node.ripPacket? msgType id = none := by simp [ripPacket?, hget]
      rw [hdown, hnone]
      rfl
    | some ifc =>
      have hisup : node.isUp id = ifc.isup := by simp [isUp, hget]
      rw [hisup]
      cases hup : ifc.isup with
      | false =>
        have hnone : node.ripPacket? msgType id = none := by simp [ripPacket?, hget, hup]
        rw [hnone]
        rfl
      | true =>
        have hsome : node.ripPacket? msgType id = some (node.ripPacket msgType id ifc) := by
          simp [ripPacket?, hget, hup]
        rw [hsome, if_pos rfl, prepareMsgIfc_eq msgType hget, List.append_assoc]
        rfl

/-- Sending queues one packet for every interface that is up, in the order of the interfaces, and
changes nothing else. -/
theorem prepareMsg_eq (node : Node) (msgType : UInt16) : node.prepareMsg msgType =
    { node with incomingqueue := node.incomingqueue ++
        (List.range node.interfaces.length).filterMap (node.ripPacket? msgType) } :=
  foldl_prepareMsgIfc msgType _ node

@[simp] theorem prepareMsg_rtable (node : Node) (msgType : UInt16) :
    (node.prepareMsg msgType).rtable = node.rtable := by
  rw [prepareMsg_eq]

@[simp] theorem prepareMsg_interfaces (node : Node) (msgType : UInt16) :
    (node.prepareMsg msgType).interfaces = node.interfaces := by
  rw [prepareMsg_eq]

@[simp] theorem prepareMsg_order (node : Node) (msgType : UInt16) :
    (node.prepareMsg msgType).order = node.order := by
  rw [prepareMsg_eq]

@[simp] theorem prepareMsg_outgoingqueue (node : Node) (msgType : UInt16) :
    (node.prepareMsg msgType).outgoingqueue = node.outgoingqueue := by
  rw [prepareMsg_eq]

end Node

/-! ### What one received entry does -/

/-- The fields of a received entry in host order. -/
def Entry.ntoh (order : ByteOrder) (e : Entry) : Entry where
  cost := ntohl order e.cost
  address := ntohl order e.address
  mask := ntohl order e.mask

/-- The route `update_route_table` writes for a received entry with the given values. -/
def Entry.route (e : Entry) (next : UInt32) (now : Timeval) : EntryWts where
  e := { e with cost := e.cost + 1 }
  nextHop := next
  ts := now

namespace Node

/-- The entries `update_route_table` passes over: addresses of the node's own, unreachable
destinations, and destinations for which the table has a route that costs no more. -/
def Ignores (node : Node) (table : RouteTable) (e : Entry) : Prop :=
  node.isMyInterface e.address = true ∨ e.cost = ripMaxCost ∨
    ∃ ets, table[e.address]? = some ets ∧ ets.e.cost ≤ e.cost + 1

/-- A received entry is passed over or its route is written. -/
theorem updateEntry_cases (node : Node) (table : RouteTable) (curEntry : Entry) (next : UInt32)
    (now : Timeval) :
    let e := curEntry.ntoh node.order
    (node.Ignores table e ∧ node.updateEntry table curEntry next now = table) ∨
      (¬ node.Ignores table e ∧ node.updateEntry table curEntry next now =
        table.insert e.address (e.route next now)) := by
  intro e
  by_cases hskip : node.isMyInterface e.address = true ∨ e.cost = ripMaxCost
  · refine Or.inl ⟨hskip.imp_right Or.inl, ?_⟩
    simp only [updateEntry]
    exact if_pos hskip
  · have hbody : node.updateEntry table curEntry next now =
        match table[e.address]? with
        | none => table.insert e.address (e.route next now)
        | some ets =>
          if ets.e.cost > e.cost + 1 then table.insert e.address (e.route next now) else table := by
      simp only [updateEntry]
      exact if_neg hskip
    rw [hbody]
    cases hold : table[e.address]? with
    | none =>
      refine Or.inr ⟨?_, rfl⟩
      rintro (hmine | hcost | ⟨ets, hets, -⟩)
      · exact hskip (Or.inl hmine)
      · exact hskip (Or.inr hcost)
      · rw [hold] at hets
        exact absurd hets.symm (Option.some_ne_none ets)
    | some ets =>
      by_cases hbetter : ets.e.cost > e.cost + 1
      · refine Or.inr ⟨?_, if_pos hbetter⟩
        rintro (hmine | hcost | ⟨ets', hets', hle⟩)
        · exact hskip (Or.inl hmine)
        · exact hskip (Or.inr hcost)
        · rw [hold] at hets'
          obtain rfl := Option.some.inj hets'
          exact UInt32.not_le.mpr hbetter hle
      · exact Or.inl ⟨Or.inr (Or.inr ⟨ets, hold, UInt32.not_lt.mp hbetter⟩), if_neg hbetter⟩

/-! ### The whole loop, and the other operations -/

/-- A predicate of the table that every received entry keeps is kept by the whole message. -/
theorem updateRouteTable_induction {P : RouteTable → Prop} (node : Node) (data : List UInt8)
    (next : UInt32) (clock : ℕ → Timeval) (h : P node.rtable)
    (hstep : ∀ table i, i < (ntohs node.order (load16 node.order data 0)).toNat → P table →
      P (node.updateEntry table (Entry.load node.order ((data.drop 2).drop (12 * i))) next
        (clock i))) : P (node.updateRouteTable data next clock).rtable :=
  List.foldlRecOn _ _ h fun table htable i hi ↦ hstep table i (List.mem_range.mp hi) htable

/-- The expiry sweep keeps the node's own addresses and the routes that are not too old. -/
theorem refreshRouteTable_eq_some {node : Node} {curtv : Timeval} {a : UInt32} {ets : EntryWts} :
    (node.refreshRouteTable curtv).rtable[a]? = some ets ↔ node.rtable[a]? = some ets ∧
      (node.isMyInterface a = true ∨
        ¬ curtv.micros - ets.ts.micros > UInt64.ofNat (refreshTimerVal * 1000000)) := by
  rw [refreshRouteTable, getElem?_eraseWhere_eq_some]
  simp only [Bool.and_eq_false_iff, Bool.not_eq_false', decide_eq_false_iff_not]

/-- Taking an interface down keeps the routes that neither are for its address nor go through
it. -/
theorem eraseIfcEntries_eq_some {node : Node} {daddr a : UInt32} {ets : EntryWts} :
    (node.eraseIfcEntries daddr).rtable[a]? = some ets ↔
      node.rtable[a]? = some ets ∧ ets.nextHop ≠ daddr ∧ a ≠ daddr := by
  rw [eraseIfcEntries, getElem?_eraseWhere_eq_some]
  simp only [Bool.or_eq_false_iff, beq_eq_false_iff_ne]

/-- The lookup in a table whose keys are the addresses of its entries. -/
theorem getNextAddress_eq {node : Node} (hkeys : node.rtable.KeysMatch) (dest nextAddr : UInt32) :
    node.getNextAddress dest nextAddr = (node.rtable[dest]?.map EntryWts.nextHop).getD nextAddr := by
  have hmem : ∀ kv ∈ node.rtable.toList, kv.2.e.address = dest →
      node.rtable[dest]? = some kv.2 := by
    rintro ⟨a, ets⟩ hkv haddress
    have hget := Std.ExtTreeMap.mem_toList_iff_getElem?_eq_some.mp hkv
    rw [← haddress, hkeys a ets hget]
    exact hget
  refine foldl_ite_eq (fun kv : UInt32 × EntryWts ↦ kv.2.nextHop) _ ?_ ?_
  · intro kv hkv haddress
    rw [hmem kv hkv haddress]
    rfl
  · cases hget : node.rtable[dest]? with
    | none => exact Or.inl rfl
    | some ets =>
      exact Or.inr ⟨(dest, ets), Std.ExtTreeMap.mem_toList_iff_getElem?_eq_some.mpr hget,
        hkeys dest ets hget⟩

/-- The entries a walk over interfaces adds to a table. -/
theorem foldl_insert_ifcEntry (clock : ℕ → Timeval) (ifcs : List (LinkLayer × ℕ))
    (table : RouteTable) (a : UInt32) :
    (ifcs.foldl (fun table ifc ↦
        table.insert ifc.1.vipLocal (ifcEntry ifc.1.vipLocal (clock ifc.2))) table)[a]? = table[a]? ∧
        (∀ ifc ∈ ifcs, ifc.1.vipLocal ≠ a) ∨
      ∃ ifc ∈ ifcs, ifc.1.vipLocal = a ∧
        (ifcs.foldl (fun table ifc ↦ table.insert ifc.1.vipLocal
          (ifcEntry ifc.1.vipLocal (clock ifc.2))) table)[a]? = some (ifcEntry a (clock ifc.2)) := by
  induction ifcs generalizing table with
  | nil => exact Or.inl ⟨rfl, fun ifc hifc ↦ absurd hifc List.not_mem_nil⟩
  | cons ifc rest ih =>
    rw [List.foldl_cons]
    rcases ih (table.insert ifc.1.vipLocal (ifcEntry ifc.1.vipLocal (clock ifc.2))) with
      ⟨hsame, hnone⟩ | ⟨ifc', hmem, haddress, hentry⟩
    · rw [hsame, getElem?_insert_eq]
      by_cases haddress : ifc.1.vipLocal = a
      · exact Or.inr ⟨ifc, List.mem_cons_self, haddress, by rw [if_pos haddress, haddress]⟩
      · refine Or.inl ⟨if_neg haddress, fun ifc' hmem ↦ ?_⟩
        rcases List.mem_cons.mp hmem with rfl | hmem
        · exact haddress
        · exact hnone ifc' hmem
    · exact Or.inr ⟨ifc', List.mem_cons_of_mem _ hmem, haddress, hentry⟩

/-- The constructor's table has an entry for the node's own addresses and for no others. -/
theorem ripLayer_getElem? (node : Node) (clock : ℕ → Timeval) (a : UInt32) :
    (node.isMyInterface a = false ∧ (node.ripLayer clock).rtable[a]? = none) ∨
      (node.isMyInterface a = true ∧
        ∃ i, (node.ripLayer clock).rtable[a]? = some (ifcEntry a (clock i))) := by
  rw [ripLayer, prepareMsg_rtable]
  rcases foldl_insert_ifcEntry clock node.interfaces.zipIdx ∅ a with
    ⟨hsame, hnone⟩ | ⟨ifc, hmem, haddress, hentry⟩
  · refine Or.inl ⟨?_, hsame⟩
    rw [Bool.eq_false_iff, ne_eq, isMyInterface_iff]
    rintro ⟨ll, hll, haddress⟩
    obtain ⟨i, hget⟩ := List.getElem?_of_mem hll
    exact hnone (ll, i) (List.mk_mem_zipIdx_iff_getElem?.mpr hget) haddress
  · refine Or.inr ⟨(isMyInterface_iff node a).mpr ⟨ifc.1, ?_, haddress⟩, ifc.2, hentry⟩
    exact List.mem_of_getElem? (List.mk_mem_zipIdx_iff_getElem?.mp hmem)

end Node

end IpRipStack
