import IpRipStack.NodeImpl

/-!
# The invariant of the routing table

What the table of a node looks like after any operations in any order. `TableInvariant` relates it
to the state of the interfaces: keys are the addresses of their entries, an interface has its own
entry exactly while it is up, and every other entry leaves by an interface that is up. Each writer
and eraser of the table keeps it (`TableInvariant.updateEntry`, `.refresh`, `.remove`, `.add`), so
every operation of a node does (`WellFormed.step`).

`Node.reachable_table` puts it together for all states a node can reach, with what it means for a
lookup: `get_next_address` finds the route of a key, and the interface it names is there and up.
-/

set_option autoImplicit false
set_option relaxedAutoImplicit false

namespace IpRipStack

open MachineWord OrderedMap Runs

/-- The table, as the states of the interfaces determine it. -/
structure TableInvariant (ifcs : List LinkLayer) (table : RouteTable) : Prop where
  keys : table.KeysMatch
  /-- An interface that is up has its entry. -/
  own : ∀ ifc ∈ ifcs, ifc.isup = true →
    ∃ ts, table[ifc.vipLocal]? = some (ifcEntry ifc.vipLocal ts)
  /-- An interface that is down has none. -/
  down : ∀ ifc ∈ ifcs, ifc.isup = false → table[ifc.vipLocal]? = none
  /-- Every other entry leaves by an interface that is up. -/
  learned : ∀ (a : UInt32) (ets : EntryWts), table[a]? = some ets →
    (∀ ifc ∈ ifcs, ifc.vipLocal ≠ a) → ∃ ifc ∈ ifcs, ifc.isup = true ∧ ets.nextHop = ifc.vipLocal

/-- A node whose interfaces have distinct addresses, with its table in order and no received frame
waiting. -/
structure Node.WellFormed (node : Node) : Prop where
  distinct : node.DistinctVips
  idle : node.outgoingqueue = []
  table : TableInvariant node.interfaces node.rtable

theorem isMyInterface_eq_false_iff (node : Node) (addr : UInt32) :
    node.isMyInterface addr = false ↔ ∀ ifc ∈ node.interfaces, ifc.vipLocal ≠ addr := by
  rw [Bool.eq_false_iff, ne_eq, Node.isMyInterface_iff, not_exists]
  exact forall_congr' fun ifc ↦ not_and

namespace TableInvariant

variable {ifcs : List LinkLayer} {table : RouteTable}

/-- Writing a route for an address that is not the node's own. -/
theorem insert (h : TableInvariant ifcs table) {a : UInt32} {ets : EntryWts}
    (haddress : ets.e.address = a) (hother : ∀ ifc ∈ ifcs, ifc.vipLocal ≠ a)
    (hnext : ∃ ifc ∈ ifcs, ifc.isup = true ∧ ets.nextHop = ifc.vipLocal) :
    TableInvariant ifcs (table.insert a ets) := by
  constructor
  · intro b ets' hb
    rw [getElem?_insert_eq] at hb
    split_ifs at hb with hkey
    · rw [← Option.some.inj hb, haddress, hkey]
    · exact h.keys b ets' hb
  · intro ifc hifc hup
    rw [getElem?_insert_eq, if_neg (hother ifc hifc).symm]
    exact h.own ifc hifc hup
  · intro ifc hifc hdown
    rw [getElem?_insert_eq, if_neg (hother ifc hifc).symm]
    exact h.down ifc hifc hdown
  · intro b ets' hb hb'
    rw [getElem?_insert_eq] at hb
    split_ifs at hb with hkey
    · rw [← Option.some.inj hb]
      exact hnext
    · exact h.learned b ets' hb hb'

/-- Erasing routes for addresses that are not the node's own. -/
theorem erase (h : TableInvariant ifcs table) {table' : RouteTable}
    (hsub : ∀ (a : UInt32) (ets : EntryWts), table'[a]? = some ets → table[a]? = some ets)
    (hkept : ∀ ifc ∈ ifcs, table'[ifc.vipLocal]? = table[ifc.vipLocal]?) :
    TableInvariant ifcs table' := by
  constructor
  · intro a ets ha
    exact h.keys a ets (hsub a ets ha)
  · intro ifc hifc hup
    rw [hkept ifc hifc]
    exact h.own ifc hifc hup
  · intro ifc hifc hdown
    rw [hkept ifc hifc]
    exact h.down ifc hifc hdown
  · intro a ets ha hother
    exact h.learned a ets (hsub a ets ha) hother

end TableInvariant

namespace TableInvariant

/-- Assumes: a next hop that is the address of an interface that is up. One received entry keeps the
invariant. -/
theorem updateEntry {node : Node} {table : RouteTable}
    (htable : TableInvariant node.interfaces table) {next : UInt32} {id : ℕ}
    (hid : node.getInterface next = some id) (hup : node.isUp id = true) (curEntry : Entry)
    (now : Timeval) :
    TableInvariant node.interfaces (node.updateEntry table curEntry next now) := by
  rcases node.updateEntry_cases table curEntry next now with ⟨-, hsame⟩ | ⟨hnot, hnew⟩
  · rw [hsame]
    exact htable
  · rw [hnew]
    refine htable.insert rfl ?_ ?_
    · rw [← isMyInterface_eq_false_iff, Bool.eq_false_iff]
      intro hmine
      exact hnot (Or.inl hmine)
    · obtain ⟨ifc, hget, hvip⟩ := Node.getInterface_eq_some hid
      have hisup : ifc.isup = true := by simpa [Node.isUp, hget] using hup
      exact ⟨ifc, List.mem_of_getElem? hget, hisup, hvip.symm⟩

/-- The expiry sweep keeps the invariant. -/
theorem refresh {node : Node} (h : TableInvariant node.interfaces node.rtable) (curtv : Timeval) :
    TableInvariant node.interfaces (node.refreshRouteTable curtv).rtable := by
  apply h.erase
  · intro a ets ha
    exact (Node.refreshRouteTable_eq_some.mp ha).1
  · intro ifc hifc
    have hmine : node.isMyInterface ifc.vipLocal = true :=
      (Node.isMyInterface_iff node _).mpr ⟨ifc, hifc, rfl⟩
    ext ets
    rw [Node.refreshRouteTable_eq_some]
    exact and_iff_left (Or.inl hmine)

end TableInvariant

/-! ### Interfaces that come and go -/

theorem mem_set_cases {α : Type*} {l : List α} {id : ℕ} {a b : α} (h : a ∈ l.set id b) :
    a = b ∨ ∃ j, j ≠ id ∧ l[j]? = some a := by
  obtain ⟨j, hj⟩ := List.getElem?_of_mem h
  rw [List.getElem?_set] at hj
  split_ifs at hj with hindex
  · exact Or.inl (Option.some.inj hj).symm
  · exact Or.inr ⟨j, fun hsame ↦ hindex hsame.symm, hj⟩

theorem mem_set_of_ne {α : Type*} {l : List α} {id j : ℕ} {a b : α} (hne : j ≠ id)
    (h : l[j]? = some a) : a ∈ l.set id b := by
  have hset : (l.set id b)[j]? = some a := by rw [List.getElem?_set, if_neg hne.symm, h]
  exact List.mem_of_getElem? hset

/-- What holds of the replaced element and of the list after the replacement holds of the list. -/
theorem forall_mem_of_set {α : Type*} {P : α → Prop} {l : List α} {id : ℕ} {a b : α}
    (hget : l[id]? = some a) (ha : P a) (h : ∀ x ∈ l.set id b, P x) : ∀ x ∈ l, P x := by
  intro x hmem
  obtain ⟨j, hj⟩ := List.getElem?_of_mem hmem
  by_cases hindex : j = id
  · rw [hindex, hget] at hj
    rwa [← Option.some.inj hj]
  · exact h x (mem_set_of_ne hindex hj)

theorem Node.DistinctVips.vipLocal_ne {node : Node} (h : node.DistinctVips) {j id : ℕ}
    {ifc ifc' : LinkLayer} (hne : j ≠ id) (hj : node.interfaces[j]? = some ifc')
    (hid : node.interfaces[id]? = some ifc) : ifc'.vipLocal ≠ ifc.vipLocal := by
  intro hsame
  have hfound := h.getInterface_eq hj
  rw [hsame, h.getInterface_eq hid] at hfound
  exact hne (Option.some.inj hfound).symm

namespace TableInvariant

/-- Taking an interface down keeps the invariant: its entry goes, and the routes through it. -/
theorem remove {node : Node} (h : TableInvariant node.interfaces node.rtable)
    (hdistinct : node.DistinctVips) {id : ℕ} {ifc : LinkLayer}
    (hget : node.interfaces[id]? = some ifc) :
    TableInvariant (node.interfaces.set id ifc.down)
      (node.eraseIfcEntries ifc.vipLocal).rtable := by
  constructor
  · intro a ets ha
    exact h.keys a ets (Node.eraseIfcEntries_eq_some.mp ha).1
  · intro ifc' hmem hup
    rcases mem_set_cases hmem with rfl | ⟨j, hne, hj⟩
    · exact absurd hup Bool.false_ne_true
    · obtain ⟨ts, hts⟩ := h.own ifc' (List.mem_of_getElem? hj) hup
      have hvip := hdistinct.vipLocal_ne hne hj hget
      exact ⟨ts, Node.eraseIfcEntries_eq_some.mpr ⟨hts, hvip, hvip⟩⟩
  · intro ifc' hmem hdown
    rw [Option.eq_none_iff_forall_ne_some]
    intro ets hets
    obtain ⟨hold, -, hkey⟩ := Node.eraseIfcEntries_eq_some.mp hets
    rcases mem_set_cases hmem with rfl | ⟨j, -, hj⟩
    · exact hkey rfl
    · rw [h.down ifc' (List.mem_of_getElem? hj) hdown] at hold
      exact Option.some_ne_none ets hold.symm
  · intro a ets ha hother
    obtain ⟨hold, hnext, hkey⟩ := Node.eraseIfcEntries_eq_some.mp ha
    have hother' : ∀ ifc' ∈ node.interfaces, ifc'.vipLocal ≠ a :=
      forall_mem_of_set hget hkey.symm hother
    obtain ⟨ifc', hmem, hup, hhop⟩ := h.learned a ets hold hother'
    obtain ⟨j, hj⟩ := List.getElem?_of_mem hmem
    refine ⟨ifc', mem_set_of_ne ?_ hj, hup, hhop⟩
    rintro rfl
    rw [hget] at hj
    exact hnext (hhop.trans (congrArg _ (Option.some.inj hj).symm))

/-- Bringing an interface up keeps the invariant: its entry is there again. -/
theorem add {node : Node} (h : TableInvariant node.interfaces node.rtable)
    (hdistinct : node.DistinctVips) {id : ℕ} {ifc : LinkLayer}
    (hget : node.interfaces[id]? = some ifc) (sockfd : Int) (now : Timeval) :
    TableInvariant (node.interfaces.set id (ifc.up sockfd))
      (node.rtable.insert ifc.vipLocal (ifcEntry ifc.vipLocal now)) := by
  have hnew : ifc.up sockfd ∈ node.interfaces.set id (ifc.up sockfd) :=
    List.mem_set (List.getElem?_eq_some_iff.mp hget).1 _
  constructor
  · intro a ets ha
    rw [getElem?_insert_eq] at ha
    split_ifs at ha with hkey
    · rw [← Option.some.inj ha, ← hkey]
      rfl
    · exact h.keys a ets ha
  · intro ifc' hmem hup
    rcases mem_set_cases hmem with rfl | ⟨j, hne, hj⟩
    · refine ⟨now, ?_⟩
      rw [getElem?_insert_eq]
      exact if_pos rfl
    · have hvip := hdistinct.vipLocal_ne hne hj hget
      rw [getElem?_insert_eq, if_neg hvip.symm]
      exact h.own ifc' (List.mem_of_getElem? hj) hup
  · intro ifc' hmem hdown
    rcases mem_set_cases hmem with rfl | ⟨j, hne, hj⟩
    · exact absurd hdown.symm Bool.false_ne_true
    · have hvip := hdistinct.vipLocal_ne hne hj hget
      rw [getElem?_insert_eq, if_neg hvip.symm]
      exact h.down ifc' (List.mem_of_getElem? hj) hdown
  · intro a ets ha hother
    have hkey : ifc.vipLocal ≠ a := hother (ifc.up sockfd) hnew
    rw [getElem?_insert_eq, if_neg hkey] at ha
    have hother' : ∀ ifc' ∈ node.interfaces, ifc'.vipLocal ≠ a :=
      forall_mem_of_set hget hkey hother
    obtain ⟨ifc', hmem, hup, hhop⟩ := h.learned a ets ha hother'
    obtain ⟨j, hj⟩ := List.getElem?_of_mem hmem
    by_cases hindex : j = id
    · rw [hindex, hget] at hj
      obtain rfl := Option.some.inj hj
      exact ⟨ifc.up sockfd, hnew, rfl, hhop⟩
    · exact ⟨ifc', mem_set_of_ne hindex hj, hup, hhop⟩

end TableInvariant

/-! ### All operations -/

namespace Node

theorem SameLinks.distinctVips {node node' : Node} (h : node.SameLinks node')
    (hdistinct : node.DistinctVips) : node'.DistinctVips := by
  unfold DistinctVips
  rw [h.vips]
  exact hdistinct

theorem SameLinks.isMyInterface {node node' : Node} (h : node.SameLinks node') (addr : UInt32) :
    node'.isMyInterface addr = node.isMyInterface addr := by
  have hany : ∀ node : Node, node.isMyInterface addr =
      (node.interfaces.map LinkLayer.vipLocal).any fun vip ↦ vip == addr := by
    intro node
    unfold Node.isMyInterface
    rw [List.any_map]
    rfl
  rw [hany, hany, h.vips]

theorem SameLinks.getInterface {node node' : Node} (h : node.SameLinks node') (addr : UInt32) :
    node'.getInterface addr = node.getInterface addr := by
  have hfind : ∀ node : Node, node.getInterface addr =
      (node.interfaces.map LinkLayer.vipLocal).findIdx? fun vip ↦ vip == addr := by
    intro node
    unfold Node.getInterface
    rw [List.findIdx?_map]
    rfl
  rw [hfind, hfind, h.vips]

/-- The constructor's table. Assumes: link addresses that are pairwise distinct. -/
theorem WellFormed.new (order : ByteOrder) {links : List LinkConfig} (clock : ℕ → Timeval)
    (hdistinct : (links.map LinkConfig.vipLocal).Nodup) :
    (Node.new order links clock).WellFormed := by
  have hups : ∀ ifc ∈ links.map LinkLayer.new, ifc.isup = true := by
    intro ifc hifc
    obtain ⟨link, -, rfl⟩ := List.mem_map.mp hifc
    rfl
  let start : Node := ⟨order, links.map LinkLayer.new, ∅, [], [], []⟩
  have hstart : start.DistinctVips := by
    unfold DistinctVips
    rw [List.map_map]
    exact hdistinct
  refine ⟨?_, ?_, ?_⟩
  · unfold DistinctVips
    rw [new_interfaces]
    exact hstart
  · exact prepareMsg_outgoingqueue _ 1
  · rw [new_interfaces]
    have hentries := start.ripLayer_getElem? clock
    constructor
    · intro a ets ha
      rcases hentries a with ⟨-, hnone⟩ | ⟨-, i, hentry⟩
      · exact absurd (ha.symm.trans hnone) (Option.some_ne_none ets)
      · rw [← Option.some.inj (hentry.symm.trans ha)]
        rfl
    · intro ifc hifc _
      rcases hentries ifc.vipLocal with ⟨hother, -⟩ | ⟨-, i, hentry⟩
      · exact absurd rfl ((isMyInterface_eq_false_iff start _).mp hother ifc hifc)
      · exact ⟨clock i, hentry⟩
    · intro ifc hifc hdown
      rw [hups ifc hifc] at hdown
      exact absurd hdown.symm Bool.false_ne_true
    · intro a ets ha hother
      rcases hentries a with ⟨-, hnone⟩ | ⟨hmine, -, -⟩
      · exact absurd (ha.symm.trans hnone) (Option.some_ne_none ets)
      · rw [(isMyInterface_eq_false_iff start a).mpr hother] at hmine
        exact absurd hmine Bool.false_ne_true

/-- Every command keeps the node well formed. -/
theorem WellFormed.execute {node node' : Node} (h : node.WellFormed) {c : Command}
    (hexecute : node.execute c = some node') : node'.WellFormed := by
  have hsame := execute_sameLinks hexecute
  refine ⟨hsame.distinctVips h.distinct, hsame.outgoingqueue.trans h.idle, ?_⟩
  cases c with
  | send msgType =>
    obtain rfl := Option.some.inj hexecute
    rw [prepareMsg_rtable, prepareMsg_interfaces]
    exact h.table
  | refresh curtv =>
    obtain rfl := Option.some.inj hexecute
    exact h.table.refresh curtv
  | down interface =>
    obtain ⟨ifc, hget, rfl⟩ := Option.map_eq_some_iff.mp hexecute
    rw [removeIfcEntry, prepareMsg_rtable, prepareMsg_interfaces]
    exact h.table.remove h.distinct hget
  | up interface sockfd now =>
    obtain ⟨ifc, hget, rfl⟩ := Option.map_eq_some_iff.mp hexecute
    exact h.table.add h.distinct hget sockfd now

/-- The reception of any frame keeps the node well formed. -/
theorem WellFormed.receiveFrame {node : Node} (h : node.WellFormed) (frame : List UInt8)
    (next : UInt32) (stale : List UInt8) (clock : ℕ → Timeval) :
    (node.receiveFrame frame next stale clock).WellFormed := by
  have hsame := receiveFrame_sameLinks h.idle frame next stale clock
  refine ⟨hsame.distinctVips h.distinct, hsame.outgoingqueue.trans h.idle, ?_⟩
  rw [receiveFrame_interfaces h.idle]
  refine receiveFrame_induction h.idle frame stale h.table ?_
  intro table curEntry i id hid hup _ htable
  exact htable.updateEntry hid hup curEntry (clock i)

/-- Every operation keeps the node well formed. -/
theorem WellFormed.step {node node' : Node} (h : node.WellFormed) {event : Event}
    (hstep : node.Step event node') : node'.WellFormed := by
  cases event with
  | command c => exact h.execute hstep
  | receive interface frame stale clock =>
    obtain ⟨ifc, -, rfl⟩ := Option.map_eq_some_iff.mp hstep
    exact h.receiveFrame frame ifc.vipLocal stale clock
  | application dest proto payload =>
    obtain rfl := Option.some.inj hstep
    obtain ⟨queue, hqueue⟩ := node.transferApplicationToIp_cases dest proto payload payload.length
    rw [hqueue]
    exact ⟨h.distinct, h.idle, h.table⟩
  | transmit =>
    obtain rfl := Option.some.inj hstep
    exact ⟨h.distinct, h.idle, h.table⟩

/-! ### What it means for the lookups -/

/-- Every route of a node, its own addresses included, leaves by an interface that is up and that
`get_interface` finds. -/
theorem WellFormed.getInterface_nextHop {node : Node} (h : node.WellFormed) {a : UInt32}
    {ets : EntryWts} (ha : node.rtable[a]? = some ets) :
    ∃ id ifc, node.getInterface ets.nextHop = some id ∧ node.interfaces[id]? = some ifc ∧
      ifc.isup = true := by
  have hnext : ∃ ifc ∈ node.interfaces, ifc.isup = true ∧ ets.nextHop = ifc.vipLocal := by
    by_cases hmine : node.isMyInterface a = true
    · obtain ⟨ifc, hifc, rfl⟩ := (isMyInterface_iff node a).mp hmine
      cases hup : ifc.isup with
      | false =>
        rw [h.table.down ifc hifc hup] at ha
        exact absurd ha.symm (Option.some_ne_none ets)
      | true =>
        obtain ⟨ts, hts⟩ := h.table.own ifc hifc hup
        rw [hts] at ha
        rw [← Option.some.inj ha]
        exact ⟨ifc, hifc, hup, rfl⟩
    · rw [Bool.not_eq_true, isMyInterface_eq_false_iff] at hmine
      exact h.table.learned a ets ha hmine
  obtain ⟨ifc, hifc, hup, hhop⟩ := hnext
  obtain ⟨id, hid⟩ := List.getElem?_of_mem hifc
  rw [hhop]
  exact ⟨id, ifc, h.distinct.getInterface_eq hid, hid, hup⟩

theorem WellFormed.of_reachable {order : ByteOrder} {links : List LinkConfig} {clock : ℕ → Timeval}
    (hdistinct : (links.map LinkConfig.vipLocal).Nodup) {node : Node}
    (hreach : Reachable Step (Node.new order links clock) node) : node.WellFormed :=
  hreach.invariant (fun _ _ _ h hstep ↦ h.step hstep) (WellFormed.new order clock hdistinct)

/-- In every state a node reaches from its constructor, whatever frames it receives and whatever
commands it is given, the keys of the table are the addresses of its entries; the address of an
interface is a key exactly while the interface is up, and then its entry is the interface's own; and
every other entry leaves by an interface that is up. A lookup finds the next hop of a key and
otherwise leaves the default, and the interface it names is there and up. -/
theorem reachable_table (order : ByteOrder) (links : List LinkConfig) (clock : ℕ → Timeval)
    (hdistinct : (links.map LinkConfig.vipLocal).Nodup) {node : Node}
    (hreach : Reachable Step (Node.new order links clock) node) :
    (∀ (a : UInt32) (ets : EntryWts), node.rtable[a]? = some ets → ets.e.address = a) ∧
    (∀ ifc ∈ node.interfaces, ((node.rtable[ifc.vipLocal]?).isSome = true ↔ ifc.isup = true) ∧
      ∀ ets, node.rtable[ifc.vipLocal]? = some ets →
        ets.e.cost = 0 ∧ ets.e.mask = 0xFFFFFFFF ∧ ets.nextHop = ifc.vipLocal) ∧
    (∀ (a : UInt32) (ets : EntryWts), node.rtable[a]? = some ets →
      (∀ ifc ∈ node.interfaces, ifc.vipLocal ≠ a) →
        ∃ ifc ∈ node.interfaces, ifc.isup = true ∧ ets.nextHop = ifc.vipLocal) ∧
    (∀ dest nextAddr, node.getNextAddress dest nextAddr =
      match node.rtable[dest]? with
      | some ets => ets.nextHop
      | none => nextAddr) ∧
    (∀ (dest : UInt32) (ets : EntryWts), node.rtable[dest]? = some ets →
      ∃ id ifc, node.getInterface ets.nextHop = some id ∧ node.interfaces[id]? = some ifc ∧
        ifc.isup = true) := by
  have hwell := WellFormed.of_reachable hdistinct hreach
  refine ⟨hwell.table.keys, ?_, hwell.table.learned, ?_, fun _ _ h ↦ hwell.getInterface_nextHop h⟩
  · intro ifc hifc
    cases hup : ifc.isup with
    | false =>
      rw [hwell.table.down ifc hifc hup]
      exact ⟨Iff.rfl, fun ets hets ↦ absurd hets.symm (Option.some_ne_none ets)⟩
    | true =>
      obtain ⟨ts, hts⟩ := hwell.table.own ifc hifc hup
      rw [hts]
      refine ⟨iff_of_true rfl rfl, fun ets hets ↦ ?_⟩
      rw [← Option.some.inj hets]
      exact ⟨rfl, rfl, rfl⟩
  · intro dest nextAddr
    rw [getNextAddress_eq hwell.table.keys]
    cases node.rtable[dest]? with
    | none => rfl
    | some ets => rfl

/-- A node of two interfaces after the first was taken down: its address is no key any more. -/
theorem reachable_table_down : ∃ node ifc, Reachable Step (Node.new .little
    [⟨3, 5001, 0x0A000001, 0x0A000002⟩, ⟨4, 5002, 0x0A000003, 0x0A000004⟩] fun _ ↦ ⟨0, 0⟩) node ∧
      node.interfaces[0]? = some ifc ∧ ¬ (node.rtable[ifc.vipLocal]?).isSome = true := by
  let start := Node.new .little
    [⟨3, 5001, 0x0A000001, 0x0A000002⟩, ⟨4, 5002, 0x0A000003, 0x0A000004⟩] fun _ ↦ ⟨0, 0⟩
  let ifc : LinkLayer := ⟨-1, false, 5001, 0x0A000001, 0x0A000002⟩
  let node := removeIfcEntry { start with interfaces := start.interfaces.set 0 ifc } 0x0A000001
  have hstep : start.Step (.command (.down 0)) node := rfl
  have hget : node.interfaces[0]? = some ifc := by
    rw [show node.interfaces = start.interfaces.set 0 ifc from prepareMsg_interfaces _ 2]
    rfl
  have hreach : Reachable Step start node := ⟨[.command (.down 0)], Run.single hstep⟩
  refine ⟨node, ifc, hreach, hget, ?_⟩
  obtain ⟨-, hown, -⟩ := reachable_table .little _ (fun _ ↦ ⟨0, 0⟩) (by decide) hreach
  rw [(hown _ (List.mem_of_getElem? hget)).1]
  exact Bool.false_ne_true

end Node

end IpRipStack
