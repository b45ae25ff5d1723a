import IpRipStack.Network
import IpRipStack.Library.DistanceVector.Protocol

/-!
# The network refines the distance-vector protocol

Nodes, ends of links and addresses as the protocol of `Library/DistanceVector` has them. A table
entry is a route (`Topology.route`): its cost and stamp are the entry's, and it leaves by the end of
a link whose address is the next hop, unless the address is the node's own. A packet in flight is
one advert for each of its entries that is not poisoned (`Flight.Says`). `Net.abstract` is the state
of the protocol that a state of the network stands for.

`Net.Valid.refines` is the simulation: one operation of a node, or one delivery with all the entries
it carries, is a sequence of moves of the protocol, in the regime the operation belongs to
(`Net.Permits`). What a node queues are adverts the protocol allows because the encoder's test for
poisoning is split horizon (`Topology.advertises_of_mem_sent`), and an entry that is taken up is an
advert that improves on the route there is (`Topology.refines_updateEntry`).
-/

set_option autoImplicit false
set_option relaxedAutoImplicit false

namespace IpRipStack

open MachineWord OrderedMap Runs

namespace Topology

variable (T : Topology)

/-- The node has an interface with the address. -/
def Owns (n : Fin T.size) (a : UInt32) : Prop := ∃ e : T.End, e.1 = n ∧ T.vip e = a

/-- The protocol that the nodes of the topology run. -/
def protocol : DistanceVector.Protocol (Fin T.size) T.End UInt32 where
  home e := e.1
  peer := T.peer
  peer_peer := T.peer_peer
  owns := T.Owns
  owns_unique := by
    rintro n m a ⟨e, rfl, he⟩ ⟨e', rfl, he'⟩
    rw [T.vip_injective (he.trans he'.symm)]
  infinity := ripMaxCost.toNat

/-- The links between the nodes. -/
abbrev graph : SimpleGraph (Fin T.size) := T.protocol.graph

open scoped Classical in
/-- The route that an entry of a node's table stands for. -/
noncomputable def route (n : Fin T.size) (a : UInt32) (ets : EntryWts) :
    DistanceVector.Route T.End where
  cost := ets.e.cost.toNat
  via := if T.Owns n a then none else Function.partialInv T.vip ets.nextHop
  stamp := ets.ts.micros.toNat

theorem route_via_of_owns {n : Fin T.size} {a : UInt32} (h : T.Owns n a) (ets : EntryWts) :
    (T.route n a ets).via = none :=
  if_pos h

theorem route_via_eq_some_iff {n : Fin T.size} {a : UInt32} (h : ¬ T.Owns n a) {ets : EntryWts}
    {e : T.End} : (T.route n a ets).via = some e ↔ T.vip e = ets.nextHop := by
  have hvia : (T.route n a ets).via = Function.partialInv T.vip ets.nextHop := if_neg h
  rw [hvia]
  exact T.vip_injective.isPartialInv e ets.nextHop

end Topology

/-- What a packet in flight says: one of its entries that is not poisoned. -/
def Flight.Says {T : Topology} (f : Flight T) (a : DistanceVector.Advert T.End UInt32) : Prop :=
  a.source = f.source ∧ a.sentAt = f.sentAt ∧ ∃ e ∈ frameEntries f.frame,
    e.cost ≠ ripMaxCost ∧ e.address = a.dest ∧ e.cost.toNat = a.cost

namespace Topology

variable {T : Topology}

/-- The state of the protocol that the tables of all nodes and the packets in flight stand for. -/
noncomputable def state (tables : Fin T.size → RouteTable) (flight : List (Flight T)) :
    DistanceVector.State (Fin T.size) T.End UInt32 where
  table n a := (tables n)[a]?.map (T.route n a)
  flight := {a | ∃ f ∈ flight, f.Says a}

theorem state_table (tables : Fin T.size → RouteTable) (flight : List (Flight T))
    (n : Fin T.size) (a : UInt32) :
    (state tables flight).table n a = (tables n)[a]?.map (T.route n a) :=
  rfl

theorem state_table_eq_some {tables : Fin T.size → RouteTable} {flight : List (Flight T)}
    {n : Fin T.size} {a : UInt32} {r : DistanceVector.Route T.End} :
    (state tables flight).table n a = some r ↔
      ∃ ets, (tables n)[a]? = some ets ∧ T.route n a ets = r :=
  Option.map_eq_some_iff

/-- Writing an entry is writing its route. -/
theorem state_insert (tables : Fin T.size → RouteTable) (flight : List (Flight T))
    (n : Fin T.size) (table : RouteTable) (a : UInt32) (ets : EntryWts) :
    state (Function.update tables n (table.insert a ets)) flight =
      (state (Function.update tables n table) flight).setRoute n a (some (T.route n a ets)) := by
  unfold state DistanceVector.State.setRoute
  congr 1
  ext m b : 2
  dsimp only
  by_cases hm : m = n
  · subst hm
    rw [Function.update_self, Function.update_self, getElem?_insert_eq]
    by_cases hb : b = a
    · rw [if_pos hb.symm, if_pos ⟨rfl, hb⟩, hb, Option.map_some]
    · rw [if_neg (Ne.symm hb), if_neg (fun h ↦ hb h.2)]
  · rw [Function.update_of_ne hm, Function.update_of_ne hm, if_neg (fun h ↦ hm h.1)]

end Topology

namespace Net

variable {T : Topology}

/-- The state of the protocol that a state of the network stands for. -/
noncomputable def abstract (net : Net T) : DistanceVector.State (Fin T.size) T.End UInt32 :=
  Topology.state (fun n ↦ (net.nodes n).rtable) net.flight

/-- The route of an entry. -/
theorem abstract_table {net : Net T} {n : Fin T.size} {d : UInt32} {ets : EntryWts}
    (hets : (net.nodes n).rtable[d]? = some ets) :
    net.abstract.table n d = some (T.route n d ets) :=
  Topology.state_table_eq_some.mpr ⟨ets, hets, rfl⟩

/-- The regime that an operation belongs to: which addresses it may originate, whether it may
withdraw routes, and which times it may write. -/
def Permits (regime : DistanceVector.Regime UInt32) (net : Net T) : NetEvent T → Prop
  | .command _ (.send _) => True
  | .command n (.refresh curtv) =>
    regime.withdraws ∨ ((net.nodes n).refreshRouteTable curtv).rtable = (net.nodes n).rtable
  | .command _ (.down _) => regime.withdraws
  | .command n (.up interface _ now) =>
    (∀ e : T.End, e.1 = n → e.2.val = interface → regime.originates (T.vip e)) ∧
      regime.stamps now.micros.toNat
  | .deliver _ _ clock => ∀ i, regime.stamps (clock i).micros.toNat
  | .lose _ => True

theorem abstract_put (net : Net T) (n : Fin T.size) (node : Node) : (net.put n node).abstract =
    Topology.state (Function.update (fun m ↦ (net.nodes m).rtable) n node.rtable)
      (net.flight ++ T.sent n net.steps node.incomingqueue) := by
  have htables : (fun m ↦ ((net.put n node).nodes m).rtable) =
      Function.update (fun m ↦ (net.nodes m).rtable) n node.rtable := by
    ext1 m
    by_cases hm : m = n
    · rw [hm, net.put_nodes_self, Function.update_self]
    · rw [net.put_nodes_of_ne hm, Function.update_of_ne hm]
  rw [abstract, htables]
  rfl

end Net

/-! ### The moves -/

namespace Topology

variable {T : Topology} {regime : DistanceVector.Regime UInt32}

theorem isMyInterface_iff_owns {node : Node} {n : Fin T.size} (h : node.interfaces.map
    LinkLayer.vipLocal = (T.links n).map LinkConfig.vipLocal) (a : UInt32) :
    node.isMyInterface a = true ↔ T.Owns n a := by
  rw [Node.isMyInterface_iff]
  constructor
  · rintro ⟨ifc, hifc, hvip⟩
    obtain ⟨id, hget⟩ := List.getElem?_of_mem hifc
    obtain ⟨hid, hlink⟩ := vip_eq_of_getElem? h hget
    exact ⟨⟨n, id, hid⟩, rfl, hlink.trans hvip⟩
  · rintro ⟨⟨m, id⟩, rfl, hvip⟩
    have hmem : a ∈ (T.links m).map LinkConfig.vipLocal :=
      List.mem_map.mpr ⟨_, List.get_mem _ id, hvip⟩
    rw [← h] at hmem
    exact List.mem_map.mp hmem

/-- Assumes: an entry of a packet in flight, at a node of the far end. An entry that is taken up is
an advert that is learned, and one that is passed over is no move. -/
theorem refines_updateEntry {tables : Fin T.size → RouteTable} {flight : List (Flight T)}
    {f : Flight T} (hf : f ∈ flight) (hgenuine : Genuine (T.vip f.source) f.frame) {node : Node}
    (hvips : node.interfaces.map LinkLayer.vipLocal =
      (T.links (T.peer f.source).1).map LinkConfig.vipLocal) {curEntry : Entry}
    (hentry : curEntry.ntoh node.order ∈ frameEntries f.frame) {now : Timeval}
    (hstamp : regime.stamps now.micros.toNat) (table : RouteTable) :
    Relation.ReflGen (DistanceVector.Step T.protocol regime)
      (state (Function.update tables (T.peer f.source).1 table) flight)
      (state (Function.update tables (T.peer f.source).1
        (node.updateEntry table curEntry (T.vip (T.peer f.source)) now)) flight) := by
  let n := (T.peer f.source).1
  rcases node.updateEntry_cases table curEntry (T.vip (T.peer f.source)) now with
    ⟨-, hsame⟩ | ⟨hnot, hnew⟩
  · rw [hsame]
  · rw [hnew]
    generalize curEntry.ntoh node.order = e at hentry hnot ⊢
    have hle := hgenuine.cost_le hentry
    have hmax : e.cost ≠ ripMaxCost := fun hmax ↦ hnot (Or.inr (Or.inl hmax))
    have howns : ¬ T.Owns n e.address := by
      intro howns
      exact hnot (Or.inl ((isMyInterface_iff_owns hvips e.address).mpr howns))
    let a : DistanceVector.Advert T.End UInt32 := ⟨f.source, e.address, e.cost.toNat, f.sentAt⟩
    have ha : a ∈ (state (Function.update tables n table) flight).flight :=
      ⟨f, hf, rfl, rfl, e, hentry, hmax, rfl, rfl⟩
    have hbetter : ∀ r, (state (Function.update tables n table) flight).table n e.address = some r →
        e.cost.toNat + 1 < r.cost := by
      intro r hr
      obtain ⟨ets, hets, rfl⟩ := state_table_eq_some.mp hr
      rw [Function.update_self] at hets
      have hlt : e.cost + 1 < ets.e.cost := by
        refine UInt32.not_le.mp fun hworse ↦ ?_
        exact hnot (Or.inr (Or.inr ⟨ets, hets, hworse⟩))
      rw [← toNat_cost_succ hle]
      exact UInt32.lt_iff_toNat_lt.mp hlt
    have hroute : T.route n e.address (e.route (T.vip (T.peer f.source)) now) =
        ⟨e.cost.toNat + 1, some (T.peer f.source), now.micros.toNat⟩ := by
      have hvia := (route_via_eq_some_iff T howns).mpr
        (show T.vip (T.peer f.source) = (e.route (T.vip (T.peer f.source)) now).nextHop from rfl)
      have hcost : (T.route n e.address (e.route (T.vip (T.peer f.source)) now)).cost =
          e.cost.toNat + 1 := toNat_cost_succ hle
      exact DistanceVector.Route.ext hcost hvia rfl
    rw [state_insert, hroute]
    exact Relation.ReflGen.single (DistanceVector.Step.learn ha howns hbetter hstamp)

/-- What a node queues are adverts of routes it has, none of them over the link it leaves by. -/
theorem advertises_of_mem_sent {tables : Fin T.size → RouteTable} {flight : List (Flight T)}
    {node : Node} {n : Fin T.size} {sentAt : ℕ} (hvips : node.interfaces.map LinkLayer.vipLocal =
      (T.links n).map LinkConfig.vipLocal) (hkeys : node.rtable.KeysMatch)
    (hqueues : node.QueuesMessages) {f : Flight T} (hf : f ∈ T.sent n sentAt node.incomingqueue)
    {a : DistanceVector.Advert T.End UInt32} (ha : f.Says a) :
    T.protocol.Advertises (state (Function.update tables n node.rtable) flight) a := by
  obtain ⟨-, rfl, msgType, id, ifc, hvip, -, hframe⟩ := genuine_of_mem_sent hvips hqueues hf
  obtain ⟨hsource, -, e, he, hmax, hdest, hcost⟩ := ha
  rw [hframe, frameEntries_ripPacket, hvip] at he
  obtain ⟨⟨key, ets⟩, hkv, rfl⟩ := List.mem_map.mp he
  have hmem := List.mem_of_mem_take hkv
  have hets := Std.ExtTreeMap.mem_toList_iff_getElem?_eq_some.mp hmem
  rw [advertised_eq hkeys (T.vip f.source) hmem] at hmax hdest hcost
  obtain rfl : key = a.dest := hdest
  -- the entry is not poisoned, so the route does not leave by the link the packet goes over
  have hhorizon : ¬ (ets.nextHop = T.vip f.source ∧ a.dest ≠ T.vip f.source) :=
    fun hpoisoned ↦ hmax (if_pos hpoisoned)
  dsimp only at hmax hcost
  rw [if_neg hhorizon] at hmax hcost
  refine ⟨T.route f.source.1 a.dest ets, ?_, ?_, ?_, hcost.symm⟩
  · rw [hsource]
    refine state_table_eq_some.mpr ⟨ets, ?_, rfl⟩
    show (Function.update tables f.source.1 node.rtable f.source.1)[a.dest]? = some ets
    rw [Function.update_self, hets]
  · rw [hsource]
    intro hvia
    by_cases howns : T.Owns f.source.1 a.dest
    · rw [route_via_of_owns T howns] at hvia
      exact absurd hvia.symm (Option.some_ne_none _)
    · have hnext := (route_via_eq_some_iff T howns).mp hvia
      exact hhorizon ⟨hnext.symm, fun hown ↦ howns ⟨f.source, rfl, hown.symm⟩⟩
  · intro hinfinity
    exact hmax (UInt32.toNat_inj.mp hinfinity)

end Topology

namespace Net

variable {T : Topology} {regime : DistanceVector.Regime UInt32} {net net' : Net T}

/-- One node has changed. Assumes: a sequence of moves that leads to the node's new table, and a
queue of messages made from it. -/
theorem refines_put {n : Fin T.size} {node : Node}
    (hvips : node.interfaces.map LinkLayer.vipLocal = (T.links n).map LinkConfig.vipLocal)
    (hkeys : node.rtable.KeysMatch) (hqueues : node.QueuesMessages)
    (htable : Relation.ReflTransGen (DistanceVector.Step T.protocol regime) net.abstract
      (Topology.state (Function.update (fun m ↦ (net.nodes m).rtable) n node.rtable) net.flight)) :
    Relation.ReflTransGen (DistanceVector.Step T.protocol regime) net.abstract
      (net.put n node).abstract := by
  rw [abstract_put]
  refine htable.tail (DistanceVector.Step.traffic ?_)
  rintro a ⟨f, hf, ha⟩
  rcases List.mem_append.mp hf with hold | hnew
  · exact Or.inl ⟨f, hold, ha⟩
  · exact Or.inr (Topology.advertises_of_mem_sent hvips hkeys hqueues hnew ha)

/-- Erasing entries of one node's table is a withdrawal. -/
theorem refines_erase (hwithdraws : regime.withdraws) (n : Fin T.size) {table : RouteTable}
    (hsub : ∀ (a : UInt32) (ets : EntryWts), table[a]? = some ets →
      (net.nodes n).rtable[a]? = some ets) :
    DistanceVector.Step T.protocol regime net.abstract
      (Topology.state (Function.update (fun m ↦ (net.nodes m).rtable) n table) net.flight) := by
  refine DistanceVector.Step.withdraw hwithdraws fun m a ↦ ?_
  rw [abstract, Topology.state_table]
  by_cases hm : m = n
  · subst hm
    rw [Function.update_self]
    cases hget : table[a]? with
    | none => exact Or.inr rfl
    | some ets => exact Or.inl (by rw [hsub a ets hget])
  · exact Or.inl (by rw [Function.update_of_ne hm])

/-- A table that stays as it is is no move. -/
theorem refines_same {n : Fin T.size} {table : RouteTable} (h : table = (net.nodes n).rtable) :
    Relation.ReflTransGen (DistanceVector.Step T.protocol regime) net.abstract
      (Topology.state (Function.update (fun m ↦ (net.nodes m).rtable) n table) net.flight) := by
  have hsame : Function.update (fun m ↦ (net.nodes m).rtable) n table =
      fun m ↦ (net.nodes m).rtable := by
    rw [h]
    exact Function.update_eq_self n _
  rw [hsame]
  exact Relation.ReflTransGen.refl

/-- Every step of the network is a sequence of moves of the protocol, in any regime that permits
it. -/
theorem Valid.refines (h : net.Valid) {event : NetEvent T} (hstep : net.Step event net')
    (hpermits : net.Permits regime event) :
    Relation.ReflTransGen (DistanceVector.Step T.protocol regime) net.abstract net'.abstract := by
  have hvalid := h.step hstep
  cases event with
  | command n c =>
    obtain ⟨node, hexecute, rfl⟩ := Option.map_eq_some_iff.mp hstep
    refine refines_put ((Node.execute_sameLinks hexecute).vips.trans (h.vips n))
      ((h.well n).execute hexecute).table.keys (Node.execute_queuesMessages (h.drained n) hexecute) ?_
    cases c with
    | send msgType =>
      obtain rfl := Option.some.inj hexecute
      exact refines_same (Node.prepareMsg_rtable _ msgType)
    | refresh curtv =>
      obtain rfl := Option.some.inj hexecute
      rcases hpermits with hwithdraws | hsame
      · exact Relation.ReflTransGen.single (refines_erase hwithdraws n fun a ets ha ↦
          (Node.refreshRouteTable_eq_some.mp ha).1)
      · exact refines_same hsame
    | down interface =>
      obtain ⟨ifc, -, -, htable⟩ := Node.downCmd_spec hexecute
      exact Relation.ReflTransGen.single
        (refines_erase hpermits n fun a ets ha ↦ ((htable a ets).mp ha).1)
    | up interface sockfd now =>
      obtain ⟨ifc, hget, rfl⟩ := Option.map_eq_some_iff.mp hexecute
      obtain ⟨hid, hvip⟩ := Topology.vip_eq_of_getElem? (h.vips n) hget
      have howns : T.Owns n ifc.vipLocal := ⟨⟨n, interface, hid⟩, rfl, hvip⟩
      have horiginates : regime.originates ifc.vipLocal := by
        rw [← hvip]
        exact hpermits.1 _ rfl rfl
      have hroute : T.route n ifc.vipLocal (ifcEntry ifc.vipLocal now) =
          ⟨0, none, now.micros.toNat⟩ :=
        DistanceVector.Route.ext rfl (T.route_via_of_owns howns _) rfl
      have hinsert := Topology.state_insert (fun m ↦ (net.nodes m).rtable) net.flight n
        (net.nodes n).rtable ifc.vipLocal (ifcEntry ifc.vipLocal now)
      rw [hroute, Function.update_eq_self n] at hinsert
      refine Relation.ReflTransGen.single ?_
      show DistanceVector.Step T.protocol regime net.abstract (Topology.state (Function.update _ n
        ((net.nodes n).rtable.insert ifc.vipLocal (ifcEntry ifc.vipLocal now))) net.flight)
      rw [hinsert]
      exact DistanceVector.Step.originate howns horiginates hpermits.2
  | deliver index stale clock =>
    obtain ⟨f, hget, rfl⟩ := Option.map_eq_some_iff.mp hstep
    have hf := List.mem_of_getElem? hget
    have hgenuine := h.flight f hf
    have hwell := h.well (T.peer f.source).1
    have hvips := h.vips (T.peer f.source).1
    refine refines_put ((Node.receiveFrame_sameLinks hwell.idle _ _ _ _).vips.trans hvips)
      (hwell.receiveFrame f.frame _ stale clock).table.keys
      (hgenuine.receiveFrame_queuesMessages hwell.idle (h.drained _) _ _ _) ?_
    let Moves (table : RouteTable) : Prop :=
      Relation.ReflTransGen (DistanceVector.Step T.protocol regime) net.abstract
        (Topology.state (Function.update (fun m ↦ (net.nodes m).rtable) (T.peer f.source).1 table)
          net.flight)
    show Moves _
    refine Node.receiveFrame_induction hwell.idle f.frame stale (refines_same rfl) ?_
    intro table curEntry i id _ _ hentry htable
    rw [hgenuine.readEntries_eq] at hentry
    exact htable.trans
      (Topology.refines_updateEntry hf hgenuine hvips hentry (hpermits i) table).to_reflTransGen
  | lose index =>
    obtain rfl := Option.some.inj hstep
    refine Relation.ReflTransGen.single (DistanceVector.Step.traffic ?_)
    rintro a ⟨f, hf, ha⟩
    exact Or.inl ⟨f, List.mem_of_mem_eraseIdx hf, ha⟩

/-- A run whose steps a regime permits is a sequence of moves in that regime. -/
theorem Valid.run_refines (h : net.Valid) {step : Net T → NetEvent T → Net T → Prop}
    (hpermits : ∀ net event net', step net event net' →
      net.Step event net' ∧ net.Permits regime event)
    {events : List (NetEvent T)} (hrun : Run step net events net') : net'.Valid ∧
      Relation.ReflTransGen (DistanceVector.Step T.protocol regime) net.abstract net'.abstract := by
  have hkeep : ∀ net event net', net.Valid → step net event net' → net'.Valid :=
    fun _ _ _ hvalid hstep ↦ hvalid.step (hpermits _ _ _ hstep).1
  refine ⟨hrun.invariant hkeep h, hrun.simulate hkeep abstract ?_ h⟩
  intro net event net' hvalid hstep
  obtain ⟨hstep, hpermits⟩ := hpermits net event net' hstep
  exact hvalid.refines hstep hpermits

/-! ### The states a network starts in -/

/-- A constructor's entries are those of the node's own addresses. -/
theorem start_getElem? (T : Topology) (clock : Fin T.size → ℕ → Timeval) (n : Fin T.size)
    (d : UInt32) :
    (¬ T.Owns n d ∧ ((start T clock).nodes n).rtable[d]? = none) ∨
      (T.Owns n d ∧ ∃ i, ((start T clock).nodes n).rtable[d]? = some (ifcEntry d (clock n i))) := by
  let node : Node := ⟨T.order n, (T.links n).map LinkLayer.new, ∅, [], [], []⟩
  have hvips : node.interfaces.map LinkLayer.vipLocal = (T.links n).map LinkConfig.vipLocal := by
    rw [List.map_map]
    rfl
  rw [← Topology.isMyInterface_iff_owns hvips, Bool.not_eq_true]
  exact node.ripLayer_getElem? (clock n) d

theorem start_initial (T : Topology) (clock : Fin T.size → ℕ → Timeval) :
    DistanceVector.Initial T.protocol (start T clock).abstract := by
  have hvalid := Valid.start T clock
  refine ⟨?_, ?_⟩
  · intro n d r hr
    obtain ⟨ets, hets, rfl⟩ := Topology.state_table_eq_some.mp hr
    rcases start_getElem? T clock n d with ⟨-, hnone⟩ | ⟨howns, i, hentry⟩
    · exact absurd (hets.symm.trans hnone) (Option.some_ne_none ets)
    · rw [← Option.some.inj (hentry.symm.trans hets)]
      exact ⟨howns, rfl, T.route_via_of_owns howns _⟩
  · rintro a ⟨f, hf, ha⟩
    obtain ⟨n, -, hf⟩ := List.mem_flatMap.mp hf
    let node := Node.new (T.order n) (T.links n) (clock n)
    have hvips : node.interfaces.map LinkLayer.vipLocal = (T.links n).map LinkConfig.vipLocal :=
      hvalid.vips n
    have hkeys : node.rtable.KeysMatch := (hvalid.well n).table.keys
    have hadvertises : T.protocol.Advertises (Topology.state (Function.update
        (fun m ↦ ((start T clock).nodes m).rtable) n node.rtable) (start T clock).flight) a :=
      Topology.advertises_of_mem_sent hvips hkeys (Node.prepareMsg_queuesMessages rfl 1) hf ha
    have hsame : Function.update (fun m ↦ ((start T clock).nodes m).rtable) n node.rtable =
        fun m ↦ ((start T clock).nodes m).rtable := Function.update_eq_self n _
    rwa [hsame] at hadvertises

/-! ### Following next hops -/

/-- Node `n` passes packets for `d` on to node `m`: it is not their destination, and it has an entry
whose next hop, found by `get_next_address`, is its end of a link to `m`. -/
def PassesOn (net : Net T) (d : UInt32) (n m : Fin T.size) : Prop :=
  (net.nodes n).isDestinedToMe d = false ∧ d ∈ (net.nodes n).rtable ∧
    ∃ e : T.End, e.1 = n ∧ (net.nodes n).getNextAddress d defaultAddr = T.vip e ∧ (T.peer e).1 = m

/-- A learned entry leaves by a link of the node. -/
theorem Valid.exists_link (h : net.Valid) {n : Fin T.size} {d : UInt32} {ets : EntryWts}
    (hets : (net.nodes n).rtable[d]? = some ets) (howns : ¬ T.Owns n d) :
    ∃ e : T.End, e.1 = n ∧ T.vip e = ets.nextHop ∧ (T.route n d ets).via = some e := by
  have hother : (net.nodes n).isMyInterface d = false := by
    rw [Bool.eq_false_iff]
    exact fun hmine ↦ howns ((Topology.isMyInterface_iff_owns (h.vips n) d).mp hmine)
  obtain ⟨ifc, hifc, -, hnext⟩ :=
    (h.well n).table.learned d ets hets ((isMyInterface_eq_false_iff _ d).mp hother)
  obtain ⟨id, hget⟩ := List.getElem?_of_mem hifc
  obtain ⟨hid, hvip⟩ := Topology.vip_eq_of_getElem? (h.vips n) hget
  have hlink : T.vip ⟨n, id, hid⟩ = ets.nextHop := hvip.trans hnext.symm
  exact ⟨_, rfl, hlink, (T.route_via_eq_some_iff howns).mpr hlink⟩

/-- Packets are passed on along the next hops of the routes. -/
theorem Valid.passesOn_iff (h : net.Valid) {d : UInt32} {n m : Fin T.size} :
    net.PassesOn d n m ↔ DistanceVector.Follows T.protocol net.abstract d n m := by
  have hmine : (net.nodes n).isDestinedToMe d = false ↔ ¬ T.Owns n d := by
    rw [← Topology.isMyInterface_iff_owns (h.vips n) d, Bool.not_eq_true]
    rfl
  have hlookup : ∀ ets, (net.nodes n).rtable[d]? = some ets →
      (net.nodes n).getNextAddress d defaultAddr = ets.nextHop := by
    intro ets hets
    rw [Node.getNextAddress_eq (h.well n).table.keys, hets]
    rfl
  constructor
  · rintro ⟨hnot, hkey, e, rfl, hnext, rfl⟩
    obtain ⟨ets, hets⟩ := Option.isSome_iff_exists.mp
      (Std.ExtTreeMap.isSome_getElem?_iff_mem.mpr hkey)
    rw [hlookup ets hets] at hnext
    exact ⟨_, e, abstract_table hets,
      (T.route_via_eq_some_iff (hmine.mp hnot)).mpr hnext.symm, rfl⟩
  · rintro ⟨r, e, hr, hvia, rfl⟩
    obtain ⟨ets, hets, rfl⟩ := Topology.state_table_eq_some.mp hr
    have howns : ¬ T.Owns n d := by
      intro howns
      rw [T.route_via_of_owns howns] at hvia
      exact Option.some_ne_none e hvia.symm
    obtain ⟨e', hhome, hnext, hvia'⟩ := h.exists_link hets howns
    obtain rfl : e' = e := Option.some.inj (hvia'.symm.trans hvia)
    refine ⟨hmine.mpr howns, ?_, e', hhome, (hlookup ets hets).trans hnext.symm, rfl⟩
    rw [← Std.ExtTreeMap.isSome_getElem?_iff_mem, hets]
    rfl

end Net

end IpRipStack
