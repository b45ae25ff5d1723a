import IpRipStack.SoundRoutes
import IpRipStack.RouteUpdate
import IpRipStack.Library.DistanceVector.Convergence

/-!
# Convergence to shortest paths

A round is a static run in which the response of every interface, made from the table its node has
at some moment of the round, is delivered before the round ends; anything else may happen in between
(`Net.Round`). A response that is delivered is taken up as the protocol has it
(`Net.Valid.takesUp`), so a round of the network is a round of the protocol (`Net.Round.updated`),
and `Net.routes_converge` says what that makes of the constructors' tables in `k` rounds.
-/

set_option autoImplicit false
set_option relaxedAutoImplicit false

namespace IpRipStack

open MachineWord OrderedMap Runs

namespace Net

variable {T : Topology}

/-- The packet is the response of the interface at the end of a link, made from the table that its
node has in this state. The table has no more entries than a message has slots. -/
structure IsUpdate (net : Net T) (e : T.End) (f : Flight T) : Prop where
  source : f.source = e
  frame : ∃ ifc, (net.nodes e.1).interfaces[e.2.val]? = some ifc ∧
    f.frame = ((net.nodes e.1).ripPacket 2 e.2.val ifc).packet
  size : (net.nodes e.1).rtable.size ≤ maxEntries

/-- In the course of a run a response of the interface at the end of a link, made from the table its
node has at some moment of the run, is delivered. -/
def HearsUpdate (net : Net T) (events : List (NetEvent T)) (net' : Net T) (e : T.End) : Prop :=
  ∃ (before between after : List (NetEvent T)) (index : ℕ) (stale : List UInt8)
    (clock : ℕ → Timeval) (sent held heard : Net T) (f : Flight T),
    events = before ++ (between ++ .deliver index stale clock :: after) ∧
    Run StaticStep net before sent ∧ Run StaticStep sent between held ∧
    held.flight[index]? = some f ∧ sent.IsUpdate e f ∧
    held.StaticStep (.deliver index stale clock) heard ∧ Run StaticStep heard after net'

/-- A round: a static run in which the response of every interface is made and delivered. -/
def Round (net net' : Net T) : Prop :=
  ∃ events, Run StaticStep net events net' ∧ ∀ e : T.End, net.HearsUpdate events net' e

/-- The entries of the node's own addresses. -/
theorem Valid.own_entry {net : Net T} (h : net.Valid) {n : Fin T.size} {d : UInt32}
    (howns : T.Owns n d) {ets : EntryWts} (hets : (net.nodes n).rtable[d]? = some ets) :
    ∃ ts, ets = ifcEntry d ts := by
  obtain ⟨e, rfl, rfl⟩ := howns
  obtain ⟨ifc, hget, hvip⟩ := h.exists_interface e
  have hifc := List.mem_of_getElem? hget
  rw [← hvip] at hets ⊢
  cases hup : ifc.isup with
  | false =>
    rw [(h.well e.1).table.down ifc hifc hup] at hets
    exact absurd hets.symm (Option.some_ne_none ets)
  | true =>
    obtain ⟨ts, hentry⟩ := (h.well e.1).table.own ifc hifc hup
    exact ⟨ts, Option.some.inj (hets.symm.trans hentry)⟩

/-- An interface whose address is a key is up. -/
theorem Valid.accepts {net : Net T} (h : net.Valid) (e : T.End) {ets : EntryWts}
    (hkey : (net.nodes e.1).rtable[T.vip e]? = some ets) :
    ((net.nodes e.1).getInterface (T.vip e)).any (net.nodes e.1).isUp = true := by
  obtain ⟨ifc, hget, hvip⟩ := h.exists_interface e
  have hup : ifc.isup = true := by
    by_contra hdown
    rw [← hvip, (h.well e.1).table.down ifc (List.mem_of_getElem? hget)
      (Bool.eq_false_iff.mpr hdown)] at hkey
    exact Option.some_ne_none ets hkey.symm
  rw [← hvip, (h.well e.1).distinct.getInterface_eq hget, Option.any_some, Node.isUp, hget,
    Option.any_some, hup]

/-- A response says of each route that does not leave by its interface what the route costs. -/
theorem Valid.mem_frameEntries {sent : Net T} (h : sent.Valid) {e : T.End} {f : Flight T}
    (hupdate : sent.IsUpdate e f) {d : UInt32} {ets : EntryWts}
    (hets : (sent.nodes e.1).rtable[d]? = some ets) (hvia : (T.route e.1 d ets).via ≠ some e) :
    (⟨ets.e.cost, d, ets.e.mask⟩ : Entry) ∈ frameEntries f.frame := by
  obtain ⟨ifc, hifc, hframe⟩ := hupdate.frame
  have hvip : T.vip e = ifc.vipLocal := (Topology.vip_eq_of_getElem? (h.vips e.1) hifc).2
  have hmem : (d, ets) ∈ (sent.nodes e.1).rtable.toList :=
    Std.ExtTreeMap.mem_toList_iff_getElem?_eq_some.mpr hets
  have hhorizon : ¬ (ets.nextHop = T.vip e ∧ d ≠ T.vip e) := by
    rintro ⟨hnext, hne⟩
    by_cases howns : T.Owns e.1 d
    · obtain ⟨ts, rfl⟩ := h.own_entry howns hets
      exact hne hnext
    · exact hvia ((T.route_via_eq_some_iff howns).mpr hnext.symm)
  have hall : (sent.nodes e.1).rtable.toList.take ((sent.nodes e.1).rtable.size % 65536) =
      (sent.nodes e.1).rtable.toList := by
    have hlt : (sent.nodes e.1).rtable.size < 65536 := hupdate.size.trans_lt (by decide)
    rw [Nat.mod_eq_of_lt hlt, List.take_of_length_le (Std.ExtTreeMap.length_toList).le]
  rw [hframe, frameEntries_ripPacket, hall, ← hvip]
  refine List.mem_map.mpr ⟨(d, ets), hmem, ?_⟩
  rw [advertised_eq (h.well e.1).table.keys (T.vip e) hmem]
  dsimp only
  rw [if_neg hhorizon]

/-- A response is read as one. -/
theorem IsUpdate.readCommand_eq {sent : Net T} {e : T.End} {f : Flight T}
    (hupdate : sent.IsUpdate e f) (order : ByteOrder) (stale : List UInt8) :
    readCommand order (ripPayload (f.frame ++ stale)) = 2 := by
  obtain ⟨ifc, -, hframe⟩ := hupdate.frame
  rw [hframe, ripPayload_ripPacket, readCommand_ripMsg]

/-- The delivery of a response to an interface that is up. -/
theorem Valid.takesUp {sent held heard : Net T} (hsent : sent.Valid) (hheld : held.Valid)
    {e : T.End} {f : Flight T} (hupdate : sent.IsUpdate e f) {index : ℕ}
    (hget : held.flight[index]? = some f) {stale : List UInt8} {clock : ℕ → Timeval}
    (hstep : held.Step (.deliver index stale clock) heard)
    (hup : ((held.nodes (T.peer e).1).getInterface (T.vip (T.peer e))).any
      (held.nodes (T.peer e).1).isUp = true) :
    DistanceVector.TakesUp T.protocol e sent.abstract heard.abstract := by
  intro d r hr hvia hinfinity hother
  obtain ⟨ets, hets, rfl⟩ := Topology.state_table_eq_some.mp hr
  have hgenuine := hheld.flight f (List.mem_of_getElem? hget)
  have hentry := hsent.mem_frameEntries hupdate hets hvia
  obtain rfl := hupdate.source
  let node := held.nodes (T.peer f.source).1
  have hwell : node.WellFormed := hheld.well _
  have hmine : node.isMyInterface d = false := by
    rw [Bool.eq_false_iff]
    exact fun hmine ↦ hother ((Topology.isMyInterface_iff_owns (hheld.vips _) d).mp hmine)
  have hreceive : node.receiveFrame f.frame (T.vip (T.peer f.source)) stale clock =
      node.transferIpToRip (ripPayload (f.frame ++ stale)) (T.vip (T.peer f.source)) clock := by
    rw [hgenuine.receiveFrame_eq hwell.idle, if_pos hup]
  rw [← hgenuine.readEntries_eq node.order stale,
    ← map_fst_readTimed node.order (ripPayload (f.frame ++ stale)) clock] at hentry
  obtain ⟨entry, hentry, hread⟩ := List.mem_map.mp hentry
  have hcost : entry.1.cost = ets.e.cost := by rw [hread]
  have haddress : entry.1.address = d := by rw [hread]
  have hreachable : entry.1.cost ≠ ripMaxCost := by
    rw [hcost]
    exact fun hmax ↦ hinfinity (congrArg UInt32.toNat hmax)
  obtain ⟨ets', hets', hle⟩ := foldl_hear_le (T.vip (T.peer f.source)) haddress hreachable hentry
    node.rtable[d]?
  rw [hcost] at hle
  rw [← transferIpToRip_route hmine (hupdate.readCommand_eq node.order stale), ← hreceive] at hets'
  refine ⟨_, Topology.state_table_eq_some.mpr ⟨ets', ?_, rfl⟩, ?_⟩
  · rw [hstep.deliver_eq hget]
    show ((held.put (T.peer f.source).1 _).nodes (T.peer f.source).1).rtable[d]? = some ets'
    rw [put_nodes_self]
    exact hets'
  · have hbounded : ets.e.cost ≤ ripMaxCost := hsent.costs _ d ets hets
    show ets'.e.cost.toNat ≤ ets.e.cost.toNat + 1
    rw [← toNat_cost_succ hbounded]
    exact UInt32.le_iff_toNat_le.mp hle

/-- A round of the network is a round of the protocol. Assumes: an entry for the address of every
interface. -/
theorem Round.updated {net net' : Net T} (h : net.Round net') (hvalid : net.Valid)
    (hsound : DistanceVector.Sound T.protocol net.abstract)
    (hown : DistanceVector.Converged T.protocol 0 net.abstract) :
    net'.Valid ∧ DistanceVector.Sound T.protocol net'.abstract ∧
      DistanceVector.Updated T.protocol net.abstract net'.abstract := by
  obtain ⟨events, hrun, hhears⟩ := h
  obtain ⟨hvalid', hsound', himproves⟩ := hvalid.static_run hsound hrun
  refine ⟨hvalid', hsound', himproves, fun e ↦ ?_⟩
  obtain ⟨before, between, after, index, stale, clock, sent, held, heard, f, -, hbefore, hbetween,
    hget, hupdate, hstep, hafter⟩ := hhears e
  obtain ⟨hvalidSent, hsoundSent, himprovesSent⟩ := hvalid.static_run hsound hbefore
  obtain ⟨hvalidHeld, hsoundHeld, himprovesHeld⟩ := hvalidSent.static_run hsoundSent hbetween
  obtain ⟨hvalidHeard, hsoundHeard, -⟩ := hvalidHeld.static_run hsoundHeld (Run.single hstep)
  obtain ⟨-, -, himprovesAfter⟩ := hvalidHeard.static_run hsoundHeard hafter
  -- the interface at the far end is up, for its node still has the entry of its address
  obtain ⟨r, hr, -⟩ := (hown.improves (himprovesSent.trans himprovesHeld)) (T.peer e).1
    (T.peer e).1 (T.vip (T.peer e)) 0 ⟨T.peer e, rfl, rfl⟩ SimpleGraph.edist_self le_rfl
    (Nat.zero_le _)
  obtain ⟨ets, hets, -⟩ := Topology.state_table_eq_some.mp hr
  exact ⟨sent.abstract, heard.abstract, hsoundSent, himprovesSent,
    hvalidSent.takesUp hvalidHeld hupdate hget hstep.1 (hvalidHeld.accepts (T.peer e) hets),
    himprovesAfter⟩

/-- Every node starts with the entries of its own addresses. -/
theorem start_converged (T : Topology) (clock : Fin T.size → ℕ → Timeval) :
    DistanceVector.Converged T.protocol 0 (start T clock).abstract := by
  refine DistanceVector.converged_zero fun n d howns ↦ ?_
  rcases start_getElem? T clock n d with ⟨hnot, -⟩ | ⟨-, i, hentry⟩
  · exact absurd howns hnot
  · exact ⟨_, Topology.state_table_eq_some.mpr ⟨_, hentry, rfl⟩, rfl⟩

/-- After `k` rounds from the constructors' tables every node has, for the address of every
interface at most `k` links away, and at most sixteen, an entry whose cost is the distance. Packets
are attributed to the far end of their link. -/
theorem routes_converge (T : Topology) (clock : Fin T.size → ℕ → Timeval) {k : ℕ} {net : Net T}
    (hrounds : Iterate Round k (start T clock) net) {n : Fin T.size} {o : T.End} {h : ℕ}
    (hdist : T.graph.edist n o.1 = h) (hle : h ≤ min k 16) :
    ∃ ets, (net.nodes n).rtable[T.vip o]? = some ets ∧ ets.e.cost.toNat = h := by
  let ConvergedIn (k : ℕ) (net : Net T) : Prop := net.Valid ∧
    DistanceVector.Sound T.protocol net.abstract ∧
      DistanceVector.Converged T.protocol k net.abstract
  have hround : ∀ k net net', ConvergedIn k net → Round net net' → ConvergedIn (k + 1) net' := by
    rintro k net net' ⟨hvalid, hsound, hconverged⟩ hround
    obtain ⟨hvalid', hsound', hupdated⟩ := hround.updated hvalid hsound (hconverged.of_le k.zero_le)
    exact ⟨hvalid', hsound', hconverged.round hupdated⟩
  obtain ⟨-, hsound, hconverged⟩ := hrounds.invariant hround
    ⟨Valid.start T clock, (start_initial T clock).sound, start_converged T clock⟩
  obtain ⟨r, hr, hcost⟩ := hconverged.exists_cost_eq hsound ⟨o, rfl, rfl⟩ hdist
    (hle.trans (Nat.min_le_left k 16)) (hle.trans (Nat.min_le_right k 16))
  obtain ⟨ets, hets, rfl⟩ := Topology.state_table_eq_some.mp hr
  exact ⟨ets, hets, hcost⟩

/-- Each of two nodes sends an update, and the two updates are delivered. -/
theorem pair_round : ∃ net, Round (start pair fun _ _ ↦ ⟨0, 0⟩) net := by
  let sends : List (NetEvent pair) := [.command (0 : Fin 2) (.send 2), .command (1 : Fin 2) (.send 2)]
  let delivery (index : ℕ) : NetEvent pair := .deliver index [] fun _ ↦ ⟨0, 0⟩
  let sent := start pair fun _ _ ↦ ⟨0, 0⟩
  let isUpdate (e : pair.End) (f : Flight pair) : Bool :=
    f.source == e && ((sent.nodes e.1).interfaces[e.2.val]?).any fun ifc ↦
      f.frame == ((sent.nodes e.1).ripPacket 2 e.2.val ifc).packet
  let index (e : pair.End) : ℕ := 2 + e.1.val
  have hrun : (sends.foldlM handle sent).any (fun held ↦
    decide (∀ e : pair.End, ((held.flight[index e]?).any (isUpdate e)) = true)) = true := by decide
  have hsize : ∀ e : pair.End, (sent.nodes e.1).rtable.size ≤ maxEntries := by decide
  obtain ⟨held, hheld, hcheck⟩ := (Option.any_eq_true _ _).mp hrun
  have hupdates : ∀ e : pair.End, ∃ f, held.flight[index e]? = some f ∧ sent.IsUpdate e f := by
    intro e
    obtain ⟨f, hf, hupdate⟩ := (Option.any_eq_true _ _).mp (of_decide_eq_true hcheck e)
    obtain ⟨hsource, hframe⟩ := (Bool.and_eq_true _ _).mp hupdate
    obtain ⟨ifc, hifc, hpacket⟩ := (Option.any_eq_true _ _).mp hframe
    exact ⟨f, hf, beq_iff_eq.mp hsource, ⟨ifc, hifc, beq_iff_eq.mp hpacket⟩, hsize e⟩
  have hdeliver : ∀ (net : Net pair) (e : pair.End) (f : Flight pair),
      net.flight[index e]? = some f → ∃ net', net.StaticStep (delivery (index e)) net' ∧
        ∀ e' f', net.flight[index e']? = some f' → net'.flight[index e']? = some f' := by
    intro net e f hf
    refine ⟨_, ⟨congrArg (Option.map _) hf, id⟩, fun e' f' hf' ↦ ?_⟩
    have hlt := (List.getElem?_eq_some_iff.mp hf').1
    exact (List.getElem?_append_left hlt).trans hf'
  have hstatic : ∀ net, ∀ event ∈ sends, ¬ Withdraws net event := by
    intro net event hevent
    rcases List.mem_cons.mp hevent with rfl | hevent
    · exact id
    · rw [List.mem_singleton.mp hevent]
      exact id
  have hsends : Run StaticStep sent sends held := (run_iff.mpr hheld).mono
    fun net _ event hevent hstep ↦ ⟨hstep, hstatic net event hevent⟩
  let left := pairEnd 0
  let right := pairEnd 1
  obtain ⟨f, hf, hleft⟩ := hupdates left
  obtain ⟨f', hf', hright⟩ := hupdates right
  obtain ⟨heard, hfirst, hkept⟩ := hdeliver held left f hf
  obtain ⟨net, hsecond, -⟩ := hdeliver heard right f' (hkept right f' hf')
  have hends : ∀ e : pair.End, e = left ∨ e = right := by decide
  refine ⟨net, sends ++ (delivery (index left) :: [delivery (index right)]),
    hsends.append (Run.cons hfirst (Run.single hsecond)), fun e ↦ ?_⟩
  rcases hends e with rfl | rfl
  · exact ⟨[], sends, [delivery (index right)], index left, [], fun _ ↦ ⟨0, 0⟩, sent, held, heard, f,
      rfl, Run.nil sent, hsends, hf, hleft, hfirst, Run.single hsecond⟩
  · exact ⟨[], sends ++ [delivery (index left)], [], index right, [], fun _ ↦ ⟨0, 0⟩, sent, heard,
      net, f', rfl, Run.nil sent, hsends.append (Run.single hfirst), hkept right f' hf', hright,
      hsecond, Run.nil net⟩

/-- After one round each of two nodes has an entry of cost one for the other's address. -/
theorem routes_converge_pair : ∃ net, Round (start pair fun _ _ ↦ ⟨0, 0⟩) net ∧
    ∃ ets, (net.nodes (0 : Fin 2)).rtable[pair.vip (pairEnd 1)]? = some ets ∧
      ets.e.cost.toNat = 1 := by
  obtain ⟨net, hround⟩ := pair_round
  have hadj : pair.graph.Adj (pairEnd 0).1 (pairEnd 1).1 :=
    pair.protocol.graph_adj_iff.mpr ⟨Fin.zero_ne_one, pairEnd 0, rfl, rfl⟩
  have hdist : pair.graph.edist (pairEnd 0).1 (pairEnd 1).1 = (1 : ℕ) := by
    rw [SimpleGraph.edist_eq_one_iff_adj.mpr hadj, Nat.cast_one]
  exact ⟨net, hround, routes_converge pair (fun _ _ ↦ ⟨0, 0⟩)
    (Iterate.succ (Iterate.zero _) hround) hdist (le_refl 1)⟩

end Net

end IpRipStack
