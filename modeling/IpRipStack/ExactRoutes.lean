import IpRipStack.Refinement
import IpRipStack.Library.DistanceVector.Forest

/-!
# Routes of an acyclic network

Where the links form a forest, whatever happens: interfaces come and go, entries expire, and packets
are delivered however late and however often. `Net.routes_exact` is the invariant `Exact` of the
protocol, read in the tables.
-/

set_option autoImplicit false
set_option relaxedAutoImplicit false

namespace IpRipStack

open MachineWord OrderedMap Runs

namespace Net

variable {T : Topology}

/-- The regime in which everything is allowed. -/
def freeRegime : DistanceVector.Regime UInt32 where
  originates _ := True
  withdraws := True
  stamps _ := True

theorem permits_free (net : Net T) (event : NetEvent T) : net.Permits freeRegime event := by
  unfold Permits
  split
  · exact trivial
  · exact Or.inl trivial
  · exact trivial
  · exact ⟨fun _ _ _ ↦ trivial, trivial⟩
  · exact fun _ ↦ trivial
  · exact trivial

theorem exact_of_reachable {T : Topology} (hforest : T.protocol.IsForest)
    (clock : Fin T.size → ℕ → Timeval) {net : Net T} (hreach : Reachable Step (start T clock) net) :
    net.Valid ∧ DistanceVector.Exact T.protocol net.abstract := by
  obtain ⟨events, hrun⟩ := hreach
  obtain ⟨hvalid, hmoves⟩ := (Valid.start T clock).run_refines
    (fun net event _ hstep ↦ ⟨hstep, net.permits_free event⟩) hrun
  refine ⟨hvalid, ?_⟩
  exact invariant_of_reflTransGen (fun _ _ hexact hmove ↦ hexact.step hforest hmove) hmoves
    ((start_initial T clock).exact hforest)

/-- In every state a network without cycles reaches from the constructors' tables: an entry for an
address of another node leaves by the first link of the one path to the owner, and costs what that
path is long. So packets are never passed on in a loop, and an entry never costs anything else in a
later state. -/
theorem routes_exact {T : Topology} (hforest : T.protocol.IsForest)
    (clock : Fin T.size → ℕ → Timeval) {net : Net T} (hreach : Reachable Step (start T clock) net)
    (d : UInt32) :
    (∀ (n : Fin T.size) (ets : EntryWts), (net.nodes n).rtable[d]? = some ets → ¬ T.Owns n d →
      ∃ (o : Fin T.size) (e : T.End) (p : T.graph.Walk n o), T.Owns o d ∧ p.IsPath ∧
        (∀ q : T.graph.Walk n o, q.IsPath → q = p) ∧ e.1 = n ∧ ets.nextHop = T.vip e ∧
        p.snd = (T.peer e).1 ∧ ets.e.cost.toNat = p.length) ∧
    (∀ n, ¬ Relation.TransGen (net.PassesOn d) n n) ∧
    ∀ net', Reachable Step net net' → ∀ (n : Fin T.size) (ets ets' : EntryWts),
      (net.nodes n).rtable[d]? = some ets → (net'.nodes n).rtable[d]? = some ets' →
        ets'.e.cost = ets.e.cost := by
  obtain ⟨hvalid, hexact⟩ := exact_of_reachable hforest clock hreach
  refine ⟨?_, ?_, ?_⟩
  · intro n ets hets howns
    have hr : net.abstract.table n d = some (T.route n d ets) := abstract_table hets
    obtain ⟨o, e, p, howner, hvia, hhome, hpath, hlength, hsnd⟩ :=
      hexact.exists_path hforest hr howns
    refine ⟨o, e, p, howner, hpath, ?_, hhome, ?_, hsnd, hlength.symm⟩
    · intro q hq
      have hunique := (hforest.acyclic.subsingleton_path n o).elim ⟨q, hq⟩ ⟨p, hpath⟩
      exact congrArg Subtype.val hunique
    · exact ((T.route_via_eq_some_iff howns).mp hvia).symm
  · intro n hloop
    have hfollows : net.PassesOn d ≤ DistanceVector.Follows T.protocol net.abstract d :=
      fun _ _ ↦ hvalid.passesOn_iff.mp
    exact hexact.not_transGen_follows hforest d n (Relation.TransGen.mono hfollows n n hloop)
  · intro net' hlater n ets ets' hets hets'
    obtain ⟨events, hrun⟩ := hlater
    obtain ⟨-, hexact'⟩ := exact_of_reachable hforest clock (hreach.run hrun)
    have hr : net.abstract.table n d = some (T.route n d ets) := abstract_table hets
    have hr' : net'.abstract.table n d = some (T.route n d ets') := abstract_table hets'
    refine UInt32.toNat_inj.mp ?_
    by_cases howns : T.Owns n d
    · have hzero := (hexact.own n d _ hr (T.route_via_of_owns howns ets)).2
      have hzero' := (hexact'.own n d _ hr' (T.route_via_of_owns howns ets')).2
      exact hzero'.trans hzero.symm
    · exact (hexact.cost_eq hexact' hforest hr hr' howns).symm

theorem pair_isForest : pair.protocol.IsForest := by
  refine ⟨SimpleGraph.IsAcyclic.of_card_le_two ?_, ?_, ?_⟩
  · show ENat.card (Fin 2) ≤ 2
    rw [ENat.card_eq_coe_fintype_card, Fintype.card_fin]
    exact le_refl _
  · show ∀ e : pair.End, (pair.peer e).1 ≠ e.1
    decide
  · show ∀ e e' : pair.End, e.1 = e'.1 → (pair.peer e).1 = (pair.peer e').1 → e = e'
    decide

/-- One of two nodes has heard an update of the other before the other took its interface down. Its
entry is out of date and still exact: it costs what the path to the other is long, and its next hop
is the interface at this end of the link. -/
theorem routes_exact_pair : ∃ net ets, Reachable Step (start pair fun _ _ ↦ ⟨0, 0⟩) net ∧
    ((net.nodes (1 : Fin 2)).interfaces.all fun ifc ↦ !ifc.isup) = true ∧
    (net.nodes (0 : Fin 2)).rtable[(0x0A000002 : UInt32)]? = some ets ∧ ets.e.cost = 1 ∧
    ets.nextHop = 0x0A000001 ∧ ∃ (o : Fin 2) (e : pair.End) (p : pair.graph.Walk (0 : Fin 2) o),
      pair.Owns o 0x0A000002 ∧ p.IsPath ∧ e.1 = (0 : Fin 2) ∧ ets.nextHop = pair.vip e ∧
        p.snd = (pair.peer e).1 ∧ ets.e.cost.toNat = p.length := by
  let events : List (NetEvent pair) :=
    [.command (1 : Fin 2) (.send 2), .deliver 2 [] fun _ ↦ ⟨0, 0⟩, .command (1 : Fin 2) (.down 0)]
  let isDown (net : Net pair) : Bool := (net.nodes (1 : Fin 2)).interfaces.all fun ifc ↦ !ifc.isup
  let hasRoute (net : Net pair) : Bool :=
    ((net.nodes (0 : Fin 2)).rtable[(0x0A000002 : UInt32)]?).any fun ets ↦
      ets.e.cost == 1 && ets.nextHop == 0x0A000001
  have hrun : (events.foldlM handle (start pair fun _ _ ↦ ⟨0, 0⟩)).any
      (fun net ↦ isDown net && hasRoute net) = true := by decide
  obtain ⟨net, hnet, hboth⟩ := (Option.any_eq_true _ _).mp hrun
  obtain ⟨hdown, hroute⟩ := (Bool.and_eq_true _ _).mp hboth
  obtain ⟨ets, hets, hvalues⟩ := (Option.any_eq_true _ _).mp hroute
  obtain ⟨hcost, hnext⟩ := (Bool.and_eq_true _ _).mp hvalues
  have hreach : Reachable Step (start pair fun _ _ ↦ ⟨0, 0⟩) net := ⟨events, run_iff.mpr hnet⟩
  have howns : ¬ pair.Owns (0 : Fin 2) 0x0A000002 := by
    have hother : ∀ e : pair.End, pair.vip e = 0x0A000002 → e.1.val = 1 := by decide
    rintro ⟨e, hhome, hvip⟩
    have hzero : e.1.val = 0 := congrArg Fin.val hhome
    exact absurd (hother e hvip) (hzero ▸ Nat.zero_ne_one)
  obtain ⟨hexact, -⟩ := routes_exact pair_isForest (fun _ _ ↦ ⟨0, 0⟩) hreach 0x0A000002
  obtain ⟨o, e, p, howner, hpath, -, hhome, hvia, hsnd, hlength⟩ := hexact (0 : Fin 2) ets hets howns
  exact ⟨net, ets, hreach, hdown, hets, beq_iff_eq.mp hcost, beq_iff_eq.mp hnext, o, e, p, howner,
    hpath, hhome, hvia, hsnd, hlength⟩

end Net

end IpRipStack
