import IpRipStack.ExactRoutes
import IpRipStack.TableSize
import IpRipStack.Library.DistanceVector.Grounded

/-!
# Routes whatever happens

Interfaces go down and come up, entries expire, packets are lost, delayed and delivered again. What
the tables say may then be out of date, but never in one direction: `Net.routes_grounded` reads the
invariant `Grounded` of the protocol in the tables. A table so has no more entries than the network
has interfaces, and where these are at most sixty-four no node ever writes past the slots of a
message (`Net.updates_fit`).
-/

set_option autoImplicit false
set_option relaxedAutoImplicit false

namespace IpRipStack

open MachineWord OrderedMap Runs

namespace Net

variable {T : Topology} {net : Net T}

theorem grounded_of_reachable (T : Topology) (clock : Fin T.size → ℕ → Timeval) {net : Net T}
    (hreach : Reachable Step (start T clock) net) :
    net.Valid ∧ DistanceVector.Grounded T.protocol net.abstract := by
  obtain ⟨events, hrun⟩ := hreach
  obtain ⟨hvalid, hmoves⟩ := (Valid.start T clock).run_refines
    (fun net event _ hstep ↦ ⟨hstep, net.permits_free event⟩) hrun
  refine ⟨hvalid, ?_⟩
  exact invariant_of_reflTransGen (fun _ _ hgrounded hmove ↦ hgrounded.step hmove) hmoves
    (start_initial T clock).grounded

/-- The keys of the tables are addresses of the network. -/
theorem exists_end_of_mem (h : DistanceVector.Grounded T.protocol net.abstract) {n : Fin T.size}
    {d : UInt32} (hd : d ∈ (net.nodes n).rtable) : ∃ e : T.End, T.vip e = d := by
  obtain ⟨ets, hets⟩ := getElem?_of_mem hd
  obtain ⟨o, ⟨e, -, hvip⟩, -⟩ := h.route n d _ (abstract_table hets)
  exact ⟨e, hvip⟩

theorem size_le_card (h : DistanceVector.Grounded T.protocol net.abstract) (n : Fin T.size) :
    (net.nodes n).rtable.size ≤ Fintype.card T.End := by
  classical
  have hkeys : ∀ d ∈ (net.nodes n).rtable, d ∈ (Finset.univ.image T.vip).toList := by
    intro d hd
    obtain ⟨e, rfl⟩ := exists_end_of_mem h hd
    exact Finset.mem_toList.mpr (Finset.mem_image_of_mem T.vip (Finset.mem_univ e))
  calc (net.nodes n).rtable.size
      ≤ (Finset.univ.image T.vip).toList.length := size_le_length hkeys
    _ = (Finset.univ.image T.vip).card := Finset.length_toList _
    _ ≤ Finset.univ.card := Finset.card_image_le
    _ = Fintype.card T.End := Finset.card_univ

/-- In every state the network reaches, whatever happens to interfaces, entries and packets: every
entry is for an address of one of its nodes and costs at least what that node is away. -/
theorem routes_grounded (T : Topology) (clock : Fin T.size → ℕ → Timeval) {net : Net T}
    (hreach : Reachable Step (start T clock) net) {n : Fin T.size} {d : UInt32} {ets : EntryWts}
    (hets : (net.nodes n).rtable[d]? = some ets) :
    ∃ o, T.Owns o d ∧ T.graph.edist n o ≤ ets.e.cost.toNat ∧ ets.e.cost.toNat ≤ 16 := by
  obtain ⟨hvalid, hgrounded⟩ := grounded_of_reachable T clock hreach
  obtain ⟨o, howns, hdist⟩ := hgrounded.route n d _ (abstract_table hets)
  exact ⟨o, howns, hdist, UInt32.le_iff_toNat_le.mp (hvalid.costs n d ets hets)⟩

/-- One of two nodes has heard an update of the other before the other took its interface down. Its
entry, which leaves by its own interface, is out of date and costs what the other is away. -/
theorem routes_grounded_pair : ∃ net ets, Reachable Step (start pair fun _ _ ↦ ⟨0, 0⟩) net ∧
    ((net.nodes (1 : Fin 2)).interfaces.all fun ifc ↦ !ifc.isup) = true ∧
    (net.nodes (0 : Fin 2)).rtable[(0x0A000002 : UInt32)]? = some ets ∧ ets.e.cost = 1 ∧
    ets.nextHop = 0x0A000001 ∧ ∃ o : Fin 2, pair.Owns o 0x0A000002 ∧
      pair.graph.edist (0 : Fin 2) o ≤ ets.e.cost.toNat ∧ ets.e.cost.toNat ≤ 16 := by
  let events : List (NetEvent pair) :=
    [.command (1 : Fin 2) (.send 2), .deliver 2 [] fun _ ↦ ⟨0, 0⟩, .command (1 : Fin 2) (.down 0)]
  let isDown (net : Net pair) : Bool := (net.nodes (1 : Fin 2)).interfaces.all fun ifc ↦ !ifc.isup
  let hasRoute (net : Net pair) : Bool :=
    ((net.nodes (0 : Fin 2)).rtable[(0x0A000002 : UInt32)]?).any fun ets ↦
      ets.e.cost == 1 && ets.nextHop == 0x0A000001
  have hrun : (events.foldlM handle (start pair fun _ _ ↦ ⟨0, 0⟩)).any
      (fun net ↦ isDown net && hasRoute net) = true := by decide
  obtain ⟨net, hnet, hboth⟩ := (Option.any_eq_true _ _).mp hrun
  obtain ⟨hdown, hroute⟩ := (Bool.and_eq_true _ _).mp hboth
  obtain ⟨ets, hets, hvalues⟩ := (Option.any_eq_true _ _).mp hroute
  obtain ⟨hcost, hnext⟩ := (Bool.and_eq_true _ _).mp hvalues
  have hreach : Reachable Step (start pair fun _ _ ↦ ⟨0, 0⟩) net := ⟨events, run_iff.mpr hnet⟩
  exact ⟨net, ets, hreach, hdown, hets, beq_iff_eq.mp hcost, beq_iff_eq.mp hnext,
    routes_grounded pair (fun _ _ ↦ ⟨0, 0⟩) hreach hets⟩

/-- Assumes: at most sixty-four interfaces in the whole network. Whatever happens, the messages that
a node makes of its table have room in their slots, in the data of a packet and in the buffer of the
receiver. -/
theorem updates_fit (T : Topology) (hends : Fintype.card T.End ≤ maxEntries)
    (clock : Fin T.size → ℕ → Timeval) {net : Net T} (hreach : Reachable Step (start T clock) net)
    (n : Fin T.size) : (net.nodes n).UpdateFits := by
  obtain ⟨-, hgrounded⟩ := grounded_of_reachable T clock hreach
  exact (net.nodes n).updateFits_iff.mpr ((size_le_card hgrounded n).trans hends)

theorem updates_fit_pair : ∃ net, Reachable Step (start pair fun _ _ ↦ ⟨0, 0⟩) net ∧
    (net.nodes (0 : Fin 2)).rtable.size = 2 ∧ (net.nodes (0 : Fin 2)).UpdateFits := by
  let events : List (NetEvent pair) :=
    [.command (1 : Fin 2) (.send 2), .deliver 2 [] fun _ ↦ ⟨0, 0⟩]
  have hrun : (events.foldlM handle (start pair fun _ _ ↦ ⟨0, 0⟩)).any
      (fun net ↦ (net.nodes (0 : Fin 2)).rtable.size == 2) = true := by decide
  obtain ⟨net, hnet, hsize⟩ := (Option.any_eq_true _ _).mp hrun
  have hreach : Reachable Step (start pair fun _ _ ↦ ⟨0, 0⟩) net := ⟨events, run_iff.mpr hnet⟩
  exact ⟨net, hreach, beq_iff_eq.mp hsize, updates_fit pair (by decide) _ hreach (0 : Fin 2)⟩

end Net

end IpRipStack
