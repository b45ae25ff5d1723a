import IpRipStack.Refinement

/-!
# Routes while nothing is withdrawn

A run in which no interface is taken down and no entry expires (`Net.StaticStep`): nodes send
requests and responses, sweep their tables without effect, bring interfaces up that are up already,
and the network delivers packets in any order, again and again, or loses them. The soundness
invariant of the protocol holds in every state such a run reaches (`Net.sound_of_reachable`), and
`Net.routes_sound` says what it means for the tables and for packets.
-/

set_option autoImplicit false
set_option relaxedAutoImplicit false

namespace IpRipStack

open MachineWord OrderedMap Runs

namespace Net

variable {T : Topology}

/-- What takes routes away: an interface that goes down, a sweep that erases an entry. -/
def Withdraws (net : Net T) : NetEvent T → Prop
  | .command _ (.down _) => True
  | .command n (.refresh curtv) =>
    ((net.nodes n).refreshRouteTable curtv).rtable ≠ (net.nodes n).rtable
  | _ => False

/-- A step that takes no route away. -/
def StaticStep (net : Net T) (event : NetEvent T) (net' : Net T) : Prop :=
  net.Step event net' ∧ ¬ net.Withdraws event

/-- The regime of a network that withdraws nothing. -/
def staticRegime : DistanceVector.Regime UInt32 where
  originates _ := True
  withdraws := False
  stamps _ := True

theorem StaticStep.permits {net net' : Net T} {event : NetEvent T}
    (h : net.StaticStep event net') : net.Step event net' ∧ net.Permits staticRegime event := by
  obtain ⟨hstep, hkeeps⟩ := h
  refine ⟨hstep, ?_⟩
  unfold Permits
  unfold Withdraws at hkeeps
  split
  · exact trivial
  · exact Or.inr (not_ne_iff.mp hkeeps)
  · exact hkeeps trivial
  · exact ⟨fun _ _ _ ↦ trivial, trivial⟩
  · exact fun _ ↦ trivial
  · exact trivial

/-- Every state that a static run reaches is sound, and no cost has risen on the way. -/
theorem Valid.static_run {net net' : Net T} (h : net.Valid)
    (hsound : DistanceVector.Sound T.protocol net.abstract) {events : List (NetEvent T)}
    (hrun : Run StaticStep net events net') :
    net'.Valid ∧ DistanceVector.Sound T.protocol net'.abstract ∧
      DistanceVector.Improves net.abstract net'.abstract := by
  obtain ⟨hvalid, hmoves⟩ := h.run_refines (fun _ _ _ hstep ↦ hstep.permits) hrun
  refine ⟨hvalid, ?_, ?_⟩
  · exact invariant_of_reflTransGen (fun _ _ hsound hmove ↦ hsound.step hmove id) hmoves hsound
  · refine invariant_of_reflTransGen (fun _ _ himproves hmove ↦ ?_) hmoves
      (DistanceVector.Improves.refl _)
    exact himproves.trans (hmove.improves id)

theorem sound_of_reachable (T : Topology) (clock : Fin T.size → ℕ → Timeval) {net : Net T}
    (hreach : Reachable StaticStep (start T clock) net) :
    net.Valid ∧ DistanceVector.Sound T.protocol net.abstract := by
  obtain ⟨events, hrun⟩ := hreach
  obtain ⟨hvalid, hsound, -⟩ := (Valid.start T clock).static_run (start_initial T clock).sound hrun
  exact ⟨hvalid, hsound⟩

/-- In every state a static run reaches from the constructors' tables, whatever the network does
with the packets: a learned entry costs no less than the owner is far away and at most sixteen, and
the far end of the link of its next hop has an entry that costs strictly less. Packets passed on
from any node with an entry for an address reach the node that owns it after at most as many hops as
the entry costs, and meet no node twice. -/
theorem routes_sound (T : Topology) (clock : Fin T.size → ℕ → Timeval) {net : Net T}
    (hreach : Reachable StaticStep (start T clock) net) {n : Fin T.size} {d : UInt32}
    {ets : EntryWts} (hets : (net.nodes n).rtable[d]? = some ets) :
    (¬ T.Owns n d → ∃ (o : Fin T.size) (e : T.End), T.Owns o d ∧ e.1 = n ∧
      ets.nextHop = T.vip e ∧ T.graph.edist n o ≤ ets.e.cost.toNat ∧ ets.e.cost.toNat ≤ 16 ∧
      ∃ ets', (net.nodes (T.peer e).1).rtable[d]? = some ets' ∧
        ets'.e.cost.toNat < ets.e.cost.toNat) ∧
    ∃ (o : Fin T.size) (path : List (Fin T.size)), T.Owns o d ∧
      path.IsChain (net.PassesOn d) ∧ path.head? = some n ∧ path.getLast? = some o ∧ path.Nodup ∧
      path.length ≤ ets.e.cost.toNat + 1 := by
  obtain ⟨hvalid, hsound⟩ := sound_of_reachable T clock hreach
  have hr : net.abstract.table n d = some (T.route n d ets) := abstract_table hets
  obtain ⟨o, path, howner, hchain, hhead, hlast, hnodup, hlength, -⟩ :=
    hsound.exists_path _ hr rfl
  constructor
  · intro howns
    obtain ⟨e, hhome, hnext, hvia⟩ := hvalid.exists_link hets howns
    obtain ⟨-, -, hcost, r', hr', hlt⟩ := hsound.learned n d _ e hr hvia
    obtain ⟨ets', hets', rfl⟩ := Topology.state_table_eq_some.mp hr'
    exact ⟨o, e, howner, hhome, hnext.symm, hsound.edist_le howner _ hr rfl, hcost, ets', hets', hlt⟩
  · refine ⟨o, path, howner, ?_, hhead, hlast, hnodup, hlength⟩
    exact hchain.imp fun n m hfollows ↦ hvalid.passesOn_iff.mpr hfollows

/-- Once one of two nodes has heard an update of the other, packets for the other's address reach it
in one hop. -/
theorem routes_sound_pair : ∃ net, Reachable StaticStep (start pair fun _ _ ↦ ⟨0, 0⟩) net ∧
    ∃ (o : Fin 2) (path : List (Fin 2)), pair.Owns o 0x0A000002 ∧
      path.IsChain (net.PassesOn 0x0A000002) ∧ path.head? = some 0 ∧ path.getLast? = some o ∧
      path.Nodup ∧ path.length ≤ 2 := by
  let events : List (NetEvent pair) :=
    [.command (1 : Fin 2) (.send 2), .deliver 2 [] fun _ ↦ ⟨0, 0⟩]
  let hasRoute (net : Net pair) : Bool :=
    ((net.nodes (0 : Fin 2)).rtable[(0x0A000002 : UInt32)]?).any fun ets ↦ ets.e.cost == 1
  have hrun : (events.foldlM handle (start pair fun _ _ ↦ ⟨0, 0⟩)).any hasRoute = true := by decide
  obtain ⟨net, hnet, hroute⟩ := (Option.any_eq_true _ _).mp hrun
  obtain ⟨ets, hets, hcost⟩ := (Option.any_eq_true _ _).mp hroute
  have hstatic : ∀ net, ∀ event ∈ events, ¬ Withdraws net event := by
    intro net event hevent
    rcases List.mem_cons.mp hevent with rfl | hevent
    · exact id
    · rw [List.mem_singleton.mp hevent]
      exact id
  have hreach : Reachable StaticStep (start pair fun _ _ ↦ ⟨0, 0⟩) net :=
    ⟨events, (run_iff.mpr hnet).mono fun net _ event hevent hstep ↦
      ⟨hstep, hstatic net event hevent⟩⟩
  obtain ⟨-, o, path, howner, hchain, hhead, hlast, hnodup, hlength⟩ :=
    routes_sound pair _ hreach hets
  rw [beq_iff_eq.mp hcost] at hlength
  exact ⟨net, hreach, o, path, howner, hchain, hhead, hlast, hnodup, hlength⟩

end Net

end IpRipStack
