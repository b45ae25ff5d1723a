import IpRipStack.RouteLife

/-!
# The range of learned metrics

What the cost of a learned route can be. `update_route_table` tests the cost of a received entry for
being sixteen and stores one more than the cost, as thirty-two bits. So fifteen and everything from
seventeen on pass the test, and the greatest cost wraps to zero.

`foldl_hear_range` says what one response does to the range of one route, and `metrics_inRange_iff`
follows it through whole runs: the metrics stay in range exactly when every response that is taken
up is harmless (`Node.MetricsSafe`).
-/

set_option autoImplicit false
set_option relaxedAutoImplicit false

namespace IpRipStack

open MachineWord OrderedMap Runs

/-- The cost of a usable route to somewhere else. -/
def EntryWts.InRange (ets : EntryWts) : Prop := 1 ≤ ets.e.cost ∧ ets.e.cost ≤ 15

instance (ets : EntryWts) : Decidable ets.InRange := inferInstanceAs (Decidable (_ ∧ _))

/-- Every learned entry has a cost in range. -/
def Node.MetricsInRange (node : Node) : Prop :=
  ∀ (d : UInt32) (ets : EntryWts), node.rtable[d]? = some ets → node.isMyInterface d = false →
    ets.InRange

/-- The entries heard keep the route for `d` in range: none of them has the greatest cost, and where
there was no route and one is offered, one of them costs less than fifteen. -/
def Harmless (d : UInt32) (route : Option EntryWts) (heard : List (Entry × Timeval)) : Prop :=
  (∀ entry ∈ heard, entry.1.address = d → entry.1.cost ≠ 0xFFFFFFFF) ∧
    (route = none → (∃ entry ∈ heard, entry.1.address = d ∧ entry.1.cost ≠ ripMaxCost) →
      ∃ entry ∈ heard, entry.1.address = d ∧ entry.1.cost < 15)

/-- What happens to the node is harmless for all addresses that are not its own. -/
def Node.MetricsSafe (node : Node) (event : Event) : Prop :=
  ∀ d, node.isMyInterface d = false → Harmless d node.rtable[d]? (node.heard event)

/-! ### One response -/

/-- One more than a cost is at least one unless the cost is the greatest. -/
theorem one_le_cost_succ_iff (cost : UInt32) : 1 ≤ cost + 1 ↔ cost ≠ 0xFFFFFFFF := by
  have hlt := cost.toNat_lt
  rw [UInt32.le_iff_toNat_le, UInt32.toNat_add, ne_eq, ← UInt32.toNat_inj]
  change 1 ≤ (cost.toNat + 1) % 4294967296 ↔ cost.toNat ≠ 4294967295
  omega

/-- Assumes: a cost that is not the greatest. -/
theorem cost_succ_le_iff {cost : UInt32} (h : cost ≠ 0xFFFFFFFF) : cost + 1 ≤ 15 ↔ cost < 15 := by
  have hlt := cost.toNat_lt
  rw [ne_eq, ← UInt32.toNat_inj] at h
  change cost.toNat ≠ 4294967295 at h
  rw [UInt32.le_iff_toNat_le, UInt32.lt_iff_toNat_lt, UInt32.toNat_add]
  change (cost.toNat + 1) % 4294967296 ≤ 15 ↔ cost.toNat < 15
  omega

/-- Assumes: a route in range, if there is one. The route a response leaves is in range exactly when
the response is harmless. -/
theorem foldl_hear_range {d : UInt32} (next : UInt32) {route : Option EntryWts}
    (hroute : ∀ ets, route = some ets → ets.InRange) (heard : List (Entry × Timeval)) :
    (∀ ets, heard.foldl (hear d next) route = some ets → ets.InRange) ↔
      Harmless d route heard := by
  constructor
  · intro hrange
    have hwraps : ∀ entry ∈ heard, entry.1.address = d → entry.1.cost ≠ 0xFFFFFFFF := by
      intro entry hentry haddress hgreatest
      have hoffer : entry.1.cost ≠ ripMaxCost := by
        rw [hgreatest]
        decide
      obtain ⟨ets, hets, hle⟩ := foldl_hear_le next haddress hoffer hentry route
      have hpositive := UInt32.le_trans (hrange ets hets).1 hle
      exact (one_le_cost_succ_iff _).mp hpositive hgreatest
    refine ⟨hwraps, fun hnone hoffered ↦ ?_⟩
    obtain ⟨offer, hoffer, haddress, hcost⟩ := hoffered
    obtain ⟨ets, hets, -⟩ := foldl_hear_le next haddress hcost hoffer route
    rcases foldl_hear_origin hets with hold | ⟨entry, hentry, hentryAddress, -, rfl⟩
    · rw [hnone] at hold
      exact absurd hold.symm (Option.some_ne_none ets)
    · refine ⟨entry, hentry, hentryAddress, ?_⟩
      exact (cost_succ_le_iff (hwraps entry hentry hentryAddress)).mp (hrange _ hets).2
  · rintro ⟨hwraps, hcheap⟩ ets hets
    rcases foldl_hear_origin hets with hold | ⟨entry, hentry, haddress, hcost, rfl⟩
    · exact hroute ets hold
    · refine ⟨(one_le_cost_succ_iff _).mpr (hwraps entry hentry haddress), ?_⟩
      cases hold : route with
      | none =>
        -- the first offer was taken whatever it cost, and the cheap one is somewhere behind it
        obtain ⟨cheap, hmem, hcheapAddress, hlow⟩ := hcheap hold ⟨entry, hentry, haddress, hcost⟩
        have hreachable : cheap.1.cost ≠ ripMaxCost := by
          intro hmax
          rw [hmax] at hlow
          exact absurd hlow (by decide)
        obtain ⟨ets', hets', hle⟩ := foldl_hear_le next hcheapAddress hreachable hmem route
        obtain rfl := Option.some.inj (hets.symm.trans hets')
        refine UInt32.le_trans hle ((cost_succ_le_iff (hwraps cheap hmem hcheapAddress)).mpr hlow)
      | some old =>
        rw [hold, foldl_hear_some] at hets
        have hle := (afterAll_least old d next heard).1
        rw [Option.some.inj hets] at hle
        exact UInt32.le_trans hle (hroute old hold).2

/-! ### Whole runs -/

namespace Node

theorem isMyInterface_of_step {node node' : Node} {event : Event} (hstep : node.Step event node')
    (hidle : node.outgoingqueue = []) (d : UInt32) :
    node'.isMyInterface d = node.isMyInterface d :=
  (hstep.sameLinks hidle).isMyInterface d

/-- One step keeps the metrics in range exactly when it is harmless. -/
theorem Step.metricsInRange_iff {node node' : Node} {event : Event} (hidle : node.outgoingqueue = [])
    (hrange : node.MetricsInRange) (hstep : node.Step event node') :
    node'.MetricsInRange ↔ node.MetricsSafe event := by
  have hall : ∀ d, node.isMyInterface d = false →
      ((∀ ets, node'.rtable[d]? = some ets → ets.InRange) ↔
        Harmless d node.rtable[d]? (node.heard event)) := by
    intro d hother
    have hroute : ∀ ets, node.rtable[d]? = some ets → ets.InRange :=
      fun ets hets ↦ hrange d ets hets hother
    rcases hstep.route_cases hidle hother with ⟨next, hroute'⟩ | ⟨hsilent, hkept⟩
    · rw [hroute']
      exact foldl_hear_range next hroute _
    · rw [hsilent]
      refine iff_of_true (fun ets hets ↦ hroute ets (hkept ets hets)) ⟨?_, ?_⟩
      · intro entry hentry
        exact absurd hentry List.not_mem_nil
      · rintro - ⟨entry, hentry, -⟩
        exact absurd hentry List.not_mem_nil
  constructor
  · intro hrange' d hother
    refine (hall d hother).mp fun ets hets ↦ hrange' d ets hets ?_
    rwa [isMyInterface_of_step hstep hidle]
  · intro hsafe d ets hets hother
    rw [isMyInterface_of_step hstep hidle] at hother
    exact (hall d hother).mpr (hsafe d hother) ets hets

/-- A node starts with no learned entries. -/
theorem new_metricsInRange (order : ByteOrder) (links : List LinkConfig) (clock : ℕ → Timeval) :
    (new order links clock).MetricsInRange := by
  intro d ets hets hother
  rcases ripLayer_getElem? ⟨order, links.map LinkLayer.new, ∅, [], [], []⟩ clock d with
    ⟨-, hnone⟩ | ⟨hmine, -⟩
  · exact absurd (hets.symm.trans hnone) (Option.some_ne_none ets)
  · have hsame : (new order links clock).isMyInterface d = true := by
      unfold isMyInterface at hmine ⊢
      rwa [new_interfaces]
    exact absurd (hsame.symm.trans hother) Bool.noConfusion

/-- In every state of a run from the constructor every learned entry costs between one and fifteen,
exactly when every response the node takes up on the way is harmless: for no destination that is not
the node's own does it contain the greatest cost, and for none to which the node has no route does
it offer routes of fifteen and more alone. -/
theorem metrics_inRange_iff (order : ByteOrder) (links : List LinkConfig) (clock : ℕ → Timeval)
    (events : List Event) :
    EveryState Step MetricsInRange (new order links clock) events ↔
      EveryStep Step MetricsSafe (new order links clock) events :=
  everyState_new_iff (new_metricsInRange order links clock)
    (fun hidle hrange hstep ↦ hstep.metricsInRange_iff hidle hrange) events

end Node

/-- The packet of the neighbour `10.0.0.2` that offers a route for `10.0.0.9` of any cost. -/
def offerPacket (cost : UInt32) : List UInt8 :=
  buildIpPacket .little 0x0A000002 0x0A000001 ripProto
    ([0, 2, 0, 1] ++ (store32 .big cost ++ [10, 0, 0, 9, 255, 255, 255, 255])) 16

def offer (cost : UInt32) : Event :=
  .receive 0 (offerPacket cost) [] fun _ ↦ seconds 0

/-- Assumes: an offer that leaves the node with a route out of range. -/
theorem not_metricsInRange_offer {cost : UInt32}
    (h : (leafNode.receiveFrame (offerPacket cost) 0x0A000001 []
      fun _ ↦ seconds 0).rtable[(0x0A000009 : UInt32)]?.any (fun ets ↦ !decide ets.InRange) = true) :
    ¬ EveryState Node.Step Node.MetricsInRange leafNode [offer cost] := by
  intro hrange
  obtain ⟨ets, hroute, hout⟩ := (Option.any_eq_true _ _).mp h
  rw [Bool.not_eq_true', decide_eq_false_iff_not] at hout
  have hstep : leafNode.Step (offer cost)
      (leafNode.receiveFrame (offerPacket cost) 0x0A000001 [] fun _ ↦ seconds 0) := rfl
  have hother : (leafNode.receiveFrame (offerPacket cost) 0x0A000001 []
      fun _ ↦ seconds 0).isMyInterface 0x0A000009 = false := by
    rw [(Node.receiveFrame_sameLinks rfl _ _ _ _).isMyInterface]
    rfl
  exact hout (hrange _ [] _ (List.append_nil _).symm (Run.single hstep) _ _ hroute hother)

/-- Offers of fifteen, seventeen and the greatest cost are taken up: the routes cost sixteen,
eighteen and nothing. -/
theorem metrics_out_of_range :
    ¬ EveryState Node.Step Node.MetricsInRange leafNode [offer 15] ∧
    ¬ EveryState Node.Step Node.MetricsInRange leafNode [offer 17] ∧
    ¬ EveryState Node.Step Node.MetricsInRange leafNode [offer 0xFFFFFFFF] :=
  ⟨not_metricsInRange_offer (by decide +kernel), not_metricsInRange_offer (by decide +kernel),
    not_metricsInRange_offer (by decide +kernel)⟩

end IpRipStack
