import IpRipStack.RouteUpdate

/-!
# The life of a route

What happens to the route a node has for a destination that is not its own, over whole runs. A route
is replaced, and its time stamp with it, only by a strictly cheaper one. Two things follow. A
response of the next hop itself that says the destination is further away than before, or out of
reach, changes nothing: `nextHop_obeyed_iff` says exactly when the next hop's word is taken. And a
response that repeats what the route rests on leaves the time stamp as it was: `kept_iff` says
exactly when the expiry sweep spares a route through a whole run, and `sweptInTime_of_repeats` what
that comes to while the route is only repeated.
-/

set_option autoImplicit false
set_option relaxedAutoImplicit false

namespace IpRipStack

open MachineWord OrderedMap Runs

/-! ### One response -/

/-- Assumes: a route for `d`, which is not one of the node's own addresses, by way of `next`, and a
response that arrives from there, with `last` its last entry for `d`. The next hop's word is taken
(a cost below fifteen, also a higher one, becomes the cost of the route, and from fifteen on the
route is given up) exactly when it is no bad news: the cost is below fifteen, the route did not cost
less, and nothing else in the response offers less. -/
theorem nextHop_obeyed_iff (node : Node) (data : List UInt8) (next : UInt32) (clock : ℕ → Timeval)
    (d : UInt32) (ets : EntryWts) (last : Entry) (hother : node.isMyInterface d = false)
    (hets : node.rtable[d]? = some ets) (hnext : ets.nextHop = next)
    (hresponse : readCommand node.order data = 2)
    (hlast : ((readEntries node.order data).filter fun e ↦ e.address = d).getLast? = some last) :
    ((last.cost < 15 → ∃ ets', (node.transferIpToRip data next clock).rtable[d]? = some ets' ∧
        ets'.e.cost = last.cost + 1) ∧
      (15 ≤ last.cost → ∀ ets', (node.transferIpToRip data next clock).rtable[d]? = some ets' →
        ets'.nextHop ≠ next)) ↔
      last.cost < 15 ∧ last.cost + 1 ≤ ets.e.cost ∧
        ∀ e ∈ readEntries node.order data, e.address = d → e.cost ≠ 16 →
          last.cost + 1 ≤ e.cost + 1 := by
  obtain ⟨hle, hleast, hfrom⟩ := afterAll_least ets d next (readTimed node.order data clock)
  have hroute : (node.transferIpToRip data next clock).rtable[d]? =
      some (ets.afterAll d next (readTimed node.order data clock)) := by
    rw [transferIpToRip_route hother hresponse, hets, foldl_hear_some]
  generalize ets.afterAll d next (readTimed node.order data clock) = ets' at hle hleast hfrom hroute
  have hread : ∀ e ∈ readEntries node.order data, e.address = d → e.cost ≠ ripMaxCost →
      ets'.e.cost ≤ e.cost + 1 := by
    intro e he haddress hcost
    rw [← map_fst_readTimed node.order data clock] at he
    obtain ⟨entry, hentry, rfl⟩ := List.mem_map.mp he
    exact hleast entry hentry haddress hcost
  have hnext' : ets'.nextHop = next := by
    rcases hfrom with rfl | ⟨entry, -, -, -, rfl⟩
    · exact hnext
    · rfl
  have hmem := List.mem_filter.mp (List.mem_of_getLast? hlast)
  have haddress : last.address = d := of_decide_eq_true hmem.2
  rw [hroute]
  constructor
  · rintro ⟨hobeyed, hdropped⟩
    have hlow : last.cost < 15 := by
      by_contra hhigh
      exact hdropped (UInt32.not_lt.mp hhigh) ets' rfl hnext'
    obtain ⟨ets'', hsome, hcost⟩ := hobeyed hlow
    obtain rfl := Option.some.inj hsome
    rw [hcost] at hle hread
    exact ⟨hlow, hle, hread⟩
  · rintro ⟨hlow, hnoWorse, hnoneLess⟩
    refine ⟨fun _ ↦ ⟨ets', rfl, ?_⟩, fun hhigh ↦ absurd hlow (UInt32.not_lt.mpr hhigh)⟩
    have hreachable : last.cost ≠ ripMaxCost := by
      rintro hmax
      rw [hmax] at hlow
      exact absurd hlow (by decide)
    apply UInt32.le_antisymm
    · exact hread last hmem.1 haddress hreachable
    · rcases hfrom with rfl | ⟨entry, hentry, hentryAddress, hentryCost, rfl⟩
      · exact hnoWorse
      · refine hnoneLess entry.1 ?_ hentryAddress hentryCost
        rw [← map_fst_readTimed node.order data clock]
        exact List.mem_map_of_mem hentry

/-- A clock reading on the second. -/
def seconds (s : Int64) : Timeval := ⟨s, 0⟩

/-- The payload of a response with one entry, for `10.0.0.9`. -/
def responseData (cost : UInt8) : List UInt8 :=
  [0, 2, 0, 1, 0, 0, 0, cost, 10, 0, 0, 9, 255, 255, 255, 255]

/-- The packet of the neighbour `10.0.0.2` with that payload. -/
def responsePacket (cost : UInt8) : List UInt8 :=
  buildIpPacket .little 0x0A000002 0x0A000001 ripProto (responseData cost) 16

/-- A node with the one interface `10.0.0.1`. -/
def leafNode : Node := Node.new .little [⟨3, 5001, 0x0A000001, 0x0A000002⟩] fun _ ↦ seconds 0

/-- The node with a route of cost two for `10.0.0.9`. -/
def routedNode : Node :=
  leafNode.receiveFrame (responsePacket 1) 0x0A000001 [] fun _ ↦ seconds 0

/-- The route. -/
def installedRoute : EntryWts := ⟨⟨2, 0x0A000009, 0xFFFFFFFF⟩, 0x0A000001, seconds 0⟩

theorem routedNode_wellFormed : routedNode.WellFormed :=
  (Node.WellFormed.new .little (fun _ ↦ seconds 0) (by decide)).receiveFrame
    (responsePacket 1) 0x0A000001 [] fun _ ↦ seconds 0

/-- A response that offers the destination for less. -/
theorem nextHop_obeyed_better : ∃ ets',
    (routedNode.transferIpToRip (responseData 0) 0x0A000001 fun _ ↦ seconds 1).rtable[
      (0x0A000009 : UInt32)]? = some ets' ∧ ets'.e.cost = 0 + 1 :=
  ((nextHop_obeyed_iff routedNode (responseData 0) 0x0A000001 (fun _ ↦ seconds 1) 0x0A000009
    installedRoute ⟨0, 0x0A000009, 0xFFFFFFFF⟩ (by decide) (by decide) rfl (by decide)
    (by decide)).mpr ⟨by decide, by decide, by decide⟩).1 (by decide)

/-- The next hop says that the destination is five links away, or out of reach; the route through it
stays as it was. -/
theorem nextHop_ignored :
    routedNode.isMyInterface 0x0A000009 = false ∧
    routedNode.rtable[(0x0A000009 : UInt32)]? = some installedRoute ∧
    (∀ cost ∈ [5, 16], readCommand .little (responseData cost) = 2 ∧
      ((readEntries .little (responseData cost)).filter fun e ↦ e.address = 0x0A000009).getLast? =
        some ⟨cost.toUInt32, 0x0A000009, 0xFFFFFFFF⟩ ∧
      (routedNode.transferIpToRip (responseData cost) 0x0A000001 fun _ ↦ seconds 1).rtable[
        (0x0A000009 : UInt32)]? = some installedRoute) ∧
    installedRoute.nextHop = 0x0A000001 ∧ installedRoute.e.cost ≠ 5 + 1 := by
  decide +kernel

/-! ### A whole run -/

namespace Node

/-- The entries an event makes a node take up, each with the clock reading of its turn: those of a
response that the routing layer takes. -/
def heard (node : Node) : Event → List (Entry × Timeval)
  | .receive interface frame stale clock =>
    match node.interfaces[interface]? with
    | none => []
    | some ifc =>
      if node.Accepts (frame ++ stale) ifc.vipLocal ∧
          readCommand node.order (ripPayload (frame ++ stale)) = 2 then
        readTimed node.order (ripPayload (frame ++ stale)) clock
      else []
  | _ => []

theorem heard_receive {node : Node} {interface : ℕ} {ifc : LinkLayer}
    (hget : node.interfaces[interface]? = some ifc) (frame stale : List UInt8)
    (clock : ℕ → Timeval) : node.heard (.receive interface frame stale clock) =
      if node.Accepts (frame ++ stale) ifc.vipLocal ∧
          readCommand node.order (ripPayload (frame ++ stale)) = 2 then
        readTimed node.order (ripPayload (frame ++ stale)) clock
      else [] := by
  simp only [heard, hget]

/-- The steps of a run: each event with the node it happens to. The run ends at an event that is no
operation of the node. -/
def trace (node : Node) : List Event → List (Node × Event)
  | [] => []
  | event :: events =>
    (node, event) ::
      match node.handle event with
      | none => []
      | some node' => node'.trace events

end Node

/-- The test of the expiry sweep. -/
def Expired (curtv stamp : Timeval) : Prop :=
  curtv.micros - stamp.micros > UInt64.ofNat (refreshTimerVal * 1000000)

instance (curtv stamp : Timeval) : Decidable (Expired curtv stamp) :=
  inferInstanceAs (Decidable (_ > _))

/-- What a step other than a sweep makes of the route for `d`: it is installed by the first offer,
replaced by strictly cheaper ones, and given up with the interface it leaves by. -/
def routeAfter (d : UInt32) (route : Option EntryWts) (step : Node × Event) : Option EntryWts :=
  match step.2 with
  | .receive interface _ _ _ =>
    match step.1.interfaces[interface]? with
    | none => route
    | some ifc => (step.1.heard step.2).foldl (hear d ifc.vipLocal) route
  | .command (.down interface) =>
    match step.1.interfaces[interface]? with
    | none => route
    | some ifc => route.filter fun ets ↦ ets.nextHop ≠ ifc.vipLocal
  | _ => route

/-- No sweep of the run erases the route for `d`. -/
def SweepsKeep (d : UInt32) (steps : List (Node × Event)) : Prop :=
  ∀ step ∈ steps, ∀ curtv, step.2 = .command (.refresh curtv) →
    step.1.rtable[d]? ≠ none → (step.1.refreshRouteTable curtv).rtable[d]? ≠ none

/-- Every sweep of the run that finds a route for `d` comes within the refresh time after the entry
that installed it or, the last time, replaced it by a strictly cheaper one. -/
def SweptInTime (d : UInt32) : Option EntryWts → List (Node × Event) → Prop
  | _, [] => True
  | route, step :: steps =>
    (∀ curtv ets, step.2 = .command (.refresh curtv) → route = some ets → ¬ Expired curtv ets.ts) ∧
      SweptInTime d (routeAfter d route step) steps

/-- What the reception of a frame makes of the route for an address that is not the node's own. -/
theorem Node.receive_route {node : Node} (hidle : node.outgoingqueue = []) {interface : ℕ}
    {ifc : LinkLayer} (hget : node.interfaces[interface]? = some ifc) (frame stale : List UInt8)
    (clock : ℕ → Timeval) {d : UInt32} (hother : node.isMyInterface d = false) :
    (node.receiveFrame frame ifc.vipLocal stale clock).rtable[d]? =
      (node.heard (.receive interface frame stale clock)).foldl (hear d ifc.vipLocal)
        node.rtable[d]? := by
  rw [heard_receive hget]
  rcases receiveFrame_cases hidle frame ifc.vipLocal stale clock with
    ⟨haccepts, hrip⟩ | ⟨hnot, queue, output, hsame⟩
  · rw [hrip]
    by_cases hresponse : readCommand node.order (ripPayload (frame ++ stale)) = 2
    · rw [if_pos ⟨haccepts, hresponse⟩, transferIpToRip_route hother hresponse]
    · rw [if_neg fun h ↦ hresponse h.2]
      rcases node.transferIpToRip_cases (ripPayload (frame ++ stale)) ifc.vipLocal clock with
        ⟨-, hrun⟩ | ⟨hcommand, -⟩ | ⟨-, -, hrun⟩
      · rw [hrun, prepareMsg_rtable]
        rfl
      · exact absurd hcommand hresponse
      · rw [hrun]
        rfl
  · rw [hsame, if_neg fun h ↦ hnot h.1]
    rfl

/-- What one step makes of the route for an address that is not the node's own: what the entries it
hears make of it or, where it hears none, nothing new. -/
theorem Node.Step.route_cases {node node' : Node} {event : Event} (hstep : node.Step event node')
    (hidle : node.outgoingqueue = []) {d : UInt32} (hother : node.isMyInterface d = false) :
    (∃ next, node'.rtable[d]? = (node.heard event).foldl (hear d next) node.rtable[d]?) ∨
      (node.heard event = [] ∧
        ∀ ets, node'.rtable[d]? = some ets → node.rtable[d]? = some ets) := by
  cases event with
  | command c =>
    refine Or.inr ⟨rfl, fun ets hets ↦ ?_⟩
    cases c with
    | send msgType =>
      obtain rfl := Option.some.inj hstep
      rwa [prepareMsg_rtable] at hets
    | refresh curtv =>
      obtain rfl := Option.some.inj hstep
      exact (refreshRouteTable_eq_some.mp hets).1
    | down interface =>
      obtain ⟨ifc, -, -, htable⟩ := downCmd_spec hstep
      exact ((htable d ets).mp hets).1
    | up interface sockfd now =>
      obtain ⟨ifc, hget, -, htable⟩ := upCmd_spec hstep
      have hvip : ifc.vipLocal ≠ d :=
        (isMyInterface_eq_false_iff node d).mp hother ifc (List.mem_of_getElem? hget)
      rwa [htable, if_neg hvip] at hets
  | receive interface frame stale clock =>
    obtain ⟨ifc, hget, rfl⟩ := Option.map_eq_some_iff.mp hstep
    exact Or.inl ⟨ifc.vipLocal, receive_route hidle hget frame stale clock hother⟩
  | application dest proto payload =>
    obtain rfl := Option.some.inj hstep
    obtain ⟨queue, hqueue⟩ := node.transferApplicationToIp_cases dest proto payload payload.length
    rw [hqueue]
    exact Or.inr ⟨rfl, fun ets ↦ id⟩
  | transmit =>
    obtain rfl := Option.some.inj hstep
    exact Or.inr ⟨rfl, fun ets ↦ id⟩

/-- What one step of a node makes of the route for an address that is not its own. Assumes: the step
is no sweep that finds the route expired. -/
theorem Node.Step.route {node node' : Node} {event : Event} (hstep : node.Step event node')
    (hwell : node.WellFormed) {d : UInt32} (hother : node.isMyInterface d = false)
    (hfresh : ∀ curtv ets, event = .command (.refresh curtv) → node.rtable[d]? = some ets →
      ¬ Expired curtv ets.ts) :
    node'.rtable[d]? = routeAfter d node.rtable[d]? (node, event) := by
  have hvip : ∀ (id : ℕ) (ifc : LinkLayer), node.interfaces[id]? = some ifc → ifc.vipLocal ≠ d :=
    fun id ifc hget ↦ (isMyInterface_eq_false_iff node d).mp hother ifc (List.mem_of_getElem? hget)
  cases event with
  | command c =>
    cases c with
    | send msgType =>
      obtain rfl := Option.some.inj hstep
      rw [prepareMsg_rtable]
      rfl
    | refresh curtv =>
      obtain rfl := Option.some.inj hstep
      ext ets
      rw [refreshRouteTable_eq_some]
      exact and_iff_left_of_imp fun hets ↦ Or.inr (hfresh curtv ets rfl hets)
    | down interface =>
      obtain ⟨ifc, hget, -, htable⟩ := downCmd_spec hstep
      ext ets
      rw [htable]
      unfold routeAfter
      dsimp only
      rw [hget]
      dsimp only
      rw [Option.filter_eq_some_iff, decide_eq_true_eq]
      exact and_congr_right fun _ ↦ and_iff_left (hvip interface ifc hget).symm
    | up interface sockfd now =>
      obtain ⟨ifc, hget, -, htable⟩ := upCmd_spec hstep
      exact (htable d).trans (if_neg (hvip interface ifc hget))
  | receive interface frame stale clock =>
    obtain ⟨ifc, hget, rfl⟩ := Option.map_eq_some_iff.mp hstep
    rw [receive_route hwell.idle hget frame stale clock hother]
    unfold routeAfter
    dsimp only
    rw [hget]
  | application dest proto payload =>
    obtain rfl := Option.some.inj hstep
    obtain ⟨queue, hqueue⟩ := node.transferApplicationToIp_cases dest proto payload payload.length
    rw [hqueue]
    rfl
  | transmit =>
    obtain rfl := Option.some.inj hstep
    rfl

/-- Assumes: a well-formed node and an address `d` that is not its own. No sweep of the run erases
the route for `d` exactly when every sweep comes within the refresh time after the route was
installed or last replaced by a strictly cheaper one; an offer of the same cost does not count. -/
theorem kept_iff (node : Node) (hwell : node.WellFormed) (d : UInt32) (events : List Event)
    (hother : node.isMyInterface d = false) :
    SweepsKeep d (node.trace events) ↔ SweptInTime d node.rtable[d]? (node.trace events) := by
  induction events generalizing node with
  | nil => exact iff_of_true (fun step h ↦ absurd h List.not_mem_nil) trivial
  | cons event events ih =>
    have hkeep : ∀ curtv ets, node.rtable[d]? = some ets →
        ((node.refreshRouteTable curtv).rtable[d]? ≠ none ↔ ¬ Expired curtv ets.ts) := by
      intro curtv ets hets
      constructor
      · intro hsome hexpired
        obtain ⟨ets', hets'⟩ := Option.ne_none_iff_exists'.mp hsome
        obtain ⟨hold, hsurvives⟩ := Node.refreshRouteTable_eq_some.mp hets'
        rw [hets] at hold
        rw [← Option.some.inj hold, hother] at hsurvives
        exact hsurvives.resolve_left Bool.false_ne_true hexpired
      · intro hfresh
        rw [Node.refreshRouteTable_eq_some.mpr ⟨hets, Or.inr hfresh⟩]
        exact Option.some_ne_none ets
    have hfirst : (∀ curtv, event = .command (.refresh curtv) → node.rtable[d]? ≠ none →
        (node.refreshRouteTable curtv).rtable[d]? ≠ none) ↔
          ∀ curtv ets, event = .command (.refresh curtv) → node.rtable[d]? = some ets →
            ¬ Expired curtv ets.ts := by
      constructor
      · intro hsurvives curtv ets hevent hets
        refine (hkeep curtv ets hets).mp (hsurvives curtv hevent ?_)
        rw [hets]
        exact Option.some_ne_none ets
      · intro hfresh curtv hevent hsome
        obtain ⟨ets, hets⟩ := Option.ne_none_iff_exists'.mp hsome
        exact (hkeep curtv ets hets).mpr (hfresh curtv ets hevent hets)
    cases hstep : node.handle event with
    | none =>
      have htrace : node.trace (event :: events) = [(node, event)] := by rw [Node.trace, hstep]
      rw [htrace]
      unfold SweepsKeep SweptInTime
      rw [List.forall_mem_singleton, hfirst]
      exact (and_iff_left trivial).symm
    | some node' =>
      have htrace : node.trace (event :: events) = (node, event) :: node'.trace events := by
        rw [Node.trace, hstep]
      rw [htrace]
      unfold SweptInTime
      have hsplit : SweepsKeep d ((node, event) :: node'.trace events) ↔
          (∀ curtv ets, event = .command (.refresh curtv) → node.rtable[d]? = some ets →
            ¬ Expired curtv ets.ts) ∧ SweepsKeep d (node'.trace events) := by
        rw [← hfirst]
        exact List.forall_mem_cons
      rw [hsplit]
      refine and_congr_right fun hfresh ↦ ?_
      have hsame := Node.Step.sameLinks hwell.idle hstep
      rw [ih node' (hwell.step hstep) ((hsame.isMyInterface d).trans hother),
        Node.Step.route hstep hwell hother hfresh]

/-- Where the route's interface is never taken down and nothing is ever offered for less than the
route costs, the sweeps that spare it are those within the refresh time after its installation,
however often the route is repeated. -/
theorem sweptInTime_of_repeats {d : UInt32} {ets : EntryWts} {steps : List (Node × Event)}
    (hspares : ∀ step ∈ steps, ∀ interface ifc, step.2 = .command (.down interface) →
      step.1.interfaces[interface]? = some ifc → ets.nextHop ≠ ifc.vipLocal)
    (hrepeats : ∀ step ∈ steps, ∀ entry ∈ step.1.heard step.2, entry.1.address = d →
      entry.1.cost ≠ ripMaxCost → ets.e.cost ≤ entry.1.cost + 1) :
    SweptInTime d (some ets) steps ↔
      ∀ step ∈ steps, ∀ curtv, step.2 = .command (.refresh curtv) → ¬ Expired curtv ets.ts := by
  induction steps with
  | nil => exact iff_of_true trivial fun step h ↦ absurd h List.not_mem_nil
  | cons step steps ih =>
    have hkept : ∀ (next : UInt32) (heard : List (Entry × Timeval)),
        (∀ entry ∈ heard, entry.1.address = d → entry.1.cost ≠ ripMaxCost →
          ets.e.cost ≤ entry.1.cost + 1) → heard.foldl (hear d next) (some ets) = some ets := by
      intro next heard hheard
      rw [foldl_hear_some]
      induction heard with
      | nil => rfl
      | cons entry heard ihHeard =>
        have hsame : ets.after d next entry = ets := by
          unfold EntryWts.after
          rw [if_neg]
          rintro ⟨haddress, hcost, hlt⟩
          exact absurd hlt (UInt32.not_lt.mpr (hheard entry List.mem_cons_self haddress hcost))
        unfold EntryWts.afterAll
        rw [List.foldl_cons, hsame]
        exact ihHeard fun other hmem ↦ hheard other (List.mem_cons_of_mem _ hmem)
    have hroute : routeAfter d (some ets) step = some ets := by
      unfold routeAfter
      split
      · split
        · rfl
        · exact hkept _ _ (hrepeats step List.mem_cons_self)
      · split
        · rfl
        · next _ interface hevent _ ifc hget =>
          rw [Option.filter_some, if_pos]
          exact decide_eq_true (hspares step List.mem_cons_self interface ifc hevent hget)
      · rfl
    unfold SweptInTime
    rw [hroute, ih (fun other hmem ↦ hspares other (List.mem_cons_of_mem _ hmem))
      (fun other hmem ↦ hrepeats other (List.mem_cons_of_mem _ hmem)), List.forall_mem_cons]
    refine and_congr_left fun _ ↦ ?_
    constructor
    · intro h curtv hevent
      exact h curtv ets hevent rfl
    · rintro h curtv _ hevent ⟨⟩
      exact h curtv hevent

/-- The clock readings of a step, in microseconds. -/
def Node.readings (node : Node) : Event → List ℕ
  | .command (.refresh curtv) => [curtv.micros.toNat]
  | .command (.up _ _ now) => [now.micros.toNat]
  | event => (node.heard event).map fun entry ↦ entry.2.micros.toNat

/-- From `start` on the clock never goes back. -/
def Chronological (start : ℕ) (steps : List (Node × Event)) : Prop :=
  (start :: steps.flatMap fun step ↦ step.1.readings step.2).Pairwise (· ≤ ·)

instance (start : ℕ) (steps : List (Node × Event)) : Decidable (Chronological start steps) :=
  inferInstanceAs (Decidable (List.Pairwise _ _))

/-- The moments at which a step hears, over an interface, of a route for `d` at one less than a
cost. -/
def repeatsAt (interface : ℕ) (d cost : UInt32) (step : Node × Event) : List ℕ :=
  match step.2 with
  | .receive id _ _ _ =>
    if id = interface then
      ((step.1.heard step.2).filter fun entry ↦
        entry.1.address = d ∧ entry.1.cost + 1 = cost).map fun entry ↦ entry.2.micros.toNat
    else []
  | _ => []

/-- In every window of the refresh time, between the installation of the route and `last`, the
route is repeated over its interface. -/
def KeptAlive (interface : ℕ) (d : UInt32) (ets : EntryWts) (last : ℕ)
    (steps : List (Node × Event)) : Prop :=
  ∀ start, ets.ts.micros.toNat ≤ start → start + refreshTimerVal * 1000000 ≤ last →
    ∃ t ∈ steps.flatMap (repeatsAt interface d ets.e.cost),
      start ≤ t ∧ t ≤ start + refreshTimerVal * 1000000

/-- The route is repeated after five and after ten seconds, and the sweep comes after thirteen. -/
def repeatedEvents : List Event :=
  [.receive 0 (responsePacket 1) [] fun _ ↦ seconds 5,
    .receive 0 (responsePacket 1) [] fun _ ↦ seconds 10, .command (.refresh (seconds 13))]

/-- A better route is heard of after five seconds, and the sweep comes after thirteen. -/
def improvedEvents : List Event :=
  [.receive 0 (responsePacket 0) [] fun _ ↦ seconds 5, .command (.refresh (seconds 13))]

theorem kept_after_better : SweepsKeep 0x0A000009 (routedNode.trace improvedEvents) := by
  refine (kept_iff routedNode routedNode_wellFormed 0x0A000009 improvedEvents (by decide)).mpr ?_
  have htrace : routedNode.trace improvedEvents =
      [(routedNode, .receive 0 (responsePacket 0) [] fun _ ↦ seconds 5),
        (routedNode.receiveFrame (responsePacket 0) 0x0A000001 [] fun _ ↦ seconds 5,
          .command (.refresh (seconds 13)))] := rfl
  have hroute : routeAfter 0x0A000009 routedNode.rtable[(0x0A000009 : UInt32)]?
      (routedNode, .receive 0 (responsePacket 0) [] fun _ ↦ seconds 5) =
        some ⟨⟨1, 0x0A000009, 0xFFFFFFFF⟩, 0x0A000001, seconds 5⟩ := by decide
  rw [htrace]
  unfold SweptInTime
  refine ⟨fun curtv ets h ↦ Event.noConfusion h, ?_⟩
  rw [hroute]
  unfold SweptInTime
  refine ⟨fun curtv ets h hets ↦ ?_, trivial⟩
  obtain rfl : seconds 13 = curtv := Command.refresh.inj (Event.command.inj h)
  obtain rfl := Option.some.inj hets
  decide

/-- A route that its next hop repeats in every window of twelve seconds, over an interface that
stays up, is erased thirteen seconds after it was installed. -/
theorem repeated_route_expires :
    routedNode.WellFormed ∧ routedNode.isMyInterface 0x0A000009 = false ∧
    routedNode.rtable[(0x0A000009 : UInt32)]? = some installedRoute ∧
    routedNode.getInterface installedRoute.nextHop = some 0 ∧
    (∀ event ∈ repeatedEvents, ∀ interface, event ≠ .command (.down interface)) ∧
    Chronological 0 (routedNode.trace repeatedEvents) ∧
    KeptAlive 0 0x0A000009 installedRoute 13000000 (routedNode.trace repeatedEvents) ∧
    ¬ SweepsKeep 0x0A000009 (routedNode.trace repeatedEvents) := by
  refine ⟨routedNode_wellFormed, by decide, by decide, by decide, by simp [repeatedEvents],
    by decide, ?_, ?_⟩
  · intro start _ hlast
    have hheard : (5000000 : ℕ) ∈ (routedNode.trace repeatedEvents).flatMap
        (repeatsAt 0 0x0A000009 installedRoute.e.cost) := by decide
    unfold refreshTimerVal at hlast ⊢
    exact ⟨5000000, hheard, by omega, by omega⟩
  · intro hkeep
    have hthird : (routedNode.trace repeatedEvents)[2]? =
        some ((routedNode.receiveFrame (responsePacket 1) 0x0A000001 [] fun _ ↦ seconds 5).receiveFrame
          (responsePacket 1) 0x0A000001 [] fun _ ↦ seconds 10, .command (.refresh (seconds 13))) := rfl
    exact absurd (by decide)
      (hkeep _ (List.mem_of_getElem? hthird) (seconds 13) rfl (by decide))

end IpRipStack
