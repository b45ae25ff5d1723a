import IpRipStack.RouteLife
import Mathlib.Data.List.MinMax

/-!
# Responses in any order

What a sequence of responses makes of the table. The route for an address that is not the node's own
is, after any number of responses, the first of the cheapest among the route there was and the routes
the responses offer, in the order in which they come (`updateAll_route`). So the destinations and
their costs do not depend on that order, only the choice among routes of the same cost does.
-/

set_option autoImplicit false
set_option relaxedAutoImplicit false

namespace IpRipStack

open MachineWord OrderedMap

/-! ### The first of the least -/

section FirstLeast

variable {α β : Type*} [LinearOrder β]

/-- `List.argmin` finds the first element with the least value: what comes before it has a greater
value, and what comes after it none that is less. -/
theorem argmin_eq_some_iff_append {f : α → β} {l : List α} {m : α} :
    l.argmin f = some m ↔ ∃ before after, l = before ++ m :: after ∧
      (∀ a ∈ before, f m < f a) ∧ ∀ a ∈ after, f m ≤ f a := by
  classical
  rw [List.argmin_eq_some_iff]
  constructor
  · rintro ⟨hmem, hleast, hfirst⟩
    obtain ⟨before, after, rfl, hnot⟩ := List.eq_append_cons_of_mem hmem
    refine ⟨before, after, rfl, fun a ha ↦ ?_, fun a ha ↦ ?_⟩
    · by_contra hle
      have hindex := hfirst a (List.mem_append_left _ ha) (not_lt.mp hle)
      rw [List.idxOf_append_of_notMem hnot, List.idxOf_append_of_mem ha] at hindex
      have hlt := List.idxOf_lt_length_iff.mpr ha
      omega
    · exact hleast a (List.mem_append_right _ (List.mem_cons_of_mem _ ha))
  · rintro ⟨before, after, rfl, hbefore, hafter⟩
    have hnot : ∀ a, f a ≤ f m → a ∉ before := fun a hle ha ↦ not_lt.mpr hle (hbefore a ha)
    refine ⟨List.mem_append_right _ List.mem_cons_self, fun a ha ↦ ?_, fun a _ hle ↦ ?_⟩
    · rcases List.mem_append.mp ha with ha | ha
      · exact (hbefore a ha).le
      · rcases List.mem_cons.mp ha with rfl | ha
        · exact le_refl _
        · exact hafter a ha
    · rw [List.idxOf_append_of_notMem (hnot m le_rfl), List.idxOf_append_of_notMem (hnot a hle),
        List.idxOf_cons_self]
      exact Nat.add_le_add_left (Nat.zero_le _) _

/-- The least value depends on the values alone, in any order. -/
theorem map_argmin_perm {γ : Type*} {f : α → β} {g : γ → β} {l : List α} {l' : List γ}
    (h : (l.map f).Perm (l'.map g)) : (l.argmin f).map f = (l'.argmin g).map g := by
  have hlength : l.length = l'.length := by
    rw [← List.length_map f, ← List.length_map g, h.length_eq]
  cases hleft : l.argmin f with
  | none =>
    rw [List.argmin_eq_none] at hleft
    rw [hleft] at hlength
    rw [List.eq_nil_of_length_eq_zero hlength.symm]
    rfl
  | some a =>
    have hmem := List.argmin_mem hleft
    cases hright : l'.argmin g with
    | none =>
      rw [List.argmin_eq_none] at hright
      rw [hright] at hlength
      rw [List.eq_nil_of_length_eq_zero hlength] at hmem
      exact absurd hmem List.not_mem_nil
    | some b =>
      obtain ⟨b', hb', hsame⟩ := List.mem_map.mp (h.mem_iff.mp (List.mem_map_of_mem hmem))
      obtain ⟨a', ha', hsame'⟩ :=
        List.mem_map.mp (h.mem_iff.mpr (List.mem_map_of_mem (List.argmin_mem hright)))
      have hle : f a ≤ g b := hsame' ▸ List.le_of_mem_argmin ha' hleft
      have hge : g b ≤ f a := hsame ▸ List.le_of_mem_argmin hb' hright
      exact congrArg some (le_antisymm hle hge)

end FirstLeast

/-! ### The routes that are offered -/

/-- A response as the routing layer is handed it: the payload, the local address of the interface it
is attributed to, and the clock readings of the turns. -/
structure Response where
  payload : List UInt8
  next : UInt32
  clock : ℕ → Timeval

/-- The node after its routing layer has learned from some responses. -/
def Node.updateAll (node : Node) (responses : List Response) : Node :=
  responses.foldl (fun node response ↦
    node.updateRouteTable (response.payload.drop 2) response.next response.clock) node

/-- The route for `d` that an entry offers, if any. -/
def offeredRoute (d next : UInt32) (heard : Entry × Timeval) : Option EntryWts :=
  if heard.1.address = d ∧ heard.1.cost ≠ ripMaxCost then some (heard.1.route next heard.2) else none

/-- The routes for `d` that a response offers, in the order of its entries. -/
def Response.offers (order : ByteOrder) (d : UInt32) (response : Response) : List EntryWts :=
  (readTimed order response.payload response.clock).filterMap (offeredRoute d response.next)

/-- The routes for `d` among which the node chooses: the one it has, and those that the responses
offer. -/
def Node.routesFor (node : Node) (responses : List Response) (d : UInt32) : List EntryWts :=
  node.rtable[d]?.toList ++ responses.flatMap (Response.offers node.order d)

/-- The route is the first of those with the least cost. -/
def EntryWts.FirstLeast (ets : EntryWts) (routes : List EntryWts) : Prop :=
  ∃ before after, routes = before ++ ets :: after ∧
    (∀ other ∈ before, ets.e.cost < other.e.cost) ∧ ∀ other ∈ after, ets.e.cost ≤ other.e.cost

/-- The cost of a route as a natural number. -/
def EntryWts.cost (ets : EntryWts) : ℕ := ets.e.cost.toNat

theorem argmin_cost_eq_some_iff {routes : List EntryWts} {ets : EntryWts} :
    routes.argmin EntryWts.cost = some ets ↔ ets.FirstLeast routes := by
  rw [argmin_eq_some_iff_append]
  simp only [EntryWts.cost, ← UInt32.lt_iff_toNat_lt, ← UInt32.le_iff_toNat_le]
  rfl

/-- One entry: among routes already compared the entry's offer comes last. -/
theorem hear_argmin (d next : UInt32) (routes : List EntryWts) (heard : Entry × Timeval) :
    hear d next (routes.argmin EntryWts.cost) heard =
      (routes ++ (offeredRoute d next heard).toList).argmin EntryWts.cost := by
  by_cases hoffer : heard.1.address = d ∧ heard.1.cost ≠ ripMaxCost
  · have hroute : offeredRoute d next heard = some (heard.1.route next heard.2) := if_pos hoffer
    rw [hroute, Option.toList_some, List.argmin_concat]
    cases routes.argmin EntryWts.cost with
    | none => exact if_pos hoffer
    | some ets =>
      have hkeep : ∀ cost : UInt32, (heard.1.address = d ∧ heard.1.cost ≠ ripMaxCost ∧
          heard.1.cost + 1 < cost) ↔ (heard.1.cost + 1).toNat < cost.toNat := by
        intro cost
        rw [← UInt32.lt_iff_toNat_lt, ← and_assoc, and_iff_right hoffer]
      unfold hear EntryWts.after EntryWts.cost
      dsimp only
      rw [← apply_ite some]
      exact congrArg some (if_congr (hkeep ets.e.cost) rfl rfl)
  · have hnone : offeredRoute d next heard = none := if_neg hoffer
    rw [hear_of_not_offer hoffer, hnone, Option.toList_none, List.append_nil]

theorem foldl_hear_argmin (d next : UInt32) (heard : List (Entry × Timeval))
    (routes : List EntryWts) : heard.foldl (hear d next) (routes.argmin EntryWts.cost) =
      (routes ++ heard.filterMap (offeredRoute d next)).argmin EntryWts.cost := by
  induction heard generalizing routes with
  | nil => rw [List.filterMap_nil, List.append_nil, List.foldl_nil]
  | cons entry heard ih =>
    rw [List.foldl_cons, hear_argmin, ih, List.append_assoc, List.filterMap_cons]
    cases offeredRoute d next entry with
    | none => rfl
    | some route => rfl

/-- After any number of responses the route for an address that is not the node's own is the first
of the cheapest. -/
theorem Node.updateAll_route {node : Node} {d : UInt32} (hother : node.isMyInterface d = false)
    (responses : List Response) : (node.updateAll responses).rtable[d]? =
      (node.routesFor responses d).argmin EntryWts.cost := by
  have hfold : ∀ (node : Node) (routes : List EntryWts), node.isMyInterface d = false →
      node.rtable[d]? = routes.argmin EntryWts.cost → (node.updateAll responses).rtable[d]? =
        (routes ++ responses.flatMap (Response.offers node.order d)).argmin EntryWts.cost := by
    induction responses with
    | nil =>
      intro node routes _ hroute
      rw [List.flatMap_nil, List.append_nil, ← hroute]
      rfl
    | cons response responses ih =>
      intro node routes hother hroute
      rw [List.flatMap_cons, ← List.append_assoc]
      refine ih (node.updateRouteTable (response.payload.drop 2) response.next response.clock)
        (routes ++ response.offers node.order d) hother ?_
      rw [updateRouteTable_route hother, hroute, foldl_hear_argmin]
      rfl
  refine hfold node _ hother ?_
  cases node.rtable[d]? with
  | none => rfl
  | some ets => rfl

theorem Node.updateAll_own {node : Node} {d : UInt32} (hmine : node.isMyInterface d = true)
    (responses : List Response) : (node.updateAll responses).rtable[d]? = node.rtable[d]? := by
  induction responses generalizing node with
  | nil => rfl
  | cons response responses ih =>
    let node' := node.updateRouteTable (response.payload.drop 2) response.next response.clock
    have hfirst : node'.rtable[d]? = node.rtable[d]? := updateRouteTable_own hmine _ _ _
    have hlater : (node'.updateAll responses).rtable[d]? = node'.rtable[d]? := ih hmine
    exact hlater.trans hfirst

/-! ### The table after all responses -/

/-- The costs of the routes for `d` that a payload offers. -/
def offeredCosts (order : ByteOrder) (d : UInt32) (payload : List UInt8) : List ℕ :=
  ((readEntries order payload).filter fun e ↦ e.address = d ∧ e.cost ≠ ripMaxCost).map
    fun e ↦ (e.cost + 1).toNat

/-- What a response costs depends on its payload alone. -/
theorem Response.map_cost_offers (order : ByteOrder) (d : UInt32) (response : Response) :
    (response.offers order d).map EntryWts.cost = offeredCosts order d response.payload := by
  have hall : ∀ heard : List (Entry × Timeval),
      (heard.filterMap (offeredRoute d response.next)).map EntryWts.cost =
        ((heard.map Prod.fst).filter fun e ↦ e.address = d ∧ e.cost ≠ ripMaxCost).map
          fun e ↦ (e.cost + 1).toNat := by
    intro heard
    induction heard with
    | nil => rfl
    | cons entry heard ih =>
      rw [List.filterMap_cons, List.map_cons, List.filter_cons]
      by_cases hoffer : entry.1.address = d ∧ entry.1.cost ≠ ripMaxCost
      · have hroute : offeredRoute d response.next entry =
            some (entry.1.route response.next entry.2) := if_pos hoffer
        rw [hroute, if_pos (decide_eq_true hoffer), List.map_cons, List.map_cons, ih]
        rfl
      · have hnone : offeredRoute d response.next entry = none := if_neg hoffer
        rw [hnone, if_neg (by rwa [decide_eq_true_eq])]
        exact ih
  unfold Response.offers offeredCosts
  rw [hall, map_fst_readTimed]

/-- A response offers a route exactly when it has a reachable entry for the address. -/
theorem Response.exists_offer_iff (order : ByteOrder) (d : UInt32) (response : Response) :
    response.offers order d ≠ [] ↔
      ∃ e ∈ readEntries order response.payload, e.address = d ∧ e.cost ≠ ripMaxCost := by
  have hempty : response.offers order d = [] ↔ offeredCosts order d response.payload = [] := by
    rw [← response.map_cost_offers order d, List.map_eq_nil_iff]
  rw [Ne, hempty]
  unfold offeredCosts
  rw [List.map_eq_nil_iff, List.filter_eq_nil_iff]
  push Not
  simp only [decide_eq_true_eq]

/-- The costs among which the node chooses. -/
theorem Node.map_cost_routesFor (node : Node) (responses : List Response) (d : UInt32) :
    (node.routesFor responses d).map EntryWts.cost =
      node.rtable[d]?.toList.map EntryWts.cost ++
        (responses.map Response.payload).flatMap (offeredCosts node.order d) := by
  unfold routesFor
  rw [List.map_append, List.map_flatMap, List.flatMap_map]
  simp only [Response.map_cost_offers]

/-- For every table and sequence of responses. The routes for the node's own addresses stay. Any
other address is a key afterwards exactly when it was one or some entry offers a route for it, and
its route is the first of the cheapest among the one there was and those that are offered, in the
order in which they come. The keys and the costs are the same in whatever order the same payloads
come, at whatever times and over whatever interfaces. -/
theorem update_minimum (node : Node) (responses : List Response) :
    (∀ d, node.isMyInterface d = true →
      (node.updateAll responses).rtable[d]? = node.rtable[d]?) ∧
    (∀ d, node.isMyInterface d = false →
      (d ∈ (node.updateAll responses).rtable ↔ d ∈ node.rtable ∨ ∃ response ∈ responses,
        ∃ e ∈ readEntries node.order response.payload, e.address = d ∧ e.cost ≠ 16) ∧
      ∀ ets, (node.updateAll responses).rtable[d]? = some ets ↔
        ets.FirstLeast (node.routesFor responses d)) ∧
    ∀ responses' : List Response,
      (responses.map Response.payload).Perm (responses'.map Response.payload) → ∀ d : UInt32,
        (d ∈ (node.updateAll responses).rtable ↔ d ∈ (node.updateAll responses').rtable) ∧
          (node.updateAll responses).rtable[d]?.map EntryWts.cost =
            (node.updateAll responses').rtable[d]?.map EntryWts.cost := by
  have hcosts : ∀ responses' : List Response,
      (responses.map Response.payload).Perm (responses'.map Response.payload) → ∀ d : UInt32,
        (node.updateAll responses).rtable[d]?.map EntryWts.cost =
          (node.updateAll responses').rtable[d]?.map EntryWts.cost := by
    intro responses' hperm d
    cases hmine : node.isMyInterface d with
    | true => rw [Node.updateAll_own hmine, Node.updateAll_own hmine]
    | false =>
      rw [Node.updateAll_route hmine, Node.updateAll_route hmine]
      refine map_argmin_perm ?_
      rw [Node.map_cost_routesFor, Node.map_cost_routesFor]
      exact (hperm.flatMap_right _).append_left _
  refine ⟨fun d hmine ↦ Node.updateAll_own hmine responses, fun d hother ↦ ⟨?_, fun ets ↦ ?_⟩,
    fun responses' hperm d ↦ ⟨?_, hcosts responses' hperm d⟩⟩
  · rw [mem_iff_getElem?_ne_none, mem_iff_getElem?_ne_none, Node.updateAll_route hother, Ne,
      List.argmin_eq_none, Node.routesFor, List.append_eq_nil_iff, Option.toList_eq_nil_iff,
      List.flatMap_eq_nil_iff, not_and_or]
    refine or_congr_right ?_
    push Not
    exact exists_congr fun response ↦ and_congr_right fun _ ↦
      response.exists_offer_iff node.order d
  · rw [Node.updateAll_route hother, argmin_cost_eq_some_iff]
  · rw [mem_iff_getElem?_ne_none, mem_iff_getElem?_ne_none, not_iff_not,
      ← Option.map_eq_none_iff (f := EntryWts.cost), hcosts responses' hperm d,
      Option.map_eq_none_iff]

/-- Two responses with a route for `10.0.0.9`, the second for less. -/
def twoResponses : List Response :=
  [⟨responseData 3, 0x0A000001, fun _ ↦ seconds 1⟩, ⟨responseData 1, 0x0A000001, fun _ ↦ seconds 2⟩]

/-- They come in either order. -/
theorem twoResponses_reversed :
    (leafNode.updateAll twoResponses).rtable[(0x0A000009 : UInt32)]?.map EntryWts.cost =
      (leafNode.updateAll twoResponses.reverse).rtable[(0x0A000009 : UInt32)]?.map EntryWts.cost :=
  ((update_minimum leafNode twoResponses).2.2 twoResponses.reverse
    ((List.reverse_perm _).symm.map _) 0x0A000009).2

end IpRipStack
