import IpRipStack.TableInvariant

/-!
# What a response makes of a route

The route a node has for one destination that is not its own, under the entries of a response. One
entry either replaces the route or leaves it as it is (`updateEntry_route`), and a response is its
entries one after the other (`transferIpToRip_route`). So after a response the route is the cheapest
of the old one and those the response offers (`afterAll_least`), and there is one if the response
offers one (`foldl_hear_le`, `foldl_hear_eq_none_iff`).
-/

set_option autoImplicit false
set_option relaxedAutoImplicit false

namespace IpRipStack

open MachineWord OrderedMap

/-- What one entry makes of the route for `d`: the entry's route if it is for `d`, reachable and
strictly cheaper, otherwise the route there was. -/
def EntryWts.after (ets : EntryWts) (d next : UInt32) (heard : Entry × Timeval) : EntryWts :=
  if heard.1.address = d ∧ heard.1.cost ≠ ripMaxCost ∧ heard.1.cost + 1 < ets.e.cost then
    heard.1.route next heard.2
  else ets

/-- What the entries of a response, each with the clock reading of its turn, make of a route. -/
def EntryWts.afterAll (ets : EntryWts) (d next : UInt32) (heard : List (Entry × Timeval)) :
    EntryWts :=
  heard.foldl (fun ets entry ↦ ets.after d next entry) ets

/-- The entries of a response with the clock readings of their turns. -/
def readTimed (order : ByteOrder) (data : List UInt8) (clock : ℕ → Timeval) :
    List (Entry × Timeval) :=
  (List.range (readCount order data).toNat).map fun i ↦ (readEntry order data i, clock i)

theorem map_fst_readTimed (order : ByteOrder) (data : List UInt8) (clock : ℕ → Timeval) :
    (readTimed order data clock).map Prod.fst = readEntries order data := by
  unfold readTimed readEntries
  rw [List.map_map]
  rfl

/-- What one entry makes of the route for `d`, if there is one: the first reachable offer is taken
whatever it costs. -/
def hear (d next : UInt32) (route : Option EntryWts) (heard : Entry × Timeval) : Option EntryWts :=
  match route with
  | none =>
    if heard.1.address = d ∧ heard.1.cost ≠ ripMaxCost then some (heard.1.route next heard.2)
    else none
  | some ets => some (ets.after d next heard)

/-- An entry that offers no route for `d` makes nothing of the route there is. -/
theorem hear_of_not_offer {d next : UInt32} {heard : Entry × Timeval}
    (h : ¬ (heard.1.address = d ∧ heard.1.cost ≠ ripMaxCost)) (route : Option EntryWts) :
    hear d next route heard = route := by
  unfold hear EntryWts.after
  cases route with
  | none => exact if_neg h
  | some ets => exact congrArg some (if_neg fun hnew ↦ h ⟨hnew.1, hnew.2.1⟩)

/-- A received entry leaves the routes for the node's own addresses alone. -/
theorem updateEntry_own {node : Node} {d : UInt32} (hmine : node.isMyInterface d = true)
    (table : RouteTable) (curEntry : Entry) (next : UInt32) (now : Timeval) :
    (node.updateEntry table curEntry next now)[d]? = table[d]? := by
  rcases node.updateEntry_cases table curEntry next now with ⟨-, hsame⟩ | ⟨hnot, hnew⟩
  · rw [hsame]
  · rw [hnew, getElem?_insert_eq, if_neg]
    rintro rfl
    exact hnot (Or.inl hmine)

/-- A received entry takes the route for `d` to `hear`. -/
theorem updateEntry_route {node : Node} {d : UInt32} (hother : node.isMyInterface d = false)
    (table : RouteTable) (curEntry : Entry) (next : UInt32) (now : Timeval) :
    (node.updateEntry table curEntry next now)[d]? =
      hear d next table[d]? (curEntry.ntoh node.order, now) := by
  have hsplit := node.updateEntry_cases table curEntry next now
  generalize curEntry.ntoh node.order = e at hsplit ⊢
  dsimp only at hsplit
  by_cases haddress : e.address = d
  · subst haddress
    have hignores : node.Ignores table e ↔ e.cost = ripMaxCost ∨
        ∃ ets, table[e.address]? = some ets ∧ ets.e.cost ≤ e.cost + 1 := by
      unfold Node.Ignores
      rw [hother]
      exact or_iff_right Bool.false_ne_true
    rw [hignores] at hsplit
    cases hets : table[e.address]? with
    | none =>
      have hnone : ∀ ets, ¬ (table[e.address]? = some ets ∧ ets.e.cost ≤ e.cost + 1) := by
        rintro ets ⟨hsome, -⟩
        rw [hets] at hsome
        exact Option.some_ne_none ets hsome.symm
      unfold hear
      rcases hsplit with ⟨hmax | ⟨ets, hcheap⟩, hsame⟩ | ⟨hnot, hnew⟩
      · rw [hsame, hets]
        exact (if_neg fun h ↦ h.2 hmax).symm
      · exact absurd hcheap (hnone ets)
      · rw [hnew, getElem?_insert_eq, if_pos rfl]
        exact (if_pos ⟨rfl, fun hmax ↦ hnot (Or.inl hmax)⟩).symm
    | some ets =>
      unfold hear EntryWts.after
      rcases hsplit with ⟨hignored, hsame⟩ | ⟨hnot, hnew⟩
      · rw [hsame, hets]
        dsimp only
        rw [if_neg]
        rintro ⟨-, hcost, hcheaper⟩
        rcases hignored with hmax | ⟨ets', hets', hle⟩
        · exact hcost hmax
        · rw [hets] at hets'
          rw [← Option.some.inj hets'] at hle
          exact absurd hcheaper (UInt32.not_lt.mpr hle)
      · have hcheaper : e.cost + 1 < ets.e.cost := by
          by_contra hle
          exact hnot (Or.inr ⟨ets, hets, UInt32.not_lt.mp hle⟩)
        rw [hnew, getElem?_insert_eq, if_pos rfl]
        dsimp only
        rw [if_pos ⟨rfl, fun hmax ↦ hnot (Or.inl hmax), hcheaper⟩]
  · have hsame : (node.updateEntry table curEntry next now)[d]? = table[d]? := by
      rcases hsplit with ⟨-, hsame⟩ | ⟨-, hnew⟩
      · rw [hsame]
      · rw [hnew, getElem?_insert_eq, if_neg haddress]
    rw [hsame, hear_of_not_offer]
    exact fun hoffer ↦ haddress hoffer.1

/-- The entries behind the command of a response take the route for `d` to what they make of it, one
after the other. -/
theorem updateRouteTable_route {node : Node} {d : UInt32} (hother : node.isMyInterface d = false)
    (data : List UInt8) (next : UInt32) (clock : ℕ → Timeval) :
    (node.updateRouteTable (data.drop 2) next clock).rtable[d]? =
      (readTimed node.order data clock).foldl (hear d next) node.rtable[d]? := by
  have hfold : ∀ (turns : List ℕ) (table : RouteTable),
      (turns.foldl (fun table i ↦ node.updateEntry table
        (Entry.load node.order (((data.drop 2).drop 2).drop (12 * i))) next (clock i)) table)[d]? =
        (turns.map fun i ↦ (readEntry node.order data i, clock i)).foldl (hear d next) table[d]? := by
    intro turns
    induction turns with
    | nil => intro table; rfl
    | cons i turns ih =>
      intro table
      rw [List.foldl_cons, List.map_cons, List.foldl_cons, ih, updateEntry_route hother]
      rfl
  exact hfold _ node.rtable

theorem updateRouteTable_own {node : Node} {d : UInt32} (hmine : node.isMyInterface d = true)
    (data : List UInt8) (next : UInt32) (clock : ℕ → Timeval) :
    (node.updateRouteTable data next clock).rtable[d]? = node.rtable[d]? := by
  refine node.updateRouteTable_induction data next clock
    (P := fun table ↦ table[d]? = node.rtable[d]?) rfl fun table i _ htable ↦ ?_
  rw [updateEntry_own hmine, htable]

/-- A response takes the route for `d` to what its entries make of it, one after the other. -/
theorem transferIpToRip_route {node : Node} {data : List UInt8} {d : UInt32}
    (hother : node.isMyInterface d = false) (hresponse : readCommand node.order data = 2)
    (next : UInt32) (clock : ℕ → Timeval) : (node.transferIpToRip data next clock).rtable[d]? =
      (readTimed node.order data clock).foldl (hear d next) node.rtable[d]? := by
  have hrun : node.transferIpToRip data next clock =
      node.updateRouteTable (data.drop 2) next clock := by
    have hrequest : readCommand node.order data ≠ 1 := by
      rw [hresponse]
      decide
    exact (if_neg hrequest).trans (if_pos hresponse)
  rw [hrun, updateRouteTable_route hother]

theorem foldl_hear_some (ets : EntryWts) (d next : UInt32) (heard : List (Entry × Timeval)) :
    heard.foldl (hear d next) (some ets) = some (ets.afterAll d next heard) := by
  induction heard generalizing ets with
  | nil => rfl
  | cons entry heard ih => exact ih (ets.after d next entry)

/-- After a response the route is the cheapest of the old one and those the response offers: it
costs no more than any of them, and it is one of them. -/
theorem afterAll_least (ets : EntryWts) (d next : UInt32) (heard : List (Entry × Timeval)) :
    (ets.afterAll d next heard).e.cost ≤ ets.e.cost ∧
      (∀ entry ∈ heard, entry.1.address = d → entry.1.cost ≠ ripMaxCost →
        (ets.afterAll d next heard).e.cost ≤ entry.1.cost + 1) ∧
      (ets.afterAll d next heard = ets ∨ ∃ entry ∈ heard, entry.1.address = d ∧
        entry.1.cost ≠ ripMaxCost ∧ ets.afterAll d next heard = entry.1.route next entry.2) := by
  induction heard generalizing ets with
  | nil => exact ⟨UInt32.le_refl _, fun entry h ↦ absurd h List.not_mem_nil, Or.inl rfl⟩
  | cons entry heard ih =>
    have hcons : ets.afterAll d next (entry :: heard) =
        (ets.after d next entry).afterAll d next heard := rfl
    obtain ⟨hle, hleast, hfrom⟩ := ih (ets.after d next entry)
    by_cases hnew : entry.1.address = d ∧ entry.1.cost ≠ ripMaxCost ∧
        entry.1.cost + 1 < ets.e.cost
    · have hafter : ets.after d next entry = entry.1.route next entry.2 := if_pos hnew
      rw [hafter] at hle hleast hfrom
      rw [hcons, hafter]
      refine ⟨UInt32.le_trans hle (UInt32.le_of_lt hnew.2.2), ?_, Or.inr ?_⟩
      · intro other hmem haddress hcost
        rcases List.mem_cons.mp hmem with rfl | hmem
        · exact hle
        · exact hleast other hmem haddress hcost
      · rcases hfrom with hsame | ⟨other, hmem, hother⟩
        · exact ⟨entry, List.mem_cons_self, hnew.1, hnew.2.1, hsame⟩
        · exact ⟨other, List.mem_cons_of_mem _ hmem, hother⟩
    · have hafter : ets.after d next entry = ets := if_neg hnew
      rw [hafter] at hle hleast hfrom
      rw [hcons, hafter]
      refine ⟨hle, ?_, ?_⟩
      · intro other hmem haddress hcost
        rcases List.mem_cons.mp hmem with rfl | hmem
        · have hnot : ¬ other.1.cost + 1 < ets.e.cost := fun hlt ↦ hnew ⟨haddress, hcost, hlt⟩
          exact UInt32.le_trans hle (UInt32.not_lt.mp hnot)
        · exact hleast other hmem haddress hcost
      · rcases hfrom with hsame | ⟨other, hmem, hother⟩
        · exact Or.inl hsame
        · exact Or.inr ⟨other, List.mem_cons_of_mem _ hmem, hother⟩

/-- A route that costs nothing is never replaced. -/
theorem afterAll_of_free {ets : EntryWts} (hfree : ets.e.cost = 0) (d next : UInt32)
    (heard : List (Entry × Timeval)) : ets.afterAll d next heard = ets := by
  induction heard with
  | nil => rfl
  | cons entry heard ih =>
    have hkept : ets.after d next entry = ets := by
      refine if_neg fun hnew ↦ ?_
      rw [hfree] at hnew
      exact UInt32.not_lt_zero hnew.2.2
    change (ets.after d next entry).afterAll d next heard = ets
    rw [hkept, ih]

/-- A response that offers a route leaves the node with one that costs no more. -/
theorem foldl_hear_le {d : UInt32} (next : UInt32) {entry : Entry × Timeval}
    (haddress : entry.1.address = d) (hcost : entry.1.cost ≠ ripMaxCost)
    {heard : List (Entry × Timeval)} (hentry : entry ∈ heard) (route : Option EntryWts) :
    ∃ ets, heard.foldl (hear d next) route = some ets ∧ ets.e.cost ≤ entry.1.cost + 1 := by
  induction heard generalizing route with
  | nil => exact absurd hentry List.not_mem_nil
  | cons first heard ih =>
    rcases List.mem_cons.mp hentry with rfl | hlater
    · cases route with
      | none =>
        have hfirst : hear d next none entry = some (entry.1.route next entry.2) :=
          if_pos ⟨haddress, hcost⟩
        rw [List.foldl_cons, hfirst, foldl_hear_some]
        exact ⟨_, rfl, (afterAll_least _ d next heard).1⟩
      | some ets =>
        rw [foldl_hear_some]
        obtain ⟨-, hleast, -⟩ := afterAll_least ets d next (entry :: heard)
        exact ⟨_, rfl, hleast entry List.mem_cons_self haddress hcost⟩
    · exact ih hlater (hear d next route first)

/-- A response leaves the node without a route exactly when there was none and it offers none. -/
theorem foldl_hear_eq_none_iff {d next : UInt32} {heard : List (Entry × Timeval)}
    {route : Option EntryWts} : heard.foldl (hear d next) route = none ↔
      route = none ∧ ∀ entry ∈ heard, entry.1.address = d → entry.1.cost = ripMaxCost := by
  constructor
  · intro hnone
    constructor
    · cases route with
      | none => rfl
      | some ets =>
        rw [foldl_hear_some] at hnone
        exact absurd hnone (Option.some_ne_none _)
    · intro entry hentry haddress
      by_contra hcost
      obtain ⟨ets, hsome, -⟩ := foldl_hear_le next haddress hcost hentry route
      exact Option.some_ne_none ets (hsome.symm.trans hnone)
  · rintro ⟨rfl, hmax⟩
    induction heard with
    | nil => rfl
    | cons entry heard ih =>
      have hignored : hear d next none entry = none :=
        hear_of_not_offer (fun h ↦ h.2 (hmax entry List.mem_cons_self h.1)) none
      rw [List.foldl_cons, hignored]
      exact ih fun other hmem ↦ hmax other (List.mem_cons_of_mem _ hmem)

/-- After a response the route is the old one or one that the response offers. -/
theorem foldl_hear_origin {d next : UInt32} {heard : List (Entry × Timeval)}
    {route : Option EntryWts} {ets : EntryWts} (h : heard.foldl (hear d next) route = some ets) :
    route = some ets ∨ ∃ entry ∈ heard, entry.1.address = d ∧ entry.1.cost ≠ ripMaxCost ∧
      ets = entry.1.route next entry.2 := by
  induction heard generalizing route with
  | nil => exact Or.inl h
  | cons first heard ih =>
    rw [List.foldl_cons] at h
    rcases ih h with hfirst | ⟨entry, hentry, horigin⟩
    · cases route with
      | none =>
        unfold hear at hfirst
        dsimp only at hfirst
        split_ifs at hfirst with hoffer
        exact Or.inr ⟨first, List.mem_cons_self, hoffer.1, hoffer.2, (Option.some.inj hfirst).symm⟩
      | some old =>
        have hafter : old.after d next first = ets := Option.some.inj hfirst
        unfold EntryWts.after at hafter
        split_ifs at hafter with hoffer
        · exact Or.inr ⟨first, List.mem_cons_self, hoffer.1, hoffer.2.1, hafter.symm⟩
        · exact Or.inl (congrArg some hafter)
    · exact Or.inr ⟨entry, List.mem_cons_of_mem _ hentry, horigin⟩

end IpRipStack
