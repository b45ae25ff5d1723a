import Mathlib.Combinatorics.SimpleGraph.Metric
import Mathlib.Logic.Relation

/-!
# Distance-vector routing

The distance-vector protocol over arbitrary nodes, link ends and destinations. Each node keeps at
most one route for each destination: a cost, the link end it leaves by (none for a destination of
the node's own) and the time it was written. Routes are advertised over single links; an advert
stays in flight until it is lost, and may be taken up any number of times and in any order. A node
takes an advert up only when it improves on the route it has, and a route is not advertised over the
link it leaves by (split horizon). `infinity` is the cost that is never advertised.

`Step` is one indivisible move under a `Regime` that says which destinations may be originated,
whether routes may be withdrawn (an expiry, an interface that goes down) and which times may be
written.

While nothing is withdrawn costs only fall (`Step.improves`), and the invariant `Sound` holds: the
far end of every learned route has a strictly cheaper route, and every advert in flight is no better
than what its sender has by now (`Sound.step`). Three consequences: a cost bounds the distance to
the owner (`Sound.edist_le`), the next hops lead to the owner without meeting a node twice
(`Sound.exists_path`), and a route as short as the distance of the next node is advertised to it
(`Sound.via_ne`).
-/

set_option autoImplicit false
set_option relaxedAutoImplicit false

namespace IpRipStack.DistanceVector

variable {Node End Dest : Type*}

/-- Point-to-point links: every link end is at a node and has a far end. -/
structure Links (Node End : Type*) where
  home : End → Node
  peer : End → End
  peer_peer : Function.Involutive peer

/-- The node at the far end of a link. -/
def Links.far (links : Links Node End) (e : End) : Node := links.home (links.peer e)

/-- Two nodes are adjacent when a link joins them. -/
def Links.graph (links : Links Node End) : SimpleGraph Node :=
  SimpleGraph.fromRel fun n m ↦ ∃ e, links.home e = n ∧ links.far e = m

theorem Links.graph_adj_iff (links : Links Node End) {n m : Node} :
    links.graph.Adj n m ↔ n ≠ m ∧ ∃ e, links.home e = n ∧ links.far e = m := by
  rw [Links.graph, SimpleGraph.fromRel_adj]
  refine and_congr_right fun _ ↦ ⟨?_, Or.inl⟩
  rintro (h | ⟨e, hhome, hfar⟩)
  · exact h
  · refine ⟨links.peer e, hfar, ?_⟩
    rw [Links.far, links.peer_peer e, hhome]

/-- The links, the destinations each node owns, and the cost that stands for unreachable. -/
structure Protocol (Node End Dest : Type*) extends Links Node End where
  owns : Node → Dest → Prop
  owns_unique : ∀ n m d, owns n d → owns m d → n = m
  infinity : ℕ

/-- A route: its cost, the link end it leaves by, and the time it was written. -/
@[ext] structure Route (End : Type*) where
  cost : ℕ
  via : Option End
  stamp : ℕ

/-- An advert in flight: the end it was sent from, the destination, the sender's cost, and the
moment it was sent. -/
structure Advert (End Dest : Type*) where
  source : End
  dest : Dest
  cost : ℕ
  sentAt : ℕ

/-- The routes of every node and the adverts in flight. -/
structure State (Node End Dest : Type*) where
  table : Node → Dest → Option (Route End)
  flight : Set (Advert End Dest)

open scoped Classical in
/-- The state in which one route of one node is replaced. -/
noncomputable def State.setRoute (s : State Node End Dest) (n : Node) (d : Dest)
    (route : Option (Route End)) : State Node End Dest :=
  { s with table := fun m d' ↦ if m = n ∧ d' = d then route else s.table m d' }

theorem State.setRoute_self (s : State Node End Dest) (n : Node) (d : Dest)
    (route : Option (Route End)) : (s.setRoute n d route).table n d = route := by
  rw [setRoute]
  exact if_pos ⟨rfl, rfl⟩

theorem State.setRoute_of_ne (s : State Node End Dest) {n m : Node} {d d' : Dest}
    (route : Option (Route End)) (h : ¬ (m = n ∧ d' = d)) :
    (s.setRoute n d route).table m d' = s.table m d' := by
  rw [setRoute]
  exact if_neg h

/-- A route of the changed state is the new one or one that was there before. -/
theorem State.setRoute_eq_some {s : State Node End Dest} {n m : Node} {d d' : Dest}
    {route : Option (Route End)} {r : Route End} (hr : (s.setRoute n d route).table m d' = some r) :
    (m = n ∧ d' = d ∧ route = some r) ∨ s.table m d' = some r := by
  by_cases hset : m = n ∧ d' = d
  · obtain ⟨rfl, rfl⟩ := hset
    rw [s.setRoute_self] at hr
    exact Or.inl ⟨rfl, rfl, hr⟩
  · rw [s.setRoute_of_ne _ hset] at hr
    exact Or.inr hr

/-- What the environment of the protocol does: which destinations are originated, whether routes
are withdrawn, and which times are written into routes. -/
structure Regime (Dest : Type*) where
  originates : Dest → Prop
  withdraws : Prop
  stamps : ℕ → Prop

/-- What an advert may say when it is sent: the cost of a route its sender has, which does not leave
by the link the advert goes over. -/
def Protocol.Advertises (P : Protocol Node End Dest) (s : State Node End Dest)
    (a : Advert End Dest) : Prop :=
  ∃ r, s.table (P.home a.source) a.dest = some r ∧ r.via ≠ some a.source ∧ r.cost ≠ P.infinity ∧
    a.cost = r.cost

/-- One move of the protocol. -/
inductive Step (P : Protocol Node End Dest) (regime : Regime Dest) :
    State Node End Dest → State Node End Dest → Prop
  | traffic {s : State Node End Dest} {flight : Set (Advert End Dest)} :
    (∀ a ∈ flight, a ∈ s.flight ∨ P.Advertises s a) → Step P regime s { s with flight := flight }
  | learn {s : State Node End Dest} {a : Advert End Dest} {t : ℕ} :
    a ∈ s.flight → ¬ P.owns (P.far a.source) a.dest →
      (∀ r, s.table (P.far a.source) a.dest = some r → a.cost + 1 < r.cost) → regime.stamps t →
        Step P regime s
          (s.setRoute (P.far a.source) a.dest (some ⟨a.cost + 1, some (P.peer a.source), t⟩))
  | originate {s : State Node End Dest} {n : Node} {d : Dest} {t : ℕ} :
    P.owns n d → regime.originates d → regime.stamps t →
      Step P regime s (s.setRoute n d (some ⟨0, none, t⟩))
  | withdraw {s : State Node End Dest} {table : Node → Dest → Option (Route End)} :
    regime.withdraws → (∀ n d, table n d = s.table n d ∨ table n d = none) →
      Step P regime s { s with table := table }

variable {P : Protocol Node End Dest} {regime : Regime Dest} {s s' : State Node End Dest}

/-! ### What one move can do -/

/-- A route after a move was there before, or was learned from an advert in flight, or is an
originated one. -/
theorem Step.route_cases (hstep : Step P regime s s') {n : Node} {d : Dest} {r : Route End}
    (hr : s'.table n d = some r) :
    s.table n d = some r ∨
      (∃ a ∈ s.flight, a.dest = d ∧ n = P.far a.source ∧ ¬ P.owns n d ∧ r.cost = a.cost + 1 ∧
        r.via = some (P.peer a.source)) ∨
      (regime.originates d ∧ P.owns n d ∧ r.cost = 0 ∧ r.via = none) := by
  cases hstep with
  | traffic hflight => exact Or.inl hr
  | @learn a t hflight howns hbetter ht =>
    rcases State.setRoute_eq_some hr with ⟨rfl, rfl, hnew⟩ | hold
    · obtain rfl := Option.some.inj hnew
      exact Or.inr (Or.inl ⟨a, hflight, rfl, rfl, howns, rfl, rfl⟩)
    · exact Or.inl hold
  | originate howns hdest ht =>
    rcases State.setRoute_eq_some hr with ⟨rfl, rfl, hnew⟩ | hold
    · obtain rfl := Option.some.inj hnew
      exact Or.inr (Or.inr ⟨hdest, howns, rfl, rfl⟩)
    · exact Or.inl hold
  | withdraw hwithdraw hsub =>
    rcases hsub n d with hsame | hnone
    · exact Or.inl (hsame.symm.trans hr)
    · exact absurd (hr.symm.trans hnone) (Option.some_ne_none r)

/-- An advert in flight after a move was in flight before or has just been sent. -/
theorem Step.advert_cases (hstep : Step P regime s s') {a : Advert End Dest} (ha : a ∈ s'.flight) :
    a ∈ s.flight ∨ P.Advertises s a := by
  cases hstep with
  | traffic hflight => exact hflight a ha
  | learn hflight howns hbetter ht => exact Or.inl ha
  | originate howns hdest ht => exact Or.inl ha
  | withdraw hwithdraw hsub => exact Or.inl ha

/-- A route after a move was there before or carries a time the regime writes. -/
theorem Step.stamp_cases (hstep : Step P regime s s') {n : Node} {d : Dest} {r : Route End}
    (hr : s'.table n d = some r) : s.table n d = some r ∨ regime.stamps r.stamp := by
  cases hstep with
  | traffic hflight => exact Or.inl hr
  | learn hflight howns hbetter ht =>
    rcases State.setRoute_eq_some hr with ⟨-, -, hnew⟩ | hold
    · obtain rfl := Option.some.inj hnew
      exact Or.inr ht
    · exact Or.inl hold
  | originate howns hdest ht =>
    rcases State.setRoute_eq_some hr with ⟨-, -, hnew⟩ | hold
    · obtain rfl := Option.some.inj hnew
      exact Or.inr ht
    · exact Or.inl hold
  | withdraw hwithdraw hsub =>
    rcases hsub n d with hsame | hnone
    · exact Or.inl (hsame.symm.trans hr)
    · exact absurd (hr.symm.trans hnone) (Option.some_ne_none r)

/-! ### Costs fall while nothing is withdrawn -/

/-- Every route of the first state has a counterpart in the second that costs no more. -/
def Improves (s s' : State Node End Dest) : Prop :=
  ∀ n d r, s.table n d = some r → ∃ r', s'.table n d = some r' ∧ r'.cost ≤ r.cost

theorem Improves.refl (s : State Node End Dest) : Improves s s :=
  fun _ _ r hr ↦ ⟨r, hr, le_rfl⟩

theorem Improves.trans {s'' : State Node End Dest} (hfirst : Improves s s')
    (hsecond : Improves s' s'') : Improves s s'' := by
  intro n d r hr
  obtain ⟨r', hr', hle'⟩ := hfirst n d r hr
  obtain ⟨r'', hr'', hle''⟩ := hsecond n d r' hr'
  exact ⟨r'', hr'', hle''.trans hle'⟩

/-- Replacing a route by one that costs no more improves the state. -/
theorem improves_setRoute {n : Node} {d : Dest} {route : Route End}
    (h : ∀ r, s.table n d = some r → route.cost ≤ r.cost) :
    Improves s (s.setRoute n d (some route)) := by
  intro m d' r hr
  by_cases hset : m = n ∧ d' = d
  · obtain ⟨rfl, rfl⟩ := hset
    exact ⟨route, s.setRoute_self _ _ _, h r hr⟩
  · exact ⟨r, by rw [s.setRoute_of_ne _ hset, hr], le_rfl⟩

/-- Assumes: a regime without withdrawals. A move of the protocol lets no cost rise and no route
disappear. -/
theorem Step.improves (hstep : Step P regime s s') (hregime : ¬ regime.withdraws) :
    Improves s s' := by
  cases hstep with
  | traffic hflight => exact Improves.refl _
  | learn hflight howns hbetter ht =>
    exact improves_setRoute fun r hr ↦ (hbetter r hr).le
  | originate howns hdest ht => exact improves_setRoute fun r _ ↦ Nat.zero_le r.cost
  | withdraw hwithdraw hsub => exact absurd hwithdraw hregime

/-! ### Soundness of routes and adverts -/

/-- The invariant of a network that withdraws nothing. -/
structure Sound (P : Protocol Node End Dest) (s : State Node End Dest) : Prop where
  /-- A route without a link end is the node's own destination, at cost zero. -/
  own : ∀ n d r, s.table n d = some r → r.via = none → P.owns n d ∧ r.cost = 0
  /-- The far end of a learned route has a strictly cheaper one. -/
  learned : ∀ n d r e, s.table n d = some r → r.via = some e →
    P.home e = n ∧ ¬ P.owns n d ∧ r.cost ≤ P.infinity ∧
      ∃ r', s.table (P.far e) d = some r' ∧ r'.cost < r.cost
  /-- The sender of an advert has a route that costs no more than the advert says. -/
  advert : ∀ a ∈ s.flight, a.cost < P.infinity ∧
    ∃ r, s.table (P.home a.source) a.dest = some r ∧ r.cost ≤ a.cost

theorem Sound.cost_le (h : Sound P s) {n : Node} {d : Dest} {r : Route End}
    (hr : s.table n d = some r) : r.cost ≤ P.infinity := by
  cases hvia : r.via with
  | none => exact (h.own n d r hr hvia).2 ▸ Nat.zero_le _
  | some e => exact (h.learned n d r e hr hvia).2.2.1

/-- Assumes: a regime without withdrawals. Every move of the protocol keeps soundness. -/
theorem Sound.step (h : Sound P s) (hstep : Step P regime s s') (hregime : ¬ regime.withdraws) :
    Sound P s' := by
  have himproves := hstep.improves hregime
  refine ⟨?_, ?_, ?_⟩
  · intro n d r hr hvia
    rcases hstep.route_cases hr with hold | ⟨a, -, -, -, -, -, hlearned⟩ | ⟨-, howns, hcost, -⟩
    · exact h.own n d r hold hvia
    · exact absurd (hlearned.symm.trans hvia) (Option.some_ne_none _)
    · exact ⟨howns, hcost⟩
  · intro n d r e hr hvia
    rcases hstep.route_cases hr with hold | ⟨a, ha, rfl, rfl, howns, hcost, hlearned⟩ |
      ⟨-, -, -, hnone⟩
    · obtain ⟨hhome, howns, hcost, r', hr', hlt⟩ := h.learned n d r e hold hvia
      obtain ⟨r'', hr'', hle⟩ := himproves _ _ r' hr'
      exact ⟨hhome, howns, hcost, r'', hr'', hle.trans_lt hlt⟩
    · obtain rfl : P.peer a.source = e := Option.some.inj (hlearned.symm.trans hvia)
      obtain ⟨hlt, r', hr', hle⟩ := h.advert a ha
      obtain ⟨r'', hr'', hle'⟩ := himproves _ _ r' hr'
      refine ⟨rfl, howns, by omega, r'', ?_, by omega⟩
      rwa [Links.far, P.peer_peer]
    · exact absurd (hvia.symm.trans hnone) (Option.some_ne_none _)
  · intro a ha
    rcases hstep.advert_cases ha with hold | ⟨r, hr, -, hcost, hadvert⟩
    · obtain ⟨hlt, r, hr, hle⟩ := h.advert a hold
      obtain ⟨r', hr', hle'⟩ := himproves _ _ r hr
      exact ⟨hlt, r', hr', hle'.trans hle⟩
    · obtain ⟨r', hr', hle'⟩ := himproves _ _ r hr
      rw [hadvert]
      exact ⟨lt_of_le_of_ne (h.cost_le hr) hcost, r', hr', hle'⟩

/-- A state in which nodes have routes for their own destinations only, and every advert in flight
has just been sent. -/
structure Initial (P : Protocol Node End Dest) (s : State Node End Dest) : Prop where
  own : ∀ n d r, s.table n d = some r → P.owns n d ∧ r.cost = 0 ∧ r.via = none
  advert : ∀ a ∈ s.flight, P.Advertises s a

theorem Initial.sound (h : Initial P s) : Sound P s := by
  refine ⟨?_, ?_, ?_⟩
  · intro n d r hr _
    obtain ⟨howns, hcost, -⟩ := h.own n d r hr
    exact ⟨howns, hcost⟩
  · intro n d r e hr hvia
    exact absurd (hvia.symm.trans (h.own n d r hr).2.2) (Option.some_ne_none e)
  · intro a ha
    obtain ⟨r, hr, -, hinfinity, hcost⟩ := h.advert a ha
    have hzero : r.cost = 0 := (h.own _ _ r hr).2.1
    exact ⟨by omega, r, hr, hcost.ge⟩

/-! ### What soundness gives -/

/-- The next node of a route: the far end of the link it leaves by. -/
def Follows (P : Protocol Node End Dest) (s : State Node End Dest) (d : Dest) (n m : Node) : Prop :=
  ∃ r e, s.table n d = some r ∧ r.via = some e ∧ P.far e = m

/-- A learned route of a sound state leads to another node, over a link. -/
theorem Sound.adj (h : Sound P s) {n : Node} {d : Dest} {r : Route End} {e : End}
    (hr : s.table n d = some r) (hvia : r.via = some e) : P.graph.Adj n (P.far e) := by
  obtain ⟨hhome, -, -, r', hr', hlt⟩ := h.learned n d r e hr hvia
  refine P.graph_adj_iff.mpr ⟨?_, e, hhome, rfl⟩
  rintro hloop
  rw [← hloop, hr] at hr'
  obtain rfl := Option.some.inj hr'
  exact lt_irrefl _ hlt

/-- A route leads to the owner of its destination, by next hops of falling cost: the path has at
most as many links as the route costs and meets no node twice. -/
theorem Sound.exists_path (h : Sound P s) {d : Dest} : ∀ (c : ℕ) {n : Node} {r : Route End},
    s.table n d = some r → r.cost = c → ∃ (o : Node) (path : List Node), P.owns o d ∧
      path.IsChain (Follows P s d) ∧ path.head? = some n ∧ path.getLast? = some o ∧
      path.Nodup ∧ path.length ≤ c + 1 ∧
      ∀ m ∈ path, ∃ r', s.table m d = some r' ∧ r'.cost ≤ c := by
  intro c
  induction c using Nat.strong_induction_on with
  | h c ih =>
    intro n r hr hcost
    cases hvia : r.via with
    | none =>
      refine ⟨n, [n], (h.own n d r hr hvia).1, List.isChain_singleton _, rfl, rfl,
        List.nodup_singleton n, by simp, ?_⟩
      intro m hm
      obtain rfl := List.mem_singleton.mp hm
      exact ⟨r, hr, hcost.le⟩
    | some e =>
      obtain ⟨-, -, -, r', hr', hlt⟩ := h.learned n d r e hr hvia
      obtain ⟨o, path, howner, hchain, hhead, hlast, hnodup, hlength, hcheap⟩ :=
        ih r'.cost (hcost ▸ hlt) hr' rfl
      obtain ⟨rest, rfl⟩ : ∃ rest, path = P.far e :: rest := by
        cases path with
        | nil => simp at hhead
        | cons m rest => exact ⟨rest, by rw [Option.some.inj hhead]⟩
      refine ⟨o, n :: P.far e :: rest, howner, ?_, rfl, ?_, ?_, ?_, ?_⟩
      · exact List.isChain_cons_cons.mpr ⟨⟨r, e, hr, hvia, rfl⟩, hchain⟩
      · rwa [List.getLast?_cons_cons]
      · refine List.nodup_cons.mpr ⟨fun hmem ↦ ?_, hnodup⟩
        obtain ⟨r'', hr'', hle⟩ := hcheap n hmem
        rw [hr] at hr''
        obtain rfl := Option.some.inj hr''
        omega
      · simp only [List.length_cons] at hlength ⊢
        omega
      · intro m hm
        rcases List.mem_cons.mp hm with rfl | hm
        · exact ⟨r, hr, hcost.le⟩
        · obtain ⟨r'', hr'', hle⟩ := hcheap m hm
          exact ⟨r'', hr'', by omega⟩

/-- The cost of a route bounds the distance to the owner of its destination. -/
theorem Sound.edist_le (h : Sound P s) {d : Dest} {o : Node} (howner : P.owns o d) :
    ∀ (c : ℕ) {n : Node} {r : Route End}, s.table n d = some r → r.cost = c →
      P.graph.edist n o ≤ c := by
  intro c
  induction c using Nat.strong_induction_on with
  | h c ih =>
    intro n r hr hcost
    cases hvia : r.via with
    | none =>
      have hown := P.owns_unique n o d (h.own n d r hr hvia).1 howner
      rw [hown, SimpleGraph.edist_self]
      exact zero_le
    | some e =>
      obtain ⟨-, -, -, r', hr', hlt⟩ := h.learned n d r e hr hvia
      have hadj := h.adj hr hvia
      calc P.graph.edist n o
          ≤ P.graph.edist n (P.far e) + P.graph.edist (P.far e) o := SimpleGraph.edist_triangle
        _ = 1 + P.graph.edist (P.far e) o := by
          rw [SimpleGraph.edist_eq_one_iff_adj.mpr hadj]
        _ ≤ 1 + (r'.cost : ℕ∞) := by gcongr; exact ih r'.cost (hcost ▸ hlt) hr' rfl
        _ ≤ c := by
          have hle : 1 + r'.cost ≤ c := by omega
          exact_mod_cast hle

/-- Split horizon never hides a route from a node further from the owner than the route costs. -/
theorem Sound.via_ne (h : Sound P s) {n o : Node} {d : Dest} {r : Route End} {e : End}
    (howner : P.owns o d) (hr : s.table n d = some r)
    (hfar : (r.cost : ℕ∞) < P.graph.edist (P.far e) o) : r.via ≠ some e := by
  intro hvia
  obtain ⟨-, -, -, r', hr', hlt⟩ := h.learned n d r e hr hvia
  have hle := h.edist_le howner r'.cost hr' rfl
  have hcost : (r'.cost : ℕ∞) < r.cost := by exact_mod_cast hlt
  exact absurd (hfar.trans_le (hle.trans hcost.le)) (lt_irrefl _)

end IpRipStack.DistanceVector
