import IpRipStack.Library.DistanceVector.Protocol
import Mathlib.Combinatorics.SimpleGraph.Acyclic

/-!
# Distance-vector routing on a forest

Where the links form a forest, split horizon keeps every route exact under every move of the
protocol, withdrawals included. The invariant `Exact` speaks of tables and of adverts in flight: a
learned route leaves by a link whose far end has a path to the owner that avoids the node, and costs
one more than that path is long; an advert speaks of an owner behind its sender, away from its
receiver. A node that advertises a route over a link it does not leave by therefore never sends it
back towards the owner (`Exact.advertised_behind`), and every move keeps the invariant
(`Exact.step`).

In an exact state every route follows the first link of the one path to the owner of its
destination (`Exact.exists_path`), no chain of next hops returns to its start
(`Exact.not_transGen_follows`), and two exact states never disagree on a cost (`Exact.cost_eq`).
-/

set_option autoImplicit false
set_option relaxedAutoImplicit false

namespace IpRipStack.DistanceVector

variable {Node End Dest : Type*}

/-- The links form a forest: no cycle, no link from a node to itself, no two links between the same
nodes. -/
structure Links.IsForest (links : Links Node End) : Prop where
  acyclic : links.graph.IsAcyclic
  far_ne : ∀ e, links.far e ≠ links.home e
  simple : ∀ e e', links.home e = links.home e' → links.far e = links.far e' → e = e'

theorem Links.IsForest.adj {links : Links Node End} (h : links.IsForest) (e : End) :
    links.graph.Adj (links.home e) (links.far e) :=
  links.graph_adj_iff.mpr ⟨(h.far_ne e).symm, e, rfl, rfl⟩

variable {P : Protocol Node End Dest} {regime : Regime Dest} {s s' : State Node End Dest}

/-- `n` reaches the owner of `d` from `m` without passing `n`, in `length` links. -/
def Behind (P : Protocol Node End Dest) (n m : Node) (d : Dest) (length : ℕ) : Prop :=
  ∃ (o : Node) (p : P.graph.Walk m o), P.owns o d ∧ p.IsPath ∧ n ∉ p.support ∧ p.length = length

/-- The invariant of a network whose links form a forest. -/
structure Exact (P : Protocol Node End Dest) (s : State Node End Dest) : Prop where
  /-- A route without a link end is the node's own destination, at cost zero. -/
  own : ∀ n d r, s.table n d = some r → r.via = none → P.owns n d ∧ r.cost = 0
  /-- The owner of a learned route's destination is behind the far end of its link. -/
  learned : ∀ n d r e, s.table n d = some r → r.via = some e →
    P.home e = n ∧ ∃ length, Behind P n (P.far e) d length ∧ r.cost = length + 1
  /-- The owner of an advert's destination is behind its sender. -/
  advert : ∀ a ∈ s.flight, Behind P (P.far a.source) (P.home a.source) a.dest a.cost

/-- The path of a learned route: the link it leaves by, then the path of the node behind it. -/
theorem Behind.cons {n : Node} {d : Dest} {e : End} {length : ℕ} (hforest : P.IsForest)
    (hhome : P.home e = n) (h : Behind P n (P.far e) d length) :
    ∃ (o : Node) (p : P.graph.Walk n o), P.owns o d ∧ p.IsPath ∧ p.length = length + 1 ∧
      p.snd = P.far e := by
  obtain ⟨o, p, howner, hpath, hfar, hlength⟩ := h
  subst hhome
  refine ⟨o, SimpleGraph.Walk.cons (hforest.adj e) p, howner, hpath.cons hfar, ?_, ?_⟩
  · rw [SimpleGraph.Walk.length_cons, hlength]
  · rw [SimpleGraph.Walk.snd_cons]

/-- A route that does not leave by a link end is about an owner behind the node, as seen from the
far end of that link. -/
theorem Exact.advertised_behind (h : Exact P s) (hforest : P.IsForest) {e : End} {d : Dest}
    {r : Route End} (hr : s.table (P.home e) d = some r) (hvia : r.via ≠ some e) :
    Behind P (P.far e) (P.home e) d r.cost := by
  cases hleaves : r.via with
  | none =>
    obtain ⟨hown, hcost⟩ := h.own _ _ _ hr hleaves
    refine ⟨P.home e, SimpleGraph.Walk.nil, hown, SimpleGraph.Walk.IsPath.nil, ?_, ?_⟩
    · rw [SimpleGraph.Walk.support_nil, List.mem_singleton]
      exact hforest.far_ne e
    · rw [SimpleGraph.Walk.length_nil, hcost]
  | some e' =>
    obtain ⟨hhome, length, hbehind, hcost⟩ := h.learned _ _ _ _ hr hleaves
    obtain ⟨o, p, howner, hpath, hlength, hsnd⟩ := hbehind.cons hforest hhome
    refine ⟨o, p, howner, hpath, fun hmem ↦ ?_, hlength.trans hcost.symm⟩
    have hfirst : P.far e = p.snd := hforest.acyclic.eq_snd_of_adj_start hpath (hforest.adj e) hmem
    have hsame : e' = e := hforest.simple e' e hhome (hsnd.symm.trans hfirst.symm)
    exact hvia (hleaves.trans (congrArg some hsame))

/-- Every move of the protocol keeps the routes of a forest exact. -/
theorem Exact.step (h : Exact P s) (hforest : P.IsForest) (hstep : Step P regime s s') :
    Exact P s' := by
  refine ⟨?_, ?_, ?_⟩
  · intro n d r hr hvia
    rcases hstep.route_cases hr with hold | ⟨a, -, -, -, -, -, hlearned⟩ | ⟨-, howns, hcost, -⟩
    · exact h.own n d r hold hvia
    · exact absurd (hlearned.symm.trans hvia) (Option.some_ne_none _)
    · exact ⟨howns, hcost⟩
  · intro n d r e hr hvia
    rcases hstep.route_cases hr with hold | ⟨a, ha, rfl, rfl, -, hcost, hlearned⟩ | ⟨-, -, -, hnone⟩
    · exact h.learned n d r e hold hvia
    · obtain rfl : P.peer a.source = e := Option.some.inj (hlearned.symm.trans hvia)
      have hback : P.far (P.peer a.source) = P.home a.source := by
        rw [Links.far, P.peer_peer]
      exact ⟨rfl, a.cost, hback ▸ h.advert a ha, hcost⟩
    · exact absurd (hvia.symm.trans hnone) (Option.some_ne_none _)
  · intro a ha
    rcases hstep.advert_cases ha with hold | ⟨r, hr, hvia, -, hadvert⟩
    · exact h.advert a hold
    · rw [hadvert]
      exact h.advertised_behind hforest hr hvia

/-- The network starts exact. -/
theorem Initial.exact (h : Initial P s) (hforest : P.IsForest) : Exact P s := by
  have hquiet : Exact P { s with flight := ∅ } := by
    refine ⟨?_, ?_, fun a ha ↦ absurd ha (Set.notMem_empty a)⟩
    · intro n d r hr _
      obtain ⟨howns, hcost, -⟩ := h.own n d r hr
      exact ⟨howns, hcost⟩
    · intro n d r e hr hvia
      exact absurd (hvia.symm.trans (h.own n d r hr).2.2) (Option.some_ne_none e)
  have hsend : Step P ⟨fun _ ↦ False, False, fun _ ↦ False⟩ { s with flight := ∅ } s :=
    Step.traffic fun a ha ↦ Or.inr (h.advert a ha)
  exact hquiet.step hforest hsend

/-! ### What exactness gives -/

/-- A route for a destination the node does not own leaves by the first link of the path to the
owner, and costs what that path is long. -/
theorem Exact.exists_path (h : Exact P s) (hforest : P.IsForest) {n : Node} {d : Dest}
    {r : Route End} (hr : s.table n d = some r) (howns : ¬ P.owns n d) :
    ∃ (o : Node) (e : End) (p : P.graph.Walk n o), P.owns o d ∧ r.via = some e ∧ P.home e = n ∧
      p.IsPath ∧ p.length = r.cost ∧ p.snd = P.far e := by
  cases hvia : r.via with
  | none => exact absurd (h.own n d r hr hvia).1 howns
  | some e =>
    obtain ⟨hhome, length, hbehind, hcost⟩ := h.learned n d r e hr hvia
    obtain ⟨o, p, howner, hpath, hlength, hsnd⟩ := hbehind.cons hforest hhome
    exact ⟨o, e, p, howner, rfl, hhome, hpath, hlength.trans hcost.symm, hsnd⟩

/-- Two paths between the same nodes of a forest are as long as each other. -/
theorem Links.IsForest.length_eq {links : Links Node End} (hforest : links.IsForest) {n o : Node}
    {p q : links.graph.Walk n o} (hp : p.IsPath) (hq : q.IsPath) : p.length = q.length := by
  have hunique := (hforest.acyclic.subsingleton_path n o).elim ⟨p, hp⟩ ⟨q, hq⟩
  rw [Subtype.mk.inj hunique]

/-- The next hop of an exact route is one link nearer to the owner. -/
theorem Exact.follows_nearer (h : Exact P s) (hforest : P.IsForest) {n m : Node} {d : Dest}
    (hfollows : Follows P s d n m) : ∃ (o : Node) (p : P.graph.Walk n o) (q : P.graph.Walk m o),
      P.owns o d ∧ p.IsPath ∧ q.IsPath ∧ q.length < p.length := by
  obtain ⟨r, e, hr, hvia, rfl⟩ := hfollows
  obtain ⟨hhome, length, hbehind, -⟩ := h.learned n d r e hr hvia
  obtain ⟨o, p, howner, hpath, hlength, -⟩ := hbehind.cons hforest hhome
  obtain ⟨o', q, howner', hpath', -, hlength'⟩ := hbehind
  obtain rfl := P.owns_unique o o' d howner howner'
  exact ⟨o, p, q, howner, hpath, hpath', by omega⟩

/-- No chain of next hops returns to the node it started from. -/
theorem Exact.not_transGen_follows (h : Exact P s) (hforest : P.IsForest) (d : Dest) (n : Node) :
    ¬ Relation.TransGen (Follows P s d) n n := by
  have hnearer : ∀ m, Relation.TransGen (Follows P s d) n m →
      ∃ (o : Node) (p : P.graph.Walk n o) (q : P.graph.Walk m o),
        P.owns o d ∧ p.IsPath ∧ q.IsPath ∧ q.length < p.length := by
    intro m hchain
    induction hchain with
    | single hfollows => exact h.follows_nearer hforest hfollows
    | tail _ hfollows ih =>
      obtain ⟨o, p, q, howner, hp, hq, hlt⟩ := ih
      obtain ⟨o', q', q'', howner', hq', hq'', hlt'⟩ := h.follows_nearer hforest hfollows
      obtain rfl := P.owns_unique o o' d howner howner'
      have hsame := hforest.length_eq hq hq'
      exact ⟨o, p, q'', howner, hp, hq'', by omega⟩
  intro hloop
  obtain ⟨o, p, q, -, hp, hq, hlt⟩ := hnearer n hloop
  exact absurd (hforest.length_eq hq hp) hlt.ne

/-- Two exact states agree on the cost of every route they both have. -/
theorem Exact.cost_eq (h : Exact P s) (h' : Exact P s') (hforest : P.IsForest) {n : Node} {d : Dest}
    {r r' : Route End} (hr : s.table n d = some r) (hr' : s'.table n d = some r')
    (howns : ¬ P.owns n d) : r.cost = r'.cost := by
  obtain ⟨o, -, p, howner, -, -, hp, hlength, -⟩ := h.exists_path hforest hr howns
  obtain ⟨o', -, p', howner', -, -, hp', hlength', -⟩ := h'.exists_path hforest hr' howns
  obtain rfl := P.owns_unique o o' d howner howner'
  rw [← hlength, ← hlength', hforest.length_eq hp hp']

end IpRipStack.DistanceVector
