import IpRipStack.Library.DistanceVector.Protocol

/-!
# Lower bounds that hold whatever happens

Withdrawals break the soundness of `Protocol`: a route may outlive what it was learned from. What no
move breaks is `Grounded`: every route and every advert, however old, is for a destination that a
node owns, and costs at least what that owner is away over the links (`Grounded.step`). So routes
that have gone round in circles err on one side only, and a table has no more routes than there are
destinations.
-/

set_option autoImplicit false
set_option relaxedAutoImplicit false

namespace IpRipStack.DistanceVector

variable {Node End Dest : Type*} {P : Protocol Node End Dest} {regime : Regime Dest}
  {s s' : State Node End Dest}

/-- The far end of a link is at most one step away. -/
theorem Links.edist_far_le (links : Links Node End) (e : End) :
    links.graph.edist (links.home e) (links.far e) ≤ 1 := by
  by_cases hsame : links.home e = links.far e
  · rw [hsame, SimpleGraph.edist_self]
    exact zero_le
  · have hadj := links.graph_adj_iff.mpr ⟨hsame, e, rfl, rfl⟩
    exact (SimpleGraph.edist_eq_one_iff_adj.mpr hadj).le

/-- A cost for a destination at a node that no path from there to an owner undercuts. -/
def Protocol.Covers (P : Protocol Node End Dest) (n : Node) (d : Dest) (cost : ℕ) : Prop :=
  ∃ o, P.owns o d ∧ P.graph.edist n o ≤ cost

/-- One more link covers the far end. -/
theorem Protocol.Covers.far {e : End} {d : Dest} {cost : ℕ} (h : P.Covers (P.home e) d cost) :
    P.Covers (P.far e) d (cost + 1) := by
  obtain ⟨o, howns, hdist⟩ := h
  refine ⟨o, howns, ?_⟩
  have hback : P.graph.edist (P.far e) (P.home e) ≤ 1 := by
    rw [SimpleGraph.edist_comm]
    exact P.edist_far_le e
  calc P.graph.edist (P.far e) o
      ≤ P.graph.edist (P.far e) (P.home e) + P.graph.edist (P.home e) o :=
        SimpleGraph.edist_triangle
    _ ≤ 1 + (cost : ℕ∞) := add_le_add hback hdist
    _ = ((cost + 1 : ℕ) : ℕ∞) := by rw [add_comm, Nat.cast_add, Nat.cast_one]

/-- Every route and every advert is for a destination with an owner and costs no less than the owner
is away. -/
structure Grounded (P : Protocol Node End Dest) (s : State Node End Dest) : Prop where
  route : ∀ n d r, s.table n d = some r → P.Covers n d r.cost
  advert : ∀ a ∈ s.flight, P.Covers (P.home a.source) a.dest a.cost

/-- Every move of the protocol keeps it, withdrawals among them. -/
theorem Grounded.step (h : Grounded P s) (hstep : Step P regime s s') : Grounded P s' := by
  refine ⟨?_, ?_⟩
  · intro n d r hr
    rcases hstep.route_cases hr with hold | ⟨a, ha, rfl, rfl, -, hcost, -⟩ | ⟨-, howns, hcost, -⟩
    · exact h.route n d r hold
    · rw [hcost]
      exact (h.advert a ha).far
    · refine ⟨n, howns, ?_⟩
      rw [SimpleGraph.edist_self]
      exact zero_le
  · intro a ha
    rcases hstep.advert_cases ha with hold | ⟨r, hr, -, -, hcost⟩
    · exact h.advert a hold
    · rw [hcost]
      exact h.route _ _ r hr

theorem Initial.grounded (h : Initial P s) : Grounded P s := by
  have hroute : ∀ n d r, s.table n d = some r → P.Covers n d r.cost := by
    intro n d r hr
    refine ⟨n, (h.own n d r hr).1, ?_⟩
    rw [SimpleGraph.edist_self]
    exact zero_le
  refine ⟨hroute, fun a ha ↦ ?_⟩
  obtain ⟨r, hr, -, -, hcost⟩ := h.advert a ha
  rw [hcost]
  exact hroute _ _ r hr

end IpRipStack.DistanceVector
