import IpRipStack.Library.DistanceVector.Protocol

/-!
# Rounds of updates

How distance-vector routing finds the shortest paths. `TakesUp P e s s'` says that the far end of a
link has, in `s'`, taken up everything that the near end advertises over it in `s`. In a round this
happens over every link end, at moments of its own, while nothing is withdrawn. `Converged P k` says
that routes to owners at most `k` links away are as short as they can be; a round of updates makes
it one link more (`Converged.round`), as long as the distance does not exceed infinity.

The advert that a shortest path needs is never suppressed: by split horizon a node keeps a route
from the far end of the link it leaves by only, and that node is nearer to the owner
(`Sound.via_ne`).
-/

set_option autoImplicit false
set_option relaxedAutoImplicit false

namespace IpRipStack.DistanceVector

/-- The first link of a shortest path leads one nearer. -/
theorem exists_adj_of_edist_eq_succ {V : Type*} {G : SimpleGraph V} {u v : V} {k : ℕ}
    (h : G.edist u v = (k + 1 : ℕ)) : ∃ w, G.Adj u w ∧ G.edist w v = k := by
  obtain ⟨p, hp⟩ := SimpleGraph.exists_walk_of_edist_eq_coe h
  cases p with
  | nil => exact absurd hp (Nat.succ_ne_zero k).symm
  | @cons _ w _ hadj q =>
    have hlength : q.length = k := Nat.succ.inj hp
    refine ⟨w, hadj, le_antisymm (hlength ▸ SimpleGraph.edist_le q) ?_⟩
    have htriangle : G.edist u v ≤ 1 + G.edist w v := by
      rw [← SimpleGraph.edist_eq_one_iff_adj.mpr hadj]
      exact SimpleGraph.edist_triangle
    rw [h, Nat.cast_add, Nat.cast_one, add_comm] at htriangle
    exact (ENat.add_le_add_iff_left (ENat.natCast_ne_top 1)).mp htriangle

variable {Node End Dest : Type*} {P : Protocol Node End Dest} {s s' : State Node End Dest}

/-- In `s'` the far end of `e` has routes that cost no more than those that `s` advertises over `e`
let it have. -/
def TakesUp (P : Protocol Node End Dest) (e : End) (s s' : State Node End Dest) : Prop :=
  ∀ d r, s.table (P.home e) d = some r → r.via ≠ some e → r.cost ≠ P.infinity →
    ¬ P.owns (P.far e) d → ∃ r', s'.table (P.far e) d = some r' ∧ r'.cost ≤ r.cost + 1

/-- Routes to owners at most `k` links away, and no further than infinity, cost no more than the
distance. -/
def Converged (P : Protocol Node End Dest) (k : ℕ) (s : State Node End Dest) : Prop :=
  ∀ (n o : Node) (d : Dest) (h : ℕ), P.owns o d → P.graph.edist n o = h → h ≤ k → h ≤ P.infinity →
    ∃ r, s.table n d = some r ∧ r.cost ≤ h

theorem Converged.improves {k : ℕ} (h : Converged P k s) (himproves : Improves s s') :
    Converged P k s' := by
  intro n o d distance howner hdist hk hinfinity
  obtain ⟨r, hr, hle⟩ := h n o d distance howner hdist hk hinfinity
  obtain ⟨r', hr', hle'⟩ := himproves n d r hr
  exact ⟨r', hr', hle'.trans hle⟩

theorem Converged.of_le {j k : ℕ} (h : Converged P k s) (hle : j ≤ k) : Converged P j s :=
  fun n o d distance howner hdist hj ↦ h n o d distance howner hdist (hj.trans hle)

/-- Assumes: a route for each of a node's own destinations. -/
theorem converged_zero (h : ∀ n d, P.owns n d → ∃ r, s.table n d = some r ∧ r.cost = 0) :
    Converged P 0 s := by
  intro n o d distance howner hdist hk _
  obtain rfl := Nat.le_zero.mp hk
  obtain rfl : n = o := SimpleGraph.edist_eq_zero_iff.mp hdist
  obtain ⟨r, hr, hcost⟩ := h n d howner
  exact ⟨r, hr, hcost.le⟩

/-- What a round is for: every link end's update reaches the far end, and nothing is lost. -/
def Updated (P : Protocol Node End Dest) (s s' : State Node End Dest) : Prop :=
  Improves s s' ∧ ∀ e, ∃ sent heard, Sound P sent ∧ Improves s sent ∧ TakesUp P e sent heard ∧
    Improves heard s'

/-- A round of updates extends convergence by one link. -/
theorem Converged.round {k : ℕ} (h : Converged P k s) (hround : Updated P s s') :
    Converged P (k + 1) s' := by
  obtain ⟨himproves, hupdates⟩ := hround
  intro n o d distance howner hdist hk hinfinity
  rcases Nat.lt_or_ge k distance with hfar | hnear
  · obtain rfl : distance = k + 1 := le_antisymm hk hfar
    obtain ⟨m, hadj, hdist'⟩ := exists_adj_of_edist_eq_succ hdist
    obtain ⟨-, e, rfl, rfl⟩ := P.graph_adj_iff.mp hadj.symm
    obtain ⟨sent, heard, hsound, hbefore, htakes, hafter⟩ := hupdates e
    obtain ⟨r, hr, hle⟩ := (h.improves hbefore) _ o d k howner hdist' le_rfl (by omega)
    have hcloser : (r.cost : ℕ∞) < P.graph.edist (P.far e) o := by
      rw [hdist]
      exact_mod_cast Nat.lt_succ_of_le hle
    have hother : ¬ P.owns (P.far e) d := by
      intro howns
      rw [P.owns_unique _ o d howns howner, SimpleGraph.edist_self] at hdist
      exact absurd hdist.symm (by exact_mod_cast Nat.succ_ne_zero k)
    obtain ⟨r', hr', hle'⟩ := htakes d r hr (hsound.via_ne howner hr hcloser) (by omega) hother
    obtain ⟨r'', hr'', hle''⟩ := hafter _ d r' hr'
    exact ⟨r'', hr'', by omega⟩
  · exact (h.improves himproves) n o d distance howner hdist hnear hinfinity

/-- In a converged state the cost of a route is the distance. -/
theorem Converged.exists_cost_eq {k : ℕ} (h : Converged P k s) (hsound : Sound P s) {n o : Node}
    {d : Dest} {distance : ℕ} (howner : P.owns o d) (hdist : P.graph.edist n o = distance)
    (hk : distance ≤ k) (hinfinity : distance ≤ P.infinity) :
    ∃ r, s.table n d = some r ∧ r.cost = distance := by
  obtain ⟨r, hr, hle⟩ := h n o d distance howner hdist hk hinfinity
  refine ⟨r, hr, le_antisymm hle ?_⟩
  have hlower := hsound.edist_le howner r.cost hr rfl
  rw [hdist] at hlower
  exact_mod_cast hlower

end IpRipStack.DistanceVector
