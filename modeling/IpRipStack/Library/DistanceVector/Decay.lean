import IpRipStack.Library.DistanceVector.Protocol

/-!
# How a distance vector forgets a dead destination

A destination whose owner has given it up (`Disowned`) is re-learned from stale routes, each time at
a higher cost. `Floor` says that every route for it costs at least `K`, with the adverts in flight
no lower than `K - 1` and those sent from a given moment on no lower than `K`; every move keeps it
(`Floor.step`). Once the older adverts are gone, `Settled` holds: every advert costs at least `K`,
and a route of cost exactly `K` was written by a given time and is never written again
(`Settled.step`). A node that has none left stays without (`Cleared.step`), and when all nodes are
cleared the floor has risen by one (`Settled.raise`).
-/

set_option autoImplicit false
set_option relaxedAutoImplicit false

namespace IpRipStack.DistanceVector

variable {Node End Dest : Type*} {P : Protocol Node End Dest} {regime : Regime Dest}
  {s s' : State Node End Dest} {d : Dest} {K : ℕ}

/-- No route was written after `latest`. -/
def WrittenBy (latest : ℕ) (s : State Node End Dest) : Prop :=
  ∀ n d r, s.table n d = some r → r.stamp ≤ latest

/-- Assumes: a regime that writes no later times. -/
theorem WrittenBy.step {latest : ℕ} (h : WrittenBy latest s) (hstep : Step P regime s s')
    (hregime : ∀ t, regime.stamps t → t ≤ latest) : WrittenBy latest s' := by
  intro n d r hr
  rcases hstep.stamp_cases hr with hold | hnew
  · exact h n d r hold
  · exact hregime _ hnew

/-- Routes for the destinations of other nodes cost something. -/
def LearnedAtCost (P : Protocol Node End Dest) (s : State Node End Dest) : Prop :=
  ∀ n d r, s.table n d = some r → ¬ P.owns n d → 1 ≤ r.cost

theorem LearnedAtCost.step (h : LearnedAtCost P s) (hstep : Step P regime s s') :
    LearnedAtCost P s' := by
  intro n d r hr howns
  rcases hstep.route_cases hr with hold | ⟨a, -, -, -, -, hcost, -⟩ | ⟨-, hown, -⟩
  · exact h n d r hold howns
  · exact hcost ▸ Nat.le_add_left 1 a.cost
  · exact absurd hown howns

/-- Nobody has the route for `d` that its owner originates. -/
def Disowned (P : Protocol Node End Dest) (d : Dest) (s : State Node End Dest) : Prop :=
  ∀ n, P.owns n d → s.table n d = none

theorem Disowned.step (h : Disowned P d s) (hstep : Step P regime s s')
    (hdead : ¬ regime.originates d) : Disowned P d s' := by
  intro n howns
  rw [Option.eq_none_iff_forall_ne_some]
  intro r hr
  rcases hstep.route_cases hr with hold | ⟨a, -, -, -, hother, -⟩ | ⟨horiginates, -⟩
  · exact Option.some_ne_none r (hold.symm.trans (h n howns))
  · exact hother howns
  · exact hdead horiginates

/-- Every route for `d` costs at least `K`, and no advert in flight lets a cheaper one in; an advert
sent at or after `start` costs at least `K` itself. -/
structure Floor (d : Dest) (K start : ℕ) (s : State Node End Dest) : Prop where
  table : ∀ n r, s.table n d = some r → K ≤ r.cost
  flight : ∀ a ∈ s.flight, a.dest = d → K ≤ a.cost + 1
  recent : ∀ a ∈ s.flight, a.dest = d → start ≤ a.sentAt → K ≤ a.cost

/-- The floor is one to begin with. Assumes: adverts in flight that were sent before `start`. -/
theorem Disowned.floor {start : ℕ} (h : Disowned P d s) (hlearned : LearnedAtCost P s)
    (hstart : ∀ a ∈ s.flight, a.sentAt < start) : Floor d 1 start s := by
  refine ⟨?_, fun a _ _ ↦ Nat.le_add_left 1 a.cost, ?_⟩
  · intro n r hr
    refine hlearned n d r hr fun howns ↦ ?_
    exact Option.some_ne_none r (hr.symm.trans (h n howns))
  · intro a ha _ hrecent
    exact absurd (hstart a ha) (Nat.not_lt.mpr hrecent)

/-- Assumes: a regime that does not originate `d`. Every move keeps the floor. -/
theorem Floor.step {start : ℕ} (h : Floor d K start s) (hstep : Step P regime s s')
    (hdead : ¬ regime.originates d) : Floor d K start s' := by
  have hadvert : ∀ a ∈ s'.flight, a.dest = d → a ∈ s.flight ∨ K ≤ a.cost := by
    intro a ha hdest
    subst hdest
    rcases hstep.advert_cases ha with hold | ⟨r, hr, -, -, hcost⟩
    · exact Or.inl hold
    · exact Or.inr (hcost ▸ h.table _ r hr)
  refine ⟨?_, ?_, ?_⟩
  · intro n r hr
    rcases hstep.route_cases hr with hold | ⟨a, ha, hdest, -, -, hcost, -⟩ | ⟨horiginates, -⟩
    · exact h.table n r hold
    · exact hcost ▸ h.flight a ha hdest
    · exact absurd horiginates hdead
  · intro a ha hdest
    rcases hadvert a ha hdest with hold | hcost
    · exact h.flight a hold hdest
    · exact hcost.trans (Nat.le_succ _)
  · intro a ha hdest hrecent
    rcases hadvert a ha hdest with hold | hcost
    · exact h.recent a hold hdest hrecent
    · exact hcost

/-- Every route for `d` costs at least `K`, those of cost `K` were written by `latest`, and no
advert in flight lets in a route of cost `K`. -/
structure Settled (d : Dest) (K latest : ℕ) (s : State Node End Dest) : Prop where
  table : ∀ n r, s.table n d = some r → K ≤ r.cost ∧ (r.cost = K → r.stamp ≤ latest)
  flight : ∀ a ∈ s.flight, a.dest = d → K ≤ a.cost

/-- The floor settles once every advert in flight was sent after `start`. -/
theorem Floor.settled {start latest : ℕ} (h : Floor d K start s)
    (hflushed : ∀ a ∈ s.flight, start ≤ a.sentAt) (hstamps : WrittenBy latest s) :
    Settled d K latest s :=
  ⟨fun n r hr ↦ ⟨h.table n r hr, fun _ ↦ hstamps n d r hr⟩,
    fun a ha hdest ↦ h.recent a ha hdest (hflushed a ha)⟩

/-- Assumes: a regime that does not originate `d`. Every move keeps the routes of least cost as old
as they are. -/
theorem Settled.step {latest : ℕ} (h : Settled d K latest s) (hstep : Step P regime s s')
    (hdead : ¬ regime.originates d) : Settled d K latest s' := by
  refine ⟨?_, ?_⟩
  · intro n r hr
    rcases hstep.route_cases hr with hold | ⟨a, ha, hdest, -, -, hcost, -⟩ | ⟨horiginates, -⟩
    · exact h.table n r hold
    · have hadvert : K ≤ a.cost := h.flight a ha hdest
      exact ⟨by omega, fun hleast ↦ by omega⟩
    · exact absurd horiginates hdead
  · intro a ha hdest
    subst hdest
    rcases hstep.advert_cases ha with hold | ⟨r, hr, -, -, hcost⟩
    · exact h.flight a hold rfl
    · exact hcost ▸ (h.table _ r hr).1

/-- A node without a route for `d` of cost `K` or less. -/
def Cleared (d : Dest) (K : ℕ) (n : Node) (s : State Node End Dest) : Prop :=
  ∀ r, s.table n d = some r → K + 1 ≤ r.cost

/-- A cleared node stays cleared. Assumes: a settled state and a regime that does not originate
`d`. -/
theorem Cleared.step {latest : ℕ} {n : Node} (h : Cleared d K n s) (hsettled : Settled d K latest s)
    (hstep : Step P regime s s') (hdead : ¬ regime.originates d) : Cleared d K n s' := by
  intro r hr
  rcases hstep.route_cases hr with hold | ⟨a, ha, hdest, -, -, hcost, -⟩ | ⟨horiginates, -⟩
  · exact h r hold
  · exact hcost ▸ Nat.succ_le_succ (hsettled.flight a ha hdest)
  · exact absurd horiginates hdead

/-- When every node is cleared the floor is one higher. Assumes: no advert in flight was sent at or
after `start`. -/
theorem Settled.raise {latest start : ℕ} (h : Settled d K latest s)
    (hcleared : ∀ n, Cleared d K n s) (hstart : ∀ a ∈ s.flight, a.sentAt < start) :
    Floor d (K + 1) start s :=
  ⟨fun n r hr ↦ hcleared n r hr, fun a ha hdest ↦ Nat.succ_le_succ (h.flight a ha hdest),
    fun a ha _ hrecent ↦ absurd (hstart a ha) (Nat.not_lt.mpr hrecent)⟩

end IpRipStack.DistanceVector
