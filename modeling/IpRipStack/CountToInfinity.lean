import IpRipStack.Refinement
import IpRipStack.Library.DistanceVector.Decay

/-!
# Counting to infinity

An interface has been taken down and stays down, and the routes for its address are re-learned from
each other. Here the network has one clock that never goes back (`TimedStep`). An epoch
(`Net.Epoch`) is long enough for every packet sent before it to be gone, and for every node to sweep
its table more than the refresh time after the epoch began.

By `Library/DistanceVector/Decay` a pair of epochs raises the least cost of a route for the address
by one: after the first epoch the routes of least cost are not written any more, and in the second
they expire (`Net.Dying.epochs`). `Net.counting_bounded` puts the pairs together: after thirty-two
epochs the address is forgotten.
-/

set_option autoImplicit false
set_option relaxedAutoImplicit false

namespace IpRipStack

open MachineWord OrderedMap Runs

/-- A network and the time, in microseconds. -/
structure TimedNet (T : Topology) where
  now : ℕ
  net : Net T

namespace NetEvent

variable {T : Topology}

/-- Every clock reading of the event lies between two times. -/
def ReadsBetween (start stop : ℕ) : NetEvent T → Prop
  | .command _ (.refresh curtv) => start ≤ curtv.micros.toNat ∧ curtv.micros.toNat ≤ stop
  | .command _ (.up _ _ now) => start ≤ now.micros.toNat ∧ now.micros.toNat ≤ stop
  | .deliver _ _ clock => ∀ i, start ≤ (clock i).micros.toNat ∧ (clock i).micros.toNat ≤ stop
  | _ => True

/-- The interface at the end of a link is brought up. -/
def BringsUp (e : T.End) : NetEvent T → Prop
  | .command n (.up interface _ _) => n = e.1 ∧ interface = e.2.val
  | _ => False

theorem ReadsBetween.of_le {start now : ℕ} (hle : start ≤ now) {event : NetEvent T}
    (h : event.ReadsBetween now now) : event.ReadsBetween start now := by
  unfold ReadsBetween at h ⊢
  split
  · exact ⟨hle.trans h.1, h.2⟩
  · exact ⟨hle.trans h.1, h.2⟩
  · exact fun i ↦ ⟨hle.trans (h i).1, (h i).2⟩
  · exact trivial

end NetEvent

/-- One step of the network, during which the time goes on. -/
def TimedStep {T : Topology} (s : TimedNet T) (event : NetEvent T) (s' : TimedNet T) : Prop :=
  s.now ≤ s'.now ∧ event.ReadsBetween s.now s'.now ∧ s.net.Step event s'.net

namespace Net

variable {T : Topology}

/-- A step that leaves an interface down. -/
def DownStep (e : T.End) (s : TimedNet T) (event : NetEvent T) (s' : TimedNet T) : Prop :=
  TimedStep s event s' ∧ ¬ event.BringsUp e

/-- An epoch: a run in which the interface stays down, by whose end every packet sent before it is
gone, and in which every node has swept its table more than the refresh time after it began. -/
def Epoch (e : T.End) (s s' : TimedNet T) : Prop :=
  ∃ events, Run (DownStep e) s events s' ∧ (∀ f ∈ s'.net.flight, s.net.steps ≤ f.sentAt) ∧
    ∀ n, ∃ before curtv after, events = before ++ .command n (.refresh curtv) :: after ∧
      s.now + refreshTimerVal * 1000000 < curtv.micros.toNat

/-! ### Timed steps -/

/-- The regime of a timed step. -/
def timedRegime (originates : UInt32 → Prop) (now : ℕ) : DistanceVector.Regime UInt32 where
  originates := originates
  withdraws := True
  stamps t := t ≤ now

theorem permits_timed {originates : UInt32 → Prop} {s s' : TimedNet T} {event : NetEvent T}
    (hstep : TimedStep s event s')
    (horiginates : ∀ e : T.End, event.BringsUp e → originates (T.vip e)) :
    s.net.Permits (timedRegime originates s'.now) event := by
  obtain ⟨-, hreads, -⟩ := hstep
  unfold Permits
  unfold NetEvent.ReadsBetween at hreads
  split
  · exact trivial
  · exact Or.inl trivial
  · exact trivial
  · refine ⟨?_, hreads.2⟩
    rintro e rfl rfl
    exact horiginates e ⟨rfl, rfl⟩
  · exact fun i ↦ (hreads i).2
  · exact trivial

/-- What holds of the network and the time: no entry was written in the future, and learned entries
cost something. -/
structure Timely (s : TimedNet T) : Prop where
  valid : s.net.Valid
  written : DistanceVector.WrittenBy s.now s.net.abstract
  learned : DistanceVector.LearnedAtCost T.protocol s.net.abstract

/-- Every timed step is a sequence of moves that originate no addresses but those of interfaces that
are brought up. -/
theorem Timely.step {s s' : TimedNet T} (h : Timely s) {event : NetEvent T}
    (hstep : TimedStep s event s') (originates : UInt32 → Prop)
    (horiginates : ∀ e : T.End, event.BringsUp e → originates (T.vip e)) :
    Timely s' ∧ Relation.ReflTransGen
      (DistanceVector.Step T.protocol (timedRegime originates s'.now)) s.net.abstract
      s'.net.abstract := by
  have hmoves := h.valid.refines hstep.2.2 (permits_timed hstep horiginates)
  have hwritten : DistanceVector.WrittenBy s'.now s.net.abstract :=
    fun n d r hr ↦ (h.written n d r hr).trans hstep.1
  refine ⟨⟨h.valid.step hstep.2.2, ?_, ?_⟩, hmoves⟩
  · exact invariant_of_reflTransGen (fun _ _ hwritten hmove ↦ hwritten.step hmove fun _ ↦ id)
      hmoves hwritten
  · exact invariant_of_reflTransGen (fun _ _ hlearned hmove ↦ hlearned.step hmove) hmoves h.learned

/-- Assumes: constructors that read the clock by the time the network starts. -/
theorem Timely.start (T : Topology) {clock : Fin T.size → ℕ → Timeval} {now : ℕ}
    (hclock : ∀ n i, (clock n i).micros.toNat ≤ now) : Timely ⟨now, Net.start T clock⟩ := by
  have hown : ∀ n d r, (Net.start T clock).abstract.table n d = some r → T.Owns n d ∧
      r.stamp ≤ now := by
    intro n d r hr
    obtain ⟨ets, hets, rfl⟩ := Topology.state_table_eq_some.mp hr
    rcases start_getElem? T clock n d with ⟨-, hnone⟩ | ⟨howns, i, hentry⟩
    · exact absurd (hets.symm.trans hnone) (Option.some_ne_none ets)
    · rw [← Option.some.inj (hentry.symm.trans hets)]
      exact ⟨howns, hclock n i⟩
  exact ⟨Valid.start T clock, fun n d r hr ↦ (hown n d r hr).2,
    fun n d r hr hother ↦ absurd (hown n d r hr).1 hother⟩

/-- A run that leaves an interface down keeps what every move keeps that does not originate the
address of the interface. -/
theorem Timely.down_run {e : T.End} {I : DistanceVector.State (Fin T.size) T.End UInt32 → Prop}
    (hkeep : ∀ regime t t', ¬ regime.originates (T.vip e) → I t →
      DistanceVector.Step T.protocol regime t t' → I t')
    {s s' : TimedNet T} {events : List (NetEvent T)} (hrun : Run (DownStep e) s events s')
    (h : Timely s) (hI : I s.net.abstract) : Timely s' ∧ I s'.net.abstract := by
  let Kept (s : TimedNet T) : Prop := Timely s ∧ I s.net.abstract
  have hstep : ∀ s event s', Kept s → DownStep e s event s' → Kept s' := by
    rintro s event s' ⟨htimely, hI⟩ ⟨hstep, hdown⟩
    have hdead : ∀ e' : T.End, event.BringsUp e' → T.vip e' ≠ T.vip e := by
      intro e' hup hvip
      rw [T.vip_injective hvip] at hup
      exact hdown hup
    obtain ⟨htimely', hmoves⟩ := htimely.step hstep (· ≠ T.vip e) hdead
    have hnot : ¬ (timedRegime (· ≠ T.vip e) s'.now).originates (T.vip e) := fun hne ↦ hne rfl
    exact ⟨htimely', invariant_of_reflTransGen (fun t t' ↦ hkeep _ t t' hnot) hmoves hI⟩
  exact hrun.invariant hstep ⟨h, hI⟩

/-! ### Epochs -/

/-- A sweep leaves no entry for the address of another node that was written more than the refresh
time before it. -/
theorem Valid.not_swept {net net' : Net T} (h : net.Valid) {n : Fin T.size} {curtv : Timeval}
    (hstep : net.Step (.command n (.refresh curtv)) net') {d : UInt32} (howns : ¬ T.Owns n d)
    {ets : EntryWts} (hets : (net'.nodes n).rtable[d]? = some ets) :
    curtv.micros.toNat ≤ ets.ts.micros.toNat + refreshTimerVal * 1000000 := by
  obtain rfl := Option.some.inj hstep
  rw [put_nodes_self] at hets
  obtain ⟨-, hmine | hfresh⟩ := Node.refreshRouteTable_eq_some.mp hets
  · exact absurd ((Topology.isMyInterface_iff_owns (h.vips n) d).mp hmine) howns
  · rw [gt_iff_lt, UInt64.lt_iff_toNat_lt] at hfresh
    by_contra hold
    have hle : ets.ts.micros.toNat ≤ curtv.micros.toNat := by omega
    rw [UInt64.toNat_sub_of_le _ _ (UInt64.le_iff_toNat_le.mpr hle)] at hfresh
    have hlimit : (UInt64.ofNat (refreshTimerVal * 1000000)).toNat = refreshTimerVal * 1000000 := rfl
    omega

/-- The network is forgetting the address of an interface, and every entry for it costs at least
`K`. -/
structure Dying (e : T.End) (K : ℕ) (s : TimedNet T) : Prop where
  timely : Timely s
  disowned : DistanceVector.Disowned T.protocol (T.vip e) s.net.abstract
  floor : DistanceVector.Floor (T.vip e) K s.net.steps s.net.abstract

/-- The network between two epochs: no entry of cost `K` has been written after `latest`, and none
will be. -/
structure Fading (e : T.End) (K latest : ℕ) (s : TimedNet T) : Prop where
  timely : Timely s
  disowned : DistanceVector.Disowned T.protocol (T.vip e) s.net.abstract
  settled : DistanceVector.Settled (T.vip e) K latest s.net.abstract

theorem sentAt_of_mem_flight {net : Net T} (p : ℕ → Prop) (h : ∀ f ∈ net.flight, p f.sentAt) :
    ∀ a ∈ net.abstract.flight, p a.sentAt := by
  rintro a ⟨f, hf, -, hsentAt, -⟩
  rw [hsentAt]
  exact h f hf

/-- The first of two epochs: the packets that let an entry of least cost in are gone. -/
theorem Dying.fading {e : T.End} {K : ℕ} {s s' : TimedNet T} (h : Dying e K s)
    (hepoch : Epoch e s s') : Fading e K s'.now s' := by
  obtain ⟨events, hrun, hgone, -⟩ := hepoch
  have hkeep : ∀ regime t t', ¬ regime.originates (T.vip e) →
      DistanceVector.Disowned T.protocol (T.vip e) t ∧
        DistanceVector.Floor (T.vip e) K s.net.steps t →
      DistanceVector.Step T.protocol regime t t' →
      DistanceVector.Disowned T.protocol (T.vip e) t' ∧
        DistanceVector.Floor (T.vip e) K s.net.steps t' :=
    fun _ _ _ hdead ht hmove ↦ ⟨ht.1.step hmove hdead, ht.2.step hmove hdead⟩
  obtain ⟨htimely, hdisowned, hfloor⟩ := h.timely.down_run hkeep hrun ⟨h.disowned, h.floor⟩
  exact ⟨htimely, hdisowned, hfloor.settled (sentAt_of_mem_flight _ hgone) htimely.written⟩

section SecondEpoch

variable {e : T.End} {K latest : ℕ} {s s' : TimedNet T}

theorem Fading.run (h : Fading e K latest s) {events : List (NetEvent T)}
    (hrun : Run (DownStep e) s events s') : Fading e K latest s' := by
  have hkeep : ∀ regime t t', ¬ regime.originates (T.vip e) →
      DistanceVector.Disowned T.protocol (T.vip e) t ∧
        DistanceVector.Settled (T.vip e) K latest t →
      DistanceVector.Step T.protocol regime t t' →
      DistanceVector.Disowned T.protocol (T.vip e) t' ∧
        DistanceVector.Settled (T.vip e) K latest t' :=
    fun _ _ _ hdead ht hmove ↦ ⟨ht.1.step hmove hdead, ht.2.step hmove hdead⟩
  obtain ⟨htimely, hdisowned, hsettled⟩ := h.timely.down_run hkeep hrun ⟨h.disowned, h.settled⟩
  exact ⟨htimely, hdisowned, hsettled⟩

/-- A sweep more than the refresh time after `latest` leaves a node no entry of least cost. -/
theorem Fading.swept (h : Fading e K latest s) {n : Fin T.size} {curtv : Timeval}
    (hsweep : DownStep e s (.command n (.refresh curtv)) s')
    (hlate : latest + refreshTimerVal * 1000000 < curtv.micros.toNat) :
    DistanceVector.Cleared (T.vip e) K n s'.net.abstract := by
  have h' := h.run (Run.single hsweep)
  intro r hr
  obtain ⟨ets, hets, rfl⟩ := Topology.state_table_eq_some.mp hr
  have howns : ¬ T.Owns n (T.vip e) := by
    intro howns
    exact Option.some_ne_none _ (hr.symm.trans (h'.disowned n howns))
  have hfresh := h.timely.valid.not_swept hsweep.1.2.2 howns hets
  obtain ⟨hle, hold⟩ := h'.settled.table n _ hr
  refine Nat.succ_le_of_lt (lt_of_le_of_ne hle fun hleast ↦ ?_)
  have hwritten : ets.ts.micros.toNat ≤ latest := hold hleast.symm
  omega

/-- A node without an entry of least cost gets none. -/
theorem Fading.cleared_run (h : Fading e K latest s) {n : Fin T.size}
    (hcleared : DistanceVector.Cleared (T.vip e) K n s.net.abstract) {events : List (NetEvent T)}
    (hrun : Run (DownStep e) s events s') :
    DistanceVector.Cleared (T.vip e) K n s'.net.abstract := by
  have hkeep : ∀ regime t t', ¬ regime.originates (T.vip e) →
      DistanceVector.Settled (T.vip e) K latest t ∧ DistanceVector.Cleared (T.vip e) K n t →
      DistanceVector.Step T.protocol regime t t' →
      DistanceVector.Settled (T.vip e) K latest t' ∧ DistanceVector.Cleared (T.vip e) K n t' :=
    fun _ _ _ hdead ht hmove ↦ ⟨ht.1.step hmove hdead, ht.2.step ht.1 hmove hdead⟩
  exact (h.timely.down_run hkeep hrun ⟨h.settled, hcleared⟩).2.2

/-- Two epochs raise the least cost by one. -/
theorem Dying.epochs (h : Dying e K s) (hepochs : Relation.Comp (Epoch e) (Epoch e) s s') :
    Dying e (K + 1) s' := by
  obtain ⟨middle, hfirst, hsecond⟩ := hepochs
  have hfading := h.fading hfirst
  obtain ⟨events, hrun, -, hsweeps⟩ := hsecond
  obtain ⟨htimely, hdisowned, hsettled⟩ := hfading.run hrun
  refine ⟨htimely, hdisowned, hsettled.raise (fun n ↦ ?_)
    (sentAt_of_mem_flight (· < s'.net.steps) htimely.valid.sentAt)⟩
  obtain ⟨before, curtv, after, rfl, hlate⟩ := hsweeps n
  obtain ⟨u, hbefore, hrest⟩ := run_append_iff.mp hrun
  obtain ⟨v, hsweep, hafter⟩ := run_cons_iff.mp hrest
  have hfadingU := hfading.run hbefore
  exact (hfadingU.run (Run.single hsweep)).cleared_run (hfadingU.swept hsweep hlate) hafter

end SecondEpoch

/-- A network in which an interface is down is forgetting its address. -/
theorem Timely.dying {s : TimedNet T} (h : Timely s) {e : T.End}
    (hdown : ((s.net.nodes e.1).interfaces[e.2.val]?).any (fun ifc ↦ !ifc.isup) = true) :
    Dying e 1 s := by
  have hdisowned : DistanceVector.Disowned T.protocol (T.vip e) s.net.abstract := by
    rintro n ⟨e', rfl, hvip⟩
    obtain rfl := T.vip_injective hvip
    obtain ⟨ifc, hget, hvip⟩ := h.valid.exists_interface e'
    rw [hget, Option.any_some, Bool.not_eq_true'] at hdown
    have hnone := (h.valid.well e'.1).table.down ifc (List.mem_of_getElem? hget) hdown
    rw [abstract, Topology.state_table, ← hvip, hnone]
    rfl
  exact ⟨h, hdisowned, hdisowned.floor h.learned (sentAt_of_mem_flight (· < s.net.steps) h.valid.sentAt)⟩

/-- An interface is down in a state that the network reaches, and stays down. After `2 * k` epochs
every entry for its address costs more than `k`, and after thirty-two there is none. Packets are
attributed to the far end of their link. Assumes: constructors that read the clock by the time the
network starts. -/
theorem counting_bounded (T : Topology) (clock : Fin T.size → ℕ → Timeval) {now : ℕ}
    (hclock : ∀ n i, (clock n i).micros.toNat ≤ now) {s : TimedNet T}
    (hreach : Reachable TimedStep ⟨now, start T clock⟩ s) {e : T.End}
    (hdown : ((s.net.nodes e.1).interfaces[e.2.val]?).any (fun ifc ↦ !ifc.isup) = true) :
    (∀ k s', Iterate (Epoch e) (2 * k) s s' → ∀ (n : Fin T.size) (ets : EntryWts),
      (s'.net.nodes n).rtable[T.vip e]? = some ets → k + 1 ≤ ets.e.cost.toNat) ∧
    ∀ s', Iterate (Epoch e) 32 s s' → ∀ n, (s'.net.nodes n).rtable[T.vip e]? = none := by
  have htimely : Timely s := hreach.invariant
    (fun _ _ _ h hstep ↦ (h.step hstep (fun _ ↦ True) fun _ _ ↦ trivial).1)
    (Timely.start T hclock)
  let DyingAfter (k : ℕ) (s : TimedNet T) : Prop := Dying e (k + 1) s
  have hpair : ∀ k s s', DyingAfter k s → Relation.Comp (Epoch e) (Epoch e) s s' →
      DyingAfter (k + 1) s' := fun k s s' h hepochs ↦ Dying.epochs h hepochs
  have hdying : ∀ k s', Iterate (Epoch e) (2 * k) s s' → DyingAfter k s' :=
    fun k s' hepochs ↦ hepochs.pairs.invariant hpair (htimely.dying hdown)
  have hfloor : ∀ k s', Iterate (Epoch e) (2 * k) s s' → ∀ (n : Fin T.size) (ets : EntryWts),
      (s'.net.nodes n).rtable[T.vip e]? = some ets → k + 1 ≤ ets.e.cost.toNat := by
    intro k s' hepochs n ets hets
    exact (hdying k s' hepochs).floor.table n _ (abstract_table hets)
  refine ⟨hfloor, fun s' hepochs n ↦ Option.eq_none_iff_forall_ne_some.mpr fun ets hets ↦ ?_⟩
  have hhigh : 17 ≤ ets.e.cost.toNat := hfloor 16 s' hepochs n ets hets
  have hbounded := (hdying 16 s' hepochs).timely.valid.costs n _ ets hets
  have hlow : ets.e.cost.toNat ≤ 16 := UInt32.le_iff_toNat_le.mp hbounded
  omega

/-! ### Two epochs of two nodes -/

/-- A run that happens at one moment, at or after the moment it starts from. -/
theorem down_run_at {e : T.End} {now : ℕ} {net net' : Net T} {events : List (NetEvent T)}
    (hrun : Run Step net events net')
    (hevents : ∀ event ∈ events, event.ReadsBetween now now ∧ ¬ event.BringsUp e) {start : ℕ}
    (hle : start ≤ now) (hsome : events ≠ [] ∨ start = now) :
    Run (DownStep e) ⟨start, net⟩ events ⟨now, net'⟩ := by
  induction hrun generalizing start with
  | nil net =>
    rw [hsome.resolve_left fun hne ↦ hne rfl]
    exact Run.nil _
  | @cons net middle _ event events hstep _ ih =>
    obtain ⟨hreads, hdown⟩ := hevents event List.mem_cons_self
    have hfirst : DownStep e ⟨start, net⟩ event ⟨now, middle⟩ :=
      ⟨⟨hle, hreads.of_le hle, hstep⟩, hdown⟩
    exact Run.cons hfirst
      (ih (fun event' h ↦ hevents event' (List.mem_cons_of_mem _ h)) le_rfl (Or.inr rfl))

/-- As many packets in flight are lost as a number says, and the tables of all nodes are swept. -/
def loseAndSweep (T : Topology) (flying : ℕ) (curtv : Timeval) : List (NetEvent T) :=
  List.replicate flying (.lose 0) ++
    (List.finRange T.size).map fun n ↦ .command n (.refresh curtv)

/-- An epoch in which nothing else happens. -/
theorem loseAndSweep_epoch (e : T.End) {start now flying : ℕ} {curtv : Timeval}
    (hnow : curtv.micros.toNat = now) {net net' : Net T}
    (hrun : (loseAndSweep T flying curtv).foldlM handle net = some net')
    (hgone : net'.flight.isEmpty = true) (hlate : start + refreshTimerVal * 1000000 < now) :
    Epoch e ⟨start, net⟩ ⟨now, net'⟩ := by
  have hevents : ∀ event ∈ loseAndSweep T flying curtv,
      event.ReadsBetween now now ∧ ¬ event.BringsUp e := by
    intro event hevent
    rcases List.mem_append.mp hevent with hlost | hswept
    · rw [List.eq_of_mem_replicate hlost]
      exact ⟨trivial, id⟩
    · obtain ⟨n, -, rfl⟩ := List.mem_map.mp hswept
      exact ⟨⟨hnow.ge, hnow.le⟩, id⟩
  have hsome : loseAndSweep T flying curtv ≠ [] := by
    refine List.append_ne_nil_of_right_ne_nil _ ?_
    exact List.ne_nil_of_mem (List.mem_map_of_mem (List.mem_finRange e.1))
  refine ⟨loseAndSweep T flying curtv, ?_, ?_, ?_⟩
  · exact down_run_at (run_iff.mpr hrun) hevents (by omega) (Or.inl hsome)
  · intro f hf
    rw [List.isEmpty_iff.mp hgone] at hf
    exact absurd hf List.not_mem_nil
  · intro n
    obtain ⟨before, after, hsplit⟩ := List.append_of_mem (List.mem_finRange n)
    refine ⟨List.replicate flying (.lose 0) ++ before.map fun n ↦ .command n (.refresh curtv), curtv,
      after.map fun n ↦ .command n (.refresh curtv), ?_, hnow.symm ▸ hlate⟩
    rw [loseAndSweep, hsplit, List.map_append, List.append_assoc]
    rfl

/-- One of two nodes has heard of the other's address before the other takes its interface down. -/
theorem counting_bounded_pair : ∃ s s' : TimedNet pair,
    Reachable TimedStep ⟨0, start pair fun _ _ ↦ ⟨0, 0⟩⟩ s ∧
    ((s.net.nodes (0 : Fin 2)).rtable[pair.vip (pairEnd 1)]?).isSome = true ∧
    Iterate (Epoch (pairEnd 1)) 2 s s' ∧ ∀ (n : Fin 2) (ets : EntryWts),
      (s'.net.nodes n).rtable[pair.vip (pairEnd 1)]? = some ets → 2 ≤ ets.e.cost.toNat := by
  let learn : List (NetEvent pair) :=
    [.command (1 : Fin 2) (.send 2), .deliver 2 [] fun _ ↦ ⟨0, 0⟩, .command (1 : Fin 2) (.down 0)]
  let hasRoute (net : Net pair) : Bool :=
    ((net.nodes (0 : Fin 2)).rtable[pair.vip (pairEnd 1)]?).isSome
  let isDown (net : Net pair) : Bool :=
    ((net.nodes (pairEnd 1).1).interfaces[(pairEnd 1).2.val]?).any fun ifc ↦ !ifc.isup
  have hrun : ((learn.foldlM handle (start pair fun _ _ ↦ ⟨0, 0⟩)).any fun net ↦
      hasRoute net && isDown net && ((loseAndSweep pair 3 ⟨12, 1⟩).foldlM handle net).any fun net' ↦
        net'.flight.isEmpty && ((loseAndSweep pair 0 ⟨24, 2⟩).foldlM handle net').any fun net'' ↦
          net''.flight.isEmpty) = true := by decide
  obtain ⟨net, hlearn, hnet⟩ := (Option.any_eq_true _ _).mp hrun
  obtain ⟨hnet, hfirst⟩ := (Bool.and_eq_true _ _).mp hnet
  obtain ⟨hroute, hdown⟩ := (Bool.and_eq_true _ _).mp hnet
  obtain ⟨net', hfirst, hnet'⟩ := (Option.any_eq_true _ _).mp hfirst
  obtain ⟨hgone, hsecond⟩ := (Bool.and_eq_true _ _).mp hnet'
  obtain ⟨net'', hsecond, hgone'⟩ := (Option.any_eq_true _ _).mp hsecond
  have hzero : (⟨0, 0⟩ : Timeval).micros.toNat = 0 := by decide +kernel
  have hlearned : ∀ event ∈ learn, event.ReadsBetween 0 0 ∧ ¬ event.BringsUp (pairEnd 1) := by
    simp only [learn, List.forall_mem_cons]
    exact ⟨⟨trivial, id⟩, ⟨fun _ ↦ ⟨Nat.zero_le _, hzero.le⟩, id⟩, ⟨trivial, id⟩,
      fun _ h ↦ absurd h List.not_mem_nil⟩
  have hreach : Reachable TimedStep ⟨0, start pair fun _ _ ↦ ⟨0, 0⟩⟩ ⟨0, net⟩ := by
    have hdownRun := down_run_at (run_iff.mpr hlearn) hlearned le_rfl (Or.inr rfl)
    exact ⟨learn, hdownRun.mono fun _ _ _ _ hstep ↦ hstep.1⟩
  have hepochs : Iterate (Epoch (pairEnd 1)) 2 ⟨0, net⟩ ⟨24000002, net''⟩ :=
    Iterate.succ (Iterate.succ (Iterate.zero _)
      (loseAndSweep_epoch (pairEnd 1) (by decide +kernel : _ = 12000001) hfirst hgone (by decide)))
      (loseAndSweep_epoch (pairEnd 1) (by decide +kernel) hsecond hgone' (by decide))
  obtain ⟨hcosts, -⟩ := counting_bounded pair (fun _ _ ↦ ⟨0, 0⟩) (fun _ _ ↦ hzero.le) hreach hdown
  exact ⟨_, _, hreach, hroute, hepochs, hcosts 1 _ hepochs⟩

end Net

end IpRipStack
