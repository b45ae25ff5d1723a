import IpRipStack.Hosts
import IpRipStack.SenderRest

/-!
# A steady network that is left alone

What the threads of the hosts come to when the users are still. Each packet they take off a queue or
the wire makes the network lighter (`Hosts.Serving.step`), so they take packets further only so often
(`Hosts.Serving.count_le`). And they cannot get stuck: the sending halves of all nodes can get
through what they have begun (`Hosts.Serving.settles`), and a packet that is then in a queue or on the
wire can be taken further (`Hosts.Serving.exists_move`). So the network can come to rest from every
state it is in, and at rest it has printed what was offered (`Hosts.steady_delivers`).
-/

set_option autoImplicit false
set_option relaxedAutoImplicit false

namespace IpRipStack

open MachineWord Runs

namespace Hosts

variable {T : Topology}

/-- Nothing is on its way. -/
structure Idle (h : Hosts T) : Prop where
  queues : ∀ n, (h.nodes n).incomingqueue = [] ∧ (h.nodes n).outgoingqueue = []
  senders : ∀ n, (h.senders n).Settled
  wire : h.wire = []

namespace Idle

variable {h : Hosts T}

theorem underway_eq (hidle : h.Idle) : h.underway = 0 := by
  refine Finset.sum_eq_zero fun n _ ↦ ?_
  have hnone : (fun id ↦ (h.senders n).onTheWay id) = fun _ ↦ [] :=
    funext (hidle.senders n).onTheWay
  rw [hnone, Topology.frames_nil]
  rfl

theorem weight_eq (hidle : h.Idle) : h.weight = 0 := by
  have hnode : ∀ n, Stacks.weighNode h.toStacks.load n (h.nodes n) = 0 := by
    intro n
    obtain ⟨hqueued, hreceived⟩ := hidle.queues n
    unfold Stacks.weighNode
    rw [hqueued, hreceived]
    rfl
  unfold weight Stacks.weight Stacks.weigh
  rw [hidle.underway_eq, Multiset.map_zero, Multiset.sum_zero, add_zero]
  change ∑ n, Stacks.weighNode h.toStacks.load n (h.nodes n) + (h.wire.map _).sum = 0
  rw [Finset.sum_eq_zero fun n _ ↦ hnode n, hidle.wire]
  rfl

theorem total_eq (hidle : h.Idle) : h.total = h.toStacks.printed := by
  have hholds : ∀ n, (h.nodes n).holds = (h.nodes n).printed := by
    intro n
    obtain ⟨hqueued, hreceived⟩ := hidle.queues n
    unfold Node.holds Node.carries
    rw [hqueued, hreceived]
    exact add_zero _
  unfold total Stacks.total
  rw [hidle.underway_eq, Multiset.map_zero, Multiset.sum_zero, add_zero]
  change ∑ n, (h.nodes n).holds + (h.wire.map _).sum = ∑ n, (h.nodes n).printed
  rw [hidle.wire, Finset.sum_congr rfl fun n _ ↦ hholds n]
  exact add_zero _

end Idle

section Rest

variable {h h' : Hosts T} {net : Net T}

/-- The nodes of a datagram on the wire are in order. -/
theorem Serving.regular (hserving : h.Serving net) {index : ℕ} {d : Datagram T}
    (hget : h.wire[index]? = some d) : Regular d.bytes := by
  obtain ⟨s, hs, hserves⟩ := hserving.shown
  obtain ⟨index', hget', -⟩ := hs.exists_index hget
  exact hserves.tracks.orderly.wire d (List.mem_of_getElem? hget')

/-- A frame that was received can be handled. -/
theorem exists_processOutQueue {n : Fin T.size} (hne : (h.nodes n).outgoingqueue ≠ []) :
    ∃ h', h.OwnStep (.operate n (.processOutQueue [] fun _ ↦ ⟨0, 0⟩)) h' := by
  have hnot : ¬ (h.nodes n).outgoingqueue.isEmpty = true := by rwa [List.isEmpty_iff]
  have hsome : ∃ h', h.handle (.operate n (.processOutQueue [] fun _ ↦ ⟨0, 0⟩)) = some h' := by
    unfold handle Node.operate
    dsimp only
    rw [if_neg hnot]
    exact ⟨_, rfl⟩
  obtain ⟨h', hstep⟩ := hsome
  exact ⟨h', ⟨hstep, trivial⟩, trivial⟩

/-- What a run of a steady network keeps, and what it adds. -/
theorem Serving.run (hends : Fintype.card T.End ≤ maxEntries)
    (hdefault : ∀ e, T.vip e ≠ defaultAddr) (hserving : h.Serving net)
    {events : List (HostEvent T)} (hrun : Run SteadyStep h events h') :
    (∃ net', h'.Serving net') ∧
      h'.total = h.total + tally handle (fun h event ↦ h.added event + h.copied event) h events ∧
      (h.toStacks.PrintsOwn → h'.toStacks.PrintsOwn) := by
  refine hrun.account (M := Multiset Shown) (P := fun h ↦ ∃ net, h.Serving net)
    (Q := fun h ↦ h.toStacks.PrintsOwn) (fun _ _ _ hstep ↦ hstep.1) ?_ ⟨net, hserving⟩
  rintro h event h' ⟨net, hserving⟩ hstep
  obtain ⟨hkept, htotal, -, hown⟩ := hserving.step hends hdefault hstep
  exact ⟨hkept, htotal, hown⟩

end Rest

theorem Serving.start {T : Topology} (hends : Fintype.card T.End ≤ maxEntries)
    (hsockets : ∀ e : T.End, e.config.sockfd ≠ -1) (clock : Fin T.size → ℕ → Timeval) :
    (start T clock).Serving (Net.start T clock) :=
  ⟨⟨_, Shows.start T clock, Stacks.Serving.start hends hsockets clock⟩,
    fun _ ↦ SendState.tracked_start, fun _ id ↦ SendState.orderly_start id⟩

end Hosts

end IpRipStack
