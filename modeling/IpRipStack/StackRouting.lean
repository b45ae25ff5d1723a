import IpRipStack.GroundedRoutes
import IpRipStack.SoundRoutes
import IpRipStack.StackFrames

/-!
# Routing between threads

The network of threads refines `Net`, in which a node handles a frame and sends what it queues all
at once. `Tracks` relates the two: the nodes are the same but for their queues, and a routing packet
that waits in a queue or is on the wire is in flight in `Net`. Threads that pass packets on are no
step of `Net`; a thread that handles a command or a routing packet is one step of it
(`Tracks.step`). So the queues, the order the threads work in, and what the wire does to the
datagrams add nothing to what the routing protocol does: every run of the threads leads to nodes
that `Net` reaches, by a run that withdraws no route if none of the threads does.

This needs the packets of the users to be told from those of the routing protocol. A node that sends
a packet on overwrites its protocol (`Node.Impersonates`).
-/

set_option autoImplicit false
set_option relaxedAutoImplicit false

namespace IpRipStack

open MachineWord Runs

/-- A packet of the user leaves the node as a packet of the routing protocol. -/
def Node.Impersonates (node : Node) : NodeOp → Prop
  | .application _ proto _ => proto = ripProto
  | .processOutQueue _ _ => ∃ msg ∈ node.outgoingqueue.head?,
    byteAt msg.ippkt 9 ≠ ripProto ∧ byteAt (forwardedFrame node.order msg.ippkt) 9 = ripProto
  | .command _ => False

instance (node : Node) (op : NodeOp) : Decidable (node.Impersonates op) :=
  match op with
  | .application _ proto _ => inferInstanceAs (Decidable (proto = ripProto))
  | .processOutQueue _ _ => inferInstanceAs (Decidable (∃ msg ∈ node.outgoingqueue.head?,
    byteAt msg.ippkt 9 ≠ ripProto ∧ byteAt (forwardedFrame node.order msg.ippkt) 9 = ripProto))
  | .command _ => inferInstanceAs (Decidable False)

/-- A frame that is sent from the end of a link is in flight there if it is a routing packet. -/
def Net.Carries {T : Topology} (net : Net T) (source : T.End) (frame : List UInt8) : Prop :=
  byteAt frame 9 = ripProto → ∃ f ∈ net.flight, f.source = source ∧ f.frame = frame

theorem Net.Carries.of_ne {T : Topology} (net : Net T) (source : T.End) {frame : List UInt8}
    (h : byteAt frame 9 ≠ ripProto) : net.Carries source frame :=
  fun hrip ↦ absurd hrip h

theorem Net.Carries.mono {T : Topology} {net net' : Net T} {source : T.End} {frame : List UInt8}
    (h : net.Carries source frame) (hflight : ∀ f ∈ net.flight, f ∈ net'.flight) :
    net'.Carries source frame := by
  intro hrip
  obtain ⟨f, hf, hsource, hframe⟩ := h hrip
  exact ⟨f, hflight f hf, hsource, hframe⟩

namespace Node

theorem execute_bare {node : Node} {c : Command} {base : Node}
    (h : node.bare.execute c = some base) :
    { base with incomingqueue := [] } = (node.absorb base).bare := by
  rw [execute_eq_absorb] at h
  obtain ⟨base', -, rfl⟩ := Option.map_eq_some_iff.mp h
  rfl

theorem transferIpToRip_bare (node : Node) (data : List UInt8) (next : UInt32)
    (clock : ℕ → Timeval) :
    { node.bare.transferIpToRip data next clock with incomingqueue := [] } =
      (node.absorb (node.bare.transferIpToRip data next clock)).bare := by
  rw [node.bare.transferIpToRip_eq_absorb]
  rfl

end Node

namespace Stacks

variable {T : Topology}

/-- A packet of a user becomes one of the routing protocol. -/
def Impersonates (s : Stacks T) : StackEvent T → Prop
  | .operate n op => (s.nodes n).Impersonates op
  | _ => False

instance (s : Stacks T) (event : StackEvent T) : Decidable (s.Impersonates event) :=
  match event with
  | .operate n op => inferInstanceAs (Decidable ((s.nodes n).Impersonates op))
  | .processInQueue _ => inferInstanceAs (Decidable False)
  | .recvData _ _ => inferInstanceAs (Decidable False)
  | .lose _ => inferInstanceAs (Decidable False)
  | .duplicate _ => inferInstanceAs (Decidable False)

/-- What takes routes away. -/
def Withdraws (s : Stacks T) : StackEvent T → Prop
  | .operate _ (.command (.down _)) => True
  | .operate n (.command (.refresh curtv)) =>
    ((s.nodes n).refreshRouteTable curtv).rtable ≠ (s.nodes n).rtable
  | _ => False

/-- The network of threads is in a state that `net` stands for. -/
structure Tracks (s : Stacks T) (net : Net T) : Prop where
  orderly : s.Orderly
  valid : net.Valid
  nodes : ∀ n, net.nodes n = (s.nodes n).bare
  queued : ∀ n, ∀ msg ∈ (s.nodes n).incomingqueue, ∀ h : msg.ifc < (T.links n).length,
    net.Carries ⟨n, msg.ifc, h⟩ msg.packet
  wire : ∀ d ∈ s.wire, net.Carries d.source d.bytes
  received : ∀ n, ∀ msg ∈ (s.nodes n).outgoingqueue, ∃ e : T.End, (T.peer e).1 = n ∧
    msg.next = T.vip (T.peer e) ∧ net.Carries e msg.ippkt

namespace Tracks

variable {s s' : Stacks T} {net : Net T}

/-- A step of one node that is no step of `Net`: the node is the same but for its queues, and what is
in the queues and on the wire was there before or is not of the routing protocol. -/
theorem silent (h : s.Tracks net) {n : Fin T.size} {node : Node} {wire : List (Datagram T)}
    (horderly : Orderly ⟨(s.put n node).nodes, wire⟩) (hbare : node.bare = (s.nodes n).bare)
    (hqueued : ∀ msg ∈ node.incomingqueue, msg ∈ (s.nodes n).incomingqueue ∨
      byteAt msg.packet 9 ≠ ripProto)
    (hwire : ∀ d ∈ wire, net.Carries d.source d.bytes)
    (hreceived : ∀ msg ∈ node.outgoingqueue, msg ∈ (s.nodes n).outgoingqueue ∨
      ∃ e : T.End, (T.peer e).1 = n ∧ msg.next = T.vip (T.peer e) ∧ net.Carries e msg.ippkt) :
    Tracks ⟨(s.put n node).nodes, wire⟩ net := by
  refine ⟨horderly, h.valid, ?_, ?_, hwire, ?_⟩
  · exact forall_put (P := fun m node ↦ net.nodes m = node.bare) h.nodes ((h.nodes n).trans hbare.symm)
  · refine forall_put (P := fun m node ↦ ∀ msg ∈ node.incomingqueue,
      ∀ hifc : msg.ifc < (T.links m).length, net.Carries ⟨m, msg.ifc, hifc⟩ msg.packet) h.queued ?_
    intro msg hmsg hifc
    rcases hqueued msg hmsg with hold | hnew
    · exact h.queued n msg hold hifc
    · exact Net.Carries.of_ne net _ hnew
  · refine forall_put (P := fun m node ↦ ∀ msg ∈ node.outgoingqueue, ∃ e : T.End, (T.peer e).1 = m ∧
      msg.next = T.vip (T.peer e) ∧ net.Carries e msg.ippkt) h.received fun msg hmsg ↦ ?_
    rcases hreceived msg hmsg with hold | hnew
    · exact h.received n msg hold
    · exact hnew

/-- A step of one node that is a step of `Net`. -/
theorem put (h : s.Tracks net) {n : Fin T.size} {node base : Node}
    (horderly : (s.put n (node.absorb base)).Orderly)
    (hvalid : (net.put n base).Valid)
    (hbase : { base with incomingqueue := [] } = (node.absorb base).bare)
    (hqueued : node.incomingqueue = (s.nodes n).incomingqueue)
    (hreceived : ∀ msg ∈ node.outgoingqueue, msg ∈ (s.nodes n).outgoingqueue) :
    (s.put n (node.absorb base)).Tracks (net.put n base) := by
  have hflight : ∀ f ∈ net.flight, f ∈ (net.put n base).flight :=
    fun f hf ↦ List.mem_append.mpr (Or.inl hf)
  refine ⟨horderly, hvalid, ?_, ?_, ?_, ?_⟩
  · intro m
    by_cases hm : m = n
    · subst hm
      rw [net.put_nodes_self, s.put_nodes_self]
      exact hbase
    · rw [net.put_nodes_of_ne hm, s.put_nodes_of_ne hm]
      exact h.nodes m
  · intro m msg hmsg hifc
    by_cases hm : m = n
    · subst hm
      have hsends := (horderly.nodes m).queued msg hmsg
      rw [s.put_nodes_self] at hmsg
      rcases List.mem_append.mp hmsg with hold | hnew
      · exact (h.queued m msg (hqueued ▸ hold) hifc).mono hflight
      · refine fun _ ↦ ⟨⟨⟨m, msg.ifc, hifc⟩, msg.packet, net.steps⟩, ?_, rfl, rfl⟩
        refine List.mem_append.mpr (Or.inr (List.mem_filterMap.mpr ⟨msg, hnew, ?_⟩))
        rw [dif_pos hifc, ← hsends.length, List.take_length]
    · rw [s.put_nodes_of_ne hm] at hmsg
      exact (h.queued m msg hmsg hifc).mono hflight
  · intro d hd
    exact (h.wire d hd).mono hflight
  · intro m msg hmsg
    have hmsg' : msg ∈ (s.nodes m).outgoingqueue := by
      by_cases hm : m = n
      · subst hm
        rw [s.put_nodes_self] at hmsg
        exact hreceived msg hmsg
      · rwa [s.put_nodes_of_ne hm] at hmsg
    obtain ⟨e, hpeer, hnext, hcarries⟩ := h.received m msg hmsg'
    exact ⟨e, hpeer, hnext, hcarries.mono hflight⟩

/-- A matching step of `Net`, or none. -/
def Matched (s : Stacks T) (net : Net T) (event : StackEvent T) (s' : Stacks T) : Prop :=
  ∃ net', (net' = net ∨ ∃ event', net.Step event' net' ∧ (net.Withdraws event' → s.Withdraws event)) ∧
    s'.Tracks net'

/-- A command is one step of `Net`. -/
theorem command (h : s.Tracks net) {n : Fin T.size} {c : Command} (horderly : s'.Orderly)
    (hstep : s.Step (.operate n (.command c)) s') : Matched s net (.operate n (.command c)) s' := by
  obtain ⟨node, hexecute, rfl⟩ := Option.map_eq_some_iff.mp hstep
  change (s.nodes n).execute c = some node at hexecute
  rw [Node.execute_eq_absorb] at hexecute
  obtain ⟨base, hbase, rfl⟩ := Option.map_eq_some_iff.mp hexecute
  have hnet : net.Step (.command n c) (net.put n base) := by
    unfold Net.Step Net.handle
    dsimp only
    rw [h.nodes n, hbase]
    rfl
  refine ⟨net.put n base, Or.inr ⟨.command n c, hnet, ?_⟩, ?_⟩
  · unfold Net.Withdraws Stacks.Withdraws
    cases c with
    | send msgType => exact id
    | refresh curtv =>
      dsimp only
      rw [h.nodes n]
      exact id
    | down interface => exact id
    | up interface sockfd now => exact id
  · exact h.put horderly (h.valid.step hnet) (Node.execute_bare hbase) rfl fun _ hmsg ↦ hmsg

/-- Handling a received frame is one step of `Net` or none. Assumes: a packet of a user that stays
one. -/
theorem processOutQueue (h : s.Tracks net) {n : Fin T.size} {stale : List UInt8}
    {clock : ℕ → Timeval} (horderly : s'.Orderly)
    (hstep : s.Step (.operate n (.processOutQueue stale clock)) s')
    (hplain : ¬ (s.nodes n).Impersonates (.processOutQueue stale clock)) :
    Matched s net (.operate n (.processOutQueue stale clock)) s' := by
  obtain ⟨node', hoperate, rfl⟩ := Option.map_eq_some_iff.mp hstep
  obtain ⟨msg, rest, hqueue, rfl⟩ := Node.operate_processOutQueue hoperate
  have hmsg : msg ∈ (s.nodes n).outgoingqueue := by
    rw [hqueue]
    exact List.mem_cons_self
  have hrest : ∀ msg' ∈ rest, msg' ∈ (s.nodes n).outgoingqueue := by
    intro msg' hmsg'
    rw [hqueue]
    exact List.mem_cons_of_mem _ hmsg'
  have hattributed := (h.orderly.nodes n).received msg hmsg
  let node : Node := { s.nodes n with outgoingqueue := rest }
  rw [← hattributed.length, List.take_length] at horderly ⊢
  -- what is not handed to the routing layer leaves all but the queues alone
  have hsilent : ∀ node'' : Node, (s.put n node'').Orderly → node''.bare = (s.nodes n).bare →
      (∀ msg' ∈ node''.incomingqueue, msg' ∈ (s.nodes n).incomingqueue ∨
        byteAt msg'.packet 9 ≠ ripProto) → node''.outgoingqueue = rest →
      Matched s net (.operate n (.processOutQueue stale clock)) (s.put n node'') := by
    intro node'' horderly'' hbare hqueued hreceived
    refine ⟨net, Or.inl rfl, h.silent horderly'' hbare hqueued h.wire fun msg' hmsg' ↦ ?_⟩
    rw [hreceived] at hmsg'
    exact Or.inl (hrest msg' hmsg')
  rcases hattributed.regular.transferData_cases node stale msg.next clock with ⟨hproto, hrun⟩ |
    ⟨-, -, printed, -, hrun⟩ | ⟨-, -, -, hrun⟩ | ⟨hproto, -, -, id, -, hrun⟩
  · obtain ⟨e, rfl, hnext, hcarries⟩ := h.received n msg hmsg
    obtain ⟨f, hf, rfl, hframe⟩ := hcarries hproto
    obtain ⟨index, hindex⟩ := List.getElem?_of_mem hf
    have hgenuine := h.valid.flight f hf
    have hbare : node.bare = net.nodes (T.peer f.source).1 := (h.nodes _).symm
    rw [hnext, ← hframe] at hrun
    rw [hnext, ← hframe] at horderly ⊢
    rw [hrun] at horderly ⊢
    by_cases hup : (node.getInterface (T.vip (T.peer f.source))).any node.isUp = true
    · rw [if_pos hup, Node.transferIpToRip_eq_absorb, hbare] at horderly ⊢
      have hstep' : net.Step (.deliver index stale clock) (net.put (T.peer f.source).1
          ((net.nodes (T.peer f.source).1).transferIpToRip (ripPayload (f.frame ++ stale))
            (T.vip (T.peer f.source)) clock)) := by
        have hup' : ((net.nodes (T.peer f.source).1).getInterface (T.vip (T.peer f.source))).any
            (net.nodes (T.peer f.source).1).isUp = true := by
          rw [← hbare]
          exact hup
        have hreceive := hgenuine.receiveFrame_eq (h.valid.well (T.peer f.source).1).idle
          (T.vip (T.peer f.source)) stale clock
        rw [if_pos hup'] at hreceive
        unfold Net.Step Net.handle
        dsimp only
        rw [hindex, Option.map_some, hreceive]
      refine ⟨_, Or.inr ⟨_, hstep', fun hnot ↦ hnot⟩, ?_⟩
      refine h.put horderly (h.valid.step hstep') ?_ rfl hrest
      rw [← hbare]
      exact node.transferIpToRip_bare _ _ _
    · rw [if_neg hup] at horderly ⊢
      exact hsilent node horderly rfl (fun msg' hmsg' ↦ Or.inl hmsg') rfl
  · rw [hrun] at horderly ⊢
    exact hsilent _ horderly rfl (fun msg' hmsg' ↦ Or.inl hmsg') rfl
  · rw [hrun] at horderly ⊢
    exact hsilent node horderly rfl (fun msg' hmsg' ↦ Or.inl hmsg') rfl
  · rw [hrun] at horderly ⊢
    refine hsilent _ horderly rfl (fun msg' hmsg' ↦ ?_) rfl
    rcases List.mem_append.mp hmsg' with hold | hnew
    · exact Or.inl hold
    · rw [List.mem_singleton.mp hnew]
      refine Or.inr fun hrip ↦ hplain ⟨msg, ?_, hproto, hrip⟩
      rw [hqueue]
      rfl

/-- Every step of the threads that keeps the packets of the users apart is a step of `Net` or
none. -/
theorem step (h : s.Tracks net) {event : StackEvent T} (hstep : s.FitStep event s')
    (hplain : ¬ s.Impersonates event) : Matched s net event s' := by
  have horderly := h.orderly.step hstep
  obtain ⟨hstep, hfits⟩ := hstep
  cases event with
  | operate n op =>
    cases op with
    | command c => exact h.command horderly hstep
    | processOutQueue stale clock => exact h.processOutQueue horderly hstep hplain
    | application dest proto payload =>
      obtain rfl := Option.some.inj hstep
      refine ⟨net, Or.inl rfl, ?_⟩
      rcases (s.nodes n).transferApplicationToIp_eq dest proto payload with ⟨-, hsame⟩ |
        ⟨id, ifc, -, -, hqueued⟩
      · rw [hsame] at horderly ⊢
        exact h.silent horderly rfl (fun _ hmsg ↦ Or.inl hmsg) h.wire fun _ hmsg ↦ Or.inl hmsg
      · rw [hqueued] at horderly ⊢
        refine h.silent horderly rfl (fun msg hmsg ↦ ?_) h.wire fun _ hmsg ↦ Or.inl hmsg
        rcases List.mem_append.mp hmsg with hold | hnew
        · exact Or.inl hold
        · have hfield := protocol_buildIpPacket (s.nodes n).order ifc.vipLocal
            (ntohl (s.nodes n).order dest) proto payload payload.length []
          rw [List.append_nil] at hfield
          rw [List.mem_singleton.mp hnew, hfield]
          exact Or.inr hplain
  | processInQueue n =>
    obtain ⟨msg, rest, hqueue, rfl⟩ := processInQueue_step hstep
    have hmem : ∀ msg' ∈ rest, msg' ∈ (s.nodes n).incomingqueue := by
      intro msg' hmsg'
      rw [hqueue]
      exact List.mem_cons_of_mem _ hmsg'
    have hmsg : msg ∈ (s.nodes n).incomingqueue := by
      rw [hqueue]
      exact List.mem_cons_self
    refine ⟨net, Or.inl rfl, h.silent horderly rfl (fun msg' hmsg' ↦ Or.inl (hmem msg' hmsg'))
      (fun d hd ↦ ?_) fun _ hmsg' ↦ Or.inl hmsg'⟩
    rcases List.mem_append.mp hd with hold | hnew
    · exact h.wire d hold
    · unfold Topology.sendFrame at hnew
      split_ifs at hnew with hifc hsocket
      · obtain rfl := List.mem_singleton.mp hnew
        have hsends := (h.orderly.nodes n).queued msg hmsg
        dsimp only
        rw [← hsends.length, List.take_length]
        exact h.queued n msg hmsg hifc
      · exact absurd hnew List.not_mem_nil
      · exact absurd hnew List.not_mem_nil
  | recvData index stack =>
    obtain ⟨d, hget, rfl⟩ := recvData_step h.orderly hstep
    refine ⟨net, Or.inl rfl, h.silent horderly rfl (fun _ hmsg ↦ Or.inl hmsg)
      (fun d' hd' ↦ h.wire d' (List.mem_of_mem_eraseIdx hd')) fun msg hmsg ↦ ?_⟩
    rcases List.mem_append.mp hmsg with hold | hnew
    · exact Or.inl hold
    · obtain rfl := List.mem_singleton.mp hnew
      refine Or.inr ⟨d.source, rfl, rfl, ?_⟩
      dsimp only
      rw [List.take_length]
      exact h.wire d (List.mem_of_getElem? hget)
  | lose index =>
    obtain rfl := Option.some.inj hstep
    exact ⟨net, Or.inl rfl, horderly, h.valid, h.nodes, h.queued,
      fun d hd ↦ h.wire d (List.mem_of_mem_eraseIdx hd), h.received⟩
  | duplicate index =>
    obtain ⟨d, hget, rfl⟩ := Option.map_eq_some_iff.mp hstep
    refine ⟨net, Or.inl rfl, horderly, h.valid, h.nodes, h.queued, fun d' hd' ↦ ?_, h.received⟩
    rcases List.mem_append.mp hd' with hold | hnew
    · exact h.wire d' hold
    · rw [List.mem_singleton.mp hnew]
      exact h.wire d (List.mem_of_getElem? hget)

/-- The network of threads starts where `Net` starts. -/
theorem start {T : Topology} (hlinks : ∀ n, (T.links n).length ≤ maxEntries)
    (clock : Fin T.size → ℕ → Timeval) : (start T clock).Tracks (Net.start T clock) := by
  have horderly := Orderly.start hlinks clock
  refine ⟨horderly, Net.Valid.start T clock, fun n ↦ ?_, fun n msg hmsg hifc ↦ ?_, ?_, ?_⟩
  · let node := Node.new (T.order n) (T.links n) (clock n)
    have hreceived : node.outgoingqueue = [] := Node.new_outgoingqueue _ _ _
    have hprinted : node.output = [] := Node.new_output _ _ _
    change { node with incomingqueue := [] } = node.bare
    unfold Node.bare
    rw [hreceived, hprinted]
  · have hsends := (horderly.nodes n).queued msg hmsg
    refine fun _ ↦ ⟨⟨⟨n, msg.ifc, hifc⟩, msg.packet, 0⟩, ?_, rfl, rfl⟩
    refine List.mem_flatMap.mpr ⟨n, List.mem_finRange n, List.mem_filterMap.mpr ⟨msg, hmsg, ?_⟩⟩
    rw [dif_pos hifc, ← hsends.length, List.take_length]
  · exact fun d hd ↦ absurd hd List.not_mem_nil
  · intro n msg hmsg
    change msg ∈ (Node.new (T.order n) (T.links n) (clock n)).outgoingqueue at hmsg
    rw [Node.new_outgoingqueue] at hmsg
    exact absurd hmsg List.not_mem_nil

end Tracks

/-! ### Whole runs -/

/-- A step in which the packets of the users fit the buffers of the receivers and are not taken for
packets of the routing protocol. -/
def PlainStep (s : Stacks T) (event : StackEvent T) (s' : Stacks T) : Prop :=
  s.Step event s' ∧ event.Fits ∧ ¬ s.Impersonates event

/-- A step that takes no route away. -/
def StaticStep (s : Stacks T) (event : StackEvent T) (s' : Stacks T) : Prop :=
  s.PlainStep event s' ∧ ¬ s.Withdraws event

theorem length_links_le (hends : Fintype.card T.End ≤ maxEntries) (n : Fin T.size) :
    (T.links n).length ≤ maxEntries := by
  refine le_trans ?_ hends
  rw [Fintype.card_sigma]
  simp only [Fintype.card_fin]
  exact Finset.single_le_sum (f := fun n ↦ (T.links n).length) (fun _ _ ↦ Nat.zero_le _)
    (Finset.mem_univ n)

/-- Assumes: at most sixty-four interfaces in the whole network. Then no table outgrows a message. -/
theorem Tracks.fits (hends : Fintype.card T.End ≤ maxEntries) {s : Stacks T} {net : Net T}
    (h : s.Tracks net) (hgrounded : DistanceVector.Grounded T.protocol net.abstract)
    {event : StackEvent T} (hevent : event.Fits) : s.Fits event := by
  refine ⟨fun n ↦ ?_, hevent⟩
  have hsize := (Net.size_le_card hgrounded n).trans hends
  rwa [h.nodes n] at hsize

/-- Assumes: at most sixty-four interfaces in the whole network. Whatever the threads of the nodes
and the wire do, in whatever order: but for what is in the queues the nodes are in a state that
`Net` reaches, and every routing packet on its way is in flight there. If the threads take no route
away, `Net` reaches it without taking one away. -/
theorem threads_refine {T : Topology} (hends : Fintype.card T.End ≤ maxEntries)
    (clock : Fin T.size → ℕ → Timeval) {s : Stacks T} {events : List (StackEvent T)} :
    (Run PlainStep (start T clock) events s →
      ∃ net, Reachable Net.Step (Net.start T clock) net ∧ s.Tracks net) ∧
    (Run StaticStep (start T clock) events s →
      ∃ net, Reachable Net.StaticStep (Net.start T clock) net ∧ s.Tracks net) := by
  have hstart := Tracks.start (length_links_le hends) clock
  have hmatch : ∀ {s s' : Stacks T} {net : Net T} {event : StackEvent T},
      Reachable Net.Step (Net.start T clock) net → s.Tracks net → s.PlainStep event s' →
        Tracks.Matched s net event s' := by
    intro s s' net event hreach htracks ⟨hstep, hfits, hplain⟩
    obtain ⟨-, hgrounded⟩ := Net.grounded_of_reachable T clock hreach
    exact htracks.step ⟨hstep, htracks.fits hends hgrounded hfits⟩ hplain
  constructor
  · intro hrun
    refine hrun.invariant (P := fun s ↦ ∃ net, Reachable Net.Step (Net.start T clock) net ∧
      s.Tracks net) ?_ ⟨_, Reachable.init _, hstart⟩
    rintro s event s' ⟨net, hreach, htracks⟩ hstep
    obtain ⟨net', rfl | ⟨event', hstep', -⟩, htracks'⟩ := hmatch hreach htracks hstep
    · exact ⟨net', hreach, htracks'⟩
    · exact ⟨net', hreach.run (Run.cons hstep' (Run.nil net')), htracks'⟩
  · intro hrun
    refine hrun.invariant (P := fun s ↦ ∃ net, Reachable Net.StaticStep (Net.start T clock) net ∧
      s.Tracks net) ?_ ⟨_, Reachable.init _, hstart⟩
    rintro s event s' ⟨net, hreach, htracks⟩ ⟨hstep, hkeeps⟩
    have hreach' : Reachable Net.Step (Net.start T clock) net := by
      obtain ⟨events', hrun'⟩ := hreach
      exact ⟨events', hrun'.mono fun _ _ _ _ hstatic ↦ hstatic.1⟩
    obtain ⟨net', rfl | ⟨event', hstep', hwithdraws⟩, htracks'⟩ := hmatch hreach' htracks hstep
    · exact ⟨net', hreach, htracks'⟩
    · have hstatic : net.StaticStep event' net' := ⟨hstep', fun h ↦ hkeeps (hwithdraws h)⟩
      exact ⟨net', hreach.run (Run.cons hstatic (Run.nil net')), htracks'⟩

end Stacks

/-! ### Three nodes in a row -/

/-- Three nodes in a row, of given byte orders. -/
def chain (order : Fin 3 → ByteOrder) : Topology where
  size := 3
  order := order
  links n :=
    if n = 0 then [⟨3, 5001, 0x0A000001, 0x0A000002⟩]
    else if n = 1 then [⟨3, 5002, 0x0A000002, 0x0A000001⟩, ⟨4, 5003, 0x0A000003, 0x0A000004⟩]
    else [⟨3, 5004, 0x0A000004, 0x0A000003⟩]
  peer e :=
    if e.1 = 0 then ⟨1, 0, Nat.two_pos⟩
    else if e.1 = 2 then ⟨1, 1, Nat.one_lt_two⟩
    else if e.2.val = 0 then ⟨0, 0, Nat.one_pos⟩
    else ⟨2, 0, Nat.one_pos⟩
  peer_peer := by
    unfold Function.Involutive
    decide
  remote := by decide
  vip_injective := by
    unfold Function.Injective
    decide

/-- The thread of a node that handles received frames. -/
def handleFirst {order : Fin 3 → ByteOrder} (n : Fin 3) : StackEvent (chain order) :=
  .operate n (.processOutQueue [] fun _ ↦ ⟨0, 0⟩)

/-- The last node in a row `a`, `b`, `c` announces itself, the one before it passes that on, and the
user of the first sends a packet to the last, which is then on the wire to `b`. -/
def journey (order : Fin 3 → ByteOrder) (a b c : Fin 3) : List (StackEvent (chain order)) :=
  [.operate c (.command (.send 2)), .processInQueue c, .processInQueue c, .recvData 1 zeroStack,
    handleFirst b, .operate b (.command (.send 2)), .processInQueue b, .processInQueue b,
    .processInQueue b, .processInQueue b, .recvData 3 zeroStack, handleFirst a,
    .operate a (.application 0x0400000A 6 [104, 105]), .processInQueue a, .processInQueue a]

namespace Stacks

/-- The middle one is big-endian. -/
def mixed (n : Fin 3) : ByteOrder := if n.val = 1 then .big else .little

theorem journey_static {order : Fin 3 → ByteOrder} (s : Stacks (chain order)) (a b c : Fin 3) :
    ∀ event ∈ journey order a b c, ¬ s.Withdraws event := by
  unfold journey handleFirst
  simp only [List.forall_mem_cons]
  exact ⟨id, id, id, id, id, id, id, id, id, id, id, id, id, id, id, fun _ h ↦
    absurd h List.not_mem_nil⟩

/-- The first node hears of the last; `Net` reaches a state in which it has, too. -/
theorem threads_refine_chain : ∃ s, Run PlainStep (start (chain mixed) fun _ _ ↦ ⟨0, 0⟩)
    (journey mixed 0 1 2) s ∧ ∃ net ets,
      Reachable Net.Step (Net.start (chain mixed) fun _ _ ↦ ⟨0, 0⟩) net ∧
      (net.nodes (0 : Fin 3)).rtable[(0x0A000004 : UInt32)]? = some ets ∧ ets.e.cost = 2 ∧
      ∃ net', Reachable Net.StaticStep (Net.start (chain mixed) fun _ _ ↦ ⟨0, 0⟩) net' := by
  let Plain (s : Stacks (chain mixed)) (event : StackEvent (chain mixed)) : Prop :=
    event.Fits ∧ ¬ s.Impersonates event
  let hasRoute (s : Stacks (chain mixed)) : Bool :=
    ((s.nodes (0 : Fin 3)).rtable[(0x0A000004 : UInt32)]?).any fun ets ↦ ets.e.cost == 2
  have hrun : ((journey mixed 0 1 2).foldlM
      (fun s event ↦ if Plain s event then handle s event else none)
      (start (chain mixed) fun _ _ ↦ ⟨0, 0⟩)).any hasRoute = true := by decide
  obtain ⟨s, hs, hroute⟩ := (Option.any_eq_true _ _).mp hrun
  obtain ⟨ets, hets, hcost⟩ := (Option.any_eq_true _ _).mp hroute
  have hplain : Run PlainStep (start (chain mixed) fun _ _ ↦ ⟨0, 0⟩) (journey mixed 0 1 2) s :=
    Run.of_foldlM_if hs
  obtain ⟨hrefines, hstatic⟩ := threads_refine (T := chain mixed) (by decide) (fun _ _ ↦ ⟨0, 0⟩)
  obtain ⟨net, hreach, htracks⟩ := hrefines hplain
  obtain ⟨net', hreach', -⟩ := hstatic (hplain.mono fun s _ event hevent hstep ↦
    ⟨hstep, s.journey_static 0 1 2 event hevent⟩)
  refine ⟨s, hplain, net, ets, hreach, ?_, beq_iff_eq.mp hcost, net', hreach'⟩
  have hnode : net.nodes (0 : Fin 3) = (s.nodes (0 : Fin 3)).bare := htracks.nodes (0 : Fin 3)
  rw [hnode]
  exact hets

end Stacks

/-! ### Users cannot reach the routing layer -/

/-- The node in the middle handles the packet. -/
def crossing (order : Fin 3 → ByteOrder) (a b c : Fin 3) : List (StackEvent (chain order)) :=
  journey order a b c ++ [.recvData 5 zeroStack, handleFirst b]

/-- The users do not send packets of the routing protocol. -/
def StackEvent.Plain {T : Topology} : StackEvent T → Prop
  | .operate _ (.application _ proto _) => proto ≠ ripProto
  | _ => True

instance {T : Topology} (event : StackEvent T) : Decidable event.Plain :=
  match event with
  | .operate _ (.application _ proto _) => inferInstanceAs (Decidable (proto ≠ ripProto))
  | .operate _ (.command _) => inferInstanceAs (Decidable True)
  | .operate _ (.processOutQueue _ _) => inferInstanceAs (Decidable True)
  | .processInQueue _ => inferInstanceAs (Decidable True)
  | .recvData _ _ => inferInstanceAs (Decidable True)
  | .lose _ => inferInstanceAs (Decidable True)
  | .duplicate _ => inferInstanceAs (Decidable True)

/-- A packet is sent on as one of the routing protocol by a big-endian host alone, which stores the
time-to-live less one. -/
theorem storedProtocol_eq_iff (order : ByteOrder) (bytes : List UInt8) :
    storedProtocol order bytes = ripProto ↔ order = .big ∧ (ttl bytes).toNat = 201 := by
  have ht := (ttl bytes).toNat_lt
  rw [← UInt8.toNat_inj]
  cases order with
  | little =>
    have hstored : storedProtocol .little bytes = 255 := rfl
    rw [hstored]
    exact iff_of_false (by decide) fun h ↦ ByteOrder.noConfusion h.1
  | big =>
    unfold storedProtocol ripProto
    dsimp only
    rw [UInt8.toNat_sub, UInt8.toNat_one]
    refine ⟨fun h ↦ ⟨rfl, ?_⟩, fun h ↦ ?_⟩
    · change _ = 200 at h
      omega
    · rw [h.2]
      rfl

namespace Stacks

/-- Assumes: at most sixty-four interfaces in the whole network, hosts of one byte order, and users
whose packets fit and who do not send packets of the routing protocol themselves. Then no packet of
theirs is ever sent on as one, in any run of the threads. -/
theorem never_impersonated {T : Topology} (hends : Fintype.card T.End ≤ maxEntries)
    {order : ByteOrder} (horder : ∀ n, T.order n = order) (clock : Fin T.size → ℕ → Timeval)
    {s : Stacks T} {events : List (StackEvent T)}
    (hrun : Run (fun s event s' ↦ s.Step event s' ∧ event.Fits ∧ event.Plain) (start T clock) events
      s) : Run PlainStep (start T clock) events s := by
  let Young (bytes : List UInt8) : Prop := order = .big → (ttl bytes).toNat ≠ 201
  have hbuilt : ∀ order src dest proto payload datasz,
      Young (buildIpPacket order src dest proto payload datasz) := by
    intro order src dest proto payload datasz _
    rw [ttl_buildIpPacket]
    decide
  have hsent : ∀ n bytes, 20 ≤ bytes.length → Young (forwardedFrame (T.order n) bytes) := by
    intro n bytes hheader hbig
    rw [toNat_ttl_forwardedFrame _ hheader, horder n, hbig]
    dsimp only
    split_ifs <;> decide
  refine hrun.strengthen (P := fun s ↦ s.Everywhere (fun _ ↦ Young) ∧
    ∃ net, Reachable Net.Step (Net.start T clock) net ∧ s.Tracks net) ?_
    ⟨Everywhere.start (fun _ _ _ _ _ _ ↦ hbuilt _ _ _ _ _ _) clock, _, Reachable.init _,
      Tracks.start (length_links_le hends) clock⟩
  rintro s event s' ⟨hall, net, hreach, htracks⟩ ⟨hstep, hfits, hplain⟩
  have hnot : ¬ s.Impersonates event := by
    intro himpersonates
    cases event with
    | operate n op =>
      cases op with
      | command c => exact himpersonates
      | application dest proto payload => exact hplain himpersonates
      | processOutQueue stale clock =>
        obtain ⟨msg, hhead, -, hstored⟩ := himpersonates
        have hmsg := List.mem_of_head? hhead
        have hregular := ((htracks.orderly.nodes n).received msg hmsg).regular
        rw [protocol_forwardedFrame _ hregular.header, storedProtocol_eq_iff,
          htracks.orderly.order n, horder n] at hstored
        exact hall.received n msg hmsg hstored.1 hstored.2
    | _ => exact himpersonates
  obtain ⟨-, hgrounded⟩ := Net.grounded_of_reachable T clock hreach
  have hfit : s.FitStep event s' := ⟨hstep, htracks.fits hends hgrounded hfits⟩
  have hqueues : s.Queues (fun _ ↦ Young) event := by
    rintro n op msg - hqueued hifc
    cases hqueued with
    | update src dest payload datasz hpacket =>
      rw [hpacket]
      exact hbuilt _ _ _ _ _ _
    | offer hfound hget => exact hbuilt _ _ _ _ _ _
    | onward hfirst hproto hdest hword hfound =>
      have hregular := ((htracks.orderly.nodes n).received _ (List.mem_of_head? hfirst)).regular
      rw [htracks.orderly.order n]
      exact hsent n _ hregular.header
  refine ⟨⟨hstep, hfits, hnot⟩, hall.step (fun _ _ ↦ id) htracks.orderly hqueues hstep, ?_⟩
  obtain ⟨net', rfl | ⟨event', hstep', -⟩, htracks'⟩ := htracks.step hfit hnot
  · exact ⟨net', hreach, htracks'⟩
  · exact ⟨net', hreach.run (Run.cons hstep' (Run.nil net')), htracks'⟩

/-- The node in the middle sends the packet on, which is then of protocol 255. -/
theorem never_impersonated_chain : ∃ s, Run PlainStep
    (start (chain fun _ ↦ .little) fun _ _ ↦ ⟨0, 0⟩) (crossing (fun _ ↦ .little) 0 1 2) s := by
  let Plain (_ : Stacks (chain fun _ ↦ .little)) (event : StackEvent (chain fun _ ↦ .little)) :
      Prop := event.Fits ∧ event.Plain
  have hrun : ((crossing (fun _ ↦ .little) 0 1 2).foldlM
      (fun s event ↦ if Plain s event then handle s event else none)
      (start (chain fun _ ↦ .little) fun _ _ ↦ ⟨0, 0⟩)).isSome = true := by decide
  obtain ⟨s, hs⟩ := Option.isSome_iff_exists.mp hrun
  have hplain : Run (fun s event s' ↦ Step s event s' ∧ Plain s event)
    (start (chain fun _ ↦ .little) fun _ _ ↦ ⟨0, 0⟩) (crossing (fun _ ↦ .little) 0 1 2) s :=
    Run.of_foldlM_if hs
  exact ⟨s, never_impersonated (T := chain fun _ ↦ .little) (by decide) (fun _ ↦ rfl) _ hplain⟩

end Stacks

end IpRipStack
