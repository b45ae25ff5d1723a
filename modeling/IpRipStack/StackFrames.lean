import IpRipStack.Stacks

/-!
# Where the frames of a network come from

A thread takes frames off one queue of its node and adds packets to the other. `Node.Queued` says
which (`Node.operate_frames`): messages of the routing layer, the packet of a user, or the first of
the received frames, sent on. Everything else moves frames about. So a property of frames and the
nodes they are on their way to holds of all frames in the network if it survives the step and is
true of what is queued (`Stacks.Everywhere.step`).
-/

set_option autoImplicit false
set_option relaxedAutoImplicit false

namespace IpRipStack

open MachineWord Runs

namespace Node

/-- What an operation adds to the packets that wait to be sent: messages of the routing layer, the
packet of a user with the interface its destination is looked up to, the first of the received
frames sent on by the interface its destination is looked up to. -/
inductive Queued (node : Node) : NodeOp → IpMsg → Prop
  | update {op : NodeOp} {msg : IpMsg} (src dest : UInt32) (payload : List UInt8) (datasz : ℕ)
    (hpacket : msg.packet = buildIpPacket node.order src dest ripProto payload datasz) :
    Queued node op msg
  | offer {dest : UInt32} {proto : UInt8} {payload : List UInt8} {id : ℕ} {ifc : LinkLayer}
    (hfound : node.getInterface (node.getNextAddress (ntohl node.order dest) defaultAddr) = some id)
    (hget : node.interfaces[id]? = some ifc) :
    Queued node (.application dest proto payload) ⟨id, 20 + payload.length,
      buildIpPacket node.order ifc.vipLocal (ntohl node.order dest) proto payload payload.length⟩
  | onward {stale : List UInt8} {clock : ℕ → Timeval} {first : RcvMsg} {id : ℕ}
    (hfirst : first ∈ node.outgoingqueue.head?) (hproto : byteAt first.ippkt 9 ≠ ripProto)
    (hdest : node.isDestinedToMe (destination first.ippkt) = false)
    (hword : forwardedTtl node.order first.ippkt ≠ 0)
    (hfound : node.getInterface (node.getNextAddress (destination first.ippkt) defaultAddr) =
      some id) :
    Queued node (.processOutQueue stale clock)
      ⟨id, first.ippkt.length, forwardedFrame node.order first.ippkt⟩

/-- What one thread does to the queues: it only takes off the queue of received frames, and only
adds to the other. -/
theorem operate_frames {node node' : Node} (h : node.Orderly) {op : NodeOp}
    (hstep : node.operate op = some node') :
    (∀ msg ∈ node'.outgoingqueue, msg ∈ node.outgoingqueue) ∧
    ∃ queue, node'.incomingqueue = node.incomingqueue ++ queue ∧ ∀ msg ∈ queue, node.Queued op msg := by
  have hupdates : ∀ base : Node, base.QueuesMessages → base.order = node.order →
      ∀ msg ∈ base.incomingqueue, node.Queued op msg := by
    intro base hbase horder msg hmsg
    obtain ⟨msgType, id, ifc, -, rfl⟩ := hbase msg hmsg
    have hpacket : (base.ripPacket msgType id ifc).packet = buildIpPacket base.order ifc.vipLocal
        ifc.vipRemote ripProto _ _ := rfl
    rw [horder] at hpacket
    exact Queued.update _ _ _ _ hpacket
  have hnone : ∀ msg ∈ ([] : List IpMsg), node.Queued op msg :=
    fun msg hmsg ↦ absurd hmsg List.not_mem_nil
  cases op with
  | command c =>
    change node.execute c = some node' at hstep
    rw [execute_eq_absorb] at hstep
    obtain ⟨base, hbase, rfl⟩ := Option.map_eq_some_iff.mp hstep
    exact ⟨fun _ hmsg ↦ hmsg, base.incomingqueue, rfl,
      hupdates base (execute_queuesMessages rfl hbase) (execute_sameLinks hbase).order⟩
  | application dest proto payload =>
    obtain rfl := Option.some.inj hstep
    rcases node.transferApplicationToIp_eq dest proto payload with ⟨-, hsame⟩ |
      ⟨id, ifc, hfound, hget, hqueued⟩
    · rw [hsame]
      exact ⟨fun _ hmsg ↦ hmsg, [], (List.append_nil _).symm, hnone⟩
    · rw [hqueued]
      refine ⟨fun _ hmsg ↦ hmsg, _, rfl, fun msg hmsg ↦ ?_⟩
      rw [List.mem_singleton.mp hmsg]
      exact Queued.offer hfound hget
  | processOutQueue stale clock =>
    obtain ⟨msg, rest, hqueue, rfl⟩ := operate_processOutQueue hstep
    have hmsg := h.received msg (by rw [hqueue]; exact List.mem_cons_self)
    have hrest : ∀ msg' ∈ rest, msg' ∈ node.outgoingqueue := by
      intro msg' hmsg'
      rw [hqueue]
      exact List.mem_cons_of_mem _ hmsg'
    rw [← hmsg.length, List.take_length]
    rcases hmsg.regular.transferData_cases { node with outgoingqueue := rest } stale msg.next clock
      with ⟨-, hrun⟩ | ⟨-, -, delivery, -, hrun⟩ | ⟨-, -, -, hrun⟩ |
        ⟨hproto, hdest, hword, id, hfound, hrun⟩
    · rw [hrun]
      split_ifs
      · rw [transferIpToRip_eq_absorb]
        have hsame := (bare { node with outgoingqueue := rest }).transferIpToRip_sameLinks
          (ripPayload (msg.ippkt ++ stale)) msg.next clock
        exact ⟨hrest, _, rfl, hupdates _ (transferIpToRip_queuesMessages rfl _ _ _) hsame.order⟩
      · exact ⟨hrest, [], (List.append_nil _).symm, hnone⟩
    · rw [hrun]
      exact ⟨hrest, [], (List.append_nil _).symm, hnone⟩
    · rw [hrun]
      exact ⟨hrest, [], (List.append_nil _).symm, hnone⟩
    · rw [hrun]
      refine ⟨hrest, _, rfl, fun msg' hmsg' ↦ ?_⟩
      rw [List.mem_singleton.mp hmsg']
      refine Queued.onward ?_ hproto hdest hword hfound
      rw [hqueue]
      rfl

end Node

namespace Stacks

variable {T : Topology}

/-- All frames in the queues and on the wire, each on its way to a node. -/
structure Everywhere (P : Fin T.size → List UInt8 → Prop) (s : Stacks T) : Prop where
  queued : ∀ n, ∀ msg ∈ (s.nodes n).incomingqueue, ∀ h : msg.ifc < (T.links n).length,
    P (T.peer ⟨n, msg.ifc, h⟩).1 msg.packet
  wire : ∀ d ∈ s.wire, P (T.peer d.source).1 d.bytes
  received : ∀ n, ∀ msg ∈ (s.nodes n).outgoingqueue, P n msg.ippkt

/-- What a thread adds to the packets that wait. -/
def Queues (s : Stacks T) (P : Fin T.size → List UInt8 → Prop) (event : StackEvent T) : Prop :=
  ∀ n op msg, event = .operate n op → (s.nodes n).Queued op msg →
    ∀ h : msg.ifc < (T.links n).length, P (T.peer ⟨n, msg.ifc, h⟩).1 msg.packet

/-- Assumes: what is true of all frames in the network, follows from what was true of them, and is
true of what a thread adds to the packets that wait. -/
theorem Everywhere.step {P P' : Fin T.size → List UInt8 → Prop}
    (hmono : ∀ n bytes, P n bytes → P' n bytes) {s s' : Stacks T} (h : s.Orderly)
    (hall : s.Everywhere P) {event : StackEvent T} (hqueues : s.Queues P' event)
    (hstep : s.Step event s') : s'.Everywhere P' := by
  have hput : ∀ {n : Fin T.size} {node : Node} {wire : List (Datagram T)},
      (∀ msg ∈ node.incomingqueue, msg ∈ (s.nodes n).incomingqueue ∨
        ∀ h : msg.ifc < (T.links n).length, P' (T.peer ⟨n, msg.ifc, h⟩).1 msg.packet) →
      (∀ msg ∈ node.outgoingqueue, P' n msg.ippkt) →
      (∀ d ∈ wire, P' (T.peer d.source).1 d.bytes) →
        Everywhere P' ⟨(s.put n node).nodes, wire⟩ := by
    intro n node wire hqueued hreceived hwire
    refine ⟨?_, hwire, ?_⟩
    · refine forall_put (P := fun m node ↦ ∀ msg ∈ node.incomingqueue,
        ∀ h : msg.ifc < (T.links m).length, P' (T.peer ⟨m, msg.ifc, h⟩).1 msg.packet)
        (fun m msg hmsg hifc ↦ hmono _ _ (hall.queued m msg hmsg hifc)) fun msg hmsg hifc ↦ ?_
      rcases hqueued msg hmsg with hold | hnew
      · exact hmono _ _ (hall.queued n msg hold hifc)
      · exact hnew hifc
    · exact forall_put (P := fun m node ↦ ∀ msg ∈ node.outgoingqueue, P' m msg.ippkt)
        (fun m msg hmsg ↦ hmono _ _ (hall.received m msg hmsg)) hreceived
  have hwire : ∀ d ∈ s.wire, P' (T.peer d.source).1 d.bytes :=
    fun d hd ↦ hmono _ _ (hall.wire d hd)
  have hreceived : ∀ n, ∀ msg ∈ (s.nodes n).outgoingqueue, P' n msg.ippkt :=
    fun n msg hmsg ↦ hmono _ _ (hall.received n msg hmsg)
  cases event with
  | operate n op =>
    obtain ⟨node, hoperate, rfl⟩ := Option.map_eq_some_iff.mp hstep
    obtain ⟨hkept, queue, hqueue, hadded⟩ := Node.operate_frames (h.nodes n) hoperate
    refine hput (fun msg hmsg ↦ ?_) (fun msg hmsg ↦ hreceived n msg (hkept msg hmsg)) hwire
    rw [hqueue] at hmsg
    exact (List.mem_append.mp hmsg).imp_right fun hnew ↦ hqueues n op msg rfl (hadded msg hnew)
  | processInQueue n =>
    obtain ⟨msg, rest, hqueue, rfl⟩ := processInQueue_step hstep
    have hmsg : msg ∈ (s.nodes n).incomingqueue := by
      rw [hqueue]
      exact List.mem_cons_self
    refine hput (fun msg' hmsg' ↦ Or.inl ?_) (hreceived n) fun d hd ↦ ?_
    · rw [hqueue]
      exact List.mem_cons_of_mem _ hmsg'
    · rcases List.mem_append.mp hd with hold | hnew
      · exact hwire d hold
      · unfold Topology.sendFrame at hnew
        split_ifs at hnew with hifc
        · obtain rfl := List.mem_singleton.mp hnew
          dsimp only
          rw [← ((h.nodes n).queued msg hmsg).length, List.take_length]
          exact hmono _ _ (hall.queued n msg hmsg hifc)
        · exact absurd hnew List.not_mem_nil
        · exact absurd hnew List.not_mem_nil
  | recvData index stack =>
    obtain ⟨d, hget, rfl⟩ := recvData_step h hstep
    refine hput (fun _ hmsg ↦ Or.inl hmsg) (fun msg hmsg ↦ ?_) fun d' hd' ↦
      hwire d' (List.mem_of_mem_eraseIdx hd')
    rcases List.mem_append.mp hmsg with hold | hnew
    · exact hreceived _ msg hold
    · obtain rfl := List.mem_singleton.mp hnew
      dsimp only
      rw [List.take_length]
      exact hwire d (List.mem_of_getElem? hget)
  | lose index =>
    obtain rfl := Option.some.inj hstep
    exact ⟨fun n msg hmsg hifc ↦ hmono _ _ (hall.queued n msg hmsg hifc),
      fun d hd ↦ hwire d (List.mem_of_mem_eraseIdx hd), hreceived⟩
  | duplicate index =>
    obtain ⟨d, hget, rfl⟩ := Option.map_eq_some_iff.mp hstep
    refine ⟨fun n msg hmsg hifc ↦ hmono _ _ (hall.queued n msg hmsg hifc), fun d' hd' ↦ ?_,
      hreceived⟩
    rcases List.mem_append.mp hd' with hold | hnew
    · exact hwire d' hold
    · rw [List.mem_singleton.mp hnew]
      exact hwire d (List.mem_of_getElem? hget)

/-- Assumes: what is true of every frame that is built. -/
theorem Everywhere.start {P : Fin T.size → List UInt8 → Prop}
    (hbuilt : ∀ n order src dest payload datasz,
      P n (buildIpPacket order src dest ripProto payload datasz))
    (clock : Fin T.size → ℕ → Timeval) : (Stacks.start T clock).Everywhere P := by
  refine ⟨fun n msg hmsg hifc ↦ ?_, fun d hd ↦ absurd hd List.not_mem_nil, fun n msg hmsg ↦ ?_⟩
  · have hqueued : ((Stacks.start T clock).nodes n).QueuesMessages :=
      Node.prepareMsg_queuesMessages rfl 1
    obtain ⟨msgType, id, ifc, -, rfl⟩ := hqueued msg hmsg
    exact hbuilt _ _ _ _ _ _
  · change msg ∈ (Node.new (T.order n) (T.links n) (clock n)).outgoingqueue at hmsg
    rw [Node.new_outgoingqueue] at hmsg
    exact absurd hmsg List.not_mem_nil

end Stacks

theorem ttl_buildIpPacket (order : ByteOrder) (src dest : UInt32) (proto : UInt8)
    (payload : List UInt8) (datasz : ℕ) :
    ttl (buildIpPacket order src dest proto payload datasz) = maxCost := by
  cases order <;> rfl

end IpRipStack
