import IpRipStack.Refinement
import IpRipStack.Stacks
import Mathlib.Algebra.Order.BigOperators.Group.Finset
import Mathlib.Algebra.Order.BigOperators.Group.Multiset
import Mathlib.Tactic.Abel

/-!
# The packets of the users

An account of the packets of the users in a network of threads. A frame that is not of the routing
protocol stands for what its last receiver will print (`content`); a network holds what its nodes
have printed and what is in their queues and on the wire (`Stacks.printed`, `Stacks.inTransit`). A
packet of a user adds what it will be printed as (`Node.offers`). No thread of a node adds anything
else: building and sending on keep the content of a frame or lose it (`Node.holds_operate`), and the
wire only adds by duplicating (`Stacks.total_step`).

`Stacks.packets_printed_once` is the balance of whole runs: what is printed was offered, however
often the wire duplicates; each packet is printed at most as often as it was offered if the wire
does not duplicate; and only the node that owns the destination prints it. In
`Stacks.packets_conserved` nothing is lost.
-/

set_option autoImplicit false
set_option relaxedAutoImplicit false

namespace IpRipStack

open MachineWord Runs

/-- What a frame holds for the users. -/
def content (bytes : List UInt8) : Multiset Shown :=
  if byteAt bytes 9 = ripProto then 0 else {shown bytes}

theorem content_of_rip {bytes : List UInt8} (h : byteAt bytes 9 = ripProto) : content bytes = 0 :=
  if_pos h

theorem content_of_ne {bytes : List UInt8} (h : byteAt bytes 9 ≠ ripProto) :
    content bytes = {shown bytes} :=
  if_neg h

/-- A frame that is sent on holds what it held or, if the stored protocol is the routing protocol,
nothing. -/
theorem content_forwardedFrame_le (order : ByteOrder) {bytes : List UInt8} (h : 20 ≤ bytes.length)
    (hproto : byteAt bytes 9 ≠ ripProto) : content (forwardedFrame order bytes) ≤ content bytes := by
  by_cases hstored : byteAt (forwardedFrame order bytes) 9 = ripProto
  · rw [content_of_rip hstored]
    exact Multiset.zero_le _
  · rw [content_of_ne hstored, content_of_ne hproto, shown_forwardedFrame order h]

namespace Node

/-- What the node has printed. -/
def printed (node : Node) : Multiset Shown := (node.output.map Delivery.shown : List Shown)

/-- What waits in the queues of the node. -/
def carries (node : Node) : Multiset Shown :=
  (node.incomingqueue.map fun msg ↦ content msg.packet).sum +
    (node.outgoingqueue.map fun msg ↦ content msg.ippkt).sum

def holds (node : Node) : Multiset Shown := node.printed + node.carries

/-- What a packet of the user will be printed as: it leaves with the address of the interface that
its destination is looked up to. Packets of the routing protocol are not printed. -/
def offers (node : Node) (dest : UInt32) (proto : UInt8) (payload : List UInt8) : Multiset Shown :=
  let hdest := ntohl node.order dest
  if proto = ripProto then 0
  else
    ((node.getInterface (node.getNextAddress hdest defaultAddr)).bind
        fun id ↦ node.interfaces[id]?).elim 0 fun ifc ↦
      {⟨ifc.vipLocal, hdest, payload.length, payload.takeWhile fun b ↦ b ≠ 0⟩}

theorem shown_buildIpPacket (order : ByteOrder) (src dest : UInt32) (proto : UInt8)
    (payload : List UInt8) : shown (buildIpPacket order src dest proto payload payload.length) =
      ⟨src, dest, payload.length, payload.takeWhile fun b ↦ b ≠ 0⟩ := by
  have hsaddr := saddr_buildIpPacket order .big src dest proto payload payload.length []
  have hdaddr := daddr_buildIpPacket order .big src dest proto payload payload.length []
  have hdata := drop_buildIpPacket order src dest proto payload payload.length []
  rw [List.append_nil] at hsaddr hdaddr hdata
  rw [List.append_nil, List.take_length] at hdata
  rw [ntohl_load32] at hsaddr hdaddr
  unfold shown destination
  rw [hsaddr, hdaddr, hdata, length_packet]
  congr 1
  omega

theorem content_ripPacket (node : Node) (msgType : UInt16) (id : ℕ) (ifc : LinkLayer) :
    content (node.ripPacket msgType id ifc).packet = 0 :=
  content_of_rip (node.protocol_ripPacket msgType id ifc)

/-- Messages of the routing layer hold nothing for the users. -/
theorem QueuesMessages.content_eq {node : Node} (h : node.QueuesMessages) :
    (node.incomingqueue.map fun msg ↦ content msg.packet).sum = 0 := by
  refine List.sum_eq_zero fun c hc ↦ ?_
  obtain ⟨msg, hmsg, rfl⟩ := List.mem_map.mp hc
  obtain ⟨msgType, id, ifc, -, rfl⟩ := h msg hmsg
  exact node.content_ripPacket msgType id ifc

/-- Absorbing a node that has queued messages of the routing layer. -/
theorem holds_absorb (node : Node) {base : Node} (h : base.QueuesMessages) :
    (node.absorb base).holds = node.holds := by
  unfold holds printed carries absorb
  dsimp only
  rw [List.map_append, List.sum_append, h.content_eq, add_zero]

theorem holds_queue (node : Node) (msg : IpMsg) :
    holds { node with incomingqueue := node.incomingqueue ++ [msg] } =
      node.holds + content msg.packet := by
  unfold holds printed carries
  dsimp only
  rw [List.map_append, List.sum_append, List.map_singleton, List.sum_singleton,
    add_right_comm _ (content msg.packet), ← add_assoc]

theorem holds_print (node : Node) (delivery : Delivery) :
    holds { node with output := node.output ++ [delivery] } = node.holds + {delivery.shown} := by
  unfold holds printed carries
  dsimp only
  rw [List.map_append, List.map_singleton, ← Multiset.coe_add, Multiset.coe_singleton]
  exact add_right_comm _ _ _

theorem holds_command {node node' : Node} {c : Command} (h : node.execute c = some node') :
    node'.holds = node.holds := by
  rw [execute_eq_absorb] at h
  obtain ⟨base, hbase, rfl⟩ := Option.map_eq_some_iff.mp h
  exact node.holds_absorb (execute_queuesMessages rfl hbase)

theorem holds_transferIpToRip (node : Node) (data : List UInt8) (next : UInt32)
    (clock : ℕ → Timeval) : (node.transferIpToRip data next clock).holds = node.holds := by
  rw [transferIpToRip_eq_absorb]
  exact node.holds_absorb (transferIpToRip_queuesMessages rfl data next clock)

/-- A packet of the user adds what it will be printed as. -/
theorem holds_application (node : Node) (dest : UInt32) (proto : UInt8) (payload : List UInt8) :
    (node.transferApplicationToIp dest proto payload payload.length).holds =
      node.holds + node.offers dest proto payload := by
  unfold offers
  dsimp only
  rcases node.transferApplicationToIp_eq dest proto payload with ⟨hfound, hsame⟩ |
    ⟨id, ifc, hfound, hget, hqueued⟩
  · rw [hsame, hfound]
    split_ifs
    · rw [add_zero]
    · exact (add_zero _).symm
  · rw [hqueued, holds_queue, hfound]
    have hfield := protocol_buildIpPacket node.order ifc.vipLocal (ntohl node.order dest) proto
      payload payload.length []
    rw [List.append_nil] at hfield
    split_ifs with hproto
    · rw [content_of_rip (hfield.trans hproto)]
    · rw [content_of_ne (fun h ↦ hproto (hfield.symm.trans h)), shown_buildIpPacket]
      simp only [Option.bind_some, hget, Option.elim_some]

/-- The node loses a packet of a user: it is not for the node, and its time-to-live is used up, or
there is no way on, or it is sent on as a packet of the routing protocol. -/
def Drops (node : Node) (bytes : List UInt8) : Prop :=
  byteAt bytes 9 ≠ ripProto ∧ node.isDestinedToMe (destination bytes) = false ∧
    (forwardedTtl node.order bytes = 0 ∨
      node.getInterface (node.getNextAddress (destination bytes) defaultAddr) = none ∨
      byteAt (forwardedFrame node.order bytes) 9 = ripProto)

instance (node : Node) (bytes : List UInt8) : Decidable (node.Drops bytes) :=
  inferInstanceAs (Decidable (_ ∧ _ ∧ (_ ∨ _ ∨ _)))

/-- What handling a frame does to what the node holds: nothing is added to what the frame held, and
nothing is lost unless the node drops it. -/
theorem holds_transferData (node : Node) {bytes : List UInt8} (h : Regular bytes)
    (stale : List UInt8) (next : UInt32) (clock : ℕ → Timeval) :
    let node' := node.transferData (bytes ++ stale) bytes.length next clock
    node'.holds ≤ node.holds + content bytes ∧
      (¬ node.Drops bytes → node'.holds = node.holds + content bytes) := by
  intro node'
  rcases h.transferData_cases node stale next clock with ⟨hproto, hrun⟩ |
    ⟨hproto, hdest, delivery, hshown, hrun⟩ | ⟨hproto, hdest, hlost, hrun⟩ |
    ⟨hproto, hdest, hword, id, hfound, hrun⟩
  · have hsame : node'.holds = node.holds + content bytes := by
      rw [content_of_rip hproto, add_zero]
      simp only [node', hrun]
      split_ifs
      · exact node.holds_transferIpToRip _ _ _
      · rfl
    exact ⟨hsame.le, fun _ ↦ hsame⟩
  · have hsame : node'.holds = node.holds + content bytes := by
      simp only [node', hrun]
      rw [holds_print, hshown, content_of_ne hproto]
    exact ⟨hsame.le, fun _ ↦ hsame⟩
  · have hsame : node' = node := hrun
    rw [hsame]
    refine ⟨le_add_of_nonneg_right (Multiset.zero_le _), fun hkeeps ↦ ?_⟩
    exact absurd ⟨hproto, hdest, hlost.imp_right Or.inl⟩ hkeeps
  · have hqueued : node'.holds = node.holds + content (forwardedFrame node.order bytes) := by
      simp only [node', hrun]
      exact node.holds_queue _
    rw [hqueued]
    refine ⟨?_, fun hkeeps ↦ ?_⟩
    · exact add_le_add_right (content_forwardedFrame_le node.order h.header hproto) _
    · have hstored : byteAt (forwardedFrame node.order bytes) 9 ≠ ripProto :=
        fun hrip ↦ hkeeps ⟨hproto, hdest, Or.inr (Or.inr hrip)⟩
      rw [content_of_ne hstored, content_of_ne hproto, shown_forwardedFrame node.order h.header]

/-- What an operation of a thread adds. -/
def added (node : Node) : NodeOp → Multiset Shown
  | .application dest proto payload => node.offers dest proto payload
  | _ => 0

/-- The thread that handles received frames loses a packet of a user. -/
def DropsFirst (node : Node) : NodeOp → Prop
  | .processOutQueue _ _ => ∃ msg ∈ node.outgoingqueue.head?, node.Drops msg.ippkt
  | _ => False

instance (node : Node) (op : NodeOp) : Decidable (node.DropsFirst op) :=
  match op with
  | .processOutQueue _ _ =>
    inferInstanceAs (Decidable (∃ msg ∈ node.outgoingqueue.head?, node.Drops msg.ippkt))
  | .command _ => inferInstanceAs (Decidable False)
  | .application _ _ _ => inferInstanceAs (Decidable False)

/-- What one thread does to what its node holds. -/
theorem holds_operate {node node' : Node} (h : node.Orderly) {op : NodeOp}
    (hstep : node.operate op = some node') : node'.holds ≤ node.holds + node.added op ∧
      (¬ node.DropsFirst op → node'.holds = node.holds + node.added op) := by
  cases op with
  | command c =>
    have hsame : node'.holds = node.holds + node.added (.command c) :=
      (holds_command hstep).trans (add_zero _).symm
    exact ⟨hsame.le, fun _ ↦ hsame⟩
  | application dest proto payload =>
    obtain rfl := Option.some.inj hstep
    have hsame := node.holds_application dest proto payload
    exact ⟨hsame.le, fun _ ↦ hsame⟩
  | processOutQueue stale clock =>
    obtain ⟨msg, rest, hqueue, rfl⟩ := operate_processOutQueue hstep
    have hmsg := h.received msg (by rw [hqueue]; exact List.mem_cons_self)
    have htaken : holds { node with outgoingqueue := rest } + content msg.ippkt = node.holds := by
      unfold holds printed carries
      dsimp only
      rw [hqueue, List.map_cons, List.sum_cons, add_comm (content msg.ippkt), add_assoc, add_assoc]
    obtain ⟨hle, hkeeps⟩ := holds_transferData { node with outgoingqueue := rest } hmsg.regular stale
      msg.next clock
    rw [htaken] at hle hkeeps
    rw [← hmsg.length, List.take_length]
    refine ⟨hle.trans_eq (add_zero _).symm, fun hnot ↦ ?_⟩
    refine (hkeeps fun hdrops ↦ hnot ⟨msg, ?_, hdrops⟩).trans (add_zero _).symm
    rw [hqueue]
    rfl

/-- A thread prints nothing, or a packet for one of the node's addresses. -/
theorem operate_output {node node' : Node} (h : node.Orderly) {op : NodeOp}
    (hstep : node.operate op = some node') : node'.output = node.output ∨
      ∃ delivery, node'.output = node.output ++ [delivery] ∧
        node.isDestinedToMe delivery.daddr = true := by
  cases op with
  | command c =>
    unfold operate at hstep
    dsimp only at hstep
    rw [execute_eq_absorb] at hstep
    obtain ⟨base, -, rfl⟩ := Option.map_eq_some_iff.mp hstep
    exact Or.inl rfl
  | application dest proto payload =>
    obtain rfl := Option.some.inj hstep
    obtain ⟨queue, hqueue⟩ := node.transferApplicationToIp_cases dest proto payload payload.length
    rw [hqueue]
    exact Or.inl rfl
  | processOutQueue stale clock =>
    obtain ⟨msg, rest, hqueue, rfl⟩ := operate_processOutQueue hstep
    have hmsg := h.received msg (by rw [hqueue]; exact List.mem_cons_self)
    rw [← hmsg.length, List.take_length]
    rcases hmsg.regular.transferData_cases { node with outgoingqueue := rest } stale msg.next clock
      with ⟨-, hrun⟩ | ⟨-, hdest, delivery, hshown, hrun⟩ | ⟨-, -, -, hrun⟩ | ⟨-, -, -, id, -, hrun⟩
    · rw [hrun]
      refine Or.inl ?_
      split_ifs
      · rw [transferIpToRip_eq_absorb]
        rfl
      · rfl
    · rw [hrun]
      refine Or.inr ⟨delivery, rfl, ?_⟩
      have hdaddr : delivery.daddr = destination msg.ippkt := congrArg Shown.daddr hshown
      rw [hdaddr]
      exact hdest
    · rw [hrun]
      exact Or.inl rfl
    · rw [hrun]
      exact Or.inl rfl

end Node

/-! ### The account of a network -/

namespace Stacks

variable {T : Topology}

/-- What the nodes have printed. -/
def printed (s : Stacks T) : Multiset Shown := ∑ n, (s.nodes n).printed

/-- What is in the queues and on the wire. -/
def inTransit (s : Stacks T) : Multiset Shown :=
  ∑ n, (s.nodes n).carries + (s.wire.map fun d ↦ content d.bytes).sum

def total (s : Stacks T) : Multiset Shown :=
  ∑ n, (s.nodes n).holds + (s.wire.map fun d ↦ content d.bytes).sum

theorem printed_add_inTransit (s : Stacks T) : s.printed + s.inTransit = s.total := by
  unfold printed inTransit total Node.holds
  rw [Finset.sum_add_distrib, add_assoc]

/-- What an event adds: the packet of a user. -/
def added (s : Stacks T) : StackEvent T → Multiset Shown
  | .operate n op => (s.nodes n).added op
  | _ => 0

/-- What the wire adds by duplicating a datagram. -/
def copied (s : Stacks T) : StackEvent T → Multiset Shown
  | .duplicate index => (s.wire[index]?).elim 0 fun d ↦ content d.bytes
  | _ => 0

/-- An event loses a packet of a user: a node drops it or sends it on as a packet of the routing
protocol, its interface has no socket, the wire loses it. -/
def Loses (s : Stacks T) : StackEvent T → Prop
  | .operate n op => (s.nodes n).DropsFirst op
  | .processInQueue n => ∃ msg ∈ (s.nodes n).incomingqueue.head?,
    byteAt msg.packet 9 ≠ ripProto ∧ T.sendFrame n (s.nodes n) msg = []
  | .lose index => ∃ d ∈ s.wire[index]?, byteAt d.bytes 9 ≠ ripProto
  | _ => False

instance (s : Stacks T) (event : StackEvent T) : Decidable (s.Loses event) :=
  match event with
  | .operate n op => inferInstanceAs (Decidable ((s.nodes n).DropsFirst op))
  | .processInQueue n => inferInstanceAs (Decidable (∃ msg ∈ (s.nodes n).incomingqueue.head?,
      byteAt msg.packet 9 ≠ ripProto ∧ T.sendFrame n (s.nodes n) msg = []))
  | .lose index => inferInstanceAs (Decidable (∃ d ∈ s.wire[index]?, byteAt d.bytes 9 ≠ ripProto))
  | .recvData _ _ => inferInstanceAs (Decidable False)
  | .duplicate _ => inferInstanceAs (Decidable False)

/-- Taking a datagram off the wire. -/
theorem content_add_eraseIdx {wire : List (Datagram T)} {index : ℕ} {d : Datagram T}
    (hget : wire[index]? = some d) :
    content d.bytes + ((wire.eraseIdx index).map fun d ↦ content d.bytes).sum =
      (wire.map fun d ↦ content d.bytes).sum := by
  obtain ⟨hindex, rfl⟩ := List.getElem?_eq_some_iff.mp hget
  have hperm := (List.getElem_cons_eraseIdx_perm hindex).map fun d ↦ content d.bytes
  rw [← hperm.sum_eq, List.map_cons, List.sum_cons]

/-- What replacing one node does to the total. -/
theorem total_put (s : Stacks T) (n : Fin T.size) (node : Node) (wire : List (Datagram T)) :
    total ⟨(s.put n node).nodes, wire⟩ + (s.nodes n).holds =
      ∑ m, (s.nodes m).holds + (wire.map fun d ↦ content d.bytes).sum + node.holds := by
  unfold total
  rw [add_right_comm, s.sum_put (fun _ ↦ Node.holds) n node, add_right_comm]

/-- What one thread of a node does to the total is what it does to what its node holds. -/
theorem total_operate {s : Stacks T} {n : Fin T.size} {node : Node} {amount : Multiset Shown}
    (hle : node.holds ≤ (s.nodes n).holds + amount) {keeps : Prop}
    (heq : keeps → node.holds = (s.nodes n).holds + amount) :
    (s.put n node).total ≤ s.total + amount ∧ (keeps → (s.put n node).total = s.total + amount) := by
  have hput : (s.put n node).total + (s.nodes n).holds = s.total + node.holds :=
    s.total_put n node s.wire
  constructor
  · refine le_of_add_le_add_right (a := (s.nodes n).holds) ?_
    calc (s.put n node).total + (s.nodes n).holds
        = s.total + node.holds := hput
      _ ≤ s.total + ((s.nodes n).holds + amount) := add_le_add_right hle _
      _ = s.total + amount + (s.nodes n).holds := by abel
  · intro hkeeps
    refine add_right_cancel (b := (s.nodes n).holds) ?_
    rw [hput, heq hkeeps]
    abel

/-- What is sent is what the packet held, or nothing. -/
theorem content_sendFrame (n : Fin T.size) (node : Node) {msg : IpMsg}
    (hlength : msg.packet.length = msg.size) :
    ((T.sendFrame n node msg).map fun d ↦ content d.bytes).sum ≤ content msg.packet ∧
      ((byteAt msg.packet 9 ≠ ripProto → T.sendFrame n node msg ≠ []) →
        ((T.sendFrame n node msg).map fun d ↦ content d.bytes).sum = content msg.packet) := by
  by_cases hsent : T.sendFrame n node msg = []
  · rw [hsent]
    refine ⟨Multiset.zero_le _, fun hkeeps ↦ ?_⟩
    have hrip : byteAt msg.packet 9 = ripProto := not_not.mp fun hproto ↦ hkeeps hproto rfl
    rw [content_of_rip hrip]
    rfl
  · have hsame : ((T.sendFrame n node msg).map fun d ↦ content d.bytes).sum =
        content msg.packet := by
      unfold Topology.sendFrame at hsent ⊢
      split_ifs at hsent ⊢
      · rw [List.map_singleton, List.sum_singleton, ← hlength, List.take_length]
      · exact absurd rfl hsent
      · exact absurd rfl hsent
    exact ⟨hsame.le, fun _ ↦ hsame⟩

theorem total_processInQueue {s : Stacks T} (h : s.Orderly) {n : Fin T.size} {msg : IpMsg}
    {rest : List IpMsg} (hqueue : (s.nodes n).incomingqueue = msg :: rest) :
    let s' : Stacks T := ⟨(s.put n { s.nodes n with incomingqueue := rest }).nodes,
      s.wire ++ T.sendFrame n (s.nodes n) msg⟩
    s'.total ≤ s.total ∧ ((byteAt msg.packet 9 ≠ ripProto → T.sendFrame n (s.nodes n) msg ≠ []) →
      s'.total = s.total) := by
  intro s'
  have hmsg : msg.Sendable (s.nodes n).vips :=
    (h.nodes n).queued msg (by rw [hqueue]; exact List.mem_cons_self)
  obtain ⟨hle, heq⟩ := content_sendFrame n (s.nodes n) hmsg.length
  let node : Node := { s.nodes n with incomingqueue := rest }
  have htaken : (s.nodes n).holds = node.holds + content msg.packet := by
    unfold Node.holds Node.printed Node.carries
    rw [hqueue, List.map_cons, List.sum_cons]
    simp only [node]
    abel
  have hput : s'.total + (node.holds + content msg.packet) =
      s.total + ((T.sendFrame n (s.nodes n) msg).map fun d ↦ content d.bytes).sum + node.holds := by
    rw [← htaken]
    refine (s.total_put n node _).trans ?_
    rw [List.map_append, List.sum_append, ← add_assoc]
    rfl
  constructor
  · refine le_of_add_le_add_right (a := node.holds + content msg.packet) ?_
    calc s'.total + (node.holds + content msg.packet)
        = s.total + ((T.sendFrame n (s.nodes n) msg).map fun d ↦ content d.bytes).sum +
          node.holds := hput
      _ ≤ s.total + content msg.packet + node.holds :=
        add_le_add_left (add_le_add_right hle _) _
      _ = s.total + (node.holds + content msg.packet) := by abel
  · intro hsent
    refine add_right_cancel (b := node.holds + content msg.packet) ?_
    rw [hput, heq hsent]
    abel

/-- What one event does to the total: it adds at most the packet of a user and a copy, and exactly
that if it loses nothing. -/
theorem total_step {s s' : Stacks T} (h : s.Orderly) {event : StackEvent T}
    (hstep : s.Step event s') : s'.total ≤ s.total + (s.added event + s.copied event) ∧
      (¬ s.Loses event → s'.total = s.total + (s.added event + s.copied event)) := by
  cases event with
  | operate n op =>
    obtain ⟨node, hoperate, rfl⟩ := Option.map_eq_some_iff.mp hstep
    obtain ⟨hle, heq⟩ := Node.holds_operate (h.nodes n) hoperate
    have hcopied : s.added (.operate n op) + s.copied (.operate n op) = (s.nodes n).added op :=
      add_zero _
    rw [hcopied]
    exact total_operate hle heq
  | processInQueue n =>
    obtain ⟨msg, rest, hqueue, rfl⟩ := processInQueue_step hstep
    obtain ⟨hle, heq⟩ := total_processInQueue h hqueue
    have hnone : s.added (.processInQueue n) + s.copied (.processInQueue n) = 0 := add_zero 0
    rw [hnone, add_zero]
    refine ⟨hle, fun hkeeps ↦ heq fun hproto hnil ↦ hkeeps ⟨msg, ?_, hproto, hnil⟩⟩
    rw [hqueue]
    rfl
  | recvData index stack =>
    obtain ⟨d, hget, rfl⟩ := recvData_step h hstep
    have hnone : s.added (.recvData index stack) + s.copied (.recvData index stack) = 0 :=
      add_zero 0
    rw [hnone, add_zero]
    let e := T.peer d.source
    let node := (s.nodes e.1).transferLinkToIp d.bytes d.bytes.length (T.vip e)
    have htaken : node.holds = (s.nodes e.1).holds + content d.bytes := by
      simp only [node, Node.transferLinkToIp]
      unfold Node.holds Node.printed Node.carries
      dsimp only
      rw [List.map_append, List.sum_append, List.map_singleton, List.sum_singleton,
        List.take_length]
      abel
    have hsame : total ⟨(s.put e.1 node).nodes, s.wire.eraseIdx index⟩ = s.total := by
      refine add_right_cancel (b := (s.nodes e.1).holds) ?_
      rw [s.total_put, htaken]
      unfold total
      rw [← content_add_eraseIdx hget]
      abel
    exact ⟨hsame.le, fun _ ↦ hsame⟩
  | lose index =>
    obtain rfl := Option.some.inj hstep
    have hnone : s.added (.lose index) + s.copied (.lose index) = 0 := add_zero 0
    rw [hnone, add_zero]
    unfold total
    dsimp only
    cases hget : s.wire[index]? with
    | none =>
      rw [List.eraseIdx_of_length_le (List.getElem?_eq_none_iff.mp hget)]
      exact ⟨le_rfl, fun _ ↦ rfl⟩
    | some d =>
      rw [← content_add_eraseIdx hget]
      refine ⟨add_le_add_right (le_add_of_nonneg_left (Multiset.zero_le _)) _, fun hkeeps ↦ ?_⟩
      have hrip : byteAt d.bytes 9 = ripProto := by
        by_contra hproto
        exact hkeeps ⟨d, hget, hproto⟩
      rw [content_of_rip hrip, zero_add]
  | duplicate index =>
    obtain ⟨d, hget, rfl⟩ := Option.map_eq_some_iff.mp hstep
    have hcopied : s.added (.duplicate index) + s.copied (.duplicate index) =
        (s.wire[index]?).elim 0 fun d ↦ content d.bytes := zero_add _
    rw [hget, Option.elim_some] at hcopied
    have hsame : total { s with wire := s.wire ++ [d] } = s.total + content d.bytes := by
      unfold total
      dsimp only
      rw [List.map_append, List.sum_append, List.map_singleton, List.sum_singleton, ← add_assoc]
    rw [hcopied]
    exact ⟨hsame.le, fun _ ↦ hsame⟩

/-- What is copied is there already. -/
theorem copied_subset (s : Stacks T) (event : StackEvent T) : s.copied event ⊆ s.total := by
  cases event with
  | duplicate index =>
    have hcopied : s.copied (.duplicate index) =
        (s.wire[index]?).elim 0 fun d ↦ content d.bytes := rfl
    rw [hcopied]
    cases hget : s.wire[index]? with
    | none => exact Multiset.zero_subset _
    | some d =>
      refine Multiset.subset_of_le ?_
      unfold total
      rw [Option.elim_some, ← content_add_eraseIdx hget]
      exact (le_add_of_nonneg_right (Multiset.zero_le _)).trans
        (le_add_of_nonneg_left (Multiset.zero_le _))
  | operate n op => exact Multiset.zero_subset _
  | processInQueue n => exact Multiset.zero_subset _
  | recvData index stack => exact Multiset.zero_subset _
  | lose index => exact Multiset.zero_subset _

/-! ### Who prints -/

/-- Nodes have only printed what was sent to one of their addresses. -/
def PrintsOwn (s : Stacks T) : Prop :=
  ∀ n, ∀ delivery ∈ (s.nodes n).output, T.Owns n delivery.daddr

theorem PrintsOwn.step {s s' : Stacks T} (hprints : s.PrintsOwn) (h : s.Orderly)
    {event : StackEvent T} (hstep : s.Step event s') : s'.PrintsOwn := by
  cases event with
  | operate n op =>
    obtain ⟨node, hoperate, rfl⟩ := Option.map_eq_some_iff.mp hstep
    refine forall_put (P := fun m node ↦ ∀ delivery ∈ node.output, T.Owns m delivery.daddr)
      hprints fun delivery hdelivery ↦ ?_
    rcases Node.operate_output (h.nodes n) hoperate with hsame | ⟨last, hlast, hmine⟩
    · rw [hsame] at hdelivery
      exact hprints n delivery hdelivery
    · rw [hlast] at hdelivery
      rcases List.mem_append.mp hdelivery with hold | hnew
      · exact hprints n delivery hold
      · rw [List.mem_singleton.mp hnew]
        exact (Topology.isMyInterface_iff_owns (h.vips n) _).mp hmine
  | processInQueue n =>
    obtain ⟨msg, rest, -, rfl⟩ := processInQueue_step hstep
    exact forall_put (P := fun m node ↦ ∀ delivery ∈ node.output, T.Owns m delivery.daddr)
      hprints (hprints n)
  | recvData index stack =>
    obtain ⟨d, -, rfl⟩ := recvData_step h hstep
    exact forall_put (P := fun m node ↦ ∀ delivery ∈ node.output, T.Owns m delivery.daddr)
      hprints (hprints _)
  | lose index =>
    obtain rfl := Option.some.inj hstep
    exact hprints
  | duplicate index =>
    obtain ⟨d, -, rfl⟩ := Option.map_eq_some_iff.mp hstep
    exact hprints

theorem PrintsOwn.start (T : Topology) (clock : Fin T.size → ℕ → Timeval) :
    (Stacks.start T clock).PrintsOwn := by
  intro n delivery hdelivery
  change delivery ∈ (Node.new (T.order n) (T.links n) (clock n)).output at hdelivery
  rw [Node.new_output] at hdelivery
  exact absurd hdelivery List.not_mem_nil

/-! ### Whole runs -/

theorem total_start (T : Topology) (clock : Fin T.size → ℕ → Timeval) :
    (start T clock).total = 0 := by
  have hholds : ∀ n, ((start T clock).nodes n).holds = 0 := by
    intro n
    have hqueued : ((start T clock).nodes n).QueuesMessages := Node.prepareMsg_queuesMessages rfl 1
    have hreceived : ((start T clock).nodes n).outgoingqueue = [] := Node.new_outgoingqueue _ _ _
    have hprinted := Node.new_output (T.order n) (T.links n) (clock n)
    change ((start T clock).nodes n).output = [] at hprinted
    unfold Node.holds Node.printed Node.carries
    rw [hqueued.content_eq, hreceived, hprinted]
    rfl
  unfold total
  rw [Finset.sum_eq_zero fun n _ ↦ hholds n]
  rfl

theorem Orderly.run {s s' : Stacks T} (h : s.Orderly) {events : List (StackEvent T)}
    (hrun : Run FitStep s events s') : s'.Orderly :=
  hrun.invariant (fun _ _ _ h hstep ↦ h.step hstep) h

/-- A run that loses no packet of a user adds what is offered and what is duplicated. -/
theorem Orderly.conserves {s s' : Stacks T} (h : s.Orderly) {events : List (StackEvent T)}
    (hrun : Run (fun s event s' ↦ FitStep s event s' ∧ ¬ s.Loses event) s events s') :
    s'.total = s.total + tally handle (fun s event ↦ s.added event + s.copied event) s events := by
  refine hrun.balance (R := fun a b : Multiset Shown ↦ a = b) (fun a ↦ rfl)
    (fun a b c hab hbc ↦ hab.trans hbc) (fun a b c hab ↦ congrArg (· + c) hab)
    (fun _ _ _ hstep ↦ hstep.1.1) (fun _ _ _ h hstep ↦ h.step hstep.1) ?_ h
  exact fun s event s' h hstep ↦ (total_step h hstep.1.1).2 hstep.2

/-- Whatever the wire duplicates: what there is after a run was there before it or was offered in
it. -/
theorem Orderly.total_subset {s s' : Stacks T} (h : s.Orderly) {events : List (StackEvent T)}
    (hrun : Run FitStep s events s') : s'.total ⊆ s.total + tally handle added s events := by
  refine hrun.balance (R := fun a b : Multiset Shown ↦ a ⊆ b) (fun a ↦ Multiset.Subset.refl a)
    (fun a b c hab hbc ↦ Multiset.Subset.trans hab hbc) ?_ (fun _ _ _ hstep ↦ hstep.1)
    (fun _ _ _ h hstep ↦ h.step hstep) ?_ h
  · intro a b c hab x hx
    exact Multiset.mem_add.mpr ((Multiset.mem_add.mp hx).imp_left (@hab x))
  · intro s event s' h hstep x hx
    have hmem := Multiset.mem_of_le (total_step h hstep.1).1 hx
    rw [← add_assoc] at hmem
    rcases Multiset.mem_add.mp hmem with hold | hcopy
    · exact hold
    · exact Multiset.mem_add.mpr (Or.inl (s.copied_subset event hcopy))

/-- If the wire does not duplicate, there is no more after a run than before it and what was
offered. -/
theorem Orderly.total_le {s s' : Stacks T} (h : s.Orderly) {events : List (StackEvent T)}
    (hrun : Run FitStep s events s') (honce : ∀ index, .duplicate index ∉ events) :
    s'.total ≤ s.total + tally handle added s events := by
  let Once (s : Stacks T) (event : StackEvent T) (s' : Stacks T) : Prop :=
    s.FitStep event s' ∧ s.copied event = 0
  have honce' : Run Once s events s' := by
    refine hrun.mono fun s s' event hevent hstep ↦ ⟨hstep, ?_⟩
    cases event with
    | duplicate index => exact absurd hevent (honce index)
    | _ => rfl
  refine honce'.balance (R := fun a b : Multiset Shown ↦ a ≤ b) (fun a ↦ le_refl a)
    (fun a b c hab hbc ↦ hab.trans hbc) (fun a b c hab ↦ add_le_add_left hab c)
    (fun _ _ _ hstep ↦ hstep.1.1) (fun _ _ _ h hstep ↦ h.step hstep.1) ?_ h
  intro s event s' h hstep
  have hle := (total_step h hstep.1.1).1
  rwa [hstep.2, add_zero] at hle

theorem PrintsOwn.run {s s' : Stacks T} (h : s.Orderly) (hprints : s.PrintsOwn)
    {events : List (StackEvent T)} (hrun : Run FitStep s events s') : s'.PrintsOwn := by
  have hkeep : s'.Orderly ∧ s'.PrintsOwn := by
    refine hrun.invariant (P := fun s ↦ s.Orderly ∧ s.PrintsOwn) ?_ ⟨h, hprints⟩
    exact fun _ _ _ ⟨h, hprints⟩ hstep ↦ ⟨h.step hstep, hprints.step h hstep.1⟩
  exact hkeep.2

/-- What is printed in a run in which everything fits was offered in it, with this sender, this
destination and these data, and so was what is still on its way, however often the wire duplicates
datagrams and in whatever order the threads work. If the wire does not duplicate, no packet is
printed more often than it was offered. Only the node that has the destination prints it. -/
theorem packets_printed_once {T : Topology} (hlinks : ∀ n, (T.links n).length ≤ maxEntries)
    (clock : Fin T.size → ℕ → Timeval) {events : List (StackEvent T)} {s : Stacks T}
    (hrun : Run FitStep (start T clock) events s) :
    let offered := tally handle added (start T clock) events
    s.printed + s.inTransit ⊆ offered ∧
      ((∀ index, .duplicate index ∉ events) → s.printed + s.inTransit ≤ offered) ∧
      ∀ n, ∀ delivery ∈ (s.nodes n).output, T.Owns n delivery.daddr := by
  intro offered
  have horderly := Orderly.start hlinks clock
  rw [printed_add_inTransit]
  refine ⟨?_, fun honce ↦ ?_, PrintsOwn.run horderly (PrintsOwn.start T clock) hrun⟩
  · have hsubset := horderly.total_subset hrun
    rwa [total_start, zero_add] at hsubset
  · have hle := horderly.total_le hrun honce
    rwa [total_start, zero_add] at hle

/-- Node `n` hears of node `m`, to which its user sends a packet. The wire duplicates the datagram,
which `m` prints twice. -/
def twice (n m : Fin 2) : List (StackEvent pair) :=
  let handleFirst (n : Fin 2) : StackEvent pair := .operate n (.processOutQueue [] fun _ ↦ ⟨0, 0⟩)
  [.operate m (.command (.send 2)), .processInQueue m, .processInQueue m, .recvData 1 zeroStack,
    handleFirst n, .operate n (.application 0x0200000A 6 [104, 105]), .processInQueue n,
    .processInQueue n, .duplicate 2, .recvData 2 zeroStack, .recvData 2 zeroStack, handleFirst m,
    handleFirst m]

/-- It was offered, with these data. -/
theorem packets_printed_once_pair : ∃ s, Run FitStep (start pair fun _ _ ↦ ⟨0, 0⟩) (twice 0 1) s ∧
    ((s.nodes (1 : Fin 2)).output.map Delivery.shown : List Shown) =
      List.replicate 2 ⟨0x0A000001, 0x0A000002, 2, [104, 105]⟩ ∧
    ⟨0x0A000001, 0x0A000002, 2, [104, 105]⟩ ∈
      tally handle added (start pair fun _ _ ↦ ⟨0, 0⟩) (twice 0 1) ∧
    pair.Owns (1 : Fin 2) 0x0A000002 := by
  let next (s : Stacks pair) (event : StackEvent pair) : Option (Stacks pair) :=
    if s.Fits event then s.handle event else none
  let sent : Shown := ⟨0x0A000001, 0x0A000002, 2, [104, 105]⟩
  have hrun : ((twice 0 1).foldlM next (start pair fun _ _ ↦ ⟨0, 0⟩)).any (fun s ↦
      (s.nodes (1 : Fin 2)).output.map Delivery.shown == List.replicate 2 sent) = true := by decide
  obtain ⟨s, hs, hprinted⟩ := (Option.any_eq_true _ _).mp hrun
  have hfits : Run FitStep (start pair fun _ _ ↦ ⟨0, 0⟩) (twice 0 1) s := Run.of_foldlM_if hs
  have hmap := beq_iff_eq.mp hprinted
  obtain ⟨hoffered, -, howns⟩ := packets_printed_once (T := pair) (by decide) _ hfits
  have hsent : sent ∈ (s.nodes (1 : Fin 2)).output.map Delivery.shown := by
    rw [hmap]
    exact List.mem_replicate.mpr ⟨by decide, rfl⟩
  have hheld : sent ∈ (s.nodes (1 : Fin 2)).printed := hsent
  obtain ⟨delivery, hdelivery, hshown⟩ := List.mem_map.mp hsent
  have hdaddr : delivery.daddr = sent.daddr := congrArg Shown.daddr hshown
  refine ⟨s, hfits, hmap, hoffered (Multiset.mem_add.mpr (Or.inl ?_)), ?_⟩
  · exact Multiset.mem_of_le (Finset.single_le_sum (fun _ _ ↦ Multiset.zero_le _)
      (Finset.mem_univ (1 : Fin 2))) hheld
  · have hown := howns (1 : Fin 2) delivery hdelivery
    rwa [hdaddr] at hown

/-- In a run that loses no packet of a user and in which everything fits, everything that was offered
or duplicated is printed or still on its way. -/
theorem packets_conserved {T : Topology} (hlinks : ∀ n, (T.links n).length ≤ maxEntries)
    (clock : Fin T.size → ℕ → Timeval) {events : List (StackEvent T)} {s : Stacks T}
    (hrun : Run (fun s event s' ↦ FitStep s event s' ∧ ¬ s.Loses event) (start T clock) events s) :
    s.printed + s.inTransit =
      tally handle (fun s event ↦ s.added event + s.copied event) (start T clock) events := by
  have hbalance := (Orderly.start hlinks clock).conserves hrun
  rwa [total_start, zero_add, ← printed_add_inTransit] at hbalance

/-- The two packets that are printed are the one that was offered and its copy. -/
theorem packets_conserved_pair : ∃ s, Run FitStep (start pair fun _ _ ↦ ⟨0, 0⟩) (twice 0 1) s ∧
    s.printed + s.inTransit = tally handle (fun s event ↦ s.added event + s.copied event)
      (start pair fun _ _ ↦ ⟨0, 0⟩) (twice 0 1) := by
  let Keeps (s : Stacks pair) (event : StackEvent pair) : Prop := s.Fits event ∧ ¬ s.Loses event
  have hrun : ((twice 0 1).foldlM (fun s event ↦ if Keeps s event then handle s event else none)
      (start pair fun _ _ ↦ ⟨0, 0⟩)).isSome = true := by decide
  obtain ⟨s, hs⟩ := Option.isSome_iff_exists.mp hrun
  have hkeeps : Run (fun s event s' ↦ Step s event s' ∧ Keeps s event)
    (start pair fun _ _ ↦ ⟨0, 0⟩) (twice 0 1) s := Run.of_foldlM_if hs
  refine ⟨s, hkeeps.mono fun _ _ _ _ hstep ↦ ⟨hstep.1, hstep.2.1⟩, ?_⟩
  exact packets_conserved (T := pair) (by decide) _
    (hkeeps.mono fun _ _ _ _ hstep ↦ ⟨⟨hstep.1, hstep.2.1⟩, hstep.2.2⟩)

end Stacks

end IpRipStack
