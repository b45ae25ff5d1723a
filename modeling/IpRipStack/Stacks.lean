import IpRipStack.Network
import IpRipStack.RegularFrame
import IpRipStack.TableSize
import Mathlib.Algebra.BigOperators.Fin

/-!
# All threads of all nodes

A network as the threads of its nodes run it. `Net` has a node drain its queues within each
operation; here they are filled and emptied by different threads, one operation at a time and in any
order. The main thread and the routing thread carry out commands and enter the packets of the user,
`process_out_queue` handles a received frame (`NodeOp`), `process_in_queue` takes a packet off its
queue and hands it to the link layer, and the link thread of the far end reads the datagram with
`recv_data`. The wire between them loses, delays and duplicates datagrams, which are attributed to
the interface at the far end of the link they were sent over.

A step is a whole command, a whole turn of `process_out_queue` or `process_in_queue`, or a whole call
of `recv_data`; a read that fails is not a step, and the datagram is then lost or stays on the wire.
There is no send buffer and nobody waits for one: what `send_frame` is given is on the wire at once,
which stands for the buffer as well as for what is between the hosts. `Hosts` is the network with the
buffers and the wait.

Handling a command or a routing packet does not depend on what waits in the queues: it is what a
node with empty queues does, with the packets it queues put behind those that wait
(`Node.execute_eq_absorb`, `Node.transferIpToRip_eq_absorb`). `Stacks.Orderly` is the invariant of
all runs in which packets fit their buffers (`Stacks.FitStep`): every frame anywhere is regular, so
that `recv_data` hands on each datagram whole (`Regular.recvData_eq`).
-/

set_option autoImplicit false
set_option relaxedAutoImplicit false

namespace IpRipStack

open MachineWord Runs

/-- What one thread of a node does to the node. -/
inductive NodeOp
  | command (c : Command)
  | application (dest : UInt32) (proto : UInt8) (payload : List UInt8)
  | processOutQueue (stale : List UInt8) (clock : ℕ → Timeval)

def Node.operate (node : Node) : NodeOp → Option Node
  | .command c => node.execute c
  | .application dest proto payload =>
    some (node.transferApplicationToIp dest proto payload payload.length)
  | .processOutQueue stale clock =>
    if node.outgoingqueue.isEmpty then none -- `pop` waits
    else some (node.processOutQueue stale clock)

/-- A datagram between two hosts: the end of the link it was sent from, and its bytes. -/
structure Datagram (T : Topology) where
  source : T.End
  bytes : List UInt8

/-- The nodes of a network and the datagrams between them. -/
structure Stacks (T : Topology) where
  nodes : Fin T.size → Node
  wire : List (Datagram T)

/-- What the threads of the nodes and the wire do. -/
inductive StackEvent (T : Topology)
  | operate (n : Fin T.size) (op : NodeOp)
  | processInQueue (n : Fin T.size)
  | recvData (index : ℕ) (stack : RecvBuffer)
  | lose (index : ℕ)
  | duplicate (index : ℕ)

/-- What `send_frame` makes of a packet: nothing if the interface has no socket. -/
def Topology.sendFrame (T : Topology) (n : Fin T.size) (node : Node) (msg : IpMsg) :
    List (Datagram T) :=
  if h : msg.ifc < (T.links n).length then
    if (node.interfaces[msg.ifc]?).any fun ll ↦ ll.sLocal != -1 then
      [⟨⟨n, msg.ifc, h⟩, msg.packet.take msg.size⟩]
    else []
  else []

namespace Stacks

variable {T : Topology}

/-- The nodes after their constructors. -/
def start (T : Topology) (clock : Fin T.size → ℕ → Timeval) : Stacks T where
  nodes n := Node.new (T.order n) (T.links n) (clock n)
  wire := []

/-- The state in which one node is replaced. -/
def put (s : Stacks T) (n : Fin T.size) (node : Node) : Stacks T :=
  { s with nodes := Function.update s.nodes n node }

def handle (s : Stacks T) : StackEvent T → Option (Stacks T)
  | .operate n op => ((s.nodes n).operate op).map (s.put n)
  | .processInQueue n =>
    match (s.nodes n).incomingqueue with
    | [] => none -- `pop` waits
    | msg :: rest =>
      some { s.put n { s.nodes n with incomingqueue := rest } with
        wire := s.wire ++ T.sendFrame n (s.nodes n) msg }
  | .recvData index stack =>
    (s.wire[index]?).bind fun d ↦
      let e := T.peer d.source
      let node := s.nodes e.1
      (recvData node.order stack [.datagram d.bytes]).map fun handed ↦
        { s.put e.1 (node.transferLinkToIp handed.1.buf handed.1.len.toNat (T.vip e)) with
          wire := s.wire.eraseIdx index }
  | .lose index => some { s with wire := s.wire.eraseIdx index }
  | .duplicate index => (s.wire[index]?).map fun d ↦ { s with wire := s.wire ++ [d] }

def Step (s : Stacks T) (event : StackEvent T) (s' : Stacks T) : Prop := s.handle event = some s'

theorem put_nodes_self (s : Stacks T) (n : Fin T.size) (node : Node) :
    (s.put n node).nodes n = node :=
  Function.update_self n _ _

theorem put_nodes_of_ne (s : Stacks T) {n m : Fin T.size} (h : m ≠ n) (node : Node) :
    (s.put n node).nodes m = s.nodes m :=
  Function.update_of_ne h _ _

/-- Replacing one node by one with a property that all nodes have. -/
theorem forall_put {P : Fin T.size → Node → Prop} {s : Stacks T} (h : ∀ m, P m (s.nodes m))
    {n : Fin T.size} {node : Node} (hnode : P n node) (m : Fin T.size) :
    P m ((s.put n node).nodes m) := by
  by_cases hm : m = n
  · subst hm
    rw [s.put_nodes_self]
    exact hnode
  · rw [s.put_nodes_of_ne hm]
    exact h m

/-- Replacing one node in a sum over all nodes. -/
theorem sum_put {M : Type*} [AddCommMonoid M] (s : Stacks T) (f : Fin T.size → Node → M)
    (n : Fin T.size) (node : Node) :
    ∑ m, f m ((s.put n node).nodes m) + f n (s.nodes n) = ∑ m, f m (s.nodes m) + f n node := by
  have hupdate : (fun m ↦ f m ((s.put n node).nodes m)) =
      Function.update (fun m ↦ f m (s.nodes m)) n (f n node) := by
    ext1 m
    by_cases hm : m = n
    · rw [hm, s.put_nodes_self, Function.update_self]
    · rw [s.put_nodes_of_ne hm, Function.update_of_ne hm]
  rw [hupdate, Finset.sum_update_of_mem (Finset.mem_univ n),
    Finset.sum_eq_add_sum_sdiff_singleton_of_mem (Finset.mem_univ n) fun m ↦ f m (s.nodes m)]
  rw [add_right_comm, add_comm (f n node), add_right_comm]

end Stacks

/-! ### What waits in the queues does not matter -/

namespace Node

/-- The node with empty queues and without output. -/
def bare (node : Node) : Node :=
  { node with incomingqueue := [], outgoingqueue := [], output := [] }

/-- The node with the interfaces and the table of another, and with the packets the other has
queued behind its own. -/
def absorb (node base : Node) : Node :=
  { node with
    interfaces := base.interfaces
    rtable := base.rtable
    incomingqueue := node.incomingqueue ++ base.incomingqueue }

theorem absorb_bare (node : Node) : node.absorb node.bare = node := by
  unfold absorb bare
  dsimp only
  rw [List.append_nil]

theorem prepareMsg_eq_absorb (node : Node) (msgType : UInt16) :
    node.prepareMsg msgType = node.absorb (node.bare.prepareMsg msgType) := by
  rw [prepareMsg_eq, prepareMsg_eq]
  rfl

theorem transferIpToRip_eq_absorb (node : Node) (data : List UInt8) (next : UInt32)
    (clock : ℕ → Timeval) : node.transferIpToRip data next clock =
      node.absorb (node.bare.transferIpToRip data next clock) := by
  have horder : node.bare.order = node.order := rfl
  rcases node.transferIpToRip_cases data next clock with
    ⟨hcommand, hrun⟩ | ⟨hcommand, hrun⟩ | ⟨hrequest, hresponse, hrun⟩ <;>
    rcases node.bare.transferIpToRip_cases data next clock with
      ⟨hcommand', hrun'⟩ | ⟨hcommand', hrun'⟩ | ⟨hrequest', hresponse', hrun'⟩
  · rw [hrun, hrun', prepareMsg_eq_absorb]
  · rw [horder, hcommand] at hcommand'
    exact absurd hcommand' (by decide)
  · rw [horder] at hrequest'
    exact absurd hcommand hrequest'
  · rw [horder, hcommand] at hcommand'
    exact absurd hcommand' (by decide)
  · rw [hrun, hrun']
    unfold absorb updateRouteTable bare
    dsimp only
    rw [List.append_nil]
    rfl
  · rw [horder] at hresponse'
    exact absurd hcommand hresponse'
  · rw [horder] at hcommand'
    exact absurd hcommand' hrequest
  · rw [horder] at hcommand'
    exact absurd hcommand' hresponse
  · rw [hrun, hrun', absorb_bare]

theorem execute_eq_absorb (node : Node) (c : Command) :
    node.execute c = (node.bare.execute c).map node.absorb := by
  cases c with
  | send msgType =>
    exact congrArg some (node.prepareMsg_eq_absorb msgType)
  | refresh curtv =>
    refine congrArg some ?_
    unfold absorb refreshRouteTable bare
    dsimp only
    rw [List.append_nil]
    rfl
  | down interface =>
    unfold execute downCmd
    rw [Option.map_map]
    refine congrArg (fun f ↦ Option.map f node.interfaces[interface]?) ?_
    ext1 ifc
    unfold removeIfcEntry
    rw [prepareMsg_eq_absorb]
    rw [Function.comp_apply]
    rfl
  | up interface sockfd now =>
    unfold execute upCmd
    rw [Option.map_map]
    refine congrArg (fun f ↦ Option.map f node.interfaces[interface]?) ?_
    ext1 ifc
    rw [Function.comp_apply]
    unfold absorb addIfcEntry bare
    dsimp only
    rw [List.append_nil]

end Node

/-! ### What waits in the queues -/

/-- A packet that waits to be sent: it has an interface to leave by, is as long as it says, and is
regular. -/
structure IpMsg.Sendable (vips : List UInt32) (msg : IpMsg) : Prop where
  ifc : msg.ifc < vips.length
  length : msg.packet.length = msg.size
  regular : Regular msg.packet

/-- A frame that has been received: it is as long as it says, is attributed to an interface of the
node, and is regular. -/
structure RcvMsg.Attributed (vips : List UInt32) (msg : RcvMsg) : Prop where
  length : msg.ippkt.length = msg.datalen
  next : msg.next ∈ vips
  regular : Regular msg.ippkt

/-- A packet of the user is no longer than a receiver has room for. -/
def NodeOp.Fits : NodeOp → Prop
  | .application _ _ payload => payload.length ≤ 1004
  | _ => True

instance (op : NodeOp) : Decidable op.Fits :=
  match op with
  | .application _ _ payload => inferInstanceAs (Decidable (payload.length ≤ 1004))
  | .command _ => inferInstanceAs (Decidable True)
  | .processOutQueue _ _ => inferInstanceAs (Decidable True)

/-- The packets of the users are no longer than a receiver has room for. -/
def StackEvent.Fits {T : Topology} : StackEvent T → Prop
  | .operate _ op => op.Fits
  | _ => True

instance {T : Topology} (event : StackEvent T) : Decidable event.Fits :=
  match event with
  | .operate _ op => inferInstanceAs (Decidable op.Fits)
  | .processInQueue _ => inferInstanceAs (Decidable True)
  | .recvData _ _ => inferInstanceAs (Decidable True)
  | .lose _ => inferInstanceAs (Decidable True)
  | .duplicate _ => inferInstanceAs (Decidable True)

namespace Node

theorem new_output (order : ByteOrder) (links : List LinkConfig) (clock : ℕ → Timeval) :
    (new order links clock).output = [] := by
  change (prepareMsg _ 1).output = []
  rw [prepareMsg_eq]

/-- The local addresses of the interfaces. -/
abbrev vips (node : Node) : List UInt32 := node.interfaces.map LinkLayer.vipLocal

/-- Everything in the queues of the node is as this code leaves it there. -/
structure Orderly (node : Node) : Prop where
  queued : ∀ msg ∈ node.incomingqueue, msg.Sendable node.vips
  received : ∀ msg ∈ node.outgoingqueue, msg.Attributed node.vips

/-- Assumes: a node with the same addresses that has received nothing new and has queued packets
behind those that wait. -/
theorem Orderly.of_queue {node node' : Node} (h : node.Orderly) (hvips : node'.vips = node.vips)
    (hreceived : ∀ msg ∈ node'.outgoingqueue, msg ∈ node.outgoingqueue) {queue : List IpMsg}
    (hqueue : node'.incomingqueue = node.incomingqueue ++ queue)
    (hnew : ∀ msg ∈ queue, msg.Sendable node.vips) : node'.Orderly := by
  refine ⟨fun msg hmsg ↦ ?_, fun msg hmsg ↦ ?_⟩
  · rw [hvips]
    rw [hqueue] at hmsg
    rcases List.mem_append.mp hmsg with hold | hadded
    · exact h.queued msg hold
    · exact hnew msg hadded
  · rw [hvips]
    exact h.received msg (hreceived msg hmsg)

theorem lt_length_vips {node : Node} {id : ℕ} {ifc : LinkLayer}
    (hget : node.interfaces[id]? = some ifc) : id < node.vips.length := by
  obtain ⟨hid, -⟩ := List.getElem?_eq_some_iff.mp hget
  rwa [List.length_map]

theorem ripPacket_sendable {node : Node} (hsize : node.rtable.size ≤ maxEntries)
    (msgType : UInt16) {id : ℕ} {ifc : LinkLayer} (hget : node.interfaces[id]? = some ifc) :
    (node.ripPacket msgType id ifc).Sendable node.vips :=
  ⟨lt_length_vips hget, (node.ripPacket_emitted msgType id ifc).length,
    Regular.ripPacket hsize msgType id ifc⟩

/-- Messages made from a table of at most sixty-four entries. -/
theorem QueuesMessages.sendable {node : Node} (h : node.QueuesMessages)
    (hsize : node.rtable.size ≤ maxEntries) {msg : IpMsg} (hmsg : msg ∈ node.incomingqueue) :
    msg.Sendable node.vips := by
  obtain ⟨msgType, id, ifc, hget, rfl⟩ := h msg hmsg
  exact ripPacket_sendable hsize msgType hget

/-- A command queues messages only from a table that has not grown. -/
theorem execute_size_le {node node' : Node} {c : Command} (h : node.execute c = some node') :
    node'.incomingqueue = node.incomingqueue ∨ node'.rtable.size ≤ node.rtable.size := by
  cases c with
  | send msgType =>
    obtain rfl := Option.some.inj h
    rw [prepareMsg_rtable]
    exact Or.inr le_rfl
  | refresh curtv =>
    obtain rfl := Option.some.inj h
    exact Or.inl rfl
  | down interface =>
    obtain ⟨ifc, -, -, htable⟩ := downCmd_spec h
    refine Or.inr (OrderedMap.size_le_of_subset fun a ha ↦ ?_)
    obtain ⟨ets, hets⟩ := OrderedMap.getElem?_of_mem ha
    exact OrderedMap.mem_of_getElem? ((htable a ets).mp hets).1
  | up interface sockfd now =>
    obtain ⟨ifc, -, rfl⟩ := Option.map_eq_some_iff.mp h
    exact Or.inl rfl

theorem Orderly.execute {node node' : Node} (h : node.Orderly)
    (hsize : node.rtable.size ≤ maxEntries) {c : Command} (hexecute : node.execute c = some node') :
    node'.Orderly := by
  rw [execute_eq_absorb] at hexecute
  obtain ⟨base, hbase, rfl⟩ := Option.map_eq_some_iff.mp hexecute
  have hvips : base.vips = node.vips := (execute_sameLinks hbase).vips
  refine h.of_queue hvips (fun _ hmem ↦ hmem) rfl fun msg hmsg ↦ ?_
  have hmessages := execute_queuesMessages rfl hbase
  rcases execute_size_le hbase with hnone | hle
  · rw [hnone] at hmsg
    exact absurd hmsg List.not_mem_nil
  · rw [← hvips]
    exact hmessages.sendable (hle.trans hsize) hmsg

/-- What becomes of a packet of the user: nothing, if its destination is looked up to no interface,
and otherwise it is built with the address of that interface and queued there. -/
theorem transferApplicationToIp_eq (node : Node) (dest : UInt32) (proto : UInt8)
    (payload : List UInt8) :
    let hdest := ntohl node.order dest
    (node.getInterface (node.getNextAddress hdest defaultAddr) = none ∧
        node.transferApplicationToIp dest proto payload payload.length = node) ∨
      ∃ id ifc, node.getInterface (node.getNextAddress hdest defaultAddr) = some id ∧
        node.interfaces[id]? = some ifc ∧
        node.transferApplicationToIp dest proto payload payload.length =
          { node with
            incomingqueue := node.incomingqueue ++
              [⟨id, 20 + payload.length,
                buildIpPacket node.order ifc.vipLocal hdest proto payload payload.length⟩] } := by
  intro hdest
  unfold transferApplicationToIp
  cases hfound : node.getInterface (node.getNextAddress hdest defaultAddr) with
  | none =>
    refine Or.inl ⟨rfl, ?_⟩
    simp only [hdest] at hfound
    dsimp only
    rw [hfound]
  | some id =>
    obtain ⟨ifc, hget, -⟩ := getInterface_eq_some hfound
    refine Or.inr ⟨id, ifc, rfl, hget, ?_⟩
    simp only [hdest] at hfound
    dsimp only
    rw [hfound]
    dsimp only
    rw [hget]
    rfl

theorem Orderly.application {node : Node} (h : node.Orderly) (dest : UInt32) (proto : UInt8)
    {payload : List UInt8} (hsize : payload.length ≤ 1004) :
    (node.transferApplicationToIp dest proto payload payload.length).Orderly := by
  rcases node.transferApplicationToIp_eq dest proto payload with ⟨-, hsame⟩ |
    ⟨id, ifc, -, hget, hqueued⟩
  · rw [hsame]
    exact h
  · rw [hqueued]
    refine h.of_queue rfl (fun _ hmem ↦ hmem) rfl fun msg hmsg ↦ ?_
    obtain rfl := List.mem_singleton.mp hmsg
    exact ⟨lt_length_vips hget, length_packet _ _ _ _ _, Regular.build _ _ _ _ payload hsize⟩

/-- What a turn of `process_out_queue` works on. -/
theorem operate_processOutQueue {node node' : Node} {stale : List UInt8} {clock : ℕ → Timeval}
    (h : node.operate (.processOutQueue stale clock) = some node') :
    ∃ msg rest, node.outgoingqueue = msg :: rest ∧
      node' = transferData { node with outgoingqueue := rest } (msg.ippkt.take msg.datalen ++ stale)
        msg.datalen msg.next clock := by
  unfold operate at h
  split_ifs at h with hempty
  cases hqueue : node.outgoingqueue with
  | nil => exact absurd (by rw [hqueue]; rfl) hempty
  | cons msg rest =>
    refine ⟨msg, rest, rfl, ?_⟩
    rw [← Option.some.inj h]
    unfold processOutQueue
    rw [hqueue]

theorem transferIpToRip_queuesMessages {node : Node} (h : node.incomingqueue = [])
    (data : List UInt8) (next : UInt32) (clock : ℕ → Timeval) :
    (node.transferIpToRip data next clock).QueuesMessages := by
  rcases node.transferIpToRip_cases data next clock with
    ⟨-, hrun⟩ | ⟨-, hrun⟩ | ⟨-, -, hrun⟩
  · rw [hrun]
    exact prepareMsg_queuesMessages h 2
  · rw [hrun]
    exact QueuesMessages.of_nil h
  · rw [hrun]
    exact QueuesMessages.of_nil h

theorem transferIpToRip_queue {node : Node} (hsize : node.rtable.size ≤ maxEntries)
    (data : List UInt8) (next : UInt32) (clock : ℕ → Timeval) :
    ∃ queue, (node.transferIpToRip data next clock).incomingqueue = node.incomingqueue ++ queue ∧
      ∀ msg ∈ queue, msg.Sendable node.vips := by
  rcases node.transferIpToRip_cases data next clock with
    ⟨-, hrun⟩ | ⟨-, hrun⟩ | ⟨-, -, hrun⟩
  · rw [hrun, prepareMsg_eq]
    refine ⟨_, rfl, fun msg hmsg ↦ ?_⟩
    obtain ⟨id, -, hpacket⟩ := List.mem_filterMap.mp hmsg
    obtain ⟨ifc, hget, -, rfl⟩ := ripPacket?_ifc hpacket
    exact ripPacket_sendable hsize 2 hget
  · rw [hrun]
    exact ⟨[], (List.append_nil _).symm, fun msg hmsg ↦ absurd hmsg List.not_mem_nil⟩
  · rw [hrun]
    exact ⟨[], (List.append_nil _).symm, fun msg hmsg ↦ absurd hmsg List.not_mem_nil⟩

/-- A regular frame leaves the queues in order. -/
theorem Orderly.transferData {node : Node} (h : node.Orderly)
    (hsize : node.rtable.size ≤ maxEntries) {bytes : List UInt8} (hregular : Regular bytes)
    (stale : List UInt8) (next : UInt32) (clock : ℕ → Timeval) :
    (node.transferData (bytes ++ stale) bytes.length next clock).Orderly := by
  rcases hregular.transferData_cases node stale next clock with ⟨-, hrun⟩ | ⟨-, -, printed, -, hrun⟩ |
    ⟨-, -, -, hrun⟩ | ⟨-, -, -, id, hfound, hrun⟩
  · rw [hrun]
    split_ifs
    · have hsame := node.transferIpToRip_sameLinks (ripPayload (bytes ++ stale)) next clock
      obtain ⟨queue, hqueue, hsends⟩ :=
        transferIpToRip_queue hsize (ripPayload (bytes ++ stale)) next clock
      exact h.of_queue hsame.vips (fun msg hmsg ↦ hsame.outgoingqueue ▸ hmsg) hqueue hsends
    · exact h
  · rw [hrun]
    exact ⟨h.queued, h.received⟩
  · rw [hrun]
    exact h
  · rw [hrun]
    refine h.of_queue rfl (fun _ hmem ↦ hmem) rfl fun msg hmsg ↦ ?_
    obtain rfl := List.mem_singleton.mp hmsg
    obtain ⟨ifc, hget, -⟩ := getInterface_eq_some hfound
    exact ⟨lt_length_vips hget, length_forwardedFrame _ _, hregular.forwardedFrame _⟩

/-- What one thread does leaves the queues in order. Assumes: a table of at most sixty-four entries
and a packet that fits. -/
theorem Orderly.operate {node node' : Node} (h : node.Orderly)
    (hsize : node.rtable.size ≤ maxEntries) {op : NodeOp} (hfits : op.Fits)
    (hstep : node.operate op = some node') : node'.Orderly := by
  cases op with
  | command c => exact h.execute hsize hstep
  | application dest proto payload =>
    obtain rfl := Option.some.inj hstep
    exact h.application dest proto hfits
  | processOutQueue stale clock =>
    obtain ⟨msg, rest, hqueue, rfl⟩ := operate_processOutQueue hstep
    have hmsg : msg.Attributed node.vips := h.received msg (by rw [hqueue]; exact List.mem_cons_self)
    rw [← hmsg.length, List.take_length]
    have hrest : Orderly { node with outgoingqueue := rest } := by
      refine ⟨h.queued, fun msg' hmsg' ↦ h.received msg' ?_⟩
      rw [hqueue]
      exact List.mem_cons_of_mem _ hmsg'
    exact hrest.transferData hsize hmsg.regular stale msg.next clock

theorem operate_sameVips {node node' : Node} {op : NodeOp} (hstep : node.operate op = some node') :
    node'.order = node.order ∧ node'.vips = node.vips := by
  cases op with
  | command c =>
    have hsame := execute_sameLinks hstep
    exact ⟨hsame.order, hsame.vips⟩
  | application dest proto payload =>
    obtain rfl := Option.some.inj hstep
    obtain ⟨queue, hqueue⟩ := node.transferApplicationToIp_cases dest proto payload payload.length
    rw [hqueue]
    exact ⟨rfl, rfl⟩
  | processOutQueue stale clock =>
    obtain ⟨msg, rest, -, rfl⟩ := operate_processOutQueue hstep
    rcases transferData_cases { node with outgoingqueue := rest }
      (msg.ippkt.take msg.datalen ++ stale) msg.datalen msg.next clock with
      ⟨-, hrip⟩ | ⟨-, queue, output, hother⟩
    · rw [hrip]
      have hsame := transferIpToRip_sameLinks { node with outgoingqueue := rest }
        (ripPayload (msg.ippkt.take msg.datalen ++ stale)) msg.next clock
      exact ⟨hsame.order, hsame.vips⟩
    · rw [hother]
      exact ⟨rfl, rfl⟩

end Node

namespace Stacks

variable {T : Topology}

/-- Every frame in the network is regular, and the nodes are those of the topology. -/
structure Orderly (s : Stacks T) : Prop where
  nodes : ∀ n, (s.nodes n).Orderly
  order : ∀ n, (s.nodes n).order = T.order n
  vips : ∀ n, (s.nodes n).vips = (T.links n).map LinkConfig.vipLocal
  wire : ∀ d ∈ s.wire, Regular d.bytes

/-- An event of a network in which everything fits: no table has more than sixty-four entries, and
the packets of the users are no longer than a receiver has room for. -/
def Fits (s : Stacks T) (event : StackEvent T) : Prop :=
  (∀ n, (s.nodes n).rtable.size ≤ maxEntries) ∧ event.Fits

instance (s : Stacks T) (event : StackEvent T) : Decidable (s.Fits event) :=
  inferInstanceAs (Decidable ((∀ n, (s.nodes n).rtable.size ≤ maxEntries) ∧ event.Fits))

/-- A step of a network in which everything fits. -/
def FitStep (s : Stacks T) (event : StackEvent T) (s' : Stacks T) : Prop :=
  s.Step event s' ∧ s.Fits event

/-- Replacing a node by one that is in order. -/
theorem Orderly.put {s : Stacks T} (h : s.Orderly) {n : Fin T.size} {node : Node}
    (hnode : node.Orderly) (horder : node.order = (s.nodes n).order)
    (hvips : node.vips = (s.nodes n).vips) {wire : List (Datagram T)}
    (hwire : ∀ d ∈ wire, Regular d.bytes) : Orderly ⟨(s.put n node).nodes, wire⟩ := by
  refine ⟨?_, ?_, ?_, hwire⟩
  · exact forall_put (P := fun _ node ↦ node.Orderly) h.nodes hnode
  · exact forall_put (P := fun m node ↦ node.order = T.order m) h.order (horder.trans (h.order n))
  · exact forall_put (P := fun m node ↦ node.vips = (T.links m).map LinkConfig.vipLocal) h.vips
      (hvips.trans (h.vips n))

/-- The far end of a link is an interface of its node. -/
theorem Orderly.mem_vips {s : Stacks T} (h : s.Orderly) (e : T.End) :
    T.vip e ∈ (s.nodes e.1).vips := by
  rw [h.vips]
  exact List.mem_map.mpr ⟨_, List.get_mem _ e.2, rfl⟩

/-- What a turn of `process_in_queue` does. -/
theorem processInQueue_step {s s' : Stacks T} {n : Fin T.size}
    (hstep : s.Step (.processInQueue n) s') :
    ∃ msg rest, (s.nodes n).incomingqueue = msg :: rest ∧
      s' = ⟨(s.put n { s.nodes n with incomingqueue := rest }).nodes,
        s.wire ++ T.sendFrame n (s.nodes n) msg⟩ := by
  unfold Step handle at hstep
  dsimp only at hstep
  cases hqueue : (s.nodes n).incomingqueue with
  | nil =>
    rw [hqueue] at hstep
    exact absurd hstep.symm (Option.some_ne_none s')
  | cons msg rest =>
    rw [hqueue] at hstep
    exact ⟨msg, rest, rfl, (Option.some.inj hstep).symm⟩

/-- What `recv_data` makes of a datagram: it hands it on as it came. -/
theorem recvData_step {s s' : Stacks T} (h : s.Orderly) {index : ℕ} {stack : RecvBuffer}
    (hstep : s.Step (.recvData index stack) s') :
    ∃ d, s.wire[index]? = some d ∧
      s' = ⟨(s.put (T.peer d.source).1 ((s.nodes (T.peer d.source).1).transferLinkToIp d.bytes
          d.bytes.length (T.vip (T.peer d.source)))).nodes, s.wire.eraseIdx index⟩ := by
  obtain ⟨d, hget, hrecv⟩ := Option.bind_eq_some_iff.mp hstep
  obtain ⟨handed, hhanded, rfl⟩ := Option.map_eq_some_iff.mp hrecv
  have hregular := h.wire d (List.mem_of_getElem? hget)
  obtain ⟨handed', hhanded', hcarries⟩ := RecvData.recvData_whole
    (hregular.whole (s.nodes (T.peer d.source).1).order) stack []
  obtain rfl : (handed', []) = handed := Option.some.inj (hhanded'.symm.trans hhanded)
  exact ⟨d, hget, by rw [hcarries.transferLinkToIp]⟩

/-- Every step of a network in which everything fits keeps the invariant. -/
theorem Orderly.step {s s' : Stacks T} (h : s.Orderly) {event : StackEvent T}
    (hstep : s.FitStep event s') : s'.Orderly := by
  obtain ⟨hstep, hsizes, hfits⟩ := hstep
  cases event with
  | operate n op =>
    obtain ⟨node, hoperate, rfl⟩ := Option.map_eq_some_iff.mp hstep
    obtain ⟨horder, hvips⟩ := Node.operate_sameVips hoperate
    exact h.put ((h.nodes n).operate (hsizes n) hfits hoperate) horder hvips h.wire
  | processInQueue n =>
    obtain ⟨msg, rest, hqueue, rfl⟩ := processInQueue_step hstep
    have hmsg : msg.Sendable (s.nodes n).vips :=
      (h.nodes n).queued msg (by rw [hqueue]; exact List.mem_cons_self)
    have hnode : Node.Orderly { s.nodes n with incomingqueue := rest } := by
      refine ⟨fun msg' hmsg' ↦ (h.nodes n).queued msg' ?_, (h.nodes n).received⟩
      rw [hqueue]
      exact List.mem_cons_of_mem _ hmsg'
    refine h.put hnode rfl rfl fun d hd ↦ ?_
    rcases List.mem_append.mp hd with hold | hnew
    · exact h.wire d hold
    · unfold Topology.sendFrame at hnew
      split_ifs at hnew
      · obtain rfl := List.mem_singleton.mp hnew
        dsimp only
        rw [← hmsg.length, List.take_length]
        exact hmsg.regular
      · exact absurd hnew List.not_mem_nil
      · exact absurd hnew List.not_mem_nil
  | recvData index stack =>
    obtain ⟨d, hget, rfl⟩ := recvData_step h hstep
    have hregular := h.wire d (List.mem_of_getElem? hget)
    have hnode : Node.Orderly ((s.nodes (T.peer d.source).1).transferLinkToIp d.bytes
        d.bytes.length (T.vip (T.peer d.source))) := by
      refine ⟨(h.nodes _).queued, fun msg hmsg ↦ ?_⟩
      rcases List.mem_append.mp hmsg with hold | hnew
      · exact (h.nodes _).received msg hold
      · obtain rfl := List.mem_singleton.mp hnew
        exact ⟨by rw [List.take_length], h.mem_vips _, by rwa [List.take_length]⟩
    exact h.put hnode rfl rfl fun d' hd' ↦ h.wire d' (List.mem_of_mem_eraseIdx hd')
  | lose index =>
    obtain rfl := Option.some.inj hstep
    exact ⟨h.nodes, h.order, h.vips, fun d hd ↦ h.wire d (List.mem_of_mem_eraseIdx hd)⟩
  | duplicate index =>
    obtain ⟨d, hget, rfl⟩ := Option.map_eq_some_iff.mp hstep
    refine ⟨h.nodes, h.order, h.vips, fun d' hd' ↦ ?_⟩
    rcases List.mem_append.mp hd' with hold | hnew
    · exact h.wire d' hold
    · rw [List.mem_singleton.mp hnew]
      exact h.wire d (List.mem_of_getElem? hget)

/-- The nodes start in order. Assumes: at most sixty-four interfaces each. -/
theorem Orderly.start {T : Topology} (hlinks : ∀ n, (T.links n).length ≤ maxEntries)
    (clock : Fin T.size → ℕ → Timeval) : (start T clock).Orderly := by
  refine ⟨fun n ↦ ?_, fun n ↦ Node.prepareMsg_order _ 1, fun n ↦ ?_, fun d hd ↦
    absurd hd List.not_mem_nil⟩
  · have hsize : (Node.new (T.order n) (T.links n) (clock n)).rtable.size ≤ maxEntries := by
      rw [Node.new_size]
      calc ((T.links n).map LinkConfig.vipLocal).dedup.length
          ≤ ((T.links n).map LinkConfig.vipLocal).length := (List.dedup_sublist _).length_le
        _ = (T.links n).length := List.length_map _
        _ ≤ maxEntries := hlinks n
    refine ⟨fun msg hmsg ↦ ?_, fun msg hmsg ↦ ?_⟩
    · exact (Node.prepareMsg_queuesMessages rfl 1).sendable hsize hmsg
    · change msg ∈ (Node.new (T.order n) (T.links n) (clock n)).outgoingqueue at hmsg
      rw [Node.new_outgoingqueue] at hmsg
      exact absurd hmsg List.not_mem_nil
  · change (Node.new (T.order n) (T.links n) (clock n)).vips = _
    unfold Node.vips
    rw [Node.new_interfaces, List.map_map]
    rfl

end Stacks

end IpRipStack
