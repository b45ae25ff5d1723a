import IpRipStack.SteadyNetwork

/-!
# The weight of what is on its way

The threads that only move packets (`StackEvent.Moves`) cannot go on for ever: each of their steps
lightens the network (`Stacks.Serving.weight_lt`). A frame weighs what can still come of it: the
links it has to cross before the node with its destination prints it, or the responses a request
brings about. `Stacks.weight` adds this up; a step takes a frame one place further, and what a node
makes of the frame it handles weighs no more than the frame did (`Stacks.Serving.queue_le`). Routes
that get cheaper meanwhile only help.
-/

set_option autoImplicit false
set_option relaxedAutoImplicit false

namespace IpRipStack

open MachineWord OrderedMap Runs

/-- The command of a routing packet. -/
def ripCommand (bytes : List UInt8) : UInt16 := readCommand .big (bytes.drop 20)

theorem ripCommand_ripPacket (sender : Node) (msgType : UInt16) (id : ℕ) (ifc : LinkLayer) :
    ripCommand (sender.ripPacket msgType id ifc).packet = msgType := by
  have hdrop := drop_ripPacket sender msgType id ifc []
  rw [List.append_nil] at hdrop
  rw [ripCommand, hdrop, readCommand_ripMsg]

theorem Genuine.readCommand_eq {vip : UInt32} {frame : List UInt8} (h : Genuine vip frame)
    (order : ByteOrder) (stale : List UInt8) :
    readCommand order (ripPayload (frame ++ stale)) = ripCommand frame := by
  obtain ⟨sender, msgType, id, ifc, rfl, -⟩ := h
  rw [ripPayload_ripPacket, readCommand_ripMsg, ripCommand_ripPacket]

/-- The threads that move packets. -/
def StackEvent.Moves {T : Topology} : StackEvent T → Prop
  | .operate _ (.processOutQueue _ _) => True
  | .processInQueue _ => True
  | .recvData _ _ => True
  | _ => False

namespace Stacks

variable {T : Topology}

/-- What can come of a frame on its way to a node: three steps for each link it crosses from there,
and for each response that a request brings about. -/
def load (s : Stacks T) (n : Fin T.size) (bytes : List UInt8) : ℕ :=
  if byteAt bytes 9 = ripProto then
    if ripCommand bytes = 1 then 3 * (T.links n).length else 0
  else 3 * ((s.nodes n).rtable[destination bytes]?).elim 0 fun ets ↦ ets.e.cost.toNat

/-- What can come of a packet that waits at a node. -/
def onward (load : Fin T.size → List UInt8 → ℕ) (n : Fin T.size) (msg : IpMsg) : ℕ :=
  if h : msg.ifc < (T.links n).length then load (T.peer ⟨n, msg.ifc, h⟩).1 msg.packet else 0

def weighNode (load : Fin T.size → List UInt8 → ℕ) (n : Fin T.size) (node : Node) : ℕ :=
  (node.incomingqueue.map fun msg ↦ 3 + onward load n msg).sum +
    (node.outgoingqueue.map fun msg ↦ 1 + load n msg.ippkt).sum

/-- The frames of a network by the steps that are left to them. -/
def weigh (load : Fin T.size → List UInt8 → ℕ) (s : Stacks T) : ℕ :=
  ∑ n, weighNode load n (s.nodes n) + (s.wire.map fun d ↦ 2 + load (T.peer d.source).1 d.bytes).sum

def weight (s : Stacks T) : ℕ := weigh s.load s

/-- Lighter frames weigh less. -/
theorem weigh_le {P : Fin T.size → List UInt8 → Prop} {load load' : Fin T.size → List UInt8 → ℕ}
    (hle : ∀ n bytes, P n bytes → load' n bytes ≤ load n bytes) {s : Stacks T}
    (hall : s.Everywhere P) : weigh load' s ≤ weigh load s := by
  refine Nat.add_le_add (Finset.sum_le_sum fun n _ ↦ Nat.add_le_add ?_ ?_) ?_
  · refine List.sum_le_sum fun msg hmsg ↦ Nat.add_le_add_left ?_ 3
    unfold onward
    split_ifs with hifc
    · exact hle _ _ (hall.queued n msg hmsg hifc)
    · exact le_rfl
  · exact List.sum_le_sum fun msg hmsg ↦ Nat.add_le_add_left (hle _ _ (hall.received n msg hmsg)) 1
  · exact List.sum_le_sum fun d hd ↦ Nat.add_le_add_left (hle _ _ (hall.wire d hd)) 2

theorem weigh_put (load : Fin T.size → List UInt8 → ℕ) (s : Stacks T) (n : Fin T.size)
    (node : Node) (wire : List (Datagram T)) :
    weigh load ⟨(s.put n node).nodes, wire⟩ + weighNode load n (s.nodes n) =
      ∑ m, weighNode load m (s.nodes m) +
        (wire.map fun d ↦ 2 + load (T.peer d.source).1 d.bytes).sum + weighNode load n node := by
  have hsum := s.sum_put (weighNode load) n node
  unfold weigh
  dsimp only
  omega

theorem steady_of_moves (s : Stacks T) {event : StackEvent T} (hmoves : event.Moves) :
    s.Steady event := by
  cases event with
  | operate n op =>
    cases op with
    | processOutQueue stale clock => exact trivial
    | command c => exact absurd hmoves id
    | application dest proto payload => exact absurd hmoves id
  | processInQueue n => exact trivial
  | recvData index stack => exact trivial
  | lose index => exact absurd hmoves id
  | duplicate index => exact absurd hmoves id

namespace Serving

variable {s s' : Stacks T} {net : Net T}

/-- A routing packet that was received is a message some node made. -/
theorem genuine_of_received (h : s.Serving net) {n : Fin T.size} {msg : RcvMsg}
    (hmsg : msg ∈ (s.nodes n).outgoingqueue) (hproto : byteAt msg.ippkt 9 = ripProto) :
    ∃ vip, Genuine vip msg.ippkt := by
  obtain ⟨e, -, -, hcarries⟩ := h.tracks.received n msg hmsg
  obtain ⟨f, hf, -, hframe⟩ := hcarries hproto
  exact ⟨_, hframe ▸ h.tracks.valid.flight f hf⟩

/-- The responses to a request. -/
theorem sum_responses_le (load : Fin T.size → List UInt8 → ℕ)
    (hload : ∀ n bytes, byteAt bytes 9 = ripProto → ripCommand bytes ≠ 1 → load n bytes = 0)
    (n : Fin T.size) (node : Node) (ids : List ℕ) :
    ((ids.filterMap (node.ripPacket? 2)).map fun msg ↦ 3 + onward load n msg).sum ≤
      3 * ids.length := by
  have hthree : ∀ weight ∈ (ids.filterMap (node.ripPacket? 2)).map fun msg ↦ 3 + onward load n msg,
      weight ≤ 3 := by
    intro weight hweight
    obtain ⟨msg, hmsg, rfl⟩ := List.mem_map.mp hweight
    obtain ⟨id, -, hpacket⟩ := List.mem_filterMap.mp hmsg
    obtain ⟨ifc, -, -, rfl⟩ := Node.ripPacket?_ifc hpacket
    have hcommand := ripCommand_ripPacket node 2 id ifc
    unfold onward
    split_ifs
    · rw [hload _ _ (node.protocol_ripPacket 2 id ifc) (by rw [hcommand]; decide)]
    · exact le_rfl
  refine (List.sum_le_card_nsmul _ 3 hthree).trans ?_
  rw [List.length_map, smul_eq_mul, Nat.mul_comm]
  exact Nat.mul_le_mul_left 3 (List.length_filterMap_le _ _)

/-- What a node makes of the frame it handles weighs no more than the frame did. -/
theorem queue_le (h : s.Serving net) {n : Fin T.size} {stale : List UInt8} {clock : ℕ → Timeval}
    {node : Node} (hoperate : (s.nodes n).operate (.processOutQueue stale clock) = some node) :
    ∃ first rest queue, (s.nodes n).outgoingqueue = first :: rest ∧ node.outgoingqueue = rest ∧
      node.incomingqueue = (s.nodes n).incomingqueue ++ queue ∧
      (queue.map fun msg ↦ 3 + onward s.load n msg).sum ≤ s.load n first.ippkt := by
  obtain ⟨first, rest, hqueue, rfl⟩ := Node.operate_processOutQueue hoperate
  have hmsg : first ∈ (s.nodes n).outgoingqueue := by
    rw [hqueue]
    exact List.mem_cons_self
  have hfirst := (h.tracks.orderly.nodes n).received first hmsg
  let node : Node := { s.nodes n with outgoingqueue := rest }
  refine ⟨first, rest, ?_⟩
  rw [← hfirst.length, List.take_length]
  rcases hfirst.regular.transferData_cases node stale first.next clock with ⟨hproto, hrun⟩ |
    ⟨-, -, printed, -, hrun⟩ | ⟨-, -, -, hrun⟩ | ⟨hproto, hdest, -, id, hfound, hrun⟩
  · obtain ⟨vip, hgenuine⟩ := h.genuine_of_received hmsg hproto
    rw [hrun]
    split_ifs
    · have hcommand := hgenuine.readCommand_eq node.order stale
      rcases node.transferIpToRip_cases (ripPayload (first.ippkt ++ stale)) first.next clock with
        ⟨hrequest, hrip⟩ | ⟨-, hrip⟩ | ⟨-, -, hrip⟩
      · rw [hrip, Node.prepareMsg_eq]
        refine ⟨_, hqueue, rfl, rfl, ?_⟩
        have hload : s.load n first.ippkt = 3 * (T.links n).length := by
          unfold load
          rw [if_pos hproto, if_pos (hcommand.symm.trans hrequest)]
        have hlength : node.interfaces.length = (T.links n).length := by
          have hmap := congrArg List.length (h.tracks.orderly.vips n)
          rwa [List.length_map, List.length_map] at hmap
        rw [hload, ← hlength]
        refine (sum_responses_le s.load ?_ n node _).trans_eq (by rw [List.length_range])
        intro m bytes hrip hcommand
        unfold load
        rw [if_pos hrip, if_neg hcommand]
      · rw [hrip]
        exact ⟨[], hqueue, rfl, (List.append_nil _).symm, Nat.zero_le _⟩
      · rw [hrip]
        exact ⟨[], hqueue, rfl, (List.append_nil _).symm, Nat.zero_le _⟩
    · exact ⟨[], hqueue, rfl, (List.append_nil _).symm, Nat.zero_le _⟩
  · rw [hrun]
    exact ⟨[], hqueue, rfl, (List.append_nil _).symm, Nat.zero_le _⟩
  · rw [hrun]
    exact ⟨[], hqueue, rfl, (List.append_nil _).symm, Nat.zero_le _⟩
  · rw [hrun]
    refine ⟨_, hqueue, rfl, rfl, ?_⟩
    obtain ⟨k, ets, haged, hets, hk⟩ := h.frames.received n first hmsg hproto
    obtain ⟨id', hid, hfound', -, ets', hfar, hlt⟩ := h.next_link hets (h.not_owns.mp hdest)
    obtain rfl : id = id' := Option.some.inj (hfound.symm.trans hfound')
    have hstored := haged.protocol_ne (by omega) hfirst.regular.header (s.nodes n).order
    have hbefore : s.load n first.ippkt = 3 * ets.e.cost.toNat := by
      unfold load
      rw [if_neg hproto, hets]
      rfl
    have hafter : s.load (T.peer ⟨n, id, hid⟩).1
        (forwardedFrame (s.nodes n).order first.ippkt) = 3 * ets'.e.cost.toNat := by
      unfold load
      rw [if_neg hstored, destination_forwardedFrame _ hfirst.regular.header, hfar]
      rfl
    rw [List.map_singleton, List.sum_singleton, onward, dif_pos hid, hafter, hbefore]
    omega

/-- A step of a thread that moves packets is lighter, with the routes there were. -/
theorem weigh_lt (h : s.Serving net) {event : StackEvent T} (hmoves : event.Moves)
    (hstep : s.Step event s') : weigh s.load s' < s.weight := by
  cases event with
  | operate n op =>
    cases op with
    | processOutQueue stale clock =>
      obtain ⟨node, hoperate, rfl⟩ := Option.map_eq_some_iff.mp hstep
      obtain ⟨first, rest, queue, hbefore, hafter, hqueue, hle⟩ := h.queue_le hoperate
      have hput := weigh_put s.load s n node s.wire
      have hlighter : weighNode s.load n node < weighNode s.load n (s.nodes n) := by
        unfold weighNode
        rw [hqueue, hafter, hbefore, List.map_append, List.sum_append, List.map_cons, List.sum_cons]
        omega
      unfold weight
      change weigh s.load (s.put n node) + _ = weigh s.load s + _ at hput
      omega
    | command c => exact absurd hmoves id
    | application dest proto payload => exact absurd hmoves id
  | processInQueue n =>
    obtain ⟨msg, rest, hqueue, rfl⟩ := processInQueue_step hstep
    let node : Node := { s.nodes n with incomingqueue := rest }
    have hsends := (h.tracks.orderly.nodes n).queued msg (by rw [hqueue]; exact List.mem_cons_self)
    have hput := weigh_put s.load s n node (s.wire ++ T.sendFrame n (s.nodes n) msg)
    have htaken : weighNode s.load n (s.nodes n) =
        weighNode s.load n node + (3 + onward s.load n msg) := by
      unfold weighNode
      rw [hqueue, List.map_cons, List.sum_cons]
      simp only [node]
      omega
    have hsent : ((T.sendFrame n (s.nodes n) msg).map
        fun d ↦ 2 + s.load (T.peer d.source).1 d.bytes).sum ≤ 2 + onward s.load n msg := by
      unfold Topology.sendFrame onward
      split_ifs with hifc hsocket
      · rw [List.map_singleton, List.sum_singleton, ← hsends.length, List.take_length]
      · exact Nat.zero_le _
      · exact Nat.zero_le _
    rw [List.map_append, List.sum_append] at hput
    unfold weight
    unfold weigh at hput ⊢
    dsimp only [node] at hput htaken ⊢
    omega
  | recvData index stack =>
    obtain ⟨d, hget, rfl⟩ := recvData_step h.tracks.orderly hstep
    let e := T.peer d.source
    let node := (s.nodes e.1).transferLinkToIp d.bytes d.bytes.length (T.vip e)
    have hput := weigh_put s.load s e.1 node (s.wire.eraseIdx index)
    have htaken : weighNode s.load e.1 node =
        weighNode s.load e.1 (s.nodes e.1) + (1 + s.load e.1 d.bytes) := by
      simp only [node, Node.transferLinkToIp]
      unfold weighNode
      dsimp only
      rw [List.map_append, List.sum_append, List.map_singleton, List.sum_singleton]
      dsimp only
      rw [List.take_length]
      omega
    have herased : 2 + s.load e.1 d.bytes + ((s.wire.eraseIdx index).map
        fun d ↦ 2 + s.load (T.peer d.source).1 d.bytes).sum =
          (s.wire.map fun d ↦ 2 + s.load (T.peer d.source).1 d.bytes).sum := by
      obtain ⟨hindex, rfl⟩ := List.getElem?_eq_some_iff.mp hget
      have hperm := (List.getElem_cons_eraseIdx_perm hindex).map
        fun d ↦ 2 + s.load (T.peer d.source).1 d.bytes
      rw [← hperm.sum_eq, List.map_cons, List.sum_cons]
    unfold weight
    unfold weigh at hput ⊢
    dsimp only [node, e] at hput htaken herased ⊢
    omega
  | lose index => exact absurd hmoves id
  | duplicate index => exact absurd hmoves id

/-- The routes there are after a step are no dearer for the frames on their way. -/
theorem load_le (h : s.Serving net) {net' : Net T} (h' : s'.Tracks net')
    (himproves : DistanceVector.Improves net.abstract net'.abstract) (n : Fin T.size)
    (bytes : List UInt8) (hdestined : s.Destined n bytes) : s'.load n bytes ≤ s.load n bytes := by
  unfold load
  split_ifs with hproto
  · exact le_rfl
  · exact le_rfl
  · obtain ⟨k, ets, -, hets, -⟩ := hdestined hproto
    have hget : (net.nodes n).rtable[destination bytes]? = some ets := by
      rw [h.tracks.nodes n]
      exact hets
    obtain ⟨r', hr', hle⟩ := himproves n _ _ (Net.abstract_table hget)
    obtain ⟨ets', hets', rfl⟩ := Topology.state_table_eq_some.mp hr'
    rw [h'.nodes n] at hets'
    have hget' : (s'.nodes n).rtable[destination bytes]? = some ets' := hets'
    rw [hets, hget', Option.elim_some, Option.elim_some]
    exact Nat.mul_le_mul_left 3 hle

/-- Every step of a thread that moves packets makes the network lighter. -/
theorem weight_lt (hends : Fintype.card T.End ≤ maxEntries) (hdefault : ∀ e, T.vip e ≠ defaultAddr)
    (h : s.Serving net) {event : StackEvent T} (hmoves : event.Moves) (hstep : s.Step event s') :
    s'.weight < s.weight := by
  have hsteady := s.steady_of_moves hmoves
  obtain ⟨-, net', h', himproves⟩ := h.step hends hdefault ⟨hstep, hsteady⟩
  have hframes : s'.Everywhere s.Destined :=
    h.frames.step (fun _ _ ↦ id) h.tracks.orderly (h.queues hdefault hsteady) hstep
  exact (weigh_le (h.load_le h'.tracks himproves) hframes).trans_lt (h.weigh_lt hmoves hstep)

end Serving

end Stacks

end IpRipStack
