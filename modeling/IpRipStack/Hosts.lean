import IpRipStack.Drain
import IpRipStack.HandOff

/-!
# All threads of all nodes, and their send buffers

A network of threads in which `send_frame` waits. In `Stacks` what a node sends is on the wire at
once; here `process_in_queue` pops a packet and calls `send_frame`, which has to find the one buffer
of the interface free, and the link thread passes the buffer to `sendto`, all by the steps of
`SendState`. Where `select` finds a datagram, the link thread reads it with `recv_data` on its way to
the buffer, in one step. A command, a packet of the user and a turn of `process_out_queue` are one
step each, as in `Stacks`.

The datagrams of a network in `Stacks` are those of the hosts with the frames that are underway to
the wire (`Hosts.Shows`). In steady runs (`Hosts.SteadyStep`), whose link threads do not signal a
sender that is about to wait and whose calls of `sendto` take all they are given, the threads that
send do nothing that `Stacks` would see, and all others do what they do there
(`Hosts.Shows.matched`).
-/

set_option autoImplicit false
set_option relaxedAutoImplicit false

namespace IpRipStack

open MachineWord Runs

/-- The nodes of a network, the sending half of each, and the datagrams between the hosts. -/
structure Hosts (T : Topology) where
  nodes : Fin T.size → Node
  senders : (n : Fin T.size) → SendState (Fin (T.links n).length)
  wire : List (Datagram T)

/-- What happens: a thread of a node does something to the node, `process_in_queue` pops a packet,
its call of `send_frame` takes a step or wakes without a signal, a link thread takes a step or comes
from `select` to a datagram, which it reads, the wire loses or duplicates one. -/
inductive HostEvent (T : Topology)
  | operate (n : Fin T.size) (op : NodeOp)
  | pop (n : Fin T.size)
  | sender (n : Fin T.size)
  | spurious (n : Fin T.size)
  | link (e : T.End) (answer : Answer)
  | recvData (index : ℕ) (stack : RecvBuffer)
  | lose (index : ℕ)
  | duplicate (index : ℕ)

/-- The threads that move packets. -/
def HostEvent.Own {T : Topology} : HostEvent T → Prop
  | .operate _ (.processOutQueue _ _) => True
  | .pop _ | .sender _ | .spurious _ | .link _ _ | .recvData _ _ => True
  | _ => False

/-- The steps that take a packet off a queue or a datagram off the wire. -/
def HostEvent.moves {T : Topology} : HostEvent T → Bool
  | .operate _ (.processOutQueue _ _) => true
  | .pop _ | .recvData _ _ => true
  | _ => false

/-- What an operation on a node does to `s_local`. -/
def SendState.follow {count : ℕ} (sender : SendState (Fin count)) : NodeOp → SendState (Fin count)
  | .command (.down interface) =>
    if h : interface < count then
      sender.setSlot ⟨interface, h⟩ { sender.slots ⟨interface, h⟩ with isOpen := false }
    else sender
  | .command (.up interface sockfd _) =>
    if h : interface < count then
      sender.setSlot ⟨interface, h⟩ { sender.slots ⟨interface, h⟩ with isOpen := sockfd != -1 }
    else sender
  | _ => sender

/-- A link thread has come through `select`. -/
def SendState.polled {count : ℕ} (sender : SendState (Fin count)) (id : Fin count) :
    SendState (Fin count) :=
  sender.setSlot id { sender.slots id with link := .polled }

namespace Topology

/-- Frames of the interfaces of a node, as datagrams. -/
def frames (T : Topology) (n : Fin T.size) (bytes : Fin (T.links n).length → List (List UInt8)) :
    List (Datagram T) :=
  (List.finRange (T.links n).length).flatMap fun id ↦ (bytes id).map (Datagram.mk ⟨n, id⟩)

/-- What the calls of `sendto` in a step have passed. -/
def passed (T : Topology) (n : Fin T.size) (before after : SendState (Fin (T.links n).length)) :
    List (Datagram T) :=
  T.frames n fun id ↦ (after.sentBy id).drop (before.sentBy id).length

end Topology

namespace Hosts

variable {T : Topology}

/-- The nodes after their constructors, with all interfaces up. -/
def start (T : Topology) (clock : Fin T.size → ℕ → Timeval) : Hosts T where
  nodes n := Node.new (T.order n) (T.links n) (clock n)
  senders _ := SendState.start
  wire := []

/-- The nodes and the wire, without what is between them. -/
def toStacks (h : Hosts T) : Stacks T := ⟨h.nodes, h.wire⟩

/-- A step of the sending half of a node. -/
def sendStep (h : Hosts T) (n : Fin T.size) (event : SendEvent (Fin (T.links n).length)) :
    Option (Hosts T) :=
  ((h.senders n).next event).map fun sender ↦
    { h with
      senders := Function.update h.senders n sender
      wire := h.wire ++ T.passed n (h.senders n) sender }

def handle (h : Hosts T) : HostEvent T → Option (Hosts T)
  | .operate n op => ((h.nodes n).operate op).map fun node ↦
    { h with
      nodes := Function.update h.nodes n node
      senders := Function.update h.senders n ((h.senders n).follow op) }
  | .pop n =>
    match (h.nodes n).incomingqueue with
    | [] => none -- `pop` waits
    | msg :: rest =>
      if hifc : msg.ifc < (T.links n).length then
        let node : Node := { h.nodes n with incomingqueue := rest }
        sendStep { h with nodes := Function.update h.nodes n node } n
          (.pop ⟨msg.ifc, hifc⟩ (msg.packet.take msg.size))
      else none
  | .sender n => h.sendStep n .sender
  | .spurious n => h.sendStep n .spurious
  | .link e answer => h.sendStep e.1 (.link e.2 answer)
  | .recvData index stack =>
    (h.wire[index]?).bind fun d ↦
      let e := T.peer d.source
      let slot := (h.senders e.1).slots e.2
      if slot.isOpen = true ∧ slot.link = .top then
        (recvData (h.nodes e.1).order stack [.datagram d.bytes]).map fun handed ↦
          { nodes := Function.update h.nodes e.1
              ((h.nodes e.1).transferLinkToIp handed.1.buf handed.1.len.toNat (T.vip e))
            senders := Function.update h.senders e.1 ((h.senders e.1).polled e.2)
            wire := h.wire.eraseIdx index }
      else none
  | .lose index => some { h with wire := h.wire.eraseIdx index }
  | .duplicate index => (h.wire[index]?).map fun d ↦ { h with wire := h.wire ++ [d] }

def Step (h : Hosts T) (event : HostEvent T) (h' : Hosts T) : Prop := h.handle event = some h'

/-- What happens in a steady network of hosts: on the nodes and the wire what is steady there; a link
thread does not signal a sender that is about to wait, and a call of `sendto` takes all it is
given. -/
def Steady (h : Hosts T) : HostEvent T → Prop
  | .operate n op => h.toStacks.Steady (.operate n op)
  | .link e answer => (h.senders e.1).Harmless (.link e.2 answer) ∧
    ((h.senders e.1).slots e.2).Accepts answer
  | .lose index => h.toStacks.Steady (.lose index)
  | _ => True

def SteadyStep (h : Hosts T) (event : HostEvent T) (h' : Hosts T) : Prop :=
  h.Step event h' ∧ h.Steady event

/-- A step of a steady network that is left alone. -/
def OwnStep (h : Hosts T) (event : HostEvent T) (h' : Hosts T) : Prop :=
  h.SteadyStep event h' ∧ event.Own

/-- No run of a network that is left alone takes a packet off a queue or a datagram off the wire. -/
def AtRest (h : Hosts T) : Prop :=
  ∀ events h', Run OwnStep h events h' → events.countP HostEvent.moves = 0

/-- What an event adds: the packet of a user. -/
def added (h : Hosts T) : HostEvent T → Multiset Shown
  | .operate n op => (h.nodes n).added op
  | _ => 0

/-- What the wire adds by duplicating a datagram. -/
def copied (h : Hosts T) : HostEvent T → Multiset Shown
  | .duplicate index => h.toStacks.copied (.duplicate index)
  | _ => 0

/-- The frames that have been popped and are not on the wire yet. -/
def underway (h : Hosts T) : Multiset (Datagram T) :=
  ∑ n, (T.frames n fun id ↦ (h.senders n).onTheWay id : Multiset (Datagram T))

/-- What the nodes have printed, and what is on its way. -/
def total (h : Hosts T) : Multiset Shown :=
  h.toStacks.total + (h.underway.map fun d ↦ content d.bytes).sum

/-- The steps that are left to the frames, as in `Stacks.weight`. -/
def weight (h : Hosts T) : ℕ :=
  h.toStacks.weight +
    (h.underway.map fun d ↦ 2 + h.toStacks.load (T.peer d.source).1 d.bytes).sum

end Hosts

/-- The queue thread of the network layer is the one that operates on a node left alone. -/
theorem HostEvent.Own.exists_processOutQueue {T : Topology} {n : Fin T.size} {op : NodeOp}
    (hown : (HostEvent.operate n op).Own) : ∃ stale clock, op = .processOutQueue stale clock := by
  cases op with
  | processOutQueue stale clock => exact ⟨stale, clock, rfl⟩
  | command c => exact absurd hown id
  | application dest proto payload => exact absurd hown id

/-! ### The frames of a node -/

theorem Regular.ne_nil {bytes : List UInt8} (h : Regular bytes) : bytes ≠ [] :=
  List.ne_nil_of_length_pos (Nat.lt_of_lt_of_le (by decide) h.header)

theorem coe_eraseIdx {α : Type*} {l : List α} {index : ℕ} {a : α} (h : l[index]? = some a) :
    (l : Multiset α) = a ::ₘ (l.eraseIdx index : Multiset α) := by
  obtain ⟨hindex, rfl⟩ := List.getElem?_eq_some_iff.mp h
  exact (Multiset.coe_eq_coe.mpr (List.getElem_cons_eraseIdx_perm hindex)).symm

namespace SendState

variable {count : ℕ} {sender : SendState (Fin count)} {id : Fin count}

/-- To come through `select` is a step of a link thread. -/
theorem polled_step (hopen : (sender.slots id).isOpen = true) (htop : (sender.slots id).link = .top)
    (answer : Answer) : sender.Step (.link id answer) (sender.polled id) := by
  have hslot : (sender.slots id).linkStep answer = { sender.slots id with link := .polled } := by
    rw [Slot.linkStep, htop]
    dsimp only
    rw [if_pos hopen]
  have hsignalling : ¬ (sender.slots id).link = .signalling := by
    rw [htop]
    decide
  unfold Step next
  dsimp only
  rw [hslot, if_neg hsignalling]
  rfl

/-- No frame gets further by it. -/
theorem onTheWay_polled (htop : (sender.slots id).link = .top) (id' : Fin count) :
    (sender.polled id).onTheWay id' = sender.onTheWay id' := by
  have hunsent : ((sender.polled id).slots id').unsent = (sender.slots id').unsent := by
    by_cases hid : id' = id
    · subst hid
      unfold polled setSlot
      dsimp only
      rw [Function.update_self, Slot.unsent, Slot.unsent, htop]
    · unfold polled setSlot
      dsimp only
      rw [Function.update_of_ne hid]
  unfold onTheWay
  rw [hunsent]
  rfl

end SendState

namespace Topology

variable {T : Topology} {n : Fin T.size}

theorem coe_frames (bytes : Fin (T.links n).length → List (List UInt8)) :
    (T.frames n bytes : Multiset (Datagram T)) =
      ∑ id, ((bytes id).map (Datagram.mk ⟨n, id⟩) : Multiset (Datagram T)) := by
  have hlist : ∀ ids : List (Fin (T.links n).length),
      ((ids.flatMap fun id ↦ (bytes id).map (Datagram.mk ⟨n, id⟩) : List (Datagram T)) :
        Multiset (Datagram T)) =
      (ids.map fun id ↦ ((bytes id).map (Datagram.mk ⟨n, id⟩) : Multiset (Datagram T))).sum := by
    intro ids
    induction ids with
    | nil => rfl
    | cons id ids ih =>
      rw [List.flatMap_cons, List.map_cons, List.sum_cons, ← Multiset.coe_add, ih]
  rw [Fin.sum_univ_def]
  exact hlist _

theorem coe_frames_append (first second : Fin (T.links n).length → List (List UInt8)) :
    (T.frames n (fun id ↦ first id ++ second id) : Multiset (Datagram T)) =
      (T.frames n first : Multiset (Datagram T)) + (T.frames n second : Multiset (Datagram T)) := by
  rw [coe_frames, coe_frames, coe_frames, ← Finset.sum_add_distrib]
  refine Finset.sum_congr rfl fun id _ ↦ ?_
  rw [List.map_append, Multiset.coe_add]

theorem frames_nil : T.frames n (fun _ ↦ []) = [] :=
  List.flatMap_eq_nil_iff.mpr fun _ _ ↦ rfl

theorem coe_frames_single (ifc : Fin (T.links n).length) (frame : List UInt8) :
    (T.frames n (fun id ↦ if ifc = id then [frame] else []) : Multiset (Datagram T)) =
      {⟨⟨n, ifc⟩, frame⟩} := by
  rw [coe_frames, Finset.sum_eq_single ifc]
  · rw [if_pos rfl]
    rfl
  · intro id _ hid
    rw [if_neg (Ne.symm hid)]
    rfl
  · exact fun h ↦ absurd (Finset.mem_univ ifc) h

theorem mem_frames {bytes : Fin (T.links n).length → List (List UInt8)} {id : Fin (T.links n).length}
    {frame : List UInt8} (h : frame ∈ bytes id) : ⟨⟨n, id⟩, frame⟩ ∈ T.frames n bytes :=
  List.mem_flatMap.mpr ⟨id, List.mem_finRange id, List.mem_map_of_mem h⟩

/-- A step of the sending half of a node passes frames on in their order. Assumes: interfaces that
stay up, calls of `sendto` that take all they are given, and no frame without bytes. -/
theorem passed_add {before after : SendState (Fin (T.links n).length)}
    {event : SendEvent (Fin (T.links n).length)} (horderly : ∀ id, before.Orderly id)
    (haccepts : ∀ id, before.Accepts id event) (hstep : before.Step event after)
    (hbytes : ∀ id, ∀ frame ∈ before.onTheWay id ++ event.popped id, frame ≠ []) :
    (T.passed n before after : Multiset (Datagram T)) +
        (T.frames n fun id ↦ after.onTheWay id : Multiset (Datagram T)) =
      (T.frames n fun id ↦ before.onTheWay id : Multiset (Datagram T)) +
        (T.frames n fun id ↦ event.popped id : Multiset (Datagram T)) := by
  have hway : ∀ id, before.onTheWay id ++ event.popped id =
      (after.sentBy id).drop (before.sentBy id).length ++ after.onTheWay id := by
    intro id
    obtain ⟨taken, hway, hsent⟩ := (horderly id).conserves (haccepts id) hstep
    have hall : sendable taken = taken := by
      refine List.filter_eq_self.mpr fun frame hframe ↦ decide_eq_true (hbytes id frame ?_)
      rw [hway]
      exact List.mem_append_left _ hframe
    rw [hway, hsent, List.drop_left, hall]
  unfold passed
  rw [← coe_frames_append, ← coe_frames_append]
  exact congrArg (fun bytes ↦ (T.frames n bytes : Multiset (Datagram T))) (funext hway).symm

end Topology

namespace Hosts

variable {T : Topology}

/-- The network as `Stacks` sees it: what is underway is on the wire. -/
structure Shows (h : Hosts T) (s : Stacks T) : Prop where
  nodes : s.nodes = h.nodes
  wire : (s.wire : Multiset (Datagram T)) = (h.wire : Multiset (Datagram T)) + h.underway

/-- Replacing the sending half of one node. -/
theorem underway_update (h : Hosts T) (n : Fin T.size) (sender : SendState (Fin (T.links n).length))
    (nodes : Fin T.size → Node) (wire : List (Datagram T)) :
    underway ⟨nodes, Function.update h.senders n sender, wire⟩ +
        (T.frames n fun id ↦ (h.senders n).onTheWay id : Multiset (Datagram T)) =
      h.underway + (T.frames n fun id ↦ sender.onTheWay id : Multiset (Datagram T)) := by
  let f (m : Fin T.size) (sender : SendState (Fin (T.links m).length)) : Multiset (Datagram T) :=
    (T.frames m fun id ↦ sender.onTheWay id : Multiset (Datagram T))
  have hupdate : (fun m ↦ f m (Function.update h.senders n sender m)) =
      Function.update (fun m ↦ f m (h.senders m)) n (f n sender) := by
    ext1 m
    by_cases hm : m = n
    · subst hm
      rw [Function.update_self, Function.update_self]
    · rw [Function.update_of_ne hm, Function.update_of_ne hm]
  have hsplit := Finset.sum_eq_add_sum_sdiff_singleton_of_mem (Finset.mem_univ n)
    fun m ↦ f m (h.senders m)
  unfold underway
  change ∑ m, f m (Function.update h.senders n sender m) + f n (h.senders n) =
    ∑ m, f m (h.senders m) + f n sender
  rw [hupdate, Finset.sum_update_of_mem (Finset.mem_univ n), hsplit]
  abel

namespace Shows

variable {h : Hosts T} {s : Stacks T}

theorem start (T : Topology) (clock : Fin T.size → ℕ → Timeval) :
    (Hosts.start T clock).Shows (Stacks.start T clock) := by
  refine ⟨rfl, ?_⟩
  have hnone : ∀ n : Fin T.size, (T.frames n fun id ↦ (SendState.start :
      SendState (Fin (T.links n).length)).onTheWay id : Multiset (Datagram T)) = 0 :=
    fun n ↦ congrArg _ Topology.frames_nil
  have hunderway : (Hosts.start T clock).underway = 0 := Finset.sum_eq_zero fun n _ ↦ hnone n
  rw [hunderway]
  rfl

theorem total_eq (hs : h.Shows s) : s.total = h.total := by
  have hsum := congrArg (fun wire ↦ (wire.map fun d : Datagram T ↦ content d.bytes).sum) hs.wire
  simp only [Multiset.map_add, Multiset.sum_add, Multiset.map_coe, Multiset.sum_coe] at hsum
  unfold Hosts.total Stacks.total
  rw [hs.nodes, hsum, add_assoc]
  rfl

theorem weight_eq (hs : h.Shows s) : s.weight = h.weight := by
  have hload : s.load = h.toStacks.load := by
    funext n bytes
    unfold Stacks.load
    rw [hs.nodes]
    rfl
  have hsum := congrArg (fun wire ↦ (wire.map fun d : Datagram T ↦
    2 + h.toStacks.load (T.peer d.source).1 d.bytes).sum) hs.wire
  simp only [Multiset.map_add, Multiset.sum_add, Multiset.map_coe, Multiset.sum_coe] at hsum
  unfold Hosts.weight Stacks.weight Stacks.weigh
  rw [hload, hs.nodes, hsum, ← add_assoc]
  rfl

theorem mem_wire (hs : h.Shows s) {n : Fin T.size} {id : Fin (T.links n).length} {frame : List UInt8}
    (hframe : frame ∈ (h.senders n).onTheWay id) : ⟨⟨n, id⟩, frame⟩ ∈ s.wire := by
  refine Multiset.mem_coe.mp ?_
  rw [hs.wire]
  refine Multiset.mem_add.mpr (Or.inr (Multiset.mem_sum.mpr ⟨n, Finset.mem_univ n, ?_⟩))
  exact Multiset.mem_coe.mpr (Topology.mem_frames hframe)

/-- A datagram on the wire of the hosts is on that of `Stacks`. -/
theorem exists_index (hs : h.Shows s) {index : ℕ} {d : Datagram T} (hget : h.wire[index]? = some d) :
    ∃ index', s.wire[index']? = some d ∧ (s.wire.eraseIdx index' : Multiset (Datagram T)) =
      (h.wire.eraseIdx index : Multiset (Datagram T)) + h.underway := by
  have hmem : d ∈ s.wire := by
    refine Multiset.mem_coe.mp ?_
    rw [hs.wire, coe_eraseIdx hget]
    exact Multiset.mem_add.mpr (Or.inl (Multiset.mem_cons_self d _))
  obtain ⟨index', hindex, hget'⟩ := List.mem_iff_getElem.mp hmem
  have hsome : s.wire[index']? = some d := List.getElem?_eq_some_iff.mpr ⟨hindex, hget'⟩
  have hwire := hs.wire
  rw [coe_eraseIdx hsome, coe_eraseIdx hget, Multiset.cons_add] at hwire
  exact ⟨index', hsome, (Multiset.cons_inj_right d).mp hwire⟩

/-- No frame without bytes is underway. -/
theorem ne_nil (hs : h.Shows s) (horderly : s.Orderly) {n : Fin T.size}
    {id : Fin (T.links n).length} {frame : List UInt8} (hframe : frame ∈ (h.senders n).onTheWay id) :
    frame ≠ [] :=
  (horderly.wire _ (hs.mem_wire hframe)).ne_nil

end Shows

/-! ### What one step does -/

theorem sendStep_eq {h h' : Hosts T} {n : Fin T.size} {event : SendEvent (Fin (T.links n).length)}
    (hstep : h.sendStep n event = some h') : ∃ sender, (h.senders n).Step event sender ∧
      h' = ⟨h.nodes, Function.update h.senders n sender, h.wire ++ T.passed n (h.senders n) sender⟩ := by
  obtain ⟨sender, hnext, rfl⟩ := Option.map_eq_some_iff.mp hstep
  exact ⟨sender, hnext, rfl⟩

/-- Replacing the sending half of one node by one with a property that all have. -/
theorem forall_update {P : (n : Fin T.size) → SendState (Fin (T.links n).length) → Prop}
    {senders : (n : Fin T.size) → SendState (Fin (T.links n).length)} (h : ∀ m, P m (senders m))
    {n : Fin T.size} {sender : SendState (Fin (T.links n).length)} (hsender : P n sender)
    (m : Fin T.size) : P m (Function.update senders n sender m) := by
  by_cases hm : m = n
  · subst hm
    rw [Function.update_self]
    exact hsender
  · rw [Function.update_of_ne hm]
    exact h m

/-- An operation that is steady leaves the sockets as they are. Assumes: interfaces that are up. -/
theorem follow_eq_self {h : Hosts T} {n : Fin T.size} {op : NodeOp}
    (hsteady : h.toStacks.Steady (.operate n op)) {count : ℕ} {sender : SendState (Fin count)}
    (hup : ∀ id, (sender.slots id).isOpen = true) : sender.follow op = sender := by
  cases op with
  | command c =>
    cases c with
    | down interface => exact absurd hsteady id
    | up interface sockfd now =>
      have hopen : (sockfd != -1) = true := bne_iff_ne.mpr hsteady
      unfold SendState.follow
      dsimp only
      split_ifs with hinterface
      · rw [hopen, ← hup ⟨interface, hinterface⟩]
        exact sender.setSlot_self _
      · rfl
    | send msgType => rfl
    | refresh curtv => rfl
  | application dest proto payload => rfl
  | processOutQueue stale clock => rfl

theorem steady_operate {s t : Stacks T} (hnodes : s.nodes = t.nodes) {n : Fin T.size} {op : NodeOp}
    (h : t.Steady (.operate n op)) : s.Steady (.operate n op) := by
  obtain ⟨nodes, wire⟩ := s
  obtain rfl : nodes = t.nodes := hnodes
  cases op with
  | command c => cases c <;> exact h
  | application dest proto payload => exact h
  | processOutQueue stale clock => exact h

/-- The invariant of a steady network of hosts. -/
structure Serving (h : Hosts T) (net : Net T) : Prop where
  shown : ∃ s, h.Shows s ∧ s.Serving net
  tracked : ∀ n, (h.senders n).Tracked
  orderly : ∀ n id, (h.senders n).Orderly id

/-- A steady step is seen as one of the threads of `Stacks`, which moves packets if the hosts are left
alone, or is not seen. -/
inductive Matched (h : Hosts T) (event : HostEvent T) (h' : Hosts T) (s : Stacks T) : Prop
  | unseen (shown : h'.Shows s) (moves : event.moves = false) (nodes : h'.nodes = h.nodes)
      (none : h.added event + h.copied event = 0)
  | seen {event' : StackEvent T} {s' : Stacks T} (step : s.SteadyStep event' s')
      (shown : h'.Shows s')
      (same : s.added event' + s.copied event' = h.added event + h.copied event)
      (own : event.Own → event'.Moves)

section Step

variable {h h' : Hosts T} {s : Stacks T} {net : Net T} {n : Fin T.size}

/-- A step of the sending half of a node takes frames on towards the wire. -/
theorem Shows.sendStep (hs : h.Shows s) (horderly : s.Orderly) {event : SendEvent _}
    {sender : SendState (Fin (T.links n).length)} (hsenders : ∀ id, (h.senders n).Orderly id)
    (haccepts : ∀ id, (h.senders n).Accepts id event) (hstep : (h.senders n).Step event sender)
    (hpopped : ∀ id, ∀ frame ∈ event.popped id, frame ≠ []) (nodes : Fin T.size → Node)
    (wire : List (Datagram T)) :
    (h.wire ++ T.passed n (h.senders n) sender : Multiset (Datagram T)) +
        underway ⟨nodes, Function.update h.senders n sender, wire⟩ =
      (s.wire : Multiset (Datagram T)) +
        (T.frames n fun id ↦ event.popped id : Multiset (Datagram T)) := by
  have hpassed := Topology.passed_add hsenders haccepts hstep fun id frame hframe ↦ by
    rcases List.mem_append.mp hframe with hway | hnew
    · exact hs.ne_nil horderly hway
    · exact hpopped id frame hnew
  have hunderway := h.underway_update n sender nodes wire
  refine add_right_cancel (b := (T.frames n fun id ↦ (h.senders n).onTheWay id :
    Multiset (Datagram T))) ?_
  rw [← Multiset.coe_add, add_assoc, hunderway, hs.wire]
  let way (sender : SendState (Fin (T.links n).length)) : Multiset (Datagram T) :=
    (T.frames n fun id ↦ sender.onTheWay id : Multiset (Datagram T))
  calc (h.wire : Multiset (Datagram T)) + (T.passed n (h.senders n) sender : Multiset (Datagram T)) +
          (h.underway + way sender)
      = h.wire + h.underway + (T.passed n (h.senders n) sender + way sender) := by abel
    _ = h.wire + h.underway + (way (h.senders n) +
          (T.frames n fun id ↦ event.popped id : Multiset (Datagram T))) := by rw [hpassed]
    _ = h.wire + h.underway + (T.frames n fun id ↦ event.popped id : Multiset (Datagram T)) +
          way (h.senders n) := by abel

/-- A step in which no packet is popped is not seen. -/
theorem Shows.unseen (hs : h.Shows s) (horderly : s.Orderly) {event : SendEvent _}
    (hsenders : ∀ id, (h.senders n).Orderly id) (haccepts : ∀ id, (h.senders n).Accepts id event)
    (hnone : ∀ id, event.popped id = []) (hstep : h.sendStep n event = some h') :
    h'.Shows s ∧ h'.nodes = h.nodes := by
  obtain ⟨sender, hnext, rfl⟩ := sendStep_eq hstep
  have hwire := hs.sendStep horderly hsenders haccepts hnext
    (fun id frame hframe ↦ absurd (hnone id ▸ hframe) List.not_mem_nil) h.nodes
    (h.wire ++ T.passed n (h.senders n) sender)
  rw [funext hnone, Topology.frames_nil, Multiset.coe_nil, add_zero] at hwire
  exact ⟨⟨hs.nodes, hwire.symm⟩, rfl⟩

theorem sendStep_kept {event : SendEvent _} (hstep : h.sendStep n event = some h')
    (htracked : ∀ n, (h.senders n).Tracked) (horderly : ∀ n id, (h.senders n).Orderly id)
    (hharmless : (h.senders n).Harmless event) (haccepts : ∀ id, (h.senders n).Accepts id event) :
    (∀ n, (h'.senders n).Tracked) ∧ ∀ n id, (h'.senders n).Orderly id := by
  obtain ⟨sender, hnext, rfl⟩ := sendStep_eq hstep
  exact ⟨forall_update (P := fun _ sender ↦ sender.Tracked) htracked
      ((htracked n).step hharmless hnext),
    forall_update (P := fun _ sender ↦ ∀ id, sender.Orderly id) horderly
      fun id ↦ (horderly n id).step (haccepts id) hnext⟩

/-- A packet that is popped is one that `Stacks` sends at once. -/
theorem Shows.pop (hs : h.Shows s) (hserving : s.Serving net)
    (hsenders : ∀ id, (h.senders n).Orderly id) (hstep : h.Step (.pop n) h') :
    ∃ s', s.Step (.processInQueue n) s' ∧ h'.Shows s' := by
  unfold Step handle at hstep
  dsimp only at hstep
  cases hqueue : (h.nodes n).incomingqueue with
  | nil =>
    rw [hqueue] at hstep
    exact absurd hstep.symm (Option.some_ne_none h')
  | cons msg rest =>
    rw [hqueue] at hstep
    dsimp only at hstep
    split_ifs at hstep with hifc
    obtain ⟨sender, hnext, rfl⟩ := sendStep_eq hstep
    have hqueue' : (s.nodes n).incomingqueue = msg :: rest := by rw [hs.nodes, hqueue]
    have hsends := (hserving.tracks.orderly.nodes n).queued msg (hqueue' ▸ List.mem_cons_self)
    have hframe : msg.packet.take msg.size ≠ [] := by
      rw [← hsends.length, List.take_length]
      exact hsends.regular.ne_nil
    have hsent : T.sendFrame n (s.nodes n) msg =
        [⟨⟨n, msg.ifc, hifc⟩, msg.packet.take msg.size⟩] := by
      have hid : msg.ifc < (s.nodes n).interfaces.length := by
        have hlength := hsends.ifc
        rwa [List.length_map] at hlength
      have hsocket := hserving.sockets n _ (List.getElem_mem hid)
      unfold Topology.sendFrame
      rw [dif_pos hifc, List.getElem?_eq_getElem hid, Option.any_some,
        if_pos (bne_iff_ne.mpr hsocket)]
    let node : Node := { s.nodes n with incomingqueue := rest }
    refine ⟨⟨(s.put n node).nodes, s.wire ++ T.sendFrame n (s.nodes n) msg⟩, ?_, ?_, ?_⟩
    · unfold Stacks.Step Stacks.handle
      dsimp only
      rw [hqueue']
    · change Function.update s.nodes n { s.nodes n with incomingqueue := rest } =
        Function.update h.nodes n { h.nodes n with incomingqueue := rest }
      rw [hs.nodes]
    · have hpopped : ∀ id : Fin (T.links n).length, ∀ frame ∈ SendEvent.popped id
          (.pop ⟨msg.ifc, hifc⟩ (msg.packet.take msg.size)), frame ≠ [] := by
        intro id frame hmem
        change frame ∈ if ⟨msg.ifc, hifc⟩ = id then [msg.packet.take msg.size] else [] at hmem
        split_ifs at hmem
        · rw [List.mem_singleton.mp hmem]
          exact hframe
        · exact absurd hmem List.not_mem_nil
      have haccepts : ∀ id, (h.senders n).Accepts id
          (.pop ⟨msg.ifc, hifc⟩ (msg.packet.take msg.size)) := fun _ ↦ trivial
      have hwire := hs.sendStep hserving.tracks.orderly hsenders haccepts hnext hpopped
        (Function.update h.nodes n { h.nodes n with incomingqueue := rest })
        (h.wire ++ T.passed n (h.senders n) sender)
      have hsingle : (T.frames n fun id ↦ SendEvent.popped id
          (.pop ⟨msg.ifc, hifc⟩ (msg.packet.take msg.size)) : Multiset (Datagram T)) =
            {⟨⟨n, msg.ifc, hifc⟩, msg.packet.take msg.size⟩} :=
        Topology.coe_frames_single ⟨msg.ifc, hifc⟩ _
      rw [hsingle] at hwire
      rw [hsent, ← Multiset.coe_add, Multiset.coe_singleton]
      exact hwire.symm

/-- What a link thread does that finds a datagram. -/
theorem recvData_eq {index : ℕ} {stack : RecvBuffer} (hstep : h.Step (.recvData index stack) h') :
    ∃ d handed, h.wire[index]? = some d ∧
      ((h.senders (T.peer d.source).1).slots (T.peer d.source).2).isOpen = true ∧
      ((h.senders (T.peer d.source).1).slots (T.peer d.source).2).link = .top ∧
      IpRipStack.recvData (h.nodes (T.peer d.source).1).order stack [.datagram d.bytes] = some handed ∧
      h' = ⟨Function.update h.nodes (T.peer d.source).1
          ((h.nodes (T.peer d.source).1).transferLinkToIp handed.1.buf handed.1.len.toNat
            (T.vip (T.peer d.source))),
        Function.update h.senders (T.peer d.source).1
          ((h.senders (T.peer d.source).1).polled (T.peer d.source).2), h.wire.eraseIdx index⟩ := by
  obtain ⟨d, hget, hrecv⟩ := Option.bind_eq_some_iff.mp hstep
  dsimp only at hrecv
  split_ifs at hrecv with hlink
  obtain ⟨handed, hhanded, rfl⟩ := Option.map_eq_some_iff.mp hrecv
  exact ⟨d, handed, hget, hlink.1, hlink.2, hhanded, rfl⟩

/-- A datagram that is read is read in `Stacks`. -/
theorem Shows.recvData (hs : h.Shows s) {index : ℕ} {stack : RecvBuffer}
    (hstep : h.Step (.recvData index stack) h') :
    ∃ index' s', s.Step (.recvData index' stack) s' ∧ h'.Shows s' := by
  obtain ⟨d, handed, hget, -, htop, hhanded, rfl⟩ := recvData_eq hstep
  obtain ⟨index', hget', hwire⟩ := hs.exists_index hget
  let e := T.peer d.source
  let node := (s.nodes e.1).transferLinkToIp handed.1.buf handed.1.len.toNat (T.vip e)
  have hway : (fun id ↦ ((h.senders e.1).polled e.2).onTheWay id) =
      fun id ↦ (h.senders e.1).onTheWay id := funext (SendState.onTheWay_polled htop)
  have hunderway := h.underway_update e.1 ((h.senders e.1).polled e.2)
    (Function.update h.nodes e.1
      ((h.nodes e.1).transferLinkToIp handed.1.buf handed.1.len.toNat (T.vip e)))
    (h.wire.eraseIdx index)
  rw [hway] at hunderway
  refine ⟨index', ⟨(s.put e.1 node).nodes, s.wire.eraseIdx index'⟩, ?_, ?_, ?_⟩
  · unfold Stacks.Step Stacks.handle
    dsimp only
    rw [hget', Option.bind_some, hs.nodes, hhanded, Option.map_some]
    simp only [node, e, hs.nodes]
  · change Function.update s.nodes e.1 node = _
    simp only [node, e, hs.nodes]
  · rw [add_right_cancel hunderway]
    exact hwire

/-- Every steady step is matched. -/
theorem Shows.matched (hs : h.Shows s) (hserving : s.Serving net)
    (horderly : ∀ n id, (h.senders n).Orderly id) {event : HostEvent T}
    (hstep : h.SteadyStep event h') : h.Matched event h' s := by
  obtain ⟨hstep, hsteady⟩ := hstep
  have hunseen : ∀ (n : Fin T.size) (event : SendEvent (Fin (T.links n).length)),
      h.sendStep n event = some h' → (∀ id, (h.senders n).Accepts id event) →
        (∀ id, event.popped id = []) → h'.Shows s ∧ h'.nodes = h.nodes :=
    fun n _ hnext haccepts hnone ↦
      hs.unseen hserving.tracks.orderly (horderly n) haccepts hnone hnext
  cases event with
  | operate n op =>
    obtain ⟨node, hoperate, rfl⟩ := Option.map_eq_some_iff.mp hstep
    have hmatch : s.SteadyStep (.operate n op) (s.put n node) :=
      ⟨Option.map_eq_some_iff.mpr ⟨node, by rw [hs.nodes, hoperate], rfl⟩,
        steady_operate hs.nodes hsteady⟩
    have hsame := follow_eq_self hsteady fun id ↦ (horderly n id).up
    refine .seen hmatch ⟨?_, ?_⟩ ?_ fun hown ↦ ?_
    · change Function.update s.nodes n node = _
      rw [hs.nodes]
    · rw [hsame, Function.update_eq_self]
      exact hs.wire
    · change (s.nodes n).added op + 0 = (h.nodes n).added op + 0
      rw [hs.nodes]
    · obtain ⟨stale, clock, rfl⟩ := hown.exists_processOutQueue
      exact trivial
  | pop n =>
    obtain ⟨s', hmatch, hshown⟩ := hs.pop hserving (horderly n) hstep
    have hsteady' : s.SteadyStep (.processInQueue n) s' := ⟨hmatch, trivial⟩
    exact .seen hsteady' hshown rfl fun _ ↦ trivial
  | sender n =>
    obtain ⟨hshown, hnodes⟩ := hunseen n .sender hstep (fun _ ↦ trivial) fun _ ↦ rfl
    exact .unseen hshown rfl hnodes (add_zero 0)
  | spurious n =>
    obtain ⟨hshown, hnodes⟩ := hunseen n .spurious hstep (fun _ ↦ trivial) fun _ ↦ rfl
    exact .unseen hshown rfl hnodes (add_zero 0)
  | link e answer =>
    have haccepts : ∀ id, (h.senders e.1).Accepts id (.link e.2 answer) := by
      rintro id rfl
      exact hsteady.2
    obtain ⟨hshown, hnodes⟩ := hunseen e.1 (.link e.2 answer) hstep haccepts fun _ ↦ rfl
    exact .unseen hshown rfl hnodes (add_zero 0)
  | recvData index stack =>
    obtain ⟨index', s', hmatch, hshown⟩ := hs.recvData hstep
    have hsteady' : s.SteadyStep (.recvData index' stack) s' := ⟨hmatch, trivial⟩
    exact .seen hsteady' hshown rfl fun _ ↦ trivial
  | lose index =>
    obtain rfl := Option.some.inj hstep
    cases hget : h.wire[index]? with
    | none =>
      rw [List.eraseIdx_of_length_le (List.getElem?_eq_none_iff.mp hget)]
      exact .unseen hs rfl rfl (add_zero 0)
    | some d =>
      obtain ⟨index', hget', hwire⟩ := hs.exists_index hget
      have hmatch : s.SteadyStep (.lose index') ⟨s.nodes, s.wire.eraseIdx index'⟩ := by
        refine ⟨rfl, fun d' hd' ↦ ?_⟩
        obtain rfl := Option.some.inj (hget'.symm.trans hd')
        exact hsteady d hget
      exact .seen hmatch ⟨hs.nodes, hwire⟩ rfl fun hown ↦ absurd hown id
  | duplicate index =>
    obtain ⟨d, hget, rfl⟩ := Option.map_eq_some_iff.mp hstep
    obtain ⟨index', hget', -⟩ := hs.exists_index hget
    have hmatch : s.SteadyStep (.duplicate index') ⟨s.nodes, s.wire ++ [d]⟩ :=
      ⟨Option.map_eq_some_iff.mpr ⟨d, hget', rfl⟩, trivial⟩
    refine .seen hmatch ⟨hs.nodes, ?_⟩ ?_ fun hown ↦ absurd hown id
    · change ((s.wire ++ [d] : List (Datagram T)) : Multiset (Datagram T)) =
        ((h.wire ++ [d] : List (Datagram T)) : Multiset (Datagram T)) + h.underway
      rw [← Multiset.coe_add, ← Multiset.coe_add, hs.wire]
      exact add_right_comm _ _ _
    · change 0 + (s.wire[index']?).elim 0 (fun d ↦ content d.bytes) =
        0 + (h.wire[index]?).elim 0 fun d ↦ content d.bytes
      rw [hget, hget']

/-- A steady step keeps what holds of the sending halves. -/
theorem senders_kept (htracked : ∀ n, (h.senders n).Tracked)
    (horderly : ∀ n id, (h.senders n).Orderly id) {event : HostEvent T}
    (hstep : h.SteadyStep event h') :
    (∀ n, (h'.senders n).Tracked) ∧ ∀ n id, (h'.senders n).Orderly id := by
  obtain ⟨hstep, hsteady⟩ := hstep
  cases event with
  | operate n op =>
    obtain ⟨node, -, rfl⟩ := Option.map_eq_some_iff.mp hstep
    have hsame := follow_eq_self hsteady fun id ↦ (horderly n id).up
    rw [hsame, Function.update_eq_self]
    exact ⟨htracked, horderly⟩
  | pop n =>
    unfold Step handle at hstep
    dsimp only at hstep
    split at hstep
    · exact absurd hstep.symm (Option.some_ne_none h')
    · split_ifs at hstep
      exact sendStep_kept hstep htracked horderly trivial fun _ ↦ trivial
  | sender n =>
    have hnext : h.sendStep n .sender = some h' := hstep
    exact sendStep_kept hnext htracked horderly trivial fun _ ↦ trivial
  | spurious n =>
    have hnext : h.sendStep n .spurious = some h' := hstep
    exact sendStep_kept hnext htracked horderly trivial fun _ ↦ trivial
  | link e answer =>
    have hnext : h.sendStep e.1 (.link e.2 answer) = some h' := hstep
    refine sendStep_kept hnext htracked horderly hsteady.1 ?_
    rintro id rfl
    exact hsteady.2
  | recvData index stack =>
    obtain ⟨d, handed, -, hopen, htop, -, rfl⟩ := recvData_eq hstep
    let e := T.peer d.source
    have hpolled := SendState.polled_step hopen htop ⟨true, none⟩
    have hharmless : (h.senders e.1).Harmless (.link e.2 ⟨true, none⟩) := by
      intro hsignalling
      exact absurd (htop.symm.trans hsignalling) (by decide)
    have haccepts : ∀ id, (h.senders e.1).Accepts id (.link e.2 ⟨true, none⟩) := by
      rintro id rfl hbytes
      exact absurd (congrArg LinkPc.remBytes htop) hbytes
    exact ⟨forall_update (P := fun _ sender ↦ sender.Tracked) htracked
        ((htracked e.1).step hharmless hpolled),
      forall_update (P := fun _ sender ↦ ∀ id, sender.Orderly id) horderly
        fun id ↦ (horderly e.1 id).step (haccepts id) hpolled⟩
  | lose index =>
    obtain rfl := Option.some.inj hstep
    exact ⟨htracked, horderly⟩
  | duplicate index =>
    obtain ⟨d, -, rfl⟩ := Option.map_eq_some_iff.mp hstep
    exact ⟨htracked, horderly⟩

/-- Every step of a steady network keeps the invariant, adds what a user offers and the wire copies,
and makes the network no heavier if it is left alone, and lighter if a packet moves. -/
theorem Serving.step (hends : Fintype.card T.End ≤ maxEntries) (hdefault : ∀ e, T.vip e ≠ defaultAddr)
    (hserving : h.Serving net) {event : HostEvent T} (hstep : h.SteadyStep event h') :
    (∃ net', h'.Serving net') ∧ h'.total = h.total + (h.added event + h.copied event) ∧
      (event.Own → h'.weight ≤ h.weight ∧ (event.moves = true → h'.weight < h.weight)) ∧
      (h.toStacks.PrintsOwn → h'.toStacks.PrintsOwn) := by
  obtain ⟨s, hs, hserves⟩ := hserving.shown
  obtain ⟨htracked, horderly⟩ := senders_kept hserving.tracked hserving.orderly hstep
  cases hs.matched hserves hserving.orderly hstep with
  | unseen hshown hmoves hnodes hnone =>
    refine ⟨⟨net, ⟨s, hshown, hserves⟩, htracked, horderly⟩, ?_, fun _ ↦ ⟨?_, fun h ↦ ?_⟩, fun h ↦ ?_⟩
    · rw [hnone, add_zero, ← hs.total_eq, ← hshown.total_eq]
    · rw [← hs.weight_eq, ← hshown.weight_eq]
    · exact absurd (hmoves.symm.trans h) Bool.false_ne_true
    · unfold Stacks.PrintsOwn toStacks
      rw [hnodes]
      exact h
  | @seen event' s' hmatch hshown hsame hown =>
    obtain ⟨⟨hfits, hkeeps⟩, net', hserves', -⟩ := hserves.step hends hdefault hmatch
    have hless : event.Own → h'.weight < h.weight := by
      intro h
      rw [← hs.weight_eq, ← hshown.weight_eq]
      exact hserves.weight_lt hends hdefault (hown h) hmatch.1
    refine ⟨⟨net', ⟨s', hshown, hserves'⟩, htracked, horderly⟩, ?_,
      fun h ↦ ⟨(hless h).le, fun _ ↦ hless h⟩, fun hprints ↦ ?_⟩
    · rw [← hsame, ← hs.total_eq, ← hshown.total_eq]
      exact (Stacks.total_step hserves.tracks.orderly hmatch.1).2 hkeeps
    · have hprints' : s.PrintsOwn := by
        unfold Stacks.PrintsOwn
        rw [hs.nodes]
        exact hprints
      have hafter := hprints'.step hserves.tracks.orderly hmatch.1
      unfold Stacks.PrintsOwn at hafter
      rw [hshown.nodes] at hafter
      exact hafter

end Step

end Hosts

end IpRipStack
