import IpRipStack.StackRouting
import IpRipStack.UserTraffic

/-!
# A steady network loses nothing

A network of threads in which no interface is taken down, no entry expires and the wire loses no
packet of a user (`Stacks.SteadyStep`). There every packet that a user sends to another node, and
that has a way to leave by, arrives: the node it is on its way to has a route for it, and the time
it has left outlasts the route (`Destined`). A host of either byte order keeps that so when it sends
the packet on (`Aged.forwardedFrame`), because the far end of a route has a cheaper one, whatever
the routes have become meanwhile. So no node drops it, no node takes it for a routing packet, and
what is printed or on its way is what was offered (`Stacks.steady_conserves`).
-/

set_option autoImplicit false
set_option relaxedAutoImplicit false

namespace IpRipStack

open MachineWord OrderedMap Runs

/-! ### The time a packet has left -/

/-- A packet that was built with a time-to-live of sixteen and has been sent on `k` times, by hosts
of either byte order: if one was big-endian, the time-to-live is zero or counts down from 255. -/
def Aged (k : ℕ) (bytes : List UInt8) : Prop :=
  (ttl bytes).toNat + k = 16 ∨ (ttl bytes).toNat = 0 ∨ 256 ≤ (ttl bytes).toNat + k

/-- A packet that has been sent on at most fifteen times is not sent on as a routing packet. -/
theorem Aged.protocol_ne {k : ℕ} {bytes : List UInt8} (h : Aged k bytes) (hk : k ≤ 15)
    (hheader : 20 ≤ bytes.length) (order : ByteOrder) :
    byteAt (forwardedFrame order bytes) 9 ≠ ripProto := by
  unfold Aged at h
  rw [protocol_forwardedFrame order hheader]
  intro hrip
  obtain ⟨-, hlast⟩ := (storedProtocol_eq_iff order bytes).mp hrip
  omega

/-- A packet that has been sent on at most fourteen times is not dropped. -/
theorem Aged.forwardedTtl_ne {k : ℕ} {bytes : List UInt8} (h : Aged k bytes) (hk : k ≤ 14)
    (order : ByteOrder) : forwardedTtl order bytes ≠ 0 := by
  unfold Aged at h
  intro hzero
  obtain ⟨-, hone⟩ := (forwardedTtl_eq_zero_iff order bytes).mp hzero
  omega

theorem Aged.forwardedFrame {k : ℕ} {bytes : List UInt8} (h : Aged k bytes) (hk : k ≤ 14)
    (hheader : 20 ≤ bytes.length) (order : ByteOrder) :
    Aged (k + 1) (forwardedFrame order bytes) := by
  have ht := (ttl bytes).toNat_lt
  unfold Aged at h ⊢
  rw [toNat_ttl_forwardedFrame order hheader]
  cases order with
  | little =>
    dsimp only
    omega
  | big =>
    dsimp only
    split_ifs <;> omega

theorem destination_forwardedFrame (order : ByteOrder) {bytes : List UInt8} (h : 20 ≤ bytes.length) :
    destination (forwardedFrame order bytes) = destination bytes :=
  Regular.load32_forwardedFrame order .big h (by omega)

/-! ### The way it takes -/

namespace Net

variable {T : Topology} {net : Net T}

/-- A packet for another node leaves by the interface at an end of a link, and the node at the far
end has a cheaper route. -/
theorem Valid.next_link (h : net.Valid) (hsound : DistanceVector.Sound T.protocol net.abstract)
    {n : Fin T.size} {d : UInt32} {ets : EntryWts} (hets : (net.nodes n).rtable[d]? = some ets)
    (howns : ¬ T.Owns n d) : ∃ (id : ℕ) (hid : id < (T.links n).length),
      (net.nodes n).getInterface ((net.nodes n).getNextAddress d defaultAddr) = some id ∧
      ets.e.cost.toNat ≤ 16 ∧ ∃ ets', (net.nodes (T.peer ⟨n, id, hid⟩).1).rtable[d]? = some ets' ∧
        ets'.e.cost.toNat < ets.e.cost.toNat := by
  obtain ⟨⟨m, id⟩, rfl, hnext, hvia⟩ := h.exists_link hets howns
  obtain ⟨-, -, hcost, r', hr', hlt⟩ := hsound.learned m d _ _ (abstract_table hets) hvia
  obtain ⟨ets', hets', rfl⟩ := Topology.state_table_eq_some.mp hr'
  obtain ⟨ifc, hget, hvip⟩ := h.exists_interface ⟨m, id⟩
  refine ⟨id.val, id.isLt, ?_, hcost, ets', hets', hlt⟩
  have hlookup : (net.nodes m).getNextAddress d defaultAddr = T.vip ⟨m, id⟩ := by
    rw [Node.getNextAddress_eq (h.well m).table.keys, hets, hnext]
    rfl
  rw [hlookup, ← hvip]
  exact (h.well m).distinct.getInterface_eq hget

end Net

namespace Stacks

variable {T : Topology}

/-- What happens in a steady network: users send packets that fit to other nodes, no interface is
taken down, one that is brought up gets a socket, sweeps erase nothing, and the wire loses routing
packets at most. -/
def Steady (s : Stacks T) : StackEvent T → Prop
  | .operate n (.application dest proto payload) =>
    payload.length ≤ 1004 ∧ proto ≠ ripProto ∧ ¬ T.Owns n (ntohl (T.order n) dest)
  | .operate _ (.command (.up _ sockfd _)) => sockfd ≠ -1
  | .operate _ (.command (.down _)) => False
  | .operate n (.command (.refresh curtv)) =>
    ((s.nodes n).refreshRouteTable curtv).rtable = (s.nodes n).rtable
  | .lose index => ∀ d ∈ s.wire[index]?, byteAt d.bytes 9 = ripProto
  | _ => True

def SteadyStep (s : Stacks T) (event : StackEvent T) (s' : Stacks T) : Prop :=
  s.Step event s' ∧ s.Steady event

/-- A packet on its way to a node: if it is of a user, the node has a route for it that the time it
has left outlasts. -/
def Destined (s : Stacks T) (n : Fin T.size) (bytes : List UInt8) : Prop :=
  byteAt bytes 9 ≠ ripProto → ∃ k ets, Aged k bytes ∧
    (s.nodes n).rtable[destination bytes]? = some ets ∧ k + ets.e.cost.toNat ≤ 15

/-- The invariant of a steady network. -/
structure Serving (s : Stacks T) (net : Net T) : Prop where
  tracks : s.Tracks net
  reachable : ∃ clock, Reachable Net.StaticStep (Net.start T clock) net
  frames : s.Everywhere s.Destined
  sockets : ∀ n, ∀ ifc ∈ (s.nodes n).interfaces, ifc.sLocal ≠ -1

namespace Serving

variable {s s' : Stacks T} {net : Net T}

theorem sound (h : s.Serving net) : DistanceVector.Sound T.protocol net.abstract := by
  obtain ⟨clock, hreach⟩ := h.reachable
  exact (Net.sound_of_reachable T clock hreach).2

theorem grounded (h : s.Serving net) : DistanceVector.Grounded T.protocol net.abstract := by
  obtain ⟨clock, events, hrun⟩ := h.reachable
  exact (Net.grounded_of_reachable T clock
    ⟨events, hrun.mono fun _ _ _ _ hstatic ↦ hstatic.1⟩).2

/-- A packet for another node leaves by an interface that leads to a cheaper route. -/
theorem next_link (h : s.Serving net) {n : Fin T.size} {d : UInt32} {ets : EntryWts}
    (hets : (s.nodes n).rtable[d]? = some ets) (howns : ¬ T.Owns n d) :
    ∃ (id : ℕ) (hid : id < (T.links n).length),
      (s.nodes n).getInterface ((s.nodes n).getNextAddress d defaultAddr) = some id ∧
      ets.e.cost.toNat ≤ 16 ∧ ∃ ets', (s.nodes (T.peer ⟨n, id, hid⟩).1).rtable[d]? = some ets' ∧
        ets'.e.cost.toNat < ets.e.cost.toNat := by
  have hets' : (net.nodes n).rtable[d]? = some ets := by
    rw [h.tracks.nodes n]
    exact hets
  obtain ⟨id, hid, hfound, hcost, ets', hfar, hlt⟩ :=
    h.tracks.valid.next_link h.sound hets' howns
  rw [h.tracks.nodes n] at hfound
  rw [h.tracks.nodes] at hfar
  exact ⟨id, hid, hfound, hcost, ets', hfar, hlt⟩

theorem not_owns (h : s.Serving net) {n : Fin T.size} {d : UInt32} :
    (s.nodes n).isDestinedToMe d = false ↔ ¬ T.Owns n d := by
  rw [← Topology.isMyInterface_iff_owns (h.tracks.orderly.vips n) d, Bool.not_eq_true]
  rfl

/-- No node drops a packet of a user. -/
theorem not_drops (h : s.Serving net) {n : Fin T.size} {msg : RcvMsg}
    (hmsg : msg ∈ (s.nodes n).outgoingqueue) : ¬ (s.nodes n).Drops msg.ippkt := by
  have hheader := ((h.tracks.orderly.nodes n).received msg hmsg).regular.header
  rintro ⟨hproto, hdest, hlost⟩
  obtain ⟨k, ets, haged, hets, hk⟩ := h.frames.received n msg hmsg hproto
  obtain ⟨id, -, hfound, -, ets', -, hlt⟩ := h.next_link hets (h.not_owns.mp hdest)
  rcases hlost with hzero | hnone | hrip
  · exact haged.forwardedTtl_ne (by omega) (s.nodes n).order hzero
  · exact Option.some_ne_none id (hfound.symm.trans hnone)
  · exact haged.protocol_ne (by omega) hheader (s.nodes n).order hrip

theorem not_impersonates (h : s.Serving net) {event : StackEvent T} (hsteady : s.Steady event) :
    ¬ s.Impersonates event := by
  intro himpersonates
  cases event with
  | operate n op =>
    cases op with
    | command c => exact himpersonates
    | application dest proto payload => exact hsteady.2.1 himpersonates
    | processOutQueue stale clock =>
      obtain ⟨msg, hhead, hproto, hrip⟩ := himpersonates
      have hmsg := List.mem_of_head? hhead
      have hheader := ((h.tracks.orderly.nodes n).received msg hmsg).regular.header
      obtain ⟨k, ets, haged, -, hk⟩ := h.frames.received n msg hmsg hproto
      exact haged.protocol_ne (by omega) hheader (s.nodes n).order hrip
  | _ => exact himpersonates

/-- A steady step is one of a network in which everything fits, and no route is withdrawn. -/
theorem fits (hends : Fintype.card T.End ≤ maxEntries) (h : s.Serving net) {event : StackEvent T}
    (hsteady : s.Steady event) : s.Fits event ∧ ¬ s.Withdraws event := by
  constructor
  · refine h.tracks.fits hends h.grounded ?_
    cases event with
    | operate n op =>
      cases op with
      | application dest proto payload => exact hsteady.1
      | _ => exact trivial
    | _ => exact trivial
  · intro hwithdraws
    cases event with
    | operate n op =>
      cases op with
      | command c =>
        cases c with
        | down interface => exact hsteady
        | refresh curtv => exact hwithdraws hsteady
        | _ => exact hwithdraws
      | _ => exact hwithdraws
    | _ => exact hwithdraws

/-- Nothing is lost. -/
theorem not_loses (h : s.Serving net) {event : StackEvent T} (hsteady : s.Steady event) :
    ¬ s.Loses event := by
  intro hloses
  cases event with
  | operate n op =>
    cases op with
    | processOutQueue stale clock =>
      obtain ⟨msg, hhead, hdrops⟩ := hloses
      exact h.not_drops (List.mem_of_head? hhead) hdrops
    | _ => exact hloses
  | processInQueue n =>
    obtain ⟨msg, hhead, -, hnil⟩ := hloses
    have hsends := (h.tracks.orderly.nodes n).queued msg (List.mem_of_head? hhead)
    have hifc : msg.ifc < (T.links n).length := by
      have hlength := hsends.ifc
      rwa [h.tracks.orderly.vips n, List.length_map] at hlength
    have hid : msg.ifc < (s.nodes n).interfaces.length := by
      have hlength := hsends.ifc
      rwa [List.length_map] at hlength
    have hsocket := h.sockets n _ (List.getElem_mem hid)
    unfold Topology.sendFrame at hnil
    rw [dif_pos hifc, List.getElem?_eq_getElem hid, Option.any_some, if_pos (bne_iff_ne.mpr hsocket)]
      at hnil
    exact List.cons_ne_nil _ _ hnil
  | recvData index stack => exact hloses
  | lose index =>
    obtain ⟨d, hget, hproto⟩ := hloses
    exact hproto (hsteady d hget)
  | duplicate index => exact hloses

/-- A node without a route for a destination finds no interface. Assumes: no interface with the
address that stands for none. -/
theorem exists_route (hdefault : ∀ e, T.vip e ≠ defaultAddr) (h : s.Serving net) {n : Fin T.size}
    {d : UInt32} {id : ℕ}
    (hfound : (s.nodes n).getInterface ((s.nodes n).getNextAddress d defaultAddr) = some id) :
    ∃ ets, (s.nodes n).rtable[d]? = some ets := by
  refine Option.ne_none_iff_exists'.mp fun hnone ↦ ?_
  have hkeys : (s.nodes n).rtable.KeysMatch := by
    have hkeys := (h.tracks.valid.well n).table.keys
    rwa [h.tracks.nodes n] at hkeys
  rw [Node.getNextAddress_eq hkeys, hnone] at hfound
  obtain ⟨ifc, hget, hvip⟩ := Node.getInterface_eq_some hfound
  obtain ⟨hid, hlink⟩ := Topology.vip_eq_of_getElem? (h.tracks.orderly.vips n) hget
  exact hdefault _ (hlink.trans hvip)

/-- What a thread adds to the packets that wait has a way. -/
theorem queues (hdefault : ∀ e, T.vip e ≠ defaultAddr) (h : s.Serving net) {event : StackEvent T}
    (hsteady : s.Steady event) : s.Queues s.Destined event := by
  rintro n op msg rfl hqueued hifc hproto
  cases hqueued with
  | update src dest payload datasz hpacket =>
    have hfield := protocol_buildIpPacket (s.nodes n).order src dest ripProto payload datasz []
    rw [List.append_nil, ← hpacket] at hfield
    exact absurd hfield hproto
  | @offer dest proto payload id ifc hfound hget =>
    let hdest := ntohl (s.nodes n).order dest
    have hother : ¬ T.Owns n hdest := by
      have hother := hsteady.2.2
      rwa [← h.tracks.orderly.order n] at hother
    obtain ⟨ets, hets⟩ := h.exists_route hdefault hfound
    obtain ⟨id', hid', hfound', hcost, ets', hfar, hlt⟩ := h.next_link hets hother
    obtain rfl : id = id' := Option.some.inj (hfound.symm.trans hfound')
    refine ⟨0, ets', Or.inl ?_, ?_, by omega⟩
    · rw [ttl_buildIpPacket]
      rfl
    · have hdaddr := daddr_buildIpPacket (s.nodes n).order .big ifc.vipLocal hdest proto payload
        payload.length []
      rw [List.append_nil, ntohl_load32] at hdaddr
      rw [destination, hdaddr]
      exact hfar
  | @onward stale clock first id hfirst hold hdest hword hfound =>
    have hmsg := List.mem_of_head? hfirst
    have hheader := ((h.tracks.orderly.nodes n).received first hmsg).regular.header
    obtain ⟨k, ets, haged, hets, hk⟩ := h.frames.received n first hmsg hold
    obtain ⟨id', hid', hfound', -, ets', hfar, hlt⟩ := h.next_link hets (h.not_owns.mp hdest)
    obtain rfl : id = id' := Option.some.inj (hfound.symm.trans hfound')
    refine ⟨k + 1, ets', haged.forwardedFrame (by omega) hheader _, ?_, by omega⟩
    rw [destination_forwardedFrame _ hheader]
    exact hfar

/-- Routes only get cheaper, so what has a way keeps one. -/
theorem destined_mono (h : s.Serving net) {net' : Net T} (h' : s'.Tracks net')
    (himproves : DistanceVector.Improves net.abstract net'.abstract) (n : Fin T.size)
    (bytes : List UInt8) (hdestined : s.Destined n bytes) : s'.Destined n bytes := by
  intro hproto
  obtain ⟨k, ets, haged, hets, hk⟩ := hdestined hproto
  have hget : (net.nodes n).rtable[destination bytes]? = some ets := by
    rw [h.tracks.nodes n]
    exact hets
  obtain ⟨r', hr', hle⟩ := himproves n _ _ (Net.abstract_table hget)
  obtain ⟨ets', hets', rfl⟩ := Topology.state_table_eq_some.mp hr'
  rw [h'.nodes n] at hets'
  have hcost : ets'.e.cost.toNat ≤ ets.e.cost.toNat := hle
  exact ⟨k, ets', haged, hets', by omega⟩

/-- Interfaces keep their sockets. -/
theorem sockets_operate (h : s.Serving net) {n : Fin T.size} {op : NodeOp} {node : Node}
    (hsteady : s.Steady (.operate n op)) (hoperate : (s.nodes n).operate op = some node) :
    ∀ ifc ∈ node.interfaces, ifc.sLocal ≠ -1 := by
  have hsockets := h.sockets n
  cases op with
  | command c =>
    cases c with
    | send msgType =>
      obtain rfl := Option.some.inj hoperate
      rwa [Node.prepareMsg_interfaces]
    | refresh curtv =>
      obtain rfl := Option.some.inj hoperate
      exact hsockets
    | down interface => exact absurd hsteady id
    | up interface sockfd now =>
      obtain ⟨ifc, -, rfl⟩ := Option.map_eq_some_iff.mp hoperate
      intro ifc' hifc'
      rcases List.mem_or_eq_of_mem_set hifc' with hold | rfl
      · exact hsockets ifc' hold
      · exact hsteady
  | application dest proto payload =>
    obtain rfl := Option.some.inj hoperate
    obtain ⟨queue, hqueue⟩ :=
      (s.nodes n).transferApplicationToIp_cases dest proto payload payload.length
    rw [hqueue]
    exact hsockets
  | processOutQueue stale clock =>
    obtain ⟨msg, rest, -, rfl⟩ := Node.operate_processOutQueue hoperate
    rcases Node.transferData_cases { s.nodes n with outgoingqueue := rest }
      (msg.ippkt.take msg.datalen ++ stale) msg.datalen msg.next clock with
      ⟨-, hrip⟩ | ⟨-, queue, output, hother⟩
    · rwa [hrip, Node.transferIpToRip_interfaces]
    · rw [hother]
      exact hsockets

theorem sockets_step (h : s.Serving net) {event : StackEvent T} (hstep : s.SteadyStep event s') :
    ∀ n, ∀ ifc ∈ (s'.nodes n).interfaces, ifc.sLocal ≠ -1 := by
  have hput : ∀ {n : Fin T.size} {node : Node}, (∀ ifc ∈ node.interfaces, ifc.sLocal ≠ -1) →
      ∀ m, ∀ ifc ∈ ((s.put n node).nodes m).interfaces, ifc.sLocal ≠ -1 :=
    fun hnode ↦ forall_put (P := fun _ node ↦ ∀ ifc ∈ node.interfaces, ifc.sLocal ≠ -1) h.sockets hnode
  obtain ⟨hstep, hsteady⟩ := hstep
  cases event with
  | operate n op =>
    obtain ⟨node, hoperate, rfl⟩ := Option.map_eq_some_iff.mp hstep
    exact hput (h.sockets_operate hsteady hoperate)
  | processInQueue n =>
    obtain ⟨msg, rest, -, rfl⟩ := processInQueue_step hstep
    exact hput (h.sockets n)
  | recvData index stack =>
    obtain ⟨d, -, rfl⟩ := recvData_step h.tracks.orderly hstep
    exact hput (h.sockets _)
  | lose index =>
    obtain rfl := Option.some.inj hstep
    exact h.sockets
  | duplicate index =>
    obtain ⟨d, -, rfl⟩ := Option.map_eq_some_iff.mp hstep
    exact h.sockets

/-- Every step of a steady network keeps the invariant, is one of a network in which everything
fits, and loses nothing. -/
theorem step (hends : Fintype.card T.End ≤ maxEntries) (hdefault : ∀ e, T.vip e ≠ defaultAddr)
    (h : s.Serving net) {event : StackEvent T} (hstep : s.SteadyStep event s') :
    (s.FitStep event s' ∧ ¬ s.Loses event) ∧ ∃ net', s'.Serving net' ∧
      DistanceVector.Improves net.abstract net'.abstract := by
  obtain ⟨hstep, hsteady⟩ := hstep
  obtain ⟨hfits, hkeeps⟩ := h.fits hends hsteady
  refine ⟨⟨⟨hstep, hfits⟩, h.not_loses hsteady⟩, ?_⟩
  obtain ⟨net', hmatch, htracks⟩ := h.tracks.step ⟨hstep, hfits⟩ (h.not_impersonates hsteady)
  obtain ⟨clock, hreach⟩ := h.reachable
  have hnet : Reachable Net.StaticStep (Net.start T clock) net' ∧
      DistanceVector.Improves net.abstract net'.abstract := by
    rcases hmatch with rfl | ⟨event', hstep', hwithdraws⟩
    · exact ⟨hreach, DistanceVector.Improves.refl _⟩
    · have hrun : Run Net.StaticStep net [event'] net' :=
        Run.cons ⟨hstep', fun hdown ↦ hkeeps (hwithdraws hdown)⟩ (Run.nil net')
      exact ⟨hreach.run hrun, (h.tracks.valid.static_run h.sound hrun).2.2⟩
  refine ⟨net', ⟨htracks, ⟨clock, hnet.1⟩, ?_, ?_⟩, hnet.2⟩
  · have hmono := h.destined_mono htracks hnet.2
    refine h.frames.step hmono h.tracks.orderly ?_ hstep
    exact fun n op msg hevent hqueued hifc ↦
      hmono _ _ (h.queues hdefault hsteady n op msg hevent hqueued hifc)
  · exact h.sockets_step ⟨hstep, hsteady⟩

/-- Assumes: at most sixty-four interfaces in the whole network, each with a socket. -/
theorem start {T : Topology} (hends : Fintype.card T.End ≤ maxEntries)
    (hsockets : ∀ e : T.End, e.config.sockfd ≠ -1) (clock : Fin T.size → ℕ → Timeval) :
    (start T clock).Serving (Net.start T clock) := by
  refine ⟨Tracks.start (length_links_le hends) clock, ⟨clock, Reachable.init _⟩,
    Everywhere.start ?_ clock, ?_⟩
  · intro n order src dest payload datasz hproto
    have hfield := protocol_buildIpPacket order src dest ripProto payload datasz []
    rw [List.append_nil] at hfield
    exact absurd hfield hproto
  · intro n ifc hifc
    change ifc ∈ (Node.new (T.order n) (T.links n) (clock n)).interfaces at hifc
    rw [Node.new_interfaces] at hifc
    obtain ⟨link, hlink, rfl⟩ := List.mem_map.mp hifc
    obtain ⟨id, rfl⟩ := List.get_of_mem hlink
    exact hsockets ⟨n, id⟩

/-- A run of a steady network is one in which everything fits and nothing is lost. -/
theorem run (hends : Fintype.card T.End ≤ maxEntries) (hdefault : ∀ e, T.vip e ≠ defaultAddr)
    (h : s.Serving net) {events : List (StackEvent T)} (hrun : Run SteadyStep s events s') :
    Run (fun s event s' ↦ s.FitStep event s' ∧ ¬ s.Loses event) s events s' ∧
      ∃ net', s'.Serving net' := by
  constructor
  · refine hrun.strengthen (P := fun s ↦ ∃ net, s.Serving net) ?_ ⟨net, h⟩
    rintro s event s' ⟨net, h⟩ hstep
    obtain ⟨hkeeps, net', h', -⟩ := h.step hends hdefault hstep
    exact ⟨hkeeps, net', h'⟩
  · refine hrun.invariant (P := fun s ↦ ∃ net, s.Serving net) ?_ ⟨net, h⟩
    rintro s event s' ⟨net, h⟩ hstep
    obtain ⟨-, net', h', -⟩ := h.step hends hdefault hstep
    exact ⟨net', h'⟩

end Serving

end Stacks

end IpRipStack
