import IpRipStack.RecvData

/-!
# The interface a datagram came over

All interfaces of a node share its one port, so the end of `recv_data` has to find out which link a
datagram came over. It looks the port of the sender up in the list of interfaces and takes the
position it gets, `-1` included, as an index. From there on the link is known by the local address
of the interface: `get_interface` looks for it among the local addresses, and `get_interfaceid`,
which names the arrival link of a packet that is printed, among the remote ones.

`attribution_iff` says exactly when all of these agree on the link a datagram came over.
-/

set_option autoImplicit false
set_option relaxedAutoImplicit false

namespace IpRipStack

open MachineWord

/-- An interface and the host address `remote_addr` was resolved to. -/
structure RemoteEnd where
  host : UInt32
  ll : LinkLayer

/-- The datagram comes from the remote end of the link. -/
def RemoteEnd.IsSource (link : RemoteEnd) (host : UInt32) (port : UInt16) : Prop :=
  link.host = host ∧ link.ll.remoteport = port

namespace Node

/-- `Node::get_interfaceid_with_port`. -/
def getInterfaceidWithPort (node : Node) (port : UInt16) : Int :=
  match node.interfaces.findIdx? fun ll ↦ ll.remoteport == port with
  | some index => index
  | none => -1

/-- The end of `LinkLayer::recv_data`, with the port of the last read. An index outside of the list
of interfaces is undefined behaviour, `none`. -/
def recvDataEnd (node : Node) (handed : Handover) (port : UInt16) : Option Node :=
  let id := node.getInterfaceidWithPort port
  if id < 0 then none
  else (node.interfaces[id.toNat]?).map fun ifc ↦
    node.transferLinkToIp handed.buf handed.len.toNat ifc.vipLocal

/-- Everything agrees that the datagram came over the given interface: the position that is looked
up, the address that is handed on, the up test, the next hop of the routes that are learned, and the
arrival link that is printed. -/
structure AttributedTo (node : Node) (k : ℕ) (ifc : LinkLayer) (handed : Handover) (port : UInt16) :
    Prop where
  id : node.getInterfaceidWithPort port = k
  next : node.recvDataEnd handed port =
    some (node.transferLinkToIp handed.buf handed.len.toNat ifc.vipLocal)
  upTest : node.getInterface ifc.vipLocal = some k
  learned : ∀ (data : List UInt8) (len : ℕ) (clock : ℕ → Timeval) (a : UInt32) (ets : EntryWts),
    (node.transferData data len ifc.vipLocal clock).rtable[a]? = some ets →
      node.rtable[a]? = some ets ∨ ets.nextHop = ifc.vipLocal
  printed : ∀ (data : List UInt8) (len : ℕ), (node.delivery data len ifc.vipLocal).interfaceid = k

/-- A datagram is attributed to the link it came over, and dropped if it came over none. -/
structure Attributed (node : Node) (ends : List RemoteEnd) (handed : Handover) (host : UInt32)
    (port : UInt16) : Prop where
  source : ∀ k link, ends[k]? = some link → link.IsSource host port →
    node.AttributedTo k link.ll handed port
  unknown : (∀ link ∈ ends, ¬ link.IsSource host port) → node.recvDataEnd handed port = some node

/-- The datagram came over a link that is the first with that remote port, and the first whose
remote address is the link's own local address. -/
def Attributable (ends : List RemoteEnd) (host : UInt32) (port : UInt16) : Prop :=
  ∃ (k : ℕ) (link : RemoteEnd), ends[k]? = some link ∧ link.IsSource host port ∧
    link.ll.vipRemote = link.ll.vipLocal ∧ ∀ j < k, ∀ other : RemoteEnd, ends[j]? = some other →
      other.ll.remoteport ≠ port ∧ other.ll.vipRemote ≠ link.ll.vipLocal

/-! ### The searches -/

/-- What a search from the start of a list finds. -/
theorem findIdx?_eq_some_iff_first {α : Type*} {l : List α} {p : α → Bool} {k : ℕ} :
    l.findIdx? p = some k ↔ ∃ a, l[k]? = some a ∧ p a = true ∧
      ∀ j < k, ∀ b, l[j]? = some b → p b = false := by
  rw [List.findIdx?_eq_some_iff_getElem]
  constructor
  · rintro ⟨hk, hfound, hfirst⟩
    refine ⟨l[k], List.getElem?_eq_getElem hk, hfound, fun j hj b hb ↦ ?_⟩
    obtain ⟨-, rfl⟩ := List.getElem?_eq_some_iff.mp hb
    exact Bool.eq_false_iff.mpr (hfirst j hj)
  · rintro ⟨a, ha, hfound, hfirst⟩
    obtain ⟨hk, rfl⟩ := List.getElem?_eq_some_iff.mp ha
    refine ⟨hk, hfound, fun j hj ↦ ?_⟩
    exact Bool.eq_false_iff.mp (hfirst j hj _ (List.getElem?_eq_getElem (hj.trans hk)))

/-- The position a search finds, `-1` if it finds none. -/
theorem position_eq_iff {found : Option ℕ} {k : ℕ} :
    ((match found with
      | some index => index
      | none => -1 : Int) = k) ↔ found = some k := by
  cases found with
  | none => exact iff_of_false (by dsimp only; omega) (Option.some_ne_none k).symm
  | some index => rw [Option.some_inj, Int.ofNat_inj]

theorem getInterfaceidWithPort_eq_iff {node : Node} {port : UInt16} {k : ℕ} :
    node.getInterfaceidWithPort port = k ↔ ∃ ifc, node.interfaces[k]? = some ifc ∧
      ifc.remoteport = port ∧
        ∀ j < k, ∀ other, node.interfaces[j]? = some other → other.remoteport ≠ port := by
  unfold getInterfaceidWithPort
  refine position_eq_iff.trans (findIdx?_eq_some_iff_first.trans ?_)
  simp only [beq_iff_eq, beq_eq_false_iff_ne]

theorem getInterfaceid_eq_iff {node : Node} {addr : UInt32} {k : ℕ} :
    node.getInterfaceid addr = k ↔ ∃ ifc, node.interfaces[k]? = some ifc ∧ ifc.vipRemote = addr ∧
      ∀ j < k, ∀ other, node.interfaces[j]? = some other → other.vipRemote ≠ addr := by
  unfold getInterfaceid
  refine position_eq_iff.trans (findIdx?_eq_some_iff_first.trans ?_)
  simp only [beq_iff_eq, beq_eq_false_iff_ne]

/-! ### What follows from a search -/

/-- The end of `recv_data` hands every datagram on or leaves the list of interfaces; it drops none.
-/
theorem recvDataEnd_ne (node : Node) (handed : Handover) (port : UInt16) :
    node.recvDataEnd handed port ≠ some node := by
  intro hdropped
  unfold recvDataEnd at hdropped
  dsimp only at hdropped
  split_ifs at hdropped
  obtain ⟨ifc, -, hsame⟩ := Option.map_eq_some_iff.mp hdropped
  exact List.cons_ne_nil _ _ (List.append_right_eq_self.mp (congrArg outgoingqueue hsame))

theorem recvDataEnd_eq {node : Node} {port : UInt16} {k : ℕ} {ifc : LinkLayer}
    (hid : node.getInterfaceidWithPort port = k) (hget : node.interfaces[k]? = some ifc)
    (handed : Handover) : node.recvDataEnd handed port =
      some (node.transferLinkToIp handed.buf handed.len.toNat ifc.vipLocal) := by
  unfold recvDataEnd
  rw [hid, if_neg (by omega), Int.toNat_natCast, hget, Option.map_some]

/-- The routes a node learns from a frame have the address the frame was handed over with as their
next hop. -/
theorem transferData_nextHop (node : Node) (data : List UInt8) (len : ℕ) (next : UInt32)
    (clock : ℕ → Timeval) (a : UInt32) (ets : EntryWts)
    (h : (node.transferData data len next clock).rtable[a]? = some ets) :
    node.rtable[a]? = some ets ∨ ets.nextHop = next := by
  rcases node.transferData_cases data len next clock with ⟨-, hrip⟩ | ⟨-, queue, output, hother⟩
  · rw [hrip] at h
    rcases transferIpToRip_origin h with hold | ⟨e, -, now, rfl⟩
    · exact Or.inl hold
    · exact Or.inr rfl
  · rw [hother] at h
    exact Or.inl h

/-- Assumes: local addresses that are pairwise distinct, and remote ends that are, on the interfaces
of the node. A datagram from any source is attributed to the link it came over, or dropped if it
came over none, exactly when it came over a link that is the first with that remote port and the
first whose remote address is the link's own local address. -/
theorem attribution_iff (node : Node) (ends : List RemoteEnd)
    (hends : node.interfaces = ends.map RemoteEnd.ll) (hdistinct : node.DistinctVips)
    (hremotes : (ends.map fun link ↦ (link.host, link.ll.remoteport)).Nodup) (handed : Handover)
    (host : UInt32) (port : UInt16) :
    node.Attributed ends handed host port ↔ Attributable ends host port := by
  have hget : ∀ {k : ℕ} {link : RemoteEnd}, ends[k]? = some link →
      node.interfaces[k]? = some link.ll := by
    intro k link hlink
    rw [hends, List.getElem?_map, hlink, Option.map_some]
  have hother : ∀ {k : ℕ} {ifc : LinkLayer}, node.interfaces[k]? = some ifc →
      ∃ link, ends[k]? = some link ∧ link.ll = ifc := by
    intro k ifc hifc
    rw [hends, List.getElem?_map] at hifc
    exact Option.map_eq_some_iff.mp hifc
  constructor
  · intro h
    by_cases hsource : ∀ link ∈ ends, ¬ link.IsSource host port
    · exact absurd (h.unknown hsource) (node.recvDataEnd_ne handed port)
    · push Not at hsource
      obtain ⟨link, hmem, hlink⟩ := hsource
      obtain ⟨k, hk⟩ := List.getElem?_of_mem hmem
      have hto := h.source k link hk hlink
      obtain ⟨-, -, -, hports⟩ := getInterfaceidWithPort_eq_iff.mp hto.id
      obtain ⟨ifc, hifc, hremote, hvips⟩ := getInterfaceid_eq_iff.mp (hto.printed [] 0)
      obtain rfl := Option.some.inj ((hget hk).symm.trans hifc)
      exact ⟨k, link, hk, hlink, hremote,
        fun j hj other hat ↦ ⟨hports j hj _ (hget hat), hvips j hj _ (hget hat)⟩⟩
  · rintro ⟨k, link, hk, hlink, hremote, hfirst⟩
    have hid : node.getInterfaceidWithPort port = k := by
      refine getInterfaceidWithPort_eq_iff.mpr ⟨link.ll, hget hk, hlink.2, fun j hj ifc hifc ↦ ?_⟩
      obtain ⟨other, hat, rfl⟩ := hother hifc
      exact (hfirst j hj other hat).1
    have hprinted : node.getInterfaceid link.ll.vipLocal = k := by
      refine getInterfaceid_eq_iff.mpr ⟨link.ll, hget hk, hremote, fun j hj ifc hifc ↦ ?_⟩
      obtain ⟨other, hat, rfl⟩ := hother hifc
      exact (hfirst j hj other hat).2
    refine ⟨fun k' link' hk' hlink' ↦ ?_, fun hnone ↦ ?_⟩
    · have hsame : k' = k := by
        have hk'' : k' < (ends.map fun link ↦ (link.host, link.ll.remoteport)).length := by
          rw [List.length_map]
          exact (List.getElem?_eq_some_iff.mp hk').1
        refine (List.getElem?_inj hk'' hremotes).mp ?_
        rw [List.getElem?_map, List.getElem?_map, hk', hk, Option.map_some, Option.map_some,
          hlink'.1, hlink'.2, hlink.1, hlink.2]
      subst hsame
      obtain rfl := Option.some.inj (hk.symm.trans hk')
      exact ⟨hid, recvDataEnd_eq hid (hget hk) handed, hdistinct.getInterface_eq (hget hk),
        fun data len clock ↦ node.transferData_nextHop data len _ clock, fun _ _ ↦ hprinted⟩
    · exact absurd hlink (hnone link (List.mem_of_getElem? hk))

end Node

/-- A node whose one link carries the same address at both ends. -/
def loopNode : Node := Node.new .little [⟨3, 5001, 0x0A000001, 0x0A000001⟩] fun _ ↦ seconds 0

/-- On it the datagram is attributed to the link. -/
theorem loopNode_attributed : loopNode.Attributed
    [⟨0x7F000001, ⟨3, true, 5001, 0x0A000001, 0x0A000001⟩⟩] ⟨List.replicate 1024 0, 20⟩ 0x7F000001
      5001 := by
  refine (Node.attribution_iff loopNode _ ?_ ?_ (by decide) _ 0x7F000001 5001).mpr ?_
  · rfl
  · unfold Node.DistinctVips
    decide
  · exact ⟨0, _, rfl, ⟨rfl, rfl⟩, rfl, fun j hj ↦ absurd hj (Nat.not_lt_zero j)⟩

/-- The two links of a node, with remote ends on one host. -/
def twoEnds : List RemoteEnd :=
  [⟨0x7F000001, ⟨3, true, 5001, 0x0A000001, 0x0A000002⟩⟩,
    ⟨0x7F000001, ⟨4, true, 5002, 0x0A000003, 0x0A000004⟩⟩]

/-- A datagram from the remote end of the first link is printed with the arrival link `-1`; one from
an unknown port leads outside of the list of interfaces. -/
theorem datagram_misattributed : twoLinkNode.interfaces = twoEnds.map RemoteEnd.ll ∧
    (twoLinkNode.interfaces.map LinkLayer.vipLocal).Nodup ∧
    (twoEnds.map fun link ↦ (link.host, link.ll.remoteport)).Nodup ∧
    (∀ handed, ¬ twoLinkNode.Attributed twoEnds handed 0x7F000001 5001) ∧
    ∀ handed, twoLinkNode.recvDataEnd handed 7000 = none := by
  refine ⟨rfl, by decide, by decide, fun handed h ↦ ?_, fun handed ↦ rfl⟩
  have hprinted := (h.source 0 _ rfl ⟨rfl, rfl⟩).printed [] 0
  have hunknown : twoLinkNode.getInterfaceid 0x0A000001 = -1 := by decide
  rw [Node.delivery, hunknown] at hprinted
  exact absurd hprinted (by decide)

end IpRipStack
