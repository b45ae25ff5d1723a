import IpRipStack.NodeImpl

/-!
# Commands that do not apply

`down` of an interface that is down and `up` of one that is up are reported and carried out all the
same, and a number that no interface has is not looked at: there the source reads behind the list,
and here nothing follows (`none`). A `Host` is a node with the descriptors of its sockets: `up` gets
one that is not open, and `down` closes that of the interface.

`downCmd_eq_self_iff` says when `down` of an interface that is down leaves everything as it is: the
table has nothing to lose, and no interface is there to send the update over. `up` of an interface
that is up replaces its socket, and the old one is never closed (`Step.owned_iff`).
-/

set_option autoImplicit false
set_option relaxedAutoImplicit false

namespace IpRipStack

open MachineWord OrderedMap Runs

namespace Node

/-- A command about an interface that is not there, or about one that is already so. -/
def Inapplicable (node : Node) : Event → Prop
  | .command (.down interface) =>
    node.interfaces.length ≤ interface ∨ node.isUp interface = false
  | .command (.up interface _ _) =>
    node.interfaces.length ≤ interface ∨ node.isUp interface = true
  | _ => False

/-- `down` of an interface that is there, while all interfaces are down and no entry of the table is
for its address or leaves by it. -/
def NothingToDo (node : Node) : Event → Prop
  | .command (.down interface) => ∃ ifc, node.interfaces[interface]? = some ifc ∧
      (∀ id, node.isUp id = false) ∧ ∀ (a : UInt32) (ets : EntryWts),
        node.rtable[a]? = some ets → ets.nextHop ≠ ifc.vipLocal ∧ a ≠ ifc.vipLocal
  | _ => False

end Node

/-- A node and the descriptors of its open sockets. -/
structure Host where
  node : Node
  sockets : List Int

namespace Host

/-- The host after the constructor, which opens the sockets of the interfaces. -/
def start (order : ByteOrder) (links : List LinkConfig) (clock : ℕ → Timeval) : Host where
  node := Node.new order links clock
  sockets := links.map LinkConfig.sockfd

/-- The descriptors that are open after an event: `socket` returns one that was not, and `close` of
`-1` does nothing. -/
def socketsAfter (host : Host) : Event → Option (List Int)
  | .command (.down interface) => (host.node.interfaces[interface]?).map fun ifc ↦
      host.sockets.filter fun sockfd ↦ sockfd ≠ ifc.sLocal
  | .command (.up _ sockfd _) =>
    if 0 ≤ sockfd ∧ sockfd ∉ host.sockets then some (sockfd :: host.sockets) else none
  | _ => some host.sockets

def handle (host : Host) (event : Event) : Option Host := do
  let sockets ← host.socketsAfter event
  let node ← host.node.handle event
  pure { node := node, sockets := sockets }

def Step (host : Host) (event : Event) (host' : Host) : Prop := host.handle event = some host'

/-- Every open socket is that of an interface. -/
def Owned (host : Host) : Prop :=
  ∀ sockfd ∈ host.sockets, ∃ (position : ℕ) (ifc : LinkLayer),
    host.node.interfaces[position]? = some ifc ∧ ifc.sLocal = sockfd

/-- No interface is taken up that is up. -/
def KeepsSockets (host : Host) : Event → Prop
  | .command (.up interface _ _) => host.node.isUp interface = false
  | _ => True

/-- What holds between events: the interfaces that are down have no socket, and those that are up
have open ones of their own. -/
structure Kept (host : Host) : Prop where
  idle : host.node.outgoingqueue = []
  closed : ∀ (position : ℕ) (ifc : LinkLayer), host.node.interfaces[position]? = some ifc →
    ifc.isup = false → ifc.sLocal = -1
  opened : ∀ (position : ℕ) (ifc : LinkLayer), host.node.interfaces[position]? = some ifc →
    ifc.isup = true → ifc.sLocal ∈ host.sockets
  nonneg : ∀ sockfd ∈ host.sockets, 0 ≤ sockfd
  distinct : ∀ (position other : ℕ) (ifc ifc' : LinkLayer),
    host.node.interfaces[position]? = some ifc → host.node.interfaces[other]? = some ifc' →
      ifc.isup = true → ifc'.sLocal = ifc.sLocal → other = position

end Host

namespace Node

theorem ripPacket?_eq_none_iff {node : Node} {msgType : UInt16} {id : ℕ} :
    node.ripPacket? msgType id = none ↔ node.isUp id = false := by
  unfold ripPacket? isUp
  cases node.interfaces[id]? with
  | none => exact iff_of_true rfl rfl
  | some ifc =>
    rw [Option.bind_some, Option.any_some]
    cases ifc.isup with
    | false => exact iff_of_true rfl rfl
    | true => exact iff_of_false (Option.some_ne_none _) Bool.noConfusion

/-- A message is sent unless all interfaces are down. -/
theorem prepareMsg_eq_self_iff {node : Node} (msgType : UInt16) :
    node.prepareMsg msgType = node ↔ ∀ id, node.isUp id = false := by
  have hnone : node.prepareMsg msgType = node ↔
      (List.range node.interfaces.length).filterMap (node.ripPacket? msgType) = [] := by
    rw [prepareMsg_eq]
    constructor
    · exact fun h ↦ List.append_right_eq_self.mp (congrArg incomingqueue h)
    · intro h
      rw [h, List.append_nil]
  rw [hnone, List.filterMap_eq_nil_iff]
  simp only [List.mem_range, ripPacket?_eq_none_iff]
  refine forall_congr' fun id ↦ ⟨fun h ↦ ?_, fun h _ ↦ h⟩
  by_cases hlt : id < node.interfaces.length
  · exact h hlt
  · rw [isUp, List.getElem?_eq_none (Nat.not_lt.mp hlt)]
    rfl

/-- `down` of an interface that is down. -/
theorem downCmd_eq_self_iff {node : Node} {interface : ℕ} {ifc : LinkLayer}
    (hget : node.interfaces[interface]? = some ifc) (hdown : ifc.isup = false)
    (hclosed : ifc.sLocal = -1) : node.downCmd interface = some node ↔
      (∀ id, node.isUp id = false) ∧ ∀ (a : UInt32) (ets : EntryWts),
        node.rtable[a]? = some ets → ets.nextHop ≠ ifc.vipLocal ∧ a ≠ ifc.vipLocal := by
  have hsame : ifc.down = ifc := by
    rw [LinkLayer.down, ← hdown, ← hclosed]
  have hset : node.interfaces.set interface ifc.down = node.interfaces := by
    obtain ⟨hlt, rfl⟩ := List.getElem?_eq_some_iff.mp hget
    rw [hsame, List.set_getElem_self]
  have hcmd : node.downCmd interface = some (node.removeIfcEntry ifc.vipLocal) := by
    rw [downCmd, hget, Option.map_some, hset]
  have herase : node.eraseIfcEntries ifc.vipLocal = node ↔
      (node.eraseIfcEntries ifc.vipLocal).rtable = node.rtable :=
    ⟨congrArg rtable, fun h ↦ congrArg (fun table ↦ { node with rtable := table }) h⟩
  have htable : (node.eraseIfcEntries ifc.vipLocal).rtable = node.rtable ↔
      ∀ (a : UInt32) (ets : EntryWts),
        node.rtable[a]? = some ets → ets.nextHop ≠ ifc.vipLocal ∧ a ≠ ifc.vipLocal := by
    rw [eraseIfcEntries]
    dsimp only
    rw [eraseWhere_eq_self_iff]
    simp only [Bool.or_eq_false_iff, beq_eq_false_iff_ne]
  rw [hcmd, Option.some_inj, ← htable, ← prepareMsg_eq_self_iff 2, removeIfcEntry]
  constructor
  · intro h
    have hsameTable := congrArg rtable h
    rw [prepareMsg_rtable] at hsameTable
    rw [herase.mpr hsameTable] at h
    exact ⟨h, hsameTable⟩
  · rintro ⟨hquiet, hsameTable⟩
    rw [herase.mpr hsameTable, hquiet]

end Node

namespace Host

variable {host host' : Host} {event : Event}

/-- An event is one of the node, together with what it does to the sockets. -/
theorem step_iff : host.Step event host' ↔
    host.socketsAfter event = some host'.sockets ∧ host.node.Step event host'.node := by
  unfold Step handle Node.Step
  simp only [Option.bind_eq_bind, Option.bind_eq_some_iff, Option.pure_def, Option.some_inj]
  constructor
  · rintro ⟨sockets, hsockets, node, hnode, rfl⟩
    exact ⟨hsockets, hnode⟩
  · rintro ⟨hsockets, hnode⟩
    exact ⟨host'.sockets, hsockets, host'.node, hnode, rfl⟩

theorem kept_start (order : ByteOrder) {links : List LinkConfig} (clock : ℕ → Timeval)
    (hopen : ∀ link ∈ links, 0 ≤ link.sockfd)
    (hdistinct : (links.map LinkConfig.sockfd).Nodup) : (start order links clock).Kept := by
  have hlink : ∀ (position : ℕ) (ifc : LinkLayer),
      (start order links clock).node.interfaces[position]? = some ifc →
        ifc.isup = true ∧ (links.map LinkConfig.sockfd)[position]? = some ifc.sLocal := by
    intro position ifc hget
    rw [start, Node.new_interfaces, List.getElem?_map] at hget
    obtain ⟨link, hlink, rfl⟩ := Option.map_eq_some_iff.mp hget
    rw [List.getElem?_map, hlink]
    exact ⟨rfl, rfl⟩
  refine ⟨Node.new_outgoingqueue order links clock, ?_, ?_, ?_, ?_⟩
  · intro position ifc hget hdown
    exact absurd ((hlink position ifc hget).1.symm.trans hdown) Bool.noConfusion
  · intro position ifc hget _
    exact List.mem_of_getElem? (hlink position ifc hget).2
  · intro sockfd hmem
    obtain ⟨link, hin, rfl⟩ := List.mem_map.mp hmem
    exact hopen link hin
  · intro position other ifc ifc' hget hget' _ hsame
    have hsockfd := (hlink position ifc hget).2
    have hsockfd' := (hlink other ifc' hget').2
    obtain ⟨hlt, -⟩ := List.getElem?_eq_some_iff.mp hsockfd
    rw [← hsame, ← hsockfd'] at hsockfd
    exact ((List.getElem?_inj hlt hdistinct).mp hsockfd).symm

theorem owned_start (order : ByteOrder) (links : List LinkConfig) (clock : ℕ → Timeval) :
    (start order links clock).Owned := by
  intro sockfd hmem
  obtain ⟨link, hin, rfl⟩ := List.mem_map.mp hmem
  obtain ⟨position, hget⟩ := List.getElem?_of_mem hin
  refine ⟨position, LinkLayer.new link, ?_, rfl⟩
  rw [start, Node.new_interfaces, List.getElem?_map, hget]
  rfl

/-- What is no command about an interface changes neither the interfaces nor the sockets. -/
theorem Kept.same (h : host.Kept) (hstep : host.Step event host')
    (hevent : event.LeavesInterfaces) :
    host'.node.interfaces = host.node.interfaces ∧ host'.sockets = host.sockets := by
  obtain ⟨hsockets, hnode⟩ := step_iff.mp hstep
  have hsame : host.socketsAfter event = some host.sockets := by
    unfold socketsAfter
    split
    · exact absurd hevent id
    · exact absurd hevent id
    · rfl
  exact ⟨hnode.interfaces_eq h.idle hevent, Option.some.inj (hsockets.symm.trans hsame)⟩

/-- What `down` does to the interfaces and the sockets. -/
theorem step_down {interface : ℕ} (hstep : host.Step (.command (.down interface)) host') :
    ∃ ifc, host.node.interfaces[interface]? = some ifc ∧
      (∀ other, host'.node.interfaces[other]? =
        if other = interface then some ifc.down else host.node.interfaces[other]?) ∧
      ∀ sockfd, sockfd ∈ host'.sockets ↔ sockfd ∈ host.sockets ∧ sockfd ≠ ifc.sLocal := by
  obtain ⟨hsockets, hnode⟩ := step_iff.mp hstep
  obtain ⟨ifc, hget, hinterfaces, -⟩ := Node.downCmd_spec hnode
  refine ⟨ifc, hget, hinterfaces, fun sockfd ↦ ?_⟩
  obtain ⟨ifc', hget', hfilter⟩ := Option.map_eq_some_iff.mp hsockets
  obtain rfl := Option.some.inj (hget.symm.trans hget')
  rw [← hfilter, List.mem_filter, decide_eq_true_eq]

/-- What `up` does to the interfaces and the sockets. -/
theorem step_up {interface : ℕ} {sockfd : Int} {now : Timeval}
    (hstep : host.Step (.command (.up interface sockfd now)) host') :
    0 ≤ sockfd ∧ sockfd ∉ host.sockets ∧ host'.sockets = sockfd :: host.sockets ∧
      ∃ ifc, host.node.interfaces[interface]? = some ifc ∧ ∀ other,
        host'.node.interfaces[other]? =
          if other = interface then some (ifc.up sockfd) else host.node.interfaces[other]? := by
  obtain ⟨hsockets, hnode⟩ := step_iff.mp hstep
  obtain ⟨ifc, hget, hinterfaces, -⟩ := Node.upCmd_spec hnode
  unfold socketsAfter at hsockets
  dsimp only at hsockets
  split_ifs at hsockets with hfresh
  exact ⟨hfresh.1, hfresh.2, (Option.some.inj hsockets).symm, ifc, hget, hinterfaces⟩

theorem Kept.down {interface : ℕ} (h : host.Kept)
    (hstep : host.Step (.command (.down interface)) host') : host'.Kept := by
  obtain ⟨ifc, hget, hinterfaces, hsockets⟩ := step_down hstep
  have hidle := (step_iff.mp hstep).2.idle h.idle
  refine ⟨hidle, ?_, ?_, ?_, ?_⟩
  · intro position ifc₁ hget₁ hdown
    rw [hinterfaces] at hget₁
    split_ifs at hget₁ with hsame
    · rw [← Option.some.inj hget₁]
      rfl
    · exact h.closed position ifc₁ hget₁ hdown
  · intro position ifc₁ hget₁ hup
    rw [hinterfaces] at hget₁
    split_ifs at hget₁ with hsame
    · rw [← Option.some.inj hget₁] at hup
      exact absurd hup Bool.false_ne_true
    · refine (hsockets _).mpr ⟨h.opened position ifc₁ hget₁ hup, fun heq ↦ hsame ?_⟩
      exact (h.distinct position interface ifc₁ ifc hget₁ hget hup heq.symm).symm
  · exact fun sockfd hmem ↦ h.nonneg sockfd ((hsockets sockfd).mp hmem).1
  · intro position other ifc₁ ifc₂ hget₁ hget₂ hup heq
    rw [hinterfaces] at hget₁ hget₂
    split_ifs at hget₁ with hsame
    · rw [← Option.some.inj hget₁] at hup
      exact absurd hup Bool.false_ne_true
    · split_ifs at hget₂ with hsame'
      · have hnonneg := h.nonneg _ (h.opened position ifc₁ hget₁ hup)
        rw [← heq, ← Option.some.inj hget₂] at hnonneg
        exact absurd hnonneg (show ¬ (0 : Int) ≤ -1 by decide)
      · exact h.distinct position other ifc₁ ifc₂ hget₁ hget₂ hup heq

theorem Kept.up {interface : ℕ} {sockfd : Int} {now : Timeval} (h : host.Kept)
    (hstep : host.Step (.command (.up interface sockfd now)) host') : host'.Kept := by
  obtain ⟨hnonneg, hfresh, hsockets, ifc, hget, hinterfaces⟩ := step_up hstep
  have hidle := (step_iff.mp hstep).2.idle h.idle
  have hnone : ∀ (position : ℕ) (ifc₁ : LinkLayer),
      host.node.interfaces[position]? = some ifc₁ → ifc₁.sLocal ≠ sockfd := by
    intro position ifc₁ hget₁ heq
    cases hup : ifc₁.isup with
    | true => exact hfresh (heq ▸ h.opened position ifc₁ hget₁ hup)
    | false =>
      have hclosed := h.closed position ifc₁ hget₁ hup
      omega
  refine ⟨hidle, ?_, ?_, ?_, ?_⟩
  · intro position ifc₁ hget₁ hdown
    rw [hinterfaces] at hget₁
    split_ifs at hget₁ with hsame
    · rw [← Option.some.inj hget₁] at hdown
      exact absurd hdown Bool.noConfusion
    · exact h.closed position ifc₁ hget₁ hdown
  · intro position ifc₁ hget₁ hup
    rw [hinterfaces] at hget₁
    rw [hsockets]
    split_ifs at hget₁ with hsame
    · rw [← Option.some.inj hget₁]
      exact List.mem_cons_self
    · exact List.mem_cons_of_mem _ (h.opened position ifc₁ hget₁ hup)
  · rw [hsockets]
    exact List.forall_mem_cons.mpr ⟨hnonneg, h.nonneg⟩
  · intro position other ifc₁ ifc₂ hget₁ hget₂ hup heq
    rw [hinterfaces] at hget₁ hget₂
    split_ifs at hget₁ with hsame
    · rw [← Option.some.inj hget₁] at heq
      split_ifs at hget₂ with hsame'
      · rw [hsame, hsame']
      · exact absurd heq (hnone other ifc₂ hget₂)
    · split_ifs at hget₂ with hsame'
      · rw [← Option.some.inj hget₂] at heq
        exact absurd heq.symm (hnone position ifc₁ hget₁)
      · exact h.distinct position other ifc₁ ifc₂ hget₁ hget₂ hup heq

theorem Kept.step (h : host.Kept) (hstep : host.Step event host') : host'.Kept := by
  have hother : event.LeavesInterfaces → host'.Kept := by
    intro hevent
    obtain ⟨hinterfaces, hsame⟩ := h.same hstep hevent
    refine ⟨(step_iff.mp hstep).2.idle h.idle, ?_, ?_, hsame ▸ h.nonneg, ?_⟩
    · rw [hinterfaces]
      exact h.closed
    · rw [hinterfaces, hsame]
      exact h.opened
    · rw [hinterfaces]
      exact h.distinct
  cases event with
  | command c =>
    cases c with
    | send _ => exact hother trivial
    | refresh _ => exact hother trivial
    | down interface => exact h.down hstep
    | up interface sockfd now => exact h.up hstep
  | receive _ _ _ _ => exact hother trivial
  | application _ _ _ => exact hother trivial
  | transmit => exact hother trivial

/-- `up` of an interface that is down gives its socket an owner; of one that is up, it leaves the
socket before it without one. -/
theorem Kept.owned_up_iff {interface : ℕ} {sockfd : Int} {now : Timeval} (h : host.Kept)
    (howned : host.Owned) (hstep : host.Step (.command (.up interface sockfd now)) host') :
    host'.Owned ↔ host.node.isUp interface = false := by
  obtain ⟨hnonneg, hfresh, hsockets, ifc, hget, hinterfaces⟩ := step_up hstep
  have hisup : host.node.isUp interface = ifc.isup := by
    rw [Node.isUp, hget]
    rfl
  rw [hisup]
  cases hup : ifc.isup with
  | false =>
    refine iff_of_true (fun sockfd' hmem ↦ ?_) rfl
    rw [hsockets] at hmem
    rcases List.mem_cons.mp hmem with rfl | hmem
    · exact ⟨interface, ifc.up sockfd', (hinterfaces interface).trans (if_pos rfl), rfl⟩
    · obtain ⟨position, ifc₁, hget₁, rfl⟩ := howned sockfd' hmem
      refine ⟨position, ifc₁, ?_, rfl⟩
      rw [hinterfaces, if_neg, hget₁]
      rintro rfl
      obtain rfl := Option.some.inj (hget₁.symm.trans hget)
      have hopen := h.nonneg _ hmem
      have hclosed := h.closed position ifc₁ hget hup
      omega
  | true =>
    refine iff_of_false (fun howned' ↦ ?_) Bool.noConfusion
    have hopen := h.opened interface ifc hget hup
    obtain ⟨position, ifc₁, hget₁, hsame⟩ :=
      howned' ifc.sLocal (hsockets ▸ List.mem_cons_of_mem sockfd hopen)
    rw [hinterfaces] at hget₁
    split_ifs at hget₁ with hposition
    · rw [← Option.some.inj hget₁] at hsame
      have hsockfd : sockfd = ifc.sLocal := hsame
      exact hfresh (hsockfd ▸ hopen)
    · exact hposition (h.distinct interface position ifc ifc₁ hget hget₁ hup hsame)

/-- The open sockets stay those of the interfaces unless an interface is taken up that is up: its
socket is open from then on and no interface has it. -/
theorem Kept.owned_iff (h : host.Kept) (howned : host.Owned) (hstep : host.Step event host') :
    host'.Owned ↔ host.KeepsSockets event := by
  have hother : event.LeavesInterfaces → host.KeepsSockets event →
      (host'.Owned ↔ host.KeepsSockets event) := by
    intro hevent hkeeps
    obtain ⟨hinterfaces, hsame⟩ := h.same hstep hevent
    refine iff_of_true ?_ hkeeps
    unfold Owned
    rwa [hinterfaces, hsame]
  cases event with
  | command c =>
    cases c with
    | send _ => exact hother trivial trivial
    | refresh _ => exact hother trivial trivial
    | down interface =>
      obtain ⟨ifc, hget, hinterfaces, hsockets⟩ := step_down hstep
      refine iff_of_true (fun sockfd hmem ↦ ?_) trivial
      obtain ⟨hmem, hne⟩ := (hsockets sockfd).mp hmem
      obtain ⟨position, ifc₁, hget₁, rfl⟩ := howned sockfd hmem
      refine ⟨position, ifc₁, ?_, rfl⟩
      rw [hinterfaces, if_neg, hget₁]
      rintro rfl
      exact hne (congrArg LinkLayer.sLocal (Option.some.inj (hget₁.symm.trans hget)))
    | up interface sockfd now =>
      exact h.owned_up_iff howned hstep
  | receive _ _ _ _ => exact hother trivial trivial
  | application _ _ _ => exact hother trivial trivial
  | transmit => exact hother trivial trivial

/-- A command that does not apply. -/
theorem Kept.handle_iff (h : host.Kept) (hevent : host.node.Inapplicable event) :
    host.handle event = some host ↔ host.node.NothingToDo event := by
  have hstep : host.handle event = some host ↔ host.socketsAfter event = some host.sockets ∧
      host.node.handle event = some host.node := step_iff
  rw [hstep]
  cases event with
  | command c =>
    cases c with
    | send _ => exact absurd hevent id
    | refresh _ => exact absurd hevent id
    | down interface =>
      cases hget : host.node.interfaces[interface]? with
      | none =>
        refine iff_of_false ?_ ?_
        · rintro ⟨hsockets, -⟩
          rw [socketsAfter, hget] at hsockets
          exact absurd hsockets (Option.some_ne_none _).symm
        · rintro ⟨ifc, hget', -⟩
          exact absurd (hget.symm.trans hget') (Option.some_ne_none _).symm
      | some ifc =>
        have hdown : ifc.isup = false := by
          rcases hevent with hbehind | hdown
          · exact absurd (List.getElem?_eq_some_iff.mp hget).1 (Nat.not_lt.mpr hbehind)
          · rw [Node.isUp, hget] at hdown
            exact hdown
        have hclosed := h.closed interface ifc hget hdown
        have hsockets : host.socketsAfter (.command (.down interface)) = some host.sockets := by
          rw [socketsAfter, hget, Option.map_some, List.filter_eq_self.mpr]
          intro sockfd hmem
          have hopen := h.nonneg sockfd hmem
          rw [decide_eq_true_eq]
          omega
        have hnothing : host.node.NothingToDo (.command (.down interface)) ↔
            (∀ id, host.node.isUp id = false) ∧ ∀ (a : UInt32) (ets : EntryWts),
              host.node.rtable[a]? = some ets →
                ets.nextHop ≠ ifc.vipLocal ∧ a ≠ ifc.vipLocal := by
          constructor
          · rintro ⟨ifc', hget', hrest⟩
            obtain rfl := Option.some.inj (hget.symm.trans hget')
            exact hrest
          · exact fun hrest ↦ ⟨ifc, hget, hrest⟩
        rw [hnothing, ← Node.downCmd_eq_self_iff hget hdown hclosed]
        exact and_iff_right hsockets
    | up interface sockfd now =>
      refine iff_of_false ?_ id
      rintro ⟨hsockets, -⟩
      unfold socketsAfter at hsockets
      dsimp only at hsockets
      split_ifs at hsockets
      exact List.cons_ne_self _ _ (Option.some.inj hsockets)
  | receive _ _ _ _ => exact absurd hevent id
  | application _ _ _ => exact absurd hevent id
  | transmit => exact absurd hevent id

/-- Assumes: sockets with descriptors of their own for the interfaces of the link file. In every
state reached from the constructor, a command that does not apply leaves everything as it is exactly
when it takes down an interface that is down, while all are and the table has nothing for it; and
every open socket is that of an interface, in every state of a run, exactly when on the way no
interface is taken up that is up. -/
theorem inapplicable_unchanged_iff (order : ByteOrder) (links : List LinkConfig)
    (clock : ℕ → Timeval) (hopen : ∀ link ∈ links, 0 ≤ link.sockfd)
    (hdistinct : (links.map LinkConfig.sockfd).Nodup) :
    (∀ host, Reachable Step (start order links clock) host →
      ∀ event, host.node.Inapplicable event →
        (host.handle event = some host ↔ host.node.NothingToDo event)) ∧
    ∀ events, EveryState Step Owned (start order links clock) events ↔
      EveryStep Step KeepsSockets (start order links clock) events := by
  have hstart := kept_start order clock hopen hdistinct
  refine ⟨fun host hreach event hevent ↦ ?_, fun events ↦ ?_⟩
  · exact Kept.handle_iff (hreach.invariant (fun _ _ _ h ↦ h.step) hstart) hevent
  · exact everyState_iff_everyStep (fun _ _ _ h ↦ h.step) (fun _ _ _ h ↦ h.owned_iff) hstart
      (owned_start order links clock)

end Host

/-- The host of a node of one interface, with socket `3`. -/
def leafHost : Host := Host.start .little [⟨3, 5001, 0x0A000001, 0x0A000002⟩] fun _ ↦ ⟨0, 0⟩

/-- The one interface of a node is taken down twice: the second time nothing changes. -/
theorem downTwice_unchanged : ∃ host, Reachable Host.Step leafHost host ∧
    host.node.Inapplicable (.command (.down 0)) ∧
      host.handle (.command (.down 0)) = some host := by
  obtain ⟨host, hstep⟩ : ∃ host, leafHost.Step (.command (.down 0)) host :=
    Option.isSome_iff_exists.mp (by decide +kernel)
  have hreach : Reachable Host.Step leafHost host := ⟨_, Run.single hstep⟩
  have hcmd : leafHost.node.downCmd 0 = some host.node := (Host.step_iff.mp hstep).2
  obtain ⟨ifc, hget, hinterfaces, htable⟩ := Node.downCmd_spec hcmd
  have hone : leafHost.node.interfaces.length = 1 :=
    congrArg List.length (Node.new_interfaces .little _ _)
  have hdown : ∀ id, host.node.isUp id = false := by
    intro id
    rw [Node.isUp, hinterfaces]
    split_ifs with hid
    · rfl
    · rw [List.getElem?_eq_none (hone.trans_le (Nat.one_le_iff_ne_zero.mpr hid))]
      rfl
  have hinapplicable : host.node.Inapplicable (.command (.down 0)) := Or.inr (hdown 0)
  obtain ⟨hunchanged, -⟩ := Host.inapplicable_unchanged_iff .little
    [⟨3, 5001, 0x0A000001, 0x0A000002⟩] (fun _ ↦ ⟨0, 0⟩) (by decide) (by decide)
  refine ⟨host, hreach, hinapplicable, (hunchanged host hreach _ hinapplicable).mpr ?_⟩
  exact ⟨ifc.down, (hinterfaces 0).trans (if_pos rfl), hdown,
    fun a ets hets ↦ ((htable a ets).mp hets).2⟩

/-- `up` of an interface that is up: it has a new socket, and the old one is open and nobody's.
`down` of an interface that is not there reads behind the list. -/
theorem upTwice_leaks :
    leafHost.node.Inapplicable (.command (.up 0 4 ⟨1, 0⟩)) ∧
    (leafHost.handle (.command (.up 0 4 ⟨1, 0⟩))).map Host.sockets = some [4, 3] ∧
    leafHost.handle (.command (.up 0 4 ⟨1, 0⟩)) ≠ some leafHost ∧
    ¬ EveryState Host.Step Host.Owned leafHost [.command (.up 0 4 ⟨1, 0⟩)] ∧
    leafHost.node.Inapplicable (.command (.down 1)) ∧
    leafHost.handle (.command (.down 1)) ≠ some leafHost := by
  have hup : leafHost.node.isUp 0 = true := by decide
  have hsockets : (leafHost.handle (.command (.up 0 4 ⟨1, 0⟩))).map Host.sockets =
      some [4, 3] := by
    decide +kernel
  have hnone : leafHost.handle (.command (.down 1)) = none := rfl
  obtain ⟨host, hstep, -⟩ := Option.map_eq_some_iff.mp hsockets
  refine ⟨Or.inr hup, hsockets, fun hsame ↦ ?_, fun howned ↦ ?_, Or.inl (by decide), ?_⟩
  · rw [hsame] at hsockets
    exact absurd hsockets (by decide)
  · have hkept : leafHost.Kept :=
      Host.kept_start .little (fun _ ↦ ⟨0, 0⟩) (by decide) (by decide)
    have hleft := (hkept.owned_up_iff (Host.owned_start .little _ _) hstep).mp
      (howned _ [] host (List.append_nil _).symm (Run.single hstep))
    exact Bool.false_ne_true (hleft.symm.trans hup)
  · rw [hnone]
    exact (Option.some_ne_none _).symm

end IpRipStack
