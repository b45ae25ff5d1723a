import IpRipStack.FrameEffects

/-!
# The ids of the interfaces

`print_interfaces` numbers the interfaces that are up, in the order of the list, while `down` and
`up` take a number for the position in the list. A line shows the number of interfaces before its
own that are up (`mem_printInterfaces_iff`), so the command that is given with it meets its
interface exactly when all interfaces before that are up (`acts_iff`). `shownIdsAct_iff` follows
this through whole runs: the interfaces that are up have to stay the first of the list.
-/

set_option autoImplicit false
set_option relaxedAutoImplicit false

namespace IpRipStack

open MachineWord OrderedMap Runs

/-- A line of `print_interfaces`: its number, the interface the loop is at, and the addresses of
that in network order. -/
structure InterfaceRow where
  id : ℕ
  ifc : ℕ
  remote : UInt32
  localVip : UInt32
  deriving DecidableEq, Repr

/-- The loop of `print_interfaces` over the interfaces from a position on. -/
def printLoop (order : ByteOrder) : ℕ → ℕ → List LinkLayer → List InterfaceRow
  | _, _, [] => []
  | position, id, ifc :: ifcs =>
    if !ifc.isup then printLoop order (position + 1) id ifcs
    else ⟨id, position, htonl order ifc.vipRemote, htonl order ifc.vipLocal⟩ ::
      printLoop order (position + 1) (id + 1) ifcs

namespace Node

/-- `Node::print_interfaces`, without the line above the table. -/
def printInterfaces (node : Node) : List InterfaceRow := printLoop node.order 0 0 node.interfaces

/-- `down` with a number takes the interface at a position down and no other, and removes its routes
and no others. -/
def DownActsOn (node : Node) (id position : ℕ) : Prop :=
  ∃ node' ifc, node.downCmd id = some node' ∧ node.interfaces[position]? = some ifc ∧
    node'.interfaces[position]? = some ifc.down ∧
    (∀ other, other ≠ position → node'.interfaces[other]? = node.interfaces[other]?) ∧
    ∀ (a : UInt32) (ets : EntryWts), node'.rtable[a]? = some ets ↔
      node.rtable[a]? = some ets ∧ ets.nextHop ≠ ifc.vipLocal ∧ a ≠ ifc.vipLocal

/-- `up` with a number takes the interface at a position up and no other, whatever the socket, and
adds its entry and no other. -/
def UpActsOn (node : Node) (id position : ℕ) : Prop :=
  ∀ sockfd now, ∃ node' ifc, node.upCmd id sockfd now = some node' ∧
    node.interfaces[position]? = some ifc ∧ node'.interfaces[position]? = some (ifc.up sockfd) ∧
    (∀ other, other ≠ position → node'.interfaces[other]? = node.interfaces[other]?) ∧
    ∀ a : UInt32, node'.rtable[a]? =
      if ifc.vipLocal = a then some (ifcEntry ifc.vipLocal now) else node.rtable[a]?

/-- The number of every line is the one with which the commands act on its interface. -/
def ShownIdsAct (node : Node) : Prop :=
  ∀ row ∈ node.printInterfaces, node.DownActsOn row.id row.ifc ∧ node.UpActsOn row.id row.ifc

/-- An interface is up only when all before it are. -/
def UpFirst (node : Node) : Prop :=
  ∀ position, node.isUp position = true → ∀ before < position, node.isUp before = true

/-- An interface is taken down when none behind it is up, and up when all before it are. -/
def KeepsUpFirst (node : Node) : Event → Prop
  | .command (.down interface) => ∀ behind, interface < behind → node.isUp behind = false
  | .command (.up interface _ _) => ∀ before < interface, node.isUp before = true
  | _ => True

/-! ### What the lines show -/

theorem mem_printLoop_iff {order : ByteOrder} {ifcs : List LinkLayer} {position id : ℕ}
    {row : InterfaceRow} : row ∈ printLoop order position id ifcs ↔
      ∃ j ifc, ifcs[j]? = some ifc ∧ ifc.isup = true ∧
        row = ⟨id + (ifcs.take j).countP LinkLayer.isup, position + j, htonl order ifc.vipRemote,
          htonl order ifc.vipLocal⟩ := by
  induction ifcs generalizing position id with
  | nil => simp [printLoop]
  | cons first ifcs ih =>
    have hposition : ∀ j : ℕ, position + 1 + j = position + (j + 1) := fun j ↦ by omega
    have hid : ∀ count : ℕ, id + 1 + count = id + (count + 1) := fun count ↦ by omega
    rw [← Nat.or_exists_add_one]
    unfold printLoop
    cases hup : first.isup with
    | false =>
      simp only [List.getElem?_cons_zero, List.getElem?_cons_succ, List.take_succ_cons,
        List.countP_cons, hup, Bool.false_eq_true, if_false, Nat.add_zero, Bool.not_false, if_true,
        ih, hposition]
      refine (or_iff_right ?_).symm
      rintro ⟨ifc, hfirst, hifc, -⟩
      rw [← Option.some.inj hfirst, hup] at hifc
      exact Bool.false_ne_true hifc
    | true =>
      simp only [List.getElem?_cons_zero, List.getElem?_cons_succ, List.take_succ_cons,
        List.countP_cons, hup, if_true, Bool.not_true, Bool.false_eq_true, if_false, List.mem_cons,
        ih, hposition, hid]
      refine or_congr_left ⟨fun hrow ↦ ⟨first, rfl, hup, hrow⟩, ?_⟩
      rintro ⟨ifc, hfirst, -, hrow⟩
      rw [hrow, ← Option.some.inj hfirst]
      rfl

theorem mem_printInterfaces_iff {node : Node} {row : InterfaceRow} :
    row ∈ node.printInterfaces ↔ ∃ position ifc, node.interfaces[position]? = some ifc ∧
      ifc.isup = true ∧ row = ⟨(node.interfaces.take position).countP LinkLayer.isup, position,
        htonl node.order ifc.vipRemote, htonl node.order ifc.vipLocal⟩ := by
  unfold printInterfaces
  rw [mem_printLoop_iff]
  simp only [Nat.zero_add]

/-- The number counts all interfaces before its own exactly when they are all up. -/
theorem countP_take_eq_iff {node : Node} {position : ℕ}
    (hlt : position < node.interfaces.length) :
    (node.interfaces.take position).countP LinkLayer.isup = position ↔
      ∀ before < position, node.isUp before = true := by
  have hlength : (node.interfaces.take position).length = position := by
    rw [List.length_take]
    omega
  have hcount : (node.interfaces.take position).countP LinkLayer.isup = position ↔
      ∀ ifc ∈ node.interfaces.take position, ifc.isup = true := by
    rw [← List.countP_eq_length, hlength]
  rw [hcount]
  constructor
  · intro hall before hbefore
    have hget := List.getElem?_eq_getElem (hbefore.trans hlt)
    refine (Option.any_eq_true _ _).mpr ⟨_, hget, hall _ ?_⟩
    exact List.mem_take_iff_getElem.mpr ⟨before, by omega, rfl⟩
  · intro hall ifc hmem
    obtain ⟨before, hbefore, rfl⟩ := List.mem_take_iff_getElem.mp hmem
    obtain ⟨ifc, hget, hup⟩ := (Option.any_eq_true _ _).mp (hall before (by omega))
    rw [List.getElem?_eq_getElem (by omega)] at hget
    rwa [Option.some.inj hget]

/-! ### Which interface the commands meet -/

theorem downActsOn_iff {node : Node} {id position : ℕ} {ifc : LinkLayer}
    (hget : node.interfaces[position]? = some ifc) (hup : ifc.isup = true) :
    node.DownActsOn id position ↔ id = position := by
  constructor
  · rintro ⟨node', ifc', hdown, hget', hacted, -⟩
    obtain rfl := Option.some.inj (hget.symm.trans hget')
    obtain ⟨met, -, hinterfaces, -⟩ := downCmd_spec hdown
    by_contra hne
    rw [hinterfaces, if_neg (Ne.symm hne), hget] at hacted
    rw [Option.some.inj hacted] at hup
    exact Bool.false_ne_true hup
  · rintro rfl
    have hdown : node.downCmd id = some _ := congrArg _ hget
    obtain ⟨met, hmet, hinterfaces, htable⟩ := downCmd_spec hdown
    obtain rfl := Option.some.inj (hget.symm.trans hmet)
    refine ⟨_, ifc, hdown, hget, ?_, fun other hother ↦ ?_, htable⟩
    · rw [hinterfaces, if_pos rfl]
    · rw [hinterfaces, if_neg hother]

theorem upActsOn_self {node : Node} {id : ℕ} {ifc : LinkLayer}
    (hget : node.interfaces[id]? = some ifc) : node.UpActsOn id id := by
  intro sockfd now
  have hup : node.upCmd id sockfd now = some _ := congrArg _ hget
  obtain ⟨met, hmet, hinterfaces, htable⟩ := upCmd_spec hup
  obtain rfl := Option.some.inj (hget.symm.trans hmet)
  refine ⟨_, ifc, hup, hget, ?_, fun other hother ↦ ?_, htable⟩
  · rw [hinterfaces, if_pos rfl]
  · rw [hinterfaces, if_neg hother]

/-- The commands with the number of a line meet its interface exactly when all before that are
up. -/
theorem acts_iff {node : Node} {row : InterfaceRow} (h : row ∈ node.printInterfaces) :
    node.DownActsOn row.id row.ifc ∧ node.UpActsOn row.id row.ifc ↔
      ∀ before < row.ifc, node.isUp before = true := by
  obtain ⟨position, ifc, hget, hup, rfl⟩ := mem_printInterfaces_iff.mp h
  dsimp only
  rw [← countP_take_eq_iff (List.getElem?_eq_some_iff.mp hget).1, downActsOn_iff hget hup]
  refine and_iff_left_of_imp fun hid ↦ ?_
  rw [hid]
  exact upActsOn_self hget

theorem shownIdsAct_iff_upFirst (node : Node) : node.ShownIdsAct ↔ node.UpFirst := by
  constructor
  · intro hacts position hup
    obtain ⟨ifc, hget, hifc⟩ := (Option.any_eq_true _ _).mp hup
    have hrow := mem_printInterfaces_iff.mpr ⟨position, ifc, hget, hifc, rfl⟩
    exact (acts_iff hrow).mp (hacts _ hrow)
  · intro hfirst row hrow
    refine (acts_iff hrow).mpr ?_
    obtain ⟨position, ifc, hget, hup, rfl⟩ := mem_printInterfaces_iff.mp hrow
    exact hfirst position ((Option.any_eq_true _ _).mpr ⟨ifc, hget, hup⟩)

/-! ### Whole runs -/

theorem upFirst_downCmd_iff {node node' : Node} {id : ℕ} (hfirst : node.UpFirst)
    (h : node.downCmd id = some node') :
    node'.UpFirst ↔ ∀ behind, id < behind → node.isUp behind = false := by
  have hisup := isUp_downCmd h
  constructor
  · intro hfirst' behind hlt
    by_contra hbehind
    have hup : node'.isUp behind = true := by
      rw [hisup, if_neg hlt.ne', Bool.eq_true_of_not_eq_false hbehind]
    have hdown := hfirst' behind hup id hlt
    rw [hisup, if_pos rfl] at hdown
    exact Bool.false_ne_true hdown
  · intro hnone position hup before hbefore
    rw [hisup] at hup ⊢
    split_ifs at hup with hposition
    rw [if_neg]
    · exact hfirst position hup before hbefore
    · rintro rfl
      exact Bool.false_ne_true ((hnone position hbefore).symm.trans hup)

theorem upFirst_upCmd_iff {node node' : Node} {id : ℕ} {sockfd : Int} {now : Timeval}
    (hfirst : node.UpFirst) (h : node.upCmd id sockfd now = some node') :
    node'.UpFirst ↔ ∀ before < id, node.isUp before = true := by
  have hisup := isUp_upCmd h
  constructor
  · intro hfirst' before hbefore
    have hup := hfirst' id ((hisup id).trans (if_pos rfl)) before hbefore
    rwa [hisup, if_neg hbefore.ne] at hup
  · intro hall position hup before hbefore
    rw [hisup] at hup ⊢
    split_ifs with hsame
    · rfl
    · split_ifs at hup with hposition
      · exact hall before (hposition ▸ hbefore)
      · exact hfirst position hup before hbefore

theorem UpFirst.congr {node node' : Node} (h : node'.interfaces = node.interfaces) :
    node'.UpFirst ↔ node.UpFirst := by
  unfold UpFirst isUp
  rw [h]

theorem new_upFirst (order : ByteOrder) (links : List LinkConfig) (clock : ℕ → Timeval) :
    (new order links clock).UpFirst := by
  have hall : ∀ (position : ℕ) (ifc : LinkLayer),
      (new order links clock).interfaces[position]? = some ifc → ifc.isup = true := by
    intro position ifc hget
    rw [new_interfaces] at hget
    obtain ⟨link, -, rfl⟩ := List.mem_map.mp (List.mem_of_getElem? hget)
    rfl
  intro position hup before hbefore
  obtain ⟨ifc, hget, -⟩ := (Option.any_eq_true _ _).mp hup
  have hlt := hbefore.trans (List.getElem?_eq_some_iff.mp hget).1
  have hbefore := List.getElem?_eq_getElem hlt
  exact (Option.any_eq_true _ _).mpr ⟨_, hbefore, hall before _ hbefore⟩

/-- In every state of a run from the constructor, the number of every line that is shown is the one
with which the commands act on its interface, exactly when on the way no interface is taken down
while one behind it is up, and none up while one before it is down. -/
theorem shownIdsAct_iff (order : ByteOrder) (links : List LinkConfig) (clock : ℕ → Timeval)
    (events : List Event) :
    EveryState Step ShownIdsAct (new order links clock) events ↔
      EveryStep Step KeepsUpFirst (new order links clock) events := by
  refine everyState_new_iff ((shownIdsAct_iff_upFirst _).mpr (new_upFirst order links clock))
    (fun {node node' event} hidle hacts hstep ↦ ?_) events
  rw [shownIdsAct_iff_upFirst] at hacts ⊢
  have hother : event.LeavesInterfaces → KeepsUpFirst node event →
      (node'.UpFirst ↔ KeepsUpFirst node event) := fun hevent hkeeps ↦
    iff_of_true ((UpFirst.congr (hstep.interfaces_eq hidle hevent)).mpr hacts) hkeeps
  cases event with
  | command c =>
    cases c with
    | send _ => exact hother trivial trivial
    | refresh _ => exact hother trivial trivial
    | down interface => exact upFirst_downCmd_iff hacts hstep
    | up interface sockfd now => exact upFirst_upCmd_iff hacts hstep
  | receive _ _ _ _ => exact hother trivial trivial
  | application _ _ _ => exact hother trivial trivial
  | transmit => exact hother trivial trivial

end Node

/-- After the first of two interfaces is taken down the second is shown under its number: given
with it, `down` meets the first again, and the second stays up. -/
theorem shownIds_moved : oneDownNode.printInterfaces = [⟨0, 1, 0x0400000A, 0x0300000A⟩] ∧
    ¬ EveryState Node.Step Node.ShownIdsAct twoLinkNode [.command (.down 0)] := by
  have hrows : oneDownNode.printInterfaces = [⟨0, 1, 0x0400000A, 0x0300000A⟩] := by
    decide +kernel
  refine ⟨hrows, fun hacts ↦ ?_⟩
  have hstep : twoLinkNode.Step (.command (.down 0)) oneDownNode := rfl
  have hmet := (hacts _ [] oneDownNode (List.append_nil _).symm (Run.single hstep) _
    (hrows ▸ List.mem_singleton_self _)).1
  obtain ⟨node', ifc, hdown, hget, hacted, -⟩ := hmet
  obtain ⟨met, -, hinterfaces, -⟩ := Node.downCmd_spec hdown
  have hup : oneDownNode.isUp 1 = true := by decide
  rw [hinterfaces, if_neg Nat.one_ne_zero, hget] at hacted
  rw [Node.isUp, hget, Option.some.inj hacted] at hup
  exact Bool.false_ne_true hup

end IpRipStack
