import IpRipStack.Console
import IpRipStack.UserTraffic

/-!
# Terminals

The programs of a network, each with a user at its prompt. What a node does of its own accord comes
from its console or from its timers: `main` hands typed lines to `execute_cmd`, the loop of
`update_refresh_rt` acts on what the timers have pushed. The other threads are those of `Stacks`.
A program that has been quit does nothing any more, and datagrams to it wait for good.

The programs refine `Stacks`: what happens at a terminal is a step there or none (`Matched`). So
what a node prints as received was typed (`printed_was_typed`).
-/

set_option autoImplicit false
set_option relaxedAutoImplicit false

namespace IpRipStack

open MachineWord CScan Runs

/-- The loop of `RipLayer::update_refresh_rt`: what it does for what it has popped. -/
def timerCommand (type : ℕ) (curtv : Timeval) : Option Command :=
  if type = updateTimerId then some (.send 2)
  else if type = refreshTimerId then some (.refresh curtv)
  else none

/-- The programs of a network, those that have not been quit, and the datagrams between the hosts. -/
structure Terminals (T : Topology) where
  consoles : Fin T.size → Console
  running : Fin T.size → Bool
  wire : List (Datagram T)

/-- What happens: a line is typed, the RIP thread pops what a timer has pushed, the threads that
move packets take a step. -/
inductive TerminalEvent (T : Topology)
  | typed (n : Fin T.size) (line : TypedLine) (sockfd : Int) (now : Timeval)
  | timer (n : Fin T.size) (type : ℕ) (curtv : Timeval)
  | processOutQueue (n : Fin T.size) (stale : List UInt8) (clock : ℕ → Timeval)
  | processInQueue (n : Fin T.size)
  | recvData (index : ℕ) (stack : RecvBuffer)
  | lose (index : ℕ)
  | duplicate (index : ℕ)

/-- What a line has the command thread of a node do. -/
def Act.op (sockfd : Int) (now : Timeval) : Act → NodeOp
  | .send dest protocol data => .application dest protocol data
  | .down interface => .command (.down interface.toNat)
  | .up interface => .command (.up interface.toNat sockfd now)

/-- The payload of a line is no longer than a receiver has room for. -/
def Act.Fits : Act → Prop
  | .send _ _ data => data.length ≤ 1004
  | _ => True

instance (act : Act) : Decidable act.Fits :=
  match act with
  | .send _ _ data => inferInstanceAs (Decidable (data.length ≤ 1004))
  | .down _ => inferInstanceAs (Decidable True)
  | .up _ => inferInstanceAs (Decidable True)

namespace Terminals

variable {T : Topology}

/-- The programs after they have started. -/
def start (T : Topology) (clock : Fin T.size → ℕ → Timeval) : Terminals T where
  consoles n := ⟨Node.new (T.order n) (T.links n) (clock n), [], []⟩
  running _ := true
  wire := []

/-- The nodes and the wire. -/
def toStacks (t : Terminals T) : Stacks T := ⟨fun n ↦ (t.consoles n).node, t.wire⟩

/-- The state in which the nodes and the wire have become others. -/
def withStacks (t : Terminals T) (s : Stacks T) : Terminals T where
  consoles n := { t.consoles n with node := s.nodes n }
  running := t.running
  wire := s.wire

/-- What the threads of a program do while it runs. -/
def move (t : Terminals T) (n : Fin T.size) (event : StackEvent T) : Option (Terminals T) :=
  if t.running n then (t.toStacks.handle event).map t.withStacks else none

def handle (t : Terminals T) : TerminalEvent T → Option (Terminals T)
  | .typed n line sockfd now =>
    if t.running n then
      ((t.consoles n).turn line sockfd now).map fun
        | .quit => { t with running := Function.update t.running n false }
        | .goOn console => { t with consoles := Function.update t.consoles n console }
    else none
  | .timer n type curtv =>
    match timerCommand type curtv with
    | none => some t
    | some c => t.move n (.operate n (.command c))
  | .processOutQueue n stale clock => t.move n (.operate n (.processOutQueue stale clock))
  | .processInQueue n => t.move n (.processInQueue n)
  | .recvData index stack =>
    (t.wire[index]?).bind fun d ↦ t.move (T.peer d.source).1 (.recvData index stack)
  | .lose index => (t.toStacks.handle (.lose index)).map t.withStacks
  | .duplicate index => (t.toStacks.handle (.duplicate index)).map t.withStacks

def Step (t : Terminals T) (event : TerminalEvent T) (t' : Terminals T) : Prop :=
  t.handle event = some t'

/-- What a line has a program send, as it will be printed. -/
def sent (t : Terminals T) : TerminalEvent T → Multiset Shown
  | .typed n line _ _ =>
    match line.act (t.consoles n).node.order with
    | some (.send dest protocol data) => (t.consoles n).node.offers dest protocol data
    | _ => 0
  | _ => 0

/-- What a typed line has a node do. -/
def act (t : Terminals T) : TerminalEvent T → Option Act
  | .typed n line _ _ => line.act (t.consoles n).node.order
  | _ => none

/-- What an event is for the threads of the nodes and the wire, if it is anything. -/
def stackEvent (t : Terminals T) : TerminalEvent T → Option (StackEvent T)
  | .typed n line sockfd now =>
    (line.act (t.consoles n).node.order).map fun act ↦ .operate n (act.op sockfd now)
  | .timer n type curtv => (timerCommand type curtv).map fun c ↦ .operate n (.command c)
  | .processOutQueue n stale clock => some (.operate n (.processOutQueue stale clock))
  | .processInQueue n => some (.processInQueue n)
  | .recvData index stack => some (.recvData index stack)
  | .lose index => some (.lose index)
  | .duplicate index => some (.duplicate index)

/-- No table has more than sixty-four entries, and no payload that is typed is longer than a
receiver has room for. -/
def Fits (t : Terminals T) (event : TerminalEvent T) : Prop :=
  (∀ n, (t.consoles n).node.rtable.size ≤ maxEntries) ∧ ∀ act ∈ t.act event, act.Fits

instance (t : Terminals T) (event : TerminalEvent T) : Decidable (t.Fits event) :=
  inferInstanceAs (Decidable ((∀ n, (t.consoles n).node.rtable.size ≤ maxEntries) ∧
    ∀ act ∈ t.act event, act.Fits))

def FitStep (t : Terminals T) (event : TerminalEvent T) (t' : Terminals T) : Prop :=
  t.Step event t' ∧ t.Fits event

/-! ### The programs and the stacks -/

@[simp] theorem toStacks_withStacks (t : Terminals T) (s : Stacks T) :
    (t.withStacks s).toStacks = s := rfl

/-- An event of the programs is a step of the nodes and the wire, or leaves them alone. -/
def Matched (t : Terminals T) (event : TerminalEvent T) (t' : Terminals T) : Prop :=
  (t.stackEvent event = none ∧ t'.toStacks = t.toStacks) ∨
    ∃ event', t.stackEvent event = some event' ∧ t.toStacks.Step event' t'.toStacks

theorem matched_handle {t t' : Terminals T} {event : TerminalEvent T} {event' : StackEvent T}
    (hevent : t.stackEvent event = some event')
    (h : (t.toStacks.handle event').map t.withStacks = some t') : t.Matched event t' := by
  obtain ⟨s, hs, rfl⟩ := Option.map_eq_some_iff.mp h
  exact Or.inr ⟨event', hevent, hs⟩

theorem matched_move {t t' : Terminals T} {event : TerminalEvent T} {event' : StackEvent T}
    {n : Fin T.size} (hevent : t.stackEvent event = some event') (h : t.move n event' = some t') :
    t.Matched event t' := by
  unfold move at h
  split_ifs at h
  exact matched_handle hevent h

/-- Replacing a console replaces its node. -/
theorem toStacks_update (t : Terminals T) (n : Fin T.size) (console : Console) :
    toStacks { t with consoles := Function.update t.consoles n console } =
      t.toStacks.put n console.node := by
  have hnodes : (fun m ↦ (Function.update t.consoles n console m).node) =
      Function.update (fun m ↦ (t.consoles m).node) n console.node :=
    Function.comp_update Console.node t.consoles n console
  unfold toStacks Stacks.put
  rw [hnodes]

/-- An event that a line stands for is an operation of the command thread. -/
theorem operate_of_step {node node' : Node} {act : Act} {sockfd : Int} {now : Timeval}
    (h : node.Step (act.event sockfd now) node') : node.operate (act.op sockfd now) = some node' := by
  cases act <;> exact h

/-- What a typed line does to the nodes. -/
theorem matched_turn {t : Terminals T} {n : Fin T.size} {line : TypedLine} {sockfd : Int}
    {now : Timeval} {console : Console}
    (h : (t.consoles n).turn line sockfd now = some (.goOn console)) :
    t.Matched (.typed n line sockfd now)
      { t with consoles := Function.update t.consoles n console } := by
  unfold Matched stackEvent
  rw [toStacks_update]
  dsimp only
  rcases turn_cases h with ⟨hnone, hsame⟩ | ⟨act, hact, hstep⟩
  · rw [hnone, hsame]
    refine Or.inl ⟨rfl, ?_⟩
    unfold Stacks.put toStacks
    rw [Function.update_eq_self]
  · rw [hact]
    exact Or.inr ⟨_, rfl, congrArg (Option.map (t.toStacks.put n)) (operate_of_step hstep)⟩

theorem Step.matched {t t' : Terminals T} {event : TerminalEvent T} (h : t.Step event t') :
    t.Matched event t' := by
  unfold Step handle at h
  cases event with
  | typed n line sockfd now =>
    dsimp only at h
    split_ifs at h
    obtain ⟨turn, hturn, rfl⟩ := Option.map_eq_some_iff.mp h
    cases turn with
    | quit =>
      refine Or.inl ⟨?_, rfl⟩
      unfold stackEvent
      dsimp only
      rw [act_of_quit hturn]
      rfl
    | goOn console => exact matched_turn hturn
  | timer n type curtv =>
    dsimp only at h
    split at h
    · rename_i hnone
      obtain rfl := Option.some.inj h
      exact Or.inl ⟨congrArg (Option.map _) hnone, rfl⟩
    · rename_i c hcommand
      exact matched_move (congrArg (Option.map _) hcommand) h
  | processOutQueue n stale clock => exact matched_move rfl h
  | processInQueue n => exact matched_move rfl h
  | recvData index stack =>
    obtain ⟨d, -, hmove⟩ := Option.bind_eq_some_iff.mp h
    exact matched_move rfl hmove
  | lose index => exact matched_handle rfl h
  | duplicate index => exact matched_handle rfl h

/-- What a line has a program send is what its node offers. -/
theorem sent_eq (t : Terminals T) (event : TerminalEvent T) :
    t.sent event = (t.stackEvent event).elim 0 t.toStacks.added := by
  unfold sent stackEvent
  cases event with
  | typed n line sockfd now =>
    dsimp only
    cases line.act (t.consoles n).node.order with
    | none => rfl
    | some act => cases act <;> rfl
  | timer n type curtv =>
    dsimp only
    cases timerCommand type curtv <;> rfl
  | _ => rfl

/-- Only a duplication stands for one. -/
theorem eq_of_duplicate {t : Terminals T} {event : TerminalEvent T} {index : ℕ}
    (h : t.stackEvent event = some (.duplicate index)) : event = .duplicate index := by
  unfold stackEvent at h
  cases event with
  | typed n line sockfd now =>
    obtain ⟨act, -, hevent⟩ := Option.map_eq_some_iff.mp h
    cases hevent
  | timer n type curtv =>
    obtain ⟨c, -, hevent⟩ := Option.map_eq_some_iff.mp h
    cases hevent
  | duplicate index' =>
    cases h
    rfl
  | _ => cases h

theorem FitStep.matched {t t' : Terminals T} {event : TerminalEvent T} (h : t.FitStep event t') :
    (t.stackEvent event = none ∧ t'.toStacks = t.toStacks) ∨
      ∃ event', t.stackEvent event = some event' ∧ t.toStacks.FitStep event' t'.toStacks := by
  obtain ⟨hstep, hsizes, hpayload⟩ := h
  rcases Step.matched hstep with hsame | ⟨event', hevent, hstep'⟩
  · exact Or.inl hsame
  · refine Or.inr ⟨event', hevent, hstep', hsizes, ?_⟩
    unfold stackEvent at hevent
    cases event with
    | typed n line sockfd now =>
      obtain ⟨act, hact, rfl⟩ := Option.map_eq_some_iff.mp hevent
      have hfits := hpayload act hact
      cases act with
      | send dest protocol data => exact hfits
      | down interface => trivial
      | up interface => trivial
    | timer n type curtv =>
      obtain ⟨c, -, rfl⟩ := Option.map_eq_some_iff.mp hevent
      trivial
    | _ =>
      cases hevent
      trivial

/-- A run of the programs is a run of the nodes and the wire in which as much is sent, and no more is
duplicated. -/
theorem run_stacks {t t' : Terminals T} {events : List (TerminalEvent T)}
    (h : Run FitStep t events t') :
    ∃ events', Run Stacks.FitStep t.toStacks events' t'.toStacks ∧
      tally Stacks.handle Stacks.added t.toStacks events' = tally handle sent t events ∧
      ∀ index, .duplicate index ∈ events' → .duplicate index ∈ events := by
  obtain ⟨events', hrun, htally, hfrom⟩ := h.relabel toStacks stackEvent handle Stacks.handle
    Stacks.added (fun _ _ _ hstep ↦ hstep.1) (fun _ _ _ hstep ↦ hstep.1)
    fun _ _ _ hstep ↦ hstep.matched
  have hsent : sent = fun (t : Terminals T) event ↦
      (t.stackEvent event).elim 0 t.toStacks.added := funext fun t ↦ funext t.sent_eq
  refine ⟨events', hrun, hsent ▸ htally, fun index hindex ↦ ?_⟩
  obtain ⟨u, event, hevent, hlabel⟩ := hfrom _ hindex
  exact eq_of_duplicate hlabel ▸ hevent

/-! ### What was typed -/

/-- Among the events is a line for the packet: typed at a node that has the address of the sender, it
names the destination as addresses are written, and its payload is that of the packet. -/
def TypedFor (events : List (TerminalEvent T)) (packet : Shown) : Prop :=
  ∃ m line sockfd now, .typed m line sockfd now ∈ events ∧ T.Owns m packet.saddr ∧
    (∃ fields : SendFields, fields.Form line.chars ∧
      fields.ipString = inetNtop (octets .big packet.daddr)) ∧
    (∃ dest protocol, line.act (T.order m) = some (.send dest protocol packet.payload)) ∧
    packet.payloadLength = packet.payload.length

/-- The bytes of an address that was read, back in network order. -/
theorem octets_ntohl_word32 (order : ByteOrder) (a b c d : UInt8) :
    octets .big (ntohl order (word32 order a b c d)) = (a, b, c, d) := by
  have hnet : ntohl order (word32 order a b c d) = word32 .big a b c d :=
    ntohl_load32 order [a, b, c, d] 0
  obtain ⟨h₀, h₁, h₂, h₃⟩ := byteOfWord_word32_big a b c d
  rw [hnet]
  unfold octets store32
  dsimp only
  rw [h₀, h₁, h₂, h₃]
  rfl

theorem mem_offers {node : Node} {dest : UInt32} {proto : UInt8} {payload : List UInt8}
    {packet : Shown} (h : packet ∈ node.offers dest proto payload) :
    ∃ ifc ∈ node.interfaces, packet =
      ⟨ifc.vipLocal, ntohl node.order dest, payload.length, payload.takeWhile fun b ↦ b ≠ 0⟩ := by
  unfold Node.offers at h
  dsimp only at h
  split_ifs at h
  · exact absurd h (Multiset.notMem_zero packet)
  · cases hfound : (node.getInterface (node.getNextAddress (ntohl node.order dest)
        defaultAddr)).bind fun id ↦ node.interfaces[id]? with
    | none =>
      rw [hfound] at h
      exact absurd h (Multiset.notMem_zero packet)
    | some ifc =>
      rw [hfound] at h
      obtain ⟨id, -, hget⟩ := Option.bind_eq_some_iff.mp hfound
      exact ⟨ifc, List.mem_of_getElem? hget, Multiset.mem_singleton.mp h⟩

/-- What a line has a program send is the packet that the line is for. -/
theorem typedFor_of_mem_sent {t : Terminals T} (h : t.toStacks.Orderly) {event : TerminalEvent T}
    {packet : Shown} (hpacket : packet ∈ t.sent event) {events : List (TerminalEvent T)}
    (hevent : event ∈ events) : TypedFor events packet := by
  cases event with
  | typed m line sockfd now =>
    have horder : (t.consoles m).node.order = T.order m := h.order m
    unfold sent at hpacket
    dsimp only at hpacket
    rw [horder] at hpacket
    split at hpacket
    · rename_i dest protocol data hact
      obtain ⟨ipString, numConsumed, a, b, c, d, hscan, haddress, rfl, hdata, -⟩ :=
        parseSend_eq_ok_iff.mp (TypedLine.parseSend_of_act hact)
      have hzero : 0 ∉ data := hdata ▸ zero_notMem_cString _
      have hwhole : data.takeWhile (fun b ↦ b ≠ 0) = data :=
        List.takeWhile_eq_self_iff.mpr fun b hb ↦
          decide_eq_true fun hb' : b = 0 ↦ hzero (hb' ▸ hb)
      rw [line.cString_memory] at hscan
      obtain ⟨fields, hform, rfl, -⟩ := scanSend_eq_some_iff.mp hscan
      obtain ⟨ifc, hifc, rfl⟩ := mem_offers hpacket
      rw [hwhole, horder]
      refine ⟨m, line, sockfd, now, hevent, ?_, ⟨fields, hform, ?_⟩, ⟨_, protocol, hact⟩, rfl⟩
      · exact (Topology.isMyInterface_iff_owns (h.vips m) _).mp
          ((Node.isMyInterface_iff _ _).mpr ⟨ifc, hifc, rfl⟩)
      · rw [octets_ntohl_word32]
        exact inetPton_eq_some_iff.mp haddress
    · exact absurd hpacket (Multiset.notMem_zero packet)
  | _ => exact absurd hpacket (Multiset.notMem_zero packet)

theorem FitStep.orderly {t t' : Terminals T} {event : TerminalEvent T} (h : t.FitStep event t')
    (horderly : t.toStacks.Orderly) : t'.toStacks.Orderly := by
  rcases h.matched with ⟨-, hsame⟩ | ⟨event', -, hstep⟩
  · rwa [hsame]
  · exact horderly.step hstep

theorem typedFor_of_mem_tally {t t' : Terminals T} (h : t.toStacks.Orderly)
    {events : List (TerminalEvent T)} (hrun : Run FitStep t events t') {packet : Shown}
    (hpacket : packet ∈ tally handle sent t events) : TypedFor events packet := by
  induction hrun with
  | nil t => exact absurd hpacket (Multiset.notMem_zero packet)
  | @cons t t₁ t' event events hstep hrun ih =>
    rw [tally, show t.handle event = some t₁ from hstep.1, Option.elim_some] at hpacket
    rcases Multiset.mem_add.mp hpacket with hfirst | hrest
    · exact typedFor_of_mem_sent h hfirst List.mem_cons_self
    · obtain ⟨m, line, sockfd, now, hmem, hothers⟩ := ih (hstep.orderly h) hrest
      exact ⟨m, line, sockfd, now, List.mem_cons_of_mem event hmem, hothers⟩

/-- Assumes: at most sixty-four interfaces at a node. In every run of the programs of a network in
which everything fits, whatever is typed, whenever timers expire, and in whatever order the threads
work: what a node prints as received was typed for it at another node or its own, and so was what is
on its way. If the wire does not duplicate, it is not printed more often than it was typed. -/
theorem printed_was_typed {T : Topology} (hlinks : ∀ n, (T.links n).length ≤ maxEntries)
    (clock : Fin T.size → ℕ → Timeval) {events : List (TerminalEvent T)} {t : Terminals T}
    (hrun : Run FitStep (start T clock) events t) :
    (∀ n, ∀ delivery ∈ (t.consoles n).node.output,
      T.Owns n delivery.daddr ∧ TypedFor events delivery.shown) ∧
    (∀ packet ∈ t.toStacks.inTransit, TypedFor events packet) ∧
    ((∀ index, .duplicate index ∉ events) →
      t.toStacks.printed + t.toStacks.inTransit ≤ tally handle sent (start T clock) events) := by
  obtain ⟨events', hrun', htally, honce⟩ := run_stacks hrun
  have horderly := Stacks.Orderly.start hlinks clock
  have htyped : ∀ packet ∈ t.toStacks.printed + t.toStacks.inTransit, TypedFor events packet := by
    intro packet hpacket
    rw [Stacks.printed_add_inTransit] at hpacket
    have hmem := horderly.total_subset hrun' hpacket
    rw [Stacks.total_start, zero_add] at hmem
    exact typedFor_of_mem_tally (t := start T clock) horderly hrun (htally ▸ hmem)
  refine ⟨fun n delivery hdelivery ↦ ⟨?_, htyped _ ?_⟩, fun packet hpacket ↦ htyped packet ?_,
    fun hnever ↦ ?_⟩
  · exact Stacks.PrintsOwn.run horderly (Stacks.PrintsOwn.start T clock) hrun' n delivery hdelivery
  · have hheld : delivery.shown ∈ (t.toStacks.nodes n).printed :=
      List.mem_map_of_mem hdelivery
    exact Multiset.mem_add.mpr (Or.inl (Multiset.mem_of_le
      (Finset.single_le_sum (fun _ _ ↦ Multiset.zero_le _) (Finset.mem_univ n)) hheld))
  · exact Multiset.mem_add.mpr (Or.inr hpacket)
  · have hle := horderly.total_le hrun' fun index hmem ↦ hnever index (honce index hmem)
    rw [Stacks.total_start, zero_add, ← Stacks.printed_add_inTransit] at hle
    exact htally ▸ hle

/-- The line `send 10.0.0.2 6 hi` is typed at a node that has heard of the other. -/
theorem printed_was_typed_pair : ∃ events t,
    Run FitStep (start pair fun _ _ ↦ ⟨0, 0⟩) events t ∧
      ((t.consoles (1 : Fin 2)).node.output.map Delivery.shown : List Shown) =
        [⟨0x0A000001, 0x0A000002, 2, [104, 105]⟩] ∧
      TypedFor events ⟨0x0A000001, 0x0A000002, 2, [104, 105]⟩ := by
  let line : TypedLine :=
    ⟨[115, 101, 110, 100, 32, 49, 48, 46, 48, 46, 48, 46, 50, 32, 54, 32, 104, 105], [], by decide⟩
  let handleFirst (n : Fin 2) : TerminalEvent pair := .processOutQueue n [] fun _ ↦ ⟨0, 0⟩
  let events : List (TerminalEvent pair) :=
    [.timer (1 : Fin 2) 1 ⟨0, 0⟩, .processInQueue (1 : Fin 2), .processInQueue (1 : Fin 2),
      .recvData 1 zeroStack, handleFirst 0, .typed (0 : Fin 2) line 0 ⟨0, 0⟩,
      .processInQueue (0 : Fin 2), .processInQueue (0 : Fin 2), .recvData 2 zeroStack, handleFirst 1]
  let next (t : Terminals pair) (event : TerminalEvent pair) : Option (Terminals pair) :=
    if t.Fits event then t.handle event else none
  have hrun : (events.foldlM next (start pair fun _ _ ↦ ⟨0, 0⟩)).any (fun t ↦
      (t.consoles (1 : Fin 2)).node.output.map Delivery.shown ==
        [⟨0x0A000001, 0x0A000002, 2, [104, 105]⟩]) = true := by decide +kernel
  obtain ⟨t, ht, hprinted⟩ := (Option.any_eq_true _ _).mp hrun
  have hfits : Run FitStep (start pair fun _ _ ↦ ⟨0, 0⟩) events t := Run.of_foldlM_if ht
  have hmap := beq_iff_eq.mp hprinted
  obtain ⟨htyped, -⟩ := printed_was_typed (T := pair) (by decide) _ hfits
  have hone : (⟨0x0A000001, 0x0A000002, 2, [104, 105]⟩ : Shown) ∈
      (t.consoles (1 : Fin 2)).node.output.map Delivery.shown := by
    rw [hmap]
    exact List.mem_cons_self
  obtain ⟨delivery, hdelivery, hshown⟩ := List.mem_map.mp hone
  exact ⟨events, t, hfits, hmap, hshown ▸ (htyped (1 : Fin 2) delivery hdelivery).2⟩

end Terminals

end IpRipStack
