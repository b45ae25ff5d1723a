import IpRipStack.HostsRest
import IpRipStack.Terminals

/-!
# What is typed is printed

The programs of a network with all their threads, each with a user at its prompt. `main` hands typed
lines to `execute_cmd`, the loop of `update_refresh_rt` acts on what the timers have pushed, as in
`Terminals`; the threads that move packets are those of `Hosts`, where `send_frame` waits for its
buffer. A program that has been quit does nothing any more.

What happens at a prompt or by a timer is a step of the hosts or none (`Step.matched`), and while all
programs run, what the hosts can do of their own accord the programs can (`exists_run_of_hosts`). So
in a steady network what was typed gets printed (`typed_is_printed`).
-/

set_option autoImplicit false
set_option relaxedAutoImplicit false

namespace IpRipStack

open MachineWord Runs

/-- What the users and the timers have no part in. -/
def HostEvent.background {T : Topology} : HostEvent T → Bool
  | .operate _ (.processOutQueue _ _) => true
  | .operate _ _ => false
  | _ => true

/-- The node whose thread does something; a link thread reads what comes to its own interface. -/
def Hosts.home {T : Topology} (h : Hosts T) : HostEvent T → Option (Fin T.size)
  | .operate n _ | .pop n | .sender n | .spurious n => some n
  | .link e _ => some e.1
  | .recvData index _ => (h.wire[index]?).map fun d ↦ (T.peer d.source).1
  | .lose _ | .duplicate _ => none

/-- The programs of a network, those that have not been quit, the sending half of each, and the
datagrams between the hosts. -/
structure Programs (T : Topology) where
  consoles : Fin T.size → Console
  running : Fin T.size → Bool
  senders : (n : Fin T.size) → SendState (Fin (T.links n).length)
  wire : List (Datagram T)

/-- What happens: a line is typed, the RIP thread pops what a timer has pushed, another thread or the
wire takes a step. -/
inductive ProgramEvent (T : Topology)
  | typed (n : Fin T.size) (line : TypedLine) (sockfd : Int) (now : Timeval)
  | timer (n : Fin T.size) (type : ℕ) (curtv : Timeval)
  | thread (event : HostEvent T)

/-- The threads that move packets. -/
def ProgramEvent.Own {T : Topology} : ProgramEvent T → Prop
  | .thread event => event.Own
  | _ => False

/-- The steps that take a packet off a queue or a datagram off the wire. -/
def ProgramEvent.moves {T : Topology} : ProgramEvent T → Bool
  | .thread event => event.moves
  | _ => false

namespace Programs

variable {T : Topology}

/-- The programs after they have started. -/
def start (T : Topology) (clock : Fin T.size → ℕ → Timeval) : Programs T where
  consoles n := ⟨Node.new (T.order n) (T.links n) (clock n), [], []⟩
  running _ := true
  senders _ := SendState.start
  wire := []

/-- The nodes and what is between them. -/
def toHosts (p : Programs T) : Hosts T := ⟨fun n ↦ (p.consoles n).node, p.senders, p.wire⟩

/-- The state in which these have become others. -/
def withHosts (p : Programs T) (h : Hosts T) : Programs T where
  consoles n := { p.consoles n with node := h.nodes n }
  running := p.running
  senders := h.senders
  wire := h.wire

/-- What a thread of a program does while it runs. -/
def move (p : Programs T) (event : HostEvent T) : Option (Programs T) :=
  if (p.toHosts.home event).all p.running then (p.toHosts.handle event).map p.withHosts else none

def handle (p : Programs T) : ProgramEvent T → Option (Programs T)
  | .typed n line sockfd now =>
    if p.running n then
      ((p.consoles n).turn line sockfd now).map fun
        | .quit => { p with running := Function.update p.running n false }
        | .goOn console =>
          let sender := p.senders n
          { p with
            consoles := Function.update p.consoles n console
            senders := Function.update p.senders n
              ((line.act (p.consoles n).node.order).elim sender fun act ↦
                sender.follow (act.op sockfd now)) }
    else none
  | .timer n type curtv =>
    match timerCommand type curtv with
    | none => some p
    | some c => p.move (.operate n (.command c))
  | .thread event => if event.background then p.move event else none

def Step (p : Programs T) (event : ProgramEvent T) (p' : Programs T) : Prop :=
  p.handle event = some p'

/-- What a line has a program send, as it will be printed. -/
def sent (p : Programs T) : ProgramEvent T → Multiset Shown
  | .typed n line _ _ =>
    match line.act (p.consoles n).node.order with
    | some (.send dest protocol data) => (p.consoles n).node.offers dest protocol data
    | _ => 0
  | _ => 0

/-- What the wire adds by duplicating a datagram. -/
def copied (p : Programs T) : ProgramEvent T → Multiset Shown
  | .thread event => p.toHosts.copied event
  | _ => 0

/-- What an event is for the hosts, if it is anything. -/
def hostEvent (p : Programs T) : ProgramEvent T → Option (HostEvent T)
  | .typed n line sockfd now =>
    (line.act (p.consoles n).node.order).map fun act ↦ .operate n (act.op sockfd now)
  | .timer n type curtv => (timerCommand type curtv).map fun c ↦ .operate n (.command c)
  | .thread event => some event

/-- What happens to the programs of a steady network of hosts. -/
def Steady (p : Programs T) (event : ProgramEvent T) : Prop :=
  ∀ event' ∈ p.hostEvent event, p.toHosts.Steady event'

def SteadyStep (p : Programs T) (event : ProgramEvent T) (p' : Programs T) : Prop :=
  p.Step event p' ∧ p.Steady event

/-- A step of a steady network whose users and timers are still. -/
def OwnStep (p : Programs T) (event : ProgramEvent T) (p' : Programs T) : Prop :=
  p.SteadyStep event p' ∧ event.Own

/-- No run of a network that is left alone takes a packet off a queue or a datagram off the wire. -/
def AtRest (p : Programs T) : Prop :=
  ∀ events p', Run OwnStep p events p' → events.countP ProgramEvent.moves = 0

/-- What the nodes have printed, and what is on its way. -/
def total (p : Programs T) : Multiset Shown := p.toHosts.total

/-- The steps that are left to the frames, as in `Stacks.weight`. -/
def weight (p : Programs T) : ℕ := p.toHosts.weight

/-! ### The programs and the hosts -/

/-- An event of the programs is a step of the hosts, or leaves them alone. -/
def Matched (p : Programs T) (event : ProgramEvent T) (p' : Programs T) : Prop :=
  (p.hostEvent event = none ∧ p'.toHosts = p.toHosts) ∨
    ∃ event', p.hostEvent event = some event' ∧ p.toHosts.Step event' p'.toHosts

section Step

variable {p p' : Programs T} {event : ProgramEvent T}

theorem matched_move {event' : HostEvent T} (hevent : p.hostEvent event = some event')
    (h : p.move event' = some p') : p.Matched event p' := by
  unfold move at h
  split_ifs at h
  obtain ⟨hosts, hhosts, rfl⟩ := Option.map_eq_some_iff.mp h
  exact Or.inr ⟨event', hevent, hhosts⟩

/-- What a typed line does to the hosts. -/
theorem matched_turn {n : Fin T.size} {line : TypedLine} {sockfd : Int} {now : Timeval}
    {console : Console} (h : (p.consoles n).turn line sockfd now = some (.goOn console)) :
    p.Matched (.typed n line sockfd now)
      { p with
        consoles := Function.update p.consoles n console
        senders := Function.update p.senders n
          ((line.act (p.consoles n).node.order).elim (p.senders n) fun act ↦
            (p.senders n).follow (act.op sockfd now)) } := by
  have hnodes : (fun m ↦ (Function.update p.consoles n console m).node) =
      Function.update (fun m ↦ (p.consoles m).node) n console.node :=
    Function.comp_update Console.node p.consoles n console
  unfold Matched hostEvent toHosts
  dsimp only
  rw [hnodes]
  rcases turn_cases h with ⟨hnone, hsame⟩ | ⟨act, hact, hstep⟩
  · rw [hnone, hsame]
    refine Or.inl ⟨rfl, ?_⟩
    rw [Option.elim_none, Function.update_eq_self, Function.update_eq_self]
  · rw [hact]
    have hoperate := Terminals.operate_of_step hstep
    exact Or.inr ⟨_, rfl, Option.map_eq_some_iff.mpr ⟨console.node, hoperate, rfl⟩⟩

theorem Step.matched (h : p.Step event p') : p.Matched event p' := by
  unfold Step handle at h
  cases event with
  | typed n line sockfd now =>
    dsimp only at h
    split_ifs at h
    obtain ⟨turn, hturn, rfl⟩ := Option.map_eq_some_iff.mp h
    cases turn with
    | quit =>
      refine Or.inl ⟨?_, rfl⟩
      unfold hostEvent
      dsimp only
      rw [act_of_quit hturn]
      rfl
    | goOn console => exact matched_turn hturn
  | timer n type curtv =>
    dsimp only at h
    split at h
    · rename_i hnone
      obtain rfl := Option.some.inj h
      exact Or.inl ⟨congrArg (Option.map _) hnone, rfl⟩
    · rename_i c hcommand
      exact matched_move (congrArg (Option.map _) hcommand) h
  | thread event =>
    dsimp only at h
    split_ifs at h
    exact matched_move rfl h

/-- What the programs send and the wire duplicates is what is added to the hosts. -/
theorem Step.sent_add_copied (h : p.Step event p') :
    p.sent event + p.copied event = (p.hostEvent event).elim 0 fun event' ↦
      p.toHosts.added event' + p.toHosts.copied event' := by
  unfold sent copied hostEvent
  cases event with
  | typed n line sockfd now =>
    dsimp only
    cases line.act (p.consoles n).node.order with
    | none => exact add_zero 0
    | some act => cases act <;> rfl
  | timer n type curtv =>
    dsimp only
    cases timerCommand type curtv <;> exact add_zero 0
  | thread event =>
    have hnone : p.toHosts.added event = 0 := by
      unfold Step handle at h
      dsimp only at h
      split_ifs at h with hbackground
      cases event with
      | operate n op =>
        cases op with
        | processOutQueue stale clock => rfl
        | command c => exact absurd hbackground Bool.false_ne_true
        | application dest proto payload => exact absurd hbackground Bool.false_ne_true
      | _ => rfl
    dsimp only
    rw [Option.elim_some, hnone]

/-- A steady step of the programs does what one of the hosts does. -/
theorem SteadyStep.kept (hends : Fintype.card T.End ≤ maxEntries)
    (hdefault : ∀ e, T.vip e ≠ defaultAddr) (hstep : p.SteadyStep event p')
    (hserving : ∃ net, p.toHosts.Serving net) :
    (∃ net', p'.toHosts.Serving net') ∧
      p'.total = p.total + (p.sent event + p.copied event) ∧
      (event.Own → p'.weight ≤ p.weight ∧
        (event.moves = true → p'.weight < p.weight)) ∧
      (p.toHosts.toStacks.PrintsOwn → p'.toHosts.toStacks.PrintsOwn) := by
  obtain ⟨net, hserves⟩ := hserving
  obtain ⟨hstep, hsteady⟩ := hstep
  have hamount := hstep.sent_add_copied
  rcases hstep.matched with ⟨hnone, hsame⟩ | ⟨event', hevent, hhosts⟩
  · have htotal : p'.total = p.total := congrArg Hosts.total hsame
    rw [hamount, hnone, htotal, hsame, Option.elim_none, add_zero]
    refine ⟨⟨net, hserves⟩, rfl, fun hown ↦ ?_, id⟩
    cases event with
    | thread event => exact absurd hnone (Option.some_ne_none event)
    | typed n line sockfd now => exact absurd hown id
    | timer n type curtv => exact absurd hown id
  · obtain ⟨hkept, htotal, hweight, hown⟩ :=
      hserves.step hends hdefault ⟨hhosts, hsteady event' hevent⟩
    rw [hamount, hevent, Option.elim_some]
    refine ⟨hkept, htotal, fun hown ↦ ?_, hown⟩
    cases event with
    | thread event =>
      obtain rfl := Option.some.inj hevent
      exact hweight hown
    | typed n line sockfd now => exact absurd hown id
    | timer n type curtv => exact absurd hown id

end Step

/-! ### A network that is left alone -/

section Rest

variable {p p' : Programs T}

/-- While all programs run, a step of the hosts is one of theirs. -/
theorem ownStep_thread (hrunning : ∀ n, p.running n = true) {event : HostEvent T} {h : Hosts T}
    (hstep : p.toHosts.OwnStep event h) : p.OwnStep (.thread event) (p.withHosts h) := by
  obtain ⟨⟨hhosts, hsteady⟩, hown⟩ := hstep
  have hhome : (p.toHosts.home event).all p.running = true :=
    (Option.all_eq_true _ _).mpr fun n _ ↦ hrunning n
  have hbackground : event.background = true := by
    cases event with
    | operate n op =>
      obtain ⟨stale, clock, rfl⟩ := HostEvent.Own.exists_processOutQueue hown
      rfl
    | _ => rfl
  have hsteady' : p.Steady (.thread event) := by
    intro event' hevent
    obtain rfl := Option.some.inj hevent
    exact hsteady
  refine ⟨⟨?_, hsteady'⟩, hown⟩
  unfold Step handle move
  dsimp only
  rw [if_pos hbackground, if_pos hhome]
  exact Option.map_eq_some_iff.mpr ⟨h, hhosts, rfl⟩

/-- While all programs run, a run of the hosts is one of theirs. -/
theorem exists_run_of_hosts (hrunning : ∀ n, p.running n = true) {events : List (HostEvent T)}
    {h : Hosts T} (hrun : Run Hosts.OwnStep p.toHosts events h) :
    ∃ p', Run OwnStep p (events.map .thread) p' ∧ p'.toHosts = h := by
  have hlift : ∀ (q : Programs T) (event : HostEvent T) (h : Hosts T), (∀ n, q.running n = true) →
      q.toHosts.OwnStep event h → ∃ q', q.OwnStep (.thread event) q' ∧ q'.toHosts = h ∧
        ∀ n, q'.running n = true :=
    fun q event h hall hstep ↦ ⟨q.withHosts h, ownStep_thread hall hstep, rfl, hall⟩
  obtain ⟨p', hrun', hhosts, -⟩ := hrun.lift hlift rfl hrunning
  exact ⟨p', hrun', hhosts⟩

/-- The hosts are at rest when the programs are, and all of them run. -/
theorem AtRest.toHosts (hrest : p.AtRest) (hrunning : ∀ n, p.running n = true) :
    p.toHosts.AtRest := by
  intro events h hrun
  obtain ⟨p', hrun', -⟩ := exists_run_of_hosts hrunning hrun
  have hcount := hrest _ p' hrun'
  rwa [List.countP_map] at hcount

end Rest

end Programs

end IpRipStack
