import IpRipStack.Display
import IpRipStack.SendLine

/-!
# The console

The loop of `main`: it reads a line, takes the first word for the command, and hands the line to
`execute_cmd`. Most commands look at the whole line again. `interfaces` and `routes` have to be the
line, and `up`, `down` and `send` have to begin it, so that a line that begins with white space does
nothing to the node, though it is one of their commands.

The loop is the one that is built: lines come from `readline`, without the end of the line, and what
lies behind the zero of a line is arbitrary. Where the source writes past the end of an array, or
takes an interface that does not exist from `_interfaces`, the behaviour is undefined: `none`.
Between two lines the other threads go on.

`reached_iff`: the console brings a node to the states to which it comes by packets with a payload
that has no zero, and by `up` and `down` of its interfaces, and to no others.
-/

set_option autoImplicit false
set_option relaxedAutoImplicit false

namespace IpRipStack

open MachineWord CScan Runs

/-- `LINE_MAX`. -/
def lineMax : ℕ := 2048

/-- The words `help`, `h`, `interfaces`, `li`, `routes`, `lr`, `up`, `down` and `q`. -/
def helpWord : List UInt8 := [104, 101, 108, 112]
def hWord : List UInt8 := [104]
def interfacesWord : List UInt8 := [105, 110, 116, 101, 114, 102, 97, 99, 101, 115]
def liWord : List UInt8 := [108, 105]
def routesWord : List UInt8 := [114, 111, 117, 116, 101, 115]
def lrWord : List UInt8 := [108, 114]
def upWord : List UInt8 := [117, 112]
def downWord : List UInt8 := [100, 111, 119, 110]
def qWord : List UInt8 := [113]

/-- What a command writes: a text, an error that `dbg` writes, or a table. -/
inductive Reply
  | text (s : String)
  | error (s : String)
  | table (s : List UInt8)
  deriving DecidableEq, Repr

/-- `Node::help_cmd`. -/
def helpCmd : Reply := .text
  ("- help, h: Print this list of commands\n" ++
    "- interfaces, li: Print information about each interface, one per line\n" ++
    "- routes, lr: Print information about the route to each known destination, one per line\n" ++
    "- up [integer]: Bring an interface \"up\" (it must be an existing interface, " ++
    "probably one you brought down)\n" ++
    "- down [integer]: Bring an interface \"down\"\n" ++
    "- send [ip] [protocol] [payload]: sends payload with protocol=protocol to virtual-ip ip\n" ++
    "- q: quit this node\n")

/-- What `LinkLayer::down` writes. -/
def LinkLayer.downReplies (ll : LinkLayer) : List Reply :=
  (if ll.sLocal = -1 then [.text "interface is already down\n"] else []) ++
    [.text ("interface socket " ++ toString ll.sLocal ++ " is closing\n")]

/-- What `LinkLayer::up` writes, with a socket that `create_socket` can bind. -/
def LinkLayer.upReplies (ll : LinkLayer) (sockfd : Int) : List Reply :=
  (if ll.sLocal ≠ -1 then [.text "interface is already up\n"] else []) ++
    [.text ("sockfd:" ++ toString sockfd ++ "\n"), .text "bind succesful\n"]

/-- The formats `up %u` and `down %u`. -/
def scanIndex (word line : List UInt8) : Option UInt32 := do
  let rest ← scanLiteral word line
  let (n, _) ← scanUnsigned rest
  pure (UInt32.ofNat n)

/-- What a command leaves behind: the node, what is written, and whether the line is one for the
history. -/
structure Outcome where
  node : Node
  replies : List Reply
  appendHist : Bool

namespace Node

/-- `Node::interfaces_cmd`. -/
def interfacesCmd (node : Node) (line : List UInt8) : List Reply :=
  if line ≠ interfacesWord ∧ line ≠ liWord then [.text "incorrect command issued\n"]
  else [.table node.printInterfacesText]

/-- `Node::routes_cmd`, on a node that has its layers. -/
def routesCmd (node : Node) (line : List UInt8) : List Reply :=
  if line ≠ routesWord ∧ line ≠ lrWord then [.text "incorrect command issued\n"]
  else [.table node.printRouteTable]

/-- `Node::down_cmd` on a line. -/
def downLine (node : Node) (line : List UInt8) : Option (Node × List Reply) :=
  match scanIndex downWord line with
  | none => some (node, [.error "syntax error (usage: down [interface])\n"])
  | some interface => do
    let ifc ← node.interfaces[interface.toNat]?
    let node' ← node.downCmd interface.toNat
    pure (node', ifc.downReplies)

/-- `Node::up_cmd` on a line, with the socket and the time the system gives. -/
def upLine (node : Node) (line : List UInt8) (sockfd : Int) (now : Timeval) :
    Option (Node × List Reply) :=
  match scanIndex upWord line with
  | none => some (node, [.error "syntax error (usage: up [interface])\n"])
  | some interface => do
    let ifc ← node.interfaces[interface.toNat]?
    let node' ← node.upCmd interface.toNat sockfd now
    pure (node', ifc.upReplies sockfd)

/-- `Node::send_cmd` and what it writes. A token has to have room in `ip_string`. -/
def sendLine (node : Node) (memory : List UInt8) : Option (Node × List Reply) :=
  if ((scanLiteral sendWord (cString memory)).bind scanToken).any
      fun token ↦ inetAddrstrlen ≤ token.1.length then none
  else
    match parseSend node.order memory with
    | .error message => some (node, [.error message])
    | .ok (dest, protocol, data) =>
      some (node.transferApplicationToIp dest protocol data data.length,
        if node.getInterface (node.getNextAddress (ntohl node.order dest) defaultAddr) = none then
          [.text "destination cannot be reached\n"]
        else [])

/-- `Node::execute_cmd`. -/
def executeCmd (node : Node) (cmd memory : List UInt8) (sockfd : Int) (now : Timeval) :
    Option Outcome :=
  let line := cString memory
  if cmd = helpWord ∨ cmd = hWord then some ⟨node, [helpCmd], true⟩
  else if cmd = interfacesWord ∨ cmd = liWord then some ⟨node, node.interfacesCmd line, true⟩
  else if cmd = routesWord ∨ cmd = lrWord then some ⟨node, node.routesCmd line, true⟩
  else if cmd = upWord then
    (node.upLine line sockfd now).map fun done ↦ ⟨done.1, done.2, true⟩
  else if cmd = downWord then (node.downLine line).map fun done ↦ ⟨done.1, done.2, true⟩
  else if cmd = sendWord then (node.sendLine memory).map fun done ↦ ⟨done.1, done.2, true⟩
  else some ⟨node, [.error "error: no valid command specified\n", helpCmd], false⟩

end Node

/-- A line as `readline` returns it: its characters, and what lies behind their zero. -/
structure TypedLine where
  chars : List UInt8
  beyond : List UInt8
  noZero : 0 ∉ chars

def TypedLine.memory (line : TypedLine) : List UInt8 := line.chars ++ 0 :: line.beyond

/-- The program at its prompt: the node, the history of lines and what the commands have written. -/
structure Console where
  node : Node
  history : List (List UInt8)
  screen : List Reply

/-- What a turn of the loop comes to: it ends the program, or the loop goes on. -/
inductive Turn
  | quit
  | goOn (console : Console)

namespace Console

/-- One turn of the loop of `main`. `sscanf` finds no word only where there is none, and then returns
`EOF`. -/
def turn (console : Console) (line : TypedLine) (sockfd : Int) (now : Timeval) : Option Turn :=
  match scanToken line.chars with
  | none => some (.goOn console)
  | some (cmd, _) =>
    if lineMax ≤ cmd.length then none
    else if cmd = qWord then some .quit
    else (console.node.executeCmd cmd line.memory sockfd now).map fun outcome ↦
      .goOn { node := outcome.node
              history := console.history ++ if outcome.appendHist then [line.chars] else []
              screen := console.screen ++ outcome.replies }

end Console

/-- What the user has no part in. -/
def Event.Background : Event → Prop
  | .command (.send _) | .command (.refresh _) | .receive _ _ _ _ | .transmit => True
  | _ => False

/-- What happens at a console: a line is typed, or the other threads do something. -/
inductive Input
  | typed (line : TypedLine) (sockfd : Int) (now : Timeval)
  | other (event : { event : Event // event.Background })

namespace Console

/-- The loop of `main`. Nothing happens behind the end of the program. -/
def session (console : Console) : List Input → Option Console
  | [] => some console
  | .typed line sockfd now :: inputs =>
    match console.turn line sockfd now with
    | none => none
    | some .quit => some console
    | some (.goOn console) => console.session inputs
  | .other event :: inputs =>
    match console.node.handle event.1 with
    | none => none
    | some node => { console with node := node }.session inputs

end Console

/-- What a user can have the node do, and what the user has no part in: a payload is not empty and
ends at its zero, and the number of an interface is an `unsigned`. -/
def Event.Typable : Event → Prop
  | .application _ _ payload => payload ≠ [] ∧ 0 ∉ payload
  | .command (.down interface) => interface < 2 ^ 32
  | .command (.up interface _ _) => interface < 2 ^ 32
  | _ => True

theorem Event.Background.typable {event : Event} (h : event.Background) : event.Typable := by
  cases event with
  | command c =>
    cases c with
    | send msgType => trivial
    | refresh curtv => trivial
    | down interface => exact absurd h id
    | up interface sockfd now => exact absurd h id
  | receive interface frame stale clock => trivial
  | application dest proto payload => exact absurd h id
  | transmit => trivial

/-! ### What a line comes to -/

/-- What a line can have a node do. -/
inductive Act
  | send (dest : UInt32) (protocol : UInt8) (data : List UInt8)
  | down (interface : UInt32)
  | up (interface : UInt32)
  deriving DecidableEq, Repr

/-- The event of the node, with the socket and the time the system gives. -/
def Act.event (sockfd : Int) (now : Timeval) : Act → Event
  | .send dest protocol data => .application dest protocol data
  | .down interface => .command (.down interface.toNat)
  | .up interface => .command (.up interface.toNat sockfd now)

/-- What a line has a node do on a host of a byte order. -/
def TypedLine.act (order : ByteOrder) (line : TypedLine) : Option Act :=
  match scanToken line.chars with
  | none => none
  | some (word, _) =>
    if word = upWord then (scanIndex upWord line.chars).map .up
    else if word = downWord then (scanIndex downWord line.chars).map .down
    else if word = sendWord then
      match parseSend order line.memory with
      | .error _ => none
      | .ok (dest, protocol, data) => some (.send dest protocol data)
    else none

theorem TypedLine.cString_memory (line : TypedLine) : cString line.memory = line.chars :=
  cString_append_zero line.noZero line.beyond

theorem zero_notMem_cString (memory : List UInt8) : 0 ∉ cString memory := by
  intro hzero
  have hpassed := List.mem_takeWhile_imp hzero
  exact absurd rfl (of_decide_eq_true hpassed)

/-- A line for a packet is one that `send_cmd` takes apart. -/
theorem TypedLine.parseSend_of_act {line : TypedLine} {order : ByteOrder} {dest : UInt32}
    {protocol : UInt8} {data : List UInt8} (h : line.act order = some (.send dest protocol data)) :
    parseSend order line.memory = .ok (dest, protocol, data) := by
  unfold TypedLine.act at h
  split at h
  · cases h
  · split_ifs at h
    · obtain ⟨interface, -, hact⟩ := Option.map_eq_some_iff.mp h
      cases hact
    · obtain ⟨interface, -, hact⟩ := Option.map_eq_some_iff.mp h
      cases hact
    · split at h
      · cases h
      · rename_i hparse
        obtain ⟨rfl, rfl, rfl⟩ := Act.send.inj (Option.some.inj h)
        exact hparse

theorem TypedLine.typable_of_act {line : TypedLine} {order : ByteOrder} {act : Act}
    (h : line.act order = some act) (sockfd : Int) (now : Timeval) :
    (act.event sockfd now).Typable := by
  cases act with
  | send dest protocol data =>
    obtain ⟨_, _, _, _, _, _, -, -, -, rfl, hne⟩ := parseSend_eq_ok_iff.mp (parseSend_of_act h)
    exact ⟨hne, zero_notMem_cString _⟩
  | down interface => exact interface.toNat_lt
  | up interface => exact interface.toNat_lt

/-- A line that begins with white space has the node do nothing, whatever its first word. -/
theorem TypedLine.act_eq_none {line : TypedLine} {c : UInt8} {rest : List UInt8}
    (h : line.chars = c :: rest) (hblank : isSpace c = true) (order : ByteOrder) :
    line.act order = none := by
  have hword : ∀ l literal, isSpace l = false → scanLiteral (l :: literal) line.chars = none := by
    intro l literal hl
    rw [h]
    unfold scanLiteral
    exact if_neg fun hsame : c = l ↦ Bool.false_ne_true (hl.symm.trans (hsame ▸ hblank))
  have hup : scanIndex upWord line.chars = none := by
    unfold scanIndex upWord
    rw [hword 117 _ rfl]
    rfl
  have hdown : scanIndex downWord line.chars = none := by
    unfold scanIndex downWord
    rw [hword 100 _ rfl]
    rfl
  have hsend : scanSend line.chars = none := by
    unfold scanSend
    rw [hword 115 _ rfl]
    rfl
  unfold TypedLine.act parseSend
  rw [hup, hdown, line.cString_memory, hsend]
  split
  · rfl
  · split_ifs <;> rfl

section Lines

variable {node : Node} {line : TypedLine} {done : Node × List Reply}

theorem downLine_cases (h : node.downLine line.chars = some done) :
    (scanIndex downWord line.chars = none ∧ done.1 = node) ∨
      ∃ interface, scanIndex downWord line.chars = some interface ∧
        node.downCmd interface.toNat = some done.1 := by
  unfold Node.downLine at h
  split at h
  · rename_i hnone
    exact Or.inl ⟨hnone, congrArg Prod.fst (Option.some.inj h).symm⟩
  · rename_i interface hindex
    simp only [Option.bind_eq_bind, Option.bind_eq_some_iff, Option.pure_def, Option.some_inj] at h
    obtain ⟨ifc, -, node', hdown, rfl⟩ := h
    exact Or.inr ⟨interface, hindex, hdown⟩

theorem upLine_cases {sockfd : Int} {now : Timeval}
    (h : node.upLine line.chars sockfd now = some done) :
    (scanIndex upWord line.chars = none ∧ done.1 = node) ∨
      ∃ interface, scanIndex upWord line.chars = some interface ∧
        node.upCmd interface.toNat sockfd now = some done.1 := by
  unfold Node.upLine at h
  split at h
  · rename_i hnone
    exact Or.inl ⟨hnone, congrArg Prod.fst (Option.some.inj h).symm⟩
  · rename_i interface hindex
    simp only [Option.bind_eq_bind, Option.bind_eq_some_iff, Option.pure_def, Option.some_inj] at h
    obtain ⟨ifc, -, node', hup, rfl⟩ := h
    exact Or.inr ⟨interface, hindex, hup⟩

theorem sendLine_cases (h : node.sendLine line.memory = some done) :
    (∃ message, parseSend node.order line.memory = .error message ∧ done.1 = node) ∨
      ∃ dest protocol data, parseSend node.order line.memory = .ok (dest, protocol, data) ∧
        done.1 = node.transferApplicationToIp dest protocol data data.length := by
  unfold Node.sendLine at h
  split_ifs at h
  cases hparse : parseSend node.order line.memory with
  | error message =>
    rw [hparse] at h
    exact Or.inl ⟨message, rfl, congrArg Prod.fst (Option.some.inj h).symm⟩
  | ok parsed =>
    rw [hparse] at h
    exact Or.inr ⟨_, _, _, rfl, congrArg Prod.fst (Option.some.inj h).symm⟩

/-- The commands that change the node are `up`, `down` and `send`. -/
theorem executeCmd_cases {word : List UInt8} {sockfd : Int} {now : Timeval} {outcome : Outcome}
    (h : node.executeCmd word line.memory sockfd now = some outcome) :
    (word ≠ upWord ∧ word ≠ downWord ∧ word ≠ sendWord ∧ outcome.node = node) ∨
      (word = upWord ∧ ∃ replies,
        node.upLine line.chars sockfd now = some (outcome.node, replies)) ∨
      (word = downWord ∧ ∃ replies, node.downLine line.chars = some (outcome.node, replies)) ∨
      (word = sendWord ∧ ∃ replies, node.sendLine line.memory = some (outcome.node, replies)) := by
  unfold Node.executeCmd at h
  rw [line.cString_memory] at h
  dsimp only at h
  split_ifs at h with hhelp hinterfaces hroutes hup hdown hsend
  · obtain rfl := Option.some.inj h
    rcases hhelp with rfl | rfl <;> exact Or.inl ⟨by decide, by decide, by decide, rfl⟩
  · obtain rfl := Option.some.inj h
    rcases hinterfaces with rfl | rfl <;> exact Or.inl ⟨by decide, by decide, by decide, rfl⟩
  · obtain rfl := Option.some.inj h
    rcases hroutes with rfl | rfl <;> exact Or.inl ⟨by decide, by decide, by decide, rfl⟩
  · obtain ⟨done, hdone, rfl⟩ := Option.map_eq_some_iff.mp h
    exact Or.inr (Or.inl ⟨hup, done.2, hdone⟩)
  · obtain ⟨done, hdone, rfl⟩ := Option.map_eq_some_iff.mp h
    exact Or.inr (Or.inr (Or.inl ⟨hdown, done.2, hdone⟩))
  · obtain ⟨done, hdone, rfl⟩ := Option.map_eq_some_iff.mp h
    exact Or.inr (Or.inr (Or.inr ⟨hsend, done.2, hdone⟩))
  · obtain rfl := Option.some.inj h
    exact Or.inl ⟨hup, hdown, hsend, rfl⟩

/-- A line that quits has the node do nothing. -/
theorem act_of_quit {console : Console} {sockfd : Int} {now : Timeval}
    (h : console.turn line sockfd now = some .quit) {order : ByteOrder} : line.act order = none := by
  unfold Console.turn at h
  unfold TypedLine.act
  cases hscan : scanToken line.chars with
  | none => rfl
  | some token =>
    obtain ⟨word, rest⟩ := token
    rw [hscan] at h
    dsimp only at h ⊢
    split_ifs at h with hroom hq
    · rw [hq]
      rfl
    · obtain ⟨outcome, -, hgoOn⟩ := Option.map_eq_some_iff.mp h
      cases hgoOn

/-- A turn that does not quit has the node do what the line has it do, and nothing else. -/
theorem turn_cases {console console' : Console} {sockfd : Int} {now : Timeval}
    (h : console.turn line sockfd now = some (.goOn console')) :
    (line.act console.node.order = none ∧ console'.node = console.node) ∨
      ∃ act, line.act console.node.order = some act ∧
        console.node.Step (act.event sockfd now) console'.node := by
  unfold Console.turn at h
  unfold TypedLine.act
  cases hscan : scanToken line.chars with
  | none =>
    rw [hscan] at h
    obtain rfl : console = console' := Turn.goOn.inj (Option.some.inj h)
    exact Or.inl ⟨rfl, rfl⟩
  | some token =>
    obtain ⟨word, rest⟩ := token
    rw [hscan] at h
    dsimp only at h ⊢
    split_ifs at h with hroom hq
    · exact absurd (Option.some.inj h) Turn.noConfusion
    obtain ⟨outcome, hout, hgoOn⟩ := Option.map_eq_some_iff.mp h
    obtain rfl := Turn.goOn.inj hgoOn
    rcases executeCmd_cases hout with ⟨hup, hdown, hsend, hsame⟩ | ⟨rfl, replies, hline⟩ |
      ⟨rfl, replies, hline⟩ | ⟨rfl, replies, hline⟩
    · rw [if_neg hup, if_neg hdown, if_neg hsend]
      exact Or.inl ⟨rfl, hsame⟩
    · rw [if_pos rfl]
      rcases upLine_cases hline with ⟨hnone, hsame⟩ | ⟨interface, hindex, hstep⟩
      · rw [hnone]
        exact Or.inl ⟨rfl, hsame⟩
      · rw [hindex]
        exact Or.inr ⟨.up interface, rfl, hstep⟩
    · rw [if_neg (by decide), if_pos rfl]
      rcases downLine_cases hline with ⟨hnone, hsame⟩ | ⟨interface, hindex, hstep⟩
      · rw [hnone]
        exact Or.inl ⟨rfl, hsame⟩
      · rw [hindex]
        exact Or.inr ⟨.down interface, rfl, hstep⟩
    · rw [if_neg (by decide), if_neg (by decide), if_pos rfl]
      rcases sendLine_cases hline with ⟨message, hparse, hsame⟩ | ⟨dest, protocol, data, hparse, hsent⟩
      · rw [hparse]
        exact Or.inl ⟨rfl, hsame⟩
      · rw [hparse]
        exact Or.inr ⟨_, rfl, congrArg some hsent.symm⟩

end Lines

/-! ### Lines for what a user can have a node do -/

/-- A line for an event. -/
def Event.chars (order : ByteOrder) : Event → List UInt8
  | .application dest proto payload => sendWord ++ 32 :: (inetNtop (octets order dest) ++
      32 :: (unsignedText proto.toNat ++ 32 :: payload))
  | .command (.down interface) => downWord ++ 32 :: unsignedText interface
  | .command (.up interface _ _) => upWord ++ 32 :: unsignedText interface
  | _ => []

theorem scanToken_word {word : List UInt8} (hne : word ≠ [])
    (hword : (word.all fun c ↦ !isSpace c) = true) (rest : List UInt8) :
    scanToken (word ++ 32 :: rest) = some (word, 32 :: rest) := by
  have hchars : ∀ c ∈ word, isSpace c = false :=
    fun c hc ↦ (Bool.not_eq_true' _).mp (List.all_eq_true.mp hword c hc)
  exact scanToken_eq_some_iff.mpr ⟨[], rfl, fun _ h ↦ absurd h List.not_mem_nil, hne, hchars,
    fun c hc ↦ by rw [← Option.some.inj hc]; rfl⟩

/-- The number of an interface is read back from a line. -/
theorem scanIndex_word (word : List UInt8) {interface : ℕ} (h : interface < 2 ^ 32) :
    scanIndex word (word ++ 32 :: unsignedText interface) = some (UInt32.ofNat interface) := by
  have hnumeral := numeral_unsignedText interface [32] [] (List.all_eq_true.mp rfl)
    fun _ h ↦ absurd h (Option.not_mem_none _)
  rw [List.append_nil, List.singleton_append, ← scanNumeral_eq_some_iff] at hnumeral
  have hvalue : strtoul false interface = interface := by
    unfold strtoul
    rw [if_neg (by omega), if_neg Bool.false_ne_true]
  unfold scanIndex
  rw [scanLiteral_eq_some_iff.mpr rfl]
  simp only [Option.bind_eq_bind, Option.bind_some, scanUnsigned_eq, hnumeral, Option.map_some,
    Option.pure_def, hvalue]

/-- The fields of the line for a packet. -/
def sendLineFields (order : ByteOrder) (dest : UInt32) (proto : UInt8) (payload : List UInt8) :
    SendFields where
  after := 32 :: (inetNtop (octets order dest) ++ 32 :: (unsignedText proto.toNat ++ 32 :: payload))
  ipString := inetNtop (octets order dest)
  negative := false
  n := proto.toNat
  rest := 32 :: payload

theorem sendLineFields_form (order : ByteOrder) (dest : UInt32) (proto : UInt8)
    (payload : List UInt8) : (sendLineFields order dest proto payload).Form
      (Event.chars order (.application dest proto payload)) := by
  have htoken := token_inetNtop (octets order dest) [32]
    (32 :: (unsignedText proto.toNat ++ 32 :: payload)) (List.all_eq_true.mp rfl)
    fun c hc ↦ by rw [← Option.some.inj hc]; rfl
  have hnumeral := numeral_unsignedText proto.toNat [32] (32 :: payload)
    (List.all_eq_true.mp rfl) fun c hc ↦ by rw [← Option.some.inj hc]; rfl
  exact ⟨_, rfl, htoken, hnumeral⟩

theorem zero_notMem_chars (order : ByteOrder) {event : Event} (h : event.Typable) :
    0 ∉ event.chars order := by
  have hnumber : ∀ n : ℕ, (0 : UInt8) ∉ unsignedText n :=
    fun n hzero ↦ absurd (isDigit_of_mem_unsignedText hzero) (by decide)
  have haddress : ∀ address, (0 : UInt8) ∉ inetNtop address :=
    fun address hzero ↦ absurd (mem_inetNtop hzero) (by decide)
  unfold Event.chars
  cases event with
  | application dest proto payload =>
    simp [sendWord, hnumber, haddress, h.2]
  | command c =>
    cases c with
    | down interface => simp [downWord, hnumber]
    | up interface sockfd now => simp [upWord, hnumber]
    | send msgType => exact List.not_mem_nil
    | refresh curtv => exact List.not_mem_nil
  | receive interface frame stale clock => exact List.not_mem_nil
  | transmit => exact List.not_mem_nil

/-- The line for an event, as it is typed. -/
def Event.line (order : ByteOrder) (event : Event) (h : event.Typable) : TypedLine where
  chars := event.chars order
  beyond := []
  noZero := zero_notMem_chars order h

/-- The word that is typed and what the command comes to decide what a turn is. -/
theorem turn_eq {console : Console} {line : TypedLine} {sockfd : Int} {now : Timeval}
    (word : List UInt8) (outcome : Outcome) {rest : List UInt8}
    (hscan : scanToken line.chars = some (word, rest)) (hroom : word.length < lineMax)
    (hq : word ≠ qWord)
    (hout : console.node.executeCmd word line.memory sockfd now = some outcome) :
    ∃ console', console.turn line sockfd now = some (.goOn console') ∧
      console'.node = outcome.node := by
  unfold Console.turn
  rw [hscan]
  dsimp only
  rw [if_neg (by omega), if_neg hq, hout]
  exact ⟨_, rfl, rfl⟩

theorem executeCmd_up (node : Node) (memory : List UInt8) (sockfd : Int) (now : Timeval) :
    node.executeCmd upWord memory sockfd now =
      (node.upLine (cString memory) sockfd now).map fun done ↦ ⟨done.1, done.2, true⟩ := by
  unfold Node.executeCmd
  dsimp only
  rw [if_neg (by decide), if_neg (by decide), if_neg (by decide), if_pos rfl]

theorem executeCmd_down (node : Node) (memory : List UInt8) (sockfd : Int) (now : Timeval) :
    node.executeCmd downWord memory sockfd now =
      (node.downLine (cString memory)).map fun done ↦ ⟨done.1, done.2, true⟩ := by
  unfold Node.executeCmd
  dsimp only
  rw [if_neg (by decide), if_neg (by decide), if_neg (by decide), if_neg (by decide), if_pos rfl]

theorem executeCmd_send (node : Node) (memory : List UInt8) (sockfd : Int) (now : Timeval) :
    node.executeCmd sendWord memory sockfd now =
      (node.sendLine memory).map fun done ↦ ⟨done.1, done.2, true⟩ := by
  unfold Node.executeCmd
  dsimp only
  rw [if_neg (by decide), if_neg (by decide), if_neg (by decide), if_neg (by decide),
    if_neg (by decide), if_pos rfl]

/-- What `down` comes to on the line for it. -/
theorem downLine_chars {node node' : Node} {interface : ℕ} (h : interface < 2 ^ 32)
    (hdown : node.downCmd interface = some node') :
    ∃ replies, node.downLine (downWord ++ 32 :: unsignedText interface) = some (node', replies) := by
  obtain ⟨ifc, hifc, -⟩ := Option.map_eq_some_iff.mp hdown
  have hnumber : (UInt32.ofNat interface).toNat = interface := UInt32.toNat_ofNat_of_lt' h
  unfold Node.downLine
  rw [scanIndex_word downWord h]
  simp only [Option.bind_eq_bind, hnumber, hifc, hdown, Option.bind_some, Option.pure_def]
  exact ⟨_, rfl⟩

/-- What `up` comes to on the line for it. -/
theorem upLine_chars {node node' : Node} {interface : ℕ} {sockfd : Int} {now : Timeval}
    (h : interface < 2 ^ 32) (hup : node.upCmd interface sockfd now = some node') :
    ∃ replies, node.upLine (upWord ++ 32 :: unsignedText interface) sockfd now =
      some (node', replies) := by
  obtain ⟨ifc, hifc, -⟩ := Option.map_eq_some_iff.mp hup
  have hnumber : (UInt32.ofNat interface).toNat = interface := UInt32.toNat_ofNat_of_lt' h
  unfold Node.upLine
  rw [scanIndex_word upWord h]
  simp only [Option.bind_eq_bind, hnumber, hifc, hup, Option.bind_some, Option.pure_def]
  exact ⟨_, rfl⟩

/-- What `send` comes to on the line for a packet. -/
theorem sendLine_chars (node : Node) (dest : UInt32) (proto : UInt8) {payload : List UInt8}
    (h : (Event.application dest proto payload).Typable) (beyond : List UInt8) :
    ∃ replies, node.sendLine (Event.chars node.order (.application dest proto payload) ++
      0 :: beyond) = some (node.transferApplicationToIp dest proto payload payload.length,
        replies) := by
  have hzero := zero_notMem_chars node.order h
  have hform := sendLineFields_form node.order dest proto payload
  obtain ⟨⟨a, b, c, d⟩, hoctets⟩ : ∃ octs, octets node.order dest = octs := ⟨_, rfl⟩
  have haddress : inetPton (sendLineFields node.order dest proto payload).ipString =
      some (a, b, c, d) := by
    rw [← hoctets]
    exact inetPton_inetNtop (octets node.order dest)
  have hprotocol : UInt8.ofNat (strtoul false proto.toNat) = proto :=
    (sendLineFields node.order dest proto payload).protocol_eq rfl
  have hparse := (hform.parseSend_iff hzero haddress rfl beyond).mpr
    ⟨word32_octets_self node.order dest hoctets, hprotocol, rfl, h.1⟩
  obtain ⟨afterIp, hline, htoken, -⟩ := hform
  have hroom : ((scanLiteral sendWord (cString (Event.chars node.order
      (.application dest proto payload) ++ 0 :: beyond))).bind scanToken).any
        (fun token ↦ inetAddrstrlen ≤ token.1.length) = false := by
    rw [cString_append_zero hzero, hline, scanLiteral_eq_some_iff.mpr rfl, Option.bind_some,
      scanToken_eq_some_iff.mpr htoken, Option.any_some]
    exact decide_eq_false (Nat.not_le.mpr (length_inetNtop_lt (octets node.order dest)))
  unfold Node.sendLine
  rw [if_neg (by rw [hroom]; exact Bool.false_ne_true), hparse]
  exact ⟨_, rfl⟩

/-- The line for an event has the node take part in it. -/
theorem turn_line {console : Console} {event : Event} (h : event.Typable)
    (hevent : ¬ event.Background) {node' : Node} (hstep : console.node.Step event node') :
    ∃ sockfd now console', console.turn (event.line console.node.order h) sockfd now =
      some (.goOn console') ∧ console'.node = node' := by
  have hmemory := (event.line console.node.order h).cString_memory
  cases event with
  | receive interface frame stale clock => exact absurd trivial hevent
  | transmit => exact absurd trivial hevent
  | application dest proto payload =>
    obtain rfl := Option.some.inj hstep
    obtain ⟨replies, hline⟩ := sendLine_chars console.node dest proto h []
    refine ⟨0, ⟨0, 0⟩, turn_eq sendWord ⟨_, replies, true⟩
      (scanToken_word (by decide) rfl _) (by decide) (by decide) ?_⟩
    rw [executeCmd_send]
    exact congrArg (Option.map _) hline
  | command c =>
    cases c with
    | send msgType => exact absurd trivial hevent
    | refresh curtv => exact absurd trivial hevent
    | down interface =>
      obtain ⟨replies, hline⟩ := downLine_chars h hstep
      refine ⟨0, ⟨0, 0⟩, turn_eq downWord ⟨node', replies, true⟩
        (scanToken_word (by decide) rfl _) (by decide) (by decide) ?_⟩
      rw [executeCmd_down, hmemory]
      exact congrArg (Option.map _) hline
    | up interface sockfd now =>
      obtain ⟨replies, hline⟩ := upLine_chars h hstep
      refine ⟨sockfd, now, turn_eq upWord ⟨node', replies, true⟩
        (scanToken_word (by decide) rfl _) (by decide) (by decide) ?_⟩
      rw [executeCmd_up, hmemory]
      exact congrArg (Option.map _) hline

/-! ### Whole sessions -/

/-- Whatever is typed: a session is a run of what its lines have the node do and of what the other
threads do. -/
theorem session_run {P : Event → Prop} (hother : ∀ event : Event, event.Background → P event)
    {inputs : List Input} (hline : ∀ line sockfd now, .typed line sockfd now ∈ inputs →
      ∀ order, ∀ act ∈ line.act order, P (act.event sockfd now)) {console console' : Console}
    (h : console.session inputs = some console') :
    ∃ events, (∀ event ∈ events, P event) ∧ Run Node.Step console.node events console'.node := by
  induction inputs generalizing console with
  | nil =>
    obtain rfl := Option.some.inj h
    exact ⟨[], fun _ h ↦ absurd h List.not_mem_nil, Run.nil _⟩
  | cons input inputs ih =>
    have hrest := fun line sockfd now hmem ↦ hline line sockfd now (List.mem_cons_of_mem input hmem)
    cases input with
    | typed line sockfd now =>
      unfold Console.session at h
      split at h
      · cases h
      · obtain rfl := Option.some.inj h
        exact ⟨[], fun _ h ↦ absurd h List.not_mem_nil, Run.nil _⟩
      · rename_i next hturn
        obtain ⟨events, hevents, hrun⟩ := ih hrest h
        rcases turn_cases hturn with ⟨-, hsame⟩ | ⟨act, hact, hstep⟩
        · exact ⟨events, hevents, hsame ▸ hrun⟩
        · have hevent := hline line sockfd now List.mem_cons_self _ act hact
          exact ⟨_ :: events, List.forall_mem_cons.mpr ⟨hevent, hevents⟩, Run.cons hstep hrun⟩
    | other event =>
      unfold Console.session at h
      split at h
      · cases h
      · rename_i node hnode
        obtain ⟨events, hevents, hrun⟩ := ih hrest h
        exact ⟨event.1 :: events, List.forall_mem_cons.mpr ⟨hother event.1 event.2, hevents⟩,
          Run.cons hnode hrun⟩

/-- A session whose lines all begin with white space leaves the node to the other threads, whatever
commands they give. -/
theorem indented_session {inputs : List Input}
    (hindented : ∀ line sockfd now, .typed line sockfd now ∈ inputs →
      ∃ c ∈ line.chars.head?, isSpace c = true) {console console' : Console}
    (h : console.session inputs = some console') :
    ∃ events, (∀ event ∈ events, Event.Background event) ∧
      Run Node.Step console.node events console'.node := by
  refine session_run (fun _ ↦ id) (fun line sockfd now hline order act hact ↦ ?_) h
  obtain ⟨c, hc, hblank⟩ := hindented line sockfd now hline
  obtain ⟨rest, hchars⟩ := List.head?_eq_some_iff.mp hc
  rw [line.act_eq_none hchars hblank order] at hact
  exact absurd hact (Option.not_mem_none act)

/-- Every such run is a session: of lines for what a user can have the node do. -/
theorem run_session {node node' : Node} {events : List Event}
    (hevents : ∀ event ∈ events, event.Typable) (h : Run Node.Step node events node')
    {console : Console} (hnode : console.node = node) :
    ∃ inputs console', console.session inputs = some console' ∧ console'.node = node' := by
  induction h generalizing console with
  | nil node => exact ⟨[], console, rfl, hnode⟩
  | @cons node₁ node₂ node₃ event events hstep hrun ih =>
    obtain ⟨hevent, hevents⟩ := List.forall_mem_cons.mp hevents
    subst hnode
    by_cases hbackground : event.Background
    · have hnext : ({ console with node := node₂ } : Console).node = node₂ := rfl
      obtain ⟨inputs, console', hsession, hend⟩ := ih hevents hnext
      refine ⟨.other ⟨event, hbackground⟩ :: inputs, console', ?_, hend⟩
      unfold Console.session
      rw [show console.node.handle event = some node₂ from hstep]
      exact hsession
    · obtain ⟨sockfd, now, next, hturn, hnext⟩ := turn_line hevent hbackground hstep
      obtain ⟨inputs, console', hsession, hend⟩ := ih hevents hnext
      refine ⟨.typed (event.line console.node.order hevent) sockfd now :: inputs, console', ?_, hend⟩
      unfold Console.session
      rw [hturn]
      exact hsession

/-- The states to which a session at the console brings a node are those to which it comes by
packets with a payload that is not empty and has no zero, by `up` and `down` of its interfaces, and
by what the other threads do. -/
theorem reached_iff (console : Console) (node' : Node) :
    (∃ inputs console', console.session inputs = some console' ∧ console'.node = node') ↔
      ∃ events, (∀ event ∈ events, Event.Typable event) ∧
        Run Node.Step console.node events node' := by
  constructor
  · rintro ⟨inputs, console', hsession, rfl⟩
    exact session_run (fun _ h ↦ h.typable)
      (fun line sockfd now _ order act hact ↦ line.typable_of_act hact sockfd now) hsession
  · rintro ⟨events, hevents, hrun⟩
    exact run_session hevents hrun rfl

end IpRipStack
