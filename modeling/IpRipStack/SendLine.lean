import IpRipStack.SendCmd

/-!
# The line of the send command

A send line is the word `send`, an address, the number of a protocol, one separator and a payload.
`send_cmd` leaves it to `sscanf` to tell such a line from another one, and looks at neither end of
the number: a number of more than eight bits is cut, and the payload begins two characters behind
the last digit even where the line ends with that digit.

The format also lets the address follow `send` without a blank between them, and any character
separate. Which characters are separators is a parameter here, so `parsedExactly_iff` answers for
all of them.
-/

set_option autoImplicit false
set_option relaxedAutoImplicit false

namespace IpRipStack

open MachineWord CScan

/-- `INET_ADDRSTRLEN`. -/
def inetAddrstrlen : ℕ := 16

/-- The word `send`. -/
def sendWord : List UInt8 := [115, 101, 110, 100]

/-- A line at the pointer that `send_cmd` gets, up to its zero. The token behind `send` has room in
`ip_string`. -/
structure InputLine where
  chars : List UInt8
  noZero : 0 ∉ chars
  room : ∀ after ∈ scanLiteral sendWord chars, ∀ token ∈ scanToken after,
    token.1.length < inetAddrstrlen

/-- The parts into which the format takes a line: what comes behind `send`, the token, the number
and what is left. -/
structure SendFields where
  after : List UInt8
  ipString : List UInt8
  negative : Bool
  n : ℕ
  rest : List UInt8

/-- The line is made of the parts. -/
def SendFields.Form (fields : SendFields) (line : List UInt8) : Prop :=
  ∃ afterIp, line = sendWord ++ fields.after ∧ Token fields.after fields.ipString afterIp ∧
    Numeral afterIp fields.negative fields.n fields.rest

/-- A blank comes behind `send`. -/
def SendFields.Blank (fields : SendFields) : Prop := ∀ c ∈ fields.after.head?, isSpace c = true

/-- The line is `send`, an address, the number of a protocol, a separator and a payload. -/
def SendLine (separator : UInt8 → Prop) (line : List UInt8)
    (address : UInt8 × UInt8 × UInt8 × UInt8) (protocol : UInt8) (data : List UInt8) : Prop :=
  ∃ (fields : SendFields) (sep : UInt8), fields.Form line ∧ fields.Blank ∧
    inetPton fields.ipString = some address ∧ signed fields.negative fields.n = protocol.toNat ∧
    fields.rest = sep :: data ∧ separator sep ∧ data ≠ []

/-- Where `send_cmd` begins to read the payload, counted from the beginning of the line, if it comes
to that. -/
def payloadStart (line : List UInt8) : Option ℕ := do
  let (ipString, _, numConsumed) ← scanSend line
  let _ ← inetPton ipString
  pure (numConsumed + 1)

/-- Whatever lies behind the line, `send_cmd` passes an address, a protocol and a payload exactly
when the line has them, and reports an error otherwise; and it begins to read the payload no later
than at the zero of the line. -/
structure ParsedExactly (separator : UInt8 → Prop) (order : ByteOrder) (line : InputLine) :
    Prop where
  passes : ∀ beyond dest protocol data,
    parseSend order (line.chars ++ 0 :: beyond) = .ok (dest, protocol, data) ↔
      ∃ a b c d, SendLine separator line.chars (a, b, c, d) protocol data ∧
        dest = word32 order a b c d
  sends : ∀ (node node' : Node) (beyond : List UInt8), node.order = order →
    (node.sendCmd (line.chars ++ 0 :: beyond) = .ok node' ↔
      ∃ a b c d protocol data, SendLine separator line.chars (a, b, c, d) protocol data ∧
        node' = node.transferApplicationToIp (word32 order a b c d) protocol data data.length)
  inside : ∀ start, payloadStart line.chars = some start → start ≤ line.chars.length

/-- Where the token is an address and a number comes behind it, something is left; and where more
than one character is left, a blank comes behind `send`, the number is one of eight bits and a
separator comes behind it. -/
def SeparatesFields (separator : UInt8 → Prop) (line : InputLine) : Prop :=
  ∀ fields : SendFields, fields.Form line.chars → inetPton fields.ipString ≠ none →
    fields.rest ≠ [] ∧ (1 < fields.rest.length → fields.Blank ∧
      0 ≤ signed fields.negative fields.n ∧ signed fields.negative fields.n ≤ 255 ∧
        ∀ c ∈ fields.rest.head?, separator c)

/-! ### What the format matches -/

/-- The parts of a line. -/
def sendFields (line : List UInt8) : Option SendFields := do
  let after ← scanLiteral sendWord line
  let (ipString, rest) ← scanToken after
  let (negative, n, rest) ← scanNumeral rest
  pure ⟨after, ipString, negative, n, rest⟩

variable {line : List UInt8} {fields : SendFields}

theorem sendFields_eq_some_iff : sendFields line = some fields ↔ fields.Form line := by
  unfold sendFields SendFields.Form
  simp only [Option.bind_eq_bind, Option.bind_eq_some_iff, scanLiteral_eq_some_iff]
  constructor
  · rintro ⟨after, hafter, ⟨ipString, afterIp⟩, htoken, ⟨negative, n, rest⟩, hnumeral, hfields⟩
    obtain rfl := Option.some.inj hfields
    exact ⟨afterIp, hafter, scanToken_eq_some_iff.mp htoken, scanNumeral_eq_some_iff.mp hnumeral⟩
  · rintro ⟨afterIp, hafter, htoken, hnumeral⟩
    exact ⟨_, hafter, _, scanToken_eq_some_iff.mpr htoken, _, scanNumeral_eq_some_iff.mpr hnumeral,
      rfl⟩

theorem SendFields.Form.unique {fields' : SendFields} (h : fields.Form line)
    (h' : fields'.Form line) : fields = fields' := by
  rw [← sendFields_eq_some_iff] at h h'
  exact Option.some.inj (h.symm.trans h')

theorem scanSend_eq (line : List UInt8) : scanSend line = (sendFields line).map fun fields ↦
    (fields.ipString, UInt8.ofNat (strtoul fields.negative fields.n),
      line.length - fields.rest.length) := by
  unfold scanSend sendFields sendWord
  cases scanLiteral [115, 101, 110, 100] line with
  | none => rfl
  | some after =>
    dsimp only [Option.bind_eq_bind, Option.bind_some]
    cases scanToken after with
    | none => rfl
    | some token =>
      dsimp only [Option.bind_some]
      rw [scanUnsigned_eq]
      cases scanNumeral token.2 with
      | none => rfl
      | some numeral => rfl

theorem scanSend_eq_some_iff {ipString : List UInt8} {protocol : UInt8} {numConsumed : ℕ} :
    scanSend line = some (ipString, protocol, numConsumed) ↔ ∃ fields : SendFields,
      fields.Form line ∧ fields.ipString = ipString ∧
        UInt8.ofNat (strtoul fields.negative fields.n) = protocol ∧
          line.length - fields.rest.length = numConsumed := by
  rw [scanSend_eq, Option.map_eq_some_iff]
  refine exists_congr fun fields ↦ ?_
  rw [sendFields_eq_some_iff, Prod.mk.injEq, Prod.mk.injEq]

/-- What is left is the end of the line. -/
theorem SendFields.Form.suffix (h : fields.Form line) : fields.rest <:+ line := by
  obtain ⟨afterIp, rfl, ⟨blanks, hafter, -⟩, ⟨blanks', sign, digits, hafterIp, -⟩⟩ := h
  refine ⟨sendWord ++ blanks ++ fields.ipString ++ blanks' ++ sign ++ digits, ?_⟩
  rw [hafter, hafterIp]
  simp only [List.append_assoc]

/-- The payload begins one character behind the number, wherever that is. -/
theorem SendFields.Form.drop (h : fields.Form line) (beyond : List UInt8) :
    (line ++ 0 :: beyond).drop (line.length - fields.rest.length + 1) =
      (fields.rest ++ 0 :: beyond).drop 1 := by
  obtain ⟨front, rfl⟩ := h.suffix
  rw [List.length_append, Nat.add_sub_cancel, List.append_assoc, ← List.drop_drop,
    List.drop_left]

theorem payloadStart_eq_some_iff {start : ℕ} : payloadStart line = some start ↔
    ∃ fields : SendFields, fields.Form line ∧ inetPton fields.ipString ≠ none ∧
      line.length - fields.rest.length + 1 = start := by
  unfold payloadStart
  simp only [Option.bind_eq_bind, Option.bind_eq_some_iff, Option.pure_def, Option.some_inj]
  constructor
  · rintro ⟨⟨ipString, protocol, numConsumed⟩, hscan, address, haddress, rfl⟩
    obtain ⟨fields, hform, rfl, -, rfl⟩ := scanSend_eq_some_iff.mp hscan
    exact ⟨fields, hform, Option.ne_none_iff_exists'.mpr ⟨address, haddress⟩, rfl⟩
  · rintro ⟨fields, hform, haddress, rfl⟩
    obtain ⟨address, haddress⟩ := Option.ne_none_iff_exists'.mp haddress
    exact ⟨_, scanSend_eq_some_iff.mpr ⟨fields, hform, rfl, rfl, rfl⟩, address, haddress, rfl⟩

/-- What `send_cmd` passes on. -/
theorem parseSend_eq_ok_iff {order : ByteOrder} {memory : List UInt8} {dest : UInt32}
    {protocol : UInt8} {data : List UInt8} :
    parseSend order memory = .ok (dest, protocol, data) ↔
      ∃ (ipString : List UInt8) (numConsumed : ℕ) (a b c d : UInt8),
        scanSend (cString memory) = some (ipString, protocol, numConsumed) ∧
        inetPton ipString = some (a, b, c, d) ∧ word32 order a b c d = dest ∧
        cString (memory.drop (numConsumed + 1)) = data ∧ data ≠ [] := by
  unfold parseSend
  constructor
  · intro hparse
    split at hparse
    · cases hparse
    · rename_i ipString scanned numConsumed hscan
      split at hparse
      · cases hparse
      · rename_i a b c d haddress
        dsimp only at hparse
        split_ifs at hparse with hempty
        obtain ⟨hdest, hrest⟩ := Prod.mk.inj (Except.ok.inj hparse)
        obtain ⟨rfl, hdata⟩ := Prod.mk.inj hrest
        refine ⟨ipString, numConsumed, a, b, c, d, hscan, haddress, hdest, hdata, ?_⟩
        rw [← hdata]
        exact fun hnil ↦ hempty (Nat.lt_one_iff.mpr (List.length_eq_zero_iff.mpr hnil))
  · rintro ⟨ipString, numConsumed, a, b, c, d, hscan, haddress, hdest, hdata, hne⟩
    rw [hscan]
    dsimp only
    rw [haddress]
    dsimp only
    rw [hdata, if_neg (Nat.not_lt.mpr (List.length_pos_iff.mpr hne)), hdest]

/-- What `send_cmd` passes on is handed to the network layer; without it the node has no part in
the command. -/
theorem Node.sendCmd_eq_ok_iff {node node' : Node} {memory : List UInt8} :
    node.sendCmd memory = .ok node' ↔ ∃ dest protocol data,
      parseSend node.order memory = .ok (dest, protocol, data) ∧
        node' = node.transferApplicationToIp dest protocol data data.length := by
  unfold Node.sendCmd
  cases parseSend node.order memory with
  | error message =>
    refine iff_of_false (fun h ↦ nomatch h) ?_
    rintro ⟨dest, protocol, data, hparse, -⟩
    cases hparse
  | ok passed =>
    obtain ⟨dest, protocol, data⟩ := passed
    constructor
    · exact fun h ↦ ⟨dest, protocol, data, rfl, (Except.ok.inj h).symm⟩
    · rintro ⟨dest', protocol', data', hpassed, rfl⟩
      cases hpassed
      rfl

/-- What `send_cmd` passes on from a line in which something is left behind the number. -/
theorem SendFields.Form.parseSend_iff (h : fields.Form line) (hzero : 0 ∉ line)
    {a b c d : UInt8} (haddress : inetPton fields.ipString = some (a, b, c, d)) {sep : UInt8}
    {rest : List UInt8} (hrest : fields.rest = sep :: rest) (beyond : List UInt8)
    {order : ByteOrder} {dest : UInt32} {protocol : UInt8} {data : List UInt8} :
    parseSend order (line ++ 0 :: beyond) = .ok (dest, protocol, data) ↔
      word32 order a b c d = dest ∧ UInt8.ofNat (strtoul fields.negative fields.n) = protocol ∧
        rest = data ∧ data ≠ [] := by
  have hmem : 0 ∉ rest := by
    refine fun hzero' ↦ hzero (h.suffix.subset ?_)
    rw [hrest]
    exact List.mem_cons_of_mem sep hzero'
  have hdata : cString ((line ++ 0 :: beyond).drop (line.length - fields.rest.length + 1)) =
      rest := by
    rw [h.drop, hrest]
    exact cString_append_zero hmem beyond
  rw [parseSend_eq_ok_iff, cString_append_zero hzero]
  constructor
  · rintro ⟨ipString, numConsumed, a', b', c', d', hscan, haddress', hdest, hdata', hne⟩
    obtain ⟨fields', hform', rfl, hprotocol, rfl⟩ := scanSend_eq_some_iff.mp hscan
    obtain rfl := h.unique hform'
    cases haddress.symm.trans haddress'
    exact ⟨hdest, hprotocol, hdata.symm.trans hdata', hne⟩
  · rintro ⟨hdest, hprotocol, hdata', hne⟩
    exact ⟨_, _, a, b, c, d, scanSend_eq_some_iff.mpr ⟨fields, h, rfl, hprotocol, rfl⟩, haddress,
      hdest, hdata.trans hdata', hne⟩

/-- The value that is passed on is the number of the line where that fits. -/
theorem SendFields.protocol_eq {protocol : UInt8}
    (h : signed fields.negative fields.n = protocol.toNat) :
    UInt8.ofNat (strtoul fields.negative fields.n) = protocol := by
  have hlt := protocol.toNat_lt
  have hvalue := strtoul_eq (h.symm ▸ Int.natCast_nonneg _) (by omega)
  rw [h] at hvalue
  rw [Int.ofNat.inj hvalue, UInt8.ofNat_toNat]

/-- A number of eight bits is passed on as it is. -/
theorem SendFields.signed_eq (hnonneg : 0 ≤ signed fields.negative fields.n)
    (hfits : signed fields.negative fields.n ≤ 255) : signed fields.negative fields.n =
      (UInt8.ofNat (strtoul fields.negative fields.n)).toNat := by
  have hvalue := strtoul_eq hnonneg (by omega)
  rw [UInt8.toNat_ofNat']
  omega

variable {separator : UInt8 → Prop} {order : ByteOrder} {input : InputLine}

/-! ### When the line is parsed exactly -/

theorem ParsedExactly.separatesFields (h : ParsedExactly separator order input) :
    SeparatesFields separator input := by
  intro fields hform haddress
  have hlength := hform.suffix.length_le
  have hstart := h.inside _ (payloadStart_eq_some_iff.mpr ⟨fields, hform, haddress, rfl⟩)
  obtain ⟨⟨a, b, c, d⟩, haddress⟩ := Option.ne_none_iff_exists'.mp haddress
  obtain ⟨sep, data, hrest⟩ : ∃ sep data, fields.rest = sep :: data := by
    refine List.exists_cons_of_ne_nil fun hnil ↦ ?_
    rw [hnil, List.length_nil] at hstart
    omega
  refine ⟨hrest ▸ List.cons_ne_nil sep data, fun hmore ↦ ?_⟩
  have hdata : data ≠ [] := by
    rintro rfl
    rw [hrest] at hmore
    exact absurd hmore (lt_irrefl 1)
  have hparse : parseSend order (input.chars ++ [0]) = .ok (word32 order a b c d,
      UInt8.ofNat (strtoul fields.negative fields.n), data) :=
    (hform.parseSend_iff input.noZero haddress hrest []).mpr ⟨rfl, rfl, rfl, hdata⟩
  obtain ⟨a', b', c', d', ⟨fields', sep', hform', hblank, -, hvalue, hrest', hsep, -⟩, -⟩ :=
    (h.passes [] _ _ _).mp hparse
  obtain rfl := hform.unique hform'
  have hlt := (UInt8.ofNat (strtoul fields.negative fields.n)).toNat_lt
  refine ⟨hblank, by omega, by omega, fun c hc ↦ ?_⟩
  rw [hrest'] at hc
  exact Option.some.inj hc ▸ hsep

/-- What is passed on comes from a send line. -/
theorem SeparatesFields.sendLine (h : SeparatesFields separator input) {beyond : List UInt8}
    {dest : UInt32} {protocol : UInt8} {data : List UInt8}
    (hparse : parseSend order (input.chars ++ 0 :: beyond) = .ok (dest, protocol, data)) :
    ∃ a b c d, SendLine separator input.chars (a, b, c, d) protocol data ∧
      dest = word32 order a b c d := by
  have hscan := parseSend_eq_ok_iff.mp hparse
  rw [cString_append_zero input.noZero] at hscan
  obtain ⟨ipString, numConsumed, a, b, c, d, hscan, haddress, -⟩ := hscan
  obtain ⟨fields, hform, rfl, -⟩ := scanSend_eq_some_iff.mp hscan
  obtain ⟨hrest, hmore⟩ := h fields hform (haddress ▸ Option.some_ne_none _)
  obtain ⟨sep, rest, hrest⟩ := List.exists_cons_of_ne_nil hrest
  obtain ⟨hdest, hprotocol, rfl, hne⟩ :=
    (hform.parseSend_iff input.noZero haddress hrest beyond).mp hparse
  have hlength : 1 < fields.rest.length := by
    rw [hrest]
    exact Nat.succ_lt_succ (List.length_pos_iff.mpr hne)
  obtain ⟨hblank, hnonneg, hfits, hsep⟩ := hmore hlength
  rw [hrest] at hsep
  have hvalue : signed fields.negative fields.n = protocol.toNat := by
    rw [← hprotocol]
    exact SendFields.signed_eq hnonneg hfits
  exact ⟨a, b, c, d, ⟨fields, sep, hform, hblank, haddress, hvalue, hrest, hsep sep rfl, hne⟩,
    hdest.symm⟩

/-- A send line is passed on. -/
theorem SendLine.parseSend {a b c d protocol : UInt8} {data : List UInt8}
    (h : SendLine separator input.chars (a, b, c, d) protocol data) (beyond : List UInt8) :
    parseSend order (input.chars ++ 0 :: beyond) = .ok (word32 order a b c d, protocol, data) := by
  obtain ⟨fields, sep, hform, -, haddress, hvalue, hrest, -, hne⟩ := h
  exact (hform.parseSend_iff input.noZero haddress hrest beyond).mpr
    ⟨rfl, SendFields.protocol_eq hvalue, rfl, hne⟩

/-- For every choice of the separators and every line whose token has room: the line is parsed
exactly if and only if, where it has an address and a number, something comes behind the number,
and where more than one character does, a blank comes behind `send`, the number is one of eight
bits and a separator comes behind it. -/
theorem parsedExactly_iff (separator : UInt8 → Prop) (order : ByteOrder) (line : InputLine) :
    ParsedExactly separator order line ↔ SeparatesFields separator line := by
  refine ⟨ParsedExactly.separatesFields, fun hfields ↦ ⟨?_, ?_, ?_⟩⟩
  · intro beyond dest protocol data
    refine ⟨hfields.sendLine, ?_⟩
    rintro ⟨a, b, c, d, hline, rfl⟩
    exact hline.parseSend beyond
  · rintro node node' beyond rfl
    rw [Node.sendCmd_eq_ok_iff]
    constructor
    · rintro ⟨dest, protocol, data, hparse, rfl⟩
      obtain ⟨a, b, c, d, hline, rfl⟩ := hfields.sendLine hparse
      exact ⟨a, b, c, d, protocol, data, hline, rfl⟩
    · rintro ⟨a, b, c, d, protocol, data, hline, rfl⟩
      exact ⟨_, protocol, data, hline.parseSend beyond, rfl⟩
  · intro start hstart
    obtain ⟨fields, hform, haddress, rfl⟩ := payloadStart_eq_some_iff.mp hstart
    obtain ⟨hrest, -⟩ := hfields fields hform haddress
    have hlength := hform.suffix.length_le
    have hpos := List.length_pos_iff.mpr hrest
    omega

/-- The line `send 1.2.3.4 300 x`. -/
def wideProtocolLine : InputLine where
  chars := [115, 101, 110, 100, 32, 49, 46, 50, 46, 51, 46, 52, 32, 51, 48, 48, 32, 120]
  noZero := by decide
  room := by decide

/-- The line `send 1.2.3.4 6`. -/
def noPayloadLine : InputLine where
  chars := [115, 101, 110, 100, 32, 49, 46, 50, 46, 51, 46, 52, 32, 54]
  noZero := by decide
  room := by decide

/-- The first passes a payload on to protocol `44`; behind the second, whatever the memory there
holds is passed on. -/
theorem send_lines_not_exact :
    parseSend .little (wideProtocolLine.chars ++ [0]) = .ok (0x04030201, 44, [120]) ∧
      ¬ ParsedExactly (fun c ↦ isSpace c = true) .little wideProtocolLine ∧
    parseSend .little (noPayloadLine.chars ++ [0, 115, 101, 99, 114, 101, 116, 0]) =
        .ok (0x04030201, 6, [115, 101, 99, 114, 101, 116]) ∧
      ¬ ParsedExactly (fun c ↦ isSpace c = true) .little noPayloadLine := by
  have hwide : parseSend .little (wideProtocolLine.chars ++ [0]) = .ok (0x04030201, 44, [120]) := by
    decide +kernel
  refine ⟨hwide, fun h ↦ ?_, by decide +kernel, fun h ↦ ?_⟩
  · obtain ⟨a, b, c, d, ⟨fields, sep, hform, -, -, hvalue, -⟩, -⟩ := (h.passes [] _ _ _).mp hwide
    have hnumber : (sendFields wideProtocolLine.chars).map (fun f ↦ signed f.negative f.n) =
        some 300 := by
      decide +kernel
    rw [sendFields_eq_some_iff.mpr hform] at hnumber
    exact absurd ((Option.some.inj hnumber).symm.trans hvalue) (by decide)
  · exact absurd (h.inside 15 (by decide +kernel)) (by decide)

end IpRipStack
