import IpRipStack.Drain

/-!
# The packet dissector

The Wireshark dissector of the repository reads the messages of the routing layer a second time. It
stops where the message does, while `update_route_table` reads as many entries as the message
claims: `dissector_eq` says what it shows of any payload, in terms of what a node reads. On the
messages that nodes make the two agree (`Genuine.dissector_eq`), and so they do on every routing
packet that is on a wire (`Stacks.wire_dissected`).
-/

set_option autoImplicit false
set_option relaxedAutoImplicit false

namespace IpRipStack

open MachineWord OrderedMap Runs

/-! ### The dissector -/

def ripHeaderLen : ℕ := 4

def routeEntryLen : ℕ := 12

/-- The buffer a dissector is called with: the bytes that were captured, and the length the payload
had on the wire. -/
structure Tvb where
  captured : List UInt8
  reported : ℕ
  captured_le : captured.length ≤ reported

namespace Tvb

/-- A payload that was captured to its end. -/
def whole (data : List UInt8) : Tvb := ⟨data, data.length, le_rfl⟩

/-- `buffer(pos, 2):uint()`; a range that was not captured is an error. -/
def uint16 (buffer : Tvb) (pos : ℕ) : Option UInt16 :=
  if pos + 2 ≤ buffer.captured.length then some (load16 .big buffer.captured pos) else none

/-- `buffer(pos, 4):uint()`. -/
def uint32 (buffer : Tvb) (pos : ℕ) : Option UInt32 :=
  if pos + 4 ≤ buffer.captured.length then some (load32 .big buffer.captured pos) else none

end Tvb

/-- How the dissector ends: it returns, it returns after it has added `ef_bad_entry`, or one of its
ranges was not captured. -/
inductive Ending where
  | done
  | badEntry
  | outOfBounds
  deriving DecidableEq

/-- What the dissector has added to the columns and to the tree of a packet. -/
structure Dissection where
  protocol : Option String := none
  info : String := ""
  /-- The command, and the text that is appended to it. -/
  command : Option (UInt16 × String) := none
  numEntries : Option UInt16 := none
  /-- The subtree "Entries". -/
  entries : Option (List Entry) := none
  ending : Ending

/-- The entries that are shown. -/
def Dissection.shown (d : Dissection) : List Entry := d.entries.getD []

/-- `get_command_name`. -/
def getCommandName (cmd : UInt16) : String :=
  if cmd = 1 then "REQUEST" else if cmd = 2 then "RESPONSE" else "UNKNOWN"

/-- The loop of the dissector. -/
def dissectEntries (buffer : Tvb) : ℕ → ℕ → ℤ → List Entry × Ending
  | 0, _, _ => ([], .done)
  | entryCount + 1, pos, pktRemaining =>
    if pktRemaining ≤ 0 then ([], .done)
    else if pktRemaining < routeEntryLen then ([], .badEntry)
    else
      match buffer.uint32 pos, buffer.uint32 (pos + 4), buffer.uint32 (pos + 8) with
      | some cost, some address, some mask =>
        let others := dissectEntries buffer entryCount (pos + 12) (pktRemaining - 12)
        ({ cost, address, mask } :: others.1, others.2)
      | _, _, _ => ([], .outOfBounds)

/-- `rip_protocol.dissector`. -/
def dissector (buffer : Tvb) : Dissection :=
  if buffer.captured.length = 0 then { ending := .done }
  else
    let protocol := some "CS168RIP"
    let pktlen := buffer.reported
    match buffer.uint16 0 with
    | none => { protocol, ending := .outOfBounds }
    | some cmdNum =>
      let cmdName := getCommandName cmdNum
      let command := some (cmdNum, " (" ++ cmdName ++ ") ")
      let info := "RIP " ++ cmdName
      match buffer.uint16 2 with
      | none => { protocol, info, command, ending := .outOfBounds }
      | some entryCount =>
        let info := info ++ (" (" ++ toString entryCount.toNat ++ " entries)")
        let numEntries := some entryCount
        if entryCount > 0 then
          let run := dissectEntries buffer entryCount.toNat ripHeaderLen (pktlen - ripHeaderLen)
          { protocol, info, command, numEntries, entries := some run.1, ending := run.2 }
        else { protocol, info, command, numEntries, ending := .done }

/-! ### What it shows -/

theorem load32_drop (order : ByteOrder) (data : List UInt8) (skip offset : ℕ) :
    load32 order (data.drop skip) offset = load32 order data (skip + offset) := by
  simp only [load32, byteAt, List.getD_eq_getElem?_getD, List.getElem?_drop, Nat.add_assoc]

theorem entryAt_eq (order : ByteOrder) (data : List UInt8) (pos : ℕ) :
    entryAt order data pos =
      { cost := load32 .big data pos
        address := load32 .big data (pos + 4)
        mask := load32 .big data (pos + 8) } := by
  simp only [entryAt, Entry.load, Entry.ntoh, ntohl_load32, load32_drop, Nat.add_zero]

/-- The whole entries from a position on that were captured. -/
def Tvb.room (buffer : Tvb) (pos : ℕ) : ℕ := (buffer.captured.length - pos) / 12

/-- How the loop ends when it starts at a position with a count: past the entries that were captured
lies the end of the payload, a part of an entry, or what was not captured. -/
def Tvb.endingFrom (buffer : Tvb) (count pos : ℕ) : Ending :=
  if count ≤ buffer.room pos ∨ buffer.reported ≤ pos + 12 * buffer.room pos then .done
  else if buffer.reported < pos + 12 * (buffer.room pos + 1) then .badEntry
  else .outOfBounds

theorem Tvb.room_of_le {buffer : Tvb} {pos : ℕ} (h : pos + 12 ≤ buffer.captured.length) :
    buffer.room pos = buffer.room (pos + 12) + 1 := by
  unfold Tvb.room
  omega

theorem Tvb.room_of_lt {buffer : Tvb} {pos : ℕ} (h : buffer.captured.length < pos + 12) :
    buffer.room pos = 0 := by
  unfold Tvb.room
  omega

/-- A turn that finds an entry. -/
theorem dissectEntries_of_le {buffer : Tvb} {pos : ℕ} (h : pos + 12 ≤ buffer.captured.length)
    (count : ℕ) :
    dissectEntries buffer (count + 1) pos (buffer.reported - pos) =
      (entryAt .big buffer.captured pos ::
          (dissectEntries buffer count (pos + 12) (buffer.reported - (pos + 12 : ℕ))).1,
        (dissectEntries buffer count (pos + 12) (buffer.reported - (pos + 12 : ℕ))).2) := by
  have hreported := h.trans buffer.captured_le
  have hnext : (buffer.reported : ℤ) - pos - 12 = buffer.reported - (pos + 12 : ℕ) := by
    omega
  have hcost : buffer.uint32 pos = some (load32 .big buffer.captured pos) := if_pos (by omega)
  have haddress : buffer.uint32 (pos + 4) = some (load32 .big buffer.captured (pos + 4)) :=
    if_pos (by omega)
  have hmask : buffer.uint32 (pos + 8) = some (load32 .big buffer.captured (pos + 8)) :=
    if_pos (by omega)
  have hlen : (routeEntryLen : ℤ) = 12 := rfl
  rw [dissectEntries, if_neg (by omega), if_neg (by omega), hcost, haddress, hmask, hnext,
    entryAt_eq]

/-- A turn that finds none is the last. -/
theorem dissectEntries_of_lt {buffer : Tvb} {pos : ℕ} (h : buffer.captured.length < pos + 12)
    (count : ℕ) :
    dissectEntries buffer (count + 1) pos (buffer.reported - pos) =
      ([], buffer.endingFrom (count + 1) pos) := by
  have hmask : buffer.uint32 (pos + 8) = none := if_neg (by omega)
  have hlen : (routeEntryLen : ℤ) = 12 := rfl
  rw [dissectEntries, Tvb.endingFrom, Tvb.room_of_lt h, hmask]
  by_cases hend : buffer.reported ≤ pos
  · rw [if_pos (by omega), if_pos (Or.inr (by omega))]
  · have hsome : ¬(buffer.reported : ℤ) - pos ≤ 0 := by omega
    have hmore : ¬(count + 1 ≤ 0 ∨ buffer.reported ≤ pos + 12 * 0) := by omega
    rw [if_neg hsome, if_neg hmore]
    by_cases hpart : buffer.reported < pos + 12
    · rw [if_pos (by omega), if_pos (by omega)]
    · have hwhole : ¬(buffer.reported : ℤ) - pos < routeEntryLen := by omega
      rw [if_neg hwhole, if_neg (by omega)]
      cases buffer.uint32 pos <;> cases buffer.uint32 (pos + 4) <;> rfl

/-- The loop shows the entries it was told of, as far as they were captured. -/
theorem dissectEntries_eq (buffer : Tvb) (count pos : ℕ) :
    dissectEntries buffer count pos (buffer.reported - pos) =
      ((List.range (min count (buffer.room pos))).map fun i ↦
          entryAt .big buffer.captured (pos + 12 * i),
        buffer.endingFrom count pos) := by
  induction count generalizing pos with
  | zero =>
    rw [Nat.zero_min, dissectEntries, Tvb.endingFrom, if_pos (Or.inl (Nat.zero_le _))]
    rfl
  | succ count ih =>
    by_cases h : pos + 12 ≤ buffer.captured.length
    · have hroom := Tvb.room_of_le h
      have hending : buffer.endingFrom count (pos + 12) = buffer.endingFrom (count + 1) pos := by
        unfold Tvb.endingFrom
        rw [hroom]
        exact if_congr (by omega) rfl (if_congr (by omega) rfl rfl)
      rw [dissectEntries_of_le h, ih (pos + 12), hending, hroom, Nat.add_min_add_right,
        List.range_succ_eq_map, List.map_cons, List.map_map]
      refine congrArg (·, _) (congrArg (_ :: ·) (List.map_congr_left fun i _ ↦ ?_))
      exact congrArg (entryAt .big buffer.captured) (by omega)
    · rw [dissectEntries_of_lt (Nat.not_le.mp h), Tvb.room_of_lt (Nat.not_le.mp h), Nat.min_zero]
      rfl

/-! ### What a node reads -/

theorem readEntry_eq (order : ByteOrder) (data : List UInt8) (i : ℕ) :
    readEntry order data i = entryAt .big data (ripHeaderLen + 12 * i) := by
  have hdrop : ((data.drop 2).drop 2).drop (12 * i) = data.drop (ripHeaderLen + 12 * i) := by
    rw [List.drop_drop, List.drop_drop, ← Nat.add_assoc]
    rfl
  rw [entryAt_eq .big, ← entryAt_eq order, readEntry, hdrop]
  rfl

theorem readEntries_eq (order : ByteOrder) (data : List UInt8) :
    readEntries order data =
      (List.range (readCount order data).toNat).map fun i ↦
        entryAt .big data (ripHeaderLen + 12 * i) :=
  List.map_congr_left fun i _ ↦ readEntry_eq order data i

theorem readCommand_eq (order : ByteOrder) (data : List UInt8) :
    readCommand order data = load16 .big data 0 := ntohs_load16 order data 0

theorem readCount_eq (order : ByteOrder) (data : List UInt8) :
    readCount order data = load16 .big data 2 := by
  rw [readCount, ntohs_load16]
  simp only [load16, byteAt, List.getD_eq_getElem?_getD, List.getElem?_drop]

/-- Assumes: the command and the count were captured. What the dissector shows are the command on
which a node acts and the first of the entries the node reads, as many as were captured; it does not
show those that a node reads from behind the payload. -/
theorem dissector_eq (order : ByteOrder) (buffer : Tvb)
    (h : ripHeaderLen ≤ buffer.captured.length) :
    let data := buffer.captured
    let name := getCommandName (readCommand order data)
    let count := readCount order data
    let d := dissector buffer
    d.command = some (readCommand order data, " (" ++ name ++ ") ") ∧ d.numEntries = some count ∧
      d.info = "RIP " ++ name ++ (" (" ++ toString count.toNat ++ " entries)") ∧
      d.shown = (readEntries order data).take (buffer.room ripHeaderLen) ∧
      d.ending = buffer.endingFrom count.toNat ripHeaderLen := by
  intro data name count d
  have hlen : ripHeaderLen = 4 := rfl
  have hempty : buffer.captured.length ≠ 0 := by omega
  have hcommand : buffer.uint16 0 = some (readCommand order data) :=
    (if_pos (by omega)).trans (congrArg some (readCommand_eq order data).symm)
  have hcount : buffer.uint16 2 = some count :=
    (if_pos (by omega)).trans (congrArg some (readCount_eq order data).symm)
  have hrun := dissectEntries_eq buffer count.toNat ripHeaderLen
  have hshown : (List.range (min count.toNat (buffer.room ripHeaderLen))).map (fun i ↦
      entryAt .big data (ripHeaderLen + 12 * i)) =
        (readEntries order data).take (buffer.room ripHeaderLen) := by
    rw [readEntries_eq, ← List.map_take, List.take_range, Nat.min_comm]
  have hd : d = dissector buffer := rfl
  rw [dissector, if_neg hempty, hcommand, hcount] at hd
  dsimp only at hd
  by_cases hsome : count > 0
  · rw [if_pos hsome, hrun] at hd
    rw [hd]
    exact ⟨rfl, rfl, rfl, hshown, rfl⟩
  · have hzero : count.toNat = 0 := by
      have hle : ¬0 < count.toNat := hsome
      omega
    rw [if_neg hsome] at hd
    rw [hzero, Nat.zero_min] at hshown
    rw [hd, Tvb.endingFrom, if_pos (Or.inl (hzero.trans_le (Nat.zero_le _)))]
    exact ⟨rfl, rfl, rfl, hshown, rfl⟩

/-- Assumes: the entries that are claimed were captured. They are what the dissector shows. -/
theorem dissector_of_le (order : ByteOrder) (buffer : Tvb)
    (h : ripHeaderLen + 12 * (readCount order buffer.captured).toNat ≤ buffer.captured.length) :
    let d := dissector buffer
    d.command.map Prod.fst = some (readCommand order buffer.captured) ∧
      d.shown = readEntries order buffer.captured ∧ d.ending = .done := by
  obtain ⟨hcommand, -, -, hshown, hending⟩ := dissector_eq order buffer (by omega)
  have hroom : (readCount order buffer.captured).toNat ≤ buffer.room ripHeaderLen := by
    unfold Tvb.room
    omega
  have hlength : (readEntries order buffer.captured).length ≤ buffer.room ripHeaderLen := by
    rwa [readEntries, List.length_map, List.length_range]
  refine ⟨congrArg (Option.map Prod.fst) hcommand, ?_, ?_⟩
  · rw [hshown, List.take_of_length_le hlength]
  · rw [hending, Tvb.endingFrom, if_pos (Or.inl hroom)]

/-- Assumes: a payload that was captured to its end and holds the command and the count. The
dissector shows the entries that a node reads, exactly if the node does not read past the payload,
and the first of them otherwise. It warns if a part of an entry is left over: it says nothing when
whole entries are missing. -/
theorem dissector_whole (order : ByteOrder) {data : List UInt8} (h : ripHeaderLen ≤ data.length) :
    let count := (readCount order data).toNat
    let d := dissector (.whole data)
    d.command.map Prod.fst = some (readCommand order data) ∧
      d.numEntries = some (readCount order data) ∧
      d.shown <+: readEntries order data ∧
      (d.shown = readEntries order data ↔ ripHeaderLen + 12 * count ≤ data.length) ∧
      (d.ending = .badEntry ↔
        data.length < ripHeaderLen + 12 * count ∧ ¬ 12 ∣ data.length - ripHeaderLen) ∧
      d.ending ≠ .outOfBounds := by
  intro count d
  obtain ⟨hcommand, hcount, -, hfirst, hlast⟩ := dissector_eq order (.whole data) h
  let room := (data.length - ripHeaderLen) / 12
  have hshown : d.shown = (readEntries order data).take room := hfirst
  have hending : d.ending =
      if count ≤ room ∨ data.length ≤ ripHeaderLen + 12 * room then .done
      else if data.length < ripHeaderLen + 12 * (room + 1) then .badEntry else .outOfBounds := hlast
  have hlength : (readEntries order data).length = count := by
    rw [readEntries, List.length_map, List.length_range]
  refine ⟨congrArg (Option.map Prod.fst) hcommand, hcount, ?_, ?_, ?_⟩
  · rw [hshown]
    exact List.take_prefix _ _
  · rw [hshown, List.take_eq_self_iff, hlength]
    omega
  · rw [hending]
    by_cases hend : count ≤ room ∨ data.length ≤ ripHeaderLen + 12 * room
    · rw [if_pos hend]
      exact ⟨iff_of_false Ending.noConfusion (by omega), Ending.noConfusion⟩
    · rw [if_neg hend, if_pos (by omega)]
      exact ⟨iff_of_true rfl (by omega), Ending.noConfusion⟩

/-- A response that claims two entries and holds one: the dissector shows the one and says nothing,
where a node would read another. -/
theorem dissector_whole_short :
    let data : List UInt8 := [0, 2, 0, 2, 0, 0, 0, 3, 10, 0, 0, 9, 255, 255, 255, 255]
    (dissector (.whole data)).shown = [⟨3, 0x0A000009, 0xFFFFFFFF⟩] ∧
      (dissector (.whole data)).ending = .done ∧
      (dissector (.whole data)).shown ≠ readEntries .little data := by
  intro data
  obtain ⟨-, -, -, hall, -⟩ := dissector_whole .little (by decide : ripHeaderLen ≤ data.length)
  exact ⟨by decide, by decide, fun h ↦ absurd (hall.mp h) (by decide)⟩

/-! ### Messages of nodes -/

/-- A message that a node made holds the entries it claims: the dissector shows what the receiver
acts on, which reads the message out of a larger buffer. -/
theorem Genuine.dissector_eq {vip : UInt32} {frame : List UInt8} (h : Genuine vip frame)
    (order : ByteOrder) (stale : List UInt8) :
    let d := dissector (.whole (frame.drop 20))
    d.command.map Prod.fst = some (readCommand order (ripPayload (frame ++ stale))) ∧
      d.shown = readEntries order (ripPayload (frame ++ stale)) ∧ d.ending = .done := by
  intro d
  have hcommand := h.readCommand_eq order stale
  have hentries := h.readEntries_eq order stale
  obtain ⟨sender, msgType, id, ifc, rfl, -⟩ := h
  have hdata := drop_ripPacket sender msgType id ifc []
  rw [List.append_nil] at hdata
  have hlength : ((sender.ripPacket msgType id ifc).packet.drop 20).length =
      12 * sender.rtable.size + ripHeaderLen := by
    rw [hdata, List.append_nil, length_ripMsg_bytes, ripMsg_entries, List.length_map,
      Std.ExtTreeMap.length_toList]
    rfl
  have hcount : (readCount .big ((sender.ripPacket msgType id ifc).packet.drop 20)).toNat ≤
      sender.rtable.size := by
    rw [hdata, readCount_ripMsg, UInt16.toNat_ofNat']
    exact Nat.mod_le _ _
  obtain ⟨hcmd, hshown, hending⟩ := dissector_of_le .big
    (.whole ((sender.ripPacket msgType id ifc).packet.drop 20))
    (by
      change _ ≤ ((sender.ripPacket msgType id ifc).packet.drop 20).length
      rw [hlength, Nat.add_comm]
      exact Nat.add_le_add_right (Nat.mul_le_mul_left 12 hcount) _)
  exact ⟨hcmd.trans (congrArg some hcommand.symm), hshown.trans hentries.symm, hending⟩

namespace Stacks

/-- Assumes: at most sixty-four interfaces in the whole network. Whatever the threads of the nodes
and the wire have done, in whatever order: of every routing packet on the wire the dissector shows
the command and the entries that its receiver acts on, whatever the byte order there and whatever
the receive buffer held before, and it finds nothing wrong with it. -/
theorem wire_dissected {T : Topology} (hends : Fintype.card T.End ≤ maxEntries)
    (clock : Fin T.size → ℕ → Timeval) {s : Stacks T} {events : List (StackEvent T)}
    (hrun : Run PlainStep (start T clock) events s) {d : Datagram T} (hd : d ∈ s.wire)
    (hproto : byteAt d.bytes 9 = ripProto) (order : ByteOrder) (stale : List UInt8) :
    let shown := dissector (.whole (d.bytes.drop 20))
    let data := ripPayload (d.bytes ++ stale)
    shown.command.map Prod.fst = some (readCommand order data) ∧
      shown.shown = readEntries order data ∧ shown.ending = .done := by
  obtain ⟨net, -, htracks⟩ := (threads_refine hends clock).1 hrun
  obtain ⟨f, hf, -, hframe⟩ := htracks.wire d hd hproto
  have hgenuine := htracks.valid.flight f hf
  rw [hframe] at hgenuine
  exact hgenuine.dissector_eq order stale

/-- The last node of the row has sent its request and its routes. -/
theorem wire_dissected_chain : ∃ s, Run PlainStep (start (chain mixed) fun _ _ ↦ ⟨0, 0⟩)
    ((journey mixed 0 1 2).take 3) s ∧ ∃ d ∈ s.wire,
      (dissector (.whole (d.bytes.drop 20))).info = "RIP RESPONSE (1 entries)" ∧
      (dissector (.whole (d.bytes.drop 20))).shown =
        readEntries .big (ripPayload (d.bytes ++ [7])) := by
  let Plain (s : Stacks (chain mixed)) (event : StackEvent (chain mixed)) : Prop :=
    event.Fits ∧ ¬ s.Impersonates event
  let isResponse (d : Datagram (chain mixed)) : Bool :=
    (dissector (.whole (d.bytes.drop 20))).info = "RIP RESPONSE (1 entries)" &&
      byteAt d.bytes 9 == ripProto
  have hrun : (((journey mixed 0 1 2).take 3).foldlM
      (fun s event ↦ if Plain s event then handle s event else none)
      (start (chain mixed) fun _ _ ↦ ⟨0, 0⟩)).any (fun s ↦ s.wire.any isResponse) = true := by
    decide
  obtain ⟨s, hs, hwire⟩ := (Option.any_eq_true _ _).mp hrun
  obtain ⟨d, hd, hresponse⟩ := List.any_eq_true.mp hwire
  obtain ⟨hinfo, hproto⟩ := (Bool.and_eq_true _ _).mp hresponse
  have hplain : Run PlainStep (start (chain mixed) fun _ _ ↦ ⟨0, 0⟩)
      ((journey mixed 0 1 2).take 3) s := Run.of_foldlM_if hs
  obtain ⟨-, hshown, -⟩ := wire_dissected (T := chain mixed) (by decide) (fun _ _ ↦ ⟨0, 0⟩) hplain
    hd (beq_iff_eq.mp hproto) .big [7]
  exact ⟨s, hplain, d, hd, of_decide_eq_true hinfo, hshown⟩

end Stacks

end IpRipStack
