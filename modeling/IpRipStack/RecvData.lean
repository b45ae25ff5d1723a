import IpRipStack.Forwarding
import IpRipStack.FrameEffects

/-!
# The receive loop of LinkLayer.cc

`recv_data` reads datagrams into a buffer on its stack until it has as many bytes as the second word
of the buffer says, and hands them to the network layer. `RecvData` holds the variables of the loop;
`RecvData.read` is one turn up to the test that ends it; `recvData` is a whole call, from the
results of its reads to what it hands over. The link thread calls it again and again, and a call
finds in its buffer whatever the stack holds: `RecvData.turn` is a turn of any of these calls, with
that memory as part of the event. `handovers_of_recvLoop` connects the two.

The total runs on from one read to the next and the length is read only while the total is zero, but
every read goes to the start of the buffer and a failed read counts for minus one. `framed_iff` says
of each turn, and `framing_iff` of all turns of a run, exactly when this does no harm. The total is
an `int`, which wraps after `2 ^ 31` failed reads.
-/

set_option autoImplicit false
set_option relaxedAutoImplicit false

namespace IpRipStack

open MachineWord Runs

def maxbuff : ℕ := 1024

/-- The buffer of `recv_data`. -/
structure RecvBuffer where
  bytes : List UInt8
  length_eq : bytes.length = maxbuff

/-- A result of `recvfrom`. -/
inductive RecvResult
  | failed
  | datagram (bytes : List UInt8)

/-- The bytes a read leaves in the buffer: a longer datagram is cut off. -/
def received (bytes : List UInt8) : List UInt8 := bytes.take maxbuff

/-- The buffer after a read. -/
def RecvBuffer.recvfrom (buf : RecvBuffer) : RecvResult → RecvBuffer
  | .failed => buf
  | .datagram bytes => ⟨overwrite buf.bytes 0 (received bytes), by rw [length_overwrite, buf.length_eq]⟩

/-- `numbytes`. -/
def RecvResult.numbytes : RecvResult → Int
  | .failed => -1
  | .datagram bytes => (received bytes).length

/-- The variables of `recv_data`. -/
structure RecvData where
  buf : RecvBuffer
  frameLength : UInt16
  totalbytes : Int

/-- The arguments of `transfer_link_to_ip`. -/
structure Handover where
  buf : List UInt8
  len : Int

/-- A value of type `int`. -/
def int32 (x : Int) : Int := x.bmod 4294967296

namespace RecvData

/-- The variables at the start of a call. The buffer is not initialised. -/
def start (stack : RecvBuffer) : RecvData where
  buf := stack
  frameLength := 0
  totalbytes := 0

/-- A turn of the loop up to the test that ends it. -/
def read (order : ByteOrder) (s : RecvData) (result : RecvResult) : RecvData :=
  let buf := s.buf.recvfrom result
  { buf := buf
    frameLength :=
      if s.totalbytes = 0 then ntohs order (load16 order buf.bytes 2) else s.frameLength
    totalbytes := int32 (s.totalbytes + result.numbytes) }

/-- `totalbytes >= frame_length`. -/
def Complete (s : RecvData) : Prop := (s.frameLength.toNat : Int) ≤ s.totalbytes

instance (s : RecvData) : Decidable s.Complete := inferInstanceAs (Decidable (_ ≤ _))

def handover (s : RecvData) : Handover := ⟨s.buf.bytes, s.totalbytes⟩

end RecvData

/-- The loop of `LinkLayer::recv_data`: the variables when it ends and the results that are left.
Without further results it waits. -/
def recvLoop (order : ByteOrder) : RecvData → List RecvResult → Option (RecvData × List RecvResult)
  | _, [] => none
  | s, result :: rest =>
    if (s.read order result).Complete then some (s.read order result, rest)
    else recvLoop order (s.read order result) rest

/-- `LinkLayer::recv_data` up to the attribution of what it hands over. -/
def recvData (order : ByteOrder) (stack : RecvBuffer) (results : List RecvResult) :
    Option (Handover × List RecvResult) :=
  (recvLoop order (RecvData.start stack) results).map fun ended ↦ (ended.1.handover, ended.2)

/-! ### Turns of successive calls -/

/-- A read, and what the next call finds in its buffer should this be the last turn of a call. -/
structure RecvTurn where
  result : RecvResult
  stack : RecvBuffer

namespace RecvData

variable {order : ByteOrder}

/-- A turn of any of the calls, and what is handed over in it. -/
def turn (order : ByteOrder) (s : RecvData) (event : RecvTurn) : RecvData × Option Handover :=
  let s' := s.read order event.result
  if s'.Complete then (start event.stack, some s'.handover) else (s', none)

/-- The turns as a step relation. -/
def Turn (order : ByteOrder) (s : RecvData) (event : RecvTurn) (s' : RecvData) : Prop :=
  (s.turn order event).1 = s'

/-- What is handed over in the course of some turns. -/
def handovers (order : ByteOrder) : RecvData → List RecvTurn → List Handover
  | _, [] => []
  | s, event :: events =>
    (s.turn order event).2.toList ++ handovers order (s.turn order event).1 events

theorem handovers_cons (s : RecvData) (event : RecvTurn) (events : List RecvTurn) :
    handovers order s (event :: events) =
      (s.turn order event).2.toList ++ handovers order (s.turn order event).1 events :=
  rfl

theorem turn_complete {s : RecvData} {event : RecvTurn} (h : (s.read order event.result).Complete) :
    s.turn order event = (start event.stack, some (s.read order event.result).handover) :=
  if_pos h

theorem turn_not_complete {s : RecvData} {event : RecvTurn}
    (h : ¬ (s.read order event.result).Complete) :
    s.turn order event = (s.read order event.result, none) :=
  if_neg h

/-- A call of `recv_data` that ends is a number of turns, of which the last hands over what the call
hands over; the turns after it are those of the next call. -/
theorem handovers_of_recvLoop {s ended : RecvData} {events : List RecvTurn}
    {rest : List RecvResult}
    (h : recvLoop order s (events.map RecvTurn.result) = some (ended, rest)) :
    ∃ before last after, events = before ++ last :: after ∧ after.map RecvTurn.result = rest ∧
      handovers order s events = ended.handover :: handovers order (start last.stack) after := by
  induction events generalizing s with
  | nil => exact absurd h.symm (Option.some_ne_none _)
  | cons event events ih =>
    rw [List.map_cons, recvLoop] at h
    rw [handovers_cons]
    by_cases hcomplete : (s.read order event.result).Complete
    · rw [if_pos hcomplete] at h
      obtain ⟨rfl, rfl⟩ := Prod.mk.inj (Option.some.inj h)
      rw [turn_complete hcomplete]
      exact ⟨[], event, events, rfl, rfl, rfl⟩
    · rw [if_neg hcomplete] at h
      obtain ⟨before, last, after, rfl, hafter, hrest⟩ := ih h
      rw [turn_not_complete hcomplete]
      exact ⟨event :: before, last, after, rfl, hafter, hrest⟩

/-- A call that waits for further reads hands nothing over. -/
theorem handovers_of_waiting {s : RecvData} {events : List RecvTurn}
    (h : recvLoop order s (events.map RecvTurn.result) = none) : handovers order s events = [] := by
  induction events generalizing s with
  | nil => rfl
  | cons event events ih =>
    rw [List.map_cons, recvLoop] at h
    by_cases hcomplete : (s.read order event.result).Complete
    · rw [if_pos hcomplete] at h
      exact absurd h (Option.some_ne_none _)
    · rw [if_neg hcomplete] at h
      unfold handovers
      rw [turn_not_complete hcomplete, ih h]
      rfl

end RecvData

/-! ### Framing -/

/-- A datagram that is one packet: it has a whole header and fits the buffer, and its length is what
the header says. -/
structure WholePacket (order : ByteOrder) (bytes : List UInt8) : Prop where
  header : 20 ≤ bytes.length
  fits : bytes.length ≤ maxbuff
  totLen : (ntohs order (load16 order bytes 2)).toNat = bytes.length

/-- What is handed over are the bytes of the datagram, with its length. -/
structure Handover.Carries (h : Handover) (bytes : List UInt8) : Prop where
  len : h.len = bytes.length
  bytes : h.buf.take bytes.length = bytes

/-- The network layer is handed what it would be handed with the datagram alone. -/
theorem Handover.Carries.transferLinkToIp {h : Handover} {bytes : List UInt8} (hcarries : h.Carries bytes)
    (node : Node) (next : UInt32) : node.transferLinkToIp h.buf h.len.toNat next =
      node.transferLinkToIp bytes bytes.length next := by
  unfold Node.transferLinkToIp
  rw [hcarries.len, Int.toNat_natCast, hcarries.bytes, List.take_length]

namespace RecvData

variable {order : ByteOrder} {s : RecvData}

/-- A turn that reads a whole packet hands it over. A turn that hands over a whole packet has just
read it, so that none is handed over again. And no turn hands over more than the buffer holds. -/
structure Framed (order : ByteOrder) (s : RecvData) (event : RecvTurn) : Prop where
  whole : ∀ bytes, event.result = .datagram bytes → WholePacket order bytes →
    ∃ h, (s.turn order event).2 = some h ∧ h.Carries bytes
  once : ∀ h bytes, (s.turn order event).2 = some h → h.Carries bytes → WholePacket order bytes →
    ∃ datagram, event.result = .datagram datagram ∧ received datagram = bytes
  bounded : ∀ h, (s.turn order event).2 = some h → h.len ≤ maxbuff

/-- A read does no harm: a failed one when the total has not reached the least value of its type; a
datagram when the total is zero, or when it is no whole packet and the total it leads to is still
less than the length waited for, or fits the buffer and does not make a whole packet of what lies
there. -/
def Serves (order : ByteOrder) (s : RecvData) (event : RecvTurn) : Prop :=
  match event.result with
  | .failed => s.totalbytes ≠ -2147483648
  | .datagram bytes =>
    let total := s.totalbytes + (received bytes).length
    s.totalbytes = 0 ∨ (¬ WholePacket order bytes ∧ (total < s.frameLength.toNat ∨
      (total ≤ maxbuff ∧
        ¬ WholePacket order ((s.buf.recvfrom (.datagram bytes)).bytes.take total.toNat))))

/-- Between two turns the total is an `int` below the length waited for, unless it is zero. -/
structure Waiting (s : RecvData) : Prop where
  least : -2147483648 ≤ s.totalbytes
  less : s.totalbytes = 0 ∨ s.totalbytes < s.frameLength.toNat

theorem waiting_start (stack : RecvBuffer) : (start stack).Waiting := by
  refine ⟨?_, Or.inl rfl⟩
  change (-2147483648 : Int) ≤ 0
  omega

theorem int32_of_bounds {x : Int} (hleast : -2147483648 ≤ x) (hless : x < 2147483648) :
    int32 x = x :=
  Int.bmod_eq_of_le (by omega) (by omega)

theorem least_int32 (x : Int) : -2147483648 ≤ int32 x := by
  unfold int32
  have hleast := Int.le_bmod (x := x) (m := 4294967296) (by decide)
  omega

theorem length_received (bytes : List UInt8) : (received bytes).length ≤ maxbuff :=
  List.length_take_le _ _

/-- The start of the buffer after a datagram is read. -/
theorem recvfrom_datagram (buf : RecvBuffer) (bytes : List UInt8) :
    (buf.recvfrom (.datagram bytes)).bytes =
      received bytes ++ buf.bytes.drop (received bytes).length := by
  have hfits : 0 + (received bytes).length ≤ buf.bytes.length := by
    rw [buf.length_eq, Nat.zero_add]
    exact length_received bytes
  have hreplace := overwrite_eq_append hfits
  rwa [List.take_zero, List.nil_append, Nat.zero_add] at hreplace

theorem waiting_turn (s : RecvData) (event : RecvTurn) : (s.turn order event).1.Waiting := by
  by_cases hcomplete : (s.read order event.result).Complete
  · rw [turn_complete hcomplete]
    exact waiting_start event.stack
  · rw [turn_not_complete hcomplete]
    exact ⟨least_int32 _, Or.inr (not_le.mp hcomplete)⟩

/-- A failed read ends no call, unless the total wraps. -/
theorem not_complete_failed (order : ByteOrder) (h : s.Waiting) (hleast : s.totalbytes ≠ -2147483648) :
    ¬ (s.read order .failed).Complete := by
  have hlow := h.least
  have hlength := s.frameLength.toNat_lt
  have htotal : (s.read order .failed).totalbytes = s.totalbytes - 1 := by
    refine int32_of_bounds ?_ ?_
    · change -2147483648 ≤ s.totalbytes + -1
      omega
    · change s.totalbytes + -1 < 2147483648
      have hless := h.less
      omega
  unfold Complete
  rw [htotal]
  rcases h.less with hzero | hless
  · omega
  · by_cases hzero : s.totalbytes = 0
    · omega
    · have hsame : (s.read order .failed).frameLength = s.frameLength := if_neg hzero
      rw [hsame]
      omega

/-- The least total wraps to the greatest, which is more than any length. -/
theorem complete_failed_of_least (order : ByteOrder) (hleast : s.totalbytes = -2147483648) :
    (s.read order .failed).Complete ∧ (s.read order .failed).totalbytes = 2147483647 := by
  have htotal : (s.read order .failed).totalbytes = 2147483647 := by
    change int32 (s.totalbytes + -1) = 2147483647
    rw [hleast]
    decide
  refine ⟨?_, htotal⟩
  have hlength := (s.read order .failed).frameLength.toNat_lt
  unfold Complete
  rw [htotal]
  omega

theorem Waiting.totalbytes_datagram (h : s.Waiting) (order : ByteOrder) (bytes : List UInt8) :
    (s.read order (.datagram bytes)).totalbytes = s.totalbytes + (received bytes).length := by
  have hlow := h.least
  have hless := h.less
  have hlength := s.frameLength.toNat_lt
  have hreceived := length_received bytes
  unfold maxbuff at hreceived
  refine int32_of_bounds ?_ ?_
  · change -2147483648 ≤ s.totalbytes + ((received bytes).length : Int)
    omega
  · change s.totalbytes + ((received bytes).length : Int) < 2147483648
    omega

theorem handed_iff {event : RecvTurn} {handed : Handover} : (s.turn order event).2 = some handed ↔
    (s.read order event.result).Complete ∧ (s.read order event.result).handover = handed := by
  by_cases hcomplete : (s.read order event.result).Complete
  · rw [turn_complete hcomplete, Option.some_inj]
    exact (and_iff_right hcomplete).symm
  · rw [turn_not_complete hcomplete]
    exact iff_of_false (Option.some_ne_none handed).symm fun h ↦ hcomplete h.1

theorem received_whole {bytes : List UInt8} (h : WholePacket order bytes) :
    received bytes = bytes :=
  List.take_of_length_le h.fits

/-- With the total at zero a whole packet is handed over as it came. -/
theorem framed_whole (h : s.Waiting) (hzero : s.totalbytes = 0) (stack : RecvBuffer)
    {bytes : List UInt8} (hwhole : WholePacket order bytes) :
    ∃ handed, (s.turn order ⟨.datagram bytes, stack⟩).2 = some handed ∧ handed.Carries bytes := by
  let s' := s.read order (.datagram bytes)
  have hbuf : s'.buf.bytes = bytes ++ s.buf.bytes.drop bytes.length := by
    have hread := recvfrom_datagram s.buf bytes
    rwa [received_whole hwhole] at hread
  have htotal : s'.totalbytes = bytes.length := by
    have hsum := h.totalbytes_datagram order bytes
    rwa [hzero, received_whole hwhole, Int.zero_add] at hsum
  have hlength : s'.frameLength.toNat = bytes.length := by
    have hheader := hwhole.header
    have hword : s'.frameLength = ntohs order (load16 order s'.buf.bytes 2) := if_pos hzero
    rw [hword, hbuf]
    unfold load16
    rw [byteAt_append_left _ (by omega), byteAt_append_left _ (by omega)]
    exact hwhole.totLen
  have hcomplete : s'.Complete := by
    unfold Complete
    rw [hlength, htotal]
  refine ⟨s'.handover, handed_iff.mpr ⟨hcomplete, rfl⟩, htotal, ?_⟩
  change s'.buf.bytes.take bytes.length = bytes
  rw [hbuf, List.take_left]

/-- A call whose first read is a whole packet hands it over as it came. -/
theorem recvData_whole {bytes : List UInt8} (hwhole : WholePacket order bytes) (stack : RecvBuffer)
    (results : List RecvResult) : ∃ handed,
      recvData order stack (.datagram bytes :: results) = some (handed, results) ∧
        handed.Carries bytes := by
  obtain ⟨handed, hhanded, hcarries⟩ := framed_whole (waiting_start stack) rfl stack hwhole
  obtain ⟨hcomplete, rfl⟩ := handed_iff.mp hhanded
  have hended : recvLoop order (start stack) (.datagram bytes :: results) =
      some ((start stack).read order (.datagram bytes), results) := if_pos hcomplete
  refine ⟨_, ?_, hcarries⟩
  rw [recvData, hended]
  rfl

/-- What is handed over is whole exactly when the bytes in the buffer are, up to the total. -/
theorem whole_handed_iff {total : ℕ} (htotal : s.totalbytes = total) (hfits : total ≤ maxbuff) :
    (∃ bytes, s.handover.Carries bytes ∧ WholePacket order bytes) ↔
      WholePacket order (s.buf.bytes.take total) := by
  have hlength : (s.buf.bytes.take total).length = total := by
    rw [List.length_take, s.buf.length_eq, Nat.min_eq_left hfits]
  constructor
  · rintro ⟨bytes, hcarries, hwhole⟩
    have hlen : bytes.length = total := Int.ofNat_inj.mp (hcarries.len.symm.trans htotal)
    have hbytes : s.buf.bytes.take bytes.length = bytes := hcarries.bytes
    rwa [← hlen, hbytes]
  · intro hwhole
    refine ⟨_, ⟨?_, ?_⟩, hwhole⟩
    · rw [hlength]
      exact htotal
    · rw [hlength]
      rfl

/-- A datagram that comes while the total is not zero. -/
theorem Waiting.framed_datagram_iff (h : s.Waiting) (hzero : s.totalbytes ≠ 0) (bytes : List UInt8)
    (stack : RecvBuffer) :
    Framed order s ⟨.datagram bytes, stack⟩ ↔ Serves order s ⟨.datagram bytes, stack⟩ := by
  let s' := s.read order (.datagram bytes)
  have htotal : s'.totalbytes = s.totalbytes + (received bytes).length := h.totalbytes_datagram order bytes
  have hlength : s'.frameLength = s.frameLength := if_neg hzero
  constructor
  · intro hframed
    refine Or.inr ⟨fun hwhole ↦ ?_, or_iff_not_imp_left.mpr fun hends ↦ ?_⟩
    · obtain ⟨handed, hhanded, hcarries⟩ := hframed.whole bytes rfl hwhole
      obtain ⟨-, rfl⟩ := handed_iff.mp hhanded
      have hlen := htotal.symm.trans hcarries.len
      rw [received_whole hwhole] at hlen
      omega
    · have hcomplete : s'.Complete := by
        unfold Complete
        rw [htotal, hlength]
        omega
      have hhanded : (s.turn order ⟨.datagram bytes, stack⟩).2 = some s'.handover :=
        handed_iff.mpr ⟨hcomplete, rfl⟩
      have hbounded : s'.totalbytes ≤ maxbuff := hframed.bounded _ hhanded
      rw [htotal] at hbounded
      refine ⟨hbounded, fun hwhole ↦ ?_⟩
      have hnat : s'.totalbytes = ((s.totalbytes + (received bytes).length).toNat : ℕ) := by
        rw [htotal]
        omega
      obtain ⟨bytes', hcarries, hwhole'⟩ := (whole_handed_iff hnat (by omega)).mpr hwhole
      obtain ⟨datagram, hread, hsame⟩ := hframed.once _ bytes' hhanded hcarries hwhole'
      obtain rfl := RecvResult.datagram.inj hread
      have hlen := htotal.symm.trans hcarries.len
      rw [hsame] at hlen
      omega
  · intro hserves
    obtain ⟨hother, hharmless⟩ := hserves.resolve_left hzero
    have hends : ∀ handed, (s.turn order ⟨.datagram bytes, stack⟩).2 = some handed →
        s'.handover = handed ∧ s.frameLength.toNat ≤ s.totalbytes + (received bytes).length := by
      intro handed hhanded
      obtain ⟨hcomplete, hsame⟩ := handed_iff.mp hhanded
      change (s'.frameLength.toNat : Int) ≤ s'.totalbytes at hcomplete
      rw [htotal, hlength] at hcomplete
      exact ⟨hsame, hcomplete⟩
    refine ⟨fun bytes' hread hwhole ↦ ?_, fun handed bytes' hhanded hcarries hwhole ↦ ?_,
      fun handed hhanded ↦ ?_⟩
    · obtain rfl := RecvResult.datagram.inj hread
      exact absurd hwhole hother
    · obtain ⟨rfl, hcomplete⟩ := hends handed hhanded
      obtain ⟨hfits, hnot⟩ := hharmless.resolve_left (not_lt.mpr hcomplete)
      have hnat : s'.totalbytes = ((s.totalbytes + (received bytes).length).toNat : ℕ) := by
        rw [htotal]
        omega
      exact absurd ((whole_handed_iff hnat (by omega)).mp ⟨bytes', hcarries, hwhole⟩) hnot
    · obtain ⟨rfl, hcomplete⟩ := hends handed hhanded
      change s'.totalbytes ≤ maxbuff
      rw [htotal]
      exact (hharmless.resolve_left (not_lt.mpr hcomplete)).1

/-- A datagram that comes while the total is zero. -/
theorem Waiting.framed_of_zero (h : s.Waiting) (hzero : s.totalbytes = 0) (bytes : List UInt8)
    (stack : RecvBuffer) : Framed order s ⟨.datagram bytes, stack⟩ := by
  let s' := s.read order (.datagram bytes)
  have htotal : s'.totalbytes = (received bytes).length := by
    have hsum := h.totalbytes_datagram order bytes
    rwa [hzero, Int.zero_add] at hsum
  have hbuf : s'.buf.bytes = received bytes ++ s.buf.bytes.drop (received bytes).length :=
    recvfrom_datagram s.buf bytes
  refine ⟨fun bytes' hread hwhole ↦ ?_, fun handed bytes' hhanded hcarries _ ↦ ?_,
    fun handed hhanded ↦ ?_⟩
  · obtain rfl := RecvResult.datagram.inj hread
    exact framed_whole h hzero stack hwhole
  · obtain ⟨-, rfl⟩ := handed_iff.mp hhanded
    refine ⟨bytes, rfl, ?_⟩
    have hlen : (received bytes).length = bytes'.length :=
      Int.ofNat_inj.mp (htotal.symm.trans hcarries.len)
    have hbytes : s'.buf.bytes.take bytes'.length = bytes' := hcarries.bytes
    rwa [hbuf, ← hlen, List.take_left] at hbytes
  · obtain ⟨-, rfl⟩ := handed_iff.mp hhanded
    change s'.totalbytes ≤ maxbuff
    rw [htotal]
    exact Int.ofNat_le.mpr (length_received bytes)

/-- A turn does what it should exactly when its read does no harm. -/
theorem framed_iff (h : s.Waiting) (event : RecvTurn) :
    Framed order s event ↔ Serves order s event := by
  obtain ⟨result, stack⟩ := event
  cases result with
  | failed =>
    constructor
    · intro hframed hleast
      obtain ⟨hcomplete, htotal⟩ := complete_failed_of_least order hleast
      have hhanded := hframed.bounded _ (handed_iff.mpr ⟨hcomplete, rfl⟩)
      change (s.read order .failed).totalbytes ≤ 1024 at hhanded
      omega
    · intro hserves
      have hnone : ∀ handed, (s.turn order ⟨.failed, stack⟩).2 ≠ some handed :=
        fun handed hhanded ↦ not_complete_failed order h hserves (handed_iff.mp hhanded).1
      exact ⟨fun _ hread ↦ RecvResult.noConfusion hread,
        fun handed _ hhanded ↦ absurd hhanded (hnone handed),
        fun handed hhanded ↦ absurd hhanded (hnone handed)⟩
  | datagram bytes =>
    by_cases hzero : s.totalbytes = 0
    · exact iff_of_true (h.framed_of_zero hzero bytes stack) (Or.inl hzero)
    · exact h.framed_datagram_iff hzero bytes stack

/-- Whatever the link thread reads on an interface: every turn of every call of `recv_data` hands
over the whole packet it reads, exactly as it came and no other whole packet, and never more than
the buffer holds, exactly when no read of the run does harm. -/
theorem framing_iff (order : ByteOrder) (stack : RecvBuffer) (events : List RecvTurn) :
    EveryStep (Turn order) (Framed order) (start stack) events ↔
      EveryStep (Turn order) (Serves order) (start stack) events := by
  refine everyStep_congr (I := Waiting) ?_ ?_ (waiting_start stack)
  · rintro s event s' - rfl
    exact waiting_turn s event
  · rintro s event s' h -
    exact framed_iff h event

end RecvData

/-- A datagram of four bytes whose length field says a hundred. -/
def cutOffDatagram : List UInt8 := [0x45, 0, 0, 100]

/-- A stack that holds zeros. -/
def zeroStack : RecvBuffer := ⟨List.replicate maxbuff 0, List.length_replicate⟩

/-- The whole packet that follows the cut-off datagram is not handed over. -/
theorem packet_swallowed : WholePacket .little (dataPacket 0x0A000003) ∧
    RecvData.handovers .little (RecvData.start zeroStack)
      [⟨.datagram cutOffDatagram, zeroStack⟩, ⟨.datagram (dataPacket 0x0A000003), zeroStack⟩] = [] ∧
    ¬ EveryStep (RecvData.Turn .little) (RecvData.Framed .little) (RecvData.start zeroStack)
      [⟨.datagram cutOffDatagram, zeroStack⟩, ⟨.datagram (dataPacket 0x0A000003), zeroStack⟩] := by
  have hwhole : WholePacket .little (dataPacket 0x0A000003) := ⟨by decide, by decide, by decide⟩
  let first : RecvTurn := ⟨.datagram cutOffDatagram, zeroStack⟩
  let second : RecvTurn := ⟨.datagram (dataPacket 0x0A000003), zeroStack⟩
  let between := ((RecvData.start zeroStack).turn .little first).1
  have hhanded : (between.turn .little second).2 = none := by
    unfold RecvData.turn
    decide +kernel
  refine ⟨hwhole, ?_, fun hframed ↦ ?_⟩
  · have hnone : ((RecvData.start zeroStack).turn .little first).2 = none := by decide +kernel
    rw [RecvData.handovers_cons, RecvData.handovers_cons, hnone, hhanded]
    rfl
  · have hrun : Run (RecvData.Turn .little) (RecvData.start zeroStack) [first] between :=
      Run.single rfl
    obtain ⟨handed, hsome, -⟩ := (hframed [first] second [] between _ rfl hrun rfl).whole _ rfl hwhole
    rw [hhanded] at hsome
    exact absurd hsome.symm (Option.some_ne_none handed)

end IpRipStack
