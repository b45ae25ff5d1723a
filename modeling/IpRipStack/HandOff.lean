import IpRipStack.SenderProgress

/-!
# The hand-off of frames to a link thread

For an interface that stays up and on which each call of `sendto` takes all it is given (`Accepts`),
the frames popped for it go one after the other through the call of `send_frame` and through the one
buffer to `sendto`. What is on the way is `held` by the call or `unsent` in the buffer.

The two threads share the buffer without a common lock, so the order of their assignments decides.
`Intact` is what holds of a slot between any two of them: while the flag is set the buffer is a
whole frame with its size, but for the moment after `send_data` has nulled it, and the link thread
is only at a buffer whose flag is set. `Prepared` is what the call in progress has done to the buffer while
the flag is not set. Both are kept by every step of either thread (`Intact.linkStep`,
`Intact.fill`), and each step moves frames along in their order or leaves them where they are, so
that nothing is lost over a whole run (`Run.conserves`, `frames_handed_over`).

A frame of no bytes goes through the buffer without a call of `sendto` (`empty_frame_unsent`).
-/

set_option autoImplicit false
set_option relaxedAutoImplicit false

namespace IpRipStack

open Runs

/-- The frames a call of `sendto` is made for: those that have bytes. -/
def sendable (frames : List (List UInt8)) : List (List UInt8) :=
  frames.filter fun frame ↦ frame ≠ []

theorem sendable_append (first second : List (List UInt8)) :
    sendable (first ++ second) = sendable first ++ sendable second :=
  List.filter_append ..

/-- The link thread is in `send_data` and has not yet nulled the buffer. -/
def LinkPc.AtBuffer : LinkPc → Prop
  | .loading | .sending _ | .freeing | .nulling => True
  | .top | .polled | .clearing | .signalling => False

theorem LinkPc.AtBuffer.draining {link : LinkPc} (h : link.AtBuffer) :
    link.Draining ∧ link ≠ .clearing := by
  cases link with
  | top => exact h.elim
  | polled => exact h.elim
  | clearing => exact h.elim
  | signalling => exact h.elim
  | _ => exact ⟨trivial, by simp⟩

/-- What is left to send. -/
def LinkPc.remBytes : LinkPc → ℕ
  | .sending remBytes => remBytes
  | _ => 0

/-- The frame a call still has to put into the buffer. -/
def heldAt (frame : List UInt8) : Option SenderPc → List (List UInt8)
  | none | some .unlocking => []
  | some _ => [frame]

namespace Slot

/-- The frame in the buffer, until `send_data` has come to the end of it. -/
def unsent (slot : Slot) : List (List UInt8) :=
  match slot.link with
  | .sending 0 | .freeing | .nulling | .clearing => []
  | _ => if slot.sbufferReady then slot.sbuffer.toList else []

/-- A call of `sendto` in this step takes all it is given. -/
def Accepts (slot : Slot) (answer : Answer) : Prop :=
  slot.link.remBytes ≠ 0 → answer.numBytes = some slot.link.remBytes

instance (slot : Slot) (answer : Answer) : Decidable (slot.Accepts answer) :=
  inferInstanceAs (Decidable (_ → _))

/-- What holds of a slot between any two assignments: the flag is set while the link thread is at
the buffer, which is then a whole frame with its size until it is nulled, and of which all or
nothing is left to send. -/
structure Intact (slot : Slot) : Prop where
  consistent : slot.Consistent
  full : slot.sbufferReady = true → slot.link ≠ .clearing →
    ∃ frame, slot.sbuffer = some frame ∧ slot.sbuffersz = frame.length
  whole : ∀ remBytes, slot.link = .sending remBytes → remBytes = 0 ∨ remBytes = slot.sbuffersz

/-- What the call has done to the buffer. -/
def Prepared (slot : Slot) (frame : List UInt8) : SenderPc → Prop
  | .copying => slot.sbufferReady = false
  | .sizing => slot.sbufferReady = false ∧ slot.sbuffer = some frame
  | .readying =>
    slot.sbufferReady = false ∧ slot.sbuffer = some frame ∧ slot.sbuffersz = frame.length
  | .entered | .locking | .testing | .parking | .waiting | .woken | .unlocking => True

/-- One step of `send_frame` in the slot of its interface: from the position, with the slot and the
position after it, or none where the call returns. -/
inductive Fill (slot : Slot) (frame : List UInt8) : SenderPc → Slot → Option SenderPc → Prop
  | leaves (down : slot.isOpen = false) : Fill slot frame .entered slot none
  | enters (up : slot.isOpen = true) : Fill slot frame .entered slot (some .locking)
  | locks {pc : SenderPc} (at_lock : pc = .locking ∨ pc = .woken) :
      Fill slot frame pc { slot with bufferlck := true } (some .testing)
  | finds (full : slot.sbufferReady = true) : Fill slot frame .testing slot (some .parking)
  | passes (empty : slot.sbufferReady = false) : Fill slot frame .testing slot (some .copying)
  | waits : Fill slot frame .parking { slot with bufferlck := false } (some .waiting)
  | copies : Fill slot frame .copying { slot with sbuffer := some frame } (some .sizing)
  | sizes : Fill slot frame .sizing { slot with sbuffersz := frame.length } (some .readying)
  | readies : Fill slot frame .readying { slot with sbufferReady := true } (some .unlocking)
  | unlocks : Fill slot frame .unlocking { slot with bufferlck := false } none

variable {slot slot' : Slot} {frame : List UInt8} {pc : SenderPc} {pc' : Option SenderPc}

/-! ### A step of the link thread -/

theorem linkStep_sbuffersz (slot : Slot) (answer : Answer) :
    (slot.linkStep answer).sbuffersz = slot.sbuffersz := by
  unfold linkStep
  split <;> first | rfl | (split <;> first | rfl | (split <;> rfl))

/-- The link thread changes the buffer only where it nulls it. -/
theorem linkStep_sbuffer (h : slot.link ≠ .nulling) (answer : Answer) :
    (slot.linkStep answer).sbuffer = slot.sbuffer := by
  cases hlink : slot.link with
  | nulling => exact absurd hlink h
  | sending remBytes =>
    unfold linkStep
    rw [hlink]
    dsimp only
    split
    · rfl
    · split <;> rfl
  | _ => simp only [linkStep, hlink]

/-- The link thread does not set the flag. -/
theorem sbufferReady_of_linkStep {answer : Answer}
    (h : (slot.linkStep answer).sbufferReady = true) : slot.sbufferReady = true := by
  cases slot.linkStep_moved answer with
  | round before after flag => exact flag.symm.trans h
  | takes before full up after flag => exact full
  | drains before after flag => exact flag.symm.trans h
  | clears before after flag => exact absurd (flag.symm.trans h) Bool.false_ne_true
  | signals before after flag => exact flag.symm.trans h

/-- Assumes: an interface that is up, and a call of `sendto` that takes all it is given. -/
theorem linkStep_sending {remBytes : ℕ} {answer : Answer} (hlink : slot.link = .sending remBytes)
    (hrest : remBytes ≠ 0) (hup : slot.isOpen = true) (haccepts : slot.Accepts answer) :
    slot.linkStep answer =
      { slot with
        link := .sending 0
        sent := slot.sent ++
          [((slot.sbuffer.getD []).drop (slot.sbuffersz - remBytes)).take remBytes] } := by
  have htaken : answer.numBytes = some remBytes := by
    have hall := haccepts
    rw [Accepts, hlink] at hall
    exact hall hrest
  simp [linkStep, hlink, hrest, hup, htaken]

theorem Intact.linkStep (h : slot.Intact) (hup : slot.isOpen = true) {answer : Answer}
    (haccepts : slot.Accepts answer) : (slot.linkStep answer).Intact := by
  refine ⟨h.consistent.linkStep answer, fun hready hlink' ↦ ?_, fun remBytes hlink' ↦ ?_⟩
  · have hnulling : slot.link ≠ .nulling := by
      intro hlink
      simp [Slot.linkStep, hlink] at hlink'
    have hclearing : slot.link ≠ .clearing := by
      intro hlink
      simp [Slot.linkStep, hlink] at hready
    rw [linkStep_sbuffer hnulling, linkStep_sbuffersz]
    exact h.full (sbufferReady_of_linkStep hready) hclearing
  · rw [linkStep_sbuffersz]
    cases hlink : slot.link with
    | loading =>
      simp only [Slot.linkStep, hlink, LinkPc.sending.injEq] at hlink'
      exact Or.inr hlink'.symm
    | sending before =>
      by_cases hrest : before = 0
      · simp [Slot.linkStep, hlink, hrest] at hlink'
      · rw [linkStep_sending hlink hrest hup haccepts] at hlink'
        exact Or.inl (LinkPc.sending.inj hlink').symm
    | top =>
      simp only [Slot.linkStep, hlink] at hlink'
      split_ifs at hlink'
    | polled =>
      simp only [Slot.linkStep, hlink] at hlink'
      split_ifs at hlink'
    | _ => simp [Slot.linkStep, hlink] at hlink'

/-- A step of the link thread passes the frame in the buffer to `sendto`, drops it because it has no
bytes, or leaves it there. -/
theorem Intact.linkStep_conserves (h : slot.Intact) (hup : slot.isOpen = true) {answer : Answer}
    (haccepts : slot.Accepts answer) : ∃ taken : List (List UInt8),
      slot.unsent = taken ++ (slot.linkStep answer).unsent ∧
        (slot.linkStep answer).sent = slot.sent ++ sendable taken := by
  have hstays : (slot.linkStep answer).unsent = slot.unsent →
      (slot.linkStep answer).sent = slot.sent → ∃ taken : List (List UInt8),
        slot.unsent = taken ++ (slot.linkStep answer).unsent ∧
          (slot.linkStep answer).sent = slot.sent ++ sendable taken := by
    intro hunsent hsent
    exact ⟨[], hunsent.symm, hsent.trans (List.append_nil _).symm⟩
  have hfull : slot.link.Draining → slot.link ≠ .clearing →
      ∃ frame, slot.sbuffer = some frame ∧ slot.sbuffersz = frame.length :=
    fun hdraining ↦ h.full (h.consistent hdraining)
  cases hlink : slot.link with
  | loading =>
    obtain ⟨frame, hbuffer, hsize⟩ := hfull (hlink ▸ trivial) (by simp [hlink])
    have hready := h.consistent (hlink ▸ trivial)
    cases frame with
    | nil =>
      refine ⟨[[]], ?_, ?_⟩
      · simp [unsent, Slot.linkStep, hlink, hready, hbuffer, hsize]
      · simp [Slot.linkStep, hlink, sendable]
    | cons byte bytes =>
      refine hstays ?_ ?_
      · simp [unsent, Slot.linkStep, hlink, hsize]
      · simp [Slot.linkStep, hlink]
  | sending remBytes =>
    by_cases hrest : remBytes = 0
    · subst hrest
      refine hstays ?_ ?_
      · simp [unsent, Slot.linkStep, hlink]
      · simp [Slot.linkStep, hlink]
    · obtain ⟨frame, hbuffer, hsize⟩ := hfull (hlink ▸ trivial) (by simp [hlink])
      have hready := h.consistent (hlink ▸ trivial)
      have hall : remBytes = frame.length := by
        rcases h.whole remBytes hlink with hzero | hwhole
        · exact absurd hzero hrest
        · exact hwhole.trans hsize
      have hbytes : frame ≠ [] := by
        rintro rfl
        exact hrest hall
      refine ⟨[frame], ?_, ?_⟩
      · rw [linkStep_sending hlink hrest hup haccepts]
        simp [unsent, hlink, hrest, hready, hbuffer]
      · rw [linkStep_sending hlink hrest hup haccepts]
        simp [hbuffer, hsize, hall, sendable, hbytes]
  | polled =>
    refine hstays ?_ ?_
    · simp only [unsent, Slot.linkStep, hlink]
      split_ifs <;> rfl
    · simp [Slot.linkStep, hlink]
  | _ =>
    refine hstays ?_ ?_
    · simp [unsent, Slot.linkStep, hlink, hup]
    · simp [Slot.linkStep, hlink]

theorem Prepared.linkStep (h : slot.Prepared frame pc) (hintact : slot.Intact) (answer : Answer) :
    (slot.linkStep answer).Prepared frame pc := by
  have hempty : slot.sbufferReady = false → (slot.linkStep answer).sbufferReady = false ∧
      (slot.linkStep answer).sbuffer = slot.sbuffer := by
    intro hready
    refine ⟨Bool.eq_false_iff.mpr fun hset ↦ ?_, linkStep_sbuffer (fun hlink ↦ ?_) answer⟩
    · exact absurd (hready.symm.trans (sbufferReady_of_linkStep hset)) Bool.false_ne_true
    · have hset := hintact.consistent (hlink ▸ trivial)
      exact absurd (hready.symm.trans hset) Bool.false_ne_true
  cases pc with
  | copying => exact (hempty h).1
  | sizing => exact ⟨(hempty h.1).1, (hempty h.1).2.trans h.2⟩
  | readying =>
    exact ⟨(hempty h.1).1, (hempty h.1).2.trans h.2.1, (slot.linkStep_sbuffersz answer).trans h.2.2⟩
  | _ => trivial

/-! ### A step of the call -/

/-- The link thread is not at a buffer whose flag is not set. -/
theorem Intact.not_draining (h : slot.Intact) (hready : slot.sbufferReady = false) :
    ¬ slot.link.Draining :=
  fun hdraining ↦ absurd (hready.symm.trans (h.consistent hdraining)) Bool.false_ne_true

/-- An assignment to the buffer while the flag is not set. -/
theorem Intact.of_empty (hready : slot'.sbufferReady = false) (hdraining : ¬ slot'.link.Draining) :
    slot'.Intact := by
  refine ⟨fun h ↦ absurd h hdraining, fun hset ↦ ?_, fun remBytes hlink ↦ ?_⟩
  · exact absurd (hready.symm.trans hset) Bool.false_ne_true
  · rw [hlink] at hdraining
    exact absurd trivial hdraining

theorem Intact.fill (h : slot.Intact) (hprepared : slot.Prepared frame pc)
    (hfill : slot.Fill frame pc slot' pc') : slot'.Intact := by
  cases hfill with
  | copies => exact Intact.of_empty hprepared (h.not_draining hprepared)
  | sizes => exact Intact.of_empty hprepared.1 (h.not_draining hprepared.1)
  | readies =>
    obtain ⟨hready, hbuffer, hsize⟩ := hprepared
    have hdraining := h.not_draining hready
    refine ⟨fun _ ↦ rfl, fun _ _ ↦ ⟨frame, hbuffer, hsize⟩, fun remBytes hlink ↦ ?_⟩
    exact absurd (hlink ▸ trivial) hdraining
  | _ => exact ⟨h.consistent, h.full, h.whole⟩

theorem Prepared.fill (h : slot.Prepared frame pc) (hfill : slot.Fill frame pc slot' pc') :
    ∀ pc'' ∈ pc', slot'.Prepared frame pc'' := by
  intro pc'' hpc
  cases hfill with
  | passes empty =>
    obtain rfl := Option.some.inj hpc
    exact empty
  | copies =>
    obtain rfl := Option.some.inj hpc
    exact ⟨h, rfl⟩
  | sizes =>
    obtain rfl := Option.some.inj hpc
    exact ⟨h.1, h.2, rfl⟩
  | leaves => exact absurd hpc.symm (Option.some_ne_none pc'')
  | unlocks => exact absurd hpc.symm (Option.some_ne_none pc'')
  | _ =>
    obtain rfl := Option.some.inj hpc
    trivial

theorem Fill.isOpen (h : slot.Fill frame pc slot' pc') : slot'.isOpen = slot.isOpen := by
  cases h <;> rfl

theorem unsent_of_empty (hready : slot.sbufferReady = false) : slot.unsent = [] := by
  unfold unsent
  split <;> simp [hready]

/-- A step of the call puts its frame into the buffer, or keeps it. Assumes: an interface that is
up. -/
theorem Intact.fill_conserves (h : slot.Intact) (hup : slot.isOpen = true)
    (hprepared : slot.Prepared frame pc) (hfill : slot.Fill frame pc slot' pc') :
    slot'.unsent ++ heldAt frame pc' = slot.unsent ++ heldAt frame (some pc) ∧
      slot'.sent = slot.sent := by
  cases hfill with
  | leaves down => exact absurd (down.symm.trans hup) Bool.false_ne_true
  | readies =>
    obtain ⟨hready, hbuffer, -⟩ := hprepared
    have hdraining := h.not_draining hready
    have hafter : unsent { slot with sbufferReady := true } = [frame] := by
      unfold unsent
      cases hlink : slot.link with
      | top => simp [hbuffer]
      | polled => simp [hbuffer]
      | signalling => simp [hbuffer]
      | _ => exact absurd (hlink ▸ trivial) hdraining
    rw [unsent_of_empty hready, hafter]
    exact ⟨rfl, rfl⟩
  | copies =>
    have hready : { slot with sbuffer := some frame }.sbufferReady = false := hprepared
    rw [unsent_of_empty hready, unsent_of_empty hprepared]
    exact ⟨rfl, rfl⟩
  | locks at_lock =>
    rcases at_lock with rfl | rfl
    · exact ⟨rfl, rfl⟩
    · exact ⟨rfl, rfl⟩
  | _ => exact ⟨rfl, rfl⟩

end Slot

/-- The frames an event pops for an interface. -/
def SendEvent.popped {ι : Type*} [DecidableEq ι] (ifc : ι) : SendEvent ι → List (List UInt8)
  | .pop other frame => if other = ifc then [frame] else []
  | .sender | .spurious | .link _ _ | .down _ | .up _ => []

namespace SendState

variable {ι : Type*} [DecidableEq ι]

/-- The frame the call in progress holds for an interface. -/
def held (s : SendState ι) (ifc : ι) : List (List UInt8) :=
  match s.call with
  | none => []
  | some call => if call.ifc = ifc then heldAt call.frame (some call.pc) else []

/-- The interface stays up in a step, and a call of `sendto` on it takes all it is given. -/
def Accepts (ifc : ι) (s : SendState ι) : SendEvent ι → Prop
  | .down other => other ≠ ifc
  | .link other answer => other = ifc → (s.slots ifc).Accepts answer
  | .pop _ _ | .sender | .spurious | .up _ => True

instance (ifc : ι) (s : SendState ι) (event : SendEvent ι) : Decidable (s.Accepts ifc event) :=
  match event with
  | .down other => inferInstanceAs (Decidable (other ≠ ifc))
  | .link other answer => inferInstanceAs (Decidable (other = ifc → (s.slots ifc).Accepts answer))
  | .pop _ _ | .sender | .spurious | .up _ => isTrue trivial

/-- What holds between steps of an interface that stays up. -/
structure Orderly (ifc : ι) (s : SendState ι) : Prop where
  up : (s.slots ifc).isOpen = true
  intact : (s.slots ifc).Intact
  prepared : ∀ call, s.call = some call → call.ifc = ifc →
    (s.slots ifc).Prepared call.frame call.pc

omit [DecidableEq ι] in
theorem orderly_start (ifc : ι) : (start : SendState ι).Orderly ifc := by
  refine ⟨rfl, ⟨fun hdraining ↦ hdraining.elim, fun hready ↦ ?_, fun remBytes hlink ↦ ?_⟩, ?_⟩
  · exact absurd hready Bool.false_ne_true
  · exact LinkPc.noConfusion hlink
  · exact fun call hcall ↦ absurd hcall.symm (Option.some_ne_none call)

/-- A step of the call is one in the slot of its interface. -/
theorem senderStep_fill {s s' : SendState ι} {call : Call ι} (h : s.senderStep call = some s') :
    ∃ slot' pc', (s.slots call.ifc).Fill call.frame call.pc slot' pc' ∧
      s'.slots = Function.update s.slots call.ifc slot' ∧
        s'.call = pc'.map fun pc ↦ { call with pc := pc } := by
  obtain ⟨ifc, frame, pc⟩ := call
  have hsame : Function.update s.slots ifc (s.slots ifc) = s.slots := Function.update_eq_self _ _
  cases pc with
  | entered =>
    simp only [senderStep] at h
    split_ifs at h with hopen
    · obtain rfl := Option.some.inj h
      exact ⟨_, _, Slot.Fill.enters hopen, hsame.symm, rfl⟩
    · obtain rfl := Option.some.inj h
      exact ⟨_, _, Slot.Fill.leaves (Bool.eq_false_iff.mpr hopen), hsame.symm, rfl⟩
  | locking =>
    simp only [senderStep] at h
    split_ifs at h
    obtain rfl := Option.some.inj h
    exact ⟨_, _, Slot.Fill.locks (Or.inl rfl), rfl, rfl⟩
  | woken =>
    simp only [senderStep] at h
    split_ifs at h
    obtain rfl := Option.some.inj h
    exact ⟨_, _, Slot.Fill.locks (Or.inr rfl), rfl, rfl⟩
  | testing =>
    simp only [senderStep] at h
    split_ifs at h with hready
    · obtain rfl := Option.some.inj h
      exact ⟨_, _, Slot.Fill.finds hready, hsame.symm, rfl⟩
    · obtain rfl := Option.some.inj h
      exact ⟨_, _, Slot.Fill.passes (Bool.eq_false_iff.mpr hready), hsame.symm, rfl⟩
  | parking =>
    obtain rfl := Option.some.inj h
    exact ⟨_, _, Slot.Fill.waits, rfl, rfl⟩
  | waiting => exact absurd h.symm (Option.some_ne_none s')
  | copying =>
    obtain rfl := Option.some.inj h
    exact ⟨_, _, Slot.Fill.copies, rfl, rfl⟩
  | sizing =>
    obtain rfl := Option.some.inj h
    exact ⟨_, _, Slot.Fill.sizes, rfl, rfl⟩
  | readying =>
    obtain rfl := Option.some.inj h
    exact ⟨_, _, Slot.Fill.readies, rfl, rfl⟩
  | unlocking =>
    obtain rfl := Option.some.inj h
    exact ⟨_, _, Slot.Fill.unlocks, rfl, rfl⟩

/-- The call is the one it was, or woken. -/
def Stays (before after : Option (Call ι)) : Prop :=
  after = before ∨
    ∃ call, before = some call ∧ call.pc = .waiting ∧ after = some { call with pc := .woken }

variable {s s' : SendState ι} {ifc : ι}

/-- A step of a link thread is one in its slot. -/
theorem step_link {other : ι} {answer : Answer} (hstep : s.Step (.link other answer) s') :
    s'.slots = Function.update s.slots other ((s.slots other).linkStep answer) ∧
      Stays s.call s'.call := by
  obtain rfl := Option.some.inj hstep
  refine ⟨rfl, ?_⟩
  dsimp only
  split_ifs
  · cases hcall : s.call with
    | none => exact Or.inl rfl
    | some call =>
      rw [Option.map_some]
      unfold wake
      split_ifs with hwaits
      · exact Or.inr ⟨call, rfl, hwaits.2, rfl⟩
      · exact Or.inl rfl
  · exact Or.inl rfl

theorem held_of_stays (h : Stays s.call s'.call) : s'.held ifc = s.held ifc := by
  rcases h with hsame | ⟨call, hcall, hwaits, hwoken⟩
  · unfold held
    rw [hsame]
  · unfold held
    rw [hwoken, hcall]
    dsimp only
    rw [hwaits]
    rfl

omit [DecidableEq ι] in
/-- A step of another thread, in which the call keeps its position or is woken. -/
theorem Orderly.of_stays (h : s.Orderly ifc) (hcall : Stays s.call s'.call)
    (hup : (s'.slots ifc).isOpen = true) (hintact : (s'.slots ifc).Intact)
    (hprepared : ∀ frame pc, (s.slots ifc).Prepared frame pc → (s'.slots ifc).Prepared frame pc) :
    s'.Orderly ifc := by
  refine ⟨hup, hintact, fun call' hcall' hifc ↦ ?_⟩
  rcases hcall with hsame | ⟨call, -, -, hwoken⟩
  · exact hprepared _ _ (h.prepared call' (hsame.symm.trans hcall') hifc)
  · obtain rfl := Option.some.inj (hwoken.symm.trans hcall')
    trivial

omit [DecidableEq ι] in
theorem Orderly.of_same (h : s.Orderly ifc) (hcall : Stays s.call s'.call)
    (hslot : s'.slots ifc = s.slots ifc) : s'.Orderly ifc :=
  h.of_stays hcall (hslot ▸ h.up) (hslot ▸ h.intact) fun _ _ hprepared ↦ hslot ▸ hprepared

/-- The step lemma. -/
theorem Orderly.step {event : SendEvent ι} (h : s.Orderly ifc) (haccepts : s.Accepts ifc event)
    (hstep : s.Step event s') : s'.Orderly ifc := by
  cases event with
  | pop other frame =>
    obtain ⟨-, rfl⟩ := step_pop hstep
    refine ⟨h.up, h.intact, fun call hnew _ ↦ ?_⟩
    obtain rfl := Option.some.inj hnew
    trivial
  | sender =>
    obtain ⟨call, hcall, hsender⟩ := Option.bind_eq_some_iff.mp hstep
    obtain ⟨slot', pc', hfill, hslots, hafter⟩ := senderStep_fill hsender
    by_cases hifc : call.ifc = ifc
    · subst hifc
      have hprepared := h.prepared call hcall rfl
      have hslot : s'.slots call.ifc = slot' := hslots ▸ Function.update_self _ _ _
      refine ⟨?_, ?_, fun call' hcall' hifc' ↦ ?_⟩
      · rw [hslot, hfill.isOpen]
        exact h.up
      · rw [hslot]
        exact h.intact.fill hprepared hfill
      · rw [hslot]
        obtain ⟨pc, hpc, rfl⟩ := Option.map_eq_some_iff.mp (hafter.symm.trans hcall')
        exact hprepared.fill hfill pc hpc
    · have hslot : s'.slots ifc = s.slots ifc :=
        hslots ▸ Function.update_of_ne (Ne.symm hifc) _ _
      refine ⟨hslot ▸ h.up, hslot ▸ h.intact, fun call' hcall' hifc' ↦ ?_⟩
      obtain ⟨pc, -, rfl⟩ := Option.map_eq_some_iff.mp (hafter.symm.trans hcall')
      exact absurd hifc' hifc
  | spurious =>
    obtain ⟨call, hcall, hwaits, rfl⟩ := step_spurious hstep
    exact h.of_same (Or.inr ⟨call, hcall, hwaits, rfl⟩) rfl
  | link other answer =>
    obtain ⟨hslots, hcall⟩ := step_link hstep
    by_cases hifc : other = ifc
    · subst hifc
      have hslot : s'.slots other = (s.slots other).linkStep answer :=
        hslots ▸ Function.update_self _ _ _
      refine h.of_stays hcall ?_ ?_ fun frame pc hprepared ↦ ?_
      · rw [hslot, ((s.slots other).linkStep_same answer).1]
        exact h.up
      · rw [hslot]
        exact h.intact.linkStep h.up (haccepts rfl)
      · rw [hslot]
        exact hprepared.linkStep h.intact answer
    · exact h.of_same hcall (hslots ▸ Function.update_of_ne (Ne.symm hifc) _ _)
  | down other =>
    obtain rfl := Option.some.inj hstep
    exact h.of_same (Or.inl rfl) (Function.update_of_ne (Ne.symm haccepts) _ _)
  | up other =>
    obtain rfl := Option.some.inj hstep
    by_cases hifc : other = ifc
    · subst hifc
      refine h.of_same (Or.inl rfl) ((Function.update_self _ _ _).trans ?_)
      rw [← h.up]
    · exact h.of_same (Or.inl rfl) (Function.update_of_ne (Ne.symm hifc) _ _)

/-- The frames on the way to `sendto`: the one in the buffer and the one the call holds. -/
def onTheWay (ifc : ι) (s : SendState ι) : List (List UInt8) :=
  (s.slots ifc).unsent ++ s.held ifc

/-- The calls of `sendto` for an interface, by the bytes they passed. -/
def sentBy (ifc : ι) (s : SendState ι) : List (List UInt8) := (s.slots ifc).sent

/-- A step that leaves an interface alone, or moves its frame from the call to the buffer. -/
theorem conserves_of_same {event : SendEvent ι} (hpopped : event.popped ifc = [])
    (hway : s'.onTheWay ifc = s.onTheWay ifc) (hsent : s'.sentBy ifc = s.sentBy ifc) :
    ∃ taken : List (List UInt8), s.onTheWay ifc ++ event.popped ifc = taken ++ s'.onTheWay ifc ∧
      s'.sentBy ifc = s.sentBy ifc ++ sendable taken := by
  refine ⟨[], ?_, hsent.trans (List.append_nil _).symm⟩
  rw [hpopped, List.append_nil, hway, List.nil_append]

/-- No step loses, doubles or overtakes a frame. -/
theorem Orderly.conserves {event : SendEvent ι} (h : s.Orderly ifc)
    (haccepts : s.Accepts ifc event) (hstep : s.Step event s') :
    ∃ taken : List (List UInt8), s.onTheWay ifc ++ event.popped ifc = taken ++ s'.onTheWay ifc ∧
      s'.sentBy ifc = s.sentBy ifc ++ sendable taken := by
  have hsame : event.popped ifc = [] → Stays s.call s'.call → s'.slots ifc = s.slots ifc →
      ∃ taken : List (List UInt8), s.onTheWay ifc ++ event.popped ifc = taken ++ s'.onTheWay ifc ∧
        s'.sentBy ifc = s.sentBy ifc ++ sendable taken := by
    intro hpopped hcall hslot
    refine conserves_of_same hpopped ?_ ?_
    · rw [onTheWay, onTheWay, held_of_stays hcall, hslot]
    · rw [sentBy, sentBy, hslot]
  cases event with
  | pop other frame =>
    obtain ⟨hcall, rfl⟩ := step_pop hstep
    refine ⟨[], ?_, (List.append_nil _).symm⟩
    simp [onTheWay, held, hcall, SendEvent.popped, heldAt]
  | sender =>
    obtain ⟨call, hcall, hsender⟩ := Option.bind_eq_some_iff.mp hstep
    obtain ⟨slot', pc', hfill, hslots, hafter⟩ := senderStep_fill hsender
    have hheld : s'.held ifc = if call.ifc = ifc then heldAt call.frame pc' else [] := by
      unfold held
      rw [hafter]
      cases pc' with
      | none => simp [heldAt]
      | some pc => rfl
    have hheld' : s.held ifc = if call.ifc = ifc then heldAt call.frame (some call.pc) else [] := by
      unfold held
      rw [hcall]
    by_cases hifc : call.ifc = ifc
    · subst hifc
      have hslot : s'.slots call.ifc = slot' := hslots ▸ Function.update_self _ _ _
      obtain ⟨hway, hsent⟩ := h.intact.fill_conserves h.up (h.prepared call hcall rfl) hfill
      refine conserves_of_same rfl ?_ ?_
      · rw [onTheWay, onTheWay, hheld, hheld', if_pos rfl, if_pos rfl, hslot]
        exact hway
      · rw [sentBy, hslot]
        exact hsent
    · have hslot : s'.slots ifc = s.slots ifc :=
        hslots ▸ Function.update_of_ne (Ne.symm hifc) _ _
      refine conserves_of_same rfl ?_ ?_
      · rw [onTheWay, onTheWay, hheld, hheld', if_neg hifc, if_neg hifc, hslot]
      · rw [sentBy, sentBy, hslot]
  | spurious =>
    obtain ⟨call, hcall, hwaits, rfl⟩ := step_spurious hstep
    exact hsame rfl (Or.inr ⟨call, hcall, hwaits, rfl⟩) rfl
  | link other answer =>
    obtain ⟨hslots, hcall⟩ := step_link hstep
    by_cases hifc : other = ifc
    · subst hifc
      have hslot : s'.slots other = (s.slots other).linkStep answer :=
        hslots ▸ Function.update_self _ _ _
      obtain ⟨taken, hway, hsent⟩ := h.intact.linkStep_conserves h.up (haccepts rfl)
      refine ⟨taken, ?_, ?_⟩
      · have hpopped : SendEvent.popped other (.link other answer) = [] := rfl
        rw [onTheWay, onTheWay, held_of_stays hcall, hslot, hway, hpopped, List.append_nil,
          List.append_assoc]
      · rw [sentBy, hslot]
        exact hsent
    · exact hsame rfl hcall (hslots ▸ Function.update_of_ne (Ne.symm hifc) _ _)
  | down other =>
    obtain rfl := Option.some.inj hstep
    exact hsame rfl (Or.inl rfl) (Function.update_of_ne (Ne.symm haccepts) _ _)
  | up other =>
    obtain rfl := Option.some.inj hstep
    by_cases hifc : other = ifc
    · subst hifc
      refine hsame rfl (Or.inl rfl) ((Function.update_self _ _ _).trans ?_)
      rw [← h.up]
    · exact hsame rfl (Or.inl rfl) (Function.update_of_ne (Ne.symm hifc) _ _)

/-- What was popped for an interface and what its link thread has done with it: the frames that
have been through the buffer, of which those with bytes were passed to `sendto`; at most one in the
buffer; and the one the call holds. While `send_data` is at the buffer, it is a whole frame with its
size. -/
structure HandedOver (ifc : ι) (popped : List (List UInt8)) (s : SendState ι) : Prop where
  isPrefix : (s.slots ifc).sent <+: sendable popped
  order : ∃ through buffered : List (List UInt8), popped = through ++ buffered ++ s.held ifc ∧
    buffered.length ≤ 1 ∧ (s.slots ifc).sent = sendable through
  buffer : (s.slots ifc).link.AtBuffer →
    ∃ frame, (s.slots ifc).sbuffer = some frame ∧ (s.slots ifc).sbuffersz = frame.length
  whole : ∀ remBytes, (s.slots ifc).link = .sending remBytes → remBytes ≠ 0 →
    remBytes = (s.slots ifc).sbuffersz

/-- The frames popped for an interface in a run. -/
def poppedFor (ifc : ι) (events : List (SendEvent ι)) : List (List UInt8) :=
  events.flatMap (SendEvent.popped ifc)

omit [DecidableEq ι] in
theorem unsent_length (slot : Slot) : slot.unsent.length ≤ 1 := by
  unfold Slot.unsent
  split
  · exact Nat.zero_le 1
  · exact Nat.zero_le 1
  · exact Nat.zero_le 1
  · exact Nat.zero_le 1
  · split_ifs
    · cases slot.sbuffer with
      | none => exact Nat.zero_le 1
      | some frame => exact Nat.le_refl 1
    · exact Nat.zero_le 1

/-- Whatever frames are popped and however the threads of a node take turns, if an interface stays
up and each call of `sendto` on it takes all it is given, then in every state what is passed to
`sendto` is the beginning of what was popped for the interface, empty frames left out, and besides
the frame the call holds at most one is still to come; and `send_data` is at a whole frame with its
size. -/
theorem frames_handed_over (ifc : ι) {events : List (SendEvent ι)}
    (h : Run (fun s event s' ↦ s.Step event s' ∧ s.Accepts ifc event) start events s) :
    HandedOver ifc (poppedFor ifc events) s := by
  have hkeep : ∀ (s : SendState ι) event s', s.Orderly ifc →
      (s.Step event s' ∧ s.Accepts ifc event) → s'.Orderly ifc :=
    fun _ _ _ horderly hstep ↦ horderly.step hstep.2 hstep.1
  have horderly : s.Orderly ifc := h.invariant hkeep (orderly_start ifc)
  obtain ⟨through, hway, hsent⟩ := h.conserves hkeep
    (fun _ _ _ horderly hstep ↦ horderly.conserves hstep.2 hstep.1) (orderly_start ifc)
  have hpopped : poppedFor ifc events = through ++ ((s.slots ifc).unsent ++ s.held ifc) := hway
  have hthrough : (s.slots ifc).sent = sendable through := hsent
  refine ⟨?_, ⟨through, (s.slots ifc).unsent, ?_, unsent_length _, hthrough⟩, fun hat ↦ ?_,
    fun remBytes hlink hrest ↦ (horderly.intact.whole remBytes hlink).resolve_left hrest⟩
  · rw [hpopped, hthrough, sendable_append]
    exact List.prefix_append _ _
  · rw [List.append_assoc]
    exact hpopped
  · obtain ⟨hdraining, hclearing⟩ := hat.draining
    exact horderly.intact.full (horderly.intact.consistent hdraining) hclearing

end SendState

/-- A frame goes all the way from the queue to `sendto` and the link thread back to its loop. -/
def wholeWay (frame : List UInt8) : List (SendEvent Unit) :=
  [.pop () frame, .sender, .sender, .sender, .sender, .sender, .sender, .sender,
    .link () ⟨true, none⟩, .link () ⟨true, none⟩, .link () ⟨true, none⟩,
    .link () ⟨true, some frame.length⟩, .link () ⟨true, none⟩, .link () ⟨true, none⟩,
    .link () ⟨true, none⟩, .link () ⟨true, none⟩, .link () ⟨true, none⟩]

/-- The frame of two bytes is sent. -/
theorem frames_handed_over_wholeWay : ∃ s, (s.slots ()).sent = [[1, 2]] ∧
    SendState.HandedOver () (SendState.poppedFor () (wholeWay [1, 2])) s := by
  have hfinal : (wholeWay [1, 2]).foldlM (fun (s : SendState Unit) event ↦
      if s.Accepts () event then s.next event else none) SendState.start = some _ := rfl
  exact ⟨_, rfl, SendState.frames_handed_over () (Run.of_foldlM_if hfinal)⟩

/-- A frame of no bytes is popped and then one of one byte: only the second is passed to `sendto`,
which is not the beginning of what was popped. -/
theorem empty_frame_unsent : ∃ s : SendState Unit,
    Run (fun s event s' ↦ s.Step event s' ∧ s.Accepts () event) SendState.start
      ((wholeWay []).dropLast ++ wholeWay [1]) s ∧
    ¬ (s.slots ()).sent <+: SendState.poppedFor () ((wholeWay []).dropLast ++ wholeWay [1]) := by
  have hfinal : ((wholeWay []).dropLast ++ wholeWay [1]).foldlM (fun (s : SendState Unit) event ↦
      if s.Accepts () event then s.next event else none) SendState.start = some _ := rfl
  exact ⟨_, Run.of_foldlM_if hfinal, by decide⟩

end IpRipStack
