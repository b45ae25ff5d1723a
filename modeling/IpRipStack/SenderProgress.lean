import IpRipStack.SendFrame

/-!
# Whether the sender gets on

A frame for an interface whose buffer is full makes the one sending thread of the node wait, so the
link thread of that interface has to come to its signal. It does while the buffer is full and the
interface is up, or while it is about to empty the buffer (`WillSignal`), and then by its own steps
(`WillSignal.reachesSignal`).

Two steps can spoil this (`Harmless`). The link thread clears the flag and signals without the
mutex, so the signal may fall between the sender's test and its wait, and is lost. And `down` takes
a full buffer from the link thread, which goes round in its loop without looking at it.
`sender_served` says that without such a step the sender is never left waiting, and that after the
first one it can be.
-/

set_option autoImplicit false
set_option relaxedAutoImplicit false

namespace IpRipStack

open Runs

/-- The link thread has found the buffer full and has not yet cleared the flag. -/
def LinkPc.Draining : LinkPc → Prop
  | .loading | .sending _ | .freeing | .nulling | .clearing => True
  | .top | .polled | .signalling => False

/-- The call holds the mutex. -/
def SenderPc.Holds : SenderPc → Prop
  | .testing | .parking | .copying | .sizing | .readying | .unlocking => True
  | .entered | .locking | .waiting | .woken => False

/-- The call has passed the test of `s_local` and not yet found the buffer free. -/
def SenderPc.AtTest : SenderPc → Prop
  | .locking | .testing | .parking | .waiting | .woken => True
  | .entered | .copying | .sizing | .readying | .unlocking => False

namespace Slot

/-- A full buffer will be emptied: the link thread is at it, or will find it. -/
def Moving (slot : Slot) : Prop := slot.link.Draining ∨ slot.isOpen = true

/-- If the sender finds the buffer full, it will be emptied. -/
def WillTest (slot : Slot) : Prop := slot.sbufferReady = true → slot.Moving

/-- The link thread will signal: it will empty a full buffer, or has just done so. -/
def WillSignal (slot : Slot) : Prop :=
  (slot.sbufferReady = true ∧ slot.Moving) ∨
    (slot.sbufferReady = false ∧ slot.link = .signalling)

/-- The link thread is only at a buffer that is full. -/
def Consistent (slot : Slot) : Prop := slot.link.Draining → slot.sbufferReady = true

/-- What the position of the call needs of the slot. -/
def Suits (slot : Slot) : SenderPc → Prop
  | .locking | .testing | .woken => slot.WillTest
  | .parking | .waiting => slot.WillSignal
  | .entered | .copying | .sizing | .readying | .unlocking => True

/-- The link thread goes round without looking at the buffer. -/
def Stuck (slot : Slot) : Prop :=
  (slot.link = .top ∨ slot.link = .polled) ∧ (slot.sbufferReady = false ∨ slot.isOpen = false)

/-- The link thread can come to its signal by its own steps. -/
def ReachesSignal (slot : Slot) : Prop :=
  ∃ answers : List Answer, (answers.foldl linkStep slot).link = .signalling

/-! ### A step of the link thread -/

/-- What a step of the link thread does to its position and to the flag: it goes round, takes a full
buffer, gets on with it, clears the flag, or signals. -/
inductive Moved (slot slot' : Slot) : Prop
  | round (before : slot.link = .top ∨ slot.link = .polled)
      (after : slot'.link = .top ∨ slot'.link = .polled)
      (flag : slot'.sbufferReady = slot.sbufferReady)
  | takes (before : slot.link = .polled) (full : slot.sbufferReady = true)
      (up : slot.isOpen = true) (after : slot'.link = .loading)
      (flag : slot'.sbufferReady = slot.sbufferReady)
  | drains (before : slot.link.Draining) (after : slot'.link.Draining)
      (flag : slot'.sbufferReady = slot.sbufferReady)
  | clears (before : slot.link = .clearing) (after : slot'.link = .signalling)
      (flag : slot'.sbufferReady = false)
  | signals (before : slot.link = .signalling) (after : slot'.link = .top)
      (flag : slot'.sbufferReady = slot.sbufferReady)

theorem linkStep_moved (slot : Slot) (answer : Answer) : slot.Moved (slot.linkStep answer) := by
  unfold linkStep
  cases hlink : slot.link with
  | top =>
    refine Moved.round (Or.inl hlink) ?_ rfl
    dsimp only
    split_ifs
    · exact Or.inr rfl
    · exact Or.inl rfl
  | polled =>
    dsimp only
    split_ifs with htaken
    · simp only [Bool.and_eq_true] at htaken
      exact Moved.takes hlink htaken.1.1 htaken.1.2 rfl rfl
    · exact Moved.round (Or.inr hlink) (Or.inl rfl) rfl
  | loading => exact Moved.drains (hlink ▸ trivial) trivial rfl
  | sending remBytes =>
    have hbefore : slot.link.Draining := hlink ▸ trivial
    dsimp only
    split
    · exact Moved.drains hbefore trivial rfl
    · split
      · exact Moved.drains hbefore trivial rfl
      · exact Moved.drains hbefore trivial rfl
  | freeing => exact Moved.drains (hlink ▸ trivial) trivial rfl
  | nulling => exact Moved.drains (hlink ▸ trivial) trivial rfl
  | clearing => exact Moved.clears hlink rfl rfl
  | signalling => exact Moved.signals hlink rfl rfl

/-- A step of the link thread leaves the socket and the mutex alone. -/
theorem linkStep_same (slot : Slot) (answer : Answer) :
    (slot.linkStep answer).isOpen = slot.isOpen ∧
      (slot.linkStep answer).bufferlck = slot.bufferlck := by
  unfold linkStep
  split
  · exact ⟨rfl, rfl⟩
  · exact ⟨rfl, rfl⟩
  · exact ⟨rfl, rfl⟩
  · split
    · exact ⟨rfl, rfl⟩
    · split <;> exact ⟨rfl, rfl⟩
  · exact ⟨rfl, rfl⟩
  · exact ⟨rfl, rfl⟩
  · exact ⟨rfl, rfl⟩
  · exact ⟨rfl, rfl⟩

variable {slot : Slot}

theorem Consistent.linkStep (h : slot.Consistent) (answer : Answer) :
    (slot.linkStep answer).Consistent := by
  intro hdraining
  cases slot.linkStep_moved answer with
  | round before after flag =>
    rcases after with htop | hpolled
    · rw [htop] at hdraining
      exact hdraining.elim
    · rw [hpolled] at hdraining
      exact hdraining.elim
  | takes before full up after flag => exact flag.trans full
  | drains before after flag => exact flag.trans (h before)
  | clears before after flag =>
    rw [after] at hdraining
    exact hdraining.elim
  | signals before after flag =>
    rw [after] at hdraining
    exact hdraining.elim

theorem not_draining_of_round (h : slot.link = .top ∨ slot.link = .polled) :
    ¬ slot.link.Draining := by
  rcases h with htop | hpolled
  · rw [htop]
    exact not_false
  · rw [hpolled]
    exact not_false

theorem WillTest.linkStep (h : slot.WillTest) (answer : Answer) :
    (slot.linkStep answer).WillTest := by
  obtain ⟨hopen, -⟩ := slot.linkStep_same answer
  intro hready
  cases slot.linkStep_moved answer with
  | round before after flag =>
    have hmoving := (h (flag.symm.trans hready)).resolve_left (not_draining_of_round before)
    exact Or.inr (hopen.trans hmoving)
  | takes before full up after flag => exact Or.inr (hopen.trans up)
  | drains before after flag => exact Or.inl after
  | clears before after flag => exact absurd (flag.symm.trans hready) Bool.false_ne_true
  | signals before after flag =>
    have hup : slot.isOpen = true := by
      rcases h (flag.symm.trans hready) with hdraining | hup
      · rw [before] at hdraining
        exact hdraining.elim
      · exact hup
    exact Or.inr (hopen.trans hup)

theorem WillSignal.willTest (h : slot.WillSignal) : slot.WillTest := by
  intro hready
  rcases h with ⟨-, hmoving⟩ | ⟨hempty, -⟩
  · exact hmoving
  · exact absurd (hempty.symm.trans hready) Bool.false_ne_true

theorem WillSignal.full (h : slot.WillSignal) (hlink : slot.link ≠ .signalling) :
    slot.sbufferReady = true := by
  rcases h with ⟨hready, -⟩ | ⟨-, hsignalling⟩
  · exact hready
  · exact absurd hsignalling hlink

/-- Until it signals, the link thread is on its way to it. -/
theorem WillSignal.linkStep (h : slot.WillSignal) (hlink : slot.link ≠ .signalling)
    (answer : Answer) : (slot.linkStep answer).WillSignal := by
  have hready := h.full hlink
  have hmoves := h.willTest.linkStep answer
  cases slot.linkStep_moved answer with
  | round before after flag => exact Or.inl ⟨flag.trans hready, hmoves (flag.trans hready)⟩
  | takes before full up after flag =>
    exact Or.inl ⟨flag.trans hready, hmoves (flag.trans hready)⟩
  | drains before after flag => exact Or.inl ⟨flag.trans hready, Or.inl after⟩
  | clears before after flag => exact Or.inr ⟨flag, after⟩
  | signals before after flag => exact absurd before hlink

theorem Stuck.linkStep (h : slot.Stuck) (answer : Answer) : (slot.linkStep answer).Stuck := by
  obtain ⟨hround, hnothing⟩ := h
  obtain ⟨hopen, -⟩ := slot.linkStep_same answer
  cases slot.linkStep_moved answer with
  | round before after flag =>
    rw [← flag, ← hopen] at hnothing
    exact ⟨after, hnothing⟩
  | takes before full up after flag =>
    rw [full, up] at hnothing
    exact absurd hnothing (by decide)
  | drains before after flag => exact absurd before (not_draining_of_round hround)
  | clears before after flag => exact absurd (before ▸ trivial) (not_draining_of_round hround)
  | signals before after flag =>
    rw [before] at hround
    exact absurd hround (by decide)

theorem Suits.linkStep {pc : SenderPc} (h : slot.Suits pc) (hlink : slot.link ≠ .signalling)
    (answer : Answer) : (slot.linkStep answer).Suits pc := by
  cases pc with
  | locking => exact WillTest.linkStep h answer
  | testing => exact WillTest.linkStep h answer
  | woken => exact WillTest.linkStep h answer
  | parking => exact WillSignal.linkStep h hlink answer
  | waiting => exact WillSignal.linkStep h hlink answer
  | _ => trivial

/-- A signal leaves the slot such as the call needs it, unless it is lost on a call that is about to
wait. -/
theorem Suits.signal {pc : SenderPc} (h : slot.Suits pc) (hlink : slot.link = .signalling)
    (hparking : pc = .parking → slot.sbufferReady = true ∧ slot.isOpen = true) (answer : Answer) :
    (slot.linkStep answer).Suits (if pc = .waiting then .woken else pc) := by
  cases pc with
  | locking => exact WillTest.linkStep h answer
  | testing => exact WillTest.linkStep h answer
  | woken => exact WillTest.linkStep h answer
  | waiting => exact (WillSignal.willTest h).linkStep answer
  | parking =>
    obtain ⟨hready, hup⟩ := hparking rfl
    obtain ⟨hopen, -⟩ := slot.linkStep_same answer
    have hflag : (slot.linkStep answer).sbufferReady = slot.sbufferReady := by
      simp [Slot.linkStep, hlink]
    exact Or.inl ⟨hflag.trans hready, Or.inr (hopen.trans hup)⟩
  | _ => trivial

/-! ### The way to the signal -/

theorem ReachesSignal.of_linkStep (answer : Answer) (h : (slot.linkStep answer).ReachesSignal) :
    slot.ReachesSignal := by
  obtain ⟨answers, hsignal⟩ := h
  exact ⟨answer :: answers, hsignal⟩

/-- From every position at a full buffer the link thread comes to its signal. -/
theorem reachesSignal_of_draining (h : slot.link.Draining) : slot.ReachesSignal := by
  let answer : Answer := ⟨true, none⟩
  have hclearing : ∀ slot : Slot, slot.link = .clearing → slot.ReachesSignal := by
    intro slot hlink
    refine ⟨[answer], ?_⟩
    simp [Slot.linkStep, hlink]
  have hnulling : ∀ slot : Slot, slot.link = .nulling → slot.ReachesSignal := by
    intro slot hlink
    refine ReachesSignal.of_linkStep answer (hclearing _ ?_)
    simp [Slot.linkStep, hlink]
  have hfreeing : ∀ slot : Slot, slot.link = .freeing → slot.ReachesSignal := by
    intro slot hlink
    refine ReachesSignal.of_linkStep answer (hnulling _ ?_)
    simp [Slot.linkStep, hlink]
  have hsent : ∀ slot : Slot, slot.link = .sending 0 → slot.ReachesSignal := by
    intro slot hlink
    refine ReachesSignal.of_linkStep answer (hfreeing _ ?_)
    simp [Slot.linkStep, hlink]
  have hsending : ∀ (slot : Slot) (remBytes : ℕ), slot.link = .sending remBytes →
      slot.ReachesSignal := by
    intro slot remBytes hlink
    by_cases hzero : remBytes = 0
    · exact hsent slot (hzero ▸ hlink)
    · cases hup : slot.isOpen with
      | true =>
        -- the system takes all that is left
        refine ReachesSignal.of_linkStep ⟨true, some remBytes⟩ (hsent _ ?_)
        simp [Slot.linkStep, hlink, hzero, hup]
      | false =>
        refine ReachesSignal.of_linkStep answer (hfreeing _ ?_)
        simp [Slot.linkStep, hlink, hzero, hup]
  cases hlink : slot.link with
  | loading =>
    refine ReachesSignal.of_linkStep answer (hsending _ slot.sbuffersz ?_)
    simp [Slot.linkStep, hlink]
  | sending remBytes => exact hsending slot remBytes hlink
  | freeing => exact hfreeing slot hlink
  | nulling => exact hnulling slot hlink
  | clearing => exact hclearing slot hlink
  | top => exact absurd h (not_draining_of_round (Or.inl hlink))
  | polled => exact absurd h (not_draining_of_round (Or.inr hlink))
  | signalling =>
    rw [hlink] at h
    exact h.elim

theorem WillSignal.reachesSignal (h : slot.WillSignal) : slot.ReachesSignal := by
  let answer : Answer := ⟨true, none⟩
  rcases h with ⟨hready, hdraining | hup⟩ | ⟨-, hlink⟩
  · exact reachesSignal_of_draining hdraining
  · have hpolled : ∀ slot : Slot, slot.link = .polled → slot.sbufferReady = true →
        slot.isOpen = true → slot.ReachesSignal := by
      intro slot hlink hready hup
      refine ReachesSignal.of_linkStep answer (reachesSignal_of_draining ?_)
      simp [Slot.linkStep, hlink, hready, hup, answer, LinkPc.Draining]
    by_cases hdraining : slot.link.Draining
    · exact reachesSignal_of_draining hdraining
    · cases hlink : slot.link with
      | top =>
        refine ReachesSignal.of_linkStep answer (hpolled _ ?_ ?_ ?_)
        · simp [Slot.linkStep, hlink, hup]
        · simp [Slot.linkStep, hlink, hready]
        · simp [Slot.linkStep, hlink, hup]
      | polled => exact hpolled slot hlink hready hup
      | signalling => exact ⟨[], hlink⟩
      | _ => exact absurd (hlink ▸ trivial) hdraining
  · exact ⟨[], hlink⟩

end Slot

namespace SendState

variable {ι : Type*} [DecidableEq ι]

/-- The sender does not wait, or the link thread of the interface it waits for can come, by its own
steps, to the signal that wakes it. -/
def Served (s : SendState ι) : Prop :=
  ∀ call, s.call = some call → call.pc = .waiting → ∃ (answers : List Answer) (s' : SendState ι),
    Run Step s (answers.map (SendEvent.link call.ifc)) s' ∧ s'.call = some { call with pc := .woken }

/-- A step does not spoil it: a signal does not fall between the sender's test and its wait, unless
the buffer is full again and the interface up; and an interface is not taken down while the sender
is at a full buffer that the link thread has not taken. -/
def Harmless (s : SendState ι) : SendEvent ι → Prop
  | .link ifc _ => (s.slots ifc).link = .signalling → ∀ call, s.call = some call → call.ifc = ifc →
      call.pc = .parking → (s.slots ifc).sbufferReady = true ∧ (s.slots ifc).isOpen = true
  | .down ifc => ∀ call, s.call = some call → call.ifc = ifc → call.pc.AtTest →
      (s.slots ifc).sbufferReady = true → (s.slots ifc).link.Draining
  | _ => True

/-- What holds between steps: each slot is consistent and is locked only by the call in progress,
and the slot of that call suits its position. -/
structure Tracked (s : SendState ι) : Prop where
  consistent : ∀ ifc, (s.slots ifc).Consistent
  locked : ∀ ifc, (s.slots ifc).bufferlck = true → ∃ call, s.call = some call ∧ call.ifc = ifc ∧
    call.pc.Holds
  suits : ∀ call, s.call = some call → (s.slots call.ifc).Suits call.pc

omit [DecidableEq ι] in
theorem tracked_start : (start : SendState ι).Tracked :=
  ⟨fun _ hdraining ↦ hdraining.elim, fun _ hlocked ↦ absurd hlocked Bool.false_ne_true,
    fun call hcall ↦ absurd hcall.symm (Option.some_ne_none call)⟩

/-! ### What a step keeps -/

/-- A packet is popped while no call is in progress. -/
theorem step_pop {s s' : SendState ι} {ifc : ι} {frame : List UInt8}
    (hstep : s.Step (.pop ifc frame) s') :
    s.call = none ∧ s' = { s with call := some ⟨ifc, frame, .entered⟩ } := by
  cases hcall : s.call with
  | none =>
    simp only [Step, next, hcall] at hstep
    exact ⟨rfl, (Option.some.inj hstep).symm⟩
  | some call =>
    simp only [Step, next, hcall] at hstep
    exact absurd hstep.symm (Option.some_ne_none s')

/-- A call that waits is woken. -/
theorem step_spurious {s s' : SendState ι} (hstep : s.Step .spurious s') :
    ∃ call, s.call = some call ∧ call.pc = .waiting ∧ s' = s.setCall call .woken := by
  cases hcall : s.call with
  | none =>
    simp only [Step, next, hcall] at hstep
    exact absurd hstep.symm (Option.some_ne_none s')
  | some call =>
    simp only [Step, next, hcall] at hstep
    split_ifs at hstep with hwaits
    exact ⟨call, rfl, hwaits, (Option.some.inj hstep).symm⟩

/-- A slot that changes without its mutex. -/
theorem bufferlck_update {slots : ι → Slot} {ifc : ι} {slot' : Slot}
    (h : slot'.bufferlck = (slots ifc).bufferlck) (j : ι) :
    (Function.update slots ifc slot' j).bufferlck = (slots j).bufferlck := by
  by_cases hsame : j = ifc
  · rw [hsame, Function.update_self, h]
  · rw [Function.update_of_ne hsame]

/-- One slot and the call change. -/
theorem Tracked.update {s : SendState ι} (h : s.Tracked) {ifc : ι} {slot' : Slot}
    {call' : Option (Call ι)} (hconsistent : slot'.Consistent)
    (hlocked : ∀ j, (Function.update s.slots ifc slot' j).bufferlck = true →
      ∃ call, call' = some call ∧ call.ifc = j ∧ call.pc.Holds)
    (hsuits : ∀ call, call' = some call → (Function.update s.slots ifc slot' call.ifc).Suits call.pc) :
    Tracked ⟨Function.update s.slots ifc slot', call'⟩ := by
  refine ⟨fun j ↦ ?_, hlocked, hsuits⟩
  change (Function.update s.slots ifc slot' j).Consistent
  by_cases hj : j = ifc
  · rw [hj, Function.update_self]
    exact hconsistent
  · rw [Function.update_of_ne hj]
    exact h.consistent j

omit [DecidableEq ι] in
/-- Only the slot of the call is locked. -/
theorem Tracked.holds {s : SendState ι} (h : s.Tracked) {call : Call ι} (hcall : s.call = some call)
    {ifc : ι} (hlocked : (s.slots ifc).bufferlck = true) : call.ifc = ifc ∧ call.pc.Holds := by
  obtain ⟨call', hcall', hifc, hholds⟩ := h.locked ifc hlocked
  obtain rfl := Option.some.inj (hcall.symm.trans hcall')
  exact ⟨hifc, hholds⟩

/-- The call goes on and may change its slot. -/
theorem Tracked.goesOn {s : SendState ι} (h : s.Tracked) {call : Call ι} (hcall : s.call = some call)
    {slot' : Slot} {pc : SenderPc} (hconsistent : slot'.Consistent)
    (hlocked : slot'.bufferlck = true → pc.Holds) (hsuits : slot'.Suits pc) :
    ((s.setSlot call.ifc slot').setCall call pc).Tracked := by
  refine h.update hconsistent (fun j hj ↦ ?_) fun call' hcall' ↦ ?_
  · by_cases hsame : j = call.ifc
    · rw [hsame, Function.update_self] at hj
      exact ⟨_, rfl, hsame.symm, hlocked hj⟩
    · rw [Function.update_of_ne hsame] at hj
      exact absurd (h.holds hcall hj).1.symm hsame
  · obtain rfl := Option.some.inj hcall'
    change (Function.update s.slots call.ifc slot' call.ifc).Suits pc
    rw [Function.update_self]
    exact hsuits

theorem setSlot_self (s : SendState ι) (ifc : ι) : s.setSlot ifc (s.slots ifc) = s := by
  unfold setSlot
  rw [Function.update_eq_self]

/-- The call returns. -/
theorem Tracked.returns {s : SendState ι} (h : s.Tracked) {call : Call ι} (hcall : s.call = some call)
    {slot' : Slot} (hconsistent : slot'.Consistent) (hfree : slot'.bufferlck = false) :
    Tracked { s.setSlot call.ifc slot' with call := none } := by
  refine h.update hconsistent (fun j hj ↦ ?_) fun call' hnone ↦
    absurd hnone.symm (Option.some_ne_none call')
  by_cases hsame : j = call.ifc
  · rw [hsame, Function.update_self, hfree] at hj
    exact absurd hj Bool.false_ne_true
  · rw [Function.update_of_ne hsame] at hj
    exact absurd (h.holds hcall hj).1.symm hsame

theorem Tracked.senderStep {s s' : SendState ι} (h : s.Tracked) {call : Call ι}
    (hcall : s.call = some call) (hstep : s.senderStep call = some s') : s'.Tracked := by
  have hconsistent := h.consistent call.ifc
  have hsuits := h.suits call hcall
  have hlocked : (s.slots call.ifc).bufferlck = true → call.pc.Holds := fun hl ↦ (h.holds hcall hl).2
  obtain ⟨ifc, frame, pc⟩ := call
  cases pc with
  | entered =>
    simp only [SendState.senderStep] at hstep
    split_ifs at hstep with hopen
    · obtain rfl := Option.some.inj hstep
      rw [← s.setSlot_self ifc]
      exact h.goesOn hcall hconsistent (fun hl ↦ (hlocked hl).elim) fun _ ↦ Or.inr hopen
    · obtain rfl := Option.some.inj hstep
      have hfree : (s.slots ifc).bufferlck = false := Bool.eq_false_iff.mpr hlocked
      have hreturns := h.returns hcall hconsistent hfree
      rwa [s.setSlot_self] at hreturns
  | locking =>
    simp only [SendState.senderStep] at hstep
    split_ifs at hstep
    obtain rfl := Option.some.inj hstep
    exact h.goesOn hcall hconsistent (fun _ ↦ trivial) hsuits
  | woken =>
    simp only [SendState.senderStep] at hstep
    split_ifs at hstep
    obtain rfl := Option.some.inj hstep
    exact h.goesOn hcall hconsistent (fun _ ↦ trivial) hsuits
  | testing =>
    simp only [SendState.senderStep] at hstep
    rw [← s.setSlot_self ifc] at hstep
    split_ifs at hstep with hready
    · obtain rfl := Option.some.inj hstep
      rw [s.setSlot_self ifc] at hready
      exact h.goesOn hcall hconsistent (fun _ ↦ trivial) (Or.inl ⟨hready, hsuits hready⟩)
    · obtain rfl := Option.some.inj hstep
      exact h.goesOn hcall hconsistent (fun _ ↦ trivial) trivial
  | parking =>
    obtain rfl := Option.some.inj hstep
    exact h.goesOn hcall hconsistent (fun hl ↦ absurd hl Bool.false_ne_true) hsuits
  | waiting => exact absurd hstep.symm (Option.some_ne_none s')
  | copying =>
    obtain rfl := Option.some.inj hstep
    exact h.goesOn hcall hconsistent (fun _ ↦ trivial) trivial
  | sizing =>
    obtain rfl := Option.some.inj hstep
    exact h.goesOn hcall hconsistent (fun _ ↦ trivial) trivial
  | readying =>
    obtain rfl := Option.some.inj hstep
    exact h.goesOn hcall (fun _ ↦ rfl) (fun _ ↦ trivial) trivial
  | unlocking =>
    obtain rfl := Option.some.inj hstep
    exact h.returns hcall hconsistent rfl

theorem wake_ifc (ifc : ι) (call : Call ι) : (wake ifc call).ifc = call.ifc := by
  unfold wake
  split_ifs <;> rfl

theorem wake_pc (ifc : ι) (call : Call ι) :
    (wake ifc call).pc = if call.ifc = ifc ∧ call.pc = .waiting then .woken else call.pc := by
  unfold wake
  split_ifs <;> rfl

/-- A call that holds the mutex does not wait. -/
theorem wake_of_holds (ifc : ι) {call : Call ι} (h : call.pc.Holds) : wake ifc call = call := by
  refine if_neg fun hwaits ↦ ?_
  rw [hwaits.2] at h
  exact h

theorem Tracked.linkStep {s : SendState ι} (h : s.Tracked) {ifc : ι} {answer : Answer}
    (hharmless : s.Harmless (.link ifc answer)) {s' : SendState ι}
    (hstep : s.Step (.link ifc answer) s') : s'.Tracked := by
  obtain rfl := Option.some.inj hstep
  obtain ⟨-, hlock⟩ := (s.slots ifc).linkStep_same answer
  refine h.update ((h.consistent ifc).linkStep answer) (fun j hj ↦ ?_) fun call' hcall' ↦ ?_
  · rw [bufferlck_update hlock] at hj
    obtain ⟨call, hcall, hifc, hholds⟩ := h.locked j hj
    refine ⟨call, ?_, hifc, hholds⟩
    rw [hcall, Option.map_some, wake_of_holds ifc hholds, ite_self]
  · split_ifs at hcall' with hlink
    · obtain ⟨call, hcall, rfl⟩ := Option.map_eq_some_iff.mp hcall'
      have hsuits := h.suits call hcall
      rw [wake_ifc, wake_pc]
      by_cases hsame : call.ifc = ifc
      · rw [hsame, Function.update_self]
        rw [hsame] at hsuits
        have hsignal := hsuits.signal hlink (hharmless hlink call hcall hsame) answer
        simpa only [true_and] using hsignal
      · rw [Function.update_of_ne hsame, if_neg fun hwaits ↦ hsame hwaits.1]
        exact hsuits
    · have hsuits := h.suits call' hcall'
      by_cases hsame : call'.ifc = ifc
      · rw [hsame, Function.update_self]
        rw [hsame] at hsuits
        exact hsuits.linkStep hlink answer
      · rw [Function.update_of_ne hsame]
        exact hsuits

/-- An interface is taken down or up. -/
theorem Tracked.setOpen {s : SendState ι} (h : s.Tracked) {ifc : ι} {isOpen : Bool}
    (hdown : isOpen = false → ∀ call, s.call = some call → call.ifc = ifc → call.pc.AtTest →
      (s.slots ifc).sbufferReady = true → (s.slots ifc).link.Draining) :
    (s.setSlot ifc { s.slots ifc with isOpen := isOpen }).Tracked := by
  refine h.update (h.consistent ifc) (fun j hj ↦ ?_) fun call hcall ↦ ?_
  · have hlock : { s.slots ifc with isOpen := isOpen }.bufferlck = (s.slots ifc).bufferlck := rfl
    rw [bufferlck_update hlock] at hj
    exact h.locked j hj
  · have hsuits := h.suits call hcall
    by_cases hsame : call.ifc = ifc
    · rw [hsame, Function.update_self]
      rw [hsame] at hsuits
      have hmoving : call.pc.AtTest → (s.slots ifc).sbufferReady = true →
          Slot.Moving { s.slots ifc with isOpen := isOpen } := by
        intro hattest hready
        cases isOpen with
        | true => exact Or.inr rfl
        | false => exact Or.inl (hdown rfl call hcall hsame hattest hready)
      cases hpc : call.pc with
      | locking => exact hmoving (hpc ▸ trivial)
      | testing => exact hmoving (hpc ▸ trivial)
      | woken => exact hmoving (hpc ▸ trivial)
      | parking =>
        rw [hpc] at hsuits
        exact hsuits.imp_left fun hfull ↦ ⟨hfull.1, hmoving (hpc ▸ trivial) hfull.1⟩
      | waiting =>
        rw [hpc] at hsuits
        exact hsuits.imp_left fun hfull ↦ ⟨hfull.1, hmoving (hpc ▸ trivial) hfull.1⟩
      | _ => trivial
    · rw [Function.update_of_ne hsame]
      exact hsuits

/-- The step lemma. -/
theorem Tracked.step {s s' : SendState ι} {event : SendEvent ι} (h : s.Tracked)
    (hharmless : s.Harmless event) (hstep : s.Step event s') : s'.Tracked := by
  cases event with
  | pop ifc frame =>
    obtain ⟨hcall, rfl⟩ := step_pop hstep
    refine ⟨h.consistent, fun j hj ↦ ?_, fun call hnew ↦ ?_⟩
    · obtain ⟨call, hsome, -⟩ := h.locked j hj
      exact absurd (hcall.symm.trans hsome).symm (Option.some_ne_none call)
    · obtain rfl := Option.some.inj hnew
      trivial
  | sender =>
    obtain ⟨call, hcall, hsender⟩ := Option.bind_eq_some_iff.mp hstep
    exact h.senderStep hcall hsender
  | spurious =>
    obtain ⟨call, hcall, hwaits, rfl⟩ := step_spurious hstep
    have hsuits := h.suits call hcall
    rw [hwaits] at hsuits
    rw [← s.setSlot_self call.ifc]
    refine h.goesOn hcall (h.consistent call.ifc) (fun hlocked ↦ ?_) (Slot.WillSignal.willTest hsuits)
    have hholds := (h.holds hcall hlocked).2
    rw [hwaits] at hholds
    exact hholds
  | link ifc answer => exact h.linkStep hharmless hstep
  | down ifc =>
    obtain rfl := Option.some.inj hstep
    exact h.setOpen fun _ ↦ hharmless
  | up ifc =>
    obtain rfl := Option.some.inj hstep
    exact h.setOpen fun hclosed ↦ absurd hclosed.symm Bool.false_ne_true

/-! ### What the invariant says of a sender that waits -/

/-- A link thread that can come to its signal wakes the sender. -/
theorem wakes_of_reachesSignal {call : Call ι} (hwaits : call.pc = .waiting) :
    ∀ {s : SendState ι}, s.call = some call → (s.slots call.ifc).ReachesSignal →
      ∃ (answers : List Answer) (s' : SendState ι),
        Run Step s (answers.map (SendEvent.link call.ifc)) s' ∧
          s'.call = some { call with pc := .woken } := by
  rintro s hcall ⟨answers, hsignal⟩
  induction answers generalizing s with
  | nil =>
    refine ⟨[⟨true, none⟩], _, Run.single rfl, ?_⟩
    have hlink : (s.slots call.ifc).link = .signalling := hsignal
    simp only [hlink, hcall, if_true, Option.map_some, wake, hwaits, and_self]
  | cons answer answers ih =>
    by_cases hlink : (s.slots call.ifc).link = .signalling
    · refine ⟨[answer], _, Run.single rfl, ?_⟩
      simp only [hlink, hcall, if_true, Option.map_some, wake, hwaits, and_self]
    · let between : SendState ι :=
        { slots := Function.update s.slots call.ifc ((s.slots call.ifc).linkStep answer)
          call := s.call }
      have hstep : s.Step (.link call.ifc answer) between := by
        simp only [Step, next, hlink, if_false, between]
      have hslot : between.slots call.ifc = (s.slots call.ifc).linkStep answer :=
        Function.update_self _ _ _
      obtain ⟨rest, s', hrun, hwoken⟩ := ih (s := between) hcall (hslot ▸ hsignal)
      exact ⟨answer :: rest, s', Run.cons hstep hrun, hwoken⟩

theorem Tracked.served {s : SendState ι} (h : s.Tracked) : s.Served := by
  intro call hcall hwaits
  have hsuits := h.suits call hcall
  rw [hwaits] at hsuits
  exact wakes_of_reachesSignal hwaits hcall (Slot.WillSignal.reachesSignal hsuits)

/-- A link thread that goes round without looking at the buffer never wakes the sender. -/
theorem not_served_of_stuck {s : SendState ι} {call : Call ι} (hcall : s.call = some call)
    (hwaits : call.pc = .waiting) (hstuck : (s.slots call.ifc).Stuck) : ¬ s.Served := by
  intro hserved
  obtain ⟨answers, s', hrun, hwoken⟩ := hserved call hcall hwaits
  have hstays : s'.call = some call := by
    clear hwoken hserved
    induction answers generalizing s with
    | nil => rwa [run_nil_iff.mp hrun]
    | cons answer answers ih =>
      obtain ⟨between, hstep, hrest⟩ := run_cons_iff.mp hrun
      obtain rfl := Option.some.inj hstep
      have hlink : (s.slots call.ifc).link ≠ .signalling := by
        intro hsignalling
        have hround := hstuck.1
        rw [hsignalling] at hround
        exact absurd hround (by decide)
      refine ih ?_ ?_ hrest
      · change (if (s.slots call.ifc).link = .signalling then s.call.map (wake call.ifc)
          else s.call) = some call
        rw [if_neg hlink, hcall]
      · change (Function.update s.slots call.ifc _ call.ifc).Stuck
        rw [Function.update_self]
        exact hstuck.linkStep answer
  rw [hstays] at hwoken
  have hpc := congrArg Call.pc (Option.some.inj hwoken)
  rw [hwaits] at hpc
  exact SenderPc.noConfusion hpc

/-! ### What a step that is not harmless leads to -/

/-- A call that is about to wait for a link thread that goes round waits for it. -/
theorem exists_unserved_of_parking {s : SendState ι} {call : Call ι} (hcall : s.call = some call)
    (hparking : call.pc = .parking) (hstuck : (s.slots call.ifc).Stuck) :
    ∃ (later : List (SendEvent ι)) (t : SendState ι), Run Step s later t ∧ ¬ t.Served := by
  obtain ⟨ifc, frame, pc⟩ := call
  obtain rfl : pc = .parking := hparking
  let slot := { s.slots ifc with bufferlck := false }
  let waits : SendState ι := (s.setSlot ifc slot).setCall ⟨ifc, frame, .parking⟩ .waiting
  have hstep : s.Step .sender waits := by
    simp only [Step, next, hcall]
    rfl
  have hslot : waits.slots ifc = slot := Function.update_self _ _ _
  exact ⟨[.sender], waits, Run.single hstep, not_served_of_stuck rfl rfl (hslot ▸ hstuck)⟩

/-- The sender comes to wait for a link thread that goes round. Assumes: a call at the test of a
full buffer, of an interface that is down, which it has locked or can lock. -/
theorem exists_unserved {s : SendState ι} {call : Call ι} (hcall : s.call = some call)
    (hattest : call.pc.AtTest) (hfree : (s.slots call.ifc).bufferlck = true → call.pc.Holds)
    (hready : (s.slots call.ifc).sbufferReady = true) (hstuck : (s.slots call.ifc).Stuck) :
    ∃ (later : List (SendEvent ι)) (t : SendState ι), Run Step s later t ∧ ¬ t.Served := by
  obtain ⟨ifc, frame, pc⟩ := call
  have htesting : ∀ s : SendState ι, s.call = some ⟨ifc, frame, .testing⟩ →
      (s.slots ifc).sbufferReady = true → (s.slots ifc).Stuck →
        ∃ (later : List (SendEvent ι)) (t : SendState ι), Run Step s later t ∧ ¬ t.Served := by
    intro s hcall hready hstuck
    have hstep : s.Step .sender (s.setCall ⟨ifc, frame, .testing⟩ .parking) := by
      simp only [Step, next, hcall]
      exact if_pos hready
    obtain ⟨later, t, hrun, hunserved⟩ :=
      exists_unserved_of_parking (s := s.setCall ⟨ifc, frame, .testing⟩ .parking) rfl rfl hstuck
    exact ⟨.sender :: later, t, Run.cons hstep hrun, hunserved⟩
  have hlocking : (s.slots ifc).bufferlck = false → (pc = .locking ∨ pc = .woken) →
      ∃ (later : List (SendEvent ι)) (t : SendState ι), Run Step s later t ∧ ¬ t.Served := by
    intro hunlocked hpc
    let slot := { s.slots ifc with bufferlck := true }
    let tests : SendState ι := (s.setSlot ifc slot).setCall ⟨ifc, frame, pc⟩ .testing
    have hstep : s.Step .sender tests := by
      rcases hpc with rfl | rfl
      · simp only [Step, next, hcall]
        exact if_neg (hunlocked ▸ Bool.false_ne_true)
      · simp only [Step, next, hcall]
        exact if_neg (hunlocked ▸ Bool.false_ne_true)
    have hslot : tests.slots ifc = slot := Function.update_self _ _ _
    obtain ⟨later, t, hrun, hunserved⟩ := htesting tests rfl (hslot ▸ hready) (hslot ▸ hstuck)
    exact ⟨.sender :: later, t, Run.cons hstep hrun, hunserved⟩
  cases pc with
  | locking => exact hlocking (Bool.eq_false_iff.mpr hfree) (Or.inl rfl)
  | woken => exact hlocking (Bool.eq_false_iff.mpr hfree) (Or.inr rfl)
  | testing => exact htesting s hcall hready hstuck
  | parking => exact exists_unserved_of_parking hcall rfl hstuck
  | waiting => exact ⟨[], s, Run.nil s, not_served_of_stuck hcall rfl hstuck⟩
  | _ => exact hattest.elim

/-- After a signal that is lost the sender can be left waiting. -/
theorem Tracked.exists_unserved_link {s s' : SendState ι} (h : s.Tracked) {ifc : ι} {answer : Answer}
    (hstep : s.Step (.link ifc answer) s') (hharm : ¬ s.Harmless (.link ifc answer)) :
    ∃ (later : List (SendEvent ι)) (t : SendState ι), Run Step s' later t ∧ ¬ t.Served := by
  simp only [Harmless] at hharm
  push Not at hharm
  obtain ⟨hlink, call, hcall, rfl, hparking, hgone⟩ := hharm
  obtain rfl := Option.some.inj hstep
  have hsuits := h.suits call hcall
  rw [hparking] at hsuits
  have hempty : (s.slots call.ifc).sbufferReady = false := by
    rcases hsuits with ⟨hready, hdraining | hup⟩ | ⟨hempty, -⟩
    · rw [hlink] at hdraining
      exact hdraining.elim
    · exact absurd hup (hgone hready)
    · exact hempty
  have hstuck : ((s.slots call.ifc).linkStep answer).Stuck := by
    unfold Slot.linkStep
    rw [hlink]
    exact ⟨Or.inl rfl, Or.inl hempty⟩
  let lost : SendState ι :=
    ⟨Function.update s.slots call.ifc ((s.slots call.ifc).linkStep answer), some call⟩
  have hlost : lost.slots call.ifc = (s.slots call.ifc).linkStep answer := Function.update_self _ _ _
  have hcalls : (if (s.slots call.ifc).link = .signalling then s.call.map (wake call.ifc) else s.call) =
      some call := by
    rw [if_pos hlink, hcall, Option.map_some]
    refine congrArg some (if_neg fun hwaits ↦ ?_)
    rw [hparking] at hwaits
    exact SenderPc.noConfusion hwaits.2
  rw [hcalls]
  exact exists_unserved_of_parking (s := lost) rfl hparking (hlost ▸ hstuck)

/-- After an interface is taken down with the sender at its full buffer, the sender can be left
waiting. -/
theorem Tracked.exists_unserved_down {s s' : SendState ι} (h : s.Tracked) {ifc : ι}
    (hstep : s.Step (.down ifc) s') (hharm : ¬ s.Harmless (.down ifc)) :
    ∃ (later : List (SendEvent ι)) (t : SendState ι), Run Step s' later t ∧ ¬ t.Served := by
  simp only [Harmless] at hharm
  push Not at hharm
  obtain ⟨call, hcall, rfl, hattest, hready, hround⟩ := hharm
  obtain rfl := Option.some.inj hstep
  let closed := { s.slots call.ifc with isOpen := false }
  have hclosed : (s.setSlot call.ifc closed).slots call.ifc = closed := Function.update_self _ _ _
  have hfree : (s.slots call.ifc).bufferlck = true → call.pc.Holds := fun hl ↦ (h.holds hcall hl).2
  by_cases hlink : (s.slots call.ifc).link = .signalling
  · -- one more signal, after which the link thread goes round
    let answer : Answer := ⟨true, none⟩
    have hsignal : closed.linkStep answer = { closed with link := .top } := by
      unfold Slot.linkStep
      rw [show closed.link = .signalling from hlink]
    let signalled : SendState ι :=
      ⟨Function.update (s.setSlot call.ifc closed).slots call.ifc (closed.linkStep answer),
        some (wake call.ifc call)⟩
    have hslot : signalled.slots (wake call.ifc call).ifc = { closed with link := .top } := by
      rw [wake_ifc, ← hsignal]
      exact Function.update_self _ _ _
    have hstep : (s.setSlot call.ifc closed).Step (.link call.ifc answer) signalled := by
      simp only [Step, next, signalled, hclosed]
      rw [if_pos (show closed.link = .signalling from hlink)]
      rw [show (s.setSlot call.ifc closed).call = some call from hcall, Option.map_some]
    have hwoken : (wake call.ifc call).pc = .woken ∨ wake call.ifc call = call := by
      unfold wake
      split_ifs
      · exact Or.inl rfl
      · exact Or.inr rfl
    have hattest' : (wake call.ifc call).pc.AtTest := by
      rcases hwoken with hpc | hsame
      · rw [hpc]
        trivial
      · rwa [hsame]
    have hfree' : (signalled.slots (wake call.ifc call).ifc).bufferlck = true →
        (wake call.ifc call).pc.Holds := by
      intro hl
      rw [hslot] at hl
      rw [wake_of_holds _ (hfree hl)]
      exact hfree hl
    have hstuck : (signalled.slots (wake call.ifc call).ifc).Stuck := by
      rw [hslot]
      exact ⟨Or.inl rfl, Or.inr rfl⟩
    obtain ⟨later, t, hrun, hunserved⟩ :=
      exists_unserved (s := signalled) rfl hattest' hfree' (hslot ▸ hready) hstuck
    exact ⟨_, t, Run.cons hstep hrun, hunserved⟩
  · have hgoes : (s.slots call.ifc).link = .top ∨ (s.slots call.ifc).link = .polled := by
      cases hpc : (s.slots call.ifc).link with
      | top => exact Or.inl rfl
      | polled => exact Or.inr rfl
      | signalling => exact absurd hpc hlink
      | _ => exact absurd (hpc ▸ trivial) hround
    refine exists_unserved (s := s.setSlot call.ifc closed) hcall hattest ?_ ?_ ?_
    · rw [hclosed]
      exact hfree
    · rw [hclosed]
      exact hready
    · rw [hclosed]
      exact ⟨hgoes, Or.inr rfl⟩

/-- A step from a state with the invariant that is not harmless leads to states in which the sender
is left waiting. -/
theorem Tracked.exists_unserved {s s' : SendState ι} {event : SendEvent ι} (h : s.Tracked)
    (hstep : s.Step event s') (hharm : ¬ s.Harmless event) :
    ∃ (later : List (SendEvent ι)) (t : SendState ι), Run Step s' later t ∧ ¬ t.Served := by
  cases event with
  | link ifc answer => exact h.exists_unserved_link hstep hharm
  | down ifc => exact h.exists_unserved_down hstep hharm
  | _ => exact absurd trivial hharm

end SendState

end IpRipStack
