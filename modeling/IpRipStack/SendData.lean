import IpRipStack.SendFrame
import Mathlib.Algebra.Order.Ring.Int

/-!
# The release of the send buffer

`send_data` advances its only pointer to the buffer by what `sendto` takes, and takes the whole size
of the frame off it at the end to get back to the beginning of the allocation. Here a pointer is its
offset from there, and `sendData` gives the accesses of a call in their order.

`sendLoop_spec` is the invariant of the loop: the pointer has advanced by the sum of the counts, and
pointer and remaining count add up to the size. When all of the frame is taken the pointer comes
back to zero; after a failure it comes back as far before the allocation as bytes were left. So
`released_iff`. `foldl_linkStep_sendLoop` connects the loop to the steps of the link thread, which
know the buffer by its bytes and not by a pointer.
-/

set_option autoImplicit false
set_option relaxedAutoImplicit false

namespace IpRipStack

/-- What `send_data` does to the buffer and to the slot. -/
inductive SendAction
  | sendto (pointer length : Int)
  | free (pointer : Int)
  | null -- `_sbuffer = nullptr`
  | clear -- `_sbufferReady = false`
  | signal
  deriving DecidableEq, Repr

/-- The loop of `send_data`, on the results of `sendto`, `none` for `-1`: its calls and the pointer
when it ends. Without further results it waits. -/
def sendLoop : Int → Int → List (Option ℕ) → Option (List SendAction × Int)
  | pointer, remBytes, [] => if 0 < remBytes then none else some ([], pointer)
  | pointer, remBytes, none :: _ =>
    if 0 < remBytes then some ([.sendto pointer remBytes], pointer) else some ([], pointer)
  | pointer, remBytes, some numBytes :: results =>
    if 0 < remBytes then
      (sendLoop (pointer + numBytes) (remBytes - numBytes) results).map fun ended ↦
        (.sendto pointer remBytes :: ended.1, ended.2)
    else some ([], pointer)

/-- `LinkLayer::send_data`, for a frame of `sbuffersz` bytes. -/
def sendData (sbuffersz : ℕ) (results : List (Option ℕ)) : Option (List SendAction) :=
  (sendLoop 0 sbuffersz results).map fun ended ↦
    ended.1 ++ [.free (ended.2 - sbuffersz), .null, .clear, .signal]

/-- The pointer an action frees. -/
def SendAction.freed? : SendAction → Option Int
  | .free pointer => some pointer
  | _ => none

/-- What is passed to `sendto` lies within the allocation, the allocation is freed once and by its
beginning, and the slot is emptied once. -/
structure Released (sbuffersz : ℕ) (actions : List SendAction) : Prop where
  inside : ∀ pointer length : Int, .sendto pointer length ∈ actions →
    0 ≤ pointer ∧ 0 < length ∧ pointer + length ≤ sbuffersz
  freed : actions.filterMap SendAction.freed? = [0]
  nulled : actions.count .null = 1
  cleared : actions.count .clear = 1

/-- The counts before the first failure. -/
def counts : List (Option ℕ) → List ℕ
  | [] => []
  | none :: _ => []
  | some numBytes :: results => numBytes :: counts results

/-- The loop calls nothing but `sendto`, within the allocation, and ends with the pointer advanced
by the sum of the counts. Assumes: a pointer and a remaining count that add up to the size, and
counts that add up to no more than remains. -/
theorem sendLoop_spec {size : ℕ} {results : List (Option ℕ)} {pointer remBytes pointer' : Int}
    {calls : List SendAction} (hpointer : 0 ≤ pointer) (hsize : pointer + remBytes = size)
    (hsum : ((counts results).sum : Int) ≤ remBytes)
    (h : sendLoop pointer remBytes results = some (calls, pointer')) :
    pointer' = pointer + (counts results).sum ∧
      ∀ action ∈ calls, ∃ start length, action = .sendto start length ∧
        0 ≤ start ∧ 0 < length ∧ start + length ≤ size := by
  induction results generalizing pointer remBytes calls with
  | nil =>
    unfold sendLoop at h
    split_ifs at h with hrest
    obtain ⟨rfl, rfl⟩ := Prod.mk.inj (Option.some.inj h)
    exact ⟨(Int.add_zero _).symm, fun action hmem ↦ absurd hmem List.not_mem_nil⟩
  | cons result results ih =>
    cases result with
    | none =>
      unfold sendLoop at h
      split_ifs at h with hrest
      · obtain ⟨rfl, rfl⟩ := Prod.mk.inj (Option.some.inj h)
        refine ⟨(Int.add_zero _).symm, fun action hmem ↦ ?_⟩
        exact ⟨_, _, List.mem_singleton.mp hmem, hpointer, hrest, hsize.le⟩
      · obtain ⟨rfl, rfl⟩ := Prod.mk.inj (Option.some.inj h)
        exact ⟨(Int.add_zero _).symm, fun action hmem ↦ absurd hmem List.not_mem_nil⟩
    | some numBytes =>
      rw [counts, List.sum_cons, Nat.cast_add] at hsum
      unfold sendLoop at h
      split_ifs at h with hrest
      · obtain ⟨⟨calls', last⟩, hlater, hended⟩ := Option.map_eq_some_iff.mp h
        obtain ⟨rfl, rfl⟩ := Prod.mk.inj hended
        obtain ⟨hlast, hcalls⟩ := ih (by omega) (by omega) (by omega) hlater
        refine ⟨?_, fun action hmem ↦ ?_⟩
        · rw [counts, List.sum_cons, Nat.cast_add]
          omega
        · rcases List.mem_cons.mp hmem with rfl | hmem
          · exact ⟨_, _, rfl, hpointer, hrest, hsize.le⟩
          · exact hcalls action hmem
      · obtain ⟨rfl, rfl⟩ := Prod.mk.inj (Option.some.inj h)
        refine ⟨?_, fun action hmem ↦ absurd hmem List.not_mem_nil⟩
        rw [counts, List.sum_cons, Nat.cast_add]
        omega

/-- The bytes a call of `sendto` passes. -/
def SendAction.bytes (sbuffer : List UInt8) : SendAction → List UInt8
  | .sendto pointer length => (sbuffer.drop pointer.toNat).take length.toNat
  | _ => []

theorem sendLoop_zero (pointer : Int) (results : List (Option ℕ)) :
    sendLoop pointer 0 results = some ([], pointer) := by
  cases results with
  | nil => rfl
  | cons result results =>
    cases result with
    | none => rfl
    | some numBytes => rfl

/-- The link thread, where it sends, goes through the calls of the loop and comes to its end, and
the calls that succeed pass the bytes at the pointer. Assumes: an interface that is up, a pointer
and a remaining count that add up to the size, counts that add up to no more than remains, and a
loop that ends. -/
theorem foldl_linkStep_sendLoop {slot : Slot} {sbuffer : List UInt8} {results : List (Option ℕ)}
    {pointer remBytes : ℕ} {calls : List SendAction} {pointer' : Int}
    (hlink : slot.link = .sending remBytes) (hopen : slot.isOpen = true)
    (hbuffer : slot.sbuffer = some sbuffer) (hsize : pointer + remBytes = slot.sbuffersz)
    (hsum : (counts results).sum ≤ remBytes)
    (h : sendLoop pointer remBytes results = some (calls, pointer')) :
    ∃ answers : List Answer, answers.foldl Slot.linkStep slot =
      { slot with
        link := .freeing
        sent := slot.sent ++ (calls.take (counts results).length).map (SendAction.bytes sbuffer) } := by
  induction results generalizing slot pointer remBytes calls with
  | nil =>
    rcases Nat.eq_zero_or_pos remBytes with rfl | hpos
    · obtain ⟨rfl, -⟩ := Prod.mk.inj (Option.some.inj ((sendLoop_zero _ _).symm.trans h))
      refine ⟨[⟨true, none⟩], ?_⟩
      simp [Slot.linkStep, hlink]
    · unfold sendLoop at h
      rw [if_pos (Int.natCast_pos.mpr hpos)] at h
      cases h
  | cons result results ih =>
    rcases Nat.eq_zero_or_pos remBytes with rfl | hpos
    · obtain ⟨rfl, -⟩ := Prod.mk.inj (Option.some.inj ((sendLoop_zero _ _).symm.trans h))
      refine ⟨[⟨true, none⟩], ?_⟩
      simp [Slot.linkStep, hlink]
    · unfold sendLoop at h
      cases result with
      | none =>
        refine ⟨[⟨true, none⟩], ?_⟩
        simp [Slot.linkStep, hlink, hpos.ne', counts]
      | some numBytes =>
        rw [counts, List.sum_cons] at hsum
        dsimp only at h
        rw [if_pos (Int.natCast_pos.mpr hpos)] at h
        obtain ⟨⟨calls', last⟩, hlater, hended⟩ := Option.map_eq_some_iff.mp h
        obtain ⟨rfl, rfl⟩ := Prod.mk.inj hended
        rw [← Nat.cast_add, ← Nat.cast_sub (by omega)] at hlater
        have hpointer : slot.sbuffersz - remBytes = pointer := by omega
        have hstep : slot.linkStep ⟨true, some numBytes⟩ =
            { slot with
              link := .sending (remBytes - numBytes)
              sent := slot.sent ++ [(sbuffer.drop pointer).take remBytes] } := by
          simp [Slot.linkStep, hlink, hpos.ne', hopen, hbuffer, hpointer]
        have hlink' : (slot.linkStep ⟨true, some numBytes⟩).link = .sending (remBytes - numBytes) :=
          hstep ▸ rfl
        have hsize' : pointer + numBytes + (remBytes - numBytes) =
            (slot.linkStep ⟨true, some numBytes⟩).sbuffersz := by
          rw [hstep]
          dsimp only
          omega
        obtain ⟨answers, hanswers⟩ :=
          ih hlink' (hstep ▸ hopen) (hstep ▸ hbuffer) hsize' (by omega) hlater
        refine ⟨⟨true, some numBytes⟩ :: answers, hanswers.trans ?_⟩
        rw [hstep]
        simp [counts, SendAction.bytes]

/-- Assumes: counts that add up to no more than the size of the frame, and a call that returns. The
buffer is released as it should be exactly when the counts before the first failure add up to the
size of the frame. -/
theorem released_iff {sbuffersz : ℕ} {results : List (Option ℕ)}
    (hsum : (counts results).sum ≤ sbuffersz) {actions : List SendAction}
    (h : sendData sbuffersz results = some actions) :
    Released sbuffersz actions ↔ (counts results).sum = sbuffersz := by
  obtain ⟨⟨calls, pointer⟩, hloop, rfl⟩ := Option.map_eq_some_iff.mp h
  obtain ⟨hpointer, hcalls⟩ := sendLoop_spec (le_refl 0) (Int.zero_add _) (by omega) hloop
  rw [Int.zero_add] at hpointer
  have hfreed : calls.filterMap SendAction.freed? = [] := by
    refine List.filterMap_eq_nil_iff.mpr fun action hmem ↦ ?_
    obtain ⟨start, length, rfl, -⟩ := hcalls action hmem
    rfl
  have hother : ∀ action, (∀ start length, action ≠ .sendto start length) →
      calls.count action = 0 := by
    intro action hne
    refine List.count_eq_zero.mpr fun hmem ↦ ?_
    obtain ⟨start, length, hsame, -⟩ := hcalls action hmem
    exact hne start length hsame
  constructor
  · intro hreleased
    have hzero := hreleased.freed
    rw [List.filterMap_append, hfreed] at hzero
    have hback : pointer - sbuffersz = 0 := (List.cons.inj hzero).1
    omega
  · intro hall
    refine ⟨fun start length hmem ↦ ?_, ?_, ?_, ?_⟩
    · rcases List.mem_append.mp hmem with hmem | hmem
      · obtain ⟨start', length', hsame, hinside⟩ := hcalls _ hmem
        obtain ⟨rfl, rfl⟩ := SendAction.sendto.inj hsame
        exact hinside
      · exact absurd hmem (by simp)
    · rw [List.filterMap_append, hfreed]
      have hback : pointer - sbuffersz = 0 := by omega
      dsimp only
      rw [hback]
      rfl
    · rw [List.count_append, hother .null fun start length hsame ↦ SendAction.noConfusion hsame]
      simp
    · rw [List.count_append, hother .clear fun start length hsame ↦ SendAction.noConfusion hsame]
      simp

/-- A frame of three bytes that is taken in two parts. -/
theorem released_inParts : ∃ actions, sendData 3 [some 2, some 1] = some actions ∧
    Released 3 actions := by
  have hsum : (counts [some 2, some 1]).sum ≤ 3 := by decide
  exact ⟨_, rfl, (released_iff hsum rfl).mpr rfl⟩

/-- The only call of `sendto` fails: the pointer that is freed lies three bytes before the
allocation. -/
theorem freed_before_start :
    sendData 3 [none] = some [.sendto 0 3, .free (-3), .null, .clear, .signal] ∧
      ¬ Released 3 [.sendto 0 3, .free (-3), .null, .clear, .signal] := by
  refine ⟨rfl, fun h ↦ ?_⟩
  exact absurd h.freed (by decide)

end IpRipStack
