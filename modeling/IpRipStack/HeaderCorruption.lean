import IpRipStack.Forwarding

/-!
# Corrupted headers

What `transfer_data` makes of a frame that was valid before one of the ten words of its header was
changed on the way. A changed checksum is not the sum of the header it stands in. Any other word
takes part in the sum, and two words give the same sum only if they are congruent modulo `65535`,
that is, the two representations of zero. So every change but that one is caught
(`checksumValid_corrupted`), and the frame changes nothing (`transferData_corrupted`).
-/

set_option autoImplicit false
set_option relaxedAutoImplicit false

namespace IpRipStack

open MachineWord EndAroundCarry

/-- A frame differs from another in one aligned word of the header and nowhere else, and not by a
change between the two representations of zero, unless the word is the checksum. -/
structure Corrupts (word : ℕ) (frame frame' : List UInt8) : Prop where
  inside : word < 10
  length : frame'.length = frame.length
  elsewhere : ∀ i, i ≠ 2 * word → i ≠ 2 * word + 1 → byteAt frame' i = byteAt frame i
  changed : frame' ≠ frame
  zeros : 2 * word ≠ csumOffset →
    ¬ (load16 .big frame (2 * word) = 0 ∧ load16 .big frame' (2 * word) = 0xFFFF) ∧
      ¬ (load16 .big frame (2 * word) = 0xFFFF ∧ load16 .big frame' (2 * word) = 0)

/-! ### The checksum -/

/-- The checksum test looks at the header alone. -/
theorem checksumValid_take (order : ByteOrder) {frame : List UInt8} (h : 20 ≤ frame.length) :
    ChecksumValid order frame ↔ ChecksumValid order (frame.take 20) := by
  have hheader : 20 ≤ (frame.take 20).length := by
    rw [List.length_take]
    omega
  have hsplit := checksumValid_append_left (frame.drop 20) order hheader
  rwa [List.take_append_drop] at hsplit

/-- A word that represents zero does so on hosts of either order. -/
theorem load16_zeros_iff (order : ByteOrder) (bytes : List UInt8) (offset : ℕ) :
    (load16 order bytes offset = 0 ↔ load16 .big bytes offset = 0) ∧
      (load16 order bytes offset = 65535 ↔ load16 .big bytes offset = 65535) := by
  have h₀ := (byteAt bytes offset).toNat_lt
  have h₁ := (byteAt bytes (offset + 1)).toNat_lt
  have hones : (65535 : UInt16).toNat = 65535 := rfl
  cases order with
  | little =>
    simp only [load16, ← UInt16.toNat_inj, toNat_word16_little, toNat_word16_big,
      UInt16.toNat_zero, hones]
    omega
  | big => exact ⟨Iff.rfl, Iff.rfl⟩

namespace Corrupts

variable {word : ℕ} {frame frame' : List UInt8}

/-- The word is not the one there was. -/
theorem load16_ne (h : Corrupts word frame frame') (order : ByteOrder) :
    load16 order frame' (2 * word) ≠ load16 order frame (2 * word) := by
  intro hsame
  obtain ⟨hfirst, hsecond⟩ := word16_inj hsame
  refine h.changed (eq_of_byteAt h.length fun i _ ↦ ?_)
  by_cases hi : i = 2 * word
  · rw [hi]
    exact hfirst
  · by_cases hi' : i = 2 * word + 1
    · rw [hi']
      exact hsecond
    · exact h.elsewhere i hi hi'

/-- A word that is not the changed one is as it was. -/
theorem load16_eq (h : Corrupts word frame frame') (order : ByteOrder) {other : ℕ}
    (hother : other ≠ word) : load16 order frame' (2 * other) = load16 order frame (2 * other) := by
  unfold load16
  rw [h.elsewhere _ (by omega) (by omega), h.elsewhere _ (by omega) (by omega)]

/-- The header with its checksum cleared is changed in the same word only. Assumes: a whole header.
-/
theorem cleared_eq (h : Corrupts word frame frame') (hframe : 20 ≤ frame.length)
    (hword : 2 * word ≠ csumOffset) : overwrite (frame'.take 20) csumOffset [0, 0] =
      overwrite (overwrite (frame.take 20) csumOffset [0, 0]) (2 * word)
        [byteAt frame' (2 * word), byteAt frame' (2 * word + 1)] := by
  have hinside := h.inside
  have hlength := h.length
  unfold csumOffset at hword ⊢
  refine eq_of_byteAt ?_ fun i hi ↦ ?_
  · simp only [length_overwrite, List.length_take]
    omega
  · simp only [length_overwrite, List.length_take] at hi
    have hlt : i < 20 := by omega
    simp only [byteAt_overwrite, byteAt_take hlt, length_overwrite, List.length_take,
      List.length_cons, List.length_nil]
    by_cases hfirst : i = 2 * word
    · subst hfirst
      rw [if_neg (by omega), if_pos (by omega), Nat.sub_self, byteAt_cons_zero]
    · by_cases hsecond : i = 2 * word + 1
      · subst hsecond
        rw [if_neg (by omega), if_pos (by omega), Nat.add_sub_cancel_left]
        rfl
      · rw [if_neg (c := 2 * word ≤ i ∧ _) (by omega), h.elsewhere i hfirst hsecond]
        have hmin : min 20 frame'.length = min 20 frame.length := by rw [hlength]
        rw [hmin]

/-- A changed checksum is not the sum of its header. -/
theorem cleared_same (h : Corrupts word frame frame') (hword : 2 * word = csumOffset) :
    overwrite (frame'.take 20) csumOffset [0, 0] = overwrite (frame.take 20) csumOffset [0, 0] := by
  have hlength := h.length
  unfold csumOffset at hword ⊢
  refine eq_of_byteAt ?_ fun i hi ↦ ?_
  · simp only [length_overwrite, List.length_take, hlength]
  · simp only [length_overwrite, List.length_take] at hi
    simp only [byteAt_overwrite, byteAt_take (show i < 20 by omega), List.length_take,
      List.length_cons, List.length_nil, hlength]
    split_ifs with hrun
    · rfl
    · exact h.elsewhere i (by omega) (by omega)

/-- Every such change is caught by the checksum test. Assumes: a frame with a whole header that
passed it. -/
theorem not_checksumValid (h : Corrupts word frame frame') (hframe : 20 ≤ frame.length)
    {order : ByteOrder} (hvalid : ChecksumValid order frame) : ¬ ChecksumValid order frame' := by
  intro hvalid'
  have hframe' : 20 ≤ frame'.length := h.length ▸ hframe
  rw [checksumValid_take order hframe] at hvalid
  rw [checksumValid_take order hframe'] at hvalid'
  have hload : ∀ (bytes : List UInt8) (offset : ℕ), offset + 1 < 20 →
      load16 order (bytes.take 20) offset = load16 order bytes offset := by
    intro bytes offset hoffset
    unfold load16
    rw [byteAt_take (by omega), byteAt_take (by omega)]
  unfold ChecksumValid at hvalid hvalid'
  rw [hload _ _ (by decide)] at hvalid hvalid'
  by_cases hword : 2 * word = csumOffset
  · rw [h.cleared_same hword, ← hvalid, ← hword] at hvalid'
    exact h.load16_ne order hvalid'
  · have hfive : 5 ≠ word := by
      rintro rfl
      exact hword rfl
    have hcsum : load16 order frame' csumOffset = load16 order frame csumOffset :=
      h.load16_eq order hfive
    let cleared := overwrite (frame.take 20) csumOffset [0, 0]
    have hcleared : cleared.length = 20 := by
      simp only [cleared, length_overwrite, List.length_take]
      omega
    have hinside : 2 * word + 2 ≤ cleared.length := by
      have hlt := h.inside
      omega
    have hsums := sumWords_modEq_of_ipSum_eq (by omega) ((hvalid'.symm.trans hcsum).trans hvalid)
    rw [h.cleared_eq hframe hword, List.take_of_length_le (by rw [length_overwrite, hcleared]),
      List.take_of_length_le hcleared.le] at hsums
    have hexchange := sumWords_overwrite order (even_two_mul word) hinside
      (byteAt frame' (2 * word)) (byteAt frame' (2 * word + 1))
    have hold : load16 order cleared (2 * word) = load16 order frame (2 * word) := by
      have hbyte : ∀ i < 20, ¬ (csumOffset ≤ i ∧ i < csumOffset + 2) →
          byteAt cleared i = byteAt frame i := by
        intro i hi hother
        rw [byteAt_overwrite, if_neg fun hrun ↦ hother ⟨hrun.1, hrun.2.1⟩, byteAt_take hi]
      unfold load16
      unfold csumOffset at hbyte hword
      rw [hbyte _ (by omega) (by omega), hbyte _ (by omega) (by omega)]
    rw [hold] at hexchange
    have hmod : (load16 order frame (2 * word)).toNat ≡
        (load16 order frame' (2 * word)).toNat [MOD 65535] := by
      refine Nat.ModEq.add_left_cancel hsums ?_
      rw [hexchange]
      exact Nat.ModEq.refl _
    obtain ⟨hzero, hones⟩ := load16_zeros_iff order frame (2 * word)
    obtain ⟨hzero', hones'⟩ := load16_zeros_iff order frame' (2 * word)
    obtain ⟨hup, hdown⟩ := h.zeros hword
    rcases eq_or_zeros_of_modEq hmod with hsame | ⟨hfirst, hsecond⟩ | ⟨hfirst, hsecond⟩
    · exact h.load16_ne order hsame.symm
    · exact hup ⟨hzero.mp hfirst, hones'.mp hsecond⟩
    · exact hdown ⟨hones.mp hfirst, hzero'.mp hsecond⟩

end Corrupts

/-! ### The frame -/

/-- Assumes: a frame of at least twenty bytes that passes the checksum test, and one that differs
from it by a change of one word. The changed frame changes nothing, whatever lies behind either of
them in memory. -/
theorem transferData_corrupted (node : Node) {frame frame' : List UInt8} (stale stale' : List UInt8)
    (hframe : 20 ≤ frame.length) (hvalid : ChecksumValid node.order (frame ++ stale)) {word : ℕ}
    (hcorrupts : Corrupts word frame frame') (next : UInt32) (clock : ℕ → Timeval) :
    node.transferData (frame' ++ stale') frame'.length next clock = node := by
  have hframe' : 20 ≤ frame'.length := hcorrupts.length ▸ hframe
  rw [checksumValid_append_left stale node.order hframe] at hvalid
  refine Node.transferData_invalid ?_ frame'.length next clock
  rw [checksumValid_append_left stale' node.order hframe']
  exact hcorrupts.not_checksumValid hframe hvalid

/-- A packet for the router of which the last byte of the destination is changed. -/
theorem transferData_corrupted_router : routerNode.transferData
    ((transitPacket 16).set 19 7 ++ []) ((transitPacket 16).set 19 7).length 0x0A000001
      (fun _ ↦ ⟨0, 0⟩) = routerNode := by
  have helsewhere : ∀ i, i ≠ 2 * 9 → i ≠ 2 * 9 + 1 →
      byteAt ((transitPacket 16).set 19 7) i = byteAt (transitPacket 16) i := by
    intro i _ hi
    rw [byteAt_set, if_neg fun hset ↦ hi hset.1]
  have hcorrupts : Corrupts 9 (transitPacket 16) ((transitPacket 16).set 19 7) :=
    ⟨by decide, by decide, helsewhere, by decide, by decide⟩
  exact transferData_corrupted routerNode [] [] (by decide) (by decide) hcorrupts 0x0A000001 _

end IpRipStack
