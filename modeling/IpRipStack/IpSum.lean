import IpRipStack.Library.EndAroundCarry

/-!
# ipsum.h

`ipSum` is `ip_sum`: the sixteen-bit words of a block summed as the host loads them, an odd last
byte as the first byte in memory of a word whose second byte is zero, the two folding steps and the
complement. The running sum is a 64-bit `long`; no block an `int` length can describe brings it
near its limit, and it is a natural number here.

`load16_store16_ipSum` is what the stack rests on when it stores the sum in its host's own order and
a peer of the other order loads it: the two hosts agree on every block of at most `131074` bytes.
`ipSum_checksummed` is the test a receiver makes that sums the checksum along with the block.
`ipSum_internetChecksum` says what the sum is.
-/

set_option autoImplicit false
set_option relaxedAutoImplicit false

namespace IpRipStack

open MachineWord EndAroundCarry

/-- The accumulation loop of `ip_sum` over the bytes it is given. -/
def sumWords (order : ByteOrder) : List UInt8 → ℕ
  | b₀ :: b₁ :: rest => (word16 order b₀ b₁).toNat + sumWords order rest
  | [b] => (word16 order b 0).toNat
  | [] => 0

/-- `ip_sum(packet, len)`. -/
def ipSum (order : ByteOrder) (packet : List UInt8) (len : ℕ) : UInt16 :=
  ~~~(foldCarries (sumWords order (packet.take len)))

/-- The sum is at most `65535` for each word, the odd last byte counting as one. -/
theorem sumWords_le (order : ByteOrder) (bytes : List UInt8) :
    sumWords order bytes ≤ 65535 * ((bytes.length + 1) / 2) := by
  induction bytes using sumWords.induct with
  | case1 b₀ b₁ rest ih =>
    have hword := (word16 order b₀ b₁).toNat_lt
    simp only [sumWords, List.length_cons]
    omega
  | case2 b =>
    have hword := (word16 order b 0).toNat_lt
    simp only [sumWords, List.length_singleton]
    omega
  | case3 => simp [sumWords]

/-- Assumes: a block of at most `131074` bytes. Its sum is one that two folding steps can fold. -/
theorem sumWords_lt (order : ByteOrder) {bytes : List UInt8} (h : bytes.length ≤ 131074) :
    sumWords order bytes < 4294967296 := by
  have hsum := sumWords_le order bytes
  omega

theorem sumWords_eq_zero_iff (order : ByteOrder) (bytes : List UInt8) :
    sumWords order bytes = 0 ↔ ∀ b ∈ bytes, b = 0 := by
  have hword : ∀ b₀ b₁ : UInt8, (word16 order b₀ b₁).toNat = 0 ↔ b₀ = 0 ∧ b₁ = 0 := by
    intro b₀ b₁
    rw [← UInt8.toNat_inj, ← UInt8.toNat_inj, UInt8.toNat_zero]
    cases order with
    | little =>
      rw [toNat_word16_little]
      omega
    | big =>
      rw [toNat_word16_big]
      omega
  induction bytes using sumWords.induct with
  | case1 b₀ b₁ rest ih =>
    simp only [sumWords, Nat.add_eq_zero_iff, hword, ih, List.forall_mem_cons, and_assoc]
  | case2 b => simp only [sumWords, hword, List.forall_mem_singleton, and_true]
  | case3 => simp [sumWords]

/-- A block of whole words is summed by itself. -/
theorem sumWords_append (order : ByteOrder) {first : List UInt8} (h : Even first.length)
    (second : List UInt8) :
    sumWords order (first ++ second) = sumWords order first + sumWords order second := by
  induction first using sumWords.induct with
  | case1 b₀ b₁ rest ih =>
    rw [List.length_cons, List.length_cons, Nat.even_add_one, Nat.even_add_one, not_not] at h
    simp only [List.cons_append, sumWords, ih h, Nat.add_assoc]
  | case2 b => exact absurd h (by rw [List.length_singleton]; decide)
  | case3 => simp [sumWords]

theorem sumWords_store16 (order : ByteOrder) (x : UInt16) (rest : List UInt8) :
    sumWords order (store16 order x ++ rest) = x.toNat + sumWords order rest := by
  have hword := word16_store16 order x
  cases order
  · exact congrArg (·.toNat + sumWords .little rest) hword
  · exact congrArg (·.toNat + sumWords .big rest) hword

/-- The sum as the other kind of host accumulates it is `256` times the sum, modulo `65535`. -/
theorem sumWords_big_modEq (bytes : List UInt8) :
    sumWords .big bytes ≡ 256 * sumWords .little bytes [MOD 65535] := by
  induction bytes using sumWords.induct with
  | case1 b₀ b₁ rest ih =>
    have hword : (word16 .big b₀ b₁).toNat ≡ 256 * (word16 .little b₀ b₁).toNat [MOD 65535] := by
      rw [word16_little_eq_swap16]
      simpa using swap16_modEq (swap16 (word16 .big b₀ b₁))
    simp only [sumWords, Nat.mul_add]
    exact hword.add ih
  | case2 b =>
    simp only [sumWords, toNat_word16_big, toNat_word16_little]
    rfl
  | case3 => rfl

theorem sumWords_big_eq_zero_iff (bytes : List UInt8) :
    sumWords .big bytes = 0 ↔ sumWords .little bytes = 0 := by
  induction bytes using sumWords.induct with
  | case1 b₀ b₁ rest ih =>
    simp only [sumWords, toNat_word16_big, toNat_word16_little]
    omega
  | case2 b =>
    simp only [sumWords, toNat_word16_big, toNat_word16_little]
    omega
  | case3 => simp [sumWords]

/-- Writing over one word of a block exchanges it in the sum. Assumes: an aligned word inside the
block. -/
theorem sumWords_overwrite (order : ByteOrder) {block : List UInt8} {offset : ℕ}
    (heven : Even offset) (hinside : offset + 2 ≤ block.length) (c₀ c₁ : UInt8) :
    sumWords order (overwrite block offset [c₀, c₁]) + (load16 order block offset).toNat =
      sumWords order block + (word16 order c₀ c₁).toNat := by
  have hsum : ∀ b₀ b₁ : UInt8, sumWords order (overwrite block offset [b₀, b₁]) =
      sumWords order (block.take offset) +
        ((word16 order b₀ b₁).toNat + sumWords order (block.drop (offset + 2))) := by
    intro b₀ b₁
    have hbefore : Even (block.take offset).length := by
      rwa [List.length_take, Nat.min_eq_left (by omega)]
    have hreplace : overwrite block offset [b₀, b₁] =
        block.take offset ++ ([b₀, b₁] ++ block.drop (offset + 2)) := overwrite_eq_append hinside
    rw [hreplace, sumWords_append order hbefore]
    rfl
  have hsame : overwrite block offset [byteAt block offset, byteAt block (offset + 1)] = block := by
    refine eq_of_byteAt (length_overwrite _ _ _) fun i hi ↦ ?_
    rw [byteAt_overwrite]
    split_ifs with hrun
    · rw [List.length_cons, List.length_singleton] at hrun
      obtain rfl | rfl : i = offset ∨ i = offset + 1 := by omega
      · rw [Nat.sub_self]
        rfl
      · rw [Nat.add_sub_cancel_left]
        rfl
    · rfl
  have hold := hsum (byteAt block offset) (byteAt block (offset + 1))
  rw [hsame] at hold
  rw [hsum, hold, load16]
  omega

/-- Blocks with the same checksum have sums that agree modulo `65535`. Assumes: blocks of at most
`131074` bytes. -/
theorem sumWords_modEq_of_ipSum_eq {order : ByteOrder} {first second : List UInt8} {len : ℕ}
    (hlen : len ≤ 131074) (h : ipSum order first len = ipSum order second len) :
    sumWords order (first.take len) ≡ sumWords order (second.take len) [MOD 65535] := by
  have hlt : ∀ bytes : List UInt8, sumWords order (bytes.take len) < 4294967296 :=
    fun bytes ↦ sumWords_lt order ((List.length_take_le len bytes).trans hlen)
  have hfold : foldCarries (sumWords order (first.take len)) =
      foldCarries (sumWords order (second.take len)) := by
    have hcomplement := congrArg (~~~ ·) h
    simpa only [ipSum, UInt16.not_not] using hcomplement
  calc sumWords order (first.take len)
      ≡ (foldCarries (sumWords order (first.take len))).toNat [MOD 65535] :=
        (foldCarries_modEq (hlt first)).symm
    _ ≡ sumWords order (second.take len) [MOD 65535] := by
        rw [hfold]
        exact foldCarries_modEq (hlt second)

/-- The two kinds of host compute the same checksum up to the order of its bytes. Assumes: a block
of at most `131074` bytes. -/
theorem swap16_ipSum {packet : List UInt8} {len : ℕ} (hlen : len ≤ 131074) :
    swap16 (ipSum .little packet len) = ipSum .big packet len := by
  have hbound : ∀ order, sumWords order (packet.take len) < 4294967296 := by
    intro order
    exact sumWords_lt order ((List.length_take_le len packet).trans hlen)
  rw [ipSum, swap16_complement, swap16_foldCarries (hbound .little) (hbound .big)
    (sumWords_big_modEq _) (sumWords_big_eq_zero_iff _)]
  rfl

/-- A checksum stored by one host in its own order and loaded by another in its own order is the
checksum the second host computes. Assumes: a block of at most `131074` bytes. -/
theorem load16_store16_ipSum (order order' : ByteOrder) {len : ℕ} (hlen : len ≤ 131074)
    (packet before rest : List UInt8) :
    load16 order' (before ++ (store16 order (ipSum order packet len) ++ rest)) before.length =
      ipSum order' packet len := by
  have hlittle : store16 .little (ipSum .little packet len) =
      store16 .big (ipSum .big packet len) := by
    rw [store16_little_eq, swap16_ipSum hlen]
  cases order <;> cases order'
  · exact load16_store16 _ _ _ _
  · rw [hlittle]
    exact load16_store16 _ _ _ _
  · rw [← hlittle]
    exact load16_store16 _ _ _ _
  · exact load16_store16 _ _ _ _

/-- A block that carries its checksum has the checksum zero, on hosts of either order. Assumes:
whole words before the checksum, which lies inside the block, and a block of at most `131072` bytes.
-/
theorem ipSum_checksummed (order order' : ByteOrder) {before : List UInt8} (heven : Even before.length)
    (behind : List UInt8) {len : ℕ} (hinside : before.length + 2 ≤ len) (hlen : len ≤ 131072) :
    ipSum order' (before ++
      (store16 order (ipSum order (before ++ ([0, 0] ++ behind)) len) ++ behind)) len = 0 := by
  have htake : ∀ word : List UInt8, word.length = 2 →
      (before ++ (word ++ behind)).take len =
        before ++ (word ++ behind.take (len - (before.length + 2))) := by
    intro word hword
    rw [List.take_append, List.take_of_length_le (by omega), List.take_append,
      List.take_of_length_le (by omega), hword, Nat.sub_sub]
  have hsum : ∀ x : UInt16, sumWords order
      ((before ++ (store16 order x ++ behind)).take len) = sumWords order
        ((before ++ ([0, 0] ++ behind)).take len) + x.toNat := by
    intro x
    rw [htake _ (length_store16 order x), htake [0, 0] rfl, sumWords_append order heven,
      sumWords_append order heven, sumWords_store16, ← store16_zero order, sumWords_store16,
      UInt16.toNat_zero]
    omega
  have hsame : ipSum order (before ++
      (store16 order (ipSum order (before ++ ([0, 0] ++ behind)) len) ++ behind)) len = 0 := by
    have hle := sumWords_le order ((before ++ ([0, 0] ++ behind)).take len)
    have hlength : ((before ++ ([0, 0] ++ behind)).take len).length ≤ len :=
      List.length_take_le len _
    unfold ipSum
    rw [hsum]
    refine complement_foldCarries_add ?_
    omega
  have hswap : ∀ packet : List UInt8, swap16 (ipSum .little packet len) = ipSum .big packet len :=
    fun packet ↦ swap16_ipSum (by omega)
  cases order <;> cases order'
  · exact hsame
  · rw [← hswap, hsame]
    rfl
  · rw [← swap16_swap16 (ipSum .little _ len), hswap, hsame]
    rfl
  · exact hsame

/-! ### The Internet checksum -/

/-- The sixteen-bit words of a block as the host loads them, an odd last byte with a zero byte
behind it. -/
def blockWords (order : ByteOrder) : List UInt8 → List UInt16
  | b₀ :: b₁ :: rest => word16 order b₀ b₁ :: blockWords order rest
  | [b] => [word16 order b 0]
  | [] => []

/-- The Internet checksum in the word order of the host: the complement of the one's-complement sum
of the words. -/
def internetChecksum (order : ByteOrder) (block : List UInt8) : UInt16 :=
  ~~~(endAroundSum (blockWords order block))

theorem sumWords_eq_sum (order : ByteOrder) (bytes : List UInt8) :
    sumWords order bytes = ((blockWords order bytes).map UInt16.toNat).sum := by
  induction bytes using sumWords.induct with
  | case1 b₀ b₁ rest ih => simp only [sumWords, blockWords, List.map_cons, List.sum_cons, ih]
  | case2 b => simp [sumWords, blockWords]
  | case3 => rfl

/-- Assumes: a block of at most `131074` bytes. `ip_sum` is the Internet checksum of the block. The
complement of its result represents the sum of the words modulo `65535`, and is zero only for a block
of zeros. -/
theorem ipSum_internetChecksum (order : ByteOrder) (block : List UInt8)
    (hlen : block.length ≤ 131074) :
    ipSum order block block.length = internetChecksum order block ∧
      (~~~(ipSum order block block.length)).toNat ≡
        ((blockWords order block).map UInt16.toNat).sum [MOD 65535] ∧
      (~~~(ipSum order block block.length) = 0 ↔ ∀ b ∈ block, b = 0) := by
  have hlt := sumWords_lt order hlen
  have hzero := sumWords_eq_zero_iff order block
  have hsum : ipSum order block block.length = ~~~(foldCarries (sumWords order block)) := by
    rw [ipSum, List.take_length]
  rw [sumWords_eq_sum] at hlt hzero hsum
  rw [hsum, UInt16.not_not]
  refine ⟨?_, foldCarries_modEq hlt, ?_⟩
  · rw [foldCarries_sum hlt]
    rfl
  · rw [← UInt16.toNat_inj]
    exact (foldCarries_eq_zero_iff hlt).trans hzero

/-- A block of three bytes whose words add up to a carry. -/
theorem ipSum_oddBlock :
    ipSum .big [0xFF, 0xFF, 0x01] 3 = internetChecksum .big [0xFF, 0xFF, 0x01] :=
  (ipSum_internetChecksum .big [0xFF, 0xFF, 0x01] (by decide)).1

end IpRipStack
