import Mathlib.Data.List.GetD
import Mathlib.Algebra.Group.Nat.Defs
import Mathlib.Tactic.Common

/-!
# Words in memory and on the wire

Sixteen- and thirty-two-bit words as a host of either byte order stores them, loads them and
converts them to and from network order. Memory is a list of bytes; `byteAt` reads one byte and
gives `0` past the end of the list, so a caller that wants to speak about left-over memory behind a
buffer supplies it as a longer list.

The conversions cancel the host's order. `ntohs_load16` and `ntohl_load32` say that a load followed
by the conversion is the big-endian value whatever the host, and `store16_htons` and
`store32_htonl` that a conversion followed by a store writes the big-endian bytes. The lemmas are
simp lemmas towards the big-endian form, so that a decoder and an encoder on hosts of different
orders meet in it (`load16_store16`, `load32_store32`).

`overwrite` is an assignment to a run of bytes of a buffer, with the frame lemma `byteAt_overwrite`.
-/

set_option autoImplicit false
set_option relaxedAutoImplicit false

namespace IpRipStack.MachineWord

/-- The order in which a host stores the bytes of a word. -/
inductive ByteOrder
  | little
  | big
  deriving DecidableEq, Repr

/-! ### Reading bytes -/

/-- The byte at an offset, `0` past the end. -/
def byteAt (bytes : List UInt8) (offset : ℕ) : UInt8 := bytes.getD offset 0

theorem byteAt_append (first second : List UInt8) (offset : ℕ) :
    byteAt (first ++ second) offset =
      if offset < first.length then byteAt first offset
      else byteAt second (offset - first.length) := by
  unfold byteAt
  split_ifs with h
  · exact List.getD_append first second 0 offset h
  · exact List.getD_append_right first second 0 offset (Nat.not_lt.mp h)

@[simp] theorem byteAt_cons_zero (b : UInt8) (bytes : List UInt8) : byteAt (b :: bytes) 0 = b :=
  rfl

@[simp] theorem byteAt_cons_succ (b : UInt8) (bytes : List UInt8) (offset : ℕ) :
    byteAt (b :: bytes) (offset + 1) = byteAt bytes offset :=
  rfl

theorem byteAt_take {count offset : ℕ} (h : offset < count) (bytes : List UInt8) :
    byteAt (bytes.take count) offset = byteAt bytes offset := by
  simp only [byteAt, List.getD_eq_getElem?_getD, List.getElem?_take, if_pos h]

/-- Buffers of one length that agree at every offset are equal. -/
theorem eq_of_byteAt {first second : List UInt8} (hlength : first.length = second.length)
    (h : ∀ i < first.length, byteAt first i = byteAt second i) : first = second := by
  refine List.ext_getElem hlength fun i hfirst hsecond ↦ ?_
  have hbyte := h i hfirst
  rwa [byteAt, byteAt, List.getD_eq_getElem _ _ hfirst, List.getD_eq_getElem _ _ hsecond] at hbyte

/-! ### Sixteen-bit words -/

/-- The word whose two bytes lie in memory in the given order. -/
def word16 (order : ByteOrder) (b₀ b₁ : UInt8) : UInt16 :=
  match order with
  | .little => UInt16.ofNat (b₀.toNat + 256 * b₁.toNat)
  | .big => UInt16.ofNat (256 * b₀.toNat + b₁.toNat)

/-- A load of a sixteen-bit word. -/
def load16 (order : ByteOrder) (bytes : List UInt8) (offset : ℕ) : UInt16 :=
  word16 order (byteAt bytes offset) (byteAt bytes (offset + 1))

/-- The two bytes a store of a sixteen-bit word writes. -/
def store16 (order : ByteOrder) (x : UInt16) : List UInt8 :=
  match order with
  | .little => [UInt8.ofNat (x.toNat % 256), UInt8.ofNat (x.toNat / 256)]
  | .big => [UInt8.ofNat (x.toNat / 256), UInt8.ofNat (x.toNat % 256)]

/-- The word with its two bytes exchanged. -/
def swap16 (x : UInt16) : UInt16 := UInt16.ofNat (256 * (x.toNat % 256) + x.toNat / 256)

/-- `ntohs`: network order to host order. -/
def ntohs (order : ByteOrder) (x : UInt16) : UInt16 :=
  match order with
  | .little => swap16 x
  | .big => x

/-- `htons`: host order to network order. -/
def htons (order : ByteOrder) (x : UInt16) : UInt16 :=
  match order with
  | .little => swap16 x
  | .big => x

@[simp] theorem length_store16 (order : ByteOrder) (x : UInt16) :
    (store16 order x).length = 2 := by
  cases order <;> rfl

@[simp] theorem store16_zero (order : ByteOrder) : store16 order 0 = [0, 0] := by
  cases order <;> decide

theorem toNat_word16_little (b₀ b₁ : UInt8) :
    (word16 .little b₀ b₁).toNat = b₀.toNat + 256 * b₁.toNat := by
  have h₀ := b₀.toNat_lt
  have h₁ := b₁.toNat_lt
  simp only [word16, UInt16.toNat_ofNat']
  omega

theorem toNat_word16_big (b₀ b₁ : UInt8) :
    (word16 .big b₀ b₁).toNat = 256 * b₀.toNat + b₁.toNat := by
  have h₀ := b₀.toNat_lt
  have h₁ := b₁.toNat_lt
  simp only [word16, UInt16.toNat_ofNat']
  omega

theorem word16_inj {order : ByteOrder} {b₀ b₁ c₀ c₁ : UInt8}
    (h : word16 order b₀ b₁ = word16 order c₀ c₁) : b₀ = c₀ ∧ b₁ = c₁ := by
  have hb₀ := b₀.toNat_lt
  have hb₁ := b₁.toNat_lt
  have hc₀ := c₀.toNat_lt
  have hc₁ := c₁.toNat_lt
  rw [← UInt16.toNat_inj] at h
  rw [← UInt8.toNat_inj, ← UInt8.toNat_inj]
  cases order with
  | little =>
    rw [toNat_word16_little, toNat_word16_little] at h
    omega
  | big =>
    rw [toNat_word16_big, toNat_word16_big] at h
    omega

theorem toNat_swap16 (x : UInt16) : (swap16 x).toNat = 256 * (x.toNat % 256) + x.toNat / 256 := by
  have hx := x.toNat_lt
  simp only [swap16, UInt16.toNat_ofNat']
  omega

@[simp] theorem swap16_swap16 (x : UInt16) : swap16 (swap16 x) = x := by
  have hx := x.toNat_lt
  rw [← UInt16.toNat_inj, toNat_swap16, toNat_swap16]
  omega

/-- Exchanging the two bytes in memory exchanges the bytes of the word read. -/
theorem word16_little_eq_swap16 (b₀ b₁ : UInt8) :
    word16 .little b₀ b₁ = swap16 (word16 .big b₀ b₁) := by
  have h₀ := b₀.toNat_lt
  have h₁ := b₁.toNat_lt
  rw [← UInt16.toNat_inj, toNat_swap16, toNat_word16_little, toNat_word16_big]
  omega

/-- A load followed by `ntohs` is the big-endian value on every host. -/
@[simp] theorem ntohs_load16 (order : ByteOrder) (bytes : List UInt8) (offset : ℕ) :
    ntohs order (load16 order bytes offset) = load16 .big bytes offset := by
  cases order
  · simp only [ntohs, load16, word16_little_eq_swap16, swap16_swap16]
  · rfl

theorem word16_store16 (order : ByteOrder) (x : UInt16) :
    word16 order (byteAt (store16 order x) 0) (byteAt (store16 order x) 1) = x := by
  have hx := x.toNat_lt
  cases order
  · simp only [store16, byteAt_cons_zero, byteAt_cons_succ]
    rw [← UInt16.toNat_inj, toNat_word16_little, UInt8.toNat_ofNat', UInt8.toNat_ofNat']
    omega
  · simp only [store16, byteAt_cons_zero, byteAt_cons_succ]
    rw [← UInt16.toNat_inj, toNat_word16_big, UInt8.toNat_ofNat', UInt8.toNat_ofNat']
    omega

/-- A store read back by a host of the same order, anywhere in a buffer. -/
theorem load16_store16 (order : ByteOrder) (before rest : List UInt8) (x : UInt16) :
    load16 order (before ++ (store16 order x ++ rest)) before.length = x := by
  have h₀ : byteAt (before ++ (store16 order x ++ rest)) before.length =
      byteAt (store16 order x) 0 := by
    simp [byteAt_append]
  have h₁ : byteAt (before ++ (store16 order x ++ rest)) (before.length + 1) =
      byteAt (store16 order x) 1 := by
    rw [byteAt_append, if_neg (by omega), byteAt_append, if_pos (by simp)]
    simp
  rw [load16, h₀, h₁, word16_store16]

/-- A conversion followed by a store writes the big-endian bytes on every host. -/
@[simp] theorem store16_htons (order : ByteOrder) (x : UInt16) :
    store16 order (htons order x) = store16 .big x := by
  have hx := x.toNat_lt
  cases order
  · have hlow : (256 * (x.toNat % 256) + x.toNat / 256) % 256 = x.toNat / 256 := by omega
    have hhigh : (256 * (x.toNat % 256) + x.toNat / 256) / 256 = x.toNat % 256 := by omega
    simp only [store16, htons, toNat_swap16, hlow, hhigh]
  · rfl

/-- A word stored on a little-endian host and loaded on a big-endian one, or the other way, comes
out with its bytes exchanged. -/
theorem store16_little_eq (x : UInt16) : store16 .little x = store16 .big (swap16 x) :=
  store16_htons .little (swap16 x) ▸ by simp only [htons, swap16_swap16]

/-! ### Thirty-two-bit words -/

/-- The word whose four bytes lie in memory in the given order. -/
def word32 (order : ByteOrder) (b₀ b₁ b₂ b₃ : UInt8) : UInt32 :=
  match order with
  | .little =>
    UInt32.ofNat (b₀.toNat + 256 * b₁.toNat + 65536 * b₂.toNat + 16777216 * b₃.toNat)
  | .big => UInt32.ofNat (16777216 * b₀.toNat + 65536 * b₁.toNat + 256 * b₂.toNat + b₃.toNat)

/-- A load of a thirty-two-bit word. -/
def load32 (order : ByteOrder) (bytes : List UInt8) (offset : ℕ) : UInt32 :=
  word32 order (byteAt bytes offset) (byteAt bytes (offset + 1)) (byteAt bytes (offset + 2))
    (byteAt bytes (offset + 3))

/-- The byte of a word that weighs `256 ^ place`. -/
def byteOfWord (x : UInt32) (place : ℕ) : UInt8 := UInt8.ofNat (x.toNat / 256 ^ place % 256)

/-- The four bytes a store of a thirty-two-bit word writes. -/
def store32 (order : ByteOrder) (x : UInt32) : List UInt8 :=
  match order with
  | .little => [byteOfWord x 0, byteOfWord x 1, byteOfWord x 2, byteOfWord x 3]
  | .big => [byteOfWord x 3, byteOfWord x 2, byteOfWord x 1, byteOfWord x 0]

/-- The word with its four bytes in the opposite order. -/
def swap32 (x : UInt32) : UInt32 :=
  word32 .big (byteOfWord x 0) (byteOfWord x 1) (byteOfWord x 2) (byteOfWord x 3)

/-- `ntohl`: network order to host order. -/
def ntohl (order : ByteOrder) (x : UInt32) : UInt32 :=
  match order with
  | .little => swap32 x
  | .big => x

/-- `htonl`: host order to network order. -/
def htonl (order : ByteOrder) (x : UInt32) : UInt32 :=
  match order with
  | .little => swap32 x
  | .big => x

@[simp] theorem length_store32 (order : ByteOrder) (x : UInt32) :
    (store32 order x).length = 4 := by
  cases order <;> rfl

theorem toNat_byteOfWord (x : UInt32) (place : ℕ) :
    (byteOfWord x place).toNat = x.toNat / 256 ^ place % 256 := by
  simp only [byteOfWord, UInt8.toNat_ofNat']
  omega

theorem toNat_word32_big (b₀ b₁ b₂ b₃ : UInt8) :
    (word32 .big b₀ b₁ b₂ b₃).toNat =
      16777216 * b₀.toNat + 65536 * b₁.toNat + 256 * b₂.toNat + b₃.toNat := by
  have h₀ := b₀.toNat_lt
  have h₁ := b₁.toNat_lt
  have h₂ := b₂.toNat_lt
  have h₃ := b₃.toNat_lt
  simp only [word32, UInt32.toNat_ofNat']
  omega

theorem word32_little_eq (b₀ b₁ b₂ b₃ : UInt8) :
    word32 .little b₀ b₁ b₂ b₃ = word32 .big b₃ b₂ b₁ b₀ := by
  have hsum : b₀.toNat + 256 * b₁.toNat + 65536 * b₂.toNat + 16777216 * b₃.toNat =
      16777216 * b₃.toNat + 65536 * b₂.toNat + 256 * b₁.toNat + b₀.toNat := by omega
  simp only [word32, hsum]

/-- The bytes of a word put together again. -/
theorem word32_big_byteOfWord (x : UInt32) :
    word32 .big (byteOfWord x 3) (byteOfWord x 2) (byteOfWord x 1) (byteOfWord x 0) = x := by
  have hx := x.toNat_lt
  rw [← UInt32.toNat_inj, toNat_word32_big]
  simp only [toNat_byteOfWord]
  omega

/-- The bytes of a word put together: reading a byte of it gives that byte back. -/
theorem byteOfWord_word32_big (b₀ b₁ b₂ b₃ : UInt8) :
    byteOfWord (word32 .big b₀ b₁ b₂ b₃) 0 = b₃ ∧ byteOfWord (word32 .big b₀ b₁ b₂ b₃) 1 = b₂ ∧
      byteOfWord (word32 .big b₀ b₁ b₂ b₃) 2 = b₁ ∧
      byteOfWord (word32 .big b₀ b₁ b₂ b₃) 3 = b₀ := by
  have h₀ := b₀.toNat_lt
  have h₁ := b₁.toNat_lt
  have h₂ := b₂.toNat_lt
  have h₃ := b₃.toNat_lt
  simp only [← UInt8.toNat_inj, toNat_byteOfWord, toNat_word32_big]
  omega

/-- A load followed by `ntohl` is the big-endian value on every host. -/
@[simp] theorem ntohl_load32 (order : ByteOrder) (bytes : List UInt8) (offset : ℕ) :
    ntohl order (load32 order bytes offset) = load32 .big bytes offset := by
  cases order
  · obtain ⟨h₀, h₁, h₂, h₃⟩ := byteOfWord_word32_big (byteAt bytes (offset + 3))
      (byteAt bytes (offset + 2)) (byteAt bytes (offset + 1)) (byteAt bytes offset)
    simp only [ntohl, load32, word32_little_eq, swap32, h₀, h₁, h₂, h₃]
  · rfl

/-- A conversion followed by a store writes the big-endian bytes on every host. -/
@[simp] theorem store32_htonl (order : ByteOrder) (x : UInt32) :
    store32 order (htonl order x) = store32 .big x := by
  cases order
  · obtain ⟨h₀, h₁, h₂, h₃⟩ :=
      byteOfWord_word32_big (byteOfWord x 0) (byteOfWord x 1) (byteOfWord x 2) (byteOfWord x 3)
    simp only [store32, htonl, swap32, h₀, h₁, h₂, h₃]
  · rfl

/-- A big-endian store read back, anywhere in a buffer. -/
theorem load32_store32 (before rest : List UInt8) (x : UInt32) :
    load32 .big (before ++ (store32 .big x ++ rest)) before.length = x := by
  have hread : ∀ i < 4, byteAt (before ++ (store32 .big x ++ rest)) (before.length + i) =
      byteAt (store32 .big x) i := by
    intro i hi
    rw [byteAt_append, if_neg (by omega), byteAt_append,
      if_pos (by rw [length_store32]; omega), Nat.add_sub_cancel_left]
  have h₀ := hread 0 (by omega)
  rw [Nat.add_zero] at h₀
  rw [load32, h₀, hread 1 (by omega), hread 2 (by omega), hread 3 (by omega)]
  exact word32_big_byteOfWord x

/-! ### Assigning to a run of bytes -/

/-- The buffer after the given bytes are copied to it at an offset. A byte that would fall past
the end of the buffer is not written. -/
def overwrite (buffer : List UInt8) (offset : ℕ) : List UInt8 → List UInt8
  | [] => buffer
  | b :: rest => overwrite (buffer.set offset b) (offset + 1) rest

@[simp] theorem length_overwrite (bytes : List UInt8) :
    ∀ (buffer : List UInt8) (offset : ℕ), (overwrite buffer offset bytes).length = buffer.length := by
  induction bytes with
  | nil => intro buffer offset; rfl
  | cons b rest ih => intro buffer offset; rw [overwrite, ih, List.length_set]

theorem byteAt_set (buffer : List UInt8) (offset : ℕ) (b : UInt8) (i : ℕ) :
    byteAt (buffer.set offset b) i =
      if i = offset ∧ i < buffer.length then b else byteAt buffer i := by
  simp only [byteAt, List.getD_eq_getElem?_getD, List.getElem?_set]
  by_cases hi : offset = i
  · subst hi
    by_cases hlength : offset < buffer.length <;> simp [hlength]
  · simp [hi, Ne.symm hi]

/-- The frame law of `overwrite`: the bytes of the run are the new ones, every other byte is as it
was. -/
theorem byteAt_overwrite (bytes : List UInt8) :
    ∀ (buffer : List UInt8) (offset i : ℕ), byteAt (overwrite buffer offset bytes) i =
      if offset ≤ i ∧ i < offset + bytes.length ∧ i < buffer.length then byteAt bytes (i - offset)
      else byteAt buffer i := by
  induction bytes with
  | nil =>
    intro buffer offset i
    rw [overwrite, if_neg (by rw [List.length_nil]; omega)]
  | cons b rest ih =>
    intro buffer offset i
    rw [overwrite, ih, List.length_set, List.length_cons, byteAt_set]
    by_cases hi : i = offset
    · subst hi
      by_cases hlength : i < buffer.length
      · rw [if_neg (by omega), if_pos (by omega), if_pos (by omega), Nat.sub_self,
          byteAt_cons_zero]
      · rw [if_neg (by omega), if_neg (by omega), if_neg (by omega)]
    · by_cases hrun : offset ≤ i ∧ i < offset + (rest.length + 1) ∧ i < buffer.length
      · have hsucc : i - offset = (i - (offset + 1)) + 1 := by omega
        rw [if_pos (by omega), if_pos hrun, hsucc, byteAt_cons_succ]
      · rw [if_neg (by omega), if_neg (by omega), if_neg hrun]

/-- Assigning to a part of a buffer replaces that part. Assumes: as many bytes as the part has. -/
theorem overwrite_append (new : List UInt8) : ∀ (before old rest : List UInt8),
    old.length = new.length →
      overwrite (before ++ (old ++ rest)) before.length new = before ++ (new ++ rest) := by
  induction new with
  | nil =>
    intro before old rest hlength
    rw [List.eq_nil_of_length_eq_zero hlength]
    rfl
  | cons b new ih =>
    intro before old rest hlength
    obtain ⟨o, old, rfl⟩ := List.exists_cons_of_length_eq_add_one hlength
    have hset : (before ++ (o :: old ++ rest)).set before.length b =
        (before ++ [b]) ++ (old ++ rest) := by
      simp [List.set_append_right]
    have hrest := ih (before ++ [b]) old rest (Nat.succ.inj hlength)
    rw [List.length_append, List.length_singleton] at hrest
    rw [overwrite, hset, hrest, List.append_assoc, List.singleton_append, List.cons_append]

/-- Assumes: bytes that fit the buffer. -/
theorem overwrite_eq_append {buffer new : List UInt8} {offset : ℕ}
    (h : offset + new.length ≤ buffer.length) : overwrite buffer offset new =
      buffer.take offset ++ (new ++ buffer.drop (offset + new.length)) := by
  have hbefore : (buffer.take offset).length = offset := by
    rw [List.length_take]
    omega
  have hold : ((buffer.drop offset).take new.length).length = new.length := by
    rw [List.length_take, List.length_drop]
    omega
  have hreplace := overwrite_append new (buffer.take offset) ((buffer.drop offset).take new.length)
    (buffer.drop (offset + new.length)) hold
  rwa [hbefore, ← List.drop_drop, List.take_append_drop, List.take_append_drop, List.drop_drop]
    at hreplace

/-- What lies behind the bytes that are replaced stays. -/
theorem drop_overwrite (bytes : List UInt8) : ∀ (buffer : List UInt8) (offset count : ℕ),
    offset + bytes.length ≤ count → (overwrite buffer offset bytes).drop count = buffer.drop count := by
  induction bytes with
  | nil => intro buffer offset count h; rfl
  | cons b rest ih =>
    intro buffer offset count h
    rw [List.length_cons] at h
    rw [overwrite, ih _ _ _ (by omega), List.drop_set_of_lt (by omega)]

end IpRipStack.MachineWord
