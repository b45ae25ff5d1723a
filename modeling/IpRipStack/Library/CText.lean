import IpRipStack.Library.CScan
import Mathlib.Data.Nat.Digits.Lemmas

/-!
# Printing C strings

What `printf` writes for a number that is not negative, and `inet_ntop` for an address, on bytes.
The scanning functions read back what these write: `decimal_unsignedText`, `numeral_unsignedText`.

Among the texts of a number `%u` writes the one without leading zeros (`eq_unsignedText_iff`).
`inet_pton` takes no other, so that it and `inet_ntop` are inverse to each other, and an address has
one text (`inetPton_eq_some_iff`).
-/

set_option autoImplicit false
set_option relaxedAutoImplicit false

namespace IpRipStack.CScan

/-- The character of a decimal digit. -/
def digitChar (d : ℕ) : UInt8 := UInt8.ofNat (48 + d)

/-- The conversions `%u` and `%d`, for a number that is not negative. -/
def unsignedText (n : ℕ) : List UInt8 :=
  if n = 0 then [48] else (Nat.digits 10 n).reverse.map digitChar

/-- `inet_ntop` for the family `AF_INET`, from the four bytes of the address as they lie in
memory. -/
def inetNtop : UInt8 × UInt8 × UInt8 × UInt8 → List UInt8
  | (a, b, c, d) => [46].intercalate
    [unsignedText a.toNat, unsignedText b.toNat, unsignedText c.toNat, unsignedText d.toNat]

/-! ### The text of a number -/

theorem toNat_digitChar {d : ℕ} (h : d < 10) : (digitChar d).toNat = 48 + d := by
  unfold digitChar
  rw [UInt8.toNat_ofNat']
  omega

theorem isDigit_iff {c : UInt8} : isDigit c = true ↔ 48 ≤ c.toNat ∧ c.toNat ≤ 57 := by
  unfold isDigit
  rw [Bool.and_eq_true, decide_eq_true_iff, decide_eq_true_iff, UInt8.le_iff_toNat_le,
    UInt8.le_iff_toNat_le]
  rfl

theorem isDigit_digitChar {d : ℕ} (h : d < 10) : isDigit (digitChar d) = true := by
  rw [isDigit_iff, toNat_digitChar h]
  omega

/-- A digit is the character of its value. -/
theorem digitChar_of_isDigit {c : UInt8} (h : isDigit c = true) : digitChar (c.toNat - 48) = c := by
  obtain ⟨hlower, hupper⟩ := isDigit_iff.mp h
  rw [← UInt8.toNat_inj, toNat_digitChar (by omega)]
  omega

/-- The number that digits denote, from the last digit on. -/
theorem decimal_eq_ofDigits (digits : List UInt8) :
    decimal digits = Nat.ofDigits 10 (digits.reverse.map fun c ↦ c.toNat - 48) := by
  rw [Nat.ofDigits_eq_foldr, List.foldr_map, List.foldr_reverse]
  refine congrArg (fun f : ℕ → UInt8 → ℕ ↦ digits.foldl f 0) ?_
  funext n c
  rw [Nat.cast_id, add_comm]

theorem decimal_unsignedText (n : ℕ) : decimal (unsignedText n) = n := by
  unfold unsignedText
  split_ifs with hzero
  · rw [hzero]
    rfl
  · have hvalues : (Nat.digits 10 n).map (fun d ↦ (digitChar d).toNat - 48) = Nat.digits 10 n := by
      refine List.map_congr_left (g := id) (fun d hd ↦ ?_) |>.trans (List.map_id _)
      rw [toNat_digitChar (Nat.digits_lt_base (by decide) hd), Nat.add_sub_cancel_left]
      rfl
    rw [decimal_eq_ofDigits, ← List.map_reverse, List.reverse_reverse, List.map_map]
    exact (congrArg (Nat.ofDigits 10) hvalues).trans (Nat.ofDigits_digits 10 n)

theorem isDigit_of_mem_unsignedText {n : ℕ} {c : UInt8} (h : c ∈ unsignedText n) :
    isDigit c = true := by
  unfold unsignedText at h
  split_ifs at h
  · rw [List.mem_singleton.mp h]
    rfl
  · obtain ⟨d, hd, rfl⟩ := List.mem_map.mp h
    exact isDigit_digitChar (Nat.digits_lt_base (by decide) (List.mem_reverse.mp hd))

theorem unsignedText_ne_nil (n : ℕ) : unsignedText n ≠ [] := by
  unfold unsignedText
  split_ifs with hzero
  · exact List.cons_ne_nil 48 []
  · intro hnil
    have hdigits := List.reverse_eq_nil_iff.mp (List.map_eq_nil_iff.mp hnil)
    exact hzero (Nat.digits_eq_nil_iff_eq_zero.mp hdigits)

theorem length_unsignedText_le {n k : ℕ} (hk : 0 < k) (h : n < 10 ^ k) :
    (unsignedText n).length ≤ k := by
  unfold unsignedText
  split_ifs
  · exact hk
  · rw [List.length_map, List.length_reverse]
    exact (Nat.digits_length_le_iff (by decide) n).mpr h

/-- A number is written without leading zeros. -/
theorem head?_unsignedText {n : ℕ} :
    (unsignedText n).length = 1 ∨ (unsignedText n).head? ≠ some 48 := by
  unfold unsignedText
  split_ifs with hzero
  · exact Or.inl rfl
  · right
    rw [List.head?_map, List.head?_reverse,
      List.getLast?_eq_getLast_of_ne_nil (Nat.digits_ne_nil_iff_ne_zero.mpr hzero)]
    intro hhead
    have hlast := Nat.digits_lt_base (by decide : 1 < 10)
      (List.getLast_mem (Nat.digits_ne_nil_iff_ne_zero.mpr hzero))
    have hvalue := congrArg UInt8.toNat (Option.some.inj hhead)
    rw [toNat_digitChar hlast] at hvalue
    exact Nat.getLast_digit_ne_zero 10 hzero (by simpa using hvalue)

/-- The texts that `%u` writes are those of digits without leading zeros. -/
theorem eq_unsignedText_iff {digits : List UInt8} {n : ℕ} : digits = unsignedText n ↔
    digits ≠ [] ∧ (∀ c ∈ digits, isDigit c = true) ∧
      (digits.length = 1 ∨ digits.head? ≠ some 48) ∧ decimal digits = n := by
  constructor
  · rintro rfl
    exact ⟨unsignedText_ne_nil n, fun c ↦ isDigit_of_mem_unsignedText, head?_unsignedText,
      decimal_unsignedText n⟩
  · rintro ⟨hne, hdigits, hleading, rfl⟩
    obtain ⟨c, others, rfl⟩ := List.exists_cons_of_ne_nil hne
    rcases eq_or_ne c 48 with rfl | hfirst
    · obtain rfl : others = [] := by
        have hlength := hleading.resolve_right (fun h ↦ h rfl)
        exact List.length_eq_zero_iff.mp (Nat.succ.inj hlength)
      rfl
    · obtain ⟨hlower, -⟩ := isDigit_iff.mp (hdigits c List.mem_cons_self)
      have hnonzero : c.toNat - 48 ≠ 0 := by
        intro h
        exact hfirst (UInt8.toNat_inj.mp (by change c.toNat = 48; omega))
      have hvalues : Nat.digits 10 (decimal (c :: others)) =
          ((c :: others).reverse.map fun c ↦ c.toNat - 48) := by
        rw [decimal_eq_ofDigits]
        refine Nat.digits_ofDigits 10 (by decide) _ ?_ fun hne ↦ ?_
        · intro d hd
          obtain ⟨c', hc', rfl⟩ := List.mem_map.mp hd
          obtain ⟨-, hupper⟩ := isDigit_iff.mp (hdigits c' (List.mem_reverse.mp hc'))
          omega
        · simpa using hnonzero
      have hpositive : decimal (c :: others) ≠ 0 := by
        rw [← Nat.digits_ne_nil_iff_ne_zero (b := 10), hvalues]
        simp
      have hchars : (c :: others).map (fun c ↦ digitChar (c.toNat - 48)) = c :: others := by
        refine (List.map_congr_left (g := id) fun c' hc' ↦ ?_).trans (List.map_id _)
        exact digitChar_of_isDigit (hdigits c' hc')
      unfold unsignedText
      rw [if_neg hpositive, hvalues, ← List.map_reverse, List.reverse_reverse, List.map_map]
      exact hchars.symm

/-! ### The text of an address -/

theorem scanOctet_eq_some_iff {digits : List UInt8} {b : UInt8} :
    scanOctet digits = some b ↔ digits = unsignedText b.toNat := by
  have hlt := b.toNat_lt
  unfold scanOctet
  rw [eq_unsignedText_iff]
  split_ifs with hform
  · obtain ⟨hne, hdigits, hleading, hupper⟩ := hform
    rw [Option.some_inj, ← UInt8.toNat_inj, UInt8.toNat_ofNat', Nat.mod_eq_of_lt (by omega)]
    exact ⟨fun h ↦ ⟨hne, List.all_eq_true.mp hdigits, hleading, h⟩, fun h ↦ h.2.2.2⟩
  · refine iff_of_false (fun h ↦ nomatch h) ?_
    rintro ⟨hne, hdigits, hleading, hvalue⟩
    exact hform ⟨hne, List.all_eq_true.mpr hdigits, hleading, by omega⟩

/-- `inet_pton` takes the texts that `inet_ntop` writes, and no others. -/
theorem inetPton_eq_some_iff {s : List UInt8} {address : UInt8 × UInt8 × UInt8 × UInt8} :
    inetPton s = some address ↔ s = inetNtop address := by
  obtain ⟨a, b, c, d⟩ := address
  have hsplit : s.splitOn 46 = [unsignedText a.toNat, unsignedText b.toNat, unsignedText c.toNat,
      unsignedText d.toNat] ↔ s = inetNtop (a, b, c, d) := by
    have hdots : ∀ n : ℕ, (46 : UInt8) ∉ unsignedText n :=
      fun n hdot ↦ absurd (isDigit_of_mem_unsignedText hdot) (by decide)
    constructor
    · intro hparts
      have hjoined : [46].intercalate (s.splitOn 46) = s := List.intercalate_splitOn 46
      rw [← hjoined, hparts]
      rfl
    · rintro rfl
      refine List.splitOn_intercalate 46 ?_ (List.cons_ne_nil _ _)
      simp [hdots]
  rw [← hsplit]
  unfold inetPton
  split
  · rename_i a' b' c' d' hparts
    simp only [hparts, Option.bind_eq_bind, Option.bind_eq_some_iff, scanOctet_eq_some_iff,
      Option.pure_def, Option.some_inj, Prod.mk.injEq, List.cons.injEq, and_true]
    constructor
    · rintro ⟨_, ha, _, hb, _, hc, _, hd, rfl, rfl, rfl, rfl⟩
      exact ⟨ha, hb, hc, hd⟩
    · rintro ⟨ha, hb, hc, hd⟩
      exact ⟨_, ha, _, hb, _, hc, _, hd, rfl, rfl, rfl, rfl⟩
  · rename_i hparts
    exact iff_of_false (fun h ↦ nomatch h) (hparts _ _ _ _)

theorem inetPton_inetNtop (address : UInt8 × UInt8 × UInt8 × UInt8) :
    inetPton (inetNtop address) = some address :=
  inetPton_eq_some_iff.mpr rfl

/-- The characters of an address are digits and dots. -/
theorem mem_inetNtop {address : UInt8 × UInt8 × UInt8 × UInt8} {c : UInt8}
    (h : c ∈ inetNtop address) : isDigit c = true ∨ c = 46 := by
  obtain ⟨a, b, c', d⟩ := address
  unfold inetNtop at h
  simp only [List.intercalate_cons_cons, List.intercalate_singleton, List.mem_append,
    List.mem_singleton] at h
  grind [isDigit_of_mem_unsignedText]

theorem inetNtop_ne_nil (address : UInt8 × UInt8 × UInt8 × UInt8) : inetNtop address ≠ [] := by
  obtain ⟨a, b, c, d⟩ := address
  unfold inetNtop
  dsimp only
  rw [List.intercalate_cons_cons, List.append_assoc]
  exact List.append_ne_nil_of_left_ne_nil (unsignedText_ne_nil _) _

/-- An address has room in `INET_ADDRSTRLEN` characters. -/
theorem length_inetNtop_lt (address : UInt8 × UInt8 × UInt8 × UInt8) :
    (inetNtop address).length < 16 := by
  have hoctet : ∀ b : UInt8, (unsignedText b.toNat).length ≤ 3 := fun b ↦
    length_unsignedText_le (by decide) (b.toNat_lt.trans (by decide))
  obtain ⟨a, b, c, d⟩ := address
  have ha := hoctet a
  have hb := hoctet b
  have hc := hoctet c
  have hd := hoctet d
  unfold inetNtop
  simp only [List.intercalate_cons_cons, List.intercalate_singleton, List.length_append,
    List.length_singleton]
  omega

/-! ### What the conversions read back -/

theorem not_isSpace_of_mem_inetNtop {address : UInt8 × UInt8 × UInt8 × UInt8} {c : UInt8}
    (h : c ∈ inetNtop address) : isSpace c = false := by
  rcases mem_inetNtop h with hdigit | rfl
  · exact not_isSpace_of_isDigit hdigit
  · rfl

/-- An address is read as a token. -/
theorem token_inetNtop (address : UInt8 × UInt8 × UInt8 × UInt8) (blanks rest : List UInt8)
    (hblanks : ∀ c ∈ blanks, isSpace c = true) (hrest : ∀ c ∈ rest.head?, isSpace c = true) :
    Token (blanks ++ (inetNtop address ++ rest)) (inetNtop address) rest :=
  ⟨blanks, rfl, hblanks, inetNtop_ne_nil address, fun _ ↦ not_isSpace_of_mem_inetNtop, hrest⟩

/-- A number is read as a numeral. -/
theorem numeral_unsignedText (n : ℕ) (blanks rest : List UInt8)
    (hblanks : ∀ c ∈ blanks, isSpace c = true) (hrest : ∀ c ∈ rest.head?, isDigit c = false) :
    Numeral (blanks ++ (unsignedText n ++ rest)) false n rest :=
  ⟨blanks, [], unsignedText n, rfl, hblanks, Or.inl rfl, unsignedText_ne_nil n,
    fun _ ↦ isDigit_of_mem_unsignedText, hrest, decimal_unsignedText n⟩

end IpRipStack.CScan
