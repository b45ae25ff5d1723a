import Mathlib.Algebra.Group.Int.Defs
import Mathlib.Algebra.Group.Nat.Defs
import Mathlib.Data.List.Basic
import Mathlib.Data.List.TakeWhile
import Mathlib.Tactic.Common

/-!
# Scanning C strings

The conversions of `sscanf` and `inet_pton`, on the bytes of a string in the C locale. A conversion
gives its value and the characters that are left, `none` where it does not match. The unsigned
conversions of all widths are one: the value is that of `strtoul` where `long` has 64 bits, and is
cut to the width of the object it is assigned to. So is that of `strtol` (`storedInt`).

`Token` and `Numeral` say what text the conversions match, whatever comes behind it.
`scanToken_eq_some_iff` and `scanNumeral_eq_some_iff` are the whole truth about the two: what they
match, and that they match it in one way only follows.
-/

set_option autoImplicit false
set_option relaxedAutoImplicit false

namespace IpRipStack.CScan

/-- The string at a pointer into memory: the characters up to the first zero. -/
def cString (memory : List UInt8) : List UInt8 := memory.takeWhile fun b ↦ b ≠ 0

/-- `isspace`. -/
def isSpace (c : UInt8) : Bool := c == 32 || (9 ≤ c && c ≤ 13)

/-- `isdigit`. -/
def isDigit (c : UInt8) : Bool := 48 ≤ c && c ≤ 57

/-- The value of a sequence of decimal digits. -/
def decimal (digits : List UInt8) : ℕ := digits.foldl (fun n c ↦ 10 * n + (c.toNat - 48)) 0

/-- The result of `strtoul` for a sign and the digits behind it. -/
def strtoul (negative : Bool) (n : ℕ) : ℕ :=
  if 2 ^ 64 ≤ n then 2 ^ 64 - 1
  else if negative then (2 ^ 64 - n) % 2 ^ 64
  else n

/-- The number with its sign. -/
def signed (negative : Bool) (n : ℕ) : Int := if negative = true then -n else n

/-- The result of `strtol` for a sign and the digits behind it. -/
def strtol (negative : Bool) (n : ℕ) : Int := max (-2 ^ 63) (min (2 ^ 63 - 1) (signed negative n))

/-- What an `int` of 32 bits holds after the number is assigned to it. -/
def storedInt (negative : Bool) (n : ℕ) : Int := (strtol negative n).bmod (2 ^ 32)

/-- Characters of a format that are to be matched as they are. -/
def scanLiteral : List UInt8 → List UInt8 → Option (List UInt8)
  | [], s => some s
  | _ :: _, [] => none
  | l :: literal, c :: s => if c = l then scanLiteral literal s else none

/-- The conversion `%s`. -/
def scanToken (s : List UInt8) : Option (List UInt8 × List UInt8) :=
  let s := s.dropWhile isSpace
  let token := s.takeWhile fun c ↦ !isSpace c
  if token = [] then none else some (token, s.dropWhile fun c ↦ !isSpace c)

/-- The sign of a number, if there is one, and what comes behind it. -/
def scanSign : List UInt8 → Bool × List UInt8
  | [] => (false, [])
  | c :: s => if c = 43 then (false, s) else if c = 45 then (true, s) else (false, c :: s)

/-- The conversions `%u`, `%hu` and `%hhu`. -/
def scanUnsigned (s : List UInt8) : Option (ℕ × List UInt8) :=
  let signed := scanSign (s.dropWhile isSpace)
  let digits := signed.2.takeWhile isDigit
  if digits = [] then none
  else some (strtoul signed.1 (decimal digits), signed.2.dropWhile isDigit)

/-- A number as the conversions take it apart: its sign, its digits and what is left. -/
def scanNumeral (s : List UInt8) : Option (Bool × ℕ × List UInt8) :=
  let signed := scanSign (s.dropWhile isSpace)
  let digits := signed.2.takeWhile isDigit
  if digits = [] then none else some (signed.1, decimal digits, signed.2.dropWhile isDigit)

/-- The conversion `%d`. -/
def scanInt (s : List UInt8) : Option (Int × List UInt8) :=
  (scanNumeral s).map fun numeral ↦ (storedInt numeral.1 numeral.2.1, numeral.2.2)

/-- One of the four numbers of an address: decimal digits without a leading zero, at most `255`. -/
def scanOctet (digits : List UInt8) : Option UInt8 :=
  if digits ≠ [] ∧ digits.all isDigit ∧ (digits.length = 1 ∨ digits.head? ≠ some 48) ∧
      decimal digits ≤ 255 then
    some (UInt8.ofNat (decimal digits))
  else none

/-- `inet_pton` for the family `AF_INET`: the four bytes of the address as they lie in memory. -/
def inetPton (s : List UInt8) : Option (UInt8 × UInt8 × UInt8 × UInt8) :=
  match s.splitOn 46 with
  | [a, b, c, d] => do
    let a ← scanOctet a
    let b ← scanOctet b
    let c ← scanOctet c
    let d ← scanOctet d
    pure (a, b, c, d)
  | _ => none

/-! ### What a conversion matches -/

/-- The text begins, behind white space, with the token, which goes as far as it can. -/
def Token (s token rest : List UInt8) : Prop :=
  ∃ blanks : List UInt8, s = blanks ++ (token ++ rest) ∧ (∀ c ∈ blanks, isSpace c = true) ∧
    token ≠ [] ∧ (∀ c ∈ token, isSpace c = false) ∧ ∀ c ∈ rest.head?, isSpace c = true

/-- The text begins, behind white space, with a decimal number that may have a sign; its digits go
as far as they can. -/
def Numeral (s : List UInt8) (negative : Bool) (n : ℕ) (rest : List UInt8) : Prop :=
  ∃ blanks sign digits : List UInt8, s = blanks ++ (sign ++ (digits ++ rest)) ∧
    (∀ c ∈ blanks, isSpace c = true) ∧
    (if negative = true then sign = [45] else sign = [] ∨ sign = [43]) ∧
    digits ≠ [] ∧ (∀ c ∈ digits, isDigit c = true) ∧ (∀ c ∈ rest.head?, isDigit c = false) ∧
    decimal digits = n

theorem scanUnsigned_eq (s : List UInt8) : scanUnsigned s =
    (scanNumeral s).map fun numeral ↦ (strtoul numeral.1 numeral.2.1, numeral.2.2) := by
  unfold scanUnsigned scanNumeral
  dsimp only
  split_ifs <;> rfl

variable {s token rest : List UInt8}

/-- A string lies in memory up to its zero. -/
theorem cString_append_zero (h : 0 ∉ s) (beyond : List UInt8) : cString (s ++ 0 :: beyond) = s := by
  have hall : ∀ c ∈ s, decide (c ≠ 0) = true :=
    fun c hc ↦ decide_eq_true (ne_of_mem_of_not_mem hc h)
  unfold cString
  rw [List.takeWhile_append_of_pos hall, List.takeWhile_cons_of_neg (by decide), List.append_nil]

theorem scanLiteral_eq_some_iff {literal : List UInt8} :
    scanLiteral literal s = some rest ↔ s = literal ++ rest := by
  induction literal generalizing s with
  | nil => exact Option.some_inj
  | cons l literal ih =>
    cases s with
    | nil => simp [scanLiteral]
    | cons c s =>
      unfold scanLiteral
      split_ifs with hsame
      · rw [ih, List.cons_append, hsame, List.cons_inj_right]
      · refine iff_of_false id fun h ↦ hsame ?_
        exact (List.cons.inj h).1

/-- The longest beginning that passes a test. -/
theorem takeWhile_dropWhile_iff {p : UInt8 → Bool} {first : List UInt8} :
    s.takeWhile p = first ∧ s.dropWhile p = rest ↔
      s = first ++ rest ∧ (∀ c ∈ first, p c = true) ∧ ∀ c ∈ rest.head?, p c = false := by
  constructor
  · rintro ⟨rfl, rfl⟩
    have hall : (s.takeWhile p).all p = true := List.all_takeWhile
    refine ⟨List.takeWhile_append_dropWhile.symm, List.all_eq_true.mp hall, ?_⟩
    intro c hc
    have hnot := List.head?_dropWhile_not p s
    rw [Option.mem_def.mp hc] at hnot
    exact hnot
  · rintro ⟨rfl, hfirst, hrest⟩
    have hstop : rest.takeWhile p = [] ∧ rest.dropWhile p = rest := by
      cases rest with
      | nil => exact ⟨rfl, rfl⟩
      | cons c rest =>
        have hc : ¬ p c = true := Bool.eq_false_iff.mp (hrest c rfl)
        exact ⟨List.takeWhile_cons_of_neg hc, List.dropWhile_cons_of_neg hc⟩
    rw [List.takeWhile_append_of_pos hfirst, List.dropWhile_append_of_pos hfirst, hstop.1, hstop.2,
      List.append_nil]
    exact ⟨rfl, rfl⟩

/-- What is left behind white space. -/
theorem dropWhile_isSpace_iff : s.dropWhile isSpace = rest ↔
    ∃ blanks : List UInt8, s = blanks ++ rest ∧ (∀ c ∈ blanks, isSpace c = true) ∧
      ∀ c ∈ rest.head?, isSpace c = false := by
  constructor
  · intro hrest
    exact ⟨_, takeWhile_dropWhile_iff.mp ⟨rfl, hrest⟩⟩
  · rintro ⟨blanks, hblanks⟩
    exact (takeWhile_dropWhile_iff.mpr hblanks).2

/-- There is no token where there is nothing but white space. -/
theorem scanToken_eq_none_iff : scanToken s = none ↔ ∀ c ∈ s, isSpace c = true := by
  rw [← List.dropWhile_eq_nil_iff]
  unfold scanToken
  dsimp only
  cases hbehind : s.dropWhile isSpace with
  | nil => exact iff_of_true rfl rfl
  | cons c behind =>
    obtain ⟨-, -, -, hhead⟩ := dropWhile_isSpace_iff.mp hbehind
    have hc : isSpace c = false := hhead c rfl
    refine iff_of_false ?_ (List.cons_ne_nil c behind)
    rw [List.takeWhile_cons_of_pos (by rw [hc]; rfl), if_neg (List.cons_ne_nil _ _)]
    exact Option.some_ne_none _

theorem scanToken_eq_some_iff : scanToken s = some (token, rest) ↔ Token s token rest := by
  have hscan : scanToken s = some (token, rest) ↔ token ≠ [] ∧
      ((s.dropWhile isSpace).takeWhile fun c ↦ !isSpace c) = token ∧
        ((s.dropWhile isSpace).dropWhile fun c ↦ !isSpace c) = rest := by
    unfold scanToken
    dsimp only
    split_ifs with hempty
    · refine iff_of_false id ?_
      rintro ⟨hne, htoken, -⟩
      exact hne (htoken ▸ hempty)
    · rw [Option.some_inj, Prod.mk.injEq]
      exact ⟨fun h ↦ ⟨h.1 ▸ hempty, h⟩, fun h ↦ h.2⟩
  rw [hscan, takeWhile_dropWhile_iff]
  simp only [Bool.not_eq_true', Bool.not_eq_false']
  constructor
  · rintro ⟨hne, hsplit, htoken, hrest⟩
    obtain ⟨blanks, hs, hblanks, -⟩ := dropWhile_isSpace_iff.mp hsplit
    exact ⟨blanks, hs, hblanks, hne, htoken, hrest⟩
  · rintro ⟨blanks, hs, hblanks, hne, htoken, hrest⟩
    refine ⟨hne, dropWhile_isSpace_iff.mpr ⟨blanks, hs, hblanks, fun c hc ↦ ?_⟩, htoken, hrest⟩
    rw [List.head?_append_of_ne_nil _ hne] at hc
    exact htoken c (List.mem_of_mem_head? hc)

theorem not_isSpace_of_isDigit {c : UInt8} (h : isDigit c = true) : isSpace c = false := by
  unfold isDigit at h
  unfold isSpace
  grind

/-- A sign, or the lack of one where none comes. -/
theorem scanSign_eq_iff {negative : Bool} : scanSign s = (negative, rest) ↔
    ∃ sign : List UInt8, s = sign ++ rest ∧
      (if negative = true then sign = [45] else sign = [] ∨ sign = [43]) ∧
      (sign = [] → s.head? ≠ some 43 ∧ s.head? ≠ some 45) := by
  have hopt : ∀ p : List UInt8 → Prop, (∃ sign, p sign ∧ (sign = [] ∨ sign = [43]) ∧
      (sign = [] → s.head? ≠ some 43 ∧ s.head? ≠ some 45)) ↔
      (p [] ∧ s.head? ≠ some 43 ∧ s.head? ≠ some 45) ∨ p [43] := by
    intro p
    simp [or_and_right, and_or_left, exists_or]
  cases negative with
  | true =>
    cases s with
    | nil => simp [scanSign]
    | cons c s =>
      unfold scanSign
      grind
  | false =>
    simp only [Bool.false_eq_true, if_false]
    rw [hopt fun sign ↦ s = sign ++ rest]
    cases s with
    | nil => simp [scanSign]
    | cons c s =>
      unfold scanSign
      grind

theorem scanNumeral_eq_some_iff {negative : Bool} {n : ℕ} :
    scanNumeral s = some (negative, n, rest) ↔ Numeral s negative n rest := by
  have hscan : scanNumeral s = some (negative, n, rest) ↔ ∃ digits tail : List UInt8,
      scanSign (s.dropWhile isSpace) = (negative, tail) ∧ digits ≠ [] ∧ decimal digits = n ∧
        tail.takeWhile isDigit = digits ∧ tail.dropWhile isDigit = rest := by
    unfold scanNumeral
    dsimp only
    split_ifs with hempty
    · refine iff_of_false id ?_
      rintro ⟨digits, tail, hsign, hne, -, hdigits, -⟩
      rw [hsign] at hempty
      exact hne (hdigits ▸ hempty)
    · rw [Option.some_inj, Prod.mk.injEq, Prod.mk.injEq]
      constructor
      · rintro ⟨hsign, hvalue, hrest⟩
        exact ⟨_, _, Prod.ext hsign rfl, hempty, hvalue, rfl, hrest⟩
      · rintro ⟨digits, tail, hsign, -, hvalue, hdigits, hrest⟩
        rw [hsign]
        exact ⟨rfl, hdigits ▸ hvalue, hrest⟩
  rw [hscan]
  constructor
  · rintro ⟨digits, tail, hsign, hne, hvalue, hdigits⟩
    obtain ⟨hafter, hall, hstop⟩ := takeWhile_dropWhile_iff.mp hdigits
    obtain ⟨sign, hsigned, hform, -⟩ := scanSign_eq_iff.mp hsign
    obtain ⟨blanks, hs, hblanks, -⟩ := dropWhile_isSpace_iff.mp hsigned
    exact ⟨blanks, sign, digits, hafter ▸ hs, hblanks, hform, hne, hall, hstop, hvalue⟩
  · rintro ⟨blanks, sign, digits, hs, hblanks, hform, hne, hall, hstop, hvalue⟩
    have hhead : ∀ c ∈ (digits ++ rest).head?, isDigit c = true := by
      intro c hc
      rw [List.head?_append_of_ne_nil _ hne] at hc
      exact hall c (List.mem_of_mem_head? hc)
    have hdropped : s.dropWhile isSpace = sign ++ (digits ++ rest) := by
      refine dropWhile_isSpace_iff.mpr ⟨blanks, hs, hblanks, fun c hc ↦ ?_⟩
      have hsign : sign = [] ∨ sign = [43] ∨ sign = [45] := by
        split_ifs at hform <;> tauto
      rcases hsign with rfl | rfl | rfl
      · exact not_isSpace_of_isDigit (hhead c hc)
      · obtain rfl := Option.some.inj hc
        rfl
      · obtain rfl := Option.some.inj hc
        rfl
    refine ⟨digits, digits ++ rest, ?_, hne, hvalue,
      takeWhile_dropWhile_iff.mpr ⟨rfl, hall, hstop⟩⟩
    refine scanSign_eq_iff.mpr ⟨sign, hdropped, hform, ?_⟩
    rintro rfl
    rw [hdropped]
    refine ⟨fun h ↦ ?_, fun h ↦ ?_⟩
    · exact absurd (hhead _ h) (by decide)
    · exact absurd (hhead _ h) (by decide)

theorem scanInt_eq_some_iff {k : Int} : scanInt s = some (k, rest) ↔
    ∃ (negative : Bool) (n : ℕ), Numeral s negative n rest ∧ storedInt negative n = k := by
  unfold scanInt
  rw [Option.map_eq_some_iff]
  constructor
  · rintro ⟨⟨negative, n, rest'⟩, hnumeral, hk⟩
    obtain ⟨rfl, rfl⟩ := Prod.mk.inj hk
    exact ⟨negative, n, scanNumeral_eq_some_iff.mp hnumeral, rfl⟩
  · rintro ⟨negative, n, hnumeral, rfl⟩
    exact ⟨_, scanNumeral_eq_some_iff.mpr hnumeral, rfl⟩

theorem Token.length_lt (h : Token s token rest) : rest.length < s.length := by
  obtain ⟨blanks, rfl, -, hne, -⟩ := h
  have hpos := List.length_pos_iff.mpr hne
  rw [List.length_append, List.length_append]
  omega

theorem Numeral.length_lt {negative : Bool} {n : ℕ} (h : Numeral s negative n rest) :
    rest.length < s.length := by
  obtain ⟨blanks, sign, digits, rfl, -, -, hne, -⟩ := h
  have hpos := List.length_pos_iff.mpr hne
  rw [List.length_append, List.length_append, List.length_append]
  omega

theorem Token.unique {token' rest' : List UInt8} (h : Token s token rest)
    (h' : Token s token' rest') : token = token' ∧ rest = rest' := by
  rw [← scanToken_eq_some_iff] at h h'
  exact Prod.mk.inj (Option.some.inj (h.symm.trans h'))

theorem Numeral.unique {negative negative' : Bool} {n n' : ℕ} {rest' : List UInt8}
    (h : Numeral s negative n rest) (h' : Numeral s negative' n' rest') :
    negative = negative' ∧ n = n' ∧ rest = rest' := by
  rw [← scanNumeral_eq_some_iff] at h h'
  obtain ⟨hnegative, hothers⟩ := Prod.mk.inj (Option.some.inj (h.symm.trans h'))
  exact ⟨hnegative, Prod.mk.inj hothers⟩

/-- A number that is not negative and fits keeps its value. -/
theorem strtoul_eq {negative : Bool} {n : ℕ} (hnonneg : 0 ≤ signed negative n)
    (hfits : signed negative n < 2 ^ 64) : (strtoul negative n : Int) = signed negative n := by
  unfold signed at hnonneg hfits ⊢
  unfold strtoul
  cases negative with
  | true =>
    obtain rfl : n = 0 := by
      rw [if_pos rfl] at hnonneg
      omega
    rfl
  | false =>
    rw [if_neg Bool.false_ne_true] at hfits ⊢
    rw [if_neg (by omega), if_neg Bool.false_ne_true]

/-- An `int` holds a number of its range as it is. -/
theorem storedInt_eq {negative : Bool} {n : ℕ} (hlower : -2 ^ 31 ≤ signed negative n)
    (hupper : signed negative n < 2 ^ 31) : storedInt negative n = signed negative n := by
  have hlong : strtol negative n = signed negative n := by
    unfold strtol
    omega
  unfold storedInt
  rw [hlong]
  exact Int.bmod_eq_of_le (by omega) (by omega)

end IpRipStack.CScan
