import Mathlib.Data.List.Lex
import Mathlib.Data.Nat.Digits.Defs
import Mathlib.Tactic.IntervalCases

/-!
# Text, bytes and hexadecimal

Python's `str` and `bytes`, and the conversions between them: `bytes.fromhex`, `bytes.hex`,
`str.lower`, `int.from_bytes` and decimal printing. `bytes.fromhex` skips ASCII whitespace in front
of every byte, so many texts denote the same bytes (`fromHex_eq_iff`). `Wire` has the fixed-width
little-endian integers.
-/

namespace Py

open List Option

/-- A `str`, as its code points. Lone surrogates are code points too. -/
abbrev Text := List Nat

instance : LawfulBEq Text := inferInstanceAs (LawfulBEq (List Nat))

/-- A `bytes` value. -/
abbrev Bytes := List UInt8

def ascii (s : String) : Text := s.toByteArray.data.toList.map UInt8.toNat

/-- `text.encode("ascii")`, for a text known to be ASCII. -/
def encodeAscii (t : Text) : Bytes := t.map UInt8.ofNat

/-- `str.lower` on the ASCII letters. Python lowers letters outside ASCII as well, but a text
holding one is refused by `fromHex` however it is lowered, and every caller asks both. -/
def lower (t : Text) : Text := t.map fun c => if 65 ≤ c ∧ c ≤ 90 then c + 32 else c

/-- The whitespace `bytes.fromhex` skips: tab to carriage return, and the blank. -/
def isSpace (c : Nat) : Bool := (9 ≤ c && c ≤ 13) || c == 32

/-- The text without that whitespace. -/
def dropSpaces (t : Text) : Text := t.filter fun c => !isSpace c

/-! ## Hexadecimal -/

def hexValue (c : Nat) : Option Nat :=
  if 48 ≤ c ∧ c ≤ 57 then some (c - 48)
  else if 97 ≤ c ∧ c ≤ 102 then some (c - 87)
  else if 65 ≤ c ∧ c ≤ 70 then some (c - 55)
  else none

def hexDigit (n : Nat) : Nat := if n < 10 then n + 48 else n + 87

/-- `bytes.fromhex`: pairs of digits, with whitespace allowed in front of a pair but not
inside one. -/
def fromHex : Text → Option Bytes
  | [] => some []
  | c :: rest =>
    if isSpace c then fromHex rest
    else
      match rest with
      | [] => none
      | d :: rest' => do
          let hi ← hexValue c
          let lo ← hexValue d
          let tail ← fromHex rest'
          some (UInt8.ofNat (16 * hi + lo) :: tail)

def hex (b : Bytes) : Text :=
  b.flatMap fun x => [hexDigit (x.toNat / 16), hexDigit (x.toNat % 16)]

/-- `f"{n:0{width}x}"`. -/
def formatHex (width n : Nat) : Text :=
  let digits := (Nat.digits 16 n).reverse.map hexDigit
  replicate (width - digits.length) 48 ++ digits

/-- `int.from_bytes(b, "little")`. -/
def fromBytesLE (b : Bytes) : Nat := b.foldr (fun x acc => x.toNat + 256 * acc) 0

/-- `str(n)` for a natural number. -/
def decimalNat (n : Nat) : Text :=
  if n = 0 then [48] else (Nat.digits 10 n).reverse.map (· + 48)

/-- `str(n)`. -/
def decimal : Int → Text
  | .ofNat n => decimalNat n
  | .negSucc n => 45 :: decimalNat (n + 1)

/-! ## Digits -/

variable {n : Nat}

theorem hexValue_hexDigit (h : n < 16) : hexValue (hexDigit n) = some n := by
  interval_cases n <;> rfl

theorem isSpace_hexDigit (h : n < 16) : isSpace (hexDigit n) = false := by
  interval_cases n <;> rfl

variable {c : Nat}

theorem hexValue_lt (h : hexValue c = some n) : n < 16 := by
  unfold hexValue at h
  split_ifs at h <;> simp only [Option.some.injEq] at h <;> omega

theorem isSpace_of_hexValue (h : hexValue c = some n) : isSpace c = false := by
  unfold hexValue at h
  simp only [isSpace, Bool.or_eq_false_iff, Bool.and_eq_false_iff, decide_eq_false_iff_not,
    beq_eq_false_iff_ne]
  split_ifs at h <;> omega

theorem hexDigit_of_hexValue (h : hexValue c = some n) (hc : ¬ (65 ≤ c ∧ c ≤ 90)) :
    hexDigit n = c := by
  unfold hexValue at h
  unfold hexDigit
  split_ifs at h <;> simp only [Option.some.injEq] at h <;> split_ifs <;> omega

variable {t : Text}

theorem lower_eq_self_iff : lower t = t ↔ ∀ c ∈ t, ¬ (65 ≤ c ∧ c ≤ 90) := by
  induction t with
  | nil => simp [lower]
  | cons c t ih =>
    have hcons : lower (c :: t) = (if 65 ≤ c ∧ c ≤ 90 then c + 32 else c) :: lower t := rfl
    rw [hcons, List.cons.injEq, ih, forall_mem_cons]
    refine and_congr_left fun _ => ?_
    split_ifs with hc <;> simp [hc]

/-! ## Decoding -/

theorem byte_halves (x : UInt8) : UInt8.ofNat (16 * (x.toNat / 16) + x.toNat % 16) = x := by
  rw [Nat.div_add_mod, UInt8.ofNat_toNat]

@[simp] theorem fromHex_hex (b : Bytes) : fromHex (hex b) = some b := by
  induction b with
  | nil => rfl
  | cons x b ih =>
    have hhi : x.toNat / 16 < 16 := by have := x.toNat_lt; omega
    have hlo : x.toNat % 16 < 16 := Nat.mod_lt _ (by decide)
    have hcons : hex (x :: b) = hexDigit (x.toNat / 16) :: hexDigit (x.toNat % 16) :: hex b :=
      rfl
    rw [hcons, fromHex, isSpace_hexDigit hhi, hexValue_hexDigit hhi, hexValue_hexDigit hlo, ih]
    simp only [Bool.false_eq_true, if_false, bind_eq_bind, bind_some,
      byte_halves]

theorem hex_injective : Function.Injective hex := fun a b h => by
  have hab := congrArg fromHex h
  simpa using hab

@[simp] theorem length_hex (b : Bytes) : (hex b).length = 2 * b.length := by
  induction b with
  | nil => rfl
  | cons x b ih => simp only [hex, flatMap_cons, length_append, length_cons] at ih ⊢
                   simp [ih]; omega

theorem lower_hex (b : Bytes) : lower (hex b) = hex b := by
  have hdigit : ∀ n < 16, ¬ (65 ≤ hexDigit n ∧ hexDigit n ≤ 90) := by decide
  rw [lower_eq_self_iff]
  intro c hc
  obtain ⟨x, -, hx⟩ := mem_flatMap.1 hc
  have hhi : x.toNat / 16 < 16 := by have := x.toNat_lt; omega
  simp only [mem_cons, not_mem_nil, or_false] at hx
  rcases hx with rfl | rfl
  · exact hdigit _ hhi
  · exact hdigit _ (Nat.mod_lt _ (by decide))

variable {b : Bytes}

theorem fromHex_pair {d : Nat} {rest : Text} (hc : isSpace c = false)
    (h : fromHex (c :: d :: rest) = some b) :
    ∃ hi lo tail, hexValue c = some hi ∧ hexValue d = some lo ∧ fromHex rest = some tail ∧
      b = UInt8.ofNat (16 * hi + lo) :: tail := by
  rw [fromHex, hc] at h
  simp only [Bool.false_eq_true, if_false, bind_eq_bind, bind_eq_some_iff,
    Option.some.injEq] at h
  obtain ⟨hi, hhi, lo, hlo, tail, htail, rfl⟩ := h
  exact ⟨hi, lo, tail, hhi, hlo, htail, rfl⟩

theorem toNat_pair {hi lo : Nat} (hhi : hi < 16) (hlo : lo < 16) :
    (UInt8.ofNat (16 * hi + lo)).toNat = 16 * hi + lo := by
  rw [UInt8.toNat_ofNat_of_lt']
  show 16 * hi + lo < 256
  omega

/-- A lower-case text that decodes is the canonical text of its bytes, up to whitespace. -/
theorem dropSpaces_of_fromHex :
    ∀ {t : Text} {b : Bytes}, fromHex t = some b → lower t = t → dropSpaces t = hex b
  | [], b, h, _ => by
    simp only [fromHex, Option.some.injEq] at h
    subst h
    rfl
  | [c], b, h, _ => by
    by_cases hc : isSpace c = true
    · rw [fromHex, if_pos hc, fromHex, Option.some.injEq] at h
      subst h
      simp [dropSpaces, hc, hex]
    · simp [fromHex, hc] at h
  | c :: d :: rest, b, h, hlow => by
    have hlow' := lower_eq_self_iff.1 hlow
    by_cases hc : isSpace c = true
    · rw [fromHex, if_pos hc] at h
      have ih := dropSpaces_of_fromHex h
        (lower_eq_self_iff.2 fun x hx => hlow' x (mem_cons_of_mem _ hx))
      rw [← ih]
      simp [dropSpaces, hc]
    · rw [Bool.not_eq_true] at hc
      obtain ⟨hi, lo, tail, hhi, hlo, htail, rfl⟩ := fromHex_pair hc h
      have ih := dropSpaces_of_fromHex htail
        (lower_eq_self_iff.2 fun x hx => hlow' x (by simp [hx]))
      have hd : isSpace d = false := isSpace_of_hexValue hlo
      have hcons : dropSpaces (c :: d :: rest) = c :: d :: dropSpaces rest := by
        simp [dropSpaces, hc, hd]
      have hbyte := toNat_pair (hexValue_lt hhi) (hexValue_lt hlo)
      have hhi16 : (16 * hi + lo) / 16 = hi := by have := hexValue_lt hlo; omega
      have hlo16 : (16 * hi + lo) % 16 = lo := by have := hexValue_lt hlo; omega
      rw [hcons, ih, show hex (UInt8.ofNat (16 * hi + lo) :: tail) =
        hexDigit ((UInt8.ofNat (16 * hi + lo)).toNat / 16) ::
          hexDigit ((UInt8.ofNat (16 * hi + lo)).toNat % 16) :: hex tail from rfl,
        hbyte, hhi16, hlo16, hexDigit_of_hexValue hhi (hlow' c (by simp)),
        hexDigit_of_hexValue hlo (hlow' d (by simp))]

/-- **Spelling.** Two lower-case texts that decode denote the same bytes exactly when they
agree once whitespace is dropped. -/
theorem fromHex_eq_iff {t' : Text} {b' : Bytes} (h : fromHex t = some b) (h' : fromHex t' = some b')
    (hlow : lower t = t) (hlow' : lower t' = t') : b = b' ↔ dropSpaces t = dropSpaces t' := by
  rw [dropSpaces_of_fromHex h hlow, dropSpaces_of_fromHex h' hlow']
  exact hex_injective.eq_iff.symm

/-! ## Decimal -/

theorem decimalNat_ne_nil (n : Nat) : decimalNat n ≠ [] := by
  rw [decimalNat]
  split_ifs with h
  · exact cons_ne_nil _ _
  · simpa using Nat.digits_ne_nil_iff_ne_zero.2 h

theorem digit_of_mem_decimalNat (h : c ∈ decimalNat n) : 48 ≤ c ∧ c ≤ 57 := by
  rw [decimalNat] at h
  split_ifs at h
  · simp [mem_singleton.1 h]
  · obtain ⟨d, hd, rfl⟩ := mem_map.1 h
    have hlt := Nat.digits_lt_base (by decide) (mem_reverse.1 hd)
    omega

theorem decimalNat_injective : Function.Injective decimalNat := by
  -- the text determines the digits
  have hdigits : ∀ n, ((decimalNat n).map (· - 48)).reverse = if n = 0 then
      [0] else Nat.digits 10 n := by
    intro n
    rw [decimalNat]
    split_ifs <;> simp [Function.comp_def]
  intro m n h
  have heq : (if m = 0 then [0] else Nat.digits 10 m) = if n = 0 then [0] else Nat.digits 10 n := by
    rw [← hdigits, ← hdigits, h]
  have hof : ∀ n, Nat.ofDigits 10 (if n = 0 then [0] else Nat.digits 10 n) = n := by
    intro n
    split_ifs with hn
    · simp [hn]
    · exact Nat.ofDigits_digits 10 n
  rw [← hof m, heq, hof n]

theorem length_lower (t : Text) : (lower t).length = t.length := length_map _

theorem lower_lower (t : Text) : lower (lower t) = lower t := by
  refine lower_eq_self_iff.2 fun c hc => ?_
  obtain ⟨d, -, rfl⟩ := mem_map.1 hc
  split_ifs <;> omega

theorem fromHex_lower (t : Text) : fromHex (lower t) = fromHex t := by
  have hspace : ∀ c, isSpace (if 65 ≤ c ∧ c ≤ 90 then c + 32 else c) = isSpace c := by
    intro c
    unfold isSpace
    grind
  have hvalue : ∀ c, hexValue (if 65 ≤ c ∧ c ≤ 90 then c + 32 else c) = hexValue c := by
    intro c
    unfold hexValue
    grind
  fun_induction fromHex t with
  | case1 => rfl
  | case2 c rest hc ih =>
    rw [← ih, lower, map_cons, fromHex.eq_def]
    simp [hspace, hc, lower]
  | case3 c hc => simp [lower, fromHex, hspace, hc]
  | case4 c hc d rest ih =>
    rw [← ih]
    simp [lower, fromHex, hspace, hc, hvalue]

end Py

namespace Wire

open Py

/-- The `width` low bytes of `n`, the lowest first. -/
def leBytes : Nat → Nat → Bytes
  | 0, _ => []
  | width + 1, n => UInt8.ofNat n :: leBytes width (n / 256)

@[simp] theorem length_leBytes (width n : Nat) : (leBytes width n).length = width := by
  induction width generalizing n with
  | zero => rfl
  | succ width ih => simp [leBytes, ih]

@[simp] theorem fromBytesLE_nil : fromBytesLE [] = 0 := rfl

@[simp] theorem fromBytesLE_cons (x : UInt8) (b : Bytes) :
    fromBytesLE (x :: b) = x.toNat + 256 * fromBytesLE b := rfl

theorem fromBytesLE_leBytes (width n : Nat) :
    fromBytesLE (leBytes width n) = n % 256 ^ width := by
  induction width generalizing n with
  | zero => simp [leBytes, Nat.mod_one]
  | succ width ih =>
    have hlow : (UInt8.ofNat n).toNat = n % 256 := rfl
    rw [leBytes, fromBytesLE_cons, ih, hlow, Nat.pow_succ', Nat.mod_mul]

theorem fromBytesLE_lt (b : Bytes) : fromBytesLE b < 256 ^ b.length := by
  induction b with
  | nil => simp
  | cons x b ih =>
    have hx := x.toNat_lt
    rw [fromBytesLE_cons, List.length_cons, Nat.pow_succ']
    omega

theorem leBytes_fromBytesLE (b : Bytes) : leBytes b.length (fromBytesLE b) = b := by
  induction b with
  | nil => rfl
  | cons x b ih =>
    have hx := x.toNat_lt
    have hlow : UInt8.ofNat (x.toNat + 256 * fromBytesLE b) = x := by
      simp
    have hrest : (x.toNat + 256 * fromBytesLE b) / 256 = fromBytesLE b := by omega
    rw [List.length_cons, leBytes, fromBytesLE_cons, hlow, hrest, ih]

theorem fromBytesLE_append (a b : Bytes) :
    fromBytesLE (a ++ b) = fromBytesLE a + 256 ^ a.length * fromBytesLE b := by
  induction a with
  | nil => simp
  | cons x a ih =>
    rw [List.cons_append, fromBytesLE_cons, ih, fromBytesLE_cons, List.length_cons, Nat.pow_succ',
      Nat.mul_add, Nat.mul_assoc, Nat.add_assoc]

theorem fromBytesLE_zeros (k : Nat) : fromBytesLE (List.replicate k 0) = 0 := by
  induction k with
  | zero => rfl
  | succ k ih => rw [List.replicate_succ, fromBytesLE_cons, ih, UInt8.toNat_zero]

theorem fromBytesLE_zeros_append (k : Nat) (b : Bytes) :
    fromBytesLE (List.replicate k 0 ++ b) = 256 ^ k * fromBytesLE b := by
  rw [fromBytesLE_append, fromBytesLE_zeros, List.length_replicate, Nat.zero_add]

theorem fromBytesLE_append_zeros (b : Bytes) (k : Nat) :
    fromBytesLE (b ++ List.replicate k 0) = fromBytesLE b := by
  rw [fromBytesLE_append, fromBytesLE_zeros, Nat.mul_zero, Nat.add_zero]

end Wire
