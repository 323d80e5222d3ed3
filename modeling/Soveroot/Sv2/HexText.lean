import Soveroot.Lib.Check
import Soveroot.Lib.Hex

/-!
# `decode_hex` on any text

`contrib/mining_autonomy/sv2-independent-miner/src/wire.rs` measures a text in UTF-8 bytes and
slices it every two bytes; a slice that ends inside a character panics. A text is a list of code
points here.
-/

namespace Soveroot.Sv2

open Py Check

/-- `u8::from_str_radix(pair, 16)`: a sign may stand in front of a single digit. -/
def pairFromHex (c d : Nat) : Option UInt8 :=
  if c = 43 then (hexValue d).map UInt8.ofNat
  else do some (UInt8.ofNat (16 * (← hexValue c) + (← hexValue d)))

def utf8Size (c : Nat) : Nat :=
  if c < 0x80 then 1 else if c < 0x800 then 2 else if c < 0x10000 then 3 else 4

/-- Whether `&value[..2]` ends inside a character. -/
def cuts : Text → Bool
  | [] => false
  | [c] => utf8Size c ≠ 2
  | c :: d :: _ => ¬ (utf8Size c = 2 ∨ utf8Size c = 1 ∧ utf8Size d = 1)

/-- The slices of `decode_hex` up to the first that is refused; a panic is `none`. -/
def decodeSlices (label : String) : Text → Option (Except String Bytes)
  | [] => some (.ok [])
  | [c] => if cuts [c] then none else some (.error s!"{label} is not hexadecimal")
  | c :: d :: rest =>
    if cuts (c :: d :: rest) then none
    else match pairFromHex c d with
      | some byte => (decodeSlices label rest).map (·.map (byte :: ·))
      -- a two-byte character is the whole slice, and no digit
      | none => some (.error s!"{label} is not hexadecimal")

/-- `decode_hex`. -/
def decodeHexUtf8 (value : Text) (label : String) : Option (Except String Bytes) :=
  if (value.map utf8Size).sum % 2 = 1 then some (.error s!"{label} has odd hex length")
  else decodeSlices label value

def IsHex (value : Text) : Prop :=
  (value.map utf8Size).sum % 2 = 0 ∧ ∀ c ∈ value, (hexValue c).isSome

/-- `decode_hex` returns, and it returns `Ok` for hexadecimal text only. -/
def DecodesExactly (value : Text) (label : String) : Prop :=
  ∃ r, decodeHexUtf8 value label = some r ∧ (r.isOk ↔ IsHex value)

/-- The text from the first slice that `from_str_radix` does not read. -/
def unread : Text → Text
  | [] => []
  | [c] => [c]
  | c :: d :: rest => if (pairFromHex c d).isSome then unread rest else c :: d :: rest

theorem utf8Size_of_hexValue {c : Nat} (h : (hexValue c).isSome) : utf8Size c = 1 ∧ c ≠ 43 := by
  grind [hexValue, utf8Size]

theorem pairFromHex_digits {c d m n : Nat} (hc : hexValue c = some m) (hd : hexValue d = some n) :
    pairFromHex c d = some (UInt8.ofNat (16 * m + n)) := by
  rw [pairFromHex, if_neg (utf8Size_of_hexValue (by simp [hc])).2, hc, hd]
  rfl

theorem isHex_cons_cons {c d : Nat} {rest : Text} :
    IsHex (c :: d :: rest) ↔ ((hexValue c).isSome ∧ (hexValue d).isSome) ∧ IsHex rest := by
  simp only [IsHex, List.map_cons, List.sum_cons, List.forall_mem_cons]
  grind [utf8Size_of_hexValue]

theorem not_cuts {c d : Nat} (h : (pairFromHex c d).isSome) (rest : Text) :
    ¬ cuts (c :: d :: rest) := by
  grind [pairFromHex, cuts, hexValue, utf8Size]

theorem isOk_decodeSlices (label : String) (value : Text) :
    (decodeSlices label value).map (·.isOk) =
      if cuts (unread value) then none else some (unread value).isEmpty := by
  fun_induction decodeSlices label value with
  | case1 => rfl
  | case2 c h => simp [unread, h]
  | case3 c h => simp [unread, h]; rfl
  | case4 c d rest h =>
    -- a pair that is read is ASCII, so a cut pair is not read
    have hnone := mt (not_cuts · rest) (not_not.2 h)
    simp [unread, h, hnone]
  | case5 c d rest h byte hbyte ih =>
    rw [show unread (c :: d :: rest) = unread rest by simp [unread, hbyte], ← ih, Option.map_map]
    exact congrArg (Option.map · _) (funext fun r => by cases r <;> rfl)
  | case6 c d rest h hnone => simp [unread, h, hnone]; rfl

theorem IsHex.unread_eq_nil {value : Text} (h : IsHex value) : unread value = [] := by
  fun_induction unread value with
  | case1 => rfl
  | case2 c => grind [IsHex, utf8Size_of_hexValue]
  | case3 c d rest hbyte ih => exact ih (isHex_cons_cons.1 h).2
  | case4 c d rest hbyte =>
    obtain ⟨⟨hc, hd⟩, -⟩ := isHex_cons_cons.1 h
    obtain ⟨m, hm⟩ := Option.isSome_iff_exists.1 hc
    obtain ⟨n, hn⟩ := Option.isSome_iff_exists.1 hd
    simp [pairFromHex_digits hm hn] at hbyte

theorem decodeSlices_hex (label : String) (b : Bytes) :
    IsHex (hex b) ∧ decodeSlices label (hex b) = some (.ok b) := by
  induction b with
  | nil => simp [IsHex, hex, decodeSlices]
  | cons x b ih =>
    have hhi := hexValue_hexDigit (show x.toNat / 16 < 16 by have := x.toNat_lt; omega)
    have hlo := hexValue_hexDigit (Nat.mod_lt x.toNat (by decide : 16 > 0))
    have hbyte := pairFromHex_digits hhi hlo
    rw [byte_halves] at hbyte
    refine ⟨isHex_cons_cons.2 ⟨by simp [hhi, hlo], ih.1⟩, ?_⟩
    rw [show hex (x :: b) = _ :: _ :: hex b from rfl, decodeSlices,
      if_neg (not_cuts (by simp [hbyte]) _), hbyte, ih.2]
    rfl

/-- `decode_hex` is exact unless it reads a sign or slices a character: what decides is the first
slice that is not read. -/
theorem decodesExactly_iff (value : Text) (label : String) :
    (DecodesExactly value label ↔ (value.map utf8Size).sum % 2 = 1 ∨ IsHex value ∨
      unread value ≠ [] ∧ ¬ cuts (unread value)) ∧
    ∀ b : Bytes, decodeHexUtf8 (hex b) label = some (.ok b) := by
  refine ⟨?_, fun b => ?_⟩
  · have hok := isOk_decodeSlices label value
    have hnil (h : IsHex value) := h.unread_eq_nil
    by_cases hodd : (value.map utf8Size).sum % 2 = 1
    · simp [DecodesExactly, decodeHexUtf8, hodd, IsHex, Except.isOk, Except.toBool]
    · rw [DecodesExactly, decodeHexUtf8, if_neg hodd]
      cases hr : decodeSlices label value with
      | none => grind [cuts]
      | some r => grind
  · obtain ⟨hhex, hb⟩ := decodeSlices_hex label b
    rw [decodeHexUtf8, if_neg (by simp [hhex.1]), hb]

/-- `+f` is read as fifteen, and the slice of `a€` panics. -/
theorem decodeHexUtf8_sign_panic :
    decodeHexUtf8 (ascii "+f") "x" = some (.ok [15]) ∧ ¬ IsHex (ascii "+f") ∧
      decodeHexUtf8 [97, 0x20ac] "x" = none :=
  ⟨rfl, by simp [IsHex]; decide, rfl⟩

/-! ## In another function -/

/-- How a function of the miner ends without a value: with an `Err`, or in a panic. -/
inductive Fault where
  | err (reason : String)
  | panic
  deriving DecidableEq

instance : Coe String Fault := ⟨.err⟩

/-- The miner goes on with its `Err`. -/
def Fault.Returned (fault : Fault) : Prop := fault ≠ .panic

/-- `Result`, of a function that may panic. One that cannot is in `Except String`. -/
abbrev Result := Except Fault

instance : MonadLift (Except String) Result := ⟨Except.mapError .err⟩

/-- `decode_hex`, where its panic is the caller's. -/
def decodeHex (value : Text) (label : String) : Result Bytes :=
  match decodeHexUtf8 value label with
  | some result => liftM result
  | none => .error .panic

/-- A slice that is reached ends inside a character. -/
def Panics (value : Text) : Prop := (value.map utf8Size).sum % 2 = 0 ∧ cuts (unread value)

instance (value : Text) : Decidable (Panics value) := inferInstanceAs (Decidable (_ ∧ _))

variable {α : Type}

@[simp] theorem liftM_ok (a : α) : (liftM (Except.ok a : Except String α) : Result α) = .ok a := rfl

theorem liftM_eq_ok {x : Except String α} {a : α} : (liftM x : Result α) = .ok a ↔ x = .ok a :=
  mapError_eq_ok

theorem liftM_raises (x : Except String α) : Raises Fault.Returned (liftM x : Result α) := by
  cases x with
  | ok a => exact .ok a
  | error reason => exact .error Fault.noConfusion

theorem require_raises {c : Prop} [Decidable c] (reason : String) :
    Raises Fault.Returned (require c (Fault.err reason)) :=
  .require Fault.noConfusion

theorem decodeHex_raises {value : Text} (h : ¬ Panics value) (label : String) :
    Raises Fault.Returned (decodeHex value label) := by
  have hok := isOk_decodeSlices label value
  unfold decodeHex decodeHexUtf8
  split_ifs with hodd
  · exact liftM_raises _
  · have hcuts : ¬ cuts (unread value) := fun hcuts => h ⟨by omega, hcuts⟩
    rw [if_neg hcuts] at hok
    cases hslices : decodeSlices label value with
    | none => simp [hslices] at hok
    | some result => exact liftM_raises result

end Soveroot.Sv2
