import Soveroot.Lib.Hex

/-!
# Reading a text file by lines

`path.read_text(encoding="utf-8").splitlines()`: the bytes are decoded strictly, the line ends of
other systems are translated, and the text is cut at every line break. Behind a line break appended
lines are lines of their own (`splitlines_append`), and otherwise the first of them continues the
last line.
-/

namespace Py

open List Option

/-! ## UTF-8 -/

def isContinuation (b : UInt8) : Bool := 0x80 ≤ b.toNat && b.toNat < 0xC0

/-- The code point of a sequence of two bytes, of three and of four. -/
def codePoint2 (a b : UInt8) : Nat := (a.toNat - 0xC0) * 64 + (b.toNat - 0x80)

def codePoint3 (a b c : UInt8) : Nat :=
  ((a.toNat - 0xE0) * 64 + (b.toNat - 0x80)) * 64 + (c.toNat - 0x80)

def codePoint4 (a b c d : UInt8) : Nat :=
  (((a.toNat - 0xF0) * 64 + (b.toNat - 0x80)) * 64 + (c.toNat - 0x80)) * 64 + (d.toNat - 0x80)

/-- `bytes.decode("utf-8")`, with `none` for `UnicodeDecodeError`: sequences that are too long and
surrogates are refused. -/
@[grind] def decodeUtf8 : Bytes → Option Text
  | [] => some []
  | a :: rest =>
    if a.toNat < 0x80 then (decodeUtf8 rest).map (a.toNat :: ·)
    else if a.toNat < 0xC0 then none
    else if a.toNat < 0xE0 then
      match rest with
      | b :: rest =>
        if isContinuation b = true ∧ 0x80 ≤ codePoint2 a b then
          (decodeUtf8 rest).map (codePoint2 a b :: ·)
        else none
      | [] => none
    else if a.toNat < 0xF0 then
      match rest with
      | b :: c :: rest =>
        if isContinuation b = true ∧ isContinuation c = true ∧ 0x800 ≤ codePoint3 a b c ∧
            ¬ (0xD800 ≤ codePoint3 a b c ∧ codePoint3 a b c < 0xE000) then
          (decodeUtf8 rest).map (codePoint3 a b c :: ·)
        else none
      | _ => none
    else
      match rest with
      | b :: c :: d :: rest =>
        if isContinuation b = true ∧ isContinuation c = true ∧ isContinuation d = true ∧
            0x10000 ≤ codePoint4 a b c d ∧ codePoint4 a b c d < 0x110000 then
          (decodeUtf8 rest).map (codePoint4 a b c d :: ·)
        else none
      | _ => none

variable {s : Text}

theorem decodeUtf8_append {a b : Bytes} (h : decodeUtf8 a = some s) :
    decodeUtf8 (a ++ b) = (decodeUtf8 b).map (s ++ ·) := by
  have hmap : ∀ {a : Bytes} {c : Nat} {s : Text},
      (∀ {s}, decodeUtf8 a = some s → decodeUtf8 (a ++ b) = (decodeUtf8 b).map (s ++ ·)) →
      (decodeUtf8 a).map (c :: ·) = some s →
      (decodeUtf8 (a ++ b)).map (c :: ·) = (decodeUtf8 b).map (s ++ ·) := by
    intro a c s ih h
    obtain ⟨t, ht, rfl⟩ := Option.map_eq_some_iff.1 h
    rw [ih ht, Option.map_map]
    rfl
  fun_induction decodeUtf8 a generalizing s with
  | case1 =>
    obtain rfl := Option.some.inj h
    simp
  | case2 a rest ha ih =>
    rw [cons_append, decodeUtf8.eq_def]
    simp only [if_pos ha]
    exact hmap ih h
  | case4 a h1 h2 h3 b rest hok ih =>
    rw [cons_append, cons_append, decodeUtf8.eq_def]
    simp only [if_neg h1, if_neg h2, if_pos h3, if_pos hok]
    exact hmap ih h
  | case7 a h1 h2 h3 h4 b c rest hok ih =>
    rw [cons_append, cons_append, cons_append, decodeUtf8.eq_def]
    simp only [if_neg h1, if_neg h2, if_neg h3, if_pos h4, if_pos hok]
    exact hmap ih h
  | case10 a h1 h2 h3 h4 b c d rest hok ih =>
    rw [cons_append, cons_append, cons_append, cons_append,
      decodeUtf8.eq_def]
    simp only [if_neg h1, if_neg h2, if_neg h3, if_neg h4, if_pos hok]
    exact hmap ih h
  | case3 | case5 | case6 | case8 | case9 | case11 | case12 => cases h

theorem decodeUtf8_encodeAscii (hs : ∀ c ∈ s, c < 128) : decodeUtf8 (encodeAscii s) = some s := by
  induction s with
  | nil => rfl
  | cons c s ih =>
    rw [forall_mem_cons] at hs
    have hc : (UInt8.ofNat c).toNat = c := by
      rw [UInt8.toNat_ofNat_of_lt']
      exact lt_trans hs.1 (by decide)
    have hcons : encodeAscii (c :: s) = UInt8.ofNat c :: encodeAscii s := rfl
    rw [hcons, decodeUtf8.eq_def]
    simp only [hc, if_pos hs.1, ih hs.2, map_some]

/-! ## Lines -/

/-- The line ends `read_text` translates. -/
@[grind] def translateNewlines : Text → Text
  | [] => []
  | 13 :: 10 :: rest => 10 :: translateNewlines rest
  | c :: rest => (if c = 13 then 10 else c) :: translateNewlines rest

/-- The characters `str.splitlines` cuts at. -/
def isLineBreak (c : Nat) : Bool :=
  (10 ≤ c && c ≤ 13) || (28 ≤ c && c ≤ 30) || c = 0x85 || c = 0x2028 || c = 0x2029

@[grind] def splitlines : Text → List Text
  | [] => []
  | 13 :: 10 :: rest => [] :: splitlines rest
  | c :: rest =>
    if isLineBreak c then [] :: splitlines rest
    else match splitlines rest with
      | [] => [[c]]
      | line :: lines => (c :: line) :: lines

/-- `path.read_text(encoding="utf-8").splitlines()`. -/
def readLines (file : Bytes) : Option (List Text) :=
  (decodeUtf8 file).map fun text => splitlines (translateNewlines text)

def EndsLine (s : Text) : Prop := ∀ c, s.getLast? = some c → isLineBreak c = true

instance (s : Text) : Decidable (EndsLine s) :=
  decidable_of_iff (s.getLast?.all isLineBreak = true) (by
    cases h : s.getLast? <;> simp [EndsLine, h])

variable {c : Nat} {b : Text}

/-- A carriage return and a line feed are one line end only when they stand together. -/
theorem not_pair_append {rest : Text} (hb : b.head? ≠ some 10)
    (h : ∀ rest', c = 13 → rest = 10 :: rest' → False) :
    ∀ rest', c = 13 → rest ++ b = 10 :: rest' → False := by
  intro rest' hc heq
  cases rest with
  | nil => exact hb (by rw [nil_append] at heq; rw [heq]; rfl)
  | cons d rest => exact h rest hc (by rw [(List.cons.inj heq).1])

theorem translateNewlines_append (a : Text) (hb : b.head? ≠ some 10) :
    translateNewlines (a ++ b) = translateNewlines a ++ translateNewlines b := by
  fun_induction translateNewlines a with
  | case1 => rfl
  | case2 rest ih => simp only [cons_append, translateNewlines, ih]
  | case3 c rest hpair ih =>
    rw [cons_append, translateNewlines, ih, cons_append]
    exact not_pair_append hb hpair

theorem EndsLine.tail (h : EndsLine (c :: s)) : EndsLine s := by
  intro d hd
  refine h d ?_
  rw [getLast?_cons, hd]
  rfl

theorem splitlines_eq_nil : splitlines s = [] ↔ s = [] := by
  fun_cases splitlines s with
  | case1 => simp
  | case2 => simp
  | case3 => simp
  | case4 => simp
  | case5 => simp

theorem splitlines_append (a : Text) (ha : EndsLine a) (hb : b.head? ≠ some 10) :
    splitlines (a ++ b) = splitlines a ++ splitlines b := by
  fun_induction splitlines a with
  | case1 => rfl
  | case2 rest ih => simp only [cons_append, splitlines, ih ha.tail.tail]
  | case3 c rest hpair hbreak ih =>
    rw [cons_append, splitlines, if_pos hbreak, ih ha.tail, cons_append]
    exact not_pair_append hb hpair
  | case4 c rest hpair hbreak hnil ih =>
    rw [splitlines_eq_nil] at hnil
    subst hnil
    exact absurd (ha c rfl) hbreak
  | case5 c rest hpair hbreak line lines hlines ih =>
    rw [cons_append, splitlines, if_neg hbreak, ih ha.tail, hlines, cons_append,
      cons_append]
    exact not_pair_append hb hpair

theorem not_endsLine_tail (h : ¬ EndsLine (c :: s)) (hc : isLineBreak c = true) : ¬ EndsLine s := by
  intro hs
  refine h fun d hd => ?_
  rw [getLast?_cons] at hd
  cases hlast : s.getLast? with
  | none =>
    rw [hlast] at hd
    exact Option.some.inj hd ▸ hc
  | some e =>
    rw [hlast] at hd
    exact hs d (by rw [hlast, ← hd]; rfl)

def continueLine (last : Text) : List Text → List Text
  | [] => [last]
  | line :: lines => (last ++ line) :: lines

/-- What is appended to a line that is not finished continues it. -/
theorem splitlines_append_of_open {a : Text} (ha : ¬ EndsLine a) (hb : b.head? ≠ some 10) :
    ∃ lines last, splitlines a = lines ++ [last] ∧
      splitlines (a ++ b) = lines ++ continueLine last (splitlines b) := by
  fun_induction splitlines a with
  | case1 => exact absurd (fun c h => by cases h) ha
  | case2 rest ih =>
    obtain ⟨lines, last, hlines, happend⟩ := ih (not_endsLine_tail (not_endsLine_tail ha rfl) rfl)
    refine ⟨[] :: lines, last, by rw [hlines]; rfl, ?_⟩
    simp only [cons_append, splitlines, happend]
  | case3 c rest hpair hbreak ih =>
    obtain ⟨lines, last, hlines, happend⟩ := ih (not_endsLine_tail ha hbreak)
    refine ⟨[] :: lines, last, by rw [hlines]; rfl, ?_⟩
    rw [cons_append, splitlines, if_pos hbreak, happend]
    · rfl
    · exact not_pair_append hb hpair
  | case4 c rest hpair hbreak hnil ih =>
    obtain rfl := splitlines_eq_nil.1 hnil
    refine ⟨[], [c], rfl, ?_⟩
    rw [cons_append, splitlines, if_neg hbreak, nil_append]
    · cases splitlines b <;> rfl
    · exact not_pair_append hb hpair
  | case5 c rest hpair hbreak line lines hlines ih =>
    have hrest : ¬ EndsLine rest := by
      intro hends
      refine ha fun d hd => hends d ?_
      have hne : rest ≠ [] := fun hnil => by simp [hnil, splitlines] at hlines
      rwa [getLast?_cons_of_ne_nil hne] at hd
    obtain ⟨lines', last, hsplit, happend⟩ := ih hrest
    rw [hlines] at hsplit
    rw [cons_append, splitlines, if_neg hbreak, happend]
    · cases lines' with
      | nil =>
        obtain ⟨rfl, rfl⟩ := List.cons.inj hsplit
        refine ⟨[], c :: line, rfl, ?_⟩
        cases splitlines b <;> rfl
      | cons line' lines' =>
        obtain ⟨rfl, rfl⟩ := List.cons.inj hsplit
        exact ⟨(c :: line) :: lines', last, rfl, rfl⟩
    · exact not_pair_append hb hpair

theorem splitlines_cons (hc : isLineBreak c = false) (s : Text) :
    ∃ line lines, splitlines (c :: s) = (c :: line) :: lines := by
  rw [splitlines, if_neg (by simp [hc])]
  · cases splitlines s with
    | nil => exact ⟨[], [], rfl⟩
    | cons line lines => exact ⟨line, lines, rfl⟩
  · rintro _ rfl
    exact absurd hc (by decide)

variable {line : Text}

theorem splitlines_line (h : ∀ c ∈ line, isLineBreak c = false) (rest : Text) :
    splitlines (line ++ 10 :: rest) = line :: splitlines rest := by
  induction line with
  | nil => rfl
  | cons c line ih =>
    rw [forall_mem_cons] at h
    rw [cons_append, splitlines, if_neg (by simp [h.1]), ih h.2]
    rintro _ rfl
    exact absurd h.1 (by decide)

theorem splitlines_unfinished (h : ∀ c ∈ line, isLineBreak c = false) (hne : line ≠ []) :
    splitlines line = [line] := by
  induction line with
  | nil => exact absurd rfl hne
  | cons c line ih =>
    rw [forall_mem_cons] at h
    rw [splitlines, if_neg (by simp [h.1])]
    · cases line with
      | nil => rfl
      | cons d line => rw [ih h.2 (cons_ne_nil _ _)]
    · rintro _ rfl
      exact absurd h.1 (by decide)

theorem translateNewlines_eq_self (h : ∀ c ∈ s, c ≠ 13) : translateNewlines s = s := by
  induction s with
  | nil => rfl
  | cons c s ih =>
    rw [forall_mem_cons] at h
    rw [translateNewlines, if_neg h.1, ih h.2]
    exact fun _ hc _ => h.1 hc

theorem readLines_append {file : Bytes} {text : Text} (hfile : decodeUtf8 file = some text)
    (hascii : ∀ c ∈ s, c < 128) (hcr : ∀ c ∈ s, c ≠ 13) (hhead : s.head? ≠ some 10) :
    readLines (file ++ encodeAscii s) = some (splitlines (translateNewlines text ++ s)) := by
  rw [readLines, decodeUtf8_append hfile, decodeUtf8_encodeAscii hascii, map_some,
    map_some, translateNewlines_append _ hhead, translateNewlines_eq_self hcr]

end Py
