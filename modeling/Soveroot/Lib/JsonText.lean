import Mathlib.Data.List.TakeWhile
import Mathlib.Data.Nat.Digits.Lemmas
import Soveroot.Lib.Dict
import Soveroot.Lib.Json

/-!
# Reading JSON

`json.loads` on a `str`: a recursive descent, bounded by the length of the text. A text that starts
with a value that is closed is read alike however it is continued (`loads_append_of_obj`), so
cutting an object short is always noticed. An object of plain members is read back from what `dumps`
prints (`loads_dumps`).
-/

namespace Py.Json

open List

/-! ## The scanner -/

def isWs (c : Nat) : Bool := c = 32 || c = 9 || c = 10 || c = 13

def skipWs (s : Text) : Text := s.dropWhile isWs

def hex4 (a b c d : Nat) : Option Nat := do
  let a ← hexValue a
  let b ← hexValue b
  let c ← hexValue c
  let d ← hexValue d
  some (((a * 16 + b) * 16 + c) * 16 + d)

/-- The character after a backslash. -/
def unescape (c : Nat) : Option Nat :=
  if c = 34 ∨ c = 92 ∨ c = 47 then some c
  else if c = 98 then some 8
  else if c = 102 then some 12
  else if c = 110 then some 10
  else if c = 114 then some 13
  else if c = 116 then some 9
  else none

def consUnit (unit : Bool × Nat) (p : List (Bool × Nat) × Text) : List (Bool × Nat) × Text :=
  (unit :: p.1, p.2)

/-- The characters of a string up to the closing quote, marked when written as `\uXXXX`. Control
characters are refused. -/
def parseUnits : Text → Option (List (Bool × Nat) × Text)
  | [] => none
  | c :: rest =>
    if c = 34 then some ([], rest)
    else if c = 92 then
      match rest with
      | 117 :: a :: b :: c :: d :: rest =>
        (hex4 a b c d).bind fun unit => (parseUnits rest).map (consUnit (true, unit))
      | e :: rest => (unescape e).bind fun c => (parseUnits rest).map (consUnit (false, c))
      | [] => none
    else if c < 32 then none
    else (parseUnits rest).map (consUnit (false, c))

/-- A high surrogate joins a low one behind it when both are escapes. -/
def joinSurrogate (unit : Bool × Nat) : List (Bool × Nat) → List (Bool × Nat)
  | (true, low) :: units =>
    if unit.1 = true ∧ 0xD800 ≤ unit.2 ∧ unit.2 < 0xDC00 ∧ 0xDC00 ≤ low ∧ low < 0xE000 then
      (false, 0x10000 + (unit.2 - 0xD800) * 0x400 + (low - 0xDC00)) :: units
    else unit :: (true, low) :: units
  | units => unit :: units

def joinSurrogates (units : List (Bool × Nat)) : Text := (units.foldr joinSurrogate []).map Prod.snd

/-- A string behind its opening quote. -/
def parseString (s : Text) : Option (Text × Text) :=
  (parseUnits s).map fun p => (joinSurrogates p.1, p.2)

def isDigit (c : Nat) : Bool := 48 ≤ c && c ≤ 57

/-- The characters a number is made of. -/
def isNumberChar (c : Nat) : Bool := isDigit c || c = 43 || c = 45 || c = 46 || c = 69 || c = 101

def digitsValue (t : Text) : Nat := t.foldl (fun acc c => 10 * acc + (c - 48)) 0

def isExponent : Text → Bool
  | [] => true
  | e :: rest =>
    let digits := match rest with
      | 43 :: digits => digits
      | 45 :: digits => digits
      | digits => digits
    (e = 69 || e = 101) && !digits.isEmpty && digits.all isDigit

def isFraction : Text → Bool
  | 46 :: rest => !(rest.takeWhile isDigit).isEmpty && isExponent (rest.dropWhile isDigit)
  | rest => isExponent rest

/-- A number. The scanner takes the longest start of the text that is one, and what follows a
value must not be a character of a number; so the whole run of such characters has to be one.
`readFloat` is `float` followed by `repr`. -/
def readNumber (readFloat : Text → Text) (token : Text) : Option Json :=
  let negative := token.head? = some 45
  let body := if negative then token.tail else token
  let digits := body.takeWhile isDigit
  let rest := body.dropWhile isDigit
  if digits = [] ∨ (digits.head? = some 48 ∧ digits ≠ [48]) then none
  else if rest = [] then
    some (int (if negative then -(digitsValue digits : Int) else digitsValue digits))
  else if isFraction rest then some (float (readFloat token))
  else none

/-- The text behind the given one. -/
def expect : Text → Text → Option Text
  | [], s => some s
  | _ :: _, [] => none
  | c :: name, d :: s => if c = d then expect name s else none

/-- The values that have a name, by the first character of the name and the others. -/
def names : List (Nat × Text × Json) :=
  [(110, ascii "ull", null), (116, ascii "rue", bool true), (102, ascii "alse", bool false),
    (78, ascii "aN", float (ascii "NaN")), (73, ascii "nfinity", float (ascii "Infinity")),
    (45, ascii "Infinity", float (ascii "-Infinity"))]

/-- A value that has a name. -/
def parseName : Text → Option (Json × Text)
  | [] => none
  | c :: s => (names.find? fun name => name.1 = c).bind fun name =>
    (expect name.2.1 s).map fun rest => (name.2.2, rest)

/-- A number or a name. -/
def parseAtom (readFloat : Text → Text) (s : Text) : Option (Json × Text) :=
  match readNumber readFloat (s.takeWhile isNumberChar) with
  | some v => some (v, s.dropWhile isNumberChar)
  | none => parseName s

def parseList {α : Type} (item : Text → Option (α × Text)) (close : Nat) :
    Nat → Text → Option (List α × Text)
  | 0, _ => none
  | n + 1, s => do
      let (a, rest) ← item s
      match skipWs rest with
      | [] => none
      | c :: rest =>
        if c = 44 then do
          let (as, rest) ← parseList item close n (skipWs rest)
          some (a :: as, rest)
        else if c = close then some ([a], rest)
        else none

def parseMember (value : Text → Option (Json × Text)) (s : Text) :
    Option ((Text × Json) × Text) :=
  match s with
  | 34 :: rest => do
      let (key, rest) ← parseString rest
      match skipWs rest with
      | 58 :: rest => do
          let (v, rest) ← value (skipWs rest)
          some ((key, v), rest)
      | _ => none
  | _ => none

/-- A bracket that closes at once, or items. -/
def parseGroup {α : Type} (item : Text → Option (α × Text)) (close n : Nat) (s : Text) :
    Option (List α × Text) :=
  match skipWs s with
  | [] => none
  | c :: rest => if c = close then some ([], rest) else parseList item close n (c :: rest)

/-- A value. Of two members with one key the last counts. -/
def parseValue (readFloat : Text → Text) : Nat → Text → Option (Json × Text)
  | 0, _ => none
  | n + 1, s =>
    match s with
    | [] => none
    | c :: rest =>
      if c = 123 then
        (parseGroup (parseMember (parseValue readFloat n)) 125 n rest).map fun p =>
          (obj (Dict.ofList p.1).entries, p.2)
      else if c = 91 then
        (parseGroup (parseValue readFloat n) 93 n rest).map fun p => (arr p.1, p.2)
      else if c = 34 then (parseString rest).map fun p => (str p.1, p.2)
      else parseAtom readFloat (c :: rest)

/-- `json.loads`, with `none` for `JSONDecodeError`. -/
def loads (readFloat : Text → Text) (s : Text) : Option Json := do
  let (value, rest) ← parseValue readFloat (s.length + 1) (skipWs s)
  if skipWs rest = [] then some value else none

/-! ## Reading further text

A scanner is *local* when it does not look behind the value it returns, as long as something is
there. -/

/-- What is read stays the same when the text goes on. -/
structure Local {α : Type} (p : Text → Option (α × Text)) : Prop where
  nil : p [] = none
  append : ∀ {s a rest}, p s = some (a, rest) → rest ≠ [] → ∀ t, p (s ++ t) = some (a, rest ++ t)

/-- The same for a value that is closed. -/
def Closed {α : Type} (p : Text → Option (α × Text)) : Prop :=
  ∀ {s a rest}, p s = some (a, rest) → ∀ t, p (s ++ t) = some (a, rest ++ t)

variable {s : Text}

theorem dropWhile_append_of_ne_nil {p : Nat → Bool} (h : s.dropWhile p ≠ []) (t : Text) :
    (s ++ t).dropWhile p = s.dropWhile p ++ t ∧ (s ++ t).takeWhile p = s.takeWhile p := by
  induction s with
  | nil => exact absurd rfl h
  | cons c s ih =>
    by_cases hc : p c = true
    · rw [dropWhile_cons_of_pos hc] at h
      simpa [hc] using ih h
    · simp [hc]

theorem skipWs_append (h : skipWs s ≠ []) (t : Text) :
    skipWs (s ++ t) = skipWs s ++ t := (dropWhile_append_of_ne_nil h t).1

variable {c : Nat}

theorem parseUnits_escape {e : Nat} (h : unescape e = some c) (rest : Text) :
    parseUnits (92 :: e :: rest) = (parseUnits rest).map (consUnit (false, c)) := by
  have he : e ≠ 117 := by
    rintro rfl
    cases h
  rw [parseUnits, if_neg (by decide), if_pos rfl, h, Option.bind_some]
  exact fun _ _ _ _ _ heq => absurd heq he

theorem parseUnits_quote (rest : Text) : parseUnits (34 :: rest) = some ([], rest) := by
  rw [parseUnits.eq_def]
  rfl

theorem parseUnits_plain (hquote : c ≠ 34) (hescape : c ≠ 92) (hcontrol : 32 ≤ c) (rest : Text) :
    parseUnits (c :: rest) = (parseUnits rest).map (consUnit (false, c)) := by
  rw [parseUnits.eq_def]
  simp only [if_neg hquote, if_neg hescape, if_neg (Nat.not_lt.2 hcontrol)]

theorem parseUnits_closed : Closed parseUnits := by
  intro s a rest h t
  have hmap : ∀ {s unit a rest}, (∀ {a rest}, parseUnits s = some (a, rest) →
        parseUnits (s ++ t) = some (a, rest ++ t)) →
      (parseUnits s).map (consUnit unit) = some (a, rest) →
      (parseUnits (s ++ t)).map (consUnit unit) = some (a, rest ++ t) := by
    intro s unit a rest ih h
    obtain ⟨⟨units, rest'⟩, hp, heq⟩ := Option.map_eq_some_iff.1 h
    obtain ⟨rfl, rfl⟩ := Prod.mk.inj heq
    rw [ih hp]
    rfl
  fun_induction parseUnits s generalizing a rest with
  | case1 => cases h
  | case2 rest' =>
    obtain ⟨rfl, rfl⟩ := Prod.mk.inj (Option.some.inj h)
    exact parseUnits_quote _
  | case3 a' b c d rest' _ ih =>
    obtain ⟨unit, hunit, h⟩ := Option.bind_eq_some_iff.1 h
    have hstep : parseUnits (92 :: 117 :: a' :: b :: c :: d :: (rest' ++ t)) =
        (parseUnits (rest' ++ t)).map (consUnit (true, unit)) := by
      rw [parseUnits, if_neg (by decide), if_pos rfl, hunit, Option.bind_some]
    exact hstep.trans (hmap ih h)
  | case4 e rest' _ _ ih =>
    obtain ⟨c, hc, h⟩ := Option.bind_eq_some_iff.1 h
    exact (parseUnits_escape hc _).trans (hmap ih h)
  | case5 => cases h
  | case6 => cases h
  | case7 c rest' hquote hescape hcontrol ih =>
    exact (parseUnits_plain hquote hescape (Nat.not_lt.1 hcontrol) _).trans (hmap ih h)

theorem parseString_closed : Closed parseString := by
  intro s a rest h t
  obtain ⟨⟨units, rest'⟩, hp, heq⟩ := Option.map_eq_some_iff.1 h
  obtain ⟨rfl, rfl⟩ := Prod.mk.inj heq
  rw [parseString, parseUnits_closed hp]
  rfl

variable {rest : Text}

theorem expect_eq_some {name : Text} : expect name s = some rest ↔ s = name ++ rest := by
  fun_induction expect name s with
  | case1 s => simp
  | case2 => simp
  | case3 name d s ih => simpa using ih
  | case4 c name d s hne => simp [Ne.symm hne]

variable {v : Json}

theorem parseName_eq_some : parseName s = some (v, rest) ↔
      ∃ name, (names.find? fun n => n.1 = name.1) = some name ∧ name.2.2 = v ∧
        s = name.1 :: (name.2.1 ++ rest) := by
  cases s with
  | nil => simp [parseName]
  | cons c s =>
    simp only [parseName, Option.bind_eq_some_iff, Option.map_eq_some_iff, Prod.mk.injEq,
      expect_eq_some, List.cons.injEq]
    constructor
    · rintro ⟨name, hname, rest', rfl, rfl, rfl⟩
      obtain rfl : name.1 = c := by simpa using find?_some hname
      exact ⟨name, hname, rfl, rfl, rfl⟩
    · rintro ⟨name, hname, rfl, rfl, rfl⟩
      exact ⟨name, hname, rest, rfl, rfl, rfl⟩

theorem parseName_closed : Closed parseName := by
  intro s a rest h t
  obtain ⟨name, hname, rfl, rfl⟩ := parseName_eq_some.1 h
  exact parseName_eq_some.2 ⟨name, hname, rfl, by simp⟩

/-- The values that have a name are no objects, and no name starts like a number. -/
theorem parseName_atom (readFloat : Text → Text) (h : parseName s = some (v, rest)) :
    readNumber readFloat (s.takeWhile isNumberChar) = none ∧ v.asObj = none := by
  obtain ⟨name, hname, rfl, rfl⟩ := parseName_eq_some.1 h
  have hmem := mem_of_find?_eq_some hname
  simp only [names, mem_cons, not_mem_nil, or_false] at hmem
  rcases hmem with rfl | rfl | rfl | rfl | rfl | rfl <;> exact ⟨rfl, rfl⟩

theorem parseAtom_local (readFloat : Text → Text) : Local (parseAtom readFloat) := by
  refine ⟨rfl, fun {s a rest} h hrest t => ?_⟩
  rw [parseAtom] at h
  cases hnum : readNumber readFloat (s.takeWhile isNumberChar) with
  | some v =>
    rw [hnum] at h
    obtain ⟨rfl, rfl⟩ := Prod.mk.inj (Option.some.inj h)
    obtain ⟨hdrop, htake⟩ := dropWhile_append_of_ne_nil hrest t
    rw [parseAtom, htake, hnum, hdrop]
  | none =>
    rw [hnum] at h
    have hname := parseName_closed h t
    rw [parseAtom, (parseName_atom readFloat hname).1, hname]

section Lists

variable {α : Type} {item : Text → Option (α × Text)} {close : Nat}

theorem parseList_succ {n : Nat} {s rest : Text} {as : List α} :
    parseList item close (n + 1) s = some (as, rest) ↔
      ∃ a rest₁ c rest₂, item s = some (a, rest₁) ∧ skipWs rest₁ = c :: rest₂ ∧
        ((c = 44 ∧ ∃ as', parseList item close n (skipWs rest₂) = some (as', rest) ∧
          as = a :: as') ∨
          (c ≠ 44 ∧ c = close ∧ as = [a] ∧ rest = rest₂)) := by
  rw [parseList, Option.bind_eq_bind, Option.bind_eq_some_iff]
  constructor
  · rintro ⟨⟨a, rest₁⟩, ha, h⟩
    cases hskip : skipWs rest₁ with
    | nil => simp [hskip] at h
    | cons c rest₂ =>
      refine ⟨a, rest₁, c, rest₂, ha, hskip, ?_⟩
      simp only [hskip] at h
      split_ifs at h with hc hclose
      · obtain ⟨⟨as', rest'⟩, has, heq⟩ := Option.bind_eq_some_iff.1 h
        obtain ⟨rfl, rfl⟩ := Prod.mk.inj (Option.some.inj heq)
        exact .inl ⟨hc, as', has, rfl⟩
      · obtain ⟨rfl, rfl⟩ := Prod.mk.inj (Option.some.inj h)
        exact .inr ⟨hc, hclose, rfl, rfl⟩
  · rintro ⟨a, rest₁, c, rest₂, ha, hskip, hnext⟩
    refine ⟨(a, rest₁), ha, ?_⟩
    simp only [hskip]
    rcases hnext with ⟨hc, as', has, rfl⟩ | ⟨hc, hclose, rfl, rfl⟩
    · rw [if_pos hc, has]
      rfl
    · rw [if_neg hc, if_pos hclose]

variable (hitem : Local item) (n : Nat)
include hitem

theorem parseList_nil : parseList item close n [] = none := by
  cases n with
  | zero => rfl
  | succ n => rw [parseList, hitem.nil]; rfl

theorem parseList_closed : Closed (parseList item close n) := by
  induction n with
  | zero => exact fun h => by cases h
  | succ n ih =>
    intro s as rest h t
    obtain ⟨a, rest₁, c, rest₂, ha, hskip, hnext⟩ := parseList_succ.1 h
    have hne : rest₁ ≠ [] := by
      rintro rfl
      cases hskip
    have hskip' : skipWs (rest₁ ++ t) = c :: (rest₂ ++ t) := by
      rw [skipWs_append (by rw [hskip]; exact cons_ne_nil _ _), hskip, cons_append]
    refine parseList_succ.2 ⟨a, rest₁ ++ t, c, rest₂ ++ t, hitem.append ha hne t, hskip', ?_⟩
    rcases hnext with ⟨hc, as', has, hp⟩ | ⟨hc, hclose, hp, rfl⟩
    · have hnonempty : skipWs rest₂ ≠ [] := by
        intro hnil
        rw [hnil, parseList_nil hitem] at has
        cases has
      exact .inl ⟨hc, as', by rw [skipWs_append hnonempty]; exact ih has t, hp⟩
    · exact .inr ⟨hc, hclose, hp, rfl⟩

theorem parseGroup_closed :
    Closed (parseGroup item close n) := by
  intro s as rest h t
  rw [parseGroup] at h ⊢
  cases hskip : skipWs s with
  | nil => simp [hskip] at h
  | cons c rest' =>
    rw [skipWs_append (by rw [hskip]; exact cons_ne_nil _ _), hskip, cons_append]
    simp only [hskip] at h ⊢
    split_ifs at h ⊢ with hc
    · obtain ⟨rfl, rfl⟩ := Prod.mk.inj (Option.some.inj h)
      rfl
    · exact parseList_closed hitem n h t

end Lists

variable {value : Text → Option (Json × Text)} {m : Text × Json}

theorem parseMember_eq_some :
    parseMember value s = some (m, rest) ↔ ∃ s' rest₁ rest₂, s = 34 :: s' ∧
      parseString s' = some (m.1, rest₁) ∧ skipWs rest₁ = 58 :: rest₂ ∧
        value (skipWs rest₂) = some (m.2, rest) := by
  constructor
  · intro h
    unfold parseMember at h
    split at h
    · next s' =>
        obtain ⟨⟨key, rest₁⟩, hkey, h⟩ := Option.bind_eq_some_iff.1 h
        simp only at h
        split at h
        · next rest₂ hskip =>
            obtain ⟨⟨v, rest₃⟩, hv, heq⟩ := Option.bind_eq_some_iff.1 h
            obtain ⟨rfl, rfl⟩ := Prod.mk.inj (Option.some.inj heq)
            exact ⟨s', rest₁, rest₂, rfl, hkey, hskip, hv⟩
        · cases h
    · cases h
  · rintro ⟨s', rest₁, rest₂, rfl, hkey, hskip, hv⟩
    simp only [parseMember, hkey, Option.bind_eq_bind, Option.bind_some, hskip, hv]

theorem parseMember_local (hvalue : Local value) : Local (parseMember value) := by
  refine ⟨rfl, fun {s m rest} h hrest t => ?_⟩
  obtain ⟨s', rest₁, rest₂, rfl, hkey, hskip, hv⟩ := parseMember_eq_some.1 h
  have hne : skipWs rest₂ ≠ [] := by
    intro hnil
    rw [hnil, hvalue.nil] at hv
    cases hv
  refine parseMember_eq_some.2 ⟨s' ++ t, rest₁ ++ t, rest₂ ++ t, rfl, parseString_closed hkey t,
    ?_, ?_⟩
  · rw [skipWs_append (by rw [hskip]; exact cons_ne_nil _ _), hskip, cons_append]
  · rw [skipWs_append hne]
    exact hvalue.append hv hrest t

section Value

section

variable (readFloat : Text → Text) (n : Nat)

theorem parseValue_obj (rest : Text) :
    parseValue readFloat (n + 1) (123 :: rest) =
      (parseGroup (parseMember (parseValue readFloat n)) 125 n rest).map fun p =>
        (obj (Dict.ofList p.1).entries, p.2) := rfl

theorem parseValue_arr (rest : Text) :
    parseValue readFloat (n + 1) (91 :: rest) =
      (parseGroup (parseValue readFloat n) 93 n rest).map fun p => (arr p.1, p.2) := rfl

theorem parseValue_atom {c : Nat} (rest : Text)
    (h : c ≠ 123 ∧ c ≠ 91 ∧ c ≠ 34) :
    parseValue readFloat (n + 1) (c :: rest) = parseAtom readFloat (c :: rest) := by
  rw [parseValue, if_neg h.1, if_neg h.2.1, if_neg h.2.2]

end

theorem first_cases (c : Nat) : c = 123 ∨ c = 91 ∨ c = 34 ∨ (c ≠ 123 ∧ c ≠ 91 ∧ c ≠ 34) := by
  omega

end Value

variable {α : Type}

theorem map_closed {β : Type} {p : Text → Option (α × Text)} (hp : Closed p) (f : α → β) :
    Closed fun s => (p s).map fun x => (f x.1, x.2) := by
  intro s b rest h t
  obtain ⟨⟨a, rest'⟩, ha, heq⟩ := Option.map_eq_some_iff.1 h
  obtain ⟨rfl, rfl⟩ := Prod.mk.inj heq
  simp only [hp ha t, Option.map_some]

theorem parseValue_local (readFloat : Text → Text) (n : Nat) : Local (parseValue readFloat n) := by
  induction n with
  | zero => exact ⟨rfl, fun h => by cases h⟩
  | succ n ih =>
    refine ⟨rfl, fun {s v rest} h hrest t => ?_⟩
    cases s with
    | nil => cases h
    | cons c s =>
      rw [cons_append]
      obtain rfl | rfl | rfl | hc := first_cases c
      · exact map_closed (parseGroup_closed (parseMember_local ih) n)
          (fun ms => obj (Dict.ofList ms).entries) h t
      · exact map_closed (parseGroup_closed ih n) arr h t
      · exact map_closed parseString_closed str h t
      · rw [parseValue_atom _ _ _ hc] at h ⊢
        exact (parseAtom_local readFloat).append h hrest t

variable {n : Nat}

theorem parseValue_append_of_obj {readFloat : Text → Text}
    (h : parseValue readFloat n (123 :: s) = some (v, rest)) (t : Text) :
    parseValue readFloat n (123 :: s ++ t) = some (v, rest ++ t) := by
  cases n with
  | zero => cases h
  | succ n =>
    have hgroup : Closed (parseGroup (parseMember (parseValue readFloat n)) 125 n) :=
      parseGroup_closed (parseMember_local (parseValue_local readFloat n)) n
    exact map_closed hgroup (fun ms => obj (Dict.ofList ms).entries) h t

/-! ## Fuel -/

/-- The second scanner reads whatever the first does. -/
def Extends {α : Type} (p p' : Text → Option (α × Text)) : Prop :=
  ∀ {s x}, p s = some x → p' s = some x

variable {n' : Nat} {item item' : Text → Option (α × Text)} {close : Nat}

theorem parseList_extends (h : Extends item item') (hn : n ≤ n') :
    Extends (parseList item close n) (parseList item' close n') := by
  induction n generalizing n' with
  | zero => exact fun h => by cases h
  | succ n ih =>
    obtain ⟨n', rfl⟩ : ∃ k, n' = k + 1 := ⟨n' - 1, by omega⟩
    rintro s ⟨as, rest⟩ hs
    obtain ⟨a, rest₁, c, rest₂, ha, hskip, hnext⟩ := parseList_succ.1 hs
    refine parseList_succ.2 ⟨a, rest₁, c, rest₂, h ha, hskip, hnext.imp_left ?_⟩
    rintro ⟨hc, as', has, heq⟩
    exact ⟨hc, as', ih (by omega) has, heq⟩

theorem parseGroup_extends (h : Extends item item') (hn : n ≤ n') :
    Extends (parseGroup item close n) (parseGroup item' close n') := by
  intro s x hs
  rw [parseGroup] at hs ⊢
  cases hskip : skipWs s with
  | nil => simp [hskip] at hs
  | cons c rest =>
    simp only [hskip] at hs ⊢
    split_ifs at hs ⊢
    · exact hs
    · exact parseList_extends h hn hs

theorem parseMember_extends {value' : Text → Option (Json × Text)} (h : Extends value value') :
    Extends (parseMember value) (parseMember value') := by
  rintro s ⟨m, rest⟩ hs
  obtain ⟨s', rest₁, rest₂, rfl, hkey, hskip, hv⟩ := parseMember_eq_some.1 hs
  exact parseMember_eq_some.2 ⟨s', rest₁, rest₂, rfl, hkey, hskip, h hv⟩

theorem parseValue_extends (readFloat : Text → Text) (hn : n ≤ n') :
    Extends (parseValue readFloat n) (parseValue readFloat n') := by
  induction n generalizing n' with
  | zero => exact fun h => by cases h
  | succ n ih =>
    obtain ⟨n', rfl⟩ : ∃ k, n' = k + 1 := ⟨n' - 1, by omega⟩
    have hn' : n ≤ n' := by omega
    intro s x hs
    cases s with
    | nil => cases hs
    | cons c s =>
      obtain rfl | rfl | rfl | hc := first_cases c
      · obtain ⟨p, hp, rfl⟩ := Option.map_eq_some_iff.1 hs
        rw [parseValue_obj, parseGroup_extends (parseMember_extends (ih hn')) hn' hp,
          Option.map_some]
      · obtain ⟨p, hp, rfl⟩ := Option.map_eq_some_iff.1 hs
        rw [parseValue_arr, parseGroup_extends (ih hn') hn' hp, Option.map_some]
      · exact hs
      · rwa [parseValue_atom _ _ _ hc] at hs ⊢

/-! ## Whole texts -/

variable {readFloat : Text → Text} {t : Text}

section

variable (h : loads readFloat s = some v) (hobj : (skipWs s).head? = some 123)
include h hobj

theorem parseValue_of_loads_obj : ∃ rest, skipWs rest = [] ∧
      parseValue readFloat ((s ++ t).length + 1) (skipWs (s ++ t)) = some (v, rest ++ t) := by
  obtain ⟨⟨value, rest⟩, hvalue, h⟩ := Option.bind_eq_some_iff.1 h
  simp only at h
  split_ifs at h with hrest
  obtain rfl := Option.some.inj h
  cases hskip : skipWs s with
  | nil => simp [hskip] at hobj
  | cons c s' =>
    have hc : c = 123 := by simpa [hskip] using hobj
    subst hc
    rw [hskip] at hvalue
    refine ⟨rest, hrest, ?_⟩
    rw [skipWs_append (by rw [hskip]; exact cons_ne_nil _ _), hskip]
    exact parseValue_extends readFloat (by simp) (parseValue_append_of_obj hvalue t)

theorem loads_append_of_obj (ht : skipWs t ≠ []) : loads readFloat (s ++ t) = none := by
  obtain ⟨rest, hrest, hvalue⟩ := parseValue_of_loads_obj (t := t) h hobj
  have hskip : skipWs (rest ++ t) ≠ [] := by
    rw [skipWs, dropWhile_append]
    rw [skipWs] at hrest ht
    simpa [hrest] using ht
  rw [loads, hvalue]
  simp [hskip]

end

theorem loads_of_skipWs_nil (h : skipWs s = []) : loads readFloat s = none := by
  rw [loads, h]
  rfl

theorem loads_cut (h : loads readFloat (s ++ t) = some v)
    (hs : skipWs s = [] ∨ (skipWs s).head? = some 123) (ht : skipWs t ≠ []) :
    loads readFloat s = none := by
  rcases hs with hs | hs
  · exact loads_of_skipWs_nil hs
  · cases hcut : loads readFloat s with
    | none => rfl
    | some v' =>
      rw [loads_append_of_obj hcut hs ht] at h
      cases h

variable {fields : List (Text × Json)}

theorem head?_of_loads_obj (h : loads readFloat s = some (obj fields)) :
    (skipWs s).head? = some 123 := by
  obtain ⟨⟨value, rest⟩, hvalue, h⟩ := Option.bind_eq_some_iff.1 h
  simp only at h
  split_ifs at h
  obtain rfl := Option.some.inj h
  have hatom : ∀ s rest, parseAtom readFloat s ≠ some (obj fields, rest) := by
    intro s rest h
    rw [parseAtom] at h
    cases hnum : readNumber readFloat (s.takeWhile isNumberChar) with
    | some v =>
      rw [hnum] at h
      obtain ⟨rfl, -⟩ := Prod.mk.inj (Option.some.inj h)
      simp only [readNumber] at hnum
      split_ifs at hnum <;> cases hnum
    | none =>
      rw [hnum] at h
      cases (parseName_atom readFloat h).2
  cases hskip : skipWs s with
  | nil => rw [hskip] at hvalue; cases hvalue
  | cons c s' =>
    rw [hskip] at hvalue
    obtain rfl | rfl | rfl | hc := first_cases c
    · rfl
    · obtain ⟨p, -, heq⟩ := Option.map_eq_some_iff.1 hvalue
      cases heq
    · obtain ⟨p, -, heq⟩ := Option.map_eq_some_iff.1 hvalue
      cases heq
    · rw [parseValue_atom _ _ _ hc] at hvalue
      exact absurd hvalue (hatom _ _)

/-! ## Reading what was printed -/

/-- A text of ASCII characters, a natural number or a Boolean. -/
def Plain : Json → Prop
  | str s => ∀ c ∈ s, c < 128
  | int n => 0 ≤ n
  | bool _ => True
  | _ => False

theorem parseUnits_escape_append (hc : c < 128) (rest : Text) :
    ∃ mark, parseUnits (escape c ++ rest) = (parseUnits rest).map (consUnit (mark, c)) := by
  have hunit : ∀ c < 128, formatHex 4 c = [48, 48, hexDigit (c / 16), hexDigit (c % 16)] ∧
      hex4 48 48 (hexDigit (c / 16)) (hexDigit (c % 16)) = some c := by decide +kernel
  -- the characters with an escape of their own
  by_cases hown : c = 34 ∨ c = 92 ∨ c = 10 ∨ c = 13 ∨ c = 9 ∨ c = 12 ∨ c = 8
  · refine ⟨false, ?_⟩
    rcases hown with rfl | rfl | rfl | rfl | rfl | rfl | rfl <;> exact parseUnits_escape rfl _
  · simp only [not_or] at hown
    obtain ⟨h34, h92, h10, h13, h9, h12, h8⟩ := hown
    rw [escape, if_neg h34, if_neg h92, if_neg h10, if_neg h13, if_neg h9, if_neg h12, if_neg h8]
    by_cases hplain : 32 ≤ c ∧ c ≤ 126
    · rw [if_pos hplain]
      exact ⟨false, parseUnits_plain h34 h92 hplain.1 _⟩
    · obtain ⟨hformat, hhex⟩ := hunit c hc
      refine ⟨true, ?_⟩
      rw [if_neg hplain, if_pos (by omega), escapeUnit, hformat]
      show parseUnits (92 :: 117 :: 48 :: 48 :: hexDigit (c / 16) :: hexDigit (c % 16) :: rest) = _
      rw [parseUnits, if_neg (by decide), if_pos rfl, hhex, Option.bind_some]

theorem parseUnits_flatMap_escape (hs : ∀ c ∈ s, c < 128) (rest : Text) :
    ∃ units, parseUnits (s.flatMap escape ++ 34 :: rest) = some (units, rest) ∧
      units.map Prod.snd = s := by
  induction s with
  | nil => exact ⟨[], parseUnits_quote rest, rfl⟩
  | cons c s ih =>
    rw [forall_mem_cons] at hs
    obtain ⟨units, hunits, hmap⟩ := ih hs.2
    obtain ⟨mark, hmark⟩ := parseUnits_escape_append hs.1 (s.flatMap escape ++ 34 :: rest)
    refine ⟨(mark, c) :: units, ?_, by rw [map_cons, hmap]⟩
    rw [flatMap_cons, append_assoc, hmark, hunits]
    rfl

theorem joinSurrogates_of_lt {units : List (Bool × Nat)} (h : ∀ u ∈ units, u.2 < 0xD800) :
    joinSurrogates units = units.map Prod.snd := by
  have hjoin : units.foldr joinSurrogate [] = units := by
    induction units with
    | nil => rfl
    | cons u units ih =>
      rw [forall_mem_cons] at h
      rw [foldr_cons, ih h.2, joinSurrogate.eq_def]
      split
      · rw [if_neg (by omega)]
      · rfl
  rw [joinSurrogates, hjoin]

theorem parseString_quote (hs : ∀ c ∈ s, c < 128) (rest : Text) :
    parseString (s.flatMap escape ++ 34 :: rest) = some (s, rest) := by
  obtain ⟨units, hunits, hmap⟩ := parseUnits_flatMap_escape hs rest
  have hlt : ∀ u ∈ units, u.2 < 0xD800 := fun u hu => by
    have := hs u.2 (hmap ▸ mem_map_of_mem hu)
    omega
  rw [parseString, hunits, Option.map_some, joinSurrogates_of_lt hlt, hmap]

theorem digitsValue_decimalNat (n : Nat) : digitsValue (decimalNat n) = n := by
  have hdigits : ∀ l : List Nat,
      (l.map (· + 48)).foldr (fun c acc => 10 * acc + (c - 48)) 0 = Nat.ofDigits 10 l := by
    intro l
    induction l with
    | nil => rfl
    | cons d l ih =>
      rw [map_cons, foldr_cons, ih, Nat.ofDigits_cons, Nat.add_sub_cancel, Nat.add_comm]
  rw [decimalNat]
  split_ifs with hn
  · rw [hn]; rfl
  · rw [digitsValue, map_reverse, foldl_reverse, hdigits, Nat.ofDigits_digits]

theorem isDigit_of_mem_decimalNat (h : c ∈ decimalNat n) : isDigit c = true := by
  have := digit_of_mem_decimalNat h
  simp [isDigit, this]

theorem decimalNat_of_head? (h : (decimalNat n).head? = some 48) : decimalNat n = [48] := by
  rw [decimalNat] at h ⊢
  split_ifs at h ⊢ with hn
  · rfl
  · rw [head?_map, head?_reverse, getLast?_eq_getLast_of_ne_nil
      (Nat.digits_ne_nil_iff_ne_zero.2 hn)] at h
    have hlast := Nat.getLast_digit_ne_zero 10 hn
    simp only [Option.map_some, Option.some.injEq, Nat.add_eq_right] at h
    exact absurd h hlast

theorem readNumber_decimalNat (n : Nat) : readNumber readFloat (decimalNat n) = some (int n) := by
  have hsign : (decimalNat n).head? ≠ some 45 := fun h => by
    have := digit_of_mem_decimalNat (mem_of_mem_head? h)
    omega
  have htake : (decimalNat n).takeWhile isDigit = decimalNat n :=
    takeWhile_eq_self_iff.2 fun _ h => isDigit_of_mem_decimalNat h
  have hdrop : (decimalNat n).dropWhile isDigit = [] :=
    dropWhile_eq_nil_iff.2 fun _ h => isDigit_of_mem_decimalNat h
  have hzero : ¬ (decimalNat n = [] ∨ ((decimalNat n).head? = some 48 ∧ decimalNat n ≠ [48])) := by
    rintro (h | ⟨h, hne⟩)
    · exact decimalNat_ne_nil n h
    · exact hne (decimalNat_of_head? h)
  simp only [readNumber, hsign, if_false, htake, hdrop, hzero, if_true, digitsValue_decimalNat]

theorem parseAtom_decimalNat (readFloat : Text → Text) (n : Nat) (hc : isNumberChar c = false)
    (rest : Text) : parseAtom readFloat (decimalNat n ++ c :: rest) = some (int n, c :: rest) := by
  have hdigits : ∀ d ∈ decimalNat n, isNumberChar d = true := fun d hd => by
    simp [isNumberChar, isDigit_of_mem_decimalNat hd]
  have htake : (decimalNat n ++ c :: rest).takeWhile isNumberChar = decimalNat n := by
    rw [takeWhile_append_of_pos hdigits, takeWhile_cons_of_neg (by simp [hc]),
      append_nil]
  have hdrop : (decimalNat n ++ c :: rest).dropWhile isNumberChar = c :: rest := by
    rw [dropWhile_append_of_pos hdigits, dropWhile_cons_of_neg (by simp [hc])]
  rw [parseAtom, htake, readNumber_decimalNat, hdrop]

/-- A plain value is read back when no character of a number follows. -/
theorem parseValue_dumps (hv : Plain v) (hc : isNumberChar c = false) (n : Nat) (rest : Text) :
    parseValue readFloat (n + 1) (dumps v ++ c :: rest) = some (v, c :: rest) := by
  cases v with
  | str s =>
    have hquote : dumps (str s) ++ c :: rest = 34 :: (s.flatMap escape ++ 34 :: c :: rest) := by
      simp [dumps, quote]
    rw [hquote]
    show (parseString _).map _ = _
    rw [parseString_quote hv]
    rfl
  | int k =>
    obtain ⟨k, rfl⟩ := Int.eq_ofNat_of_zero_le hv
    have hatom := parseAtom_decimalNat readFloat k hc rest
    obtain ⟨d, digits, hcons⟩ := exists_cons_of_ne_nil (decimalNat_ne_nil k)
    have hd := digit_of_mem_decimalNat (c := d) (n := k) (by rw [hcons]; exact mem_cons_self)
    have hdumps : dumps (int k) = decimalNat k := rfl
    rw [hdumps]
    rw [hcons] at hatom ⊢
    rwa [cons_append, parseValue_atom _ _ _ (by omega)]
  | bool b =>
    cases b <;> rfl
  | null | float | arr | obj => exact absurd hv id

def printMember (m : Text × Json) : Text := quote m.1 ++ 58 :: dumps m.2

theorem skipWs_cons (hc : isWs c = false) (s : Text) : skipWs (c :: s) = c :: s :=
  dropWhile_cons_of_neg (by simp [hc])

theorem skipWs_dumps (hv : Plain v) (s : Text) : skipWs (dumps v ++ s) = dumps v ++ s := by
  cases v with
  | str t => rfl
  | int k =>
    obtain ⟨k, rfl⟩ := Int.eq_ofNat_of_zero_le hv
    obtain ⟨d, digits, hcons⟩ := exists_cons_of_ne_nil (decimalNat_ne_nil k)
    have hd := digit_of_mem_decimalNat (c := d) (n := k) (by rw [hcons]; exact mem_cons_self)
    have hdumps : dumps (int k) = d :: digits := hcons
    have hws : isWs d = false := by
      simp only [isWs, Bool.or_eq_false_iff, decide_eq_false_iff_not]
      omega
    rw [hdumps]
    exact skipWs_cons hws _
  | bool b => cases b <;> rfl
  | null | float | arr | obj => exact absurd hv id

theorem parseMember_printMember (hkey : ∀ c ∈ m.1, c < 128) (hv : Plain m.2)
    (hc : isNumberChar c = false) (n : Nat) (rest : Text) :
    parseMember (parseValue readFloat (n + 1)) (printMember m ++ c :: rest) =
      some (m, c :: rest) := by
  refine parseMember_eq_some.2 ⟨m.1.flatMap escape ++ 34 :: 58 :: (dumps m.2 ++ c :: rest),
    58 :: (dumps m.2 ++ c :: rest), dumps m.2 ++ c :: rest, ?_, parseString_quote hkey _,
    skipWs_cons rfl _, ?_⟩
  · simp [printMember, quote]
  · rw [skipWs_dumps hv]
    exact parseValue_dumps hv hc n rest

theorem parseList_printMember (readFloat : Text → Text) {members : List (Text × Json)}
    (hne : members ≠ [])
    (hkeys : ∀ m ∈ members, ∀ c ∈ m.1, c < 128) (hvalues : ∀ m ∈ members, Plain m.2)
    {k : Nat} (hk : members.length ≤ k) (n : Nat) (rest : Text) :
    parseList (parseMember (parseValue readFloat (n + 1))) 125 k
      (joinComma (members.map printMember) ++ 125 :: rest) = some (members, rest) := by
  induction members generalizing k with
  | nil => exact absurd rfl hne
  | cons m members ih =>
    obtain ⟨k, rfl⟩ : ∃ j, k = j + 1 := ⟨k - 1, by simp only [length_cons] at hk; omega⟩
    rw [forall_mem_cons] at hkeys hvalues
    cases members with
    | nil =>
      exact parseList_succ.2 ⟨m, 125 :: rest, 125, rest,
        parseMember_printMember hkeys.1 hvalues.1 rfl n rest, skipWs_cons rfl _,
        .inr ⟨by decide, rfl, rfl, rfl⟩⟩
    | cons m' members =>
      have hjoin : joinComma ((m :: m' :: members).map printMember) ++ 125 :: rest =
          printMember m ++ 44 :: (joinComma ((m' :: members).map printMember) ++ 125 :: rest) := by
        simp only [map_cons, joinComma, append_assoc, cons_append]
      have hrest := ih (cons_ne_nil _ _) hkeys.2 hvalues.2 (k := k)
        (Nat.le_of_succ_le_succ hk)
      -- a member starts with its quote
      have hskip : skipWs (joinComma ((m' :: members).map printMember) ++ 125 :: rest) =
          joinComma ((m' :: members).map printMember) ++ 125 :: rest := by
        cases members <;> rfl
      rw [hjoin]
      refine parseList_succ.2 ⟨m, _, 44, _, parseMember_printMember hkeys.1 hvalues.1 rfl n _,
        skipWs_cons rfl _, .inl ⟨rfl, m' :: members, ?_, rfl⟩⟩
      rw [hskip, hrest]

theorem dumps_obj (fields : List (Text × Json)) :
    dumps (obj fields) = 123 ::
      (joinComma ((fields.insertionSort fun a b => a.1 ≤ b.1).map printMember) ++ [125]) := by
  have hsort : (fields.map fun f => (f.1, f.2.dumps)).insertionSort (fun a b => a.1 ≤ b.1) =
      (fields.insertionSort fun a b => a.1 ≤ b.1).map fun f => (f.1, f.2.dumps) :=
    (map_insertionSort (fun a b : Text × Json => a.1 ≤ b.1)
      (fun a b : Text × Text => a.1 ≤ b.1) (fun f => (f.1, f.2.dumps)) fields
      fun _ _ _ _ => Iff.rfl).symm
  rw [dumps, dumpsFields_eq_map, hsort, map_map]
  rfl

/-- **Round trip.** An object of plain members is read back from what is printed, its members in
the order of their keys. -/
theorem loads_dumps {fields : List (Text × Json)} (hne : fields ≠ [])
    (hkeys : ∀ f ∈ fields, ∀ c ∈ f.1, c < 128) (hvalues : ∀ f ∈ fields, Plain f.2)
    (hnodup : (fields.map Prod.fst).Nodup) :
    loads readFloat (dumps (obj fields)) =
      some (obj (fields.insertionSort fun a b => a.1 ≤ b.1)) := by
  have hperm := perm_insertionSort (fun a b : Text × Json => a.1 ≤ b.1) fields
  have hlength : fields.length + 1 ≤ (dumps (obj fields)).length := by
    have hsum := length_le_sum_of_one_le (fields.map memberLength) fun k hk => by
      obtain ⟨f, -, rfl⟩ := mem_map.1 hk
      rw [memberLength]
      omega
    rw [length_dumps_obj hne]
    simpa using hsum
  generalize hn : (dumps (obj fields)).length = n at hlength
  obtain ⟨n, rfl⟩ : ∃ j, n = j + 1 := ⟨n - 1, by omega⟩
  rw [loads, hn, dumps_obj]
  generalize fields.insertionSort (fun a b => a.1 ≤ b.1) = members at hperm ⊢
  have hlist := parseList_printMember readFloat
    (fun h : members = [] => hne (by simpa [h] using hperm)) (fun m hm =>
      hkeys m (hperm.mem_iff.1 hm))
    (fun m hm => hvalues m (hperm.mem_iff.1 hm)) (k := n + 1) (by rw [hperm.length_eq]; omega) n []
  have hentries : (Dict.ofList members).entries = members :=
    Dict.entries_ofList ((hperm.map Prod.fst).nodup_iff.2 hnodup)
  obtain ⟨body, hbody⟩ : ∃ body, joinComma (members.map printMember) ++ [125] = 34 :: body := by
    rcases members with _ | ⟨m, _ | ⟨m', members⟩⟩
    · exact absurd (by simpa using hperm) hne
    · exact ⟨_, rfl⟩
    · exact ⟨_, rfl⟩
  rw [hbody] at hlist ⊢
  rw [skipWs_cons rfl, parseValue_obj, parseGroup, skipWs_cons rfl]
  simp only [show ¬ (34 = 125) by decide, if_false, hlist, Option.map_some, hentries,
    Option.bind_eq_bind, Option.bind_some]
  rfl

theorem perm_of_dumps_eq {fields' : List (Text × Json)} (hne : fields ≠ []) (hne' : fields' ≠ [])
    (hkeys : ∀ f ∈ fields ++ fields', ∀ c ∈ f.1, c < 128)
    (hvalues : ∀ f ∈ fields ++ fields', Plain f.2) (hnodup : (fields.map Prod.fst).Nodup)
    (hnodup' : (fields'.map Prod.fst).Nodup) (h : dumps (obj fields) = dumps (obj fields')) :
    fields.Perm fields' := by
  rw [forall_mem_append] at hkeys hvalues
  have hloads : loads id (dumps (obj fields)) = _ := loads_dumps hne hkeys.1 hvalues.1 hnodup
  rw [h, loads_dumps hne' hkeys.2 hvalues.2 hnodup'] at hloads
  have hsorted := obj.inj (Option.some.inj hloads)
  exact (perm_insertionSort _ _).symm.trans (hsorted ▸ perm_insertionSort _ _)

variable {F : Type} {r : F → Json}

theorem record?_of_perm [Keys F] (h : fields.Perm (Keys.all.map fun f => (Keys.name f, r f))) :
    record? F (obj fields) = some r := by
  refine record?_eq_some_iff.2 ⟨fields, rfl, fun f hf => ?_, fun k => ?_⟩
  · obtain ⟨k, -, rfl⟩ := mem_map.1 (h.mem_iff.1 hf)
    exact ⟨k, rfl⟩
  · have hmem : (Keys.name k, r k) ∈ fields :=
      h.mem_iff.2 (mem_map.2 ⟨k, Keys.mem_all k, rfl⟩)
    have hnodup : (fields.map Prod.fst).Nodup := by
      rw [(h.map Prod.fst).nodup_iff, map_map]
      exact Keys.nodup
    cases hget : member fields (Keys.name k) with
    | none =>
      rw [member, Option.map_eq_none_iff, find?_eq_none] at hget
      exact (hget _ hmem (decide_eq_true rfl)).elim
    | some v =>
      have hpair := inj_on_of_nodup_map hnodup (mem_of_member hget) hmem rfl
      rw [(Prod.mk.inj hpair).2]

theorem loads_ofRecord [Keys F] (hne : (Keys.all : List F) ≠ [])
    (hkeys : ∀ f : F, ∀ c ∈ Keys.name f, c < 128) (hvalues : ∀ f, Plain (r f)) :
    ∃ value, loads readFloat (dumps (ofRecord r)) = some value ∧ record? F value = some r := by
  have hforall : ∀ {P : Text × Json → Prop}, (∀ f, P (Keys.name f, r f)) →
      ∀ m ∈ (Keys.all : List F).map fun f => (Keys.name f, r f), P m := by
    intro P h m hm
    obtain ⟨f, -, rfl⟩ := mem_map.1 hm
    exact h f
  refine ⟨_, loads_dumps (by simpa using hne) (hforall hkeys) (hforall hvalues) ?_,
    record?_of_perm (perm_insertionSort _ _)⟩
  rw [map_map]
  exact Keys.nodup

/-! ## The characters that are printed -/

def Inner (c : Nat) : Prop := 32 ≤ c ∧ c ≤ 126 ∧ c ≠ 125

theorem mem_joinComma {ts : List Text} (h : c ∈ joinComma ts) : c = 44 ∨ ∃ t ∈ ts, c ∈ t := by
  induction ts with
  | nil => cases h
  | cons t ts ih =>
    cases ts with
    | nil => exact .inr ⟨t, mem_singleton.2 rfl, h⟩
    | cons t' ts =>
      rcases mem_append.1 h with h | h
      · exact .inr ⟨t, mem_cons_self, h⟩
      · rcases mem_cons.1 h with h | h
        · exact .inl h
        · rcases ih h with h | ⟨u, hu, hc⟩
          · exact .inl h
          · exact .inr ⟨u, mem_cons_of_mem _ hu, hc⟩

theorem inner_quote (hs : ∀ c ∈ s, c < 128 ∧ c ≠ 125) : ∀ c ∈ quote s, Inner c := by
  have hescape : ∀ c < 128, c ≠ 125 → ∀ d ∈ escape c, 32 ≤ d ∧ d ≤ 126 ∧ d ≠ 125 := by
    decide +kernel
  intro c hc
  simp only [quote, cons_append, mem_cons, mem_append, mem_flatMap,
    not_mem_nil, or_false] at hc
  rcases hc with rfl | ⟨d, hd, hc⟩ | rfl
  · exact ⟨by decide, by decide, by decide⟩
  · exact hescape d (hs d hd).1 (hs d hd).2 c hc
  · exact ⟨by decide, by decide, by decide⟩

/-- A plain value without closing braces in it. -/
def Braceless (v : Json) : Prop := Plain v ∧ ∀ s, v = str s → 125 ∉ s

theorem inner_dumps (hv : Braceless v) : ∀ c ∈ dumps v, Inner c := by
  cases v with
  | str s =>
    exact inner_quote fun c hc => ⟨hv.1 c hc, fun h => hv.2 s rfl (h ▸ hc)⟩
  | int k =>
    obtain ⟨k, rfl⟩ := Int.eq_ofNat_of_zero_le hv.1
    intro c hc
    have hd := digit_of_mem_decimalNat (n := k) hc
    exact ⟨by omega, by omega, by omega⟩
  | bool b =>
    unfold Inner
    cases b <;> decide
  | null | float | arr | obj => exact absurd hv.1 id

theorem dumps_obj_eq (hkeys : ∀ f ∈ fields, ∀ c ∈ f.1, c < 128 ∧ c ≠ 125)
    (hvalues : ∀ f ∈ fields, Braceless f.2) :
    ∃ inner, dumps (obj fields) = 123 :: (inner ++ [125]) ∧ ∀ c ∈ inner, Inner c := by
  refine ⟨_, dumps_obj fields, fun c hc => ?_⟩
  rcases mem_joinComma hc with rfl | ⟨t, ht, hc⟩
  · exact ⟨by decide, by decide, by decide⟩
  · obtain ⟨m, hm, rfl⟩ := mem_map.1 ht
    rw [mem_insertionSort] at hm
    rcases mem_append.1 hc with hc | hc
    · exact inner_quote (hkeys m hm) c hc
    · rcases mem_cons.1 hc with rfl | hc
      · exact ⟨by decide, by decide, by decide⟩
      · exact inner_dumps (hvalues m hm) c hc

end Py.Json
