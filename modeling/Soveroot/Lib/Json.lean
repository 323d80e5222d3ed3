import Mathlib.Algebra.Order.BigOperators.Group.List
import Mathlib.Data.List.Nodup
import Mathlib.Data.List.Perm.Subperm
import Mathlib.Data.List.Sort
import Soveroot.Lib.Hex

/-!
# JSON values

The values `json.loads` produces, and `json.dumps` with sorted keys, the compact separators and
`ensure_ascii`. An object keeps its members as a list. A document with a fixed set of keys is a
*record*: a function from an enumeration of its keys (`Keys`) to values. `record?` reads an object
that has exactly those keys, `ofRecord` writes one.
-/

namespace Py

open List

/-- A JSON value as Python holds it. A float is represented by the text `repr` prints for it,
which determines it. -/
inductive Json where
  | null
  | bool (b : Bool)
  | int (n : Int)
  | float (repr : Text)
  | str (s : Text)
  | arr (items : List Json)
  | obj (fields : List (Text × Json))

namespace Json

/-! ## Reading -/

/-- The member of an object, as `d.get(key)`. -/
def member (fields : List (Text × Json)) (key : Text) : Option Json :=
  (fields.find? fun f => f.1 = key).map Prod.snd

/-- `set(d) == expected`. -/
def keysAre (fields : List (Text × Json)) (expected : List Text) : Bool :=
  (fields.all fun f => f.1 ∈ expected) && expected.all fun k => (member fields k).isSome

/-- `isinstance(value, dict)`. -/
def asObj : Json → Option (List (Text × Json))
  | obj fields => some fields
  | _ => none

/-- `isinstance(value, list)`. -/
def asArr : Json → Option (List Json)
  | arr items => some items
  | _ => none

/-- `isinstance(value, str)`. -/
def asText : Json → Option Text
  | str s => some s
  | _ => none

/-- `isinstance(value, bool)`. -/
def asBool : Json → Option Bool
  | bool b => some b
  | _ => none

/-- `isinstance(value, int) and not isinstance(value, bool)`. -/
def asInt : Json → Option Int
  | int n => some n
  | _ => none

/-- `isinstance(value, int)`: a Boolean is an `int` too, and counts as zero or one. -/
def asIntOrBool : Json → Option Int
  | int n => some n
  | bool b => some (if b then 1 else 0)
  | _ => none

/-- `value == text`. -/
def isText (value : Json) (text : Text) : Bool := value.asText == some text

variable {value : Json}

theorem isText_iff {text : Text} : value.isText text = true ↔ value = str text := by
  cases value <;> simp [isText, asText]

variable {fields : List (Text × Json)}

theorem asObj_eq_some : value.asObj = some fields ↔ value = obj fields := by
  cases value <;> simp [asObj]

theorem asArr_eq_some {items : List Json} : value.asArr = some items ↔ value = arr items := by
  cases value <;> simp [asArr]

theorem asText_eq_some {s : Text} : value.asText = some s ↔ value = str s := by
  cases value <;> simp [asText]

theorem asBool_eq_some {b : Bool} : value.asBool = some b ↔ value = bool b := by
  cases value <;> simp [asBool]

theorem asInt_eq_some {n : Int} : value.asInt = some n ↔ value = int n := by
  cases value <;> simp [asInt]

variable {key : Text}

theorem member_eq_none (h : key ∉ fields.map Prod.fst) : member fields key = none := by
  rw [member, Option.map_eq_none_iff, find?_eq_none]
  intro f hf hkey
  exact h (mem_map.2 ⟨f, hf, by simpa using hkey⟩)

theorem mem_of_member (h : member fields key = some value) : (key, value) ∈ fields := by
  obtain ⟨f, hf, rfl⟩ := Option.map_eq_some_iff.1 h
  have hkey : f.1 = key := by simpa using find?_some hf
  exact hkey ▸ mem_of_find?_eq_some hf

theorem member_append_last (h : key ∉ fields.map Prod.fst) (value : Json) :
    member (fields ++ [(key, value)]) key = some value := by
  have hnone := member_eq_none h
  rw [member, Option.map_eq_none_iff] at hnone
  rw [member, find?_append, hnone]
  simp

/-! ## Records -/

/-- An enumeration of the keys of a document. -/
class Keys (F : Type) where
  /-- Every key, once. -/
  all : List F
  /-- The key as it is written. -/
  name : F → Text
  mem_all : ∀ f, f ∈ all
  nodup : (all.map name).Nodup

section Records

variable {F : Type} [Keys F]

theorem name_injective : Function.Injective (Keys.name (F := F)) := fun f g h =>
  inj_on_of_nodup_map Keys.nodup (Keys.mem_all f) (Keys.mem_all g) h

/-- The values of an object whose keys are exactly those of `F`: `set(d) == fields` and then
`d[field]`. The default is never taken, see `record?_eq_some_iff`. -/
def record? (F : Type) [Keys F] (value : Json) : Option (F → Json) := do
  let fields ← value.asObj
  if keysAre fields ((Keys.all (F := F)).map Keys.name) then
    some fun f => (member fields (Keys.name f)).getD null
  else none

/-- The object with the given values. -/
def ofRecord (r : F → Json) : Json := obj (Keys.all.map fun f => (Keys.name f, r f))

theorem keysAre_iff {fields : List (Text × Json)} {expected : List Text} :
    keysAre fields expected = true ↔
      (∀ f ∈ fields, f.1 ∈ expected) ∧ ∀ k ∈ expected, ∃ v, member fields k = some v := by
  simp [keysAre, all_eq_true, Option.isSome_iff_exists]

/-- Reading a record succeeds on exactly the objects with its keys, and returns their members:
no subscript fails. -/
theorem record?_eq_some_iff {value : Json} {r : F → Json} :
    record? F value = some r ↔
      ∃ fields, value = obj fields ∧ (∀ f ∈ fields, ∃ k : F, f.1 = Keys.name k) ∧
        ∀ k : F, member fields (Keys.name k) = some (r k) := by
  have hname : ∀ t : Text, t ∈ (Keys.all (F := F)).map Keys.name ↔ ∃ k : F, t = Keys.name k :=
    fun t => ⟨fun h => by obtain ⟨k, -, hk⟩ := mem_map.1 h; exact ⟨k, hk.symm⟩,
      fun ⟨k, hk⟩ => mem_map.2 ⟨k, Keys.mem_all k, hk.symm⟩⟩
  constructor
  · intro h
    cases value with
    | obj fields =>
      simp only [record?, asObj, Option.bind_eq_bind, Option.bind_some] at h
      split_ifs at h with hk
      obtain ⟨hsub, hmem⟩ := keysAre_iff.1 hk
      refine ⟨fields, rfl, fun f hf => (hname _).1 (hsub f hf), fun k => ?_⟩
      obtain ⟨v, hv⟩ := hmem (Keys.name k) ((hname _).2 ⟨k, rfl⟩)
      have hr : r k = v := by
        rw [← Option.some.inj h]
        show (member fields (Keys.name k)).getD null = v
        rw [hv, Option.getD_some]
      rw [hv, hr]
    | _ => simp [record?, asObj] at h
  · rintro ⟨fields, rfl, hsub, hmem⟩
    have hk : keysAre fields ((Keys.all (F := F)).map Keys.name) = true := by
      refine keysAre_iff.2 ⟨fun f hf => (hname _).2 (hsub f hf), fun t ht => ?_⟩
      obtain ⟨k, rfl⟩ := (hname t).1 ht
      exact ⟨r k, hmem k⟩
    simp only [record?, asObj, Option.bind_eq_bind, Option.bind_some, hk, if_true,
      Option.some.injEq]
    funext k
    rw [hmem k, Option.getD_some]

theorem member_map (r : F → Json) (k : F) (l : List F) (hk : k ∈ l) :
    member (l.map fun f => (Keys.name f, r f)) (Keys.name k) = some (r k) := by
  induction l with
  | nil => cases hk
  | cons f l ih =>
    by_cases hf : f = k
    · subst hf
      simp [member]
    · have hne : Keys.name f ≠ Keys.name k := fun h => hf (name_injective h)
      have hstep : member ((f :: l).map fun f => (Keys.name f, r f)) (Keys.name k) =
          member (l.map fun f => (Keys.name f, r f)) (Keys.name k) := by
        simp [member, hne]
      rw [hstep]
      exact ih ((mem_cons.1 hk).resolve_left (Ne.symm hf))

@[simp] theorem record?_ofRecord (r : F → Json) : record? F (ofRecord r) = some r := by
  refine record?_eq_some_iff.2 ⟨_, rfl, fun f hf => ?_, fun k => member_map r k _ (Keys.mem_all k)⟩
  obtain ⟨k, -, rfl⟩ := mem_map.1 hf
  exact ⟨k, rfl⟩

end Records

/-! ## Printing -/

def joinComma : List Text → Text
  | [] => []
  | [t] => t
  | t :: ts => t ++ 44 :: joinComma ts

/-- `\uXXXX`. -/
def escapeUnit (n : Nat) : Text := [92, 117] ++ formatHex 4 n

/-- One code point inside a JSON string, as `ensure_ascii` writes it. -/
def escape (c : Nat) : Text :=
  if c = 34 then [92, 34]
  else if c = 92 then [92, 92]
  else if c = 10 then [92, 110]
  else if c = 13 then [92, 114]
  else if c = 9 then [92, 116]
  else if c = 12 then [92, 102]
  else if c = 8 then [92, 98]
  else if 32 ≤ c ∧ c ≤ 126 then [c]
  else if c < 65536 then escapeUnit c
  else escapeUnit (55296 + (c - 65536) / 1024 % 1024) ++ escapeUnit (56320 + (c - 65536) % 1024)

/-- A JSON string literal. -/
def quote (s : Text) : Text := 34 :: s.flatMap escape ++ [34]

mutual

/-- `json.dumps(value, separators=(",", ":"), sort_keys=True, ensure_ascii=True)`. -/
def dumps : Json → Text
  | null => ascii "null"
  | bool true => ascii "true"
  | bool false => ascii "false"
  | int n => decimal n
  | float repr => repr
  | str s => quote s
  | arr items => 91 :: joinComma (dumpsItems items) ++ [93]
  | obj fields =>
    let sorted := (dumpsFields fields).insertionSort fun a b => a.1 ≤ b.1
    123 :: joinComma (sorted.map fun f => quote f.1 ++ 58 :: f.2) ++ [125]

def dumpsItems : List Json → List Text
  | [] => []
  | v :: vs => dumps v :: dumpsItems vs

def dumpsFields : List (Text × Json) → List (Text × Text)
  | [] => []
  | (k, v) :: fs => (k, dumps v) :: dumpsFields fs

end

/-- `json.dumps(...).encode("ascii")`. `ensure_ascii` leaves only ASCII to encode. -/
def canonicalBytes (value : Json) : Bytes := encodeAscii value.dumps

/-! ## The length of what is printed -/

theorem length_joinComma {ts : List Text} (h : ts ≠ []) :
    (joinComma ts).length + 1 = (ts.map fun t => t.length + 1).sum := by
  induction ts with
  | nil => exact absurd rfl h
  | cons t ts ih =>
    cases ts with
    | nil => simp [joinComma]
    | cons t' ts =>
      have hrec := ih (by simp)
      simp only [joinComma, length_append, length_cons, map_cons,
        sum_cons] at hrec ⊢
      omega

theorem dumpsFields_eq_map (fields : List (Text × Json)) :
    dumpsFields fields = fields.map fun f => (f.1, f.2.dumps) := by
  induction fields with
  | nil => rfl
  | cons f fields ih => rw [map_cons, ← ih, dumpsFields]

def memberLength (f : Text × Json) : Nat := (quote f.1).length + f.2.dumps.length + 2

variable {fields : List (Text × Json)}

theorem length_dumps_obj (h : fields ≠ []) :
    (dumps (obj fields)).length = (fields.map memberLength).sum + 1 := by
  have hperm := perm_insertionSort (fun a b : Text × Text => a.1 ≤ b.1)
    (fields.map fun f => (f.1, f.2.dumps))
  have hne : ((fields.map fun f => (f.1, f.2.dumps)).insertionSort
      fun a b : Text × Text => a.1 ≤ b.1).map (fun f => quote f.1 ++ 58 :: f.2) ≠ [] := by
    intro hnil
    rw [map_eq_nil_iff] at hnil
    rw [hnil, nil_perm, map_eq_nil_iff] at hperm
    exact h hperm
  have hsum : (fields.map memberLength).sum =
      (((fields.map fun f => (f.1, f.2.dumps)).insertionSort fun a b => a.1 ≤ b.1).map
        fun f => (quote f.1 ++ 58 :: f.2).length + 1).sum := by
    rw [(hperm.map _).sum_nat, map_map]
    refine congrArg List.sum (map_congr_left fun f _ => ?_)
    simp only [memberLength, Function.comp_apply, length_append, length_cons]
    omega
  have hjoin := length_joinComma hne
  rw [map_map] at hjoin
  simp only [Function.comp_def] at hjoin
  rw [dumps, dumpsFields_eq_map]
  simp only [length_cons, length_append, length_nil]
  omega

theorem memberLength_lt_dumps {f : Text × Json} (h : f ∈ fields) :
    memberLength f < (dumps (obj fields)).length := by
  rw [length_dumps_obj (ne_nil_of_mem h)]
  exact Nat.lt_succ_of_le (le_sum_of_mem (mem_map_of_mem h))

/-- A record is not longer than the object it was read from. -/
theorem length_ofRecord_le {F : Type} [Keys F] {value : Json} {r : F → Json}
    (hne : (Keys.all : List F) ≠ []) (h : record? F value = some r) :
    (ofRecord r).dumps.length ≤ value.dumps.length := by
  obtain ⟨fields, rfl, -, hmem⟩ := record?_eq_some_iff.1 h
  have hnodup : ((Keys.all : List F).map fun f => (Keys.name f, r f)).Nodup := by
    refine Nodup.of_map Prod.fst ?_
    rw [map_map]
    exact Keys.nodup
  have hsub : (Keys.all : List F).map (fun f => (Keys.name f, r f)) ⊆ fields := by
    intro f hf
    obtain ⟨k, -, rfl⟩ := mem_map.1 hf
    exact mem_of_member (hmem k)
  have hne' : fields ≠ [] := fun hnil => hne (by simpa [hnil] using hsub)
  obtain ⟨l, hperm, hl⟩ := subperm_of_subset hnodup hsub
  rw [ofRecord, length_dumps_obj (by simpa using hne), length_dumps_obj hne',
    ← (hperm.map memberLength).sum_nat]
  exact Nat.succ_le_succ (Sublist.sum_le_sum (hl.map memberLength) fun _ _ => Nat.zero_le _)

@[simp] theorem length_canonicalBytes (value : Json) :
    value.canonicalBytes.length = value.dumps.length := by
  simp [canonicalBytes, encodeAscii]

end Json

end Py
