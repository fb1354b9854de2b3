import Mathlib.Data.Rat.Defs
import AsyncEchoServer.Cpp.Integers

/-!
# `Cpp/Json.lean` — the values of jsoncpp

As much of `Json::Value` as a callback touches: any tree, the member access `root[key]`, and the
two conversions. Each of the three throws on some values, which is `none` here. `operator[]` on a
non-const value also inserts: a null value becomes an object and an absent key a null member.

What the library does with text is left to it. `JsonCpp` is the reader (any value at all, and
null for what it cannot parse), the styled writer, and the text of a double.
-/

set_option autoImplicit false

namespace AsyncEchoServer

/-- A `double` the reader can produce. -/
inductive Double where
  | finite (q : Rat)
  | infinite (negative : Bool)

/-- `Json::Value`. -/
inductive Json where
  | null
  | int (i : Int)
  | uint (n : Nat)
  | real (d : Double)
  | string (s : Bytes)
  | bool (b : Bool)
  | array (elems : List Json)
  | object (members : List (Bytes × Json))

structure JsonCpp where
  /-- `Reader::parse`: what `root` is afterwards -/
  parse : Bytes → Json
  toStyledString : Json → Bytes
  /-- `valueToString(double)` -/
  doubleToString : Double → Bytes

/-- The bytes of a literal. -/
def asBytes (s : String) : Bytes := s.toList.map fun c => UInt8.ofNat c.toNat

/-! ## Members -/

namespace Members

def find (key : Bytes) : List (Bytes × Json) → Option Json
  | [] => none
  | (k, v) :: ms => if k = key then some v else find key ms

/-- Set a member; the map is kept in the order of its keys. -/
def set (key : Bytes) (v : Json) : List (Bytes × Json) → List (Bytes × Json)
  | [] => [(key, v)]
  | (k, w) :: ms =>
    if k = key then (key, v) :: ms
    else if key < k then (key, v) :: (k, w) :: ms
    else (k, w) :: set key v ms

/-- The member as `operator[]` finds it: null when it has just been inserted. -/
def get (key : Bytes) (ms : List (Bytes × Json)) : Json := (find key ms).getD .null

/-- What `operator[]` leaves behind. -/
def touch (key : Bytes) (ms : List (Bytes × Json)) : List (Bytes × Json) :=
  match find key ms with
  | some _ => ms
  | none => set key .null ms

theorem find_set (key : Bytes) (v : Json) (ms : List (Bytes × Json)) :
    find key (set key v ms) = some v := by
  induction ms with
  | nil => simp only [set, find, if_true]
  | cons m ms ih =>
    obtain ⟨k, w⟩ := m
    unfold set
    by_cases hk : k = key
    · rw [if_pos hk, find, if_pos rfl]
    · rw [if_neg hk]
      by_cases hlt : key < k
      · rw [if_pos hlt, find, if_pos rfl]
      · rw [if_neg hlt, find, if_neg hk, ih]

theorem find_set_of_ne {key other : Bytes} (h : key ≠ other) (v : Json)
    (ms : List (Bytes × Json)) : find other (set key v ms) = find other ms := by
  induction ms with
  | nil => simp only [set, find, if_neg h]
  | cons m ms ih =>
    obtain ⟨k, w⟩ := m
    unfold set
    by_cases hk : k = key
    · subst hk
      rw [if_pos rfl, find, find, if_neg h, if_neg h]
    · rw [if_neg hk]
      by_cases hlt : key < k
      · rw [if_pos hlt, find, if_neg h]
      · rw [if_neg hlt, find, find, ih]

theorem get_set (key : Bytes) (v : Json) (ms : List (Bytes × Json)) :
    get key (set key v ms) = v := by rw [get, find_set, Option.getD_some]

theorem get_set_of_ne {key other : Bytes} (h : key ≠ other) (v : Json)
    (ms : List (Bytes × Json)) : get other (set key v ms) = get other ms := by
  rw [get, get, find_set_of_ne h]

/-- Looking a member up changes no member's value. -/
theorem get_touch (key other : Bytes) (ms : List (Bytes × Json)) :
    get other (touch key ms) = get other ms := by
  unfold touch
  cases hfind : find key ms with
  | some _ => rfl
  | none =>
    by_cases h : key = other
    · subst h
      rw [get_set, get, hfind, Option.getD_none]
    · exact get_set_of_ne h _ _

end Members

namespace Json

/-- The members of a value that can be indexed by a key: an object's, and none for null. -/
def members? : Json → Option (List (Bytes × Json))
  | .null => some []
  | .object ms => some ms
  | _ => none

/-- `root[key]`: the value it leaves, and the member. -/
def index (root : Json) (key : Bytes) : Option (Json × Json) :=
  root.members?.map fun ms => (.object (Members.touch key ms), Members.get key ms)

/-- `root[key] = v`. -/
def assign (root : Json) (key : Bytes) (v : Json) : Option Json :=
  root.members?.map fun ms => .object (Members.set key v ms)

/-- `asInt()`. -/
def asInt : Json → Option Int
  | .null => some 0
  | .int i => if -2147483648 ≤ i ∧ i ≤ 2147483647 then some i else none
  | .uint n => if n ≤ 2147483647 then some n else none
  | .real (.finite q) =>
    if -2147483648 ≤ q ∧ q ≤ 2147483647 then some (q.num.tdiv q.den) else none
  | .real (.infinite _) => none
  | .bool b => some (if b then 1 else 0)
  | .string _ | .array _ | .object _ => none

/-- `asString()`. -/
def asString (J : JsonCpp) : Json → Option Bytes
  | .null => some []
  | .string s => some s
  | .bool b => some (asBytes (if b then "true" else "false"))
  | .int i => some (asBytes (toString i))
  | .uint n => some (asBytes (toString n))
  | .real d => some (J.doubleToString d)
  | .array _ | .object _ => none

end Json
end AsyncEchoServer
