import Mathlib

/-! # JSON values as serde_json holds them

The crates build serde_json with `preserve_order`: an object keeps its entries
in insertion order, and removing a key moves the last entry into the freed
place. Two objects are equal when they have the same entries in any order.
-/

namespace NpmFollower.PostgresDb

/-- A number is an unsigned or a negative integer, or a double given by its bits. -/
inductive Number where
  | posInt (n : ℕ)
  | negInt (i : ℤ)
  | float (bits : UInt64)
deriving DecidableEq

inductive Value where
  | null
  | bool (b : Bool)
  | number (n : Number)
  | string (s : String)
  | array (xs : List Value)
  | object (m : List (String × Value))

/-- `Map<String, Value>`, entries in insertion order. -/
abbrev JsonMap := List (String × Value)

namespace JsonMap

def get (m : JsonMap) (key : String) : Option Value := List.lookup key m

def containsKey (m : JsonMap) (key : String) : Bool := (m.get key).isSome

/-- An existing key keeps its place, a new one goes to the end. -/
def insert (m : JsonMap) (key : String) (v : Value) : JsonMap :=
  if m.containsKey key then m.map (fun e => if e.1 = key then (key, v) else e) else m ++ [(key, v)]

/-- `swap_remove`: the last entry takes the place of the removed one. -/
def remove (m : JsonMap) (key : String) : Option Value × JsonMap :=
  match m.findIdx? (fun e => e.1 == key), m.getLast? with
  | some i, some last => (m.get key, (m.set i last).dropLast)
  | _, _ => (none, m)

end JsonMap

mutual
/-- `PartialEq` of serde_json values: the order of object entries does not count. -/
def Value.beq : Value → Value → Bool
  | .null, .null => true
  | .bool a, .bool b => a == b
  | .number a, .number b => a == b
  | .string a, .string b => a == b
  | .array xs, .array ys => Value.beqList xs ys
  | .object m, .object m' => m.length == m'.length && Value.beqEntries m m'
  | _, _ => false

def Value.beqList : List Value → List Value → Bool
  | [], [] => true
  | x :: xs, y :: ys => x.beq y && Value.beqList xs ys
  | _, _ => false

def Value.beqEntries : List (String × Value) → List (String × Value) → Bool
  | [], _ => true
  | (k, v) :: rest, m' =>
    (match List.lookup k m' with
      | some w => v.beq w
      | none => false) && Value.beqEntries rest m'
end

instance : BEq Value := ⟨Value.beq⟩

namespace Value

def nullToNone : Value → Option Value
  | .null => none
  | v => some v

def emptyArrayToNone : Value → Option Value
  | .array [] => none
  | v => some v

def asObject : Value → Option JsonMap
  | .object m => some m
  | _ => none

def asString : Value → Option String
  | .string s => some s
  | _ => none

def asBool : Value → Option Bool
  | .bool b => some b
  | _ => none

def asArray : Value → Option (List Value)
  | .array xs => some xs
  | _ => none

/-- A float is never read as an integer, and an integer has to fit. -/
def asI64 : Value → Option ℤ
  | .number (.posInt n) => if n < 2 ^ 63 then some n else none
  | .number (.negInt i) => if -(2 ^ 63) ≤ i then some i else none
  | _ => none

end Value

/-- `remove_key_unwrap_type`: `none` is the panic on a value of another type. -/
def JsonMap.removeKeyUnwrapType {α : Type*} (decode : Value → Option α) (m : JsonMap)
    (key : String) : Option (Option α × JsonMap) :=
  match m.remove key with
  | (none, _) => some (none, m)
  | (some v, rest) => (decode v).map fun a => (some a, rest)

end NpmFollower.PostgresDb
