import PatternBridge.Text.Blank

/-!
JSON values. Objects keep their members in the order of first appearance.
-/

namespace PatternBridge.Json

structure Numeral where
  negative : Bool := false
  whole : List Nat := []
  fraction : Option (List Nat) := none
  /-- Sign and digits of the exponent, if there is one. -/
  exponent : Option (Bool × List Nat) := none
  deriving DecidableEq

inductive Number where
  /-- A number written without sign, point or exponent, below 2 ^ 64. -/
  | natural (n : Nat)
  | other (x : Numeral)
  deriving DecidableEq

inductive Value where
  | null
  | bool (b : Bool)
  | number (n : Number)
  | string (s : Text)
  | array (items : List Value)
  | object (members : List (Text × Value))

abbrev Members := List (Text × Value)

namespace Members

def find? (key : Text) (ms : Members) : Option Value := ms.lookup key

def hasKey (key : Text) (ms : Members) : Bool := ms.any (·.1 == key)

/-- A member under a key that is there already takes the old one's place; others come last. -/
def put (key : Text) (v : Value) : Members → Members
  | [] => [(key, v)]
  | m :: ms => if m.1 == key then (key, v) :: ms else m :: put key v ms

def erase (key : Text) (ms : Members) : Members := ms.filter (·.1 != key)

def overlay (ms upper : Members) : Members := upper.foldl (fun ms m => ms.put m.1 m.2) ms

end Members

namespace Value

def kind : Value → Text
  | null => "null"
  | bool _ => "bool"
  | number _ => "number"
  | string _ => "string"
  | array _ => "array"
  | object _ => "object"

def natural? : Value → Option Nat
  | number (.natural n) => some n
  | _ => none

def bool? : Value → Option Bool
  | bool b => some b
  | _ => none

def string? : Value → Option Text
  | string s => some s
  | _ => none

def strings? : Value → Option (List Text)
  | array items => items.mapM string?
  | _ => none

def members? : Value → Option Members
  | object ms => some ms
  | _ => none

end Value

end PatternBridge.Json
