import PatternBridge.Text.Blank

/-!
Digits and the numbers they write.
-/

namespace PatternBridge.Text

def digit? (c : Char) : Option Nat := if c.isDigit then some (c.toNat - 48) else none

def hexDigit? (c : Char) : Option Nat :=
  if c.isDigit then some (c.toNat - 48)
  else if 'a' ≤ c && c ≤ 'f' then some (c.toNat - 87)
  else if 'A' ≤ c && c ≤ 'F' then some (c.toNat - 55)
  else none

def isHexDigit (c : Char) : Bool := (hexDigit? c).isSome

def ofDigits (base : Nat) (ds : List Nat) : Nat := ds.foldl (fun n d => n * base + d) 0

def ofHex (s : Text) : Nat := ofDigits 16 (s.filterMap hexDigit?)

def ofDecimal (s : Text) : Nat := ofDigits 10 (s.filterMap digit?)

def charOf? (n : Nat) : Option Char := if n.isValidChar then some (Char.ofNat n) else none

end PatternBridge.Text
