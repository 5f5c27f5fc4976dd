import PatternBridge.Text.Blank

/-!
Lengths of text in bytes of its UTF-8 form, and cutting text to a number of bytes.
-/

namespace PatternBridge.Text

def byteLength : Text → Nat
  | [] => 0
  | c :: s => c.utf8Size + byteLength s

def bytes (s : Text) : List UInt8 := s.flatMap String.utf8EncodeChar

/-- The longest prefix of whole characters that fits into `n` bytes. -/
def takeBytes : Nat → Text → Text
  | _, [] => []
  | n, c :: s => if c.utf8Size ≤ n then c :: takeBytes (n - c.utf8Size) s else []

/-- Whether the first `n` bytes of the text's UTF-8 form are whole characters. -/
def isBoundary : Nat → Text → Bool
  | n, [] => n == 0
  | n, c :: s => n == 0 || c.utf8Size ≤ n && isBoundary (n - c.utf8Size) s

def lastBoundary (s : Text) : Nat → Nat
  | 0 => 0
  | n + 1 => if isBoundary (n + 1) s then n + 1 else lastBoundary s n

/-- Text of more than `n` bytes is cut at the last boundary that leaves at most `n`. -/
def truncate (n : Nat) (s : Text) : Text :=
  if byteLength s ≤ n then s else takeBytes (lastBoundary s n) s

end PatternBridge.Text
