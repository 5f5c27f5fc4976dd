import PatternBridge.Text.Blank

/-!
Escaping of double braces. A generator that reads double braces as its own tags sees in the escaped
text only lookups of two marker keys, whose values are the braces themselves.
-/

namespace PatternBridge.Braces

def openMarker : Text := "<%"

def closeMarker : Text := "%>"

def openLookup : Text := "\x7b\x7b\x7b<%\x7d\x7d\x7d"

def closeLookup : Text := "\x7b\x7b\x7b%>\x7d\x7d\x7d"

/-- Opening braces are escaped in pairs, and an odd one stays behind the lookups. -/
def openRun (n : Nat) : Text :=
  (List.replicate (n / 2) openLookup).flatten ++ List.replicate (n % 2) '{'

/-- While there are three closing braces or more, one of them stays before the next lookup. -/
def closeRun : Nat → Text
  | 0 => []
  | 1 => ['}']
  | 2 => closeLookup
  | n + 3 => '}' :: (closeLookup ++ closeRun n)

def encodeRun : Text → Text
  | '{' :: s => openRun (s.length + 1)
  | '}' :: s => closeRun (s.length + 1)
  | s => s

/-- Braces are escaped run by run; a run goes as far as the same character follows. -/
def encode (s : Text) : Text := (s.splitBy (· == ·)).flatMap encodeRun

/-- Each lookup of a marker becomes the braces it stands for. -/
def decode : Text → Text
  | [] => []
  | '{' :: '{' :: '{' :: '<' :: '%' :: '}' :: '}' :: '}' :: s => '{' :: '{' :: decode s
  | '{' :: '{' :: '{' :: '%' :: '>' :: '}' :: '}' :: '}' :: s => '}' :: '}' :: decode s
  | c :: s => c :: decode s

end PatternBridge.Braces
