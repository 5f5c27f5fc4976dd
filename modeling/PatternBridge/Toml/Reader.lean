import PatternBridge.Toml.Scalar
import PatternBridge.Toml.Value

/-!
Reading a TOML document: values, keys, and the headers and assignments that make up the table.
-/

namespace PatternBridge.Toml

open Text

def isBareKeyChar (c : Char) : Bool := c.isAlphanum || c == '_' || c == '-'

/-- A single key: quoted, or a run of letters, digits, underscores and hyphens. -/
def simpleKey? (s : Text) : Option (Text × Text) :=
  match s with
  | '"' :: _ | '\'' :: _ => lineString? s
  | _ =>
    let key := s.takeWhile isBareKeyChar
    if key.isEmpty then none else some (key, s.dropWhile isBareKeyChar)

/-- Keys with points between them, with spaces around each; `fuel` bounds their number. -/
def dottedKey? : Nat → Text → Option ((List Text × Text) × Text)
  | 0, _ => none
  | fuel + 1, s => do
    let (key, s) ← simpleKey? (skipSpace s)
    match skipSpace s with
    | '.' :: s => do
      let ((path, last), s) ← dottedKey? fuel s
      return ((key :: path, last), s)
    | s => return (([], key), s)

def key? (s : Text) : Option ((List Text × Text) × Text) := dottedKey? (s.length + 1) s

def isCommentChar (c : Char) : Bool := isPrintable c

def skipComment : Text → Text
  | '#' :: s => s.dropWhile isCommentChar
  | s => s

def skipTrivia : Nat → Text → Text
  | 0, s => s
  | fuel + 1, s =>
    match s with
    | '#' :: _ => skipTrivia fuel (skipComment s)
    | c :: t =>
      if isSpace c then skipTrivia fuel t
      else
        match newline? s with
        | some t => skipTrivia fuel t
        | none => s
    | [] => []

def trivia (s : Text) : Text := skipTrivia (s.length + 1) s

/-- The items of an array after its bracket, each read by `read?`. A comma may follow the last. -/
def items? (read? : Text → Option (Value × Text)) : Nat → Text → Option (List Value × Text)
  | 0, _ => none
  | fuel + 1, s =>
    match trivia s with
    | ']' :: s => some ([], s)
    | s => do
      let (v, s) ← read? s
      match trivia s with
      | ',' :: s => do
        let (vs, s) ← items? read? fuel s
        return (v :: vs, s)
      | ']' :: s => return ([v], s)
      | _ => none

/-- The assignments of a table in braces after its first brace. No comma may follow the last. -/
def assignments? (read? : Text → Option (Value × Text)) :
    Nat → Text → Option (List Table.Assignment × Text)
  | 0, _ => none
  | fuel + 1, s => do
    let ((path, key), s) ← key? s
    let s ← expect? '=' s
    let (v, s) ← read? (skipSpace s)
    match skipSpace s with
    | ',' :: s => do
      let (as, s) ← assignments? read? fuel s
      return (⟨path, key, v⟩ :: as, s)
    | '}' :: s => return ([⟨path, key, v⟩], s)
    | _ => none

/-- Arrays and tables in braces may be nested this deep. -/
def maxDepth : Nat := 79

/-- A value; arrays and tables in braces may be nested `depth` deep. -/
def value? : Nat → Text → Option (Value × Text)
  | 0, s => plain? s
  | depth + 1, s =>
    match s with
    | '[' :: s => (items? (value? depth) (s.length + 1) s).map fun (vs, r) => (.array vs, r)
    | '{' :: s =>
      match skipSpace s with
      | '}' :: r => some (.table .inline [], r)
      | s => do
        let (as, r) ← assignments? (value? depth) (s.length + 1) s
        let es ← as.foldlM Table.assign? []
        return (.table .inline es, r)
    | s => plain? s
where
  plain? (s : Text) : Option (Value × Text) :=
    match string? s with
    | some (t, r) => some (.string t, r)
    | none => (skipScalar? s).map fun r => (.scalar, r)

def lineEnd? (s : Text) : Option Text :=
  match skipComment (skipSpace s) with
  | [] => some []
  | s => newline? s

inductive Line where
  | header (path : List Text) (key : Text)
  | doubledHeader (path : List Text) (key : Text)
  | assignment (a : Table.Assignment)

def line? (s : Text) : Option (Line × Text) :=
  match s with
  | '[' :: '[' :: s => do
    let ((path, key), s) ← key? s
    let s ← expect? ']' s
    let s ← expect? ']' s
    return (.doubledHeader path key, ← lineEnd? s)
  | '[' :: s => do
    let ((path, key), s) ← key? s
    let s ← expect? ']' s
    return (.header path key, ← lineEnd? s)
  | s => do
    let ((path, key), s) ← key? s
    let s ← expect? '=' s
    let (v, s) ← value? maxDepth (skipSpace s)
    return (.assignment ⟨path, key, v⟩, ← lineEnd? s)

/-- The lines of a document; blank lines and comments between them say nothing. -/
def lines? : Nat → Text → Option (List Line)
  | 0, _ => none
  | fuel + 1, s =>
    match trivia s with
    | [] => some []
    | s => do
      let (l, s) ← line? s
      let ls ← lines? fuel s
      return l :: ls

def leading : List Line → List Table.Assignment × List Line
  | .assignment a :: ls => let (as, r) := leading ls; (a :: as, r)
  | ls => ([], ls)

def addSections? : Nat → List Line → Table → Option Table
  | 0, _, _ => none
  | fuel + 1, ls, t =>
    match ls with
    | [] => some t
    | .header path key :: ls => do
      let (as, ls) := leading ls
      addSections? fuel ls (← t.updatePath? (Table.define? as) path key)
    | .doubledHeader path key :: ls => do
      let (as, ls) := leading ls
      addSections? fuel ls (← t.updatePath? (Table.append? as) path key)
    | .assignment _ :: _ => none

/-- The table that a document writes. A byte order mark may come first. -/
def parse? (s : Text) : Option Table := do
  let s := if s.head? == some '\ufeff' then s.tail else s
  let ls ← lines? (s.length + 1) s
  let (as, ls) := leading ls
  addSections? (ls.length + 1) ls (← as.foldlM Table.assign? [])

end PatternBridge.Toml
