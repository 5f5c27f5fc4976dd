import PatternBridge.Text.Blank

/-!
TOML values and tables. A table remembers how it came to be, since that decides what may still be
added to it.
-/

namespace PatternBridge.Toml

inductive Origin where
  | header
  /-- Named only inside longer headers. -/
  | implied
  | dotted
  | inline
  deriving DecidableEq

inductive Value where
  | string (s : Text)
  /-- A number, a truth value or a date; no setting takes one. -/
  | scalar
  | array (items : List Value)
  | table (origin : Origin) (entries : List (Text × Value))
  /-- Tables named by one doubled header each, the last first. -/
  | tables (last : List (Text × Value)) (earlier : List (List (Text × Value)))

abbrev Table := List (Text × Value)

namespace Table

/-- The table with the value under `key`, if any, turned into what `f` makes of it. -/
def update? (key : Text) (f : Option Value → Option Value) : Table → Option Table
  | [] => (f none).map fun v => [(key, v)]
  | e :: es =>
    if e.1 == key then (f (some e.2)).map fun v => (key, v) :: es
    else (update? key f es).map (e :: ·)

/-- Adds a value under a dotted key. No key is given twice, and only tables made by dotted keys are
extended by them. -/
def insertDotted? (v : Value) : List Text → Text → Table → Option Table
  | [], key => update? key fun
    | none => some v
    | some _ => none
  | first :: path, key => update? first fun
    | none => (insertDotted? v path key []).map (.table .dotted)
    | some (.table .dotted es) => (insertDotted? v path key es).map (.table .dotted)
    | some _ => none

/-- Puts what `f` makes of the value under the last key of a header's path. -/
def updatePath? (f : Option Value → Option Value) : List Text → Text → Table → Option Table
  | [], key => update? key f
  | first :: path, key => update? first fun
    | none => (updatePath? f path key []).map (.table .implied)
    | some (.table .inline _) => none
    | some (.table o es) => (updatePath? f path key es).map (.table o)
    | some (.tables es earlier) => (updatePath? f path key es).map (.tables · earlier)
    | some _ => none

structure Assignment where
  path : List Text
  key : Text
  value : Value

def assign? (t : Table) (a : Assignment) : Option Table := insertDotted? a.value a.path a.key t

/-- A header's own table. A table that only longer headers named so far keeps its entries. -/
def define? (assignments : List Assignment) : Option Value → Option Value
  | none => (assignments.foldlM assign? []).map (.table .header)
  | some (.table .implied es) => (assignments.foldlM assign? es).map (.table .header)
  | some _ => none

def append? (assignments : List Assignment) : Option Value → Option Value
  | none => (assignments.foldlM assign? []).map (.tables · [])
  | some (.tables last earlier) =>
    (assignments.foldlM assign? []).map (.tables · (last :: earlier))
  | some _ => none

end Table

end PatternBridge.Toml
