import PatternBridge.Json.Quoted
import PatternBridge.Json.Reader
import PatternBridge.KeySet
import PatternBridge.Session

/-!
The data file of a project. Keys are added to its text before the last closing brace, so that all
that its author wrote stays as it is; a file that is no object is left alone.
-/

namespace PatternBridge

inductive DataFault where
  | file (p : Path) (f : Fault)
  | notJson (p : Path)
  | notObject (p : Path)
  deriving DecidableEq

namespace DataFault

def message : DataFault → Text
  | file p _ => "IO error on `" ++ p.text ++ "`"
  | notJson p => "`" ++ p.text ++ "` is not valid JSON"
  | notObject p => "`" ++ p.text ++ "` does not hold a JSON object"

def cause? : DataFault → Option Fault
  | file _ f => some f
  | _ => none

end DataFault

structure DataFile where
  path : Path
  members : Json.Members
  /-- The text that the members were read from; there is none if the file is missing, and a fault
  if it cannot be used. -/
  source : Except DataFault (Option Text)

namespace DataFile

def membersOf (path : Path) (s : Text) : Except DataFault Json.Members :=
  match Json.parse? s with
  | some (.object ms) => .ok ms
  | some _ => .error (.notObject path)
  | none => .error (.notJson path)

def contents (t : Tree) (path : Path) : Except DataFault (Json.Members × Text) :=
  match t.read path with
  | .ok s => (membersOf path s).map fun ms => (ms, s)
  | .error f => .error (.file path f)

/-- Reads the file. One that is missing or cannot be used has no members. -/
def load (t : Tree) (path : Path) : DataFile :=
  match contents t path with
  | .ok (members, s) => { path, members, source := .ok (some s) }
  | .error (.file _ .notFound) => { path, members := [], source := .ok none }
  | .error f => { path, members := [], source := .error f }

def contains (d : DataFile) (key : Text) : Bool := d.members.hasKey key

def lacking (d : DataFile) (pairs : List (Text × Text)) : List (Text × Text) :=
  pairs.filter fun p => !d.contains p.1

def missingKeys (d : DataFile) (pairs : List (Text × Text)) : KeySet := .ofPairs (d.lacking pairs)

/-- The text with lines for the pairs before its last closing brace. White space before the brace
gives way to them; `follows` tells whether members come before them. -/
def splice? (s : Text) (pairs : List (Text × Text)) (follows : Bool) : Option Text :=
  (Text.cutLast? '}' s).map fun (before, onward) =>
    let lines := pairs.map fun p => "\n  " ++ Json.memberText p
    Text.trimEnd before ++ (if follows then [','] else []) ++ [','].intercalate lines ++ '\n' :: onward

def emptyText : Text := "{}\n"

def save (path : Path) (s : Text) : Task DataFault Unit := do
  if let some parent := path.parent? then
    Task.need (.file parent) (Session.makeDirectories parent)
  Task.need (.file path) (Session.write path s)

/-- Adds the pairs that the file lacks and gives their keys. The members grow even if the file then
cannot be written. -/
def add (d : DataFile) (keys : KeySet) : StateM Session (Except DataFault (List Text) × DataFile) := do
  if keys.pairs.isEmpty then return (.ok [], d)
  match d.source with
  | .error f =>
    Session.say "warn" (f.message ++ ", not adding " ++ Text.join ", " keys.keys)
    return (.ok [], d)
  | .ok source =>
    let added := d.lacking keys.pairs
    if added.isEmpty then return (.ok [], d)
    let grown := { d with
      members := d.members.overlay (added.map fun p => (p.1, .string p.2)) }
    match splice? (source.getD emptyText) added (!d.members.isEmpty) with
    | none => return (.error (.notObject d.path), grown)
    | some s =>
      match ← (save d.path s).run with
      | .error f => return (.error f, grown)
      | .ok () => return (.ok (added.map Prod.fst), { grown with source := .ok (some s) })

end DataFile

end PatternBridge
