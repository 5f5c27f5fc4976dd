import PatternBridge.Files.Fault
import PatternBridge.Files.Tree
import PatternBridge.Text.Bytes

/-!
Finding the place that a path names in a tree. Links are followed on the way; whether a link at the
end of the path is followed depends on what the path is used for.
-/

namespace PatternBridge

inductive Step where
  | stay
  | up
  | name (n : Text)
  | slash
  deriving DecidableEq

def Step.ofSegment? (segment : Text) : Option Step :=
  if segment.isEmpty then none
  else if segment == ['.'] then some .stay
  else if segment == ['.', '.'] then some .up
  else some (.name segment)

def Path.steps (p : Path) : List Step :=
  p.segments.filterMap Step.ofSegment? ++ if p.text.getLast? == some '/' then [.slash] else []

/-- What becomes of a link that a path ends in. -/
inductive LastLink where
  | follow
  /-- Followed only if a slash comes after it. -/
  | keep
  /-- Followed to create what it names, unless a slash comes after it. -/
  | create
  | leave
  deriving DecidableEq

def LastLink.follows : LastLink → (slashed : Bool) → Bool
  | follow, _ => true
  | keep, slashed => slashed
  | create, slashed => !slashed
  | leave, _ => false

structure Spot where
  place : Place
  /-- There may be none at a place in a directory that is there. -/
  entry : Option Entry
  /-- A slash comes after the name, which thus must be a directory's. -/
  slashed : Bool := false
  deriving DecidableEq

namespace Tree

def maxNameBytes : Nat := 255

/-- Fewest bytes of a path that is too long. -/
def pathBytesLimit : Nat := 4096

def maxLinks : Nat := 40

/-- Goes from a directory step by step; `onLink` goes on from a link that has to be followed. -/
def walkWith (t : Tree) (last : LastLink)
    (onLink : (dir : Place) → (target : Path) → (rest : List Step) → Except Fault Spot) :
    Place → List Step → Except Fault Spot
  | dir, [] => .ok { place := dir, entry := some .directory }
  | dir, .stay :: rest => walkWith t last onLink dir rest
  | dir, .slash :: rest => walkWith t last onLink dir rest
  | dir, .up :: rest => walkWith t last onLink dir.dropLast rest
  | dir, .name n :: rest =>
    if maxNameBytes < Text.byteLength n then .error .nameTooLong
    else
      let place := dir ++ [n]
      let slashed := rest == [.slash]
      let isLast := rest.isEmpty || slashed
      match t.get? place with
      | some .directory => walkWith t last onLink place rest
      | some (.link target) =>
        if isLast && !last.follows slashed then
          .ok { place, entry := some (.link target), slashed }
        else onLink dir target rest
      | some (.file c) =>
        if isLast then .ok { place, entry := some (.file c), slashed } else .error .notDirectory
      | none => if isLast then .ok { place, entry := none, slashed } else .error .notFound

def start (dir : Place) (p : Path) : Place := if p.isAbsolute then [] else dir

def walk (t : Tree) (last : LastLink) : (links : Nat) → Place → List Step → Except Fault Spot
  | 0 => walkWith t last fun _ _ _ => .error .tooManyLinks
  | links + 1 => walkWith t last fun dir target rest =>
      walk t last links (start dir target) (target.steps ++ rest)

def pathFault? (p : Path) : Option Fault :=
  if p.text.contains '\u0000' then some .nullInName
  else if p.text.isEmpty then some .notFound
  else if pathBytesLimit ≤ Text.byteLength p.text then some .nameTooLong
  else none

def locate (t : Tree) (last : LastLink) (p : Path) : Except Fault Spot :=
  match pathFault? p with
  | some f => .error f
  | none => t.walk last maxLinks (start t.here p) p.steps

end Tree

end PatternBridge
