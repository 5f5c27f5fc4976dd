import PatternBridge.Files.Access

/-!
Collecting paths below a directory. Links below it are not followed.
-/

namespace PatternBridge.Tree

structure Found where
  path : Path
  name : Text
  entry : Entry

def pathTo (dir : Path) (names : List Text) : Path := names.foldl (fun p n => p / ⟨n⟩) dir

/-- What a path names itself. -/
def foundAt (t : Tree) (p : Path) : List Found :=
  match t.linkStatus p with
  | .ok (_, e) => [{ path := p, name := p.fileName?.getD p.text, entry := e }]
  | .error _ => []

/-- Whether a walk gets to what the names lead to. It opens each directory by its path, and where the
path is refused, nothing in the directory is found. -/
def isListed (dir : Path) (names : List Text) : Bool :=
  (pathFault? (pathTo dir names.dropLast)).isNone

def listedBelow (t : Tree) (dir : Path) (place : Place) : List (List Text × Entry) :=
  (t.below place).filter fun x => isListed dir x.1

/-- All below a directory, each directory before what is in it and otherwise by name. -/
def foundBelow (t : Tree) (dir : Path) : List Found :=
  match t.status dir with
  | .ok (place, .directory) =>
    (t.listedBelow dir place).map fun (names, e) =>
      { path := pathTo dir names, name := names.getLast?.getD [], entry := e }
  | _ => []

def ignoredNames : List Text := [".DS_Store"]

/-- The files at or below a path whose names end in a suffix and are longer. -/
def filesEndingIn (t : Tree) (p : Path) (suffix : Text) : List Path :=
  let isWanted (f : Found) : Bool :=
    f.entry.isFile && !ignoredNames.contains f.name && Text.endsWith f.name suffix &&
      f.name != suffix
  ((t.foundAt p ++ t.foundBelow p).filter isWanted).map Found.path

/-- All entries below a directory whose names end in one of the suffixes. -/
def entriesEndingIn (t : Tree) (dir : Path) (suffixes : List Text) : List Path :=
  ((t.foundBelow dir).filter fun f => suffixes.any (Text.endsWith f.name)).map Found.path

end PatternBridge.Tree
