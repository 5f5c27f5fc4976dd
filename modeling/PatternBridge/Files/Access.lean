import PatternBridge.Files.Lookup

/-!
Reading and changing a tree through paths.
-/

namespace PatternBridge.Tree

def present (s : Spot) : Except Fault (Place × Entry) :=
  match s.entry with
  | none => .error .notFound
  | some e => if s.slashed && e != .directory then .error .notDirectory else .ok (s.place, e)

def status (t : Tree) (p : Path) : Except Fault (Place × Entry) := do
  present (← t.locate .follow p)

/-- The place and the entry that a path names, which may be a link. -/
def linkStatus (t : Tree) (p : Path) : Except Fault (Place × Entry) := do
  present (← t.locate .keep p)

def entry? (t : Tree) (p : Path) : Option Entry := (t.status p).toOption.map Prod.snd

def exists? (t : Tree) (p : Path) : Bool := (t.entry? p).isSome

def isFile (t : Tree) (p : Path) : Bool := (t.entry? p).any Entry.isFile

def isDirectory (t : Tree) (p : Path) : Bool := t.entry? p == some .directory

def read (t : Tree) (p : Path) : Except Fault Text := do
  match (← t.status p).2 with
  | .file (.text s) => return s
  | .file (.octets _) => .error .notText
  | .directory => .error .isDirectory
  | .link _ => .error .tooManyLinks

/-- The tree with a file's content replaced. The file is made if it is not there, but its directory
must be. -/
def write (t : Tree) (p : Path) (c : Content) : Except Fault Tree := do
  let s ← t.locate .create p
  if s.slashed || s.entry == some .directory then .error .isDirectory
  return t.put s.place (.file c)

def make (t : Tree) (p : Path) (e : Entry) : Except Fault Tree := do
  let s ← t.locate .leave p
  if s.entry.isSome then .error .alreadyThere
  if s.slashed && e != .directory then .error .notFound
  return t.put s.place e

def makeDirectory (t : Tree) (p : Path) : Except Fault Tree := t.make p .directory

/-- The tree with a link to a target, which need not be there. -/
def makeLink (t : Tree) (p target : Path) : Except Fault Tree :=
  match pathFault? target with
  | some f => .error f
  | none => t.make p (.link target)

/-- Makes the first of the paths a directory, after the next ones if they are missing. What was made
before a failure stays. -/
def makeDirectoriesOf : List Path → Tree → Except Fault Unit × Tree
  | [], t => (.ok (), t)
  | p :: parents, t =>
    if p.text.isEmpty then (.ok (), t)
    else
      match t.makeDirectory p with
      | .ok t => (.ok (), t)
      | .error .notFound =>
        match makeDirectoriesOf parents t with
        | (.error f, t) => (.error f, t)
        | (.ok (), t) => settle t p (t.makeDirectory p)
      | .error f => settle t p (.error f)
where
  /-- It does not matter that a directory could not be made where there is one. -/
  settle (t : Tree) (p : Path) : Except Fault Tree → Except Fault Unit × Tree
    | .ok t => (.ok (), t)
    | .error f => (if t.isDirectory p then .ok () else .error f, t)

def makeDirectories (t : Tree) (p : Path) : Except Fault Unit × Tree :=
  makeDirectoriesOf p.ancestors t

def remove (t : Tree) (p : Path) : Except Fault Tree := do
  let s ← t.locate .leave p
  match s.entry with
  | none => .error .notFound
  | some .directory => .error .isDirectory
  | some _ => if s.slashed then .error .notDirectory else return t.erase s.place

def removeAll (t : Tree) (p : Path) : Except Fault Tree := do
  return t.eraseAll (← t.linkStatus p).1

end PatternBridge.Tree
