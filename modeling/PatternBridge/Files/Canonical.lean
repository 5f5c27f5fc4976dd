import PatternBridge.Files.Walk

/-!
The full path of what a path leads to. It is found name by name: each place on the way is looked at by
its full path, which thus must not be too long, while the path itself may have any length.
-/

namespace PatternBridge

/-- Whether only a directory can have the steps behind it. A name behind it would tell that itself. -/
def Step.needDirectory (rest : List Step) : Bool :=
  match rest.dropWhile fun step => step == .stay || step == .slash with
  | [] => !rest.isEmpty
  | .up :: _ => true
  | _ => false

namespace Tree

def fullPath (place : Place) : Path := pathTo ⟨"/"⟩ place

def fullLength (place : Place) : Nat := Text.byteLength (fullPath place).text

/-- Goes from a directory step by step; `onLink` goes on from a link. -/
def resolveWith (t : Tree)
    (onLink : (dir : Place) → (target : Path) → (rest : List Step) → Option Place) :
    Place → List Step → Option Place
  | dir, [] => some dir
  | dir, .stay :: rest => resolveWith t onLink dir rest
  | dir, .slash :: rest => resolveWith t onLink dir rest
  | dir, .up :: rest => resolveWith t onLink dir.dropLast rest
  | dir, .name n :: rest =>
    let place := dir ++ [n]
    if maxNameBytes < Text.byteLength n || pathBytesLimit ≤ fullLength place then none
    else
      match t.get? place with
      | some .directory =>
        -- to see that it is one, it is looked at with a slash behind it
        if Step.needDirectory rest && pathBytesLimit ≤ fullLength place + 1 then none
        else resolveWith t onLink place rest
      | some (.link target) => onLink dir target rest
      | some (.file _) => if rest.isEmpty then some place else none
      | none => none

def resolve (t : Tree) : (links : Nat) → Place → List Step → Option Place
  | 0 => resolveWith t fun _ _ _ => none
  | links + 1 => resolveWith t fun dir target rest =>
      resolve t links (start dir target) (target.steps ++ rest)

/-- The place of what a path leads to, if its full path can be told. -/
def canonical? (t : Tree) (p : Path) : Option Place :=
  if p.text.contains '\u0000' || p.text.isEmpty then none
  else t.resolve maxLinks (start t.here p) p.steps

end Tree

end PatternBridge
