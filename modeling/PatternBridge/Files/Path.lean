import PatternBridge.Text.Search

/-!
Paths as text. A path is kept as it is written; its components are a view that leaves out empty
segments and single dots, except a dot that starts the path.
-/

namespace PatternBridge

structure Path where
  text : Text
  deriving DecidableEq

namespace Path

inductive Component where
  | root
  | stay
  | up
  | name (n : Text)
  deriving DecidableEq

/-- What a path starts with: a slash, a segment that is a single dot, or neither. -/
inductive Anchor where
  | root
  | stay
  | none
  deriving DecidableEq

def isAbsolute (p : Path) : Bool := p.text.head? == some '/'

def segments (p : Path) : List Text := p.text.splitOn '/'

def anchor (p : Path) : Anchor :=
  if p.isAbsolute then .root else if p.segments.head? == some ['.'] then .stay else .none

def body (p : Path) : List Text :=
  match p.anchor with
  | .none => p.segments
  | _ => p.segments.tail

def Anchor.components : Anchor → List Component
  | .root => [.root]
  | .stay => [.stay]
  | .none => []

/-- Empty segments and single dots name nothing. -/
def isIdle (segment : Text) : Bool := segment == [] || segment == ['.']

def Component.ofSegment? (segment : Text) : Option Component :=
  if isIdle segment then Option.none
  else if segment == ['.', '.'] then some .up
  else some (.name segment)

def components (p : Path) : List Component :=
  p.anchor.components ++ p.body.filterMap Component.ofSegment?

def ofBody (a : Anchor) (body : List Text) : Path :=
  let rest := ['/'].intercalate body
  match a with
  | .root => ⟨'/' :: rest⟩
  | .stay => ⟨if body.isEmpty then ['.'] else '.' :: '/' :: rest⟩
  | .none => ⟨rest⟩

/-- `p / q`: an absolute `q` replaces `p`, all else is put behind a slash. -/
def join (p q : Path) : Path :=
  if q.isAbsolute then q
  else if p.text.isEmpty || p.text.getLast? == some '/' then ⟨p.text ++ q.text⟩
  else ⟨p.text ++ '/' :: q.text⟩

instance : Div Path := ⟨join⟩

def startsWith (p base : Path) : Bool := base.components.isPrefixOf p.components

/-- The segments after the first `n` that name something. -/
def dropNamed : Nat → List Text → List Text
  | 0, segments => segments
  | _ + 1, [] => []
  | n + 1, s :: segments => if isIdle s then dropNamed (n + 1) segments else dropNamed n segments

/-- The rest of `p` below `base`, as `p` spells it, without idle segments at its ends. -/
def below? (p base : Path) : Option Path :=
  if p.startsWith base then
    let n := base.components.length
    if n == 0 then some (ofBody p.anchor (Text.dropEndWhile isIdle p.body))
    else
      let rest := dropNamed (n - p.anchor.components.length) p.body
      some (ofBody .none (Text.trimWith isIdle rest))
  else none

def fileName? (p : Path) : Option Text :=
  match p.components.getLast? with
  | some (.name n) => some n
  | _ => none

/-- The path without its last component; a path without components and the root have none. -/
def parent? (p : Path) : Option Path :=
  match p.components.getLast? with
  | none => none
  | some .root => none
  | some .stay => some ⟨[]⟩
  | some _ =>
    let kept := (Text.dropEndWhile isIdle p.body).dropLast
    some (ofBody p.anchor (Text.dropEndWhile isIdle kept))

def ancestorsUpTo : Nat → Path → List Path
  | 0, _ => []
  | n + 1, p => p :: (p.parent?.map (ancestorsUpTo n)).getD []

def ancestors (p : Path) : List Path := ancestorsUpTo (p.text.length + 1) p

def withFileName (p : Path) (name : Text) : Path :=
  match p.fileName?, p.parent? with
  | some _, some parent => parent / ⟨name⟩
  | _, _ => p / ⟨name⟩

/-- The path with a suffix of its file name, if the name has it, replaced. -/
def replaceSuffix (p : Path) (suffix replacement : Text) : Path :=
  let name := p.fileName?.getD []
  p.withFileName ((Text.dropSuffix? suffix name).getD name ++ replacement)

/-- The path as shown to users: relative to `root` where it lies below it, with plain slashes and
none at the start. -/
def shownFrom (p root : Path) : Text :=
  (Text.replaceChar '\\' '/' ((p.below? root).getD p).text).dropWhile (· == '/')

end Path

end PatternBridge
