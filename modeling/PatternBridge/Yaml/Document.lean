import PatternBridge.Yaml.Token

/-!
YAML documents: the tree of nodes that tokens write, and the scalars that its aliases stand for.
-/

namespace PatternBridge.Yaml

structure Scalar where
  text : Text
  /-- Written without quotes and not as a block. -/
  isPlain : Bool
  tag : Option Text := none
  deriving DecidableEq

inductive Node where
  | alias (number : Nat)
  | scalar (s : Scalar)
  | sequence (items : List Node)
  | mapping (members : List (Node × Node))

def Node.empty : Node := .scalar { text := [], isPlain := true }

/-- The anchors of a document. An anchor has the number of different names before it, so that one
whose name was in use shares its number with those that follow. -/
structure Anchors where
  numbers : List (Text × Nat) := []
  /-- The scalars with anchors, the latest first; there is none where the node is a collection. -/
  targets : List (Nat × Option Scalar) := []

namespace Anchors

def add (a : Anchors) (name : Text) (target : Option Scalar) : Anchors :=
  let n := a.numbers.length
  { numbers := (name, n) :: a.numbers.filter (·.1 != name), targets := (n, target) :: a.targets }

end Anchors

structure Document where
  /-- There is no root in a text without content. -/
  root : Option Node
  anchors : Anchors

namespace Document

def scalar? (d : Document) : Node → Option Scalar
  | .scalar s => some s
  | .alias n => (d.anchors.targets.lookup n).join
  | _ => none

structure State where
  tokens : List Token
  handles : List (Text × Text) := []
  anchors : Anchors := {}

abbrev Reader := StateT State Option

def peek : Reader (Option Token) := return (← get).tokens.head?

def skip : Reader Unit := modify fun st => { st with tokens := st.tokens.tail }

def expect (t : Token) : Reader Unit := do
  if (← peek) == some t then skip else failure

def recordAnchor (anchor : Option Text) (target : Option Scalar) : Reader Unit :=
  match anchor with
  | some name => modify fun st => { st with anchors := st.anchors.add name target }
  | none => pure ()

def anchor : Reader (Option Text) := do
  match ← peek with
  | some (.anchor name) => skip; return some name
  | _ => return none

def fullTag (t : Shorthand) : Reader Text := do
  if t.handle.isEmpty then return t.suffix
  match (← get).handles.lookup t.handle with
  | some start => return start ++ t.suffix
  | none => failure

def tag : Reader (Option Text) := do
  match ← peek with
  | some (.tag t) => skip; return some (← fullTag t)
  | _ => return none

/-- The anchor and the tag before a node, in either order. -/
def properties : Reader (Option Text × Option Text) := do
  match ← anchor with
  | some name => return (some name, ← tag)
  | none =>
    let t ← tag
    if t.isSome then return (← anchor, t) else return (none, none)

def aliasNode (name : Text) : Reader Node := do
  match (← get).anchors.numbers.lookup name with
  | some n => return .alias n
  | none => failure

def scalarNode (anchor : Option Text) (s : Scalar) : Reader Node := do
  recordAnchor anchor (some s)
  return .scalar s

/-- A node, or nothing where one of `ends` follows. -/
def orEmpty (ends : List Token) (read : Reader Node) : Reader Node := do
  match ← peek with
  | some t => if ends.contains t then return .empty else read
  | none => read

def openTag : Text := "!"

mutual

/-- A node. Block collections may stand only in blocks, and a sequence that is not indented only in
a block mapping; `fuel` bounds the number of tokens. -/
def node : Nat → (inBlock notIndented : Bool) → Reader Node
  | 0, _, _ => failure
  | fuel + 1, inBlock, notIndented => do
    if let some (.alias name) ← peek then
      skip
      return ← aliasNode name
    let (anchor, tag) ← properties
    match ← peek with
    | some (.scalar isPlain text) =>
      skip
      scalarNode anchor { text, isPlain, tag := tag.filter (· != openTag) }
    | some .flowSequenceStart =>
      skip
      recordAnchor anchor none
      return .sequence (← flowItems fuel true)
    | some .flowMappingStart =>
      skip
      recordAnchor anchor none
      return .mapping (← flowMembers fuel true)
    | some .blockEntry =>
      if notIndented then
        recordAnchor anchor none
        return .sequence (← flushItems fuel)
      else unwritten anchor tag
    | some .blockSequenceStart =>
      if inBlock then
        skip
        recordAnchor anchor none
        return .sequence (← blockItems fuel)
      else unwritten anchor tag
    | some .blockMappingStart =>
      if inBlock then
        skip
        recordAnchor anchor none
        return .mapping (← blockMembers fuel)
      else unwritten anchor tag
    | _ => unwritten anchor tag
where
  /-- Nothing after an anchor or a tag is an empty scalar. -/
  unwritten (anchor tag : Option Text) : Reader Node :=
    if anchor.isSome || tag.isSome then scalarNode anchor { text := [], isPlain := true, tag }
    else failure

def blockItems : Nat → Reader (List Node)
  | 0 => failure
  | fuel + 1 => do
    match ← peek with
    | some .blockEntry =>
      skip
      let item ← orEmpty [.blockEntry, .blockEnd] (node fuel true false)
      return item :: (← blockItems fuel)
    | _ =>
      expect .blockEnd
      return []

def flushItems : Nat → Reader (List Node)
  | 0 => failure
  | fuel + 1 => do
    match ← peek with
    | some .blockEntry =>
      skip
      let item ← orEmpty [.blockEntry, .key, .value, .blockEnd] (node fuel true false)
      return item :: (← flushItems fuel)
    | _ => return []

def blockMembers : Nat → Reader (List (Node × Node))
  | 0 => failure
  | fuel + 1 => do
    match ← peek with
    | some .key =>
      skip
      let ends : List Token := [.key, .value, .blockEnd]
      let k ← orEmpty ends (node fuel true true)
      let v ←
        if (← peek) == some .value then do
          skip
          orEmpty ends (node fuel true true)
        else pure .empty
      return (k, v) :: (← blockMembers fuel)
    | _ =>
      expect .blockEnd
      return []

def flowItems : Nat → (isFirst : Bool) → Reader (List Node)
  | 0, _ => failure
  | fuel + 1, isFirst => do
    if (← peek) == some .flowSequenceEnd then
      skip
      return []
    if !isFirst then expect .flowEntry
    match ← peek with
    | some .flowSequenceEnd =>
      skip
      return []
    | some .key =>
      skip
      let member ← flowPair fuel
      return .mapping [member] :: (← flowItems fuel false)
    | _ =>
      let item ← node fuel false false
      return item :: (← flowItems fuel false)

/-- A mapping of one member, written without braces as an item of a flow sequence. A missing key
takes the token in its place with it. -/
def flowPair : Nat → Reader (Node × Node)
  | 0 => failure
  | fuel + 1 => do
    let k ←
      match ← peek with
      | some .value | some .flowEntry | some .flowSequenceEnd => do
        skip
        pure .empty
      | _ => node fuel false false
    if (← peek) == some .value then
      skip
      return (k, ← orEmpty [.flowEntry, .flowSequenceEnd] (node fuel false false))
    return (k, .empty)

def flowMembers : Nat → (isFirst : Bool) → Reader (List (Node × Node))
  | 0, _ => failure
  | fuel + 1, isFirst => do
    if (← peek) == some .flowMappingEnd then
      skip
      return []
    if !isFirst then expect .flowEntry
    match ← peek with
    | some .flowMappingEnd =>
      skip
      return []
    | some .key =>
      skip
      let k ← orEmpty [.value, .flowEntry, .flowMappingEnd] (node fuel false false)
      let v ←
        if (← peek) == some .value then do
          skip
          orEmpty [.flowEntry, .flowMappingEnd] (node fuel false false)
        else pure .empty
      return (k, v) :: (← flowMembers fuel false)
    | _ =>
      let k ← node fuel false false
      return (k, .empty) :: (← flowMembers fuel false)

end

def leading : List Token → List Directive × List Token
  | .directive d :: ts => let (ds, r) := leading ts; (d :: ds, r)
  | ts => ([], ts)

def isVersion : Directive → Bool
  | .version _ _ => true
  | .tag _ _ => false

def isKnown : Directive → Bool
  | .version major minor => major == 1 && (minor == 1 || minor == 2)
  | .tag _ _ => true

def handle? : Directive → Option (Text × Text)
  | .version _ _ => none
  | .tag handle start => some (handle, start)

def defaultHandles : List (Text × Text) := [("!", "!"), ("!!", "tag:yaml.org,2002:")]

/-- What the tag handles of a document stand for. Neither the version nor a handle may be given
twice. -/
def handles? (ds : List Directive) : Option (List (Text × Text)) :=
  let own := ds.filterMap handle?
  if ds.all isKnown && ds.countP isVersion ≤ 1 && (own.map Prod.fst).Nodup then
    some (own ++ defaultHandles)
  else none

def markedRoot (fuel : Nat) : Reader Node := do
  match ← peek with
  | none | some (.directive _) | some .documentStart | some .documentEnd => return .empty
  | _ => node fuel true false

def ofTokens? (ts : List Token) : Option Document := do
  if ts.isEmpty then return { root := none, anchors := {} }
  let (ds, content) := leading ts
  let handles ← handles? ds
  let fuel := 4 * ts.length + 4
  let marked := !ds.isEmpty || ts.head? == some .documentStart
  let read : Reader Node :=
    if marked then do
      expect .documentStart
      markedRoot fuel
    else node fuel true false
  let (root, st) ← read.run { tokens := content, handles }
  if (st.tokens.dropWhile (· == .documentEnd)).isEmpty then
    return { root := some root, anchors := st.anchors }
  else none

def parse? (s : Text) : Option Document := (tokens? s).bind ofTokens?

end Document

end PatternBridge.Yaml
