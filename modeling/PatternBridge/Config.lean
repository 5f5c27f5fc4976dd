import PatternBridge.Files.Path
import PatternBridge.Toml.Reader

/-!
Project configuration: the directories of a project, the options file of the formatter, and where
they lie once the root is known.
-/

namespace PatternBridge

structure Config where
  /-- The project root; without one it is the working directory. -/
  root : Option Path := none
  patterns : Path := ⟨"source/_patterns"⟩
  /-- Where descriptors are searched; without one it is the patterns directory. -/
  templates : Option Path := none
  data : Path := ⟨"source/_data"⟩
  /-- What the generator writes. -/
  published : Path := ⟨"public/patterns"⟩
  backend : Path := ⟨"backend"⟩
  rc : Text := ".jsbeautifyrc"
  deriving DecidableEq

/-- The places of a project, each below its root unless it is given as an absolute path. -/
structure Layout where
  root : Path
  patterns : Path
  templates : Path
  dataFile : Path
  published : Path
  backend : Path
  rcFile : Path
  deriving DecidableEq

namespace Config

/-- The settings of a section by name. A section may also give them by position. -/
def settings? (names : List Text) : Option Toml.Value → Option (List (Text × Text))
  | none => some []
  | some (.table _ es) => es.mapM fun e => if names.contains e.1 then setting? e else none
  | some (.array items) => (names.zip items).mapM setting?
  | some _ => none
where
  setting? : Text × Toml.Value → Option (Text × Text)
    | (name, .string s) => some (name, s)
    | _ => none

def pathNames : List Text := ["root", "patterns", "templates", "data", "public", "backend"]

def formatterNames : List Text := ["rc"]

/-- No other sections and settings than those of a configuration may be given. -/
def ofTable? (t : Toml.Table) : Option Config := do
  let sections : List Text := ["paths", "formatter"]
  if !t.all fun e => sections.contains e.1 then none
  let paths ← settings? pathNames (t.lookup "paths".toList)
  let formatter ← settings? formatterNames (t.lookup "formatter".toList)
  let path? (name : Text) : Option Path := (paths.lookup name).map Path.mk
  let d : Config := {}
  return {
    root := path? "root"
    patterns := (path? "patterns").getD d.patterns
    templates := path? "templates"
    data := (path? "data").getD d.data
    published := (path? "public").getD d.published
    backend := (path? "backend").getD d.backend
    rc := (formatter.lookup "rc".toList).getD d.rc }

def parse? (s : Text) : Option Config := (Toml.parse? s).bind ofTable?

def rootPath (c : Config) : Path := c.root.getD ⟨"./"⟩

inductive Defect where
  | empty (setting : Text)
  /-- Pattern ids are relative to the patterns directory, so descriptors must lie inside it. -/
  | templatesOutside (templates patterns : Path)
  deriving DecidableEq

def Defect.message : Defect → Text
  | empty setting => "`" ++ setting ++ "` must not be empty"
  | templatesOutside templates patterns =>
    "`paths.templates` (" ++ templates.text ++ ") must be inside `paths.patterns` (" ++
      patterns.text ++ ")"

def required (c : Config) : List (Text × Path) :=
  [("paths.patterns", c.patterns), ("paths.data", c.data), ("paths.public", c.published),
    ("paths.backend", c.backend)]

def templatesInside (c : Config) (templates : Path) : Bool :=
  (c.rootPath / templates).startsWith (c.rootPath / c.patterns)

def defect? (c : Config) : Option Defect :=
  match c.required.find? fun r => r.2.text.isEmpty with
  | some (setting, _) => some (.empty setting)
  | none =>
    match c.templates.filter fun t => !c.templatesInside t with
    | some t => some (.templatesOutside t c.patterns)
    | none => if Text.isBlankText c.rc then some (.empty "formatter.rc") else none

def dataFileName : Text := "_data.json"

def layout (c : Config) : Layout where
  root := c.rootPath
  patterns := c.rootPath / c.patterns
  templates := c.rootPath / c.templates.getD c.patterns
  dataFile := c.rootPath / c.data / ⟨dataFileName⟩
  published := c.rootPath / c.published
  backend := c.rootPath / c.backend
  rcFile := c.rootPath / ⟨c.rc⟩

end Config

end PatternBridge
