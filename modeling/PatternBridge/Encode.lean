import PatternBridge.Config
import PatternBridge.DataFile
import PatternBridge.Dialect
import PatternBridge.Files.Extension
import PatternBridge.Files.Walk

/-!
Encoding the templates of a project. Each template is replaced by its escaped form and a file with
the values of the markers, and the data file hides the markers from all other views.
-/

namespace PatternBridge

inductive EncodeFault where
  | unknownDialect (tag : Text)
  | noExtension
  | reservedExtension (ext : Text)
  | file (p : Path) (f : Fault)
  | data (f : DataFault)
  deriving DecidableEq

namespace EncodeFault

def argumentMessage? : EncodeFault → Option Text
  | unknownDialect tag =>
    some ("unknown dialect `" ++ tag ++ "`, expected one of: " ++
      Text.join ", " Dialect.knownTags)
  | noExtension =>
    some "need an `-e` argument to identify your source files by extension".toList
  | reservedExtension ext =>
    some ("`" ++ ext ++ "` is reserved for encoder output and cannot identify source files")
  | file _ _ => none
  | data _ => none

def message (f : EncodeFault) : Text :=
  match f with
  | file p _ => "IO error on `" ++ p.text ++ "`"
  | data _ => "Failed to update global data"
  | f => "Configuration error: " ++ f.argumentMessage?.getD []

end EncodeFault

structure EncodedFile where
  source : Path
  encoded : Path
  sidecar : Path
  deriving DecidableEq

structure EncodeReport where
  files : List EncodedFile
  keysAdded : List Text
  deriving DecidableEq

namespace Encode

def encodedExt : Text := ".mustache"

def sidecarExt : Text := ".json"

/-- The extension of the templates, which must not be one of the files that take their place. -/
def sourceExt (ext : Option Text) : Except EncodeFault Text :=
  match ext.bind Extension.normalize? with
  | none => .error .noExtension
  | some e => if e == encodedExt || e == sidecarExt then .error (.reservedExtension e) else .ok e

def outputs (ext : Text) (source : Path) : EncodedFile where
  source := source
  encoded := source.replaceSuffix ext encodedExt
  sidecar := source.replaceSuffix ext sidecarExt

def writeText (p : Path) (s : Text) : Task EncodeFault Unit :=
  Task.need (.file p) (Session.write p s)

/-- Writes the files that take a template's place, and then removes it. -/
def encodeFile (d : Dialect) (ext : Text) (root source : Path) : Task EncodeFault EncodedFile := do
  let content ← Task.need (.file source) (Session.ask (·.read source))
  let out := outputs ext source
  let encoded := d.encode content
  if d.decode encoded != content then
    Session.say "warn" (source.shownFrom root ++
      " contains literal escape markers, the generator will not restore it exactly")
  writeText out.encoded encoded
  writeText out.sidecar d.sidecarText
  Session.say "encode" (source.shownFrom root ++ " encoded to " ++ out.encoded.shownFrom root ++ ".")
  Task.need (.file source) (Session.change (·.remove source))
  return out

/-- Encodes one template after the other up to the first failure. -/
def encodeFiles (d : Dialect) (ext : Text) (root : Path) :
    List Path → StateM Session (List EncodedFile × Option EncodeFault)
  | [] => return ([], none)
  | source :: sources => do
    match ← (encodeFile d ext root source).run with
    | .error f => return ([], some f)
    | .ok file =>
      let (files, failure) ← encodeFiles d ext root sources
      return (file :: files, failure)

def dataDetail (f : DataFault) : Text :=
  match f.cause? with
  | some c => f.message ++ ": " ++ c.message
  | none => f.message

/-- Adds the pending keys once a template is encoded. After another failure a fault is only logged. -/
def addKeys (data : DataFile) (pending : KeySet) (failed : Bool) : Task EncodeFault (List Text) := do
  match (← data.add pending).1 with
  | .ok keys => return keys
  | .error f =>
    if failed then
      Session.say "error" (dataDetail f)
      return []
    else throw (.data f)

/-- Encodes all templates of a project. The templates encoded before a failure have lost their
sources, so their keys are added all the same. -/
def run (tag : Text) (ext : Option Text) (layout : Layout) : Task EncodeFault EncodeReport := do
  let some d := Dialect.find? tag | throw (.unknownDialect tag)
  let ext ← sourceExt ext
  let data ← Session.ask (DataFile.load · layout.dataFile)
  let pending := data.missingKeys d.hiddenPairs
  let sources ← Session.ask (·.filesEndingIn layout.patterns ext)
  let (files, failure) ← encodeFiles d ext layout.root sources
  let keysAdded ← if files.isEmpty then pure [] else addKeys data pending failure.isSome
  if !keysAdded.isEmpty then
    Session.say "data" ("added " ++ Text.join ", " keysAdded ++ " to " ++
      layout.dataFile.shownFrom layout.root)
  match failure with
  | some f => throw f
  | none => return { files, keysAdded }

end Encode

end PatternBridge
