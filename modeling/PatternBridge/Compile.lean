import PatternBridge.Config
import PatternBridge.DescriptorText
import PatternBridge.Files.Walk
import PatternBridge.Markup.Render
import PatternBridge.OptionsFile
import PatternBridge.Route

/-!
Compiling the generated markup of a project. Each descriptor that routes a pattern has the pattern's
markup formatted and written to its destination.
-/

namespace PatternBridge

inductive DescriptorFault where
  | status (p : Path) (f : Fault)
  | file (p : Path) (f : Fault)
  | malformed (p : Path)
  | markup (p : Path) (f : Fault)
  deriving DecidableEq

namespace DescriptorFault

def message : DescriptorFault → Text
  | status p _ => "Cannot stat `" ++ p.text ++ "`"
  | file p _ => "Cannot read `" ++ p.text ++ "`"
  | malformed p => "Cannot parse `" ++ p.text ++ "`"
  | markup p _ => "Missing generated markup `" ++ p.text ++ "`"

def cause : DescriptorFault → Text
  | status _ f | file _ f | markup _ f => f.message
  | malformed _ => "not a mapping of routing fields"

def detail (f : DescriptorFault) : Text := f.message ++ ": " ++ f.cause

end DescriptorFault

inductive CompileFault where
  | options (f : OptionsFault)
  | directory (p : Path) (f : Fault)
  | output (p : Path) (f : Fault)
  deriving DecidableEq

namespace CompileFault

def message : CompileFault → Text
  | options f => f.message
  | directory p _ => "Failed to create directory: " ++ p.text
  | output p _ => "Failed to write " ++ p.text

def cause? : CompileFault → Option Fault
  | options f => f.cause?
  | directory _ f | output _ f => some f

end CompileFault

structure CompileReport where
  compiled : List Path := []
  /-- Descriptors that are no files or route nothing. -/
  skipped : Nat := 0
  failed : Nat := 0
  deriving DecidableEq

namespace Compile

def discover (t : Tree) (layout : Layout) : List Path :=
  t.entriesEndingIn layout.templates Descriptor.suffixes

/-- The route of a descriptor. What is no file and a descriptor that routes nothing have none. -/
def route (t : Tree) (layout : Layout) (p : Path) : Except DescriptorFault (Option Route) :=
  match t.status p with
  | .error f => .error (.status p f)
  | .ok (_, e) =>
    if !e.isFile then .ok none
    else
      match t.read p with
      | .error f => .error (.file p f)
      | .ok s =>
        match Descriptor.parse? s with
        | none => .error (.malformed p)
        | some d => .ok (d.routing?.map fun (dir, ext) => routeOf dir ext)
where
  routeOf (dir ext : Text) : Route :=
    let patternId := Route.idOf p layout.patterns
    { descriptor := p
      patternId
      markup := Route.markupOf layout.published patternId
      destination := Route.destinationOf layout.backend dir p ext }

def output (t : Tree) (options : Markup.Options) (r : Route) : Except DescriptorFault Text :=
  match t.read r.markup with
  | .ok s => .ok (Markup.render options s)
  | .error f => .error (.markup r.markup f)

def job (t : Tree) (options : Markup.Options) (layout : Layout) (p : Path) :
    Except DescriptorFault (Option (Route × Text)) := do
  match ← route t layout p with
  | none => return none
  | some r => return some (r, ← output t options r)

def writeOutput (p : Path) (s : Text) : Task CompileFault Unit := do
  if let some parent := p.parent? then
    Task.need (.directory parent) (Session.makeDirectories parent)
  Task.need (.output p) (Session.write p s)

/-- Compiles what a descriptor routes. A descriptor that fails is logged and passed over. -/
def compileOne (options : Markup.Options) (layout : Layout) (report : CompileReport) (p : Path) :
    Task CompileFault CompileReport := do
  match ← Session.ask (job · options layout p) with
  | .error f =>
    Session.say "error" f.detail
    return { report with failed := report.failed + 1 }
  | .ok none => return { report with skipped := report.skipped + 1 }
  | .ok (some (r, s)) =>
    writeOutput r.destination s
    Session.say "compile" ("Template " ++ r.destination.shownFrom layout.root ++ " compiled.")
    return { report with compiled := report.compiled ++ [r.destination] }

/-- Compiles all descriptors of a project. A file that cannot be written stops the run. -/
def run (layout : Layout) : Task CompileFault CompileReport := do
  let (options, source) ← (OptionsFile.resolve layout.rcFile).adapt .options
  if let some p := source then
    Session.say "compile" ("formatter options from " ++ p.shownFrom layout.root)
  let descriptors ← Session.ask (discover · layout)
  descriptors.foldlM (compileOne options layout) {}

end Compile

end PatternBridge
