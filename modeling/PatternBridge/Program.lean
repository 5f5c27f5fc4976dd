import PatternBridge.Compile
import PatternBridge.ConfigFile
import PatternBridge.Encode

/-!
A run of the program: from its arguments and the files it finds to what it prints, its exit code
and the files it leaves.
-/

namespace PatternBridge

inductive RunFault where
  | config (f : ConfigFault)
  | encode (f : EncodeFault)
  | compile (f : CompileFault)
  deriving DecidableEq

namespace RunFault

def message : RunFault → Text
  | config f => f.message
  | encode f => f.message
  | compile f => f.message

def causes : RunFault → List Text
  | config f => f.cause?.toList.map Fault.message
  | compile f => f.cause?.toList.map Fault.message
  | encode (.file _ f) => [f.message]
  | encode (.data f) => f.message :: f.cause?.toList.map Fault.message
  | encode _ => []

end RunFault

namespace Program

def encodeAll (dialect : Text) (ext : Option Text) (layout : Layout) : Task RunFault Unit := do
  let report ← (Encode.run dialect ext layout).adapt .encode
  if report.files.isEmpty then
    Session.say "encode" ("no matching files under " ++ layout.patterns.shownFrom layout.root)
  else
    Session.say "encode" ("done, " ++ Nat.toDigits 10 report.files.length ++ " file(s) encoded")

def compileAll (layout : Layout) : Task RunFault Unit := do
  let report ← (Compile.run layout).adapt .compile
  Session.say "compile" ("done, " ++ Nat.toDigits 10 report.compiled.length ++ " compiled, " ++
    Nat.toDigits 10 report.skipped ++ " skipped, " ++ Nat.toDigits 10 report.failed ++ " failed")

def perform (i : Invocation) : Task RunFault Unit := do
  let (_, c) ← ExceptT.adapt .config (ExceptT.mk (Session.ask (Config.load · i)))
  match i.command with
  | .encode dialect ext => encodeAll dialect ext c.layout
  | .compile => compileAll c.layout

def name : Text := "tpl-compile"

def version : Text := "0.1.0"

def usage : List Text := [
  "Template encoder and backend compiler for pattern libraries", "",
  "Usage: tpl-compile [OPTIONS] <COMMAND>", "",
  "Commands:",
  "  encode [-e EXT] [DIALECT]  Encode template tags so the pattern generator leaves them alone",
  "  compile                    Format generated patterns and write them into the backend",
  "  help                       Print this message or the help of the given subcommand(s)", "",
  "Options:",
  "  -r, --root <ROOT>      Project root directory (default: current directory)",
  "  -C, --config <CONFIG>  Config file name (default: tpl-compile.toml)",
  "  -h, --help             Print help",
  "  -V, --version          Print version"]

structure Outcome where
  code : Nat
  notice : List Text := []
  log : List LogLine := []
  complaint : List Text := []
  tree : Tree

def report (f : RunFault) : List Text :=
  let causes := f.causes.map ("    ".toList ++ ·)
  ("Error: " ++ f.message) :: if causes.isEmpty then [] else [] :: "Caused by:".toList :: causes

/-- The outcome of a run that was not begun. Help and version that were asked for are no errors. -/
def stopped (t : Tree) : Invocation.Stop → Outcome
  | .help => { code := 0, notice := usage, tree := t }
  | .version => { code := 0, notice := [name ++ " " ++ version], tree := t }
  | _ => { code := 2, complaint := usage, tree := t }

def run (args : List Text) (t : Tree) : Outcome :=
  match Invocation.parse args with
  | .error s => stopped t s
  | .ok i =>
    let (result, s) := (perform i).run.run { tree := t }
    match result with
    | .ok () => { code := 0, log := s.log, tree := s.tree }
    | .error f => { code := 1, log := s.log, complaint := report f, tree := s.tree }

end Program

end PatternBridge
