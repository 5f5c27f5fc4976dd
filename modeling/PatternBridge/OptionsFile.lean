import PatternBridge.Files.Canonical
import PatternBridge.Markup.OptionsText
import PatternBridge.Session

/-!
The options file of a project. A file is read once in a session, by whatever path it is named, as long
as its full path can be told.
-/

namespace PatternBridge

inductive OptionsFault where
  | file (p : Path) (f : Fault)
  | invalid (p : Path)
  deriving DecidableEq

namespace OptionsFault

def message : OptionsFault → Text
  | file p _ => "IO error when reading `" ++ p.text ++ "`"
  | invalid p => "Formatter options in `" ++ p.text ++ "` are invalid"

def cause? : OptionsFault → Option Fault
  | file _ f => some f
  | invalid _ => none

end OptionsFault

namespace OptionsFile

open Markup

/-- The path that a file is read by and its options are kept under: the full path or, where that cannot
be told, the path by which the file is named. -/
def keyPath (t : Tree) (p : Path) : Path := ((t.canonical? p).map Tree.fullPath).getD p

def optionsIn (t : Tree) (p : Path) : Except OptionsFault Options :=
  match t.read (keyPath t p) with
  | .error f => .error (.file p f)
  | .ok s =>
    match Options.parse? s with
    | some o => .ok o
    | none => .error (.invalid p)

/-- The options in a file. Those that were read under the same path before are given again. -/
def load (p : Path) : Task OptionsFault Options := do
  let key ← Session.ask (keyPath · p)
  match (← get).options.lookup key.components with
  | some o => return o
  | none =>
    let o ← ExceptT.mk (Session.ask (optionsIn · p))
    modify fun s => { s with options := (key.components, o) :: s.options }
    return o

def resolve (p : Path) : Task OptionsFault (Options × Option Path) := do
  if ← Session.ask (·.isFile p) then return (← load p, some p)
  else return (.bundled, none)

end OptionsFile

end PatternBridge
