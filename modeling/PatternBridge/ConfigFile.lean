import PatternBridge.Config
import PatternBridge.Files.Access
import PatternBridge.Invocation

/-!
The configuration that a command line asks for.
-/

namespace PatternBridge

inductive ConfigFault where
  | file (p : Path) (f : Fault)
  | malformed
  | defective (d : Config.Defect)
  deriving DecidableEq

namespace ConfigFault

def message : ConfigFault → Text
  | file p _ => "IO error when reading `" ++ p.text ++ "`"
  | malformed => "Config file parsing error"
  | defective d => "Config validation error: " ++ d.message

def cause? : ConfigFault → Option Fault
  | file _ f => some f
  | _ => none

end ConfigFault

namespace Config

def ofText (s : Text) : Except ConfigFault Config :=
  match parse? s with
  | some c => .ok c
  | none => .error .malformed

def validated (c : Config) : Except ConfigFault Config :=
  match c.defect? with
  | none => .ok c
  | some d => .error (.defective d)

def read (t : Tree) (p : Path) : Except ConfigFault Config :=
  match t.read p with
  | .ok s => ofText s
  | .error f => .error (.file p f)

/-- The file of the configuration, if it is there, and the configuration. A root that is given on
the command line wins. -/
def load (t : Tree) (i : Invocation) : Except ConfigFault (Option Path × Config) := do
  let file := i.root.getD ⟨"./"⟩ / i.config
  let found := t.exists? file
  let c ← if found then read t file else pure {}
  let c ← validated { c with root := i.root <|> c.root }
  return (if found then some file else none, c)

end Config

end PatternBridge
