import PatternBridge.Files.Access
import PatternBridge.Log
import PatternBridge.Markup.Options

/-!
Sessions: the files a run works on, the formatter options it has read, and what it has logged.
-/

namespace PatternBridge

/-- How a write ends that stops before its end. -/
structure Cut where
  /-- The number of bytes that get into the file. -/
  written : Nat
  fault : Fault
  deriving DecidableEq

def Cut.content (cut : Cut) (s : Text) : Content := .ofBytes ((Text.bytes s).take cut.written)

structure Session where
  tree : Tree
  /-- Formatter options by the components of the path that they are kept under. -/
  options : List (List Path.Component × Markup.Options) := []
  log : List LogLine := []
  /-- How the next writes end. A write without a cut gets to its end. -/
  cuts : List (Option Cut) := []

/-- What a run does to its session. A failure keeps what was done before it. -/
abbrev Task (ε : Type) := ExceptT ε (StateM Session)

namespace Session

section
variable {m : Type → Type} [Monad m] [MonadStateOf Session m]

def say (source : String) (message : Text) : m Unit :=
  modify fun s => { s with log := s.log ++ [⟨source, message⟩] }

def ask {α : Type} (f : Tree → α) : m α := return f (← get).tree

end

def change (f : Tree → Except Fault Tree) : StateM Session (Except Fault Unit) := do
  match f (← get).tree with
  | .error e => return .error e
  | .ok tree =>
    modify fun s => { s with tree }
    return .ok ()

def nextCut : StateM Session (Option Cut) :=
  modifyGet fun s => (s.cuts.head?.join, { s with cuts := s.cuts.tail })

/-- Writes a text to a file. The file is opened and emptied first, so that a write that stops before its
end leaves a part of the text. -/
def write (p : Path) (text : Text) : StateM Session (Except Fault Unit) := do
  match ← nextCut with
  | none => change (·.write p (.text text))
  | some cut =>
    match ← change (·.write p (cut.content text)) with
    | .error f => return .error f
    | .ok () => return .error cut.fault

def makeDirectories (p : Path) : StateM Session (Except Fault Unit) := do
  let (result, tree) := (← get).tree.makeDirectories p
  modify fun s => { s with tree }
  return result

end Session

def Task.need {ε α : Type} (failure : Fault → ε) (run : StateM Session (Except Fault α)) :
    Task ε α := ExceptT.mk do
  match ← run with
  | .ok a => return .ok a
  | .error f => return .error (failure f)

end PatternBridge
