import PatternBridge.Files.Changes
import PatternBridge.Program

/-!
The command line program. It reads the files that a run may look at into a tree, runs on the tree,
and makes the changes that the run made there.
-/

namespace PatternBridge.Main

def pathText (p : Place) : String := String.ofList ('/' :: Text.join "/" p)

def placeOf (path : String) : Place := (path.toList.splitOn '/').filter (!·.isEmpty)

def native (p : Place) : IO.FS.DirEntry := ⟨⟨pathText p.dropLast⟩, String.ofList (p.getLast?.getD ['.'])⟩

def nowhere : Path := ⟨"/nonexistent"⟩

/-- What is at a place; a link is kept with the place that it leads to in the end. -/
def entryAt (p : Place) : IO (Option Entry) := do
  try
    match (← (native p).path.symlinkMetadata).type with
    | .dir => return some .directory
    | .file =>
      let bytes ← IO.FS.readBinFile (native p).path
      return some (.file (.ofBytes bytes.toList))
    | .symlink =>
      try
        let _ ← (native p).path.metadata
        let target ← IO.FS.realPath (native p).path
        return some (.link ⟨target.toString.toList⟩)
      catch _ => return some (.link nowhere)
    | .other => return none
  catch _ => return none

partial def approach (t : Tree) (p : Path) : IO Tree :=
  p.ancestors.reverse.foldlM step t
where
  step (t : Tree) (p : Path) : IO Tree := do
    match t.locate .leave p with
    | .ok { place, entry := none, .. } =>
      match ← entryAt place with
      | some (.link target) => approach (t.put place (.link target)) target
      | some e => return t.put place e
      | none => return t
    | _ => return t

/-- Adds all that is below a place, and what links there lead to. -/
partial def addBelow (t : Tree) (p : Place) : IO Tree := do
  let names := (← (native p).path.readDir).toList.map fun e => e.fileName.toList
  names.foldlM add t
where
  add (t : Tree) (n : Text) : IO Tree := do
    let place := p ++ [n]
    match ← entryAt place with
    | some .directory => addBelow (t.put place .directory) place
    | some (.link target) => approach (t.put place (.link target)) target
    | some e => return t.put place e
    | none => return t

def addAll (t : Tree) (p : Path) : IO Tree := do
  let t ← approach t p
  match t.status p with
  | .ok (place, .directory) => addBelow t place
  | _ => return t

def filesFor (i : Invocation) (t : Tree) : IO Tree := do
  let t ← approach t (i.root.getD ⟨"./"⟩ / i.config)
  match Config.load t i with
  | .error _ => return t
  | .ok (_, c) =>
    let l := c.layout
    [l.patterns, l.templates, l.dataFile, l.published, l.backend, l.rcFile].foldlM addAll t

def workingTree : IO Tree := do
  let here := placeOf (← IO.currentDir).toString
  let above := (List.range here.length).map fun n => here.take (n + 1)
  return above.foldl (fun t p => t.put p .directory) (.empty here)

def bytesOf : Content → ByteArray
  | .text s => (String.ofList s).toUTF8
  | .octets bytes => ⟨bytes.toArray⟩

def apply (c : Change) : IO Unit :=
  match c.new with
  | some .directory => IO.FS.createDirAll (native c.place).path
  | some (.file content) => IO.FS.writeBinFile (native c.place).path (bytesOf content)
  | some (.link _) => pure ()
  | none => IO.FS.removeFile (native c.place).path

end PatternBridge.Main

open PatternBridge in
def main (args : List String) : IO UInt32 := do
  let args := args.map String.toList
  let start ← Main.workingTree
  let before ← match Invocation.parse args with
    | .ok i => Main.filesFor i start
    | .error _ => pure start
  let o := Program.run args before
  (Tree.changes before o.tree).forM Main.apply
  let colours := (← (← IO.getStdout).isTty) && (← IO.getEnv "NO_COLOR").isNone
  o.notice.forM fun l => IO.println (String.ofList l)
  o.log.forM fun l => IO.print (String.ofList (l.printed colours))
  o.complaint.forM fun l => IO.eprintln (String.ofList l)
  return o.code.toUInt32
