import PatternBridge.Descriptor
import PatternBridge.Yaml.Document

/-!
Descriptors written as YAML mappings. Keys other than those of a descriptor do not matter.
-/

namespace PatternBridge.Descriptor

open Yaml

def dirKey : Text := "tpl_compile_dir"

def extKey : Text := "tpl_compile_ext"

def nullWords : List Text := ["null", "Null", "NULL", "~"]

def nullTag : Text := "tag:yaml.org,2002:null"

/-- The text of a scalar; plain ones may stand for nothing instead. -/
def textOf? (s : Scalar) : Option (Option Text) :=
  if !s.isPlain then some (some s.text)
  else
    match s.tag with
    | none => some (if s.text.isEmpty || nullWords.contains s.text then none else some s.text)
    | some t =>
      if t != nullTag then some (some s.text)
      else if nullWords.contains s.text then some none
      else none

def valuesOf (key : Text) (members : List (Text × Node)) : List Node :=
  (members.filter (·.1 == key)).map Prod.snd

/-- The value under a key, which is a scalar if it is there and is there at most once. -/
def field? (d : Document) (key : Text) (members : List (Text × Node)) : Option (Option Text) :=
  match valuesOf key members with
  | [] => some none
  | [v] => (d.scalar? v).bind textOf?
  | _ => none

def ofMembers? (d : Document) (members : List (Node × Node)) : Option Descriptor := do
  let members ← members.mapM fun (k, v) => (d.scalar? k).map fun s => (s.text, v)
  return { dir := ← field? d dirKey members, ext := ← field? d extKey members }

def ofDocument? (d : Document) : Option Descriptor :=
  match d.root with
  | none => some {}
  | some (.mapping members) => ofMembers? d members
  | some (.scalar s) => if s.isPlain && s.text.isEmpty then some {} else none
  | some _ => none

/-- The descriptor that a text gives; blank text routes nothing. -/
def parse? (s : Text) : Option Descriptor :=
  if Text.isBlankText s then some {} else (Document.parse? s).bind ofDocument?

end PatternBridge.Descriptor
