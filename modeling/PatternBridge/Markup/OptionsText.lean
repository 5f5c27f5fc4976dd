import PatternBridge.Json.Reader
import PatternBridge.Markup.Options

/-!
Options written as JSON. The members of an `html` section stand for top-level members, unknown keys
do not matter, and a list gives the options by position.
-/

namespace PatternBridge.Markup.Options

open Json

/-- The value under a key, or the default when the key is missing; a value of a wrong type is none. -/
def member {α : Type} (ms : Members) (key : Text) (read : Value → Option α) (default : α) :
    Option α :=
  match ms.find? key with
  | some v => read v
  | none => some default

def ofMembers? (ms : Members) : Option Options := do
  let d : Options := {}
  return {
    indentSize := ← member ms "indent_size" Value.natural? d.indentSize
    indentChar := ← member ms "indent_char" Value.string? d.indentChar
    indentWithTabs := ← member ms "indent_with_tabs" Value.bool? d.indentWithTabs
    eol := ← member ms "eol" Value.string? d.eol
    endWithNewline := ← member ms "end_with_newline" Value.bool? d.endWithNewline
    preserveNewlines := ← member ms "preserve_newlines" Value.bool? d.preserveNewlines
    maxPreserveNewlines := ← member ms "max_preserve_newlines" Value.natural? d.maxPreserveNewlines
    indentInnerHtml := ← member ms "indent_inner_html" Value.bool? d.indentInnerHtml
    indentHandlebars := ← member ms "indent_handlebars" Value.bool? d.indentHandlebars
    inlineNames := ← member ms "inline" Value.strings? d.inlineNames
    unformatted := ← member ms "unformatted" Value.strings? d.unformatted
    contentUnformatted := ← member ms "content_unformatted" Value.strings? d.contentUnformatted }

/-- The keys in the order in which a list gives their values. -/
def keys : List Text :=
  ["indent_size", "indent_char", "indent_with_tabs", "eol", "end_with_newline",
    "preserve_newlines", "max_preserve_newlines", "indent_inner_html", "indent_handlebars",
    "inline", "unformatted", "content_unformatted"]

/-- The members without the `html` section, and with the section's members in place of theirs. -/
def flatten (ms : Members) : Members :=
  match ms.find? "html" with
  | some (.object inner) => (ms.erase "html").overlay inner
  | _ => ms.erase "html"

def ofValue? : Value → Option Options
  | .object ms => ofMembers? (flatten ms)
  | .array items => if items.length ≤ keys.length then ofMembers? (keys.zip items) else none
  | _ => none

def parse? (s : Text) : Option Options := (Json.parse? s).bind ofValue?

end PatternBridge.Markup.Options
