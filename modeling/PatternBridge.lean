import PatternBridge.Dialect
import PatternBridge.Files.Extension
import PatternBridge.Files.Path
import PatternBridge.Json.Quoted
import PatternBridge.Log
import PatternBridge.Markup.OptionsText
import PatternBridge.Markup.Render
import PatternBridge.Route
import PatternBridge.Toml.Value
import PatternBridge.Toml.Reader
import PatternBridge.Config
import PatternBridge.Invocation
import PatternBridge.Yaml.Characters
import PatternBridge.Yaml.Scalar
import PatternBridge.Yaml.Tag
import PatternBridge.Yaml.Token
import PatternBridge.DescriptorText
import PatternBridge.Files.Fault
import PatternBridge.Files.Tree
import PatternBridge.Files.Access
import PatternBridge.Files.Changes
import PatternBridge.Files.Walk
import PatternBridge.Files.Canonical
import PatternBridge.Compile
import PatternBridge.ConfigFile
import PatternBridge.DataFile
import PatternBridge.Encode
import PatternBridge.Program
import PatternBridge.Main
import PatternBridge.Proofs.Braces.Recovery
import PatternBridge.Proofs.Encode.File
import PatternBridge.Proofs.Braces.Rewrite
import PatternBridge.Proofs.Markup.Moving
import PatternBridge.Proofs.Markup.Content
import PatternBridge.Proofs.Files.Components
import PatternBridge.Proofs.Files.Place
import PatternBridge.Proofs.Files.Entries
import PatternBridge.Proofs.Files.Leads
import PatternBridge.Proofs.Files.Effects
import PatternBridge.Proofs.Files.Found
import PatternBridge.Proofs.Encode.Files
import PatternBridge.Proofs.DataFile.Save
import PatternBridge.Proofs.Encode.Run
import PatternBridge.Proofs.Encode.Migration
import PatternBridge.Proofs.Encode.Apart
import PatternBridge.Proofs.Encode.Interruption
import PatternBridge.Proofs.DataFile.Growth
import PatternBridge.Proofs.Compile.Isolation
import PatternBridge.Proofs.Files.Resolved
import PatternBridge.Proofs.Markup.MovedBack
import PatternBridge.Proofs.Compile.Destination
import PatternBridge.Proofs.Markup.Unbroken
import PatternBridge.Proofs.Markup.Nesting
import PatternBridge.Proofs.Markup.Indentation
import PatternBridge.Proofs.Markup.Survival
import PatternBridge.Proofs.DataFile.Keys
import PatternBridge.Proofs.DataFile.Failure
import PatternBridge.Proofs.Json.Distinct
import PatternBridge.Proofs.DataFile.Rounds
import PatternBridge.Proofs.Compile.Narrowing
import PatternBridge.Proofs.Compile.Stop
import PatternBridge.Proofs.OptionsFile.Reuse
import PatternBridge.Proofs.Markup.Verbatim
import PatternBridge.Proofs.Markup.Repeated
import PatternBridge.Proofs.Braces.Lookups
import PatternBridge.Proofs.Braces.OpenRuns
import PatternBridge.Proofs.Markup.ControlMarks
import PatternBridge.Proofs.Markup.EmbeddedTags
import PatternBridge.Proofs.Markup.BlankLines
import PatternBridge.Proofs.OptionsFile.Overlay
import PatternBridge.Proofs.Files.DepthFirst
import PatternBridge.Proofs.Compile.Roots
import PatternBridge.Proofs.Log.Cut
import PatternBridge.Proofs.Markup.Neighbours
import PatternBridge.Proofs.Markup.Dedented
