import PatternBridge.Files.Path

/-!
Command lines: options, subcommands and their operands. An option's value may be joined to it or
follow as the next argument; it is checked once the argument after it is read.
-/

namespace PatternBridge

inductive Command where
  | encode (dialect : Text) (ext : Option Text)
  | compile
  deriving DecidableEq

structure Invocation where
  root : Option Path
  config : Path
  command : Command
  deriving DecidableEq

namespace Invocation

inductive Stop where
  /-- A value is missing, or empty where it must not be. -/
  | invalidValue
  /-- A value is joined to an option that takes none. -/
  | tooManyValues
  | unknownArgument
  | invalidSubcommand
  | conflict
  | missingSubcommand
  | help
  /-- Nothing is given at all. -/
  | helpForNothing
  | version
  deriving DecidableEq

inductive Setting where
  | root
  | config
  | dialect
  | ext
  deriving DecidableEq

def Setting.refusesEmpty : Setting → Bool
  | root | config => true
  | dialect | ext => false

inductive Display where
  | help
  | version
  deriving DecidableEq

def Display.stop : Display → Stop
  | help => .help
  | version => .version

inductive Opt where
  | setting (s : Setting)
  | display (d : Display)
  deriving DecidableEq

structure Grammar where
  options : List (Char × Text × Opt)
  operands : List Setting
  subcommands : List Text

namespace Grammar

def ofLetter? (g : Grammar) (c : Char) : Option Opt :=
  (g.options.find? fun o => o.1 == c).map fun o => o.2.2

def ofWord? (g : Grammar) (word : Text) : Option Opt :=
  (g.options.find? fun o => o.2.1 == word).map fun o => o.2.2

end Grammar

def grammar : Grammar where
  options := [('r', "root", .setting .root), ('C', "config", .setting .config),
    ('h', "help", .display .help), ('V', "version", .display .version)]
  operands := []
  subcommands := ["encode", "compile", "help"]

def encodeGrammar : Grammar where
  options := [('e', "ext", .setting .ext), ('h', "help", .display .help)]
  operands := [.dialect]
  subcommands := []

def compileGrammar : Grammar where
  options := [('h', "help", .display .help)]
  operands := []
  subcommands := []

structure Progress where
  given : List (Setting × Text) := []
  /-- The latest setting; its value is missing until the next argument is read. -/
  pending : Option (Setting × Option Text) := none
  operands : List Setting

namespace Progress

def settle (p : Progress) : Except Stop Progress :=
  match p.pending with
  | none => .ok p
  | some (_, none) => .error .invalidValue
  | some (s, some v) =>
    if p.given.any fun g => g.1 == s then .error .conflict
    else if v.isEmpty && s.refusesEmpty then .error .invalidValue
    else .ok { p with given := p.given ++ [(s, v)], pending := none }

def await (p : Progress) (s : Setting) : Except Stop Progress := do
  return { ← p.settle with pending := some (s, none) }

def take (p : Progress) (s : Setting) (v : Text) : Except Stop Progress := do
  return { ← p.settle with pending := some (s, some v) }

/-- A setting with its value, checked at once. -/
def takeJoined (p : Progress) (s : Setting) (v : Text) : Except Stop Progress := do
  (← p.take s v).settle

def value? (p : Progress) (s : Setting) : Option Text := p.given.lookup s

end Progress

def readWord (g : Grammar) (p : Progress) (arg : Text) : Except Stop Progress :=
  let (word, value?) :=
    match Text.cut? "=" arg with
    | some (word, value) => (word, some value)
    | none => (arg, none)
  match g.ofWord? word, value? with
  | some (.setting s), none => p.await s
  | some (.setting s), some v => p.takeJoined s v
  | some (.display d), none => p.settle.bind fun _ => .error d.stop
  | some (.display _), some _ => .error .tooManyValues
  | none, _ => .error .unknownArgument

/-- An option in its short form, without its hyphen; what follows the letter is its value. -/
def readLetter (g : Grammar) (p : Progress) (letter : Char) (rest : Text) :
    Except Stop Progress :=
  match g.ofLetter? letter with
  | some (.setting s) =>
    match rest with
    | [] => p.await s
    | '=' :: v => p.takeJoined s v
    | v => p.takeJoined s v
  | some (.display d) => p.settle.bind fun _ => .error d.stop
  | none => .error .unknownArgument

def stray (g : Grammar) (afterMark : Bool) (arg : Text) : Stop :=
  if afterMark && g.subcommands.contains arg then .unknownArgument
  else if g.subcommands.isEmpty then .unknownArgument
  else .invalidSubcommand

def readOperand (g : Grammar) (p : Progress) (afterMark : Bool) (arg : Text) :
    Except Stop Progress :=
  match p.operands with
  | s :: operands => do return { ← p.take s arg with operands }
  | [] => .error (stray g afterMark arg)

/-- An argument before the mark that ends the options, and not a subcommand's name. -/
def readArgument (g : Grammar) (p : Progress) (arg : Text) : Except Stop Progress :=
  match arg, p.pending with
  | '-' :: '-' :: word, _ => readWord g p word
  | '-' :: letter :: rest, _ => readLetter g p letter rest
  | _, some (s, none) => .ok { p with pending := some (s, some arg) }
  | _, _ => readOperand g p false arg

def endOfOptions : Text := "--"

/-- Reads up to a subcommand's name, and gives the name and the arguments after it. -/
def readArguments (g : Grammar) (p : Progress) :
    List Text → Except Stop (Progress × Option (Text × List Text))
  | [] => .ok (p, none)
  | arg :: args => do
    let awaiting := p.pending.any fun s => s.2.isNone
    if !awaiting && g.subcommands.contains arg then return (p, some (arg, args))
    else if arg == endOfOptions then
      return (← args.foldlM (fun p arg => readOperand g p true arg) p, none)
    else readArguments g (← readArgument g p arg) args

def readAll (g : Grammar) (args : List Text) : Except Stop Progress := do
  (← readArguments g { operands := g.operands } args).1.settle

def defaultDialect : Text := "hbs"

/-- The subcommand of that name with its arguments. The arguments of `help` name a command. -/
def readCommand (name : Text) (args : List Text) : Except Stop Command :=
  if name == "encode".toList then do
    let p ← readAll encodeGrammar args
    return .encode ((p.value? .dialect).getD defaultDialect) (p.value? .ext)
  else if name == "compile".toList then do
    let _ ← readAll compileGrammar args
    return .compile
  else
    match args with
    | [] => .error .help
    | [topic] => .error (if grammar.subcommands.contains topic then .help else .invalidSubcommand)
    | _ => .error .invalidSubcommand

def defaultConfig : Text := "tpl-compile.toml"

def parse (args : List Text) : Except Stop Invocation := do
  let (p, rest) ← readArguments grammar { operands := grammar.operands } args
  match rest with
  | some (name, args) =>
    let command ← readCommand name args
    let p ← p.settle
    return {
      root := (p.value? .root).map Path.mk
      config := ⟨(p.value? .config).getD defaultConfig⟩
      command }
  | none =>
    let p ← p.settle
    .error (if p.given.isEmpty then .helpForNothing else .missingSubcommand)

end Invocation

end PatternBridge
