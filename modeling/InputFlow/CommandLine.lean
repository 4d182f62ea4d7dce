import InputFlow.Config.Settings
import InputFlow.Report.Options
import InputFlow.Source.Parse

namespace InputFlow

inductive Switch where
  | sequential | printIr | printRpo | printDeps | printEffects | printNondet | printCutVertices
deriving DecidableEq, Repr

def Switch.name : Switch → String
  | sequential => "sequential"
  | printIr => "print-ir"
  | printRpo => "print-rpo"
  | printDeps => "print-deps"
  | printEffects => "print-effects"
  | printNondet => "print-nondet"
  | printCutVertices => "print-cut-vertices"

def Switch.ofName? (text : String) : Option Switch :=
  [sequential, printIr, printRpo, printDeps, printEffects, printNondet, printCutVertices].find?
    fun s => s.name == text

structure CommandLine where
  file? : Option String := none
  config? : Option String := none
  entry? : Option String := none
  scope? : Option Scope := none
  inputFunctions : List String := []
  inputGlobals : List String := []
  switches : List Switch := []
  verbosity : Nat := 0

/-- What becomes of a command line: help is asked for, or a file is analysed. -/
inductive Request where
  | help
  | analyze (file : String) (command : CommandLine)

namespace CommandLine

variable (c : CommandLine)

def once {α : Type} (given : Option α) (set : CommandLine) : Option CommandLine :=
  if given.isSome then none else some set

/-- Takes a file; there is one, and it has a name. -/
def withFile? (file : String) : Option CommandLine :=
  if file.isEmpty then none else once c.file? { c with file? := some file }

def withSwitch? (s : Switch) : Option CommandLine :=
  if s ∈ c.switches then none else some { c with switches := c.switches ++ [s] }

def withValue? (name value : String) : Option CommandLine :=
  match name with
  | "config" => if value.isEmpty then none else once c.config? { c with config? := some value }
  | "entry" => once c.entry? { c with entry? := some value }
  | "scope" => (Scope.ofName? value).bind fun scope => once c.scope? { c with scope? := some scope }
  | "input-fn" => some { c with inputFunctions := c.inputFunctions ++ [value] }
  | "input-global" => some { c with inputGlobals := c.inputGlobals ++ [value] }
  | _ => none

def takesValue (name : String) : Bool :=
  ["config", "entry", "scope", "input-fn", "input-global"].contains name

/-- A word that cannot be the value of an option before it. -/
def looksLikeOption (word : String) : Bool :=
  word.toList.head? == some '-' && word != "-"

def request? : Option Request :=
  c.file?.map (.analyze · c)

/-- Files behind the mark that ends the options. -/
def readFiles (c : CommandLine) : List String → Option Request
  | [] => c.request?
  | file :: rest => (c.withFile? file).bind fun c => readFiles c rest

/-- The name and the value of a long option; the value may be missing. -/
def splitOption (option : List Char) : String × Option String :=
  match option.span (· != '=') with
  | (name, _ :: value) => (String.ofList name, some (String.ofList value))
  | (name, []) => (String.ofList name, none)

/-- What a group of short options leads to: `v` raises the verbosity, and `h` asks for help. -/
def shortOptions (c : CommandLine) : List Char → Option (CommandLine ⊕ Request)
  | [] => some (.inl c)
  | 'v' :: rest => shortOptions { c with verbosity := c.verbosity + 1 } rest
  | 'h' :: _ => some (.inr .help)
  | _ => none

/-- Reads the words of a command line; a request that cannot be understood is none. -/
def read (c : CommandLine) : List String → Option Request
  | [] => c.request?
  | word :: rest =>
    match word.toList with
    | ['-', '-'] => readFiles c rest
    | '-' :: '-' :: option =>
      match splitOption option with
      | ("help", none) => some .help
      | ("verbose", none) => read { c with verbosity := c.verbosity + 1 } rest
      | (name, some value) => (c.withValue? name value).bind fun c => read c rest
      | (name, none) =>
        if takesValue name then
          match rest with
          | [] => none
          | value :: rest =>
            if looksLikeOption value then none
            else (c.withValue? name value).bind fun c => read c rest
        else ((Switch.ofName? name).bind c.withSwitch?).bind fun c => read c rest
    | '-' :: option :: options =>
      match shortOptions c (option :: options) with
      | some (.inl c) => read c rest
      | some (.inr request) => some request
      | none => none
    | _ => (c.withFile? word).bind fun c => read c rest

def ofWords? (words : List String) : Option Request :=
  read {} words

/-- The options in the order the help shows them, each with what it is for. -/
def optionHelp : List (String × String) :=
  [("    --config <CONFIG>", "TOML analysis configuration; flags below override it"),
    ("    --entry <ENTRY>", "Entry procedure whose parameters are inputs"),
    ("    --scope <SCOPE>", "Which parameters seed the input set " ++
      "[possible values: entry-arguments, all-arguments, interprocedural]"),
    ("    --input-fn <INPUT_FUNCTIONS>",
      "Callee whose result and pointer arguments are input (repeatable)"),
    ("    --input-global <INPUT_GLOBALS>", "Global whose content is input (repeatable)"),
    ("    --sequential", "Analyse procedures one after another"),
    ("    --print-ir", ""),
    ("    --print-rpo", ""),
    ("    --print-deps", "Per-instruction dependency facts (the default report)"),
    ("    --print-effects", "Out-argument, call argument and return facts"),
    ("    --print-nondet", "Blocks reached only through input-dependent decisions"),
    ("    --print-cut-vertices", ""),
    ("-v, --verbose...", "Increase log verbosity (-v info, -vv debug, -vvv trace)"),
    ("-h, --help", "Print help")]

def optionWidth : Nat :=
  (optionHelp.map fun entry => entry.1.length).foldl max 0

def helpLine (option purpose : String) : String :=
  "  " ++ option ++ String.ofList (List.replicate (optionWidth - option.length) ' ') ++ "  " ++ purpose

def help : String :=
  textOfLines <|
    ["Input-dependency analysis for SSA control-flow graphs", "",
      "Usage: inputdep [OPTIONS] <FILE>", "", "Arguments:", "  <FILE>  TIR file to analyse", "",
      "Options:"] ++
    optionHelp.map fun entry => helpLine entry.1 entry.2

def has (s : Switch) : Bool :=
  c.switches.contains s

/-- The settings of a command line on top of those of its settings file. -/
def overrides (s : Settings) : Settings :=
  { s with
    entry := c.entry?.getD s.entry
    scope := c.scope?.getD s.scope
    inputFunctions := s.inputFunctions ++ c.inputFunctions
    inputGlobals := s.inputGlobals ++ c.inputGlobals
    parallel := s.parallel && !c.has .sequential }

/-- The reports asked for; dependencies are reported where nothing is asked for. -/
def reportOptions (s : Settings) : ReportOptions where
  listing := c.has .printIr
  order := c.has .printRpo
  dependencies := c.has .printDeps || c.switches.all (· == .sequential)
  effects := c.has .printEffects
  nonDeterminism := c.has .printNondet
  cutVertices := c.has .printCutVertices
  settings := c.overrides s

abbrev FileReader (m : Type → Type) := String → m (Except FileProblem String)

def fileSettings {m : Type → Type} [Monad m] (readFile : FileReader m) :
    m (Except SettingsError Settings) :=
  match c.config? with
  | none => return .ok {}
  | some path => do
    match ← readFile path with
    | .error problem => return .error (.unreadable path problem)
    | .ok text => return Settings.ofText text.toList

/-- Writes the reports on a file, or tells why there are none. The file is read before the settings. -/
def run {m : Type → Type} [Monad m] (readFile : FileReader m) (file : String) :
    m (Except String String) := do
  match ← readFile file with
  | .error problem => return .error s!"failed to read {file}: {problem.message}"
  | .ok text =>
    match Source.parse text.toList with
    | .error failure => return .error failure.message
    | .ok p =>
      match ← c.fileSettings readFile with
      | .error error => return .error error.message
      | .ok s =>
        return (p.render (c.reportOptions s)).mapError (·.message p.naming)

end CommandLine

end InputFlow
