import StackScript.Session.Settings
import StackScript.Session.Sources

/-!
# Command lines

Reading the arguments of the program: a command, its flags and its paths. An option that takes a
value has it behind an equals sign, directly behind its letter, or in the next argument. Such a
value is looked at only when the next option or path is met, and paths only when the run of them
ends, so that an unknown argument right behind them is what is complained about. Only the script
option takes a next argument that begins with a dash.
-/

namespace StackScript.Session

/-! ## Commands and refusals -/

/-- What the program is asked to do. -/
inductive Request where
  /-- Compile the entries and write their classes. -/
  | compile (flags : Flags) (entries : List String)
  /-- Compile the entries and start their program. -/
  | run (flags : Flags) (entries args : List String)
  /-- Print the trees of files. -/
  | parse (files : List String)
  deriving DecidableEq, Repr

/-- Why arguments are not a request. -/
inductive Refusal where
  | unknownArgument
  | invalidSubcommand
  | missingRequiredArgument
  | invalidValue
  /-- An option that may be given once is given again. -/
  | argumentConflict
  /-- A switch is given a value. -/
  | tooManyValues
  /-- Help is asked for. -/
  | displayHelp
  /-- There is no command at all. -/
  | noSubcommand
  deriving DecidableEq, Repr

/-- The program did what it was asked for: it showed its help. -/
def Refusal.isHelp : Refusal → Bool
  | displayHelp | noSubcommand => true
  | unknownArgument | invalidSubcommand | missingRequiredArgument | invalidValue
  | argumentConflict | tooManyValues => false

/-- The commands. -/
inductive Verb where
  | compile
  | run
  | parse
  deriving DecidableEq, Repr

/-- The command with the given name. -/
def Verb.parse? : String → Option Verb
  | "compile" => some compile
  | "run" => some run
  | "parse" => some parse
  | _ => none

/-! ## Options -/

/-- Options without a value. -/
inductive Switch where
  | help
  | explicitPackages
  | verbose
  | version
  | retainExtensions
  deriving DecidableEq, Repr

/-- Options with a value. -/
inductive Setting where
  | classpath
  | cd
  | dest
  | script
  | backend
  | target
  | loadPath
  | plugin
  deriving DecidableEq, Repr

/-- An option. -/
inductive Opt where
  | switch (switch : Switch)
  | setting (setting : Setting)
  deriving DecidableEq, Repr

/-- The option with the given letter, for commands with flags. -/
def flagLetter? : Char → Option Opt
  | 'c' => some (.setting .classpath)
  | 'd' => some (.setting .dest)
  | 'e' => some (.setting .script)
  | 'b' => some (.setting .backend)
  | 'I' => some (.setting .loadPath)
  | 'p' => some (.setting .plugin)
  | 'V' => some (.switch .verbose)
  | 'v' => some (.switch .version)
  | _ => none

/-- The option with the given name, for commands with flags. -/
def flagName? : String → Option Opt
  | "classpath" => some (.setting .classpath)
  | "cd" => some (.setting .cd)
  | "dest" => some (.setting .dest)
  | "backend" => some (.setting .backend)
  | "target" => some (.setting .target)
  | "load-path" => some (.setting .loadPath)
  | "plugin" => some (.setting .plugin)
  | "explicit-packages" => some (.switch .explicitPackages)
  | "verbose" => some (.switch .verbose)
  | "version" => some (.switch .version)
  | "retain-extensions" => some (.switch .retainExtensions)
  | _ => none

/-- The option of a command with the given letter. -/
def Verb.letter? (verb : Verb) (c : Char) : Option Opt :=
  if c = 'h' then some (.switch .help) else if verb = .parse then none else flagLetter? c

/-- The option of a command with the given name. -/
def Verb.option? (verb : Verb) (name : String) : Option Opt :=
  if name = "help" then some (.switch .help)
  else if verb = .parse then none
  else flagName? name

/-! ## Reading the arguments of a command -/

/-- An argument that was met and is not looked at yet. -/
inductive Pending where
  /-- An option, and its value if that was met too. -/
  | option (setting : Setting) (value : Option String)
  /-- Paths that stand next to each other. -/
  | paths (paths : List String)
  deriving DecidableEq, Repr

/-- What was read of the arguments of a command. -/
structure Scan where
  flags : Flags := {}
  /-- The scripts, each with the number of entries before it. -/
  scripts : List (Nat × String) := []
  /-- The paths, each with the number of entries before it. -/
  paths : List (Nat × String) := []
  /-- The number of scripts and paths that were read. -/
  count : Nat := 0
  /-- The arguments for the program that is started. -/
  args : List String := []
  pending : Option Pending := none
  deriving DecidableEq, Repr

/-- Scripts and paths, each with its place among the entries, in one list: in the order of the
places, each script behind its mark. -/
def orderedEntries (scripts paths : List (Nat × String)) : List String :=
  let marked := scripts.map fun script => (script.1, [inlineMark, script.2])
  let plain := paths.map fun path => (path.1, [path.2])
  ((marked ++ plain).mergeSort fun a b => a.1 ≤ b.1).flatMap Prod.snd

namespace Scan

/-- Sets an option that may be set once, to a value that may not be empty if it is a path. -/
def once (old : Option String) (isPath : Bool) (value : String) :
    Except Refusal (Option String) :=
  if old.isSome then .error .argumentConflict
  else if isPath ∧ value = "" then .error .invalidValue
  else .ok (some value)

/-- Sets an option to a value. -/
def set (scan : Scan) (setting : Setting) (value : String) : Except Refusal Scan :=
  let flags := scan.flags
  match setting with
  | .classpath =>
    .ok { scan with flags := { flags with classpath := flags.classpath ++ [value] } }
  | .plugin => .ok { scan with flags := { flags with plugins := flags.plugins ++ [value] } }
  | .script =>
    .ok { scan with scripts := scan.scripts ++ [(scan.count, value)], count := scan.count + 1 }
  | .loadPath =>
    if value = "" then .error .invalidValue
    else .ok { scan with flags := { flags with loadPath := flags.loadPath ++ [value] } }
  | .cd => do
    let cd ← once flags.cd true value
    pure { scan with flags := { flags with cd } }
  | .dest => do
    let dest ← once flags.dest true value
    pure { scan with flags := { flags with dest } }
  | .target => do
    let target ← once flags.target false value
    pure { scan with flags := { flags with target } }
  | .backend => do
    let backend ← once flags.backend false value
    if (Code.Backend.parse? value).isNone then throw .invalidValue
    pure { scan with flags := { flags with backend } }

/-- Takes paths; files to be printed have names that are not empty. -/
def addPaths (scan : Scan) (verb : Verb) : List String → Except Refusal Scan
  | [] => .ok scan
  | path :: rest =>
    if verb = .parse ∧ path = "" then .error .invalidValue
    else
      { scan with paths := scan.paths ++ [(scan.count, path)], count := scan.count + 1 }.addPaths
        verb rest

/-- The entries that were read. -/
def entries (scan : Scan) : List String := orderedEntries scan.scripts scan.paths

/-- Looks at the argument that is pending. -/
def settle (scan : Scan) (verb : Verb) : Except Refusal Scan :=
  let settled := { scan with pending := none }
  match scan.pending with
  | none => .ok settled
  | some (.option _ none) => .error .invalidValue
  | some (.option setting (some value)) => settled.set setting value
  | some (.paths paths) => settled.addPaths verb paths

/-- Meets a path, which is looked at together with those right before it. -/
def meetPath (scan : Scan) (verb : Verb) (path : String) : Except Refusal Scan :=
  match scan.pending with
  | some (.paths paths) => .ok { scan with pending := some (.paths (paths ++ [path])) }
  | _ => do
    let scan ← scan.settle verb
    pure { scan with pending := some (.paths [path]) }

/-- Turns on a switch, each at most once; asking for help ends the reading. -/
def turnOn (scan : Scan) (switch : Switch) : Except Refusal Scan :=
  let flags := scan.flags
  let first (already : Bool) (flags : Flags) : Except Refusal Scan :=
    if already then .error .argumentConflict else .ok { scan with flags }
  match switch with
  | .help => .error .displayHelp
  | .explicitPackages => first flags.explicitPackages { flags with explicitPackages := true }
  | .verbose => first flags.verbose { flags with verbose := true }
  | .version => first flags.version { flags with version := true }
  | .retainExtensions => first flags.retainExtensions { flags with retainExtensions := true }

/-- Meets a switch. -/
def meetSwitch (scan : Scan) (verb : Verb) (switch : Switch) : Except Refusal Scan := do
  let scan ← scan.settle verb
  scan.turnOn switch

/-- Meets an option with its value attached to it, or waits for the value. -/
def meetSetting (scan : Scan) (verb : Verb) (setting : Setting) (value : Option String) :
    Except Refusal Scan := do
  let scan ← scan.settle verb
  match value with
  | some value => scan.set setting value
  | none => pure { scan with pending := some (.option setting none) }

/-- The value that stands behind a letter; an equals sign before it does not count. -/
def attached : List Char → Option String
  | [] => none
  | '=' :: value => some (String.ofList value)
  | value => some (String.ofList value)

/-- Meets letters behind one dash: switches, the last of which may be an option with its value. -/
def meetLetters (scan : Scan) (verb : Verb) : List Char → Except Refusal Scan
  | [] => .ok scan
  | c :: rest =>
    match verb.letter? c with
    | none => .error .unknownArgument
    | some (.switch switch) => do
      let scan ← scan.meetSwitch verb switch
      scan.meetLetters verb rest
    | some (.setting setting) => scan.meetSetting verb setting (attached rest)

/-- Meets a name behind two dashes, with the value behind an equals sign if there is one. -/
def meetName (scan : Scan) (verb : Verb) (text : List Char) : Except Refusal Scan :=
  let name := String.ofList (text.takeWhile (· ≠ '='))
  let value : Option String :=
    match text.dropWhile (· ≠ '=') with
    | [] => none
    | _ :: value => some (String.ofList value)
  match verb.option? name, value with
  | none, _ => .error .unknownArgument
  | some (.switch _), some _ => .error .tooManyValues
  | some (.switch switch), none => scan.meetSwitch verb switch
  | some (.setting setting), value => scan.meetSetting verb setting value

/-- Meets an argument that is no option: the value that is waited for, or a path. -/
def meetPlain (scan : Scan) (verb : Verb) (arg : String) : Except Refusal Scan :=
  match scan.pending with
  | some (.option setting none) =>
    .ok { scan with pending := some (.option setting (some arg)) }
  | _ => scan.meetPath verb arg

/-- A script is waited for, which may begin with a dash. -/
def wantsScript (scan : Scan) : Bool := scan.pending = some (.option .script none)

/-- Meets an argument behind the double dash: an argument for the program that is started, or else
a path. -/
def meetTrailing (scan : Scan) (verb : Verb) (arg : String) : Except Refusal Scan :=
  if verb = .run then do
    let scan ← scan.settle verb
    pure { scan with args := scan.args ++ [arg] }
  else scan.meetPath verb arg

/-- Meets the arguments behind the double dash. -/
def meetAllTrailing (scan : Scan) (verb : Verb) : List String → Except Refusal Scan
  | [] => .ok scan
  | arg :: rest => do
    let scan ← scan.meetTrailing verb arg
    scan.meetAllTrailing verb rest

/-- Meets the arguments of a command. -/
def meetAll (scan : Scan) (verb : Verb) : List String → Except Refusal Scan
  | [] => .ok scan
  | arg :: rest =>
    if scan.wantsScript then do
      let scan ← scan.meetPlain verb arg
      scan.meetAll verb rest
    else if arg = "--" then scan.meetAllTrailing verb rest
    else do
      let scan ← match arg.toList with
        | '-' :: '-' :: text => scan.meetName verb text
        | '-' :: c :: letters => scan.meetLetters verb (c :: letters)
        | _ => scan.meetPlain verb arg
      scan.meetAll verb rest

/-- The request that a command with these arguments makes. -/
def request (scan : Scan) (verb : Verb) : Except Refusal Request :=
  match verb with
  | .compile => .ok (.compile scan.flags scan.entries)
  | .run => .ok (.run scan.flags scan.entries scan.args)
  | .parse =>
    if scan.paths.isEmpty then .error .missingRequiredArgument
    else .ok (.parse (scan.paths.map Prod.snd))

end Scan

/-- Reads the arguments of a command. -/
def readVerb (verb : Verb) (args : List String) : Except Refusal Request := do
  let scan ← ({} : Scan).meetAll verb args
  let scan ← scan.settle verb
  scan.request verb

/-! ## Reading whole command lines -/

/-- The word is a command, help on commands included. -/
def isCommand (word : String) : Bool := word = "help" || (Verb.parse? word).isSome

/-- What is said to a request for help on the given words. -/
def readHelp : List String → Refusal
  | [] => .displayHelp
  | [word] => if isCommand word then .displayHelp else .invalidSubcommand
  | _ :: _ :: _ => .invalidSubcommand

/-- Reads a command line, the name of the program not included. -/
def readArguments : List String → Except Refusal Request
  | [] => .error .noSubcommand
  | first :: rest =>
    if first = "help" then .error (readHelp rest)
    else
      match Verb.parse? first with
      | some verb => readVerb verb rest
      | none =>
        if first = "--" then
          match rest with
          | [] => .error .noSubcommand
          | word :: _ => .error (if isCommand word then .unknownArgument else .invalidSubcommand)
        else if first = "--help" then .error .displayHelp
        else
          match first.toList with
          | '-' :: '-' :: text =>
            .error (if text.takeWhile (· ≠ '=') = "help".toList then .tooManyValues
              else .unknownArgument)
          | '-' :: 'h' :: _ => .error .displayHelp
          | '-' :: _ :: _ => .error .unknownArgument
          | _ => .error .invalidSubcommand

end StackScript.Session
