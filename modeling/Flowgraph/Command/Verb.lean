import Flowgraph.Command.Flag
import Flowgraph.Text.Distance

/-!
# Commands

The commands form a tree of names. Which command is meant is found before its flags are read: the
first argument that is neither a flag nor, by its looks, the value of one names the next command.
-/

namespace Flowgraph.Command

/-- A command, or a group of them. -/
inductive Verb where
  | root
  | run
  | check
  | order
  | cache
  | cacheClean
  | cacheDir
  | config
  | configInit
  | configShow
  | version
  | help
  | completion
deriving DecidableEq

/-- How many arguments a command takes. -/
inductive Arity where
  | any
  | none
  | atLeastOne
  | one

/-- Arguments in the wrong number. -/
inductive ArityError where
  | unexpected (argument path : String)
  | tooFew
  | notOne (count : Nat)
deriving DecidableEq

def ArityError.message : ArityError → String
  | .unexpected s path => s!"unknown command {Text.quoted s} for {Text.quoted path}"
  | .tooFew => "requires at least 1 arg(s), only received 0"
  | .notOne n => s!"accepts 1 arg(s), received {n}"

namespace Verb

/-- The names below a command. -/
def children : Verb → List (String × Verb)
  | .root =>
    [("run", .run), ("check", .check), ("order", .order), ("cache", .cache), ("config", .config),
     ("version", .version), ("help", .help), ("completion", .completion)]
  | .cache => [("clean", .cacheClean), ("dir", .cacheDir)]
  | .config => [("init", .configInit), ("show", .configShow)]
  | _ => []

/-- The names on the way to a command. -/
def path : Verb → String
  | .root => "cfgprep"
  | .run => "cfgprep run"
  | .check => "cfgprep check"
  | .order => "cfgprep order"
  | .cache => "cfgprep cache"
  | .cacheClean => "cfgprep cache clean"
  | .cacheDir => "cfgprep cache dir"
  | .config => "cfgprep config"
  | .configInit => "cfgprep config init"
  | .configShow => "cfgprep config show"
  | .version => "cfgprep version"
  | .help => "cfgprep help"
  | .completion => "cfgprep completion"

/-- Does a command only hold others? -/
def isGroup : Verb → Bool
  | .root | .cache | .config | .completion => true
  | _ => false

/-- How many arguments a command takes. -/
def arity : Verb → Arity
  | .run | .check => .atLeastOne
  | .order => .one
  | .cacheClean | .cacheDir | .configInit | .configShow | .version => .none
  | .root | .cache | .config | .help | .completion => .any

/-- The flags of a command, but for those that ask about the program. -/
def knownFlags : Verb → List Flag
  | .run => runFlags ++ sharedFlags
  | .configInit => configInitFlags ++ sharedFlags
  | .version => versionFlags ++ sharedFlags
  | _ => sharedFlags

def flags (v : Verb) : List Flag :=
  v.knownFlags ++ (if v = .root then [helpFlag, versionFlag] else [helpFlag])

def checkArity (v : Verb) (arguments : List String) : Except ArityError Unit :=
  match v.arity, arguments with
  | .none, s :: _ => .error (.unexpected s v.path)
  | .atLeastOne, [] => .error .tooFew
  | .one, [] => .error (.notOne 0)
  | .one, _ :: s :: rest => .error (.notOne (s :: rest).length.succ)
  | _, _ => .ok ()

/-! ## Finding a command -/

/-- Does an argument look like a flag whose value comes next? -/
def awaitsValue (known : List Flag) (s : String) : Bool :=
  match s.toList with
  | '-' :: '-' :: body =>
    !body.contains '=' && !known.any fun f ↦ f.name = String.ofList body && !f.takesValue
  | '-' :: c :: rest => rest.isEmpty && c ≠ '=' && c.utf8Size = 1
  | _ => false

/-- The arguments that are neither flags nor values of flags. A flag that awaits its value ends the
search if no more than its value follows. -/
def names (known : List Flag) : List String → List String
  | [] => []
  | s :: rest =>
    if s = "--" then []
    else if awaitsValue known s then
      match rest with
      | _ :: more => if more.isEmpty then [] else names known more
      | [] => []
    else if s = "" || s.startsWith "-" then names known rest
    else s :: names known rest

/-- The arguments without the first one that is a given name. -/
def dropName (known : List Flag) (name : String) : List String → List String
  | [] => []
  | s :: rest =>
    if s = "--" then s :: rest
    else if awaitsValue known s then
      match rest with
      | value :: more => s :: value :: dropName known name more
      | [] => [s]
    else if s = name then rest
    else s :: dropName known name rest

/-- The command one name further on, if there is one, with the other arguments. -/
def descend (v : Verb) (arguments : List String) : Verb × List String :=
  match names v.knownFlags arguments with
  | [] => (v, arguments)
  | name :: _ =>
    match v.children.lookup name with
    | some child => (child, dropName v.knownFlags name arguments)
    | none => (v, arguments)

/-- The command that arguments name, with the other arguments. Names are at most two deep. -/
def find (arguments : List String) : Verb × List String :=
  match descend .root arguments with
  | (.root, rest) => (.root, rest)
  | (v, rest) => v.descend rest

/-- The names that are close to an unknown one: up to two edits away, or longer. -/
def suggestions (name : String) : List String :=
  let bytes (s : String) : List UInt8 := (Text.lower s).toUTF8.toList
  ((Verb.root.children.map Prod.fst).filter (· ≠ "help")).filter fun s ↦
    Text.editDistance (bytes name) (bytes s) ≤ 2 || (bytes name).isPrefixOf (bytes s)

end Verb

end Flowgraph.Command
