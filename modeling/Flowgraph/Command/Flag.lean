import Flowgraph.Command.Options

/-!
# Flags

A flag is given as `--name=value`, as `--name value`, or, if it is a truth value, as `--name` alone.
Letters of one-letter flags can be joined behind one hyphen. Flags and arguments may be mixed; two
hyphens end the flags.

## One table

A command has its own flags beside those that all commands share. All of them are entries of one
kind: a name, perhaps a letter, and a function that reads a text into the options. A new flag is a
new entry, and how values are read and how errors are worded stays the same.
-/

namespace Flowgraph.Command

/-- A flag and what it sets. -/
structure Flag where
  name : String
  letter? : Option Char
  /-- Does the flag need a value? -/
  takesValue : Bool
  set : Options → String → Except ValueError Options

namespace Flag

/-- A truth value. -/
def boolean (name : String) (set : Options → Bool → Options) : Flag :=
  ⟨name, none, false, fun o s ↦ do return set o (← readBoolean s)⟩

def text (name : String) (set : Options → String → Options) : Flag :=
  ⟨name, none, true, fun o s ↦ .ok (set o s)⟩

def integer (name : String) (set : Options → Int → Options) : Flag :=
  ⟨name, none, true, fun o s ↦ do return set o (← readInteger s)⟩

def duration (name : String) (set : Options → Int → Options) : Flag :=
  ⟨name, none, true, fun o s ↦ do return set o (← readDuration s)⟩

def list (name : String) (set : Options → List String → Options) : Flag :=
  ⟨name, none, true, fun o s ↦ do return set o (← readList s)⟩

def switch (name : String) (set : Options → Switch → Options) : Flag :=
  ⟨name, none, true, fun o s ↦ do return set o (← readSwitch s)⟩

/-- The flag with a letter beside its name. -/
def withLetter (f : Flag) (c : Char) : Flag := { f with letter? := some c }

/-- The flag as messages show it. -/
def title (f : Flag) : String :=
  match f.letter? with
  | some c => s!"-{c}, --{f.name}"
  | none => s!"--{f.name}"

end Flag

/-! ## The flags -/

def helpFlag : Flag := (Flag.boolean "help" fun o b ↦ { o with help := b }).withLetter 'h'

def versionFlag : Flag := (Flag.boolean "version" fun o b ↦ { o with version := b }).withLetter 'v'

/-- The flags of every command. -/
def sharedFlags : List Flag :=
  [.switch "color" fun o s ↦ { o with color := s },
   .boolean "quiet" fun o b ↦ { o with quiet := b },
   .boolean "timings" fun o b ↦ { o with timings := b },
   .text "config" fun o s ↦ { o with config := s },
   .text "trace" fun o s ↦ { o with trace.path := s },
   .text "trace-level" fun o s ↦ { o with trace.level := s },
   .text "trace-mode" fun o s ↦ { o with trace.mode := s },
   .text "trace-format" fun o s ↦ { o with trace.format := s },
   .integer "trace-ring-size" fun o n ↦ { o with trace.ringSize := n },
   .duration "trace-heartbeat" fun o n ↦ { o with trace.heartbeat := n },
   .text "cpu-profile" fun o s ↦ { o with profile.cpu := s },
   .text "mem-profile" fun o s ↦ { o with profile.heap := s },
   .text "runtime-trace" fun o s ↦ { o with profile.execution := s }]

/-- The flags of a run. A list that is given several times is joined. -/
def runFlags : List Flag :=
  [.integer "jobs" fun o n ↦ { o with overrides.jobs? := some n },
   .list "emit" fun o l ↦
     { o with overrides.emit? := some (o.overrides.emit?.getD [] ++ l) },
   .text "out-dir" fun o s ↦ { o with overrides.directory? := some s },
   .text "format" fun o s ↦ { o with overrides.format? := some s },
   .boolean "no-cache" fun o b ↦ { o with overrides.noCache? := some b },
   .boolean "forward-phis" fun o b ↦ { o with overrides.forwardPhis? := some b },
   .boolean "no-dce" fun o b ↦ { o with overrides.noElimination? := some b },
   .switch "ui" fun o s ↦ { o with progress := s }]

def configInitFlags : List Flag := [.boolean "force" fun o b ↦ { o with force := b }]

def versionFlags : List Flag :=
  [.text "format" fun o s ↦ { o with versionFormat := s },
   .boolean "full" fun o b ↦ { o with full := b }]

/-! ## Reading a command line -/

/-- Why a command line is not understood. -/
inductive FlagError where
  | badSyntax (argument : String)
  | unknown (name : String)
  | unknownLetter (letter : Char) (group : String)
  | missingValue (name : String)
  | badValue (value title : String) (cause : ValueError)
deriving DecidableEq

def quotedLetter (c : Char) : String :=
  if c = '\'' then "'\\''" else if c = '"' then "'\"'" else s!"'{Text.quotedChar c}'"

def FlagError.message : FlagError → String
  | .badSyntax s => s!"bad flag syntax: {s}"
  | .unknown name => s!"unknown flag: --{name}"
  | .unknownLetter c group => s!"unknown shorthand flag: {quotedLetter c} in -{group}"
  | .missingValue name => s!"flag needs an argument: --{name}"
  | .badValue v title cause =>
    s!"invalid argument {Text.quoted v} for {Text.quoted title} flag: {cause.message}"

def Flag.apply (f : Flag) (o : Options) (value : String) : Except FlagError Options :=
  (f.set o value).mapError (.badValue value f.title)

/-- The letter that a message shows for an unknown one: letters outside ASCII look the same. -/
def shownLetter (c : Char) : Char := if c.toNat < 0x80 then c else 'Ã'

/-- Sets the flags of joined letters. An equals sign after a letter gives its value, if it has any.
Letters that start with `test.` are left to others. -/
def applyLetters (flags : List Flag) (o : Options) : List Char → Except FlagError Options
  | [] => .ok o
  | c :: rest =>
    if "test.".toList.isPrefixOf (c :: rest) then .ok o
    else
      match flags.find? (·.letter? = some c) with
      | none => .error (.unknownLetter (shownLetter c) (String.ofList (c :: rest)))
      | some f =>
        if rest.head? = some '=' && 1 < rest.length then f.apply o (String.ofList rest.tail)
        else do applyLetters flags (← f.apply o "true") rest

/-- The options and the arguments of a command line. A flag that waits for its value takes the next
argument, whatever it is. -/
def parseFlags (flags : List Flag) :
    Option Flag → Options → List String → Except FlagError (Options × List String)
  | some f, _, [] => .error (.missingValue f.name)
  | some f, o, v :: rest => do parseFlags flags none (← f.apply o v) rest
  | none, o, [] => .ok (o, [])
  | none, o, s :: rest =>
    match s.toList with
    | ['-', '-'] => .ok (o, rest)
    | '-' :: '-' :: body =>
      let name := String.ofList (body.takeWhile (· ≠ '='))
      if body.head? = some '-' || name.isEmpty then .error (.badSyntax s)
      else
        match flags.find? (·.name = name), body.dropWhile (· ≠ '=') with
        | none, _ => .error (.unknown name)
        | some f, _ :: value => do parseFlags flags none (← f.apply o (String.ofList value)) rest
        | some f, [] =>
          if f.takesValue then parseFlags flags (some f) o rest
          else do parseFlags flags none (← f.apply o "true") rest
    | '-' :: c :: letters => do parseFlags flags none (← applyLetters flags o (c :: letters)) rest
    | _ => do
      let (o, arguments) ← parseFlags flags none o rest
      return (o, s :: arguments)

end Flowgraph.Command
