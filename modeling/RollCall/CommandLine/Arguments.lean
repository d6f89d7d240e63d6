import RollCall.Check
import RollCall.Entrant

/-!
# Command lines

The options of a launch check. A value stands in the next argument, after an equals sign, or, for
a short option, right behind its letter. A value in an argument of its own does not begin with a
minus, unless it is nothing else. Arguments are read from left to right; a request for help counts
as soon as it is met, and whatever cannot be read before it counts first.
-/

namespace RollCall.CommandLine

/-- The options that take a value. -/
inductive Opt
  | config
  | expect
  | spawn
  | timeout
  | interval
  | mode
  deriving DecidableEq

inductive Meaning
  | valued (o : Opt)
  | verbose
  | help

structure Arguments where
  config : Option String := none
  expect : List String := []
  spawn : List Entrant := []
  timeout : Option Binary64 := none
  interval : Option Binary64 := none
  mode : Option Mode := none
  verbose : Bool := false

inductive Invocation
  | help
  | run (arguments : Arguments)

namespace Opt

def ofName? (name : String) : Option Meaning :=
  match name with
  | "config" => some (.valued .config)
  | "expect" => some (.valued .expect)
  | "spawn" => some (.valued .spawn)
  | "timeout" => some (.valued .timeout)
  | "poll-interval" => some (.valued .interval)
  | "mode" => some (.valued .mode)
  | "verbose" => some .verbose
  | "help" => some .help
  | _ => none

def ofLetter? (c : Char) : Option Meaning :=
  match c with
  | 'c' => some (.valued .config)
  | 'e' => some (.valued .expect)
  | 's' => some (.valued .spawn)
  | 't' => some (.valued .timeout)
  | 'h' => some .help
  | _ => none

def setOnce {α : Type} (old new : Option α) : Option (Option α) :=
  match old, new with
  | none, some x => some (some x)
  | _, _ => none

def mode? (name : String) : Option Mode :=
  match name with
  | "plain" => some .plain
  | "scoped" => some .scoped
  | _ => none

/-- The arguments with one more value, if it can be read and the option may be given again. A path
is not empty. -/
def assign (o : Opt) (value : String) (a : Arguments) : Option Arguments :=
  match o with
  | config =>
    (setOnce a.config (if value.isEmpty then none else some value)).map ({ a with config := · })
  | expect => some { a with expect := a.expect ++ [value] }
  | spawn => (Entrant.ofText value).toOption.map fun e => { a with spawn := a.spawn ++ [e] }
  | timeout => (setOnce a.timeout (Binary64.ofText? value.toList)).map ({ a with timeout := · })
  | interval => (setOnce a.interval (Binary64.ofText? value.toList)).map ({ a with interval := · })
  | mode => (setOnce a.mode (mode? value)).map ({ a with mode := · })

end Opt

inductive Word
  | endOfOptions
  | long (name : String) (value : Option String)
  | short (letter : Char) (rest : List Char)
  | plain (text : String)

namespace Word

def ofText (text : String) : Word :=
  match text.toList with
  | ['-', '-'] => .endOfOptions
  | '-' :: '-' :: rest =>
    let name := String.ofList (rest.takeWhile (· ≠ '='))
    match rest.dropWhile (· ≠ '=') with
    | [] => .long name none
    | _ :: value => .long name (some (String.ofList value))
  | '-' :: letter :: rest => .short letter rest
  | _ => .plain text

end Word

/-- The value that is attached to a short option; an equals sign in front is left out. -/
def attached? : List Char → Option String
  | [] => none
  | '=' :: rest => some (String.ofList rest)
  | rest => some (String.ofList rest)

/-- Reads the arguments from left to right; `waiting` is an option whose value comes next. There is
no result for arguments that cannot be read. -/
def readFrom (waiting : Option Opt) (a : Arguments) : List String → Option Invocation
  | [] => if waiting.isNone then some (.run a) else none
  | text :: rest =>
    match waiting, Word.ofText text with
    | some o, .plain value => (o.assign value a).bind fun a => readFrom none a rest
    | some _, _ => none
    | none, .plain _ => none
    | none, .endOfOptions => if rest.isEmpty then some (.run a) else none
    | none, .long name value =>
      match Opt.ofName? name, value with
      | some (.valued o), some value => (o.assign value a).bind fun a => readFrom none a rest
      | some (.valued o), none => readFrom (some o) a rest
      | some .verbose, none =>
        if a.verbose then none else readFrom none { a with verbose := true } rest
      | some .help, none => some .help
      | _, _ => none
    | none, .short letter more =>
      match Opt.ofLetter? letter, attached? more with
      | some (.valued o), some value => (o.assign value a).bind fun a => readFrom none a rest
      | some (.valued o), none => readFrom (some o) a rest
      | some .help, _ => some .help
      | _, _ => none

def read (arguments : List String) : Option Invocation := readFrom none {} arguments

end RollCall.CommandLine
