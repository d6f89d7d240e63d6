import RollCall.CommandLine.Run

/-!
# The program

Reads the command line, the environment and the file that is named, and shows what a run comes to:
every entry of its log at its time after the start, then the complaint, if there is one, and the
exit code.
-/

namespace RollCall.CommandLine

def usage : String :=
  "Wait until a set of participants is discoverable\n\n" ++
  "Usage: wait-for-nodes [OPTIONS]\n\n" ++
  "Options:\n" ++
  "  -c, --config <FILE>            JSON config file (defaults to the three-node demo)\n" ++
  "  -e, --expect <NAME>            Participant name that must become visible (repeatable)\n" ++
  "  -s, --spawn <SPEC>             Participant to launch, NAME or NAME@DELAY_MS (repeatable)\n" ++
  "  -t, --timeout <SECONDS>        Timeout in seconds\n" ++
  "      --poll-interval <SECONDS>  Poll interval in seconds\n" ++
  "      --mode <plain|scoped>      Session API used for the check [default: plain]\n" ++
  "      --verbose                  Enable verbose logging\n" ++
  "  -h, --help                     Print help"

def label : Level → String
  | .debug => "DEBUG"
  | .info => "INFO"
  | .warning => "WARN"
  | .error => "ERROR"

def content (path : String) : IO (Except FileError ByteArray) := do
  try
    return .ok (← IO.FS.readBinFile path)
  catch
    | .inappropriateType .. => return .error .isDirectory
    | _ => return .error .notFound

def filesFor (arguments : List String) : IO Files := do
  match read arguments with
  | some (.run { config := some path, .. }) =>
    let found ← content path
    return fun name => if name = path then found else .error .notFound
  | _ => return fun _ => .error .notFound

def environment : IO Environment := do
  let value (span : Span) : IO (Option ByteArray) := do
    return (← IO.getEnv span.variableName).map String.toUTF8
  let timeout ← value .timeout
  let interval ← value .interval
  return fun name =>
    if name = Span.timeout.variableName then timeout
    else if name = Span.interval.variableName then interval
    else none

/-- Random words, enough for one identity. -/
def randomWords : IO WordSource := do
  let bytes ← IO.getRandomBytes 80
  let word (i : Nat) : UInt32 :=
    (List.range 4).foldl (fun w j => w * 256 + (bytes.toList.getD (4 * i + j) 0).toUInt32) 0
  return WordSource.ofList ((List.range 20).map word)

def isShown (verbose : Bool) (e : Entry) : Bool := verbose || e.level != .debug

def present (verbose : Bool) (journal : List (Instant × Entry)) : IO Unit := do
  let start ← IO.monoMsNow
  for (time, entry) in journal do
    if isShown verbose entry then
      let passed := (← IO.monoMsNow) - start
      IO.sleep (UInt32.ofNat (min (time.millis - passed) (Nat.pow 2 32 - 1)))
      IO.println (label entry.level ++ " " ++ told entry)

def wantsVerbose (arguments : List String) : Bool :=
  match read arguments with
  | some (.run a) => a.verbose
  | _ => false

def program (arguments : List String) : IO UInt32 := do
  if let some .help := read arguments then
    IO.println usage
  else if (read arguments).isNone then
    IO.eprintln usage
  let exit := run (← filesFor arguments) (← environment) (← randomWords) none arguments
  present (wantsVerbose arguments) exit.journal
  if let some complaint := exit.complaint then
    IO.eprintln complaint
  return UInt32.ofNat exit.code

end RollCall.CommandLine

def main (arguments : List String) : IO UInt32 := RollCall.CommandLine.program arguments
