import RollCall.WaitFailure

/-!
# The log

What is worth telling about a session, a check or a run, each with its level and its wording.
-/

namespace RollCall

inductive Level
  | debug
  | info
  | warning
  | error
  deriving DecidableEq

/-- Something worth telling. -/
inductive Entry
  | handleCreated (identity : String)
  | handleDestroyed (identity : String)
  /-- A session with a live handle has been given up. -/
  | droppedLive (identity : String)
  | waiting (timeout : Duration) (expected : NameSet)
  /-- A poll has not ended the wait. -/
  | progress (visible total : Nat)
  | allFound (total : Nat)
  | timedOut (timeout : Duration) (missing : NameSet)
  | cancelled
  | scopeReached
  | planLoaded (path : String)
  | demonstration
  | launching (count : Nat) (expected : List String)
  | interrupted
  | verdictFound (found : NameSet)
  | verdictMissing (missing : NameSet)
  | verdictVisible (found : NameSet)
  | failure (text : String)
  deriving DecidableEq

namespace Entry

def level : Entry → Level
  | handleCreated _ | handleDestroyed _ | progress _ _ => .debug
  | droppedLive _ | timedOut _ _ | interrupted => .warning
  | verdictMissing _ | failure _ => .error
  | _ => .info

def text : Entry → String
  | handleCreated identity => "Discovery handle created for " ++ identity
  | handleDestroyed identity => "Discovery handle destroyed for " ++ identity
  | droppedLive identity =>
    "Session " ++ identity ++ " dropped without shutdown, releasing discovery handle"
  | waiting timeout expected =>
    "Waiting for " ++ Text.numeralText expected.size ++ " node(s) (timeout " ++ timeout.text ++
      "): " ++ Text.quotedSet expected.toList
  | progress visible total =>
    Text.numeralText visible ++ " of " ++ Text.numeralText total ++ " node(s) visible"
  | allFound total => "All " ++ Text.numeralText total ++ " node(s) found"
  | timedOut timeout missing =>
    "Timed out after " ++ timeout.text ++ ", missing: " ++ Text.quotedSet missing.toList
  | cancelled => "Wait cancelled"
  | scopeReached => "All nodes were found!"
  | planLoaded path => "Loaded configuration from " ++ Text.quoted path
  | demonstration => "No config file given, using the three-node demo"
  | launching count expected =>
    "Launching " ++ Text.numeralText count ++ " participant(s), expecting " ++
      Text.quotedList expected
  | interrupted => "Interrupt received, cancelling wait"
  | verdictFound found => "All nodes were found: " ++ Text.quotedSet found.toList
  | verdictMissing missing => "Did not find all nodes, missing: " ++ Text.quotedSet missing.toList
  | verdictVisible found => "Found: " ++ Text.quotedSet found.toList
  | failure text => text

end Entry

end RollCall
