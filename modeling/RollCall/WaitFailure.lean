import RollCall.NameSet
import RollCall.Settings

/-!
# What can go wrong with a wait

The errors of a session and their wording: settings that cannot be used, a transport that cannot
be reached, names that stayed missing, and calls that the life of a session does not allow.
-/

namespace RollCall

/-- A call that the state of a session does not allow. -/
inductive Misuse
  | noResult
  | waitAfterClose
  | alreadyClosed
  deriving DecidableEq

/-- Why a wait, or something around it, failed. -/
inductive WaitFailure
  | settings (cause : SettingsError)
  /-- The transport gave no handle, for a reason of its own. -/
  | transport (reason : String)
  /-- The time was over before these names were visible. -/
  | timeout (missing : NameSet)
  /-- The wait was cancelled before these names were visible. -/
  | cancelled (missing : NameSet)
  | usage (cause : Misuse)
  deriving DecidableEq

namespace Misuse

def message : Misuse → String
  | noResult => "No result yet: wait() has not completed on this session"
  | waitAfterClose => "wait() called after shutdown"
  | alreadyClosed => "shutdown() called twice"

end Misuse

namespace WaitFailure

def message : WaitFailure → String
  | settings cause => "Invalid wait configuration: " ++ cause.message
  | transport reason => "Transport initialization failed: " ++ reason
  | timeout missing => "Did not find all nodes, missing: " ++ ", ".intercalate missing.toList
  | cancelled missing => "Wait cancelled, still missing: " ++ ", ".intercalate missing.toList
  | usage cause => cause.message

/-- The names that were still missing, where that is why the wait failed. -/
def missing? : WaitFailure → Option NameSet
  | timeout missing => some missing
  | cancelled missing => some missing
  | _ => none

end WaitFailure

end RollCall
