import OscHost.Schedule.Desk

/-!
What a host refuses.
-/

namespace OscHost

inductive HostError where
  | schedule (error : ScheduleError)
  | packet (error : WireError)
  | unknownModule (id : ModuleId)
  | settings (error : SettingsError)
  | alreadyStarted
  deriving DecidableEq, Repr

def HostError.message : HostError → String
  | schedule error => error.message
  | packet error => "OSC: " ++ error.message
  | unknownModule id => "Unknown module: " ++ id.text
  | settings error => error.message
  | alreadyStarted => "Housekeeper already started"

end OscHost
