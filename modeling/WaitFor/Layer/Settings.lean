import WaitFor.Monitor
import WaitFor.Text

/-!
# Settings of the layer

The settings of the layer come from variables of the environment.  A variable that is not set, or
that does not read as what it should be, leaves the default.
-/

namespace WaitFor

/-- Whether the layer runs a deadlock monitor, and how that is set up. -/
structure LayerSettings where
  enabled : Bool := false
  monitor : MonitorSettings := {}
deriving DecidableEq, Repr

namespace LayerSettings

/-- The variable that turns the deadlock monitor on. -/
def enableVariable : String := "ZEL_ENABLE_EVENTSDEADLOCK_CHECKER"

/-- The variable that sets the length of the reported path. -/
def maxPathLengthVariable : String := "ZEL_EVENTSDEADLOCK_MAX_PATH_LEN"

/-- The words for "on". -/
def wordsForOn : List String := ["1", "true", "yes", "on"]

/-- Whether a text is a word for "on", whatever the case of its ASCII letters and the blanks around
it. -/
def meansOn (text : String) : Bool :=
  wordsForOn.contains (String.ofList ((Text.trim text.toList).map Char.toLower))

/-- The settings that the variables of an environment ask for. -/
def ofEnvironment (lookup : String → Option String) : LayerSettings where
  enabled := (lookup enableVariable).any meansOn
  monitor :=
    match (lookup maxPathLengthVariable).bind fun text => Text.count? (Text.trim text.toList) with
    | some maxPathLength => { maxPathLength }
    | none => {}

/-- The settings with the deadlock monitor turned on or off. -/
def withEnabled (settings : LayerSettings) (enabled : Bool) : LayerSettings :=
  { settings with enabled }

/-- The settings with another setup of the deadlock monitor. -/
def withMonitor (settings : LayerSettings) (monitor : MonitorSettings) : LayerSettings :=
  { settings with monitor }

end LayerSettings

end WaitFor
