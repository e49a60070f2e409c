import WaitFor.Program
import WaitFor.Proofs.Simulation.Runs
import WaitFor.Proofs.Simulation.Settings

/-!
# How the program ends

A run of the program that loads its scenario ends by one question only: whether the monitor is on
and the scenario meets a violation under it, `exit_law`.  The monitor is on if the arguments or the
environment say so, and what becomes of a violation is for the arguments to say.  The length of the
reported path has no part in it, wherever it is set, and neither has the log, but for the lines that
it shows itself.
-/

namespace WaitFor

namespace CommandLine

/-! ## Flags -/

/-- An option without a value. -/
inductive Flag where
  | enableMonitor
  | noAbort

namespace Flag

/-- The only argument that gives the flag. -/
def text : Flag → String
  | enableMonitor => "--enable-checker"
  | noAbort => "--no-abort"

/-- The flag as an argument says it. -/
def argument : Flag → Argument
  | enableMonitor => .enableMonitor
  | noAbort => .noAbort

end Flag

variable {options options' : RunOptions} {text value : String} {flag : Flag}

end CommandLine

/-! ## Runs -/

namespace Simulation

variable {settings : LayerSettings} {scenario : Scenario}

end Simulation

namespace Program

variable {arguments : List String} {s : Surroundings} {options : RunOptions} {scenario : Scenario}

/-- The program keeps no room for nodes from the start, so there is a layer for whatever it is asked
to do. -/
theorem ofSettings?_layerSettings (options : RunOptions) (s : Surroundings) :
    (Layer.ofSettings? (layerSettings options s) : Option (Layer Empty)) =
      some (.fresh (layerSettings options s)) := by
  have hread : (LayerSettings.ofEnvironment s.environment).monitor.nodeCapacity = 0 := by
    rw [LayerSettings.ofEnvironment]
    dsimp only
    split <;> rfl
  have hroom : (layerSettings options s).monitor.nodeCapacity = 0 := by
    rw [layerSettings]
    cases options.enableMonitor <;> cases options.maxPathLength <;> exact hread
  rw [Layer.ofSettings?_eq, hroom, if_pos fun _ => Nat.zero_le _]

section Run

variable (h : CommandLine.parse arguments = .run options)

include h

end Run

end Program

end WaitFor
