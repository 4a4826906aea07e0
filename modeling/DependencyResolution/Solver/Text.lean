import DependencyResolution.Solver.Session

/-!
# The text of incompatibilities and notes

How incompatibilities, causes and the solver's notes are written in the log.
-/

namespace DependencyResolution

open Text

variable {P V S M : Type} [Shown P] [Shown V] [Shown S] [Shown M]

def Fact.literal : Fact P V S M → String
  | root p v => s!"NotRoot(package={Shown.literal p}, version={Shown.literal v})"
  | noVersions p set => s!"NoVersions(package={Shown.literal p}, versions={Shown.literal set})"
  | dependency p set needed allowed =>
    s!"FromDependencyOf(package={Shown.literal p}, versions={Shown.literal set}, " ++
      s!"dependency={Shown.literal needed}, dependency_versions={Shown.literal allowed})"
  | unusable p set reason =>
    s!"Custom(package={Shown.literal p}, versions={Shown.literal set}, " ++
      s!"metadata={Shown.literal reason})"

def Cause.literal : Cause P V S M → String
  | fact f => f.literal
  | derived first second => s!"DerivedFrom(cause1={first}, cause2={second})"

namespace Incompatibility

def text (i : Incompatibility P V S M) : String :=
  let parts := i.terms.entries.map fun (p, t) => s!"{Shown.text p}: {t.text}"
  "\x7b" ++ ", ".intercalate parts ++ "\x7d"

def literal (i : Incompatibility P V S M) : String :=
  s!"Incompatibility({i.text}, cause={i.cause.literal})"

end Incompatibility

/-! ## Failures -/

/-- The text of a failure; what the client said about it is part of it only if nothing else is known. -/
def Failure.message {E : Type} [Shown E] : Failure P V S E → String
  | noSolution _ => "There is no solution"
  | cancelled _ => "The solver was cancelled"
  | choosing p _ => s!"Choosing a version for {Shown.text p} failed"
  | retrieving p v _ => s!"Retrieving dependencies of {Shown.text p} {Shown.text v} failed"
  | prioritizing fault => Shown.text fault
  | violation v => v.message
  | outOfSteps => "The steps are used up"

/-! ## The log -/

/-- How important a note is. -/
inductive Severity where
  | debug
  | info
  deriving DecidableEq

def Severity.name : Severity → String
  | debug => "DEBUG"
  | info => "INFO"

/-- A line of the log. -/
structure LogRecord where
  severity : Severity
  source : String
  message : String
  deriving DecidableEq

/-- The line of the log for a note. -/
def Note.record : Note P V S M → LogRecord
  | decided p v level => debug assignments s!"decision: {Shown.text p} {Shown.text v} (level {level})"
  | derived p t level cause =>
    debug assignments s!"derivation: {Shown.text p} {t.text} (level {level}, cause {cause})"
  | refused p v id =>
    debug assignments
      s!"not deciding {Shown.text p} {Shown.text v}: incompatibility {id} conflicts"
  | backtracked level affected =>
    debug assignments s!"backtracked to level {level} ({affected} packages affected)"
  | terminal id i => debug conflicts s!"terminal incompatibility {id}: {i.text}"
  | learned id i => debug conflicts s!"learned {id}: {i.text}"
  | resolved id p i =>
    debug conflicts s!"derived {id} from conflict on {Shown.text p}: {i.text}"
  | solved size => debug rounds s!"resolved {size} packages"
  | noVersions p set => info s!"no versions of {Shown.text p} in {Shown.text set}"
  | unavailable p v reason =>
    info s!"{Shown.text p} {Shown.text v} is unavailable: {Shown.text reason}"
where
  assignments : String := "vsolve.core.solver.partial_solution"
  conflicts : String := "vsolve.core.solver.state"
  rounds : String := "vsolve.core.solver.resolver"
  debug (source message : String) : LogRecord := ⟨.debug, source, message⟩
  info (message : String) : LogRecord := ⟨.info, rounds, message⟩

/-- The lines of the log for what happened in a session. -/
def logOf {π E : Type} (events : Array (Event P V S M π E)) : List LogRecord :=
  events.toList.filterMap fun
    | .noted note => some note.record
    | _ => none

end DependencyResolution
