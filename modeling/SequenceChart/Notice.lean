import SequenceChart.Identifier

/-!
While a model is generated, two kinds of remark are made on the side: log
records, and reports about parts of the specification that deserve a reader's
attention.  Both are data, kept in the order in which they were made.
-/

namespace SequenceChart

/-- How much a log record matters. -/
inductive LogLevel where
  | debug
  | info
  | warn
  deriving DecidableEq, Repr

def LogLevel.label : LogLevel → String
  | .debug => "DEBUG"
  | .info => "INFO"
  | .warn => "WARN"

/-- How serious a report is. -/
inductive Severity where
  | error
  | warning
  deriving DecidableEq, Repr

def Severity.title : Severity → String
  | .error => "Error"
  | .warning => "Warning"

def Severity.label : Severity → String
  | .error => "error"
  | .warning => "warning"

/-- A stretch of a source file, in bytes, from `start` up to `stop`. -/
structure SourceSpan where
  start : Nat
  stop : Nat
  file : Nat
  deriving DecidableEq, Repr

/-- Something a reader should know about the specification. -/
inductive Report where
  /-- A remark without a place in the source. -/
  | general (title message : String) (severity : Severity)
  /-- A remark about one fragment of an interaction, at its place if known. -/
  | fragment (interaction : InteractionId) (fragment : FragmentId)
      (interactionName : String) (location : Option SourceSpan)
      (message : String) (severity : Severity)
  deriving DecidableEq, Repr

/-- A remark made on the side. -/
inductive Notice where
  | log (level : LogLevel) (text : String)
  | report (content : Report)
  deriving DecidableEq, Repr

def Notice.logs : List Notice → List (LogLevel × String)
  | [] => []
  | .log level text :: rest => (level, text) :: Notice.logs rest
  | .report _ :: rest => Notice.logs rest

def Notice.reports : List Notice → List Report
  | [] => []
  | .log _ _ :: rest => Notice.reports rest
  | .report content :: rest => content :: Notice.reports rest

end SequenceChart
