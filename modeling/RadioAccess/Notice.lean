/-!
# Notices

While it is set up the emulator reports what it does, and what it had to replace in its configuration.
A report is a list of notices in the order in which they were made.
-/

namespace RadioAccess

inductive Severity where
  | info
  | warning
  | error
deriving DecidableEq

def Severity.label : Severity → String
  | info => "INFO"
  | warning => "WARN"
  | error => "ERROR"

/-- One line of a log. -/
structure Notice where
  severity : Severity
  text : String
deriving DecidableEq

namespace Notice

def warning (text : String) : Notice := { severity := .warning, text }

def info (text : String) : Notice := { severity := .info, text }

def error (text : String) : Notice := { severity := .error, text }

/-- A warning if there is something to warn of. -/
def warnIf (condition : Bool) (text : String) : List Notice :=
  if condition then [.warning text] else []

end Notice

end RadioAccess
