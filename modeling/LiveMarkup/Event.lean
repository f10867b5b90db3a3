namespace LiveMarkup

inductive EventLevel where
  | debug
  | warn
  | error
deriving DecidableEq

namespace EventLevel

def word : EventLevel → String
  | .debug => "DEBUG"
  | .warn => "WARN"
  | .error => "ERROR"

end EventLevel

structure Event where
  level : EventLevel
  message : String
  fields : List (String × String)
deriving DecidableEq

abbrev Log := List Event

namespace Event

def debug (message : String) (fields : List (String × String)) : Event := ⟨.debug, message, fields⟩

def warn (message : String) (fields : List (String × String)) : Event := ⟨.warn, message, fields⟩

def error (message : String) (fields : List (String × String)) : Event := ⟨.error, message, fields⟩

end Event

end LiveMarkup
