/-!
# Errors of loading

Why a document could not be loaded: its text could not be had, the text is not a document of its
kind, or what it says is wrong. `ε` holds the errors of the last kind.
-/

namespace SignalGraph

inductive LoadError (ε : Type) where
  | unavailable (path reason : String)
  | malformed (origin : String)
  | invalid (error : ε)
deriving DecidableEq, Repr

namespace LoadError

variable {ε : Type}

/-- The text of the error, given the text of the errors of the document. -/
def message (describe : ε → String) : LoadError ε → String
  | .unavailable path reason => s!"{path}: {reason}"
  | .malformed origin => s!"{origin}: <parse>"
  | .invalid error => describe error

end LoadError

end SignalGraph
