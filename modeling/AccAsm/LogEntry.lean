import AccAsm.Text

/-! # Log entries -/

namespace AccAsm

inductive LogValue where
  | text (t : Text)
  | number (n : Nat)
deriving DecidableEq, Repr

structure LogEntry where
  message : Text
  /-- Named values, each name once. -/
  fields : List (Text × LogValue)
deriving DecidableEq, Repr

namespace LogEntry

/-- Adds a field, unless the entry has one of that name. -/
def withDefault (e : LogEntry) (name : Text) (value : LogValue) : LogEntry :=
  if (e.fields.lookup name).isSome then e else { e with fields := e.fields ++ [(name, value)] }

end LogEntry
end AccAsm
