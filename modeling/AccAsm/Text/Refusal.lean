import AccAsm.Text.Quoted

/-! # Wording of refused values -/

namespace AccAsm
open Text (lit)

/-- What is wrong with a numeral. -/
def Numeral.Flaw.reason : Numeral.Flaw → Text
  | .malformed => lit "invalid syntax"
  | .outOfRange => lit "value out of range"

/-- The message of the reader called `reader`, which did not accept `operand`. -/
def Text.refusal (reader operand : Text) (flaw : Numeral.Flaw) : Text :=
  reader ++ lit ": parsing " ++ Quoted.quote operand ++ lit ": " ++ flaw.reason

/-- The message for a refused integer. -/
def Numeral.refusal (operand : Text) (flaw : Flaw) : Text :=
  Text.refusal (lit "strconv.ParseInt") operand flaw

end AccAsm
