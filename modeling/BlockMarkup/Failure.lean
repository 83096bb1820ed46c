import BlockMarkup.Diagnostic
import BlockMarkup.Node.Indentation
import BlockMarkup.Token

/-!
# Compile failures

Why a source text is not turned into a page. Reading stops at the first problem; validation reports
all of its errors together.
-/

namespace BlockMarkup

inductive Failure where
  | token (file : String) (error : TokenError)
  | tree (file : String) (error : TreeError)
  | indentation (file : String) (error : IndentationError)
  | invalid (validation : Validation)
  deriving DecidableEq, Repr

/-- A problem with its place in front of it. -/
def placed (position : Position) (message : String) : String := position.text ++ ": " ++ message

namespace Failure

def message : Failure → String
  | token file e => file ++ ":" ++ placed e.position e.problem.message
  | tree file e => file ++ ":" ++ placed e.position e.problem.message
  | indentation file e => file ++ ":" ++ placed e.position e.problem.message
  | invalid v => v.text

/-- The place of the failure; of several errors, the first. -/
def position? : Failure → Option Position
  | token _ e => some e.position
  | tree _ e => some e.position
  | indentation _ e => some e.position
  | invalid v => v.errors.head?.map (·.position)

end Failure

end BlockMarkup
