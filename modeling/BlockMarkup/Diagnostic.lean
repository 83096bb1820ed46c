import BlockMarkup.Position
import BlockMarkup.Text.Blank

/-!
# Diagnostics

What validation has to say about a document. Errors keep a document from being turned into a page,
warnings do not.
-/

namespace BlockMarkup

inductive Severity where
  | error
  | warning
  deriving DecidableEq, Repr

def Severity.text : Severity → String
  | error => "error"
  | warning => "warning"

inductive Rule where
  | invalidTag
  | invalidId
  | duplicateId
  | invalidClass
  | emptyDirective
  | invalidStyle
  | invalidAnimation
  | reducedMotion
  | excessAnimation
  | unknownDirective
  | voidChildren
  deriving DecidableEq, Repr

namespace Rule

def name : Rule → String
  | invalidTag => "invalid-tag"
  | invalidId => "invalid-id"
  | duplicateId => "duplicate-id"
  | invalidClass => "invalid-class"
  | emptyDirective => "empty-directive"
  | invalidStyle => "invalid-style"
  | invalidAnimation => "invalid-animation"
  | reducedMotion => "reduced-motion"
  | excessAnimation => "excess-animation"
  | unknownDirective => "unknown-directive"
  | voidChildren => "void-children"

def severity : Rule → Severity
  | duplicateId | reducedMotion | excessAnimation | unknownDirective | voidChildren => .warning
  | _ => .error

end Rule

structure Diagnostic where
  rule : Rule
  message : String
  position : Position
  deriving DecidableEq, Repr

namespace Diagnostic

def severity (d : Diagnostic) : Severity := d.rule.severity

/-- A diagnostic is written `line:column: severity[rule]: message`. -/
def text (d : Diagnostic) : String :=
  d.position.text ++ ": " ++ d.severity.text ++ "[" ++ d.rule.name ++ "]: " ++ d.message

end Diagnostic

/-- The outcome of validating a document from `file`. -/
structure Validation where
  file : String
  errors : List Diagnostic
  warnings : List Diagnostic
  deriving DecidableEq, Repr

namespace Validation

def isOk (v : Validation) : Bool := v.errors.isEmpty

/-- Adds a diagnostic to those of its severity. -/
def push (v : Validation) (d : Diagnostic) : Validation :=
  match d.severity with
  | .error => { v with errors := v.errors ++ [d] }
  | .warning => { v with warnings := v.warnings ++ [d] }

/-- One line for each diagnostic, errors first. -/
def text (v : Validation) : String :=
  Text.join "\n" ((v.errors ++ v.warnings).map fun d => v.file ++ ":" ++ d.text)

end Validation

end BlockMarkup
