import BlockMarkup.Failure
import BlockMarkup.Page.Html
import BlockMarkup.Page.Script
import BlockMarkup.Page.Stylesheet
import BlockMarkup.Token.Scan
import BlockMarkup.Validation

/-!
# Compiling a source text

From a source text to a page, its source map, its stylesheet and its script.
-/

namespace BlockMarkup

structure CompileOptions where
  /-- How many animated elements a document may have without a warning. -/
  animationThreshold : Nat
  /-- What endpoints are put behind. -/
  apiBase : String
  deriving DecidableEq, Repr

def CompileOptions.standard : CompileOptions := ⟨5, "/api"⟩

/-- Everything that is made from one document. -/
structure Bundle where
  html : String
  sourceMap : SourceMap
  css : String
  js : String
  warnings : List Diagnostic
  deriving DecidableEq, Repr

namespace Document

/-- Reads a source text. The tree still has its line markers. -/
def parse (source file : String) : Except Failure Document :=
  match Token.scan source with
  | .error e => .error (.token file e)
  | .ok tokens =>
    match Document.ofTokens tokens with
    | .error e => .error (.tree file e)
    | .ok document => .ok document

/-- Nests the lines of a document. -/
def nestFrom (document : Document) (file : String) : Except Failure Document :=
  match document.nest with
  | .error e => .error (.indentation file e)
  | .ok document => .ok document

/-- Reads a source text and nests its lines. -/
def read (source file : String) : Except Failure Document :=
  match parse source file with
  | .error e => .error e
  | .ok document => document.nestFrom file

/-- Makes everything from a document. -/
def bundle (document : Document) (file : String) (options : CompileOptions)
    (warnings : List Diagnostic) : Bundle :=
  { html := document.html file
    sourceMap := document.sourceMap file
    css := document.css
    js := document.js options.apiBase
    warnings }

end Document

/-- Compiles a source text. -/
def compile (source file : String) (options : CompileOptions) : Except Failure Bundle :=
  match Document.read source file with
  | .error e => .error e
  | .ok document =>
    let validation := document.validate file options.animationThreshold
    if validation.isOk then .ok (document.bundle file options validation.warnings)
    else .error (.invalid validation)

end BlockMarkup
