import BlockMarkup.Bundle
import BlockMarkup.Path

/-!
# Drafts

A draft is a source on its way to a page. It gets a tree when it is read and nested, warnings when
it is validated, and a bundle when it is emitted. A failure takes tree and bundle away for good.
-/

namespace BlockMarkup

structure Draft where
  path : Path
  /-- The path below the source directory. -/
  relative : Path
  source : String
  document : Option Document
  warnings : List Diagnostic
  bundle : Option Bundle
  failure : Option Failure

namespace Draft

def ofSource (path relative : Path) (source : String) : Draft :=
  { path, relative, source, document := none, warnings := [], bundle := none, failure := none }

/-- The name that a draft has in diagnostics and source maps, with slashes only. -/
def name (d : Draft) : String :=
  String.ofList (d.relative.text.toList.map fun c => if c = '\\' then '/' else c)

def hasFailed (d : Draft) : Bool := d.failure.isSome

def fail (d : Draft) (failure : Failure) : Draft :=
  { d with document := none, bundle := none, failure := some failure }

/-- Reads the source. -/
def parse (d : Draft) : Draft :=
  match Document.parse d.source d.name with
  | .ok document => { d with document := some document }
  | .error e => d.fail e

/-- Nests the lines of the tree. -/
def nest (d : Draft) (document : Document) : Draft :=
  match document.nestFrom d.name with
  | .ok nested => { d with document := some nested }
  | .error e => d.fail e

/-- Validates the tree. -/
def validate (d : Draft) (document : Document) (options : CompileOptions) : Draft :=
  let validation := document.validate d.name options.animationThreshold
  if validation.isOk then { d with warnings := validation.warnings }
  else d.fail (.invalid validation)

/-- Makes everything from the tree. -/
def emit (d : Draft) (document : Document) (options : CompileOptions) : Draft :=
  { d with bundle := some (document.bundle d.name options d.warnings) }

end Draft

end BlockMarkup
