import BlockMarkup.Page.Anchor
import BlockMarkup.Path
import BlockMarkup.SourceMap
import BlockMarkup.Text.Uppercase

/-!
# Pages

A page is written as a list of fragments: pieces of its text, and marks that stand where a node of
the document starts. The text of the page is that of its fragments; the source map has one entry for
each mark, at the place that the text before it leads to.

Text and attribute values are written with the characters that have a meaning in a page replaced by
entities.
-/

namespace BlockMarkup

namespace Page

def escapeChar (c : Char) : List Char :=
  if c = '&' then "&amp;".toList
  else if c = '<' then "&lt;".toList
  else if c = '>' then "&gt;".toList
  else if c = '"' then "&quot;".toList
  else if c = '\'' then "&#x27;".toList
  else [c]

def escape (s : String) : String := String.ofList (s.toList.flatMap escapeChar)

inductive Fragment where
  | text (text : String)
  | mark (kind : MappingKind) (origin : Position) (name : Option String)
  deriving DecidableEq, Repr

namespace Fragment

def chars : Fragment → List Char
  | text s => s.toList
  | mark _ _ _ => []

/-- The text of fragments one after another. -/
def written (fragments : List Fragment) : String := String.ofList (fragments.flatMap chars)

/-- The entries for the marks of fragments that begin at `place`. -/
def mappings (place : Position) : List Fragment → List Mapping
  | [] => []
  | text s :: rest => mappings (place.after s.toList) rest
  | mark kind origin name :: rest => ⟨place, origin, kind, name⟩ :: mappings place rest

end Fragment

/-- The spaces before a line at some depth. -/
def margin (depth : Nat) : String := String.ofList (List.replicate (2 * depth) ' ')

/-- A line at some depth. -/
def line (depth : Nat) (s : String) : Fragment := .text (margin depth ++ s ++ "\n")

/-- The attributes of an element as they are written, before escaping. -/
def attributes (h : Header) : List (String × String) :=
  let anchor := h.anchor
  let id := h.id.toList.map fun id => ("id", id)
  let classes :=
    match anchor with
    | some (.ofClass name) => h.classes ++ [name]
    | _ => h.classes
  let classAttribute := if classes.isEmpty then [] else [("class", Text.join " " classes)]
  let others := h.attributes.entries.flatMap fun (name, value) =>
    match value with
    | .text value =>
      if name = Attribute.animateName || Attribute.isReserved name then [] else [(name, value)]
    | .style style => if anchor.isNone && !style.isEmpty then [(name, style.inline)] else []
    | .directive (.call endpoint) => [("data-api-call", endpoint)]
    | .directive (.data key) => [("data-dynamic", key)]
  id ++ classAttribute ++ others

def attributeText (a : String × String) : String := " " ++ a.1 ++ "=\"" ++ escape a.2 ++ "\""

def startTag (h : Header) : String :=
  "<" ++ h.tag ++ Text.join "" ((attributes h).map attributeText) ++ ">"

def endTag (h : Header) : String := "</" ++ h.tag ++ ">"

/-- A run of text with its mark. -/
def textFragments (run : TextRun) : List Fragment :=
  [.mark .text run.position none, .text (escape run.value)]

mutual

/-- A node on lines of its own. The content of an element stands between its tags on one line if it
is a single text, and on lines of its own otherwise; void elements have none. -/
def nodeFragments (depth : Nat) : Node → List Fragment
  | .text run => .text (margin depth) :: textFragments run ++ [.text "\n"]
  | .element h children =>
    .text (margin depth) :: .mark .element h.position (some h.tag) :: .text (startTag h) ::
      if h.isVoid then [.text "\n"]
      else
        (match children with
          | [] => []
          | [.text run] => textFragments run
          | children =>
            .text "\n" :: nodesFragments (depth + 1) children ++ [.text (margin depth)]) ++
        [.text (endTag h ++ "\n")]

def nodesFragments (depth : Nat) : List Node → List Fragment
  | [] => []
  | n :: rest => nodeFragments depth n ++ nodesFragments depth rest

end

/-- The name that a page and its companions have in common: the file name of the source without its
extension, or `index` if there is none. -/
def stemOf (file : String) : String :=
  match (Path.mk file).stem with
  | some stem => if stem.isEmpty then "index" else stem
  | none => "index"

/-- What stands before the nodes of a page. -/
def head (stem : String) : List Fragment :=
  [line 0 "<!DOCTYPE html>",
    line 0 "<html lang=\"en\">",
    line 0 "<head>",
    line 1 "<meta charset=\"UTF-8\">",
    line 1 "<meta name=\"viewport\" content=\"width=device-width, initial-scale=1.0\">",
    line 1 "<meta name=\"generator\" content=\"htmlx\">",
    line 1 ("<title>" ++ escape (Text.title stem) ++ "</title>"),
    line 1 ("<link rel=\"stylesheet\" href=\"" ++ escape stem ++ ".css\">"),
    line 0 "</head>",
    line 0 "<body>"]

/-- What stands behind the nodes of a page. -/
def foot (stem : String) : List Fragment :=
  [line 1 ("<script src=\"" ++ escape stem ++ ".js\" defer></script>"),
    line 0 "</body>",
    line 0 "</html>"]

/-- The page of a document from `file`. -/
def fragments (document : Document) (file : String) : List Fragment :=
  head (stemOf file) ++ nodesFragments 1 document ++ foot (stemOf file)

end Page

namespace Document

/-- The page of a document. -/
def html (document : Document) (file : String) : String :=
  Page.Fragment.written (Page.fragments document file)

/-- The source map of a document's page. -/
def sourceMap (document : Document) (file : String) : SourceMap :=
  { version := SourceMap.formatVersion
    file := Page.stemOf file ++ ".html"
    source := file
    mappings := Page.Fragment.mappings Position.start (Page.fragments document file) }

end Document

namespace Page

/-!
## Live reload

While a site is being worked on, its pages listen for a signal to load themselves again. The script
line that does so stands before the last end tag of a body, or at the end of a page without one.
-/

/-- Where the signal comes from. -/
def liveReloadPath : String := "/_htmlx/live-reload"

def liveReloadLine : String :=
  "  <script>new EventSource(\"" ++ liveReloadPath ++
    "\").addEventListener(\"reload\", function () \x7b location.reload(); \x7d);</script>\n"

/-- Cuts a text before the last place where `word` stands. -/
def splitLast (word : List Char) : List Char → Option (List Char × List Char)
  | [] => if word.isEmpty then some ([], []) else none
  | c :: cs =>
    match splitLast word cs with
    | some (before, rest) => some (c :: before, rest)
    | none => if word.isPrefixOf (c :: cs) then some ([], c :: cs) else none

/-- Adds the script line to a page. -/
def injectLiveReload (html : String) : String :=
  match splitLast "</body>".toList html.toList with
  | some (before, rest) => String.ofList before ++ liveReloadLine ++ String.ofList rest
  | none => html ++ liveReloadLine

end Page

end BlockMarkup
