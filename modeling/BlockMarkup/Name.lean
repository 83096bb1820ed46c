/-!
# Names

The grammar of names, and the two lists of element names that the language treats specially:
elements without content, and the standard elements, which may stand alone on a line.
-/

namespace BlockMarkup

def isAsciiLetter (c : Char) : Bool := ('a' ≤ c && c ≤ 'z') || ('A' ≤ c && c ≤ 'Z')

def isAsciiDigit (c : Char) : Bool := '0' ≤ c && c ≤ '9'

def isAsciiAlphanumeric (c : Char) : Bool := isAsciiLetter c || isAsciiDigit c

/-- The characters of an identifier after its first one. -/
def isIdentifierChar (c : Char) : Bool := isAsciiAlphanumeric c || c = '-' || c = '_'

/-- Tags, ids, classes and animation names are identifiers: they begin with an ASCII letter and have
only ASCII letters, digits, `-` and `_`. -/
def isIdentifierChars : List Char → Bool
  | [] => false
  | c :: cs => isAsciiLetter c && cs.all isIdentifierChar

def isIdentifier (name : String) : Bool := isIdentifierChars name.toList

def asciiLower (c : Char) : Char :=
  if 'A' ≤ c && c ≤ 'Z' then Char.ofNat (c.toNat + 32) else c

/-- A text with its ASCII capitals made small. -/
def lowercased (s : String) : String := String.ofList (s.toList.map asciiLower)

/-- Elements that are written without an end tag. -/
def voidElements : List String :=
  ["area", "base", "br", "col", "embed", "hr", "img", "input", "link", "meta", "source", "track",
    "wbr"]

/-- Elements that may stand alone on a line without any decoration. -/
def standardElements : List String :=
  ["a", "abbr", "address", "area", "article", "aside", "audio", "b", "base", "blockquote", "body",
    "br", "button", "canvas", "caption", "cite", "code", "col", "colgroup", "data", "datalist",
    "dd", "del", "details", "dfn", "dialog", "div", "dl", "dt", "em", "embed", "fieldset",
    "figcaption", "figure", "footer", "form", "h1", "h2", "h3", "h4", "h5", "h6", "head", "header",
    "hgroup", "hr", "html", "i", "iframe", "img", "input", "ins", "kbd", "label", "legend", "li",
    "link", "main", "map", "mark", "menu", "meta", "meter", "nav", "noscript", "object", "ol",
    "optgroup", "option", "output", "p", "picture", "pre", "progress", "q", "s", "samp", "section",
    "select", "slot", "small", "source", "span", "strong", "sub", "summary", "sup", "table",
    "tbody", "td", "template", "textarea", "tfoot", "th", "thead", "time", "tr", "track", "u",
    "ul", "var", "video", "wbr"]

/-- Void elements are recognised in any case. -/
def isVoidElement (tag : String) : Bool := voidElements.contains (lowercased tag)

/-- Standard elements are recognised in small letters only, so that a capitalised word on a line of
its own stays text. -/
def isStandardElement (tag : String) : Bool := standardElements.contains tag

end BlockMarkup
