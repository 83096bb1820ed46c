import BlockMarkup.Name
import BlockMarkup.Text.Blank

/-!
# Looking ahead for an element header

Whether the characters ahead are an element header or text is decided before anything is read. A tag
with its classes and ids is a header if an attribute list or an opening brace follows it. Where it
begins a line it may also stand alone, if it has a class or an id or is a standard element.
-/

namespace BlockMarkup.Token

/-- The white space that may stand between the tokens of one line. -/
def isGap (c : Char) : Bool := c = ' ' || c = '\t' || c = '\r'

/-- The characters that a line's margin is made of. -/
def isMargin (c : Char) : Bool := c = ' ' || c = '\t'

/-- The characters that a class or an id ends before, white space apart. -/
def nameEnds : List Char := ['.', '#', '(', ')', '{', '}', ':', ',', '"', '\'']

/-- Characters of a class or an id. Validation asks for more later. -/
def isNameChar (c : Char) : Bool := !Text.isBlank c && !nameEnds.contains c

/-- The characters that can begin an attribute name. -/
def isAttributeStart (c : Char) : Bool := isAsciiLetter c || c = '_' || c = '⚡'

/-- The variation selector that asks for the coloured form of the character before it. Attribute
names are the same with and without it. -/
def colourMark : Char := '\uFE0F'

def isAttributeChar (c : Char) : Bool :=
  isAsciiAlphanumeric c || c = '-' || c = '_' || c = '⚡' || c = colourMark

/-- What follows the classes and ids that stand at the beginning of `cs`. -/
def dropDecorations (cs : List Char) : List Char :=
  match cs with
  | mark :: first :: rest =>
    if (mark = '.' || mark = '#') && isNameChar first then
      dropDecorations (rest.dropWhile isNameChar)
    else cs
  | _ => cs
termination_by cs.length
decreasing_by
  have hdrop : (rest.dropWhile isNameChar).length ≤ rest.length :=
    (List.dropWhile_suffix _).length_le
  simp only [List.length_cons]
  omega

/-- Whether what follows an opening parenthesis looks like an attribute list: it is closed at once,
or a name and a colon follow. -/
def attributesAhead (cs : List Char) : Bool :=
  match cs.dropWhile Text.isBlank with
  | [] => false
  | c :: rest =>
    if c = ')' then true
    else if isAttributeStart c then
      (((c :: rest).dropWhile isAttributeChar).dropWhile Text.isBlank).head? = some ':'
    else false

/-- Whether `cs` begins with an element header. `opensLine` tells that nothing stands before it on
its line. -/
def headerAhead (opensLine : Bool) (cs : List Char) : Bool :=
  match cs with
  | [] => false
  | first :: _ =>
    isAsciiLetter first &&
      let tag := cs.takeWhile isIdentifierChar
      let decorations := cs.dropWhile isIdentifierChar
      let rest := dropDecorations decorations
      match rest with
      | '(' :: list => attributesAhead list
      | _ =>
        match rest.dropWhile isGap with
        | '{' :: _ => true
        | [] | '\n' :: _ =>
          opensLine &&
            (rest.length < decorations.length || isStandardElement (String.ofList tag))
        | _ => false

end BlockMarkup.Token
