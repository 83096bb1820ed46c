/-!
# Positions in a text

A position is a line and a column, both counted from one; columns count characters. Reading a
character moves a position one column on, and reading a line feed moves it to the start of the next
line.
-/

namespace BlockMarkup

structure Position where
  line : Nat
  column : Nat
  deriving DecidableEq, Repr

namespace Position

/-- The place of the first character of a text. -/
def start : Position := ⟨1, 1⟩

instance : Inhabited Position := ⟨start⟩

/-- The place after the character `c`. -/
def next (p : Position) (c : Char) : Position :=
  if c = '\n' then ⟨p.line + 1, 1⟩ else ⟨p.line, p.column + 1⟩

/-- The place after the characters `cs`. -/
def after (p : Position) (cs : List Char) : Position := cs.foldl next p

@[simp] theorem after_nil (p : Position) : p.after [] = p := rfl

@[simp] theorem after_cons (p : Position) (c : Char) (cs : List Char) :
    p.after (c :: cs) = (p.next c).after cs := rfl

@[simp] theorem after_append (p : Position) (cs ds : List Char) :
    p.after (cs ++ ds) = (p.after cs).after ds := List.foldl_append

/-- Positions are written `line:column`. -/
def text (p : Position) : String := toString p.line ++ ":" ++ toString p.column

end Position

/-- A problem together with the place it is blamed on. -/
structure Located (α : Type) where
  problem : α
  position : Position
  deriving DecidableEq, Repr

end BlockMarkup
