/-!
# Bytes as text

Bytes that are no text are read nevertheless: every longest piece that could start a character but
does not go on as one is replaced by U+FFFD, and so is every byte that starts none.
-/

namespace BlockMarkup.Text

/-- A character of which some bytes have been read. -/
structure Partial where
  code : Nat
  /-- The ranges of the bytes to come. -/
  expected : List (Nat × Nat)

/-- The range of bytes inside a character. -/
def inner : Nat × Nat := (0x80, 0xBF)

/-- What a first byte starts, if anything. -/
def start? (byte : Nat) : Option Partial :=
  if byte < 0x80 then some ⟨byte, []⟩
  else if 0xC2 ≤ byte ∧ byte ≤ 0xDF then some ⟨byte - 0xC0, [inner]⟩
  else if byte = 0xE0 then some ⟨0, [(0xA0, 0xBF), inner]⟩
  else if byte = 0xED then some ⟨byte - 0xE0, [(0x80, 0x9F), inner]⟩
  else if 0xE1 ≤ byte ∧ byte ≤ 0xEF then some ⟨byte - 0xE0, [inner, inner]⟩
  else if byte = 0xF0 then some ⟨0, [(0x90, 0xBF), inner, inner]⟩
  else if 0xF1 ≤ byte ∧ byte ≤ 0xF3 then some ⟨byte - 0xF0, [inner, inner, inner]⟩
  else if byte = 0xF4 then some ⟨byte - 0xF0, [(0x80, 0x8F), inner, inner]⟩
  else none

def replacement : Char := '�'

/-- What is done at a first byte: the characters to write, and the state behind it. -/
def begin? (byte : Nat) : List Char × Option Partial :=
  match start? byte with
  | none => ([replacement], none)
  | some ⟨code, []⟩ => ([Char.ofNat code], none)
  | some pending => ([], some pending)

/-- What is done at any byte. -/
def advance (state : Option Partial) (byte : Nat) : List Char × Option Partial :=
  match state with
  | none => begin? byte
  | some ⟨_, []⟩ => begin? byte
  | some ⟨code, (least, most) :: expected⟩ =>
    if least ≤ byte ∧ byte ≤ most then
      let code := code * 64 + (byte - 0x80)
      if expected.isEmpty then ([Char.ofNat code], none) else ([], some ⟨code, expected⟩)
    else
      let (written, state) := begin? byte
      (replacement :: written, state)

/-- Reads bytes from a state on. -/
def lossyFrom (state : Option Partial) : List UInt8 → List Char
  | [] => if state.isSome then [replacement] else []
  | byte :: rest =>
    let (written, state) := advance state byte.toNat
    written ++ lossyFrom state rest

/-- Reads bytes as text. -/
def lossy (bytes : ByteArray) : String := String.ofList (lossyFrom none bytes.toList)

end BlockMarkup.Text
