import BlockMarkup.Name
import BlockMarkup.Text.Blank
import BlockMarkup.Text.Quoted

/-!
# Animations

The value of an `animate` attribute is a shorthand of two to four words: a name, a duration, and
optionally an easing and a number of iterations.
-/

namespace BlockMarkup

structure Animation where
  name : String
  duration : String
  easing : Option String
  iterations : Option String
  deriving DecidableEq, Repr

/-- Why a text is no animation. -/
inductive AnimationProblem where
  | tooFewWords (value : String)
  | tooManyWords (value : String)
  | name (word : String)
  | duration (word : String)
  | easing (word : String)
  | iterations (word : String)
  deriving DecidableEq, Repr

def AnimationProblem.message : AnimationProblem → String
  | tooFewWords value =>
    "expected `<name> <duration> [easing] [iterations]`, found " ++ Text.quoted value
  | tooManyWords value => "too many animation parameters in " ++ Text.quoted value
  | name word => "animation name " ++ Text.quoted word ++ " is not a valid identifier"
  | duration word =>
    "animation duration " ++ Text.quoted word ++ " is not a CSS time like `2s` or `250ms`"
  | easing word =>
    "animation easing " ++ Text.quoted word ++
      " is not a timing keyword like `ease-in` or `steps(4)`"
  | iterations word =>
    "animation iteration count " ++ Text.quoted word ++ " is not a number or `infinite`"

namespace Animation

/-- Digits with at most one point among them, and at least one digit. -/
def isNumber (cs : List Char) : Bool :=
  cs.count '.' ≤ 1 && cs.any isAsciiDigit && cs.all fun c => isAsciiDigit c || c = '.'

/-- A number followed by `s` or `ms`. -/
def isTime (cs : List Char) : Bool :=
  match cs.reverse with
  | 's' :: 'm' :: number => isNumber number.reverse
  | 's' :: number => isNumber number.reverse
  | _ => false

/-- What may stand between the parentheses of a timing function. -/
def isArgumentChar (c : Char) : Bool := isAsciiAlphanumeric c || c = '.' || c = ',' || c = '-'

/-- A timing keyword, or a timing function with its arguments. -/
def isTiming (cs : List Char) : Bool :=
  match Text.splitFirst '(' cs with
  | none => isIdentifierChars cs
  | some (keyword, rest) =>
    match rest.reverse with
    | ')' :: arguments => isIdentifierChars keyword && arguments.all isArgumentChar
    | _ => false

/-- `infinite`, or a number. -/
def isIterations (word : String) : Bool := word = "infinite" || isNumber word.toList

/-- Reads a shorthand. The words are checked from left to right once their number is right. -/
def read (value : String) : Except AnimationProblem Animation :=
  match Text.words value with
  | name :: duration :: rest =>
    if rest.length > 2 then .error (.tooManyWords value)
    else if !isIdentifier name then .error (.name name)
    else if !isTime duration.toList then .error (.duration duration)
    else
      match rest with
      | [] => .ok ⟨name, duration, none, none⟩
      | easing :: rest =>
        if !isTiming easing.toList then .error (.easing easing)
        else
          match rest with
          | [] => .ok ⟨name, duration, some easing, none⟩
          | iterations :: _ =>
            if !isIterations iterations then .error (.iterations iterations)
            else .ok ⟨name, duration, some easing, some iterations⟩
  | _ => .error (.tooFewWords value)

/-- The words of an animation in order. -/
def words (a : Animation) : List String :=
  [a.name, a.duration] ++ a.easing.toList ++ a.iterations.toList

/-- The shorthand with single spaces between its words. -/
def text (a : Animation) : String := Text.join " " a.words

end Animation

end BlockMarkup
