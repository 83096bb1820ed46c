import BlockMarkup.Number.Integer
import BlockMarkup.Text.Blank

/-!
# Network addresses

Which texts are addresses that a server can be bound to: four numbers with dots between them, or
groups of hexadecimal digits with colons between them and brackets around.
-/

namespace BlockMarkup.Address

def isColon (c : Char) : Bool := c = ':'

/-- A number up to 255 without zeros in front. -/
def isOctet (cs : List Char) : Bool :=
  cs.length ≤ 3 && (cs.length = 1 || cs.head? != some '0') &&
    (Number.natural? 10 cs).any (· < 256)

/-- Four numbers with dots between them. -/
def isDotted (cs : List Char) : Bool :=
  let parts := Text.splitAt (· = '.') cs
  parts.length = 4 && parts.all isOctet

/-- One to four hexadecimal digits. -/
def isGroup (cs : List Char) : Bool := cs.length ≤ 4 && (Number.natural? 16 cs).isSome

/-- How many groups stand here, with colons between them. Four numbers with dots may stand at the
end for two groups. -/
def groupCount? (withDotted : Bool) : List (List Char) → Option Nat
  | [] => some 0
  | [last] =>
    if isGroup last then some 1 else if withDotted && isDotted last then some 2 else none
  | group :: rest => if isGroup group then (groupCount? withDotted rest).map (· + 1) else none

def groupsOf (cs : List Char) : List (List Char) :=
  if cs.isEmpty then [] else Text.splitAt isColon cs

/-- Cuts a text at the first pair of colons. -/
def splitPair : List Char → Option (List Char × List Char)
  | ':' :: ':' :: cs => some ([], cs)
  | c :: cs => (splitPair cs).map fun (before, rest) => (c :: before, rest)
  | [] => none

/-- Eight groups, where a pair of colons stands for those that are missing, of one at least. -/
def isGrouped (cs : List Char) : Bool :=
  match splitPair cs with
  | none => groupCount? true (groupsOf cs) = some 8
  | some (before, rest) =>
    match groupCount? false (groupsOf before), groupCount? true (groupsOf rest) with
    | some n, some k => n + k ≤ 7
    | _, _ => false

/-- Groups in brackets, with a zone behind them if there is one. -/
def isBracketed (cs : List Char) : Bool :=
  match cs.reverse with
  | ']' :: inner =>
    match inner.reverse with
    | '[' :: inner =>
      match Text.splitFirst '%' inner with
      | none => isGrouped inner
      | some (groups, zone) =>
        isGrouped groups && (Number.natural? 10 zone).any (· < Nat.pow 2 32)
    | _ => false
  | _ => false

/-- Whether a server can be bound to the address. -/
def isValid (bind : String) : Bool := isDotted bind.toList || isBracketed bind.toList

end BlockMarkup.Address
