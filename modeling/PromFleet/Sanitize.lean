-- How the renderer cleans a text: white space folds to one blank, forbidden characters go,
-- and the marks that a host could read as markup are escaped. A text is cut at a number of
-- characters or of bytes, and a label must have a valid name.
import PromFleet.Identity
import PromFleet.MapRange
import PromFleet.RenderStep

namespace prom_fleet.render

open map_range

def forbidden (c : Char) : Bool :=
  let n := c.toNat
  n = 0xfffd || n < 0x20 || n = 0x7f || (0x80 ≤ n && n ≤ 0x9f) || (0x200b ≤ n && n ≤ 0x200f) ||
    (0x202a ≤ n && n ≤ 0x202e) || (0x2066 ≤ n && n ≤ 0x2069) || n = 0xfeff

/-- The loop of `Sanitize`. A blank is owed only between characters that are written. -/
def foldSpaces (wrote pendingSpace : Bool) : List Char → List Char
  | [] => []
  | c :: rest =>
    if isSpace c then foldSpaces wrote (pendingSpace || wrote) rest
    else if forbidden c then foldSpaces wrote pendingSpace rest
    else if pendingSpace then ' ' :: c :: foldSpaces true false rest
    else c :: foldSpaces true false rest

def backtick : Char := Char.ofNat 96

/-- A run of backticks: from three on, each of them is escaped. -/
def fence (run : Nat) : List Char :=
  if run < 3 then List.replicate run backtick
  else (List.replicate run ['\\', backtick]).flatten

/-- The replacement of the fences, after a run of backticks. -/
def escapeFences (run : Nat) : List Char → List Char
  | [] => fence run
  | c :: rest =>
    if c = backtick then escapeFences (run + 1) rest
    else fence run ++ c :: escapeFences 0 rest

/-- `strings.ReplaceAll` of a pair of characters by the pair with a backslash between. -/
def splitPair (a b : Char) : List Char → List Char
  | x :: y :: rest =>
    if x = a ∧ y = b then a :: '\\' :: b :: splitPair a b rest
    else x :: splitPair a b (y :: rest)
  | rest => rest

def sanitize (s : List Char) : List Char :=
  splitPair '|' '>' (splitPair '<' '|' (escapeFences 0 (foldSpaces false false s)))

def clipMarker : String := "…[clipped]"

def clipRunes (s : String) (max : Nat) : String :=
  let clean := sanitize s.toList
  if max = 0 then ""
  else if clean.length ≤ max then String.ofList clean
  else String.ofList (clean.take max) ++ clipMarker

/-- The longest beginning that has no more than so many bytes. -/
def takeBytes : Nat → List Char → List Char
  | _, [] => []
  | room, c :: rest => if c.utf8Size ≤ room then c :: takeBytes (room - c.utf8Size) rest else []

def clipBytes (s : String) (max : Nat) : String :=
  let clean := sanitize s.toList
  if max = 0 then ""
  else if (String.ofList clean).utf8ByteSize ≤ max then String.ofList clean
  else String.ofList (takeBytes max clean) ++ clipMarker

/-- `LabelValue`: the bound is `MaxLabelValueBytes`. -/
def labelValue (s : String) : String := clipBytes s 256

def validLabelName (name : String) : Bool :=
  let letter (c : Char) : Bool := c.isAlpha || c = '_'
  name.utf8ByteSize ≤ 128 &&
    match name.toList with
    | [] => false
    | c :: rest => letter c && rest.all fun c => letter c || c.isDigit

/-- `Labels`, with the order of its loop. -/
def labels (order : Range String String) (given : StrMap String) : StrMap String :=
  collect (fun k v => if validLabelName k then some (labelValue v) else none)
    (order.list given)

structure URLRef where
  url : String
  urlHost : String
  followable : Bool
  deriving DecidableEq

example : clipRunes " east\n" 128 = "east" := by decide +kernel

end prom_fleet.render
