/-!
# Paths

A text describes a path by names between slashes, in which one dot stands for
staying and two dots for going up.  Where it leads to depends on what lies on
the way; a place is then known by the names that lead to it straight.
-/

namespace StructuredStore

/-- A place, by the names that lead to it straight from the directory that paths
start from. -/
abbrev Path := List String

namespace Path

/-! ## Names of places -/

/-- The name of the top, which every absolute path starts from. -/
def topName : String := "/"

/-- The place above another one.  Places above the start are known only by the
steps that lead up to them, and nothing is above the top. -/
def parent (path : Path) : Path :=
  match path.getLast? with
  | none => [".."]
  | some name =>
      if name = ".." then path ++ [".."]
      else if name = topName then path
      else path.dropLast

/-- Whether a place is the start, the top or one above the start: these are there
from the beginning. -/
def isGiven (path : Path) : Bool :=
  path = [topName] || path.all (· = "..")

/-- Whether a place is another one or leads down to it. -/
def leadsTo (path other : Path) : Bool :=
  path.isPrefixOf other &&
    (other.drop path.length).head? ∉ [some "..", some topName]

/-! ## Texts -/

/-- The texts between slashes. -/
def splitNames : List Char → List (List Char)
  | [] => [[]]
  | c :: cs =>
      if c = '/' then [] :: splitNames cs
      else
        match splitNames cs with
        | [] => [[c]]
        | name :: names => (c :: name) :: names

/-- The names along a path.  Two slashes have the empty name between them. -/
def names (text : String) : List String :=
  (splitNames text.toList).map String.ofList

/-- Whether a name stands for staying where one is. -/
def isStay (name : String) : Bool := name = "" || name = "."

/-- Where a path starts: a slash in front makes it start from the top. -/
def start (text : String) : Path :=
  if text.startsWith "/" then [topName] else []

/-- The path to a name in the directory that a text leads to; the empty text
leads nowhere further. -/
def join (directory name : String) : String :=
  if directory.isEmpty then name
  else if directory.endsWith "/" then directory ++ name
  else directory ++ "/" ++ name

/-- Whether a path ends in dots, apart from slashes behind them. -/
def endsInDots (text : String) : Bool :=
  ((names text).reverse.find? (· ≠ "")).any fun name => name = "." || name = ".."

/-! ## Limits -/

/-- The greatest size of a name in bytes. -/
def maxName : Nat := 255

/-- The greatest size of a path in bytes. -/
def maxText : Nat := 4095

/-- Whether a text can be asked for as a path at all: it is not too long and has
no zero character. -/
def isAskable (text : String) : Bool :=
  text.utf8ByteSize ≤ maxText && !text.toList.contains '\x00'

end Path
end StructuredStore
