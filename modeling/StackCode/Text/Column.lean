/-! # Text in columns

Padding and digits of the aligned listings.
-/

namespace StackCode.Text

/-- Sets text at the right edge of a column of the given width. -/
def right (width : Nat) (s : String) : String :=
  String.ofList (List.replicate (width - s.length) ' ') ++ s

/-- Sets text at the left edge of a column of the given width. -/
def left (width : Nat) (s : String) : String :=
  s ++ String.ofList (List.replicate (width - s.length) ' ')

/-- Writes a number with leading zeros up to the given width. -/
def zeros (width n : Nat) : String :=
  let digits := Nat.toDigits 10 n
  String.ofList (List.replicate (width - digits.length) '0' ++ digits)

/-- Byte offsets are written with at least four digits. -/
def offset (n : Nat) : String := zeros 4 n

def hexByte (b : UInt8) : String :=
  String.ofList [Nat.digitChar (b.toNat / 16), Nat.digitChar (b.toNat % 16)]

/-- Every text on a line of its own. -/
def lines (texts : List String) : String := String.join (texts.map (· ++ "\n"))

def join (separator : String) (parts : List String) : String :=
  String.intercalate separator parts

end StackCode.Text
