/-!
# Texts

How numbers and settings are read and how values are written: blank characters
at both ends of a text, decimal numbers, quoted texts, and the layout of the
one-line dump of a tree.

## Implementation notes

The layout of dumps is fixed only as far as messages show it. A dump is part of
a message about a program that should not have reached a pass, and nothing reads
it back.
-/

namespace WhileStatics.Text

/-! ### Blank characters -/

/-- The inclusive code point ranges of the Unicode property `White_Space`, in ascending order. -/
def blankRanges : List (Nat × Nat) :=
  [(0x09, 0x0d), (0x20, 0x20), (0x85, 0x85), (0xa0, 0xa0), (0x1680, 0x1680),
    (0x2000, 0x200a), (0x2028, 0x2029), (0x202f, 0x202f), (0x205f, 0x205f),
    (0x3000, 0x3000)]

/-- Membership in one of the ranges. -/
def isBlank (c : Char) : Bool :=
  blankRanges.any fun r => r.1 ≤ c.toNat && c.toNat ≤ r.2

/-- The characters between the first and the last that is not blank. -/
def stripBlank (cs : List Char) : List Char :=
  ((cs.dropWhile isBlank).reverse.dropWhile isBlank).reverse

/-! ### Decimal numbers -/

/-- The number that a nonempty row of decimal digits denotes; leading zeros are allowed. -/
def readDecimal? (cs : List Char) : Option Nat :=
  if cs.isEmpty || !cs.all Char.isDigit then none else some (Nat.ofDigitChars 10 cs 0)

/-- The decimal digits of a number are read back as the number. -/
theorem readDecimal?_toDigits (n : Nat) : readDecimal? (Nat.toDigits 10 n) = some n := by
  have hne : Nat.toDigits 10 n ≠ [] := Nat.toDigits_ne_nil
  have hall : (Nat.toDigits 10 n).all Char.isDigit = true := by
    rw [List.all_eq_true]
    intro c hc
    exact Nat.isDigit_of_mem_toDigits (by decide) (by decide) hc
  simp [readDecimal?, hne, hall, Nat.ofDigitChars_toDigits]

/-! ### Quoted texts -/

/-- The control characters: below the space, and from delete to the end of the second block. -/
def isControl (c : Char) : Bool :=
  c.toNat < 0x20 || (0x7f ≤ c.toNat && c.toNat < 0xa0)

/-- The characters that stand for `c` between two `quote` characters. A backslash, the quote, a line
feed, a carriage return, a tab and the null character have a two-character escape, the remaining
control characters their code point in hexadecimal.

This is exact for characters that print by themselves and for controls. A full debug format also
writes the code points of combining, invisible, private and unassigned characters beyond the
controls, which stand for themselves here. Such characters show in the dumps of the three messages
about malformed trees only, and no result depends on how they are written. -/
def escape (quote c : Char) : List Char :=
  if c = '\x5c' then ['\x5c', '\x5c']
  else if c = quote then ['\x5c', quote]
  else if c = '\n' then ['\x5c', 'n']
  else if c = '\r' then ['\x5c', 'r']
  else if c = '\t' then ['\x5c', 't']
  else if c = '\x00' then ['\x5c', '0']
  else if isControl c then
    ['\x5c', 'u', '\x7b'] ++ Nat.toDigits 16 c.toNat ++ ['\x7d']
  else [c]

/-- A string between double quotes. -/
def quoteString (s : String) : String :=
  String.ofList ('\x22' :: s.toList.flatMap (escape '\x22') ++ ['\x22'])

/-- A character between single quotes. -/
def quoteChar (c : Char) : String :=
  String.ofList ('\x27' :: escape '\x27' c ++ ['\x27'])

/-! ### Layout of dumps -/

/-- A node with named parts between braces. -/
def dumpNode (name : String) (parts : List (String × String)) : String :=
  name ++ " \x7b " ++ ", ".intercalate (parts.map fun p => p.1 ++ ": " ++ p.2) ++ " \x7d"

/-- A node with one unnamed part between parentheses. -/
def dumpWrap (name part : String) : String := name ++ "(" ++ part ++ ")"

/-- The items between brackets, a comma and a space apart. -/
def dumpList (items : List String) : String := "[" ++ ", ".intercalate items ++ "]"

/-- Two items between parentheses. -/
def dumpPair (fst snd : String) : String := "(" ++ fst ++ ", " ++ snd ++ ")"

/-- A part that may be absent. -/
def dumpOption : Option String → String
  | none => "None"
  | some part => dumpWrap "Some" part

end WhileStatics.Text
