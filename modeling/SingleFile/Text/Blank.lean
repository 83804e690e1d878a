/-!
# Blank characters

Three sets of blank characters are in use. Markup tags are separated by the
ASCII blanks with form feed, the tags of top-level blocks by the ASCII blanks
without it, and interpolated expressions are trimmed of every character with the
Unicode property White_Space.
-/

namespace SingleFile.Text

/-- Blanks between the parts of a markup tag: space, tab, line feed, form feed
and carriage return. -/
def isTagBlank (c : Char) : Bool :=
  c = ' ' || c = '\t' || c = '\n' || c = '\x0c' || c = '\r'

/-- Blanks between the parts of a block's opening or closing tag: space, tab,
carriage return and line feed. -/
def isBlockBlank (c : Char) : Bool :=
  c = ' ' || c = '\t' || c = '\r' || c = '\n'

/-- The characters with the Unicode property White_Space. -/
def isBlank (c : Char) : Bool :=
  (0x9 ≤ c.toNat && c.toNat ≤ 0xd) || c.toNat = 0x20 || c.toNat = 0x85 || c.toNat = 0xa0 ||
  c.toNat = 0x1680 || (0x2000 ≤ c.toNat && c.toNat ≤ 0x200a) || c.toNat = 0x2028 ||
  c.toNat = 0x2029 || c.toNat = 0x202f || c.toNat = 0x205f || c.toNat = 0x3000

/-- The text without the blanks at its two ends. -/
def trim (text : List Char) : List Char :=
  ((text.dropWhile isBlank).reverse.dropWhile isBlank).reverse

end SingleFile.Text
