import CodeGraph.Text.Ranges

namespace CodeGraph.Text

/-!
# Character classes

The classes cover the whole code space. A letter or digit is a code point that is alphabetic or
numeric; a blank is one of the twenty-five white-space code points.
-/

def inRanges (table : Array (Nat × Nat)) (n : Nat) : Bool :=
  table.any fun (lo, hi) => lo ≤ n && n ≤ hi

/-- ASCII letters, and beyond ASCII the property `Alphabetic`. -/
def isAlphabetic (c : Char) : Bool :=
  if c.toNat < 128 then c.isAlpha else inRanges alphabeticRanges c.toNat

/-- ASCII digits, and beyond ASCII the numeric categories. -/
def isNumeric (c : Char) : Bool :=
  if c.toNat < 128 then c.isDigit else inRanges numericRanges c.toNat

def isAlphanumeric (c : Char) : Bool :=
  isAlphabetic c || isNumeric c

def isUppercase (c : Char) : Bool :=
  if c.toNat < 128 then c.isUpper else inRanges uppercaseRanges c.toNat

/-- White space: tab to carriage return, space, and the wider spaces of other scripts. -/
def isBlank (c : Char) : Bool :=
  let n := c.toNat
  (9 ≤ n && n ≤ 13) || n == 0x20 || n == 0x85 || n == 0xA0 || n == 0x1680 ||
    (0x2000 ≤ n && n ≤ 0x200A) || n == 0x2028 || n == 0x2029 || n == 0x202F || n == 0x205F ||
    n == 0x3000

theorem isBlank_of_isWhitespace {c : Char} (h : c.isWhitespace) : isBlank c := by
  simp only [Char.isWhitespace, Bool.or_eq_true, decide_eq_true_eq] at h
  rcases h with ((h | h) | h) | h <;> subst h <;> decide

/-- ASCII capitals become small, all else stays. -/
def lowerAscii (s : String) : String :=
  s.map Char.toLower

def upperAscii (s : String) : String :=
  s.map Char.toUpper

def eqIgnoreCase (a b : String) : Bool :=
  lowerAscii a == lowerAscii b

end CodeGraph.Text
