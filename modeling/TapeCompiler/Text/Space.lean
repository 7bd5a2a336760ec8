/-!
# White space

The characters that separate words of a text, and cutting them off at both ends. `isSpace` is the
Unicode property `White_Space`; `isPadding` is the narrower class that may stand between the parts
of one line.
-/

namespace TapeCompiler.Text

/-- The Unicode property `White_Space`. -/
def isSpace (c : Char) : Bool :=
  (0x09 ≤ c.toNat && c.toNat ≤ 0x0D) || c.toNat == 0x20 || c.toNat == 0x85 || c.toNat == 0xA0 ||
  c.toNat == 0x1680 || (0x2000 ≤ c.toNat && c.toNat ≤ 0x200A) || c.toNat == 0x2028 ||
  c.toNat == 0x2029 || c.toNat == 0x202F || c.toNat == 0x205F || c.toNat == 0x3000

/-- Spaces and tabs, which pad the parts of a line. -/
def isPadding (c : Char) : Bool := c == ' ' || c == '\t'

/-- The text without the white space at its two ends. -/
def trim (cs : List Char) : List Char :=
  ((cs.dropWhile isSpace).reverse.dropWhile isSpace).reverse

/-- Padding is white space. -/
theorem isSpace_of_isPadding {c : Char} (h : isPadding c = true) : isSpace c = true := by
  simp only [isPadding, Bool.or_eq_true, beq_iff_eq] at h
  rcases h with rfl | rfl <;> decide

end TapeCompiler.Text
