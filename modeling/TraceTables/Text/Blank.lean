/-! Blank characters: the code points with the Unicode property White_Space, and what trimming them off
both ends leaves. -/

namespace TraceTables.Text

/-- The ranges of the property, ends included. -/
def blankRanges : List (Nat × Nat) :=
  [(0x09, 0x0D), (0x20, 0x20), (0x85, 0x85), (0xA0, 0xA0), (0x1680, 0x1680), (0x2000, 0x200A),
   (0x2028, 0x2029), (0x202F, 0x202F), (0x205F, 0x205F), (0x3000, 0x3000)]

def isBlank (c : Char) : Bool := blankRanges.any fun r => r.1 ≤ c.toNat && c.toNat ≤ r.2

/-- Core's white space is blank. -/
theorem isBlank_of_isWhitespace (c : Char) (h : c.isWhitespace = true) : isBlank c = true := by
  simp only [Char.isWhitespace, Bool.or_eq_true, decide_eq_true_eq] at h
  rcases h with ((h | h) | h) | h <;> subst h <;> decide

/-- The code points of the property, one by one. -/
example : blankRanges.foldl (fun n r => n + (r.2 + 1 - r.1)) 0 = 25 := by decide

/-- Drops the blanks at both ends. -/
def trim (cs : List Char) : List Char :=
  ((cs.dropWhile isBlank).reverse.dropWhile isBlank).reverse

/-- Drops every blank. -/
def squeeze (cs : List Char) : List Char := cs.filter fun c => !isBlank c

end TraceTables.Text
