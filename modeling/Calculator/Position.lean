import Calculator.Text.Width

/-!
# Lines and columns

`LineTable.ofText` lists the offsets of the line feeds of a text; `LineTable.position` finds the
line and the column of a byte offset by binary search in that list. Lines and columns count from
one, and columns count bytes. An offset beyond the text counts as one on its last line.

* `LineTable.countBelow_le`: the search ends inside the interval in which it looks.
-/

namespace Calculator

/-- A place in a text, as a reader counts it. -/
structure Position where
  line : Nat
  column : Nat
deriving DecidableEq, Repr

/-- The offsets of the line feeds of a text, in ascending order. -/
structure LineTable where
  newlines : Array Nat
deriving Repr

namespace LineTable

/-- The offsets of the line feeds of `cs`, whose first character stands at `offset`, behind those
in `found`. -/
def newlinesFrom (offset : Nat) (found : Array Nat) : List Char → Array Nat
  | [] => found
  | c :: cs =>
    newlinesFrom (offset + c.utf8Size) (if c = '\n' then found.push offset else found) cs

/-- The table of a text. -/
def ofText (text : String) : LineTable := ⟨newlinesFrom 0 #[] text.toList⟩

/-- The number of entries of an ascending table that lie below `bound`, if the first `low` do and
those from `high` on do not. -/
def countBelow (table : Array Nat) (bound low high : Nat) (h : high ≤ table.size) : Nat :=
  if hlt : low < high then
    let middle := low + (high - low) / 2
    if table[middle] < bound then countBelow table bound (middle + 1) high h
    else countBelow table bound low middle (by omega)
  else low
termination_by high - low

/-- The offset at which line `count + 1` starts: one past the `count`th line feed. -/
def lineStart (table : LineTable) : Nat → Nat
  | 0 => 0
  | count + 1 => table.newlines.getD count 0 + 1

/-- The line and the column of `offset`. A line feed is the last character of its line. -/
def position (table : LineTable) (offset : Nat) : Position :=
  let count := countBelow table.newlines offset 0 table.newlines.size (Nat.le_refl _)
  ⟨count + 1, offset - table.lineStart count + 1⟩

theorem countBelow_le (table : Array Nat) (bound low high : Nat) (h : high ≤ table.size)
    (hle : low ≤ high) : low ≤ countBelow table bound low high h ∧
      countBelow table bound low high h ≤ high := by
  fun_induction countBelow table bound low high h with
  | case1 low high h hlt middle hb ih => have := ih (by omega); omega
  | case2 low high h hlt middle hb ih => have := ih (by omega); omega
  | case3 low high h hlt => omega

end LineTable

end Calculator
