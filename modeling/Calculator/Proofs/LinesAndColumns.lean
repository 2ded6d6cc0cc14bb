import Calculator.Position
import Calculator.Proofs.ByteOrder
import Mathlib.Data.List.Perm.Basic

/-!
# Lines and columns by counting

The search in the table of a text finds what counting the newlines in front of an offset gives. No
step of it leaves the words of a machine, and an offset can be had back from its line and its
column.

* `LineTable.position_ofText`: the search in the table counts the line feeds before an offset.
* `Text.mem_lineFeeds_iff` and `Text.filter_lineFeeds_eq`: the line feeds among the characters are
  the newlines among the bytes.
* `LineTable.StepsFit`: the steps of a search stay inside their words.
* `LineTable.position_exact`: what is found for every offset, and how it tells offsets apart.
-/

namespace Calculator

/-! ## Line feeds -/

namespace Text

/-- The offsets of the line feeds in `cs`, whose first character stands at `offset`. -/
def lineFeeds (offset : Nat) : List Char → List Nat
  | [] => []
  | c :: cs =>
    if c = '\n' then offset :: lineFeeds (offset + c.utf8Size) cs
    else lineFeeds (offset + c.utf8Size) cs

/-- The line and the column of an offset: one more than the line feeds before it, and one more than
the bytes since the last of them. -/
def position (text : String) (offset : Nat) : Position :=
  let before := (lineFeeds 0 text.toList).filter (· < offset)
  ⟨before.length + 1, offset - before.getLast?.elim 0 (· + 1) + 1⟩

theorem le_of_mem_lineFeeds {offset n : Nat} {cs : List Char} (h : n ∈ lineFeeds offset cs) :
    offset ≤ n := by
  fun_induction lineFeeds offset cs with
  | case1 => nomatch h
  | case2 offset cs ih =>
    rcases List.mem_cons.mp h with rfl | h
    · exact Nat.le_refl _
    · exact Nat.le_of_add_right_le (ih h)
  | case3 offset c cs hc ih => exact Nat.le_of_add_right_le (ih h)

/-- Line feeds are listed from left to right. -/
theorem pairwise_lineFeeds (offset : Nat) (cs : List Char) :
    (lineFeeds offset cs).Pairwise (· < ·) := by
  fun_induction lineFeeds offset cs with
  | case1 => exact .nil
  | case2 offset cs ih =>
    refine .cons (fun n hn => ?_) ih
    have := le_of_mem_lineFeeds hn
    have := Char.utf8Size_pos '\n'
    omega
  | case3 offset c cs hc ih => exact ih

end Text

namespace LineTable

theorem toList_newlinesFrom (offset : Nat) (found : Array Nat) (cs : List Char) :
    (newlinesFrom offset found cs).toList = found.toList ++ Text.lineFeeds offset cs := by
  induction cs generalizing offset found with
  | nil => simp [newlinesFrom, Text.lineFeeds]
  | cons c cs ih =>
    rw [newlinesFrom, ih, Text.lineFeeds]
    split <;> simp

theorem le_of_mem_take_succ {ns : List Nat} (h : ns.Pairwise (· < ·)) {k n : Nat}
    (hk : k < ns.length) (hn : n ∈ ns.take (k + 1)) : n ≤ ns[k] := by
  rw [← List.take_append_getElem hk] at hn
  rcases List.mem_append.mp hn with hn | hn
  · rw [← List.take_append_drop k ns, List.drop_eq_getElem_cons hk] at h
    exact Nat.le_of_lt ((List.pairwise_append.mp h).2.2 n hn _ List.mem_cons_self)
  · exact Nat.le_of_eq (List.mem_singleton.mp hn)

theorem le_of_mem_drop {ns : List Nat} (h : ns.Pairwise (· < ·)) {k n : Nat} (hk : k < ns.length)
    (hn : n ∈ ns.drop k) : ns[k] ≤ n := by
  have h := h.sublist (List.drop_sublist k ns)
  rw [List.drop_eq_getElem_cons hk] at h hn
  rcases List.mem_cons.mp hn with rfl | hn
  · exact Nat.le_refl _
  · exact Nat.le_of_lt ((List.pairwise_cons.mp h).1 n hn)

/-- The search in an ascending table ends where the entries below the bound end. -/
theorem filter_eq_take_countBelow {table : Array Nat} {bound low high : Nat}
    (h : high ≤ table.size) (hle : low ≤ high) (hsorted : table.toList.Pairwise (· < ·))
    (hlow : ∀ n ∈ table.toList.take low, n < bound)
    (hhigh : ∀ n ∈ table.toList.drop high, bound ≤ n) :
    table.toList.filter (· < bound) = table.toList.take (countBelow table bound low high h) := by
  fun_induction countBelow table bound low high h with
  | case1 low high h hlt middle hbound ih =>
    refine ih (by omega) (fun n hn => ?_) hhigh
    exact Nat.lt_of_le_of_lt (le_of_mem_take_succ hsorted (by simp; omega) hn) hbound
  | case2 low high h hlt middle hbound ih =>
    refine ih (by omega) hlow fun n hn => ?_
    exact Nat.le_trans (Nat.le_of_not_lt hbound) (le_of_mem_drop hsorted (by simp; omega) hn)
  | case3 low high h hlt =>
    obtain rfl : low = high := by omega
    conv_lhs => rw [← List.take_append_drop low table.toList]
    rw [List.filter_append, List.filter_eq_self.mpr (by simpa using hlow),
      List.filter_eq_nil_iff.mpr (by simpa using hhigh), List.append_nil]

theorem lineStart_eq (table : LineTable) {count : Nat} (h : count ≤ table.newlines.size) :
    table.lineStart count = (table.newlines.toList.take count).getLast?.elim 0 (· + 1) := by
  cases count with
  | zero => rfl
  | succ count =>
    have hcount : count < table.newlines.size := h
    rw [List.take_succ_eq_append_getElem hcount, List.getLast?_concat]
    simp [lineStart, Array.getD, hcount]

theorem toList_newlines_ofText (text : String) :
    (ofText text).newlines.toList = Text.lineFeeds 0 text.toList :=
  toList_newlinesFrom 0 #[] text.toList

/-- The line feeds before an offset are the first entries of the table, as many as there are lines
before that of the offset. -/
theorem filter_lineFeeds (text : String) (offset : Nat) :
    (Text.lineFeeds 0 text.toList).filter (· < offset) =
      (Text.lineFeeds 0 text.toList).take (((ofText text).position offset).line - 1) := by
  have htable := toList_newlines_ofText text
  rw [← htable]
  exact filter_eq_take_countBelow (Nat.le_refl _) (Nat.zero_le _)
    (htable ▸ Text.pairwise_lineFeeds 0 text.toList) (show ∀ n ∈ _, n < offset from nofun)
    (by rw [← Array.length_toList, List.drop_length]; nofun)

/-- The line of an offset starts behind the last line feed before it. -/
theorem lineStart_position (text : String) (offset : Nat) :
    (ofText text).lineStart (((ofText text).position offset).line - 1) =
      ((Text.lineFeeds 0 text.toList).filter (· < offset)).getLast?.elim 0 (· + 1) := by
  rw [filter_lineFeeds, ← toList_newlines_ofText]
  exact lineStart_eq _ (countBelow_le _ _ _ _ _ (Nat.zero_le _)).2

/-- The search finds the line and the column that counting gives. -/
theorem position_ofText (text : String) (offset : Nat) :
    (ofText text).position offset = Text.position text offset := by
  have hcount := (countBelow_le (ofText text).newlines offset 0 _ (Nat.le_refl _)
    (Nat.zero_le _)).2
  have hlength : ((Text.lineFeeds 0 text.toList).filter (· < offset)).length =
      ((ofText text).position offset).line - 1 := by
    rw [filter_lineFeeds, List.length_take, ← toList_newlines_ofText, Array.length_toList]
    exact Nat.min_eq_left hcount
  rw [Text.position, hlength, ← lineStart_position]
  rfl

end LineTable

/-! ## Newlines among the bytes -/

namespace Text

theorem length_charBytes (c : Char) : (charBytes c).length = c.utf8Size := by
  rw [charBytes, List.length_map, String.length_utf8EncodeChar]

/-- No other character has the byte of a line feed in it. -/
theorem eq_lineFeed_of_mem_charBytes {c : Char} (h : 10 ∈ charBytes c) : c = '\n' := by
  rw [← Char.toNat_inj, show '\n'.toNat = 10 from rfl]
  rcases charBytes_cases c with ⟨-, hbytes⟩ | ⟨-, -, hbytes⟩ | ⟨-, -, hbytes⟩ | ⟨-, -, hbytes⟩ <;>
    rw [hbytes] at h <;>
    simp only [List.mem_cons, List.not_mem_nil, or_false] at h <;>
    omega

theorem mem_lineFeeds_iff {offset n : Nat} {cs : List Char} : n ∈ lineFeeds offset cs ↔
    offset ≤ n ∧ (cs.flatMap charBytes)[n - offset]? = some 10 := by
  fun_induction lineFeeds offset cs with
  | case1 => simp
  | case2 offset cs ih =>
    have hone : ('\n').utf8Size = 1 := rfl
    rw [List.mem_cons, ih, hone, List.flatMap_cons, show charBytes '\n' = [10] from rfl]
    rcases Nat.lt_trichotomy n offset with hlt | rfl | hlt
    · exact iff_of_false (by omega) (by omega)
    · simp
    · rw [List.getElem?_append_right (by simp; omega), List.length_singleton, Nat.sub_sub]
      exact ⟨fun h => ⟨by omega, (h.resolve_left (by omega)).2⟩, fun h => .inr ⟨by omega, h.2⟩⟩
  | case3 offset c cs hc ih =>
    have hlength := length_charBytes c
    rw [ih, List.flatMap_cons]
    by_cases hbehind : offset + c.utf8Size ≤ n
    · rw [List.getElem?_append_right (by omega), hlength, Nat.sub_sub]
      exact and_congr_left' ⟨fun _ => by omega, fun _ => hbehind⟩
    · refine iff_of_false (fun h => hbehind h.1) fun ⟨hle, h⟩ => hc ?_
      rw [List.getElem?_append_left (by omega)] at h
      exact eq_lineFeed_of_mem_charBytes (List.mem_of_getElem? h)

/-- The positions of the newlines among the bytes of a text, up to an offset. -/
def newlinesBefore (text : String) (offset : Nat) : List Nat :=
  (List.range offset).filter fun i => (bytes text)[i]? = some 10

/-- The line feeds among the characters are the newlines among the bytes. -/
theorem filter_lineFeeds_eq (text : String) (offset : Nat) :
    (lineFeeds 0 text.toList).filter (· < offset) = newlinesBefore text offset := by
  have hfeeds := (pairwise_lineFeeds 0 text.toList).filter (· < offset)
  have hbytes : (newlinesBefore text offset).Pairwise (· < ·) := List.pairwise_lt_range.filter _
  refine List.Perm.eq_of_pairwise (fun a b _ _ hab hba => absurd hba (Nat.lt_asymm hab)) hfeeds
    hbytes ?_
  refine (List.perm_ext_iff_of_nodup (hfeeds.imp Nat.ne_of_lt) (hbytes.imp Nat.ne_of_lt)).mpr ?_
  intro n
  simp [newlinesBefore, mem_lineFeeds_iff, bytes_eq_flatMap, and_comm]

/-- Where the line of an offset starts: behind the last newline before it. -/
def lineStart (text : String) (offset : Nat) : Nat :=
  (newlinesBefore text offset).getLast?.elim 0 (· + 1)

theorem lineStart_le (text : String) (offset : Nat) : lineStart text offset ≤ offset := by
  unfold lineStart
  cases hlast : (newlinesBefore text offset).getLast? with
  | none => exact Nat.zero_le _
  | some n =>
    exact List.mem_range.mp (List.mem_filter.mp (List.mem_of_getLast? hlast)).1

/-- Behind an offset there may be further newlines. -/
theorem exists_newlinesBefore_append (text : String) {a b : Nat} (h : a ≤ b) :
    ∃ more, newlinesBefore text b = newlinesBefore text a ++ more := by
  obtain ⟨k, rfl⟩ := Nat.exists_eq_add_of_le h
  rw [newlinesBefore, List.range_add, List.filter_append]
  exact ⟨_, rfl⟩

end Text

/-! ## The search -/

/-- Of two positions, the one on the earlier line comes first, or in the earlier column of one
line. -/
def Position.Before (p q : Position) : Prop :=
  p.line < q.line ∨ p.line = q.line ∧ p.column < q.column

instance (p q : Position) : Decidable (p.Before q) := inferInstanceAs (Decidable (_ ∨ _))

namespace LineTable

/-- The offset at which a position stands. -/
def offsetOf (table : LineTable) (p : Position) : Nat :=
  table.lineStart (p.line - 1) + (p.column - 1)

/-- No step of the search for an offset leaves its word. Offsets are kept in 32 bits, lines and
columns in 64. -/
structure StepsFit (table : LineTable) (offset : Nat) : Prop where
  /-- What is put into the table is kept as it is. -/
  entry_lt : ∀ entry ∈ table.newlines, entry < UInt32.size
  /-- One past a line feed is an offset. -/
  lineStart_lt : table.lineStart ((table.position offset).line - 1) < UInt32.size
  /-- The start of the line is taken off the offset. -/
  lineStart_le : table.lineStart ((table.position offset).line - 1) ≤ offset
  line_lt : (table.position offset).line < UInt64.size
  column_lt : (table.position offset).column < UInt64.size

variable (text : String)

theorem lt_of_mem_newlines {entry : Nat} (h : entry ∈ (ofText text).newlines) :
    entry < text.utf8ByteSize := by
  rw [← Array.mem_toList_iff, toList_newlines_ofText, Text.mem_lineFeeds_iff,
    ← Text.bytes_eq_flatMap] at h
  obtain ⟨hlt, -⟩ := List.getElem?_eq_some_iff.mp h.2
  rwa [Text.bytes, List.length_map] at hlt

theorem position_eq (offset : Nat) : (ofText text).position offset =
    ⟨1 + (Text.newlinesBefore text offset).length, 1 + offset - Text.lineStart text offset⟩ := by
  have hle := Text.lineStart_le text offset
  rw [position_ofText, Text.position, Text.filter_lineFeeds_eq, Position.mk.injEq]
  exact ⟨Nat.add_comm .., by rw [← Text.lineStart]; omega⟩

theorem lineStart_position_eq (offset : Nat) :
    (ofText text).lineStart (((ofText text).position offset).line - 1) =
      Text.lineStart text offset := by
  rw [lineStart_position, Text.filter_lineFeeds_eq]
  rfl

theorem stepsFit_ofText (hsize : text.utf8ByteSize < UInt32.size) {offset : Nat}
    (hoffset : offset < UInt32.size) : (ofText text).StepsFit offset := by
  have hle := Text.lineStart_le text offset
  have hlines : (Text.newlinesBefore text offset).length ≤ offset :=
    Nat.le_trans (List.length_filter_le ..) (Nat.le_of_eq List.length_range)
  have hwords : UInt32.size < UInt64.size := by decide
  refine ⟨fun entry hentry => Nat.lt_trans (lt_of_mem_newlines text hentry) hsize, ?_, ?_, ?_, ?_⟩
  · rw [lineStart_position_eq]
    omega
  · rw [lineStart_position_eq]
    exact hle
  · rw [position_eq]
    dsimp only
    omega
  · rw [position_eq]
    dsimp only
    omega

/-- A greater offset stands on a later line, or further on in the line. -/
theorem position_before {a b : Nat} (h : a < b) :
    ((ofText text).position a).Before ((ofText text).position b) := by
  obtain ⟨more, hmore⟩ := Text.exists_newlinesBefore_append text (Nat.le_of_lt h)
  have ha := Text.lineStart_le text a
  have hb := Text.lineStart_le text b
  rw [position_eq, position_eq]
  cases more with
  | nil =>
    rw [List.append_nil] at hmore
    have hstart : Text.lineStart text b = Text.lineStart text a := by
      rw [Text.lineStart, hmore, Text.lineStart]
    refine .inr ⟨by rw [hmore], ?_⟩
    dsimp only
    omega
  | cons n more =>
    refine .inl ?_
    dsimp only
    rw [hmore, List.length_append, List.length_cons]
    omega

theorem offsetOf_position (offset : Nat) :
    (ofText text).offsetOf ((ofText text).position offset) = offset := by
  have hle := Text.lineStart_le text offset
  rw [offsetOf, lineStart_position_eq, position_eq]
  dsimp only
  omega

/-- The search finds, for every offset of 32 bits, the newlines before it and the bytes behind the
last of them, each counted from one, and no step of it leaves its word; this is so beyond the text,
too. Greater offsets have later positions, and an offset is had back from its position. -/
theorem position_exact (text : String) (hsize : text.utf8ByteSize < UInt32.size) :
    (∀ offset < UInt32.size, (ofText text).position offset =
        ⟨1 + (Text.newlinesBefore text offset).length, 1 + offset - Text.lineStart text offset⟩ ∧
      (ofText text).StepsFit offset ∧
      (ofText text).offsetOf ((ofText text).position offset) = offset) ∧
    ∀ a b, a < b → ((ofText text).position a).Before ((ofText text).position b) := by
  refine ⟨fun offset hoffset => ?_, fun a b => position_before text⟩
  exact ⟨position_eq text offset, stepsFit_ofText text hsize hoffset, offsetOf_position text offset⟩

/-- Between two newlines, behind a character of two bytes, and beyond the text. -/
theorem position_exact_newlines :
    let text := "\u00e9\n\n+"
    text.utf8ByteSize < UInt32.size ∧
      (ofText text).position 3 = ⟨2, 1⟩ ∧
      (ofText text).StepsFit 4294967295 ∧
      (ofText text).offsetOf ((ofText text).position 4294967295) = 4294967295 ∧
      ((ofText text).position 3).Before ((ofText text).position 4) := by
  intro text
  have hsize : text.utf8ByteSize < UInt32.size := by decide +kernel
  obtain ⟨hposition, hbefore⟩ := position_exact text hsize
  obtain ⟨-, hfit, hback⟩ := hposition 4294967295 (by decide)
  refine ⟨hsize, ?_, hfit, hback, hbefore 3 4 (by decide)⟩
  rw [(hposition 3 (by decide)).1]
  decide +kernel

end LineTable

end Calculator
