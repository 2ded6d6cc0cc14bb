/-!
# Widths of texts

The number of bytes that a list of characters takes in UTF-8. Offsets and spans count these bytes.

* `Text.utf8ByteSize_ofList`: the width of a list is the size of its string.
* `Text.append_inj_of_width`: an offset is one place in a text at most.
-/

namespace Calculator.Text

/-- The number of bytes of `cs`. -/
def width : List Char → Nat
  | [] => 0
  | c :: cs => c.utf8Size + width cs

@[simp] theorem width_nil : width [] = 0 := rfl

@[simp] theorem width_cons (c : Char) (cs : List Char) : width (c :: cs) = c.utf8Size + width cs :=
  rfl

@[simp] theorem width_append (cs ds : List Char) : width (cs ++ ds) = width cs + width ds := by
  induction cs with
  | nil => simp
  | cons c cs ih => simp [ih, Nat.add_assoc]

theorem utf8ByteSize_ofList (cs : List Char) : (String.ofList cs).utf8ByteSize = width cs := by
  induction cs with
  | nil => rfl
  | cons c cs ih =>
    rw [String.ofList_cons, String.utf8ByteSize_append, String.utf8ByteSize_singleton, ih,
      width_cons]

/-- The width of the characters of a text is the size of the text. -/
theorem width_toList (text : String) : width text.toList = text.utf8ByteSize := by
  rw [← utf8ByteSize_ofList, String.ofList_toList]

/-- Every character takes a byte at least. -/
theorem length_le_width (cs : List Char) : cs.length ≤ width cs := by
  induction cs with
  | nil => exact Nat.le_refl _
  | cons c cs ih =>
    have := c.utf8Size_pos
    simp only [List.length_cons, width_cons]
    omega

/-- No character stands between two offsets that are no further apart than this. -/
theorem eq_nil_of_width_le {offset : Nat} {cs : List Char} (h : offset + width cs ≤ offset) :
    cs = [] := by
  have := length_le_width cs
  exact List.length_eq_zero_iff.mp (by omega)

/-- What reaches further into a text goes on behind what ends earlier. -/
theorem exists_append_of_width_le {piece front rest back : List Char}
    (h : piece ++ rest = front ++ back) (hle : width piece ≤ width front) :
    ∃ more, front = piece ++ more ∧ rest = more ++ back := by
  rcases List.append_eq_append_iff.mp h with ⟨more, hfront, hrest⟩ | ⟨more, rfl, rfl⟩
  · exact ⟨more, hfront, hrest⟩
  · rw [width_append] at hle
    obtain rfl := eq_nil_of_width_le hle
    exact ⟨[], by rw [List.append_nil, List.append_nil], rfl⟩

/-- A text can be cut in one way at an offset. -/
theorem append_inj_of_width {cs cs' ds ds' : List Char} (h : cs ++ ds = cs' ++ ds')
    (hwidth : width cs = width cs') : cs = cs' ∧ ds = ds' := by
  obtain ⟨more, rfl, rfl⟩ := exists_append_of_width_le h (Nat.le_of_eq hwidth)
  rw [width_append] at hwidth
  obtain rfl := eq_nil_of_width_le (Nat.le_of_eq hwidth.symm)
  exact ⟨(List.append_nil cs).symm, rfl⟩

end Calculator.Text
