import Mathlib.Data.List.Lex
import Calculator.Text.Width

/-!
# The order of the bytes of a text

Texts compare by code points and also by the bytes of their UTF-8 encoding, and both comparisons
have the same result: a greater character has the greater bytes, and no encoding is the beginning of
another.

* `Text.bytes`: the bytes of a text.
* `Text.charBytes_append_lt`: the step, at the first character in which two texts differ.
* `Text.bytes_le_iff` and `Text.bytes_inj`: the bytes order the texts, and tell them apart.
-/

namespace Calculator

namespace Text

/-- The bytes of a character. -/
def charBytes (c : Char) : List Nat := (String.utf8EncodeChar c).map UInt8.toNat

/-- The bytes of a text. -/
def bytes (text : String) : List Nat := text.toByteArray.data.toList.map UInt8.toNat

theorem bytes_eq_flatMap (text : String) : bytes text = text.toList.flatMap charBytes := by
  rw [bytes, ← String.utf8Encode_toList, List.utf8Encode, List.data_toByteArray, List.map_flatMap]
  rfl

variable {c d : Char} {s t : List Nat}

/-- The bytes of a character: the digits of its code point, behind a mark for their number. -/
theorem charBytes_cases (c : Char) :
    c.toNat < 0x80 ∧ charBytes c = [c.toNat] ∨
    0x80 ≤ c.toNat ∧ c.toNat < 0x800 ∧ charBytes c = [c.toNat / 64 + 0xC0, c.toNat % 64 + 0x80] ∨
    0x800 ≤ c.toNat ∧ c.toNat < 0x10000 ∧ charBytes c =
      [c.toNat / 4096 + 0xE0, c.toNat / 64 % 64 + 0x80, c.toNat % 64 + 0x80] ∨
    0x10000 ≤ c.toNat ∧ c.toNat < 0x110000 ∧ charBytes c =
      [c.toNat / 262144 + 0xF0, c.toNat / 4096 % 64 + 0x80, c.toNat / 64 % 64 + 0x80,
        c.toNat % 64 + 0x80] := by
  have hmax : c.toNat < 0x110000 := by
    have hvalid := c.valid
    simp only [UInt32.isValidChar, Nat.isValidChar] at hvalid
    show c.val.toNat < _
    omega
  have hbytes : charBytes c = (String.utf8EncodeChar c).map UInt8.toNat := rfl
  simp only [String.utf8EncodeChar, show c.val.toNat = c.toNat from rfl] at hbytes
  rw [hbytes]
  split_ifs <;>
    simp only [List.map_cons, List.map_nil, UInt8.toNat_ofNat', List.cons.injEq, and_true] <;>
    omega

theorem charBytes_ne_nil (c : Char) : charBytes c ≠ [] := by
  rcases charBytes_cases c with ⟨-, h⟩ | ⟨-, -, h⟩ | ⟨-, -, h⟩ | ⟨-, -, h⟩ <;>
    rw [h] <;>
    exact List.cons_ne_nil _ _

/-- The bytes of a greater character are greater, whatever stands behind them. -/
theorem charBytes_append_lt (h : c < d) (s t : List Nat) : charBytes c ++ s < charBytes d ++ t := by
  have hlt : c.toNat < d.toNat := h
  rcases charBytes_cases c with ⟨hc, hbytes⟩ | ⟨hc, hc', hbytes⟩ | ⟨hc, hc', hbytes⟩ |
      ⟨hc, hc', hbytes⟩ <;>
    rcases charBytes_cases d with ⟨hd, hbytes'⟩ | ⟨hd, hd', hbytes'⟩ | ⟨hd, hd', hbytes'⟩ |
      ⟨hd, hd', hbytes'⟩ <;>
    rw [hbytes, hbytes'] <;>
    simp only [List.cons_append, List.nil_append, List.cons_lt_cons_iff] <;>
    omega

/-- At the first character in which two lists differ, so do the bytes. -/
theorem flatMap_charBytes_lt {cs ds : List Char} (h : cs < ds) :
    cs.flatMap charBytes < ds.flatMap charBytes := by
  induction h with
  | nil =>
    rename_i d ds
    rw [List.flatMap_nil, List.flatMap_cons]
    obtain ⟨byte, bytes, hd⟩ := List.exists_cons_of_ne_nil (charBytes_ne_nil d)
    rw [hd]
    exact List.nil_lt_cons _ _
  | cons _ ih => exact List.Lex.append_left _ ih _
  | rel h => exact charBytes_append_lt h _ _

theorem bytes_lt_iff {a b : String} : bytes a < bytes b ↔ a < b := by
  have hlt {a b : String} (h : a < b) : bytes a < bytes b := by
    rw [bytes_eq_flatMap, bytes_eq_flatMap]
    exact flatMap_charBytes_lt (String.lt_iff.mp h)
  refine ⟨fun h => ?_, hlt⟩
  by_contra hab
  by_cases hba : b < a
  · exact lt_asymm h (hlt hba)
  · obtain rfl := String.le_antisymm (String.not_lt.mp hba) (String.not_lt.mp hab)
    exact lt_irrefl _ h

theorem bytes_le_iff {a b : String} : bytes a ≤ bytes b ↔ a ≤ b := by
  rw [← not_lt, bytes_lt_iff, String.not_lt]

theorem bytes_inj {a b : String} : bytes a = bytes b ↔ a = b := by
  refine ⟨fun h => String.le_antisymm ?_ ?_, fun h => h ▸ rfl⟩
  · exact bytes_le_iff.mp (le_of_eq h)
  · exact bytes_le_iff.mp (ge_of_eq h)

end Text

end Calculator
