import Mathlib

/-!
# Packing floats

A float is a word of 64 bits; its operations take the word apart, compute, and pack the result. The
packing loses digits that do not fit, but never what kind of float it is: only NaN becomes NaN, and
a number in normal form stays as it is.

* `normal_packComponents`: a word with an exponent between the least and the greatest.
* `canonical_unpack`: the mantissas and exponents that a float can have.
* `isNaN_unpack_pack`: only NaN is packed as NaN.
* `Normal`: a number in normal form, with bounds on its exponent; `Normal.unpack_pack`: such a
  number is packed without loss.
-/

namespace Calculator.Floats

open Float.Model (UnpackedFloat Format)
open Float.Model.UnpackedFloat

/-- A float that has the sign `s` and is not zero, in normal form: a mantissa of 53 bits, and an
exponent from `low` to `high`. -/
def Normal (s : UnpackedFloat.Sign) (low high : Int) (u : UnpackedFloat) : Prop :=
  ∃ m e h, u = .finite s m e h ∧ 2 ^ 52 ≤ m ∧ m < 2 ^ 53 ∧ low ≤ e ∧ e ≤ high

/-- The mantissa and the exponent of a number other than zero that a float can have. Only at the
least exponent the mantissa has less than 53 bits. -/
structure Canonical (m : Nat) (e : Int) : Prop where
  mantissa_lt : m < 2 ^ 53
  le_exponent : -1074 ≤ e
  exponent_le : e ≤ 971
  normal : 2 ^ 52 ≤ m ∨ e = -1074

/-! ## Words and their parts -/

section Words

variable (s : UnpackedFloat.Sign)

theorem unpack_packedInfinity :
    unpack Format.binary64 (packedInfinity Format.binary64 s) = .infinity s := by
  simp [unpack, packedInfinity]

/-- A word is a number unless it has the greatest exponent. -/
theorem isFinite_unpack {w : BitVec Format.binary64.numBits} (h : unpackExponent w ≠ -1#11) :
    (unpack Format.binary64 w).isFinite = true := by
  unfold unpack
  dsimp only
  rw [if_neg h]
  split
  · split <;> rfl
  · rfl

theorem ofNat_ne_greatest {biased : Nat} (h : biased < 2047) : BitVec.ofNat 11 biased ≠ -1#11 := by
  intro heq
  have hall := congrArg BitVec.toNat heq
  rw [BitVec.toNat_ofNat, Nat.mod_eq_of_lt (by omega), show (-1#11).toNat = 2047 from rfl] at hall
  omega

/-- The first bit of a mantissa is not in the word. -/
theorem toNat_one_append (m : BitVec 52) : (1#1 ++ m).toNat = 2 ^ 52 + m.toNat := by
  rw [BitVec.toNat_append, ← Nat.shiftLeft_add_eq_or_of_lt m.isLt]
  rfl

/-- A word with an exponent between the least and the greatest is a number in normal form. -/
theorem normal_packComponents {biased : Nat} (hpos : 0 < biased) (hlt : biased < 2047)
    (m : BitVec 52) : Normal s (biased - 1075) (biased - 1075)
      (unpack Format.binary64 (packComponents Format.binary64 s (BitVec.ofNat 11 biased) m)) := by
  have hnat : (BitVec.ofNat 11 biased).toNat = biased := by
    rw [BitVec.toNat_ofNat, Nat.mod_eq_of_lt (by omega)]
  have hleast : BitVec.ofNat 11 biased ≠ 0#11 := fun h => by
    have hnone : biased = (0#11).toNat := hnat.symm.trans (congrArg BitVec.toNat h)
    rw [show (0#11).toNat = 0 from rfl] at hnone
    omega
  have hmantissa := toNat_one_append m
  have hm := m.isLt
  refine ⟨(1#1 ++ m).toNat, biased - 1075, by omega, ?_, by omega, by omega, Int.le_refl _,
    Int.le_refl _⟩
  simp only [unpack, unpackExponent_packComponents, unpackMantissa_packComponents,
    unpackSign_packComponents, UnpackedFloat.Sign.ofBitVec_toBitVec, hnat,
    if_neg (ofNat_ne_greatest hlt), if_neg hleast]
  rfl

end Words

/-! ## Packing -/

section Packing

variable {s : UnpackedFloat.Sign} {m : Nat} {e : Int} {hm : 0 < m}

/-- The exponent that is packed; the least and the greatest one have a meaning of their own. -/
theorem biased_eq (e : Int) : (e + (Format.binary64.exponentBias : Int) +
    (Format.binary64.mantissaBitsWithoutImplicit : Nat)).toNat = (e + 1075).toNat := by
  show (e + 1023 + 52).toNat = (e + 1075).toNat
  omega

/-- The number in a word is one that a float can have. -/
theorem canonical_unpack {w : BitVec Format.binary64.numBits}
    (h : unpack Format.binary64 w = .finite s m e hm) : Canonical m e := by
  have hlt : (unpackExponent w).toNat < 2 ^ 11 := (unpackExponent w).isLt
  have hrest : (unpackMantissa w).toNat < 2 ^ 52 := (unpackMantissa w).isLt
  have hbias : Format.binary64.exponentBias = 1023 := rfl
  unfold unpack at h
  dsimp only at h
  split at h
  · split at h <;> nomatch h
  · next hgreatest =>
    have hne : (unpackExponent w).toNat ≠ 2047 := fun heq => hgreatest (BitVec.eq_of_toNat_eq heq)
    rw [hbias] at h
    split at h
    · next hleast =>
      split at h
      · nomatch h
      · injection h with _ hmantissa he
        rw [hleast, show (0#11).toNat = 0 from rfl] at he
        exact ⟨by omega, by omega, by omega, .inr (by omega)⟩
    · next hleast =>
      have hpos : (unpackExponent w).toNat ≠ 0 := fun heq => hleast (BitVec.eq_of_toNat_eq heq)
      injection h with _ hmantissa he
      rw [toNat_one_append] at hmantissa
      exact ⟨by omega, by omega, by omega, .inl (by omega)⟩

/-- A number that is too great becomes infinity. -/
theorem unpack_pack_of_lt (h : 971 < e) :
    unpack Format.binary64 (pack Format.binary64 (.finite s m e hm)) = .infinity s := by
  have hgreat : 2 ^ 11 ≤ (e + 1075).toNat + 1 := by omega
  unfold pack
  dsimp only
  rw [biased_eq, if_pos hgreat, unpack_packedInfinity]

/-- A number that is not too great remains a number. -/
theorem isFinite_unpack_pack (h : e ≤ 971) :
    (unpack Format.binary64 (pack Format.binary64 (.finite s m e hm))).isFinite = true := by
  have hfits : (e + 1075).toNat < 2047 := by omega
  unfold pack
  dsimp only
  rw [biased_eq, if_neg (by omega)]
  apply isFinite_unpack
  split
  · rw [unpackExponent_packComponents]
    exact ofNat_ne_greatest hfits
  · rw [unpackExponent_packComponents]
    decide

/-- Only NaN is packed as NaN. -/
theorem isNaN_unpack_pack (u : UnpackedFloat) :
    (unpack Format.binary64 (pack Format.binary64 u)).isNaN = u.isNaN := by
  cases u with
  | notANumber => rw [pack, unpack_packedNaN]
  | infinity s => rw [pack, unpack_packedInfinity]
  | zero s => rw [pack, unpack_packedZero]
  | finite s m e hm =>
    by_cases h : e ≤ 971
    · have hfinite : (unpack Format.binary64
          (pack Format.binary64 (.finite s m e hm))).isFinite = true := isFinite_unpack_pack h
      cases hu : unpack Format.binary64 (pack Format.binary64 (.finite s m e hm)) with
      | notANumber =>
        rw [hu] at hfinite
        nomatch hfinite
      | _ => rfl
    · rw [unpack_pack_of_lt (by omega)]
      rfl

/-- A number in normal form is packed without loss of its form, if its exponent is one that fits. -/
theorem Normal.unpack_pack {low high : Int} {u : UnpackedFloat} (h : Normal s low high u)
    (hlow : -1074 ≤ low) (hhigh : high ≤ 971) :
    Normal s low high (unpack Format.binary64 (pack Format.binary64 u)) := by
  obtain ⟨m, e, hm, rfl, hleast, hgreatest, hle, hge⟩ := h
  have hbits : m.log2 = 52 := (Nat.log2_eq_iff (by omega)).mpr ⟨hleast, hgreatest⟩
  obtain ⟨biased, hbiased⟩ : ∃ biased : Nat, (biased : Int) = e + 1075 :=
    ⟨(e + 1075).toNat, Int.toNat_of_nonneg (by omega)⟩
  have hpack : pack Format.binary64 (.finite s m e hm) = packComponents Format.binary64 s
      (BitVec.ofNat 11 biased) (BitVec.ofNat 52 m) := by
    have hnat : (e + 1075).toNat = biased := by omega
    unfold pack
    dsimp only
    rw [biased_eq, hnat, hbits, if_neg (by omega)]
    exact if_pos rfl
  rw [hpack]
  obtain ⟨m', e', hm', heq, hleast', hgreatest', hle', hge'⟩ :=
    normal_packComponents s (show 0 < biased by omega) (by omega) (BitVec.ofNat 52 m)
  exact ⟨m', e', hm', heq, hleast', hgreatest', by omega, by omega⟩

end Packing

end Calculator.Floats
