import Calculator.Number.Binary
import Calculator.Proofs.Floats.Operations

/-!
# The signs of floats

A float and its opposite are one word up to the first bit, so that nothing is lost when the opposite
is taken, and taking it twice gives the same float, zeros included.

* `unpack_neg`, `neg_neg_eq`: the opposite of a float.
* `signBit_eq_true_iff`, `signBit_neg`: the sign bit of a float and of its opposite.
* `unpack_of_signBit_eq_false`: the floats without a sign.
-/

namespace Calculator.Floats

open Float.Model (UnpackedFloat Format)
open Float.Model.UnpackedFloat

/-! ## Words with the other sign -/

section Words

variable {w : BitVec Format.binary64.numBits} {s : UnpackedFloat.Sign}

/-- The sign of a float; NaN has none. -/
def sign? : UnpackedFloat → Option UnpackedFloat.Sign
  | .notANumber => none
  | .infinity s | .zero s | .finite s .. => some s

theorem sign?_neg (u : UnpackedFloat) : sign? u.neg = (sign? u).map (- ·) := by
  cases u <;> rfl

/-- The first bit of a word is its sign. -/
theorem sign_unpack (h : sign? (unpack Format.binary64 w) = some s) :
    unpackSign w = s.toBitVec := by
  rw [← UnpackedFloat.Sign.toBitVec_ofBitVec (unpackSign w)]
  unfold unpack at h
  dsimp only at h
  split at h
  · split at h
    · exact congrArg _ (Option.some.inj h)
    · nomatch h
  · split at h
    · split at h <;> exact congrArg _ (Option.some.inj h)
    · exact congrArg _ (Option.some.inj h)

/-- The opposite of the number in a word is the number in the word with the other sign. -/
theorem unpack_packComponents_neg (s : UnpackedFloat.Sign) (e : BitVec 11) (m : BitVec 52) :
    unpack Format.binary64 (packComponents Format.binary64 (-s) e m) =
      (unpack Format.binary64 (packComponents Format.binary64 s e m)).neg := by
  unfold unpack
  simp only [unpackExponent_packComponents, unpackMantissa_packComponents,
    unpackSign_packComponents, UnpackedFloat.Sign.ofBitVec_toBitVec]
  split
  · split <;> rfl
  · split
    · split <;> rfl
    · rfl

/-- The opposite of a number in a word is packed without loss. -/
theorem unpack_pack_neg (w : BitVec Format.binary64.numBits) :
    unpack Format.binary64 (pack Format.binary64 (unpack Format.binary64 w).neg) =
      (unpack Format.binary64 w).neg := by
  by_cases hgreatest : unpackExponent w = -1#11
  · have hspecial : unpack Format.binary64 w = .notANumber ∨
        ∃ s, unpack Format.binary64 w = .infinity s := by
      unfold unpack
      dsimp only
      rw [if_pos hgreatest]
      split
      · exact .inr ⟨_, rfl⟩
      · exact .inl rfl
    rcases hspecial with h | ⟨s, h⟩
    · rw [h, neg, pack, unpack_packedNaN]
    · rw [h, neg, pack, unpack_packedInfinity]
  · -- The word with the other sign is valid, so that it is what is packed.
    have hparts := packComponents_unpackSign_unpackExponent_unpackMantissa w
    generalize Sign.ofBitVec (unpackSign w) = s at hparts
    have hvalid : Format.binary64.Valid
        (packComponents Format.binary64 (-s) (unpackExponent w) (unpackMantissa w)) :=
      ⟨fun h => absurd (unpackExponent_packComponents.symm.trans h) hgreatest⟩
    have hneg := unpack_packComponents_neg s (unpackExponent w) (unpackMantissa w)
    rw [hparts] at hneg
    rw [← hneg, pack_unpack_of_valid hvalid]

end Words

/-! ## Floats and their opposites -/

variable {x y : Float} {s : UnpackedFloat.Sign}

/-- A float is what it is taken apart into. -/
theorem eq_of_unpack_eq (h : x.toModel.unpack = y.toModel.unpack) : x = y := by
  have hbits := (unpack_inj_of_valid x.toModel.valid y.toModel.valid).mp h
  exact Float.toBits_inj.mp (UInt64.toBitVec_inj.mp hbits)

theorem ofModel_pack_unpack (x : Float) : Float.ofModel (.pack x.toModel.unpack) = x := by
  refine Float.toBits_inj.mp (UInt64.toBitVec_inj.mp ?_)
  exact pack_unpack_of_valid x.toModel.valid

theorem unpack_neg (x : Float) : (-x).toModel.unpack = x.toModel.unpack.neg :=
  unpack_pack_neg x.toModel.toBits.toBitVec

theorem neg_neg_eq (x : Float) : -(-x) = x := by
  refine eq_of_unpack_eq ?_
  rw [unpack_neg, unpack_neg]
  rcases x.toModel.unpack with (_ | _) | _ | (_ | _) | ⟨_ | _, _, _, _⟩ <;> rfl

theorem exists_sign (h : x.isFinite = true) : ∃ s, sign? x.toModel.unpack = some s := by
  rcases zero_or_finite h with ⟨s, hx⟩ | ⟨s, m, e, hm, hx⟩ <;> exact ⟨s, congrArg sign? hx⟩

/-- The sign bit of a float is that of its word. -/
theorem signBit_eq_true_iff (h : sign? x.toModel.unpack = some s) :
    signBit x = true ↔ s = .negative := by
  have hsign := sign_unpack (w := x.toModel.toBits.toBitVec) h
  rw [unpackSign_def] at hsign
  have hbit := congrArg BitVec.toNat hsign
  rw [BitVec.extractLsb'_toNat, Nat.shiftRight_eq_div_pow] at hbit
  have hlt : x.toBits.toNat < 2 ^ 64 := x.toBits.toNat_lt
  have hfirst : x.toBits.toNat / 2 ^ 63 = s.toBitVec.toNat := by
    rw [← hbit]
    exact (Nat.mod_eq_of_lt (by omega)).symm
  rw [signBit, decide_eq_true_iff, ge_iff_le, UInt64.le_iff_toNat_le,
    show (0x8000000000000000 : UInt64).toNat = 2 ^ 63 from rfl]
  cases s with
  | negative =>
    have hone : x.toBits.toNat / 2 ^ 63 = 1 := hfirst
    exact ⟨fun _ => rfl, fun _ => by omega⟩
  | positive =>
    have hzero : x.toBits.toNat / 2 ^ 63 = 0 := hfirst
    exact ⟨fun hle => by omega, nofun⟩

/-- The opposite of a number whose sign bit is set is one whose sign bit is not. -/
theorem signBit_neg (h : x.isFinite = true) (hsign : signBit x = true) : signBit (-x) = false := by
  obtain ⟨s, hs⟩ := exists_sign h
  obtain rfl := (signBit_eq_true_iff hs).mp hsign
  have hneg : sign? (-x).toModel.unpack = some .positive := by
    rw [unpack_neg, sign?_neg, hs]
    rfl
  refine Bool.eq_false_iff.mpr fun hset => ?_
  nomatch (signBit_eq_true_iff hneg).mp hset

/-- A number whose sign bit is not set is zero or has the sign of a positive one. -/
theorem unpack_of_signBit_eq_false (h : x.isFinite = true) (hsign : signBit x = false) :
    x = 0.0 ∨ ∃ m e hm, x.toModel.unpack = .finite .positive m e hm := by
  have hpositive {s : UnpackedFloat.Sign} (hs : sign? x.toModel.unpack = some s) :
      s = .positive := by
    cases s with
    | positive => rfl
    | negative =>
      rw [(signBit_eq_true_iff hs).mpr rfl] at hsign
      nomatch hsign
  rcases zero_or_finite h with ⟨s, hx⟩ | ⟨s, m, e, hm, hx⟩
  · obtain rfl := hpositive (congrArg sign? hx)
    exact .inl (eq_of_unpack_eq hx)
  · obtain rfl := hpositive (congrArg sign? hx)
    exact .inr ⟨m, e, hm, hx⟩

end Calculator.Floats
