import Cascade.Number.Binary

/-!
# Finite floats

A float is finite if its exponent field is not the greatest one.  The finite floats are those that
stand for a number, and each of them is equal to itself.

## Main results

* `isFinite_iff` — finiteness as a bound on the bits.
* `BinaryNumber.ofFloat32?_eq_none_iff` — what stands for no number is not finite.
* `beq_self_of_isFinite` — a finite float is equal to itself.
-/

namespace Cascade

open Float.Model (Format UnpackedFloat)

/-- The exponent field of a 32-bit float. -/
theorem toNat_unpackExponent (b : UInt32) :
    (@UnpackedFloat.unpackExponent Format.binary32 b.toBitVec).toNat =
      b.toNat / 0x800000 % 256 := by
  show (b.toBitVec.extractLsb 30 23).toNat = _
  rw [BitVec.extractLsb_toNat, Nat.shiftRight_eq_div_pow]
  rfl

/-- The bits below the sign of a finite float are less than those of infinity. -/
theorem isFinite_iff (x : Float32) :
    x.isFinite = true ↔ x.toBits.toNat % 0x80000000 < 0x7F800000 := by
  have hexponent : (@UnpackedFloat.unpackExponent Format.binary32 x.toBits.toBitVec =
      -1#_) ↔ 0x7F800000 ≤ x.toBits.toNat % 0x80000000 := by
    rw [← BitVec.toNat_inj, toNat_unpackExponent]
    show x.toBits.toNat / 0x800000 % 256 = 255 ↔ _
    omega
  rw [← Nat.not_le, ← hexponent]
  show (UnpackedFloat.unpack Format.binary32 x.toBits.toBitVec).isFinite = true ↔ _
  unfold UnpackedFloat.unpack
  dsimp only
  by_cases hgreatest : @UnpackedFloat.unpackExponent Format.binary32 x.toBits.toBitVec = -1#_
  · rw [if_pos hgreatest]
    refine iff_of_false ?_ (not_not_intro hgreatest)
    split <;> exact Bool.false_ne_true
  · rw [if_neg hgreatest]
    refine iff_of_true ?_ hgreatest
    by_cases hleast : @UnpackedFloat.unpackExponent Format.binary32 x.toBits.toBitVec = 0#_
    · rw [if_pos hleast]
      by_cases hzero : @UnpackedFloat.unpackMantissa Format.binary32 x.toBits.toBitVec = 0#_
      · rw [dif_pos hzero]
        rfl
      · rw [dif_neg hzero]
        rfl
    · rw [if_neg hleast]
      rfl

/-- What stands for no number is not finite. -/
theorem BinaryNumber.ofFloat32?_eq_none_iff (x : Float32) :
    ofFloat32? x = none ↔ x.isFinite = false := by
  rw [← Bool.not_eq_true, isFinite_iff, Nat.not_lt]
  unfold ofFloat32? BinaryFormat.decode?
  dsimp only
  split
  · next h => exact iff_of_true rfl h
  · next h =>
    refine iff_of_false ?_ h
    split <;> exact Option.some_ne_none _

/-- A finite float is equal to itself. -/
theorem beq_self_of_isFinite {x : Float32} (hx : x.isFinite = true) : (x == x) = true := by
  show (x.toModel.unpack.compare x.toModel.unpack == some .eq) = true
  have hx : x.toModel.unpack.isFinite = true := hx
  cases hu : x.toModel.unpack with
  | infinity s => rw [hu] at hx; cases hx
  | notANumber => rw [hu] at hx; cases hx
  | zero s => rfl
  | finite s m e hm =>
    have he : compare e e = .eq := Std.ReflCmp.compare_self
    have hm : compare m m = .eq := Std.ReflCmp.compare_self
    cases s
    · show (some ((compare e e).then (compare m m)).swap == some .eq) = true
      rw [he, hm]
      rfl
    · show (some ((compare e e).then (compare m m)) == some .eq) = true
      rw [he, hm]
      rfl

end Cascade
