import Mathlib.Algebra.Group.Int.Even
import StackScript.Machine.Native

/-!
# Wrapped powers

Repeated squaring with products that wrap at each step gives the power over the integers, wrapped
once. What the native method makes of an exponent is settled by its width: an exponent that 32 bits
hold without a sign is raised to, and any other one is told to be negative, also one that is not.
-/

namespace StackScript.Machine

open StackScript.Text

/-! ## Repeated squaring -/

/-- Squaring the base halves the exponent; an odd exponent leaves one factor over. -/
theorem square_pow_half (base : Int) (exponent : Nat) :
    (if exponent % 2 = 1 then base * (base * base) ^ (exponent / 2)
      else (base * base) ^ (exponent / 2)) = base ^ exponent := by
  have hsquare : (base * base) ^ (exponent / 2) = base ^ (2 * (exponent / 2)) := by
    rw [pow_mul, pow_two]
  have hsplit : 2 * (exponent / 2) + exponent % 2 = exponent := Nat.div_add_mod exponent 2
  rw [hsquare]
  split
  · rename_i hodd
    rw [← pow_succ', ← hodd, hsplit]
  · rename_i heven
    have hzero : exponent % 2 = 0 := by omega
    rw [hzero, Nat.add_zero] at hsplit
    rw [hsplit]

/-- Wrapping commutes with each product of the loop, so the loop wraps the whole power once. -/
theorem wrappedPow_ofInt (exponent : Nat) (base : Int) :
    wrappedPow (Int64.ofInt base) exponent = Int64.ofInt (base ^ exponent) := by
  -- the base of the inner call is the square, so the induction has to be over every base
  induction exponent using Nat.strong_induction_on generalizing base with
  | _ exponent ih =>
    rw [wrappedPow]
    by_cases hzero : exponent = 0
    · rw [if_pos hzero, hzero, pow_zero]
      rfl
    · have hinner : wrappedPow (Int64.ofInt base * Int64.ofInt base) (exponent / 2) =
          Int64.ofInt ((base * base) ^ (exponent / 2)) := by
        rw [← Int64.ofInt_mul]
        exact ih _ (by omega) _
      rw [if_neg hzero, hinner, ← square_pow_half base exponent]
      split
      · rw [Int64.ofInt_mul]
      · rfl

/-- The power is the one over the integers, reduced to 64 bits with a sign. -/
theorem toInt_wrappedPow (base : Int64) (exponent : Nat) :
    (wrappedPow base exponent).toInt = (base.toInt ^ exponent).bmod (2 ^ 64) := by
  have h := wrappedPow_ofInt exponent base.toInt
  rw [Int64.ofInt_toInt] at h
  rw [h, Int64.toInt_ofInt]
  rfl

/-! ## The native method -/

/-- The method raises to an exponent of at most 32 bits without a sign. All other exponents are
told to be negative, those of more than 32 bits with the negative ones. -/
theorem call_pow (base exponent : Int64) :
    ∃ power : Int64, power.toInt = (base.toInt ^ exponent.toInt.toNat).bmod (2 ^ 64) ∧
      NativeClass.math.call "pow" [.int base, .int exponent] =
        if 0 ≤ exponent.toInt ∧ exponent.toInt < 2 ^ 32 then .ok (.int power)
        else .error (.raised ("negative exponent " ++ showInteger exponent)) := by
  refine ⟨wrappedPow base exponent.toInt.toNat, toInt_wrappedPow base _, ?_⟩
  -- looking the method up and checking its two arguments are closed computations
  show Value.int <$> powInteger base exponent = _
  rw [powInteger]
  split
  · rename_i hfits
    rw [if_pos (by simpa using hfits)]
    rfl
  · rename_i hwide
    rw [if_neg (by simpa using hwide)]
    rfl

/-- The least exponent of 33 bits is told to be negative, though the power is there and is 0. -/
example : powInteger 2 4294967296 = .error (.raised "negative exponent 4294967296") := by
  decide +kernel

end StackScript.Machine
