import Mathlib.Data.Int.ModEq
import Mathlib.Data.Nat.Factorization.Basic
import Mathlib.Logic.Function.Iterate
import Mathlib.Tactic.Ring

/-!
# Linear congruential generators modulo powers of two

The iterates of `x ↦ a * x + c` with `a % 4 = 1` and `c % 2 = 1`. The low `m` bits of such a
generator run through all their values before they repeat, and so repeat after every `2 ^ m`
steps however large the modulus is.
-/

namespace Congruential

def step (a c x : ℤ) : ℤ :=
  a * x + c

variable {a c : ℤ}

/-- What `2 ^ k` steps add: an odd multiple of `2 ^ k`, in which `x` counts fourfold. -/
theorem exists_iterate_eq_add (ha : a % 4 = 1) (hc : c % 2 = 1) (k : ℕ) :
    ∃ t s : ℤ, ∀ x, (step a c)^[2 ^ k] x = x + 2 ^ k * (4 * t * x + 2 * s + 1) := by
  induction k with
  | zero =>
    refine ⟨a / 4, c / 2, fun x => ?_⟩
    have ha' : a = 4 * (a / 4) + 1 := by omega
    have hc' : c = 2 * (c / 2) + 1 := by omega
    rw [pow_zero, Function.iterate_one, step]
    calc a * x + c = (4 * (a / 4) + 1) * x + (2 * (c / 2) + 1) := by rw [← ha', ← hc']
      _ = _ := by ring
  | succ k ih =>
    obtain ⟨t, s, hhalf⟩ := ih
    refine ⟨t * (1 + 2 ^ (k + 1) * t), s + (2 * s + 1) * (2 ^ k * t), fun x => ?_⟩
    have htwice : 2 ^ (k + 1) = 2 ^ k + 2 ^ k := by rw [pow_succ, mul_two]
    rw [htwice, Function.iterate_add_apply, hhalf, hhalf]
    ring

theorem iterate_pow_modEq (ha : a % 4 = 1) (hc : c % 2 = 1) (k : ℕ) (x : ℤ) :
    (step a c)^[2 ^ k] x ≡ x + 2 ^ k [ZMOD 2 ^ (k + 1)] := by
  obtain ⟨t, s, hiterate⟩ := exists_iterate_eq_add ha hc k
  rw [hiterate]
  apply Int.ModEq.symm
  apply Int.modEq_iff_dvd.mpr
  exact ⟨2 * t * x + s, by ring⟩

theorem iterate_mul_modEq (ha : a % 4 = 1) (hc : c % 2 = 1) (k q : ℕ) (x : ℤ) :
    (step a c)^[2 ^ k * q] x ≡ x + 2 ^ k * q [ZMOD 2 ^ (k + 1)] := by
  induction q with
  | zero => simp
  | succ q ih =>
    have hadd := (iterate_pow_modEq ha hc k ((step a c)^[2 ^ k * q] x)).trans
      (ih.add_right (2 ^ k))
    rw [Nat.mul_succ, Nat.add_comm (2 ^ k * q), Function.iterate_add_apply]
    have hsum : x + 2 ^ k * (q + 1 : ℕ) = x + 2 ^ k * q + 2 ^ k := by
      push_cast
      ring
    rwa [hsum]

/-- The low `m` bits come back after the multiples of `2 ^ m` steps and at no other time. -/
theorem iterate_modEq_self_iff (ha : a % 4 = 1) (hc : c % 2 = 1) (m n : ℕ) (x : ℤ) :
    (step a c)^[n] x ≡ x [ZMOD 2 ^ m] ↔ 2 ^ m ∣ n := by
  constructor
  · intro hback
    rcases Nat.eq_zero_or_pos n with rfl | hn
    · exact Nat.dvd_zero _
    obtain ⟨j, q, hq, rfl⟩ := Nat.exists_eq_two_pow_mul_odd hn.ne'
    by_contra hnot
    have hj : j + 1 ≤ m := by
      by_contra hle
      exact hnot ((pow_dvd_pow 2 (by omega)).mul_right q)
    -- below the odd part the bit `j` has changed
    have hmove := iterate_mul_modEq ha hc j q x
    have hstay := hback.of_dvd (pow_dvd_pow (2 : ℤ) hj)
    have hzero : (2 : ℤ) ^ (j + 1) ∣ 2 ^ j * q := by
      have hsame := Int.modEq_iff_dvd.mp (hstay.symm.trans hmove)
      simpa using hsame
    rw [pow_succ] at hzero
    have htwo : (2 : ℤ) ∣ q := Int.dvd_of_mul_dvd_mul_left (pow_ne_zero j two_ne_zero) hzero
    obtain ⟨r, hr⟩ := hq
    omega
  · rintro ⟨q, rfl⟩
    have hmove := (iterate_mul_modEq ha hc m q x).of_dvd (pow_dvd_pow (2 : ℤ) (Nat.le_succ m))
    refine hmove.trans ?_
    simp

theorem iterate_modEq_iff (ha : a % 4 = 1) (hc : c % 2 = 1) (m i j : ℕ) (x : ℤ) :
    (step a c)^[i] x ≡ (step a c)^[j] x [ZMOD 2 ^ m] ↔ i ≡ j [MOD 2 ^ m] := by
  have hle : ∀ i j : ℕ, i ≤ j →
      ((step a c)^[i] x ≡ (step a c)^[j] x [ZMOD 2 ^ m] ↔ i ≡ j [MOD 2 ^ m]) := by
    intro i j hij
    have hsplit : (step a c)^[j] x = (step a c)^[j - i] ((step a c)^[i] x) := by
      rw [← Function.iterate_add_apply, Nat.sub_add_cancel hij]
    rw [hsplit, Int.modEq_comm, iterate_modEq_self_iff ha hc, Nat.modEq_iff_dvd' hij]
  rcases Nat.le_total i j with hij | hji
  · exact hle i j hij
  · rw [Int.modEq_comm, hle j i hji]
    exact ⟨Nat.ModEq.symm, Nat.ModEq.symm⟩

end Congruential
