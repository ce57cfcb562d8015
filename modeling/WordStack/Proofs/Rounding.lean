import Mathlib.Algebra.Order.Ring.Nat
import Mathlib.Tactic.Ring
import WordStack.Number.Shortest

/-
  Writing and rounding fit together. Rounding sees a quotient only, not how it is written
  (`nearest_congr`), so a magnitude may be rounded in decimal units as in powers of two. A finite
  pattern is nearest to the magnitude that it stands for (`nearest_units`): its scale is told by
  the bits of the magnitude, and what is left is a whole quotient.
  `Expansion.nearest_shortest`: the digits that are written for a pattern are rounded back to it.
  That they are few does not matter here: the search only ends with digits that it has tried, or
  with all of them.
-/
namespace WordStack.Number

variable {p n k num den : Nat}

/-! ## Powers -/

theorem twoTo_zero : twoTo 0 = 1 := rfl

theorem tenTo_zero : tenTo 0 = 1 := rfl

theorem twoTo_add (m n : Nat) : twoTo (m + n) = twoTo m * twoTo n := Nat.pow_add 2 m n

theorem twoTo_pos (n : Nat) : 0 < twoTo n := Nat.two_pow_pos n

theorem tenTo_pos (n : Nat) : 0 < tenTo n := Nat.pow_pos (by decide)

theorem tenTo_add (m n : Nat) : tenTo (m + n) = tenTo m * tenTo n := Nat.pow_add 10 m n

/-- A power of ten is a power of five times one of two. -/
theorem tenTo_eq (n : Nat) : tenTo n = Nat.pow 5 n * twoTo n := Nat.mul_pow 5 2 n

theorem patternsPerScale_pos : 0 < patternsPerScale := twoTo_pos 52

/-! ## Rounding -/

/-- A whole quotient is not rounded. -/
theorem divHalfEven_mul (q : Nat) (hden : 0 < den) : divHalfEven (q * den) den = q := by
  unfold divHalfEven
  dsimp only
  rw [Nat.mul_mod_left, Nat.mul_div_cancel q hden, if_pos (by omega)]

/-- Rounding sees the quotient only. -/
theorem divHalfEven_mul_right (hk : 0 < k) :
    divHalfEven (num * k) (den * k) = divHalfEven num den := by
  have hlow : 2 * (num % den * k) < den * k ↔ 2 * (num % den) < den := by
    rw [← Nat.mul_assoc, Nat.mul_lt_mul_right hk]
  have hhigh : den * k < 2 * (num % den * k) ↔ den < 2 * (num % den) := by
    rw [← Nat.mul_assoc, Nat.mul_lt_mul_right hk]
  unfold divHalfEven
  dsimp only
  rw [Nat.mul_mod_mul_right, Nat.mul_div_mul_right num den hk]
  simp only [hlow, hhigh]

theorem nearest_mul_right (hk : 0 < k) : nearest (num * k) (den * k) = nearest num den := by
  have hnum : num * k * twoTo 1074 = num * twoTo 1074 * k := Nat.mul_right_comm num k _
  have hden : ∀ j, den * k * twoTo j = den * twoTo j * k := fun j => Nat.mul_right_comm den k _
  unfold nearest
  dsimp only
  rw [hnum, Nat.mul_div_mul_right _ den hk, hden, divHalfEven_mul_right hk]

/-- Equal quotients have the same nearest pattern. -/
theorem nearest_congr {num' den' : Nat} (hden : 0 < den) (hden' : 0 < den')
    (h : num * den' = num' * den) : nearest num den = nearest num' den' := by
  rw [← nearest_mul_right hden', h, Nat.mul_comm den den', nearest_mul_right hden]

/-! ## Patterns -/

theorem significand_lt (p : Nat) : significand p < 2 * patternsPerScale := by
  have hdiv := Nat.div_add_mod p patternsPerScale
  have hmod := Nat.mod_lt p patternsPerScale_pos
  have hsum := scale_add_significand p
  unfold scale at hsum
  rcases hq : p / patternsPerScale with _ | q <;> rw [hq] at hdiv hsum
  · omega
  · rw [Nat.add_sub_cancel, Nat.mul_comm] at hsum
    rw [Nat.mul_succ] at hdiv
    omega

/-- Beyond the first scale the first bit of a significand is set. -/
theorem le_significand (h : 0 < scale p) : patternsPerScale ≤ significand p := by
  have hdiv := Nat.div_add_mod p patternsPerScale
  have hsum := scale_add_significand p
  unfold scale at h hsum
  rcases hq : p / patternsPerScale with _ | q <;> rw [hq] at hdiv hsum h
  · omega
  · rw [Nat.add_sub_cancel, Nat.mul_comm] at hsum
    rw [Nat.mul_succ] at hdiv
    omega

/-- The bits of a magnitude beyond 53 tell its scale. -/
theorem log2_units (p : Nat) : (units p).log2 - 52 = scale p := by
  have hlt : significand p < 2 ^ (52 + 1) := significand_lt p
  unfold units
  by_cases h : 0 < scale p
  · have hle := le_significand h
    have hpos := twoTo_pos (scale p)
    have hlog : (significand p * twoTo (scale p)).log2 = 52 + scale p := by
      refine (Nat.log2_eq_iff (Nat.mul_ne_zero ?_ hpos.ne')).mpr ⟨?_, ?_⟩
      · have := patternsPerScale_pos
        omega
      · rw [Nat.pow_add]
        exact Nat.mul_le_mul_right _ hle
      · rw [Nat.add_right_comm, Nat.pow_add]
        exact Nat.mul_lt_mul_of_pos_right hlt hpos
    rw [hlog, Nat.add_sub_cancel_left]
  · have hzero : scale p = 0 := by omega
    rw [hzero, twoTo_zero, Nat.mul_one]
    refine Nat.sub_eq_zero_of_le (Nat.le_of_lt_succ ?_)
    rcases Nat.eq_zero_or_pos (significand p) with hsig | hsig
    · rw [hsig, Nat.log2_zero]
      decide
    · exact (Nat.log2_lt hsig.ne').mpr hlt

/-- A finite pattern is nearest to the magnitude that it stands for. -/
theorem nearest_units (h : p < infinity) : nearest (units p) (twoTo 1074) = p := by
  have hpos := twoTo_pos 1074
  have hmul : units p * twoTo 1074 = significand p * (twoTo 1074 * twoTo (scale p)) := by
    rw [units, Nat.mul_assoc, Nat.mul_comm (twoTo (scale p))]
  unfold nearest
  dsimp only
  rw [Nat.mul_div_cancel _ hpos, log2_units, hmul,
    divHalfEven_mul _ (Nat.mul_pos hpos (twoTo_pos _)), scale_add_significand]
  exact Nat.min_eq_left h.le

namespace Expansion

/-- The magnitude in decimal units is that in powers of two. -/
theorem value_ofPattern (p : Nat) :
    (ofPattern p).value * twoTo 1074 = units p * tenTo (ofPattern p).places := by
  have hpow : twoTo (scale p - 1074) * twoTo 1074 = twoTo (scale p) * twoTo (1074 - scale p) := by
    rw [← twoTo_add, ← twoTo_add]
    exact congrArg twoTo (by omega)
  have hvalue : (ofPattern p).value =
      significand p * (Nat.pow 5 (1074 - scale p) * twoTo (scale p - 1074)) := rfl
  have hplaces : (ofPattern p).places = 1074 - scale p := rfl
  rw [hvalue, hplaces, tenTo_eq, units]
  calc significand p * (Nat.pow 5 (1074 - scale p) * twoTo (scale p - 1074)) * twoTo 1074
      = significand p * Nat.pow 5 (1074 - scale p) * (twoTo (scale p - 1074) * twoTo 1074) := by
        ring
    _ = significand p * Nat.pow 5 (1074 - scale p) *
          (twoTo (scale p) * twoTo (1074 - scale p)) := by rw [hpow]
    _ = significand p * twoTo (scale p) * (Nat.pow 5 (1074 - scale p) * twoTo (1074 - scale p)) := by
        ring

theorem nearest_value (h : p < infinity) :
    nearest (ofPattern p).value (tenTo (ofPattern p).places) = p := by
  rw [nearest_congr (tenTo_pos _) (twoTo_pos 1074) (value_ofPattern p), nearest_units h]

variable {e : Expansion}

theorem nearest_of_holds {u : Nat} (h : e.holds u = true) :
    nearest u (tenTo e.places) = e.pattern := by
  unfold holds at h
  exact beq_iff_eq.mp (Bool.and_eq_true_iff.mp h).2

/-- A digit that is found on a grid is rounded back. -/
theorem nearest_of_onGrid {d : Nat} (h : e.onGrid? n = some d) :
    nearest (d * tenTo n) (tenTo e.places) = e.pattern := by
  have hone : ∀ near far : Nat, (if e.holds (near * tenTo n) then some near
      else if e.holds (far * tenTo n) then some far else none) = some d →
        e.holds (d * tenTo n) = true := by
    intro near far h
    split at h
    · next hnear => rwa [← Option.some.inj h]
    · split at h
      · next hfar => rwa [← Option.some.inj h]
      · cases h
  unfold onGrid? at h
  dsimp only at h
  split at h <;> exact nearest_of_holds (hone _ _ h)

theorem nearest_search (hexact : nearest e.value (tenTo e.places) = e.pattern) (n : Nat) :
    nearest ((e.search n).1 * tenTo (e.search n).2) (tenTo e.places) = e.pattern := by
  induction n with
  | zero => rwa [search, tenTo_zero, Nat.mul_one]
  | succ n ih =>
    unfold search
    split
    · next d hd => exact nearest_of_onGrid hd
    · exact ih

/-- The digits to write are rounded back to the pattern. -/
theorem nearest_shortest (h : p < infinity) :
    nearest ((ofPattern p).shortest.1 * tenTo (ofPattern p).shortest.2)
      (tenTo (ofPattern p).places) = p :=
  nearest_search (nearest_value h) _

end Expansion
end WordStack.Number
