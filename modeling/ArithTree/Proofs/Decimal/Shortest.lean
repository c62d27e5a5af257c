import ArithTree.Proofs.Decimal.Interval
import ArithTree.Proofs.Double.Conversion

/-!
# ArithTree.Proofs.Decimal.Shortest

The shortest digits of a double read back as the double: their value lies in the interval of numbers
that round to it. Every grid that the search tries gives a point of the interval or none, and the
grid of seventeen digits always gives one, because its points lie closer together than the interval
is wide.

* `leadingExponent_le`: the power of ten that is searched from is at most the number.
* `onGrid_fine`: a grid that is fine enough has a point in the interval.
* `shortest_contains`: the digits that are found.
-/

namespace ArithTree
namespace Decimal

/-! ## The leading digit -/

theorem powerLe_iff (k : Int) (n : Nat) {d : Nat} (hd : 0 < d) :
    powerLe k n d = true ↔ (10 : Rat) ^ k ≤ n / d := by
  obtain ⟨hpos, hdiv⟩ := scaleTen_div n hd (-k)
  unfold powerLe
  generalize scaleTen n d (-k) = p at hpos hdiv
  obtain ⟨a, b⟩ := p
  have hb : (0 : Rat) < b := by exact_mod_cast hpos
  have hten : (0 : Rat) < 10 ^ k := by positivity
  have hratio : (n / d : Rat) = a / b * 10 ^ k := by
    rw [hdiv, zpow_neg]
    field_simp
  simp only [decide_eq_true_eq]
  rw [hratio, le_mul_iff_one_le_left hten, one_le_div hb]
  exact_mod_cast Iff.rfl

/-- If `a ^ p ≤ b ^ q`, then powers whose exponents are in the ratio of `p` to `q` compare alike. -/
theorem pow_le_pow_of_ratio {a b p q j k : Nat} (hbase : a ^ p ≤ b ^ q) (hb : 0 < b) (hp : p ≠ 0)
    (hratio : q * j ≤ p * k) : a ^ j ≤ b ^ k := by
  have hpowers : (a ^ j) ^ p ≤ (b ^ k) ^ p :=
    calc (a ^ j) ^ p = (a ^ p) ^ j := by rw [← Nat.pow_mul, Nat.mul_comm, Nat.pow_mul]
      _ ≤ (b ^ q) ^ j := Nat.pow_le_pow_left hbase j
      _ = b ^ (q * j) := (Nat.pow_mul b q j).symm
      _ ≤ b ^ (p * k) := Nat.pow_le_pow_right hb hratio
      _ = (b ^ k) ^ p := by rw [Nat.mul_comm, Nat.pow_mul]
  exact (Nat.pow_le_pow_iff_left hp).mp hpowers

/-- `low + 1` is a guess at the decimal exponent of `2 ^ k`. Two fractions that enclose the logarithm
of two closely enough for all exponents of doubles show that `low` is not above it. -/
theorem ten_zpow_le_two_zpow {low k : Int} (hlow : (low + 1) * 100000 ≤ k * 30103)
    (hk : -20000 ≤ k) (hk' : k ≤ 20000) : (10 : Rat) ^ low ≤ 2 ^ k := by
  rcases Int.lt_or_le low 0 with hneg | hnonneg
  · obtain ⟨j, rfl⟩ : ∃ j : Nat, low = -j := ⟨(-low).toNat, by omega⟩
    rcases Int.lt_or_le k 0 with hkneg | hknonneg
    · obtain ⟨i, rfl⟩ : ∃ i : Nat, k = -i := ⟨(-k).toNat, by omega⟩
      have hpow : 2 ^ i ≤ 10 ^ j :=
        pow_le_pow_of_ratio (by norm_num : 2 ^ 93 ≤ 10 ^ 28) (by decide) (by decide) (by omega)
      rw [zpow_neg, zpow_neg, zpow_natCast, zpow_natCast]
      exact inv_anti₀ (by positivity) (by exact_mod_cast hpow)
    · calc (10 : Rat) ^ (-(j : Int)) ≤ 1 := zpow_le_one_of_nonpos₀ (by norm_num) (by omega)
        _ ≤ 2 ^ k := one_le_zpow₀ (by norm_num) hknonneg
  · obtain ⟨j, rfl⟩ := Int.eq_ofNat_of_zero_le hnonneg
    obtain ⟨i, rfl⟩ : ∃ i : Nat, k = i := ⟨k.toNat, by omega⟩
    have hpow : 10 ^ j ≤ 2 ^ i :=
      pow_le_pow_of_ratio (by norm_num : 10 ^ 59 ≤ 2 ^ 196) (by decide) (by decide) (by omega)
    rw [zpow_natCast, zpow_natCast]
    exact_mod_cast hpow

theorem two_zpow_le_div {n d : Nat} (hn : n ≠ 0) (hd : d ≠ 0) :
    (2 : Rat) ^ ((Nat.log2 n : Int) - Nat.log2 d - 1) ≤ n / d := by
  have hnum : (2 : Rat) ^ Nat.log2 n ≤ n := by exact_mod_cast Nat.log2_self_le hn
  have hden : (d : Rat) ≤ 2 ^ (Nat.log2 d + 1) := by
    exact_mod_cast (Nat.lt_log2_self (n := d)).le
  have hpos : (0 : Rat) < d := by positivity
  have hsplit : ((Nat.log2 n : Int) - Nat.log2 d - 1) =
      (Nat.log2 n : Int) - ((Nat.log2 d + 1 : Nat) : Int) := by omega
  rw [hsplit, zpow_sub₀ (by norm_num), zpow_natCast, zpow_natCast]
  exact div_le_div₀ (by positivity) hnum hpos hden

theorem leadingExponent_le {n d : Nat} (hn : n ≠ 0) (hd : d ≠ 0)
    (hlow : -19000 ≤ (Nat.log2 n : Int) - Nat.log2 d)
    (hhigh : (Nat.log2 n : Int) - Nat.log2 d ≤ 19000) :
    (10 : Rat) ^ leadingExponent n d ≤ n / d := by
  have hpos : 0 < d := Nat.pos_of_ne_zero hd
  simp only [leadingExponent]
  split
  · rename_i h
    exact (powerLe_iff _ n hpos).mp h
  split
  · rename_i h
    exact (powerLe_iff _ n hpos).mp h
  split
  · rename_i h
    exact (powerLe_iff _ n hpos).mp h
  · refine (ten_zpow_le_two_zpow ?_ ?_ ?_).trans (two_zpow_le_div hn hd)
    · rw [Int.fdiv_eq_ediv_of_nonneg _ (by decide)]
      omega
    · omega
    · omega

/-! ## The grids -/

section Grid

variable {m : Nat} {e k : Int}

theorem log2_mul_two_pow_lt {n a j : Nat} (hn : n ≠ 0) (h : n < 2 ^ a) :
    n * 2 ^ j ≠ 0 ∧ Nat.log2 (n * 2 ^ j) < a + j := by
  have hpos : 0 < 2 ^ j := Nat.two_pow_pos j
  have hne : n * 2 ^ j ≠ 0 := Nat.mul_ne_zero hn hpos.ne'
  refine ⟨hne, ?_⟩
  rw [Nat.log2_lt hne, Nat.pow_add]
  exact Nat.mul_lt_mul_of_pos_right h hpos

theorem log2_around (hc : Double.Canonical m e) (hm : m ≠ 0) (he : e ≤ 971) :
    (Interval.around m e).value ≠ 0 ∧ (Interval.around m e).denominator ≠ 0 ∧
      Nat.log2 (Interval.around m e).value < 1100 ∧
      Nat.log2 (Interval.around m e).denominator < 1100 := by
  have hlt := hc.lt
  have hge := hc.exponent_ge
  show 4 * m * (Double.scaleTwo 1 4 e).1 ≠ 0 ∧ (Double.scaleTwo 1 4 e).2 ≠ 0 ∧
    Nat.log2 (4 * m * (Double.scaleTwo 1 4 e).1) < 1100 ∧ Nat.log2 (Double.scaleTwo 1 4 e).2 < 1100
  unfold Double.scaleTwo
  split
  · obtain ⟨hne, hlog⟩ := @log2_mul_two_pow_lt (4 * m) 55 e.toNat (by omega) (by omega)
    have hfour : Nat.log2 4 < 1100 := by decide
    dsimp only
    rw [Nat.one_shiftLeft]
    exact ⟨hne, four_ne_zero, by omega, hfour⟩
  · obtain ⟨hne, hlog⟩ := @log2_mul_two_pow_lt 4 3 (-e).toNat (by omega) (by omega)
    obtain ⟨hne', hlog'⟩ := @log2_mul_two_pow_lt (4 * m) 55 0 (by omega) (by omega)
    rw [Nat.pow_zero] at hne' hlog'
    dsimp only
    rw [Nat.shiftLeft_eq]
    exact ⟨hne', hne, by omega, by omega⟩

theorem roundDiv_near (n : Nat) {d : Nat} (hd : 0 < d) :
    (n / d : Rat) - 1 / 2 ≤ Double.roundDiv n d ∧ (Double.roundDiv n d : Rat) ≤ n / d + 1 / 2 := by
  have hpos : (0 : Rat) < d := by exact_mod_cast hd
  have hup : (2 * (Double.roundDiv n d * d) : Rat) ≤ 2 * n + d := by
    exact_mod_cast Double.roundDiv_mul_le n d
  have hdown : (2 * n : Rat) ≤ 2 * (Double.roundDiv n d * d) + d := by
    exact_mod_cast Double.le_roundDiv_mul n hd
  constructor
  · rw [div_sub' hpos.ne', div_le_iff₀ hpos]
    linarith
  · rw [div_add' _ _ _ hpos.ne', le_div_iff₀ hpos]
    linarith

theorem contains_of_onGrid {i : Interval} {d : Digits} (h : i.onGrid k = some d) :
    i.Contains d.value := by
  unfold Interval.onGrid at h
  generalize scaleTen i.value i.denominator (-k) = p at h
  obtain ⟨a, b⟩ := p
  dsimp only at h
  generalize Double.roundDiv a b = nearer at h
  generalize (if nearer = a / b then a / b + 1 else a / b) = other at h
  split at h
  · rename_i hholds
    cases h
    exact (i.holds_iff ⟨nearer, k⟩).mp hholds
  · split at h
    · rename_i hholds
      cases h
      exact (i.holds_iff ⟨other, k⟩).mp hholds
    · cases h

/-- The points of a grid this fine are closer to each other than the ends of the interval are to the
number, also where the lower end is only a quarter of a unit away. -/
theorem contains_nearest (hc : Double.Canonical m e) (hm : m ≠ 0)
    (hk : (10 : Rat) ^ k * 10 ^ 16 ≤ m * 2 ^ e) {q : Rat} (hlow : m * 2 ^ e - 10 ^ k / 2 ≤ q)
    (hhigh : q ≤ m * 2 ^ e + 10 ^ k / 2) : (Interval.around m e).Contains q := by
  have hunit : (0 : Rat) < 2 ^ e / 4 := by positivity
  have hlt : (m : Rat) ≤ 2 ^ 53 := by exact_mod_cast hc.lt.le
  have hwhole : (m * 2 ^ e : Rat) = 4 * m * (2 ^ e / 4) := by ring
  -- Half a grid step, in quarters of a unit.
  have hstep : (10 ^ k / 2 : Rat) * 10 ^ 16 ≤ 2 * m * (2 ^ e / 4) := by linarith
  have hbelow : (2 * m : Rat) < Interval.below m e * 10 ^ 16 := by
    unfold Interval.below
    split
    · rename_i h
      rw [h.1]
      norm_num
    · push_cast
      linarith
  have hdown : (10 ^ k / 2 : Rat) < Interval.below m e * (2 ^ e / 4) := by
    have hscaled : (2 * m : Rat) * (2 ^ e / 4) < Interval.below m e * 10 ^ 16 * (2 ^ e / 4) :=
      mul_lt_mul_of_pos_right hbelow hunit
    linarith
  have hup : (10 ^ k / 2 : Rat) < 2 * (2 ^ e / 4) := by
    have hscaled : (2 * m : Rat) * (2 ^ e / 4) < 2 * 10 ^ 16 * (2 ^ e / 4) :=
      mul_lt_mul_of_pos_right (by linarith) hunit
    linarith
  have hinside : (4 * m - Interval.below m e : Rat) * (2 ^ e / 4) < q ∧
      q < (4 * m + 2) * (2 ^ e / 4) := by
    constructor <;> linarith
  exact (Interval.contains_around hm e q).mpr
    ⟨hinside.1.le, hinside.2.le, fun _ => hinside⟩

theorem onGrid_fine (hc : Double.Canonical m e) (hm : m ≠ 0)
    (hk : (10 : Rat) ^ k * 10 ^ 16 ≤ m * 2 ^ e) : ∃ d, (Interval.around m e).onGrid k = some d := by
  obtain ⟨hden, hvalue⟩ := Interval.around_value m e
  obtain ⟨hpos, hdiv⟩ := scaleTen_div (Interval.around m e).value hden (-k)
  unfold Interval.onGrid
  generalize scaleTen (Interval.around m e).value (Interval.around m e).denominator (-k) = p at hpos hdiv
  obtain ⟨a, b⟩ := p
  obtain ⟨hdown, hup⟩ := roundDiv_near a hpos
  rw [hdiv, hvalue] at hdown hup
  have hten : (0 : Rat) < 10 ^ k := by positivity
  have hcancel : (m * 2 ^ e * 10 ^ (-k) : Rat) * 10 ^ k = m * 2 ^ e := by
    rw [mul_assoc, ← zpow_add₀ (by norm_num), neg_add_cancel, zpow_zero, mul_one]
  have hnearest : (Interval.around m e).Contains (Digits.value ⟨Double.roundDiv a b, k⟩) := by
    refine contains_nearest hc hm hk ?_ ?_
    · have hscaled := mul_le_mul_of_nonneg_right hdown hten.le
      rw [sub_mul, hcancel] at hscaled
      exact le_trans (by linarith) hscaled
    · have hscaled := mul_le_mul_of_nonneg_right hup hten.le
      rw [add_mul, hcancel] at hscaled
      exact le_trans hscaled (by linarith)
  have hholds := ((Interval.around m e).holds_iff ⟨Double.roundDiv a b, k⟩).mpr hnearest
  exact ⟨⟨Double.roundDiv a b, k⟩, by simp only [hholds, if_true]⟩

end Grid

/-! ## The digits -/

theorem value_dropZeros (fuel : Nat) : ∀ d : Digits, (dropZeros fuel d).value = d.value := by
  induction fuel with
  | zero =>
    intro d
    rfl
  | succ fuel ih =>
    intro d
    unfold dropZeros
    split
    · rename_i h
      have hten : (d.digits : Rat) = 10 * (d.digits / 10 : Nat) := by
        have hdigits : d.digits = 10 * (d.digits / 10) := by omega
        exact_mod_cast hdigits
      rw [ih, Digits.value, Digits.value, hten, zpow_add_one₀ (by norm_num)]
      ring
    · rfl

theorem value_trim (d : Digits) : d.trim.value = d.value := value_dropZeros _ d

theorem shortest_contains {m : Nat} {e : Int} (hc : Double.Canonical m e) (hm : m ≠ 0)
    (he : e ≤ 971) : (Interval.around m e).Contains (shortest m e).value := by
  obtain ⟨hvalue, hden, hlow, hhigh⟩ := log2_around hc hm he
  have hlead := leadingExponent_le hvalue hden (by omega) (by omega)
  rw [(Interval.around_value m e).2] at hlead
  let lead := leadingExponent (Interval.around m e).value (Interval.around m e).denominator
  have hfine : (10 : Rat) ^ (lead - (16 : Nat)) * 10 ^ 16 ≤ m * 2 ^ e := by
    have hsum : (10 : Rat) ^ (lead - (16 : Nat)) * 10 ^ 16 = 10 ^ lead := by
      rw [← zpow_natCast (10 : Rat) 16, ← zpow_add₀ (by norm_num)]
      congr 1
      omega
    rw [hsum]
    exact hlead
  obtain ⟨d, hd⟩ := onGrid_fine hc hm hfine
  cases hfound : (List.range 17).findSome? fun (count : Nat) =>
      (Interval.around m e).onGrid (lead - count) with
  | none =>
    have hnone := List.findSome?_eq_none_iff.mp hfound 16 (by decide)
    rw [hd] at hnone
    cases hnone
  | some found =>
    obtain ⟨count, -, hcount⟩ := List.exists_of_findSome?_eq_some hfound
    have hshortest : shortest m e = found.trim := by
      simp only [shortest]
      rw [hfound]
      rfl
    rw [hshortest, value_trim]
    exact contains_of_onGrid hcount

end Decimal
end ArithTree
