import ArithTree.Decimal.Digits
import ArithTree.Proofs.Double.Equality
import Mathlib

/-!
# ArithTree.Proofs.Decimal.Interval

The interval of numbers that round to a double. It is held as integers over a common denominator;
here it is read as a set of rationals.

* `Interval.holds_iff`: the test on a decimal is membership of its value.
* `Interval.contains_around`: the ends are half a unit away, or a quarter below a power of two.
* `Interval.eq_of_contains`: no number lies in the intervals of two doubles.
-/

namespace ArithTree
namespace Decimal

/-- The number that digits and exponent stand for. -/
def Digits.value (d : Digits) : Rat := d.digits * 10 ^ d.exponent

/-! ## Scaling -/

theorem div_of_scaled {b n d : Nat} (hb : 0 < b) (hd : 0 < d) {k : Int} {p : Nat × Nat}
    (hp : p = if 0 ≤ k then (n * b ^ k.toNat, d) else (n, d * b ^ (-k).toNat)) :
    0 < p.2 ∧ (p.1 : Rat) / p.2 = n / d * b ^ k := by
  have hb' : (b : Rat) ≠ 0 := by positivity
  rcases Int.lt_or_le k 0 with hk | hk
  · obtain ⟨j, rfl⟩ : ∃ j : Nat, k = -j := ⟨(-k).toNat, by omega⟩
    rw [if_neg (by omega)] at hp
    subst hp
    refine ⟨Nat.mul_pos hd (Nat.pow_pos hb), ?_⟩
    simp only [Int.neg_neg, Int.toNat_natCast, Nat.cast_mul, Nat.cast_pow, zpow_neg, zpow_natCast]
    rw [← div_div, div_eq_mul_inv]
  · obtain ⟨j, rfl⟩ := Int.eq_ofNat_of_zero_le hk
    rw [if_pos hk] at hp
    subst hp
    refine ⟨hd, ?_⟩
    simp only [Int.toNat_natCast, Nat.cast_mul, Nat.cast_pow, zpow_natCast]
    rw [mul_div_right_comm]

theorem scaleTen_div (n : Nat) {d : Nat} (hd : 0 < d) (k : Int) :
    0 < (scaleTen n d k).2 ∧ ((scaleTen n d k).1 : Rat) / (scaleTen n d k).2 = n / d * 10 ^ k :=
  div_of_scaled (by decide) hd rfl

theorem scaleTwo_div (n : Nat) {d : Nat} (hd : 0 < d) (k : Int) :
    0 < (Double.scaleTwo n d k).2 ∧
      ((Double.scaleTwo n d k).1 : Rat) / (Double.scaleTwo n d k).2 = n / d * 2 ^ k :=
  div_of_scaled (by decide) hd (by simp only [Double.scaleTwo, Nat.shiftLeft_eq])

namespace Interval

/-- Membership. The ends count if the interval is closed. -/
structure Contains (i : Interval) (v : Rat) : Prop where
  low : (i.low : Rat) ≤ v * i.denominator
  high : v * i.denominator ≤ i.high
  inside : i.closed = false → (i.low : Rat) < v * i.denominator ∧ v * i.denominator < i.high

theorem contains_of_lt {i : Interval} {v : Rat} (hlow : (i.low : Rat) < v * i.denominator)
    (hhigh : v * i.denominator < i.high) : i.Contains v :=
  ⟨hlow.le, hhigh.le, fun _ => ⟨hlow, hhigh⟩⟩

theorem holds_iff (i : Interval) (d : Digits) :
    i.holds d.digits d.exponent = true ↔ i.Contains d.value := by
  obtain ⟨hpos, hdiv⟩ := scaleTen_div (d.digits * i.denominator) Nat.one_pos d.exponent
  unfold holds
  generalize scaleTen (d.digits * i.denominator) 1 d.exponent = p at hpos hdiv
  obtain ⟨a, b⟩ := p
  have hb : (0 : Rat) < b := by exact_mod_cast hpos
  have hvalue : d.value * i.denominator = a / b := by
    rw [hdiv, Digits.value, Nat.cast_mul, Nat.cast_one, div_one]
    ring
  have hlow : i.low * b ≤ a ↔ (i.low : Rat) ≤ a / b := by
    rw [le_div_iff₀ hb]
    exact_mod_cast Iff.rfl
  have hhigh : a ≤ i.high * b ↔ (a : Rat) / b ≤ i.high := by
    rw [div_le_iff₀ hb]
    exact_mod_cast Iff.rfl
  have hlow' : i.low * b < a ↔ (i.low : Rat) < a / b := by
    rw [lt_div_iff₀ hb]
    exact_mod_cast Iff.rfl
  have hhigh' : a < i.high * b ↔ (a : Rat) / b < i.high := by
    rw [div_lt_iff₀ hb]
    exact_mod_cast Iff.rfl
  cases hclosed : i.closed with
  | true =>
    simp only [if_true, decide_eq_true_eq]
    rw [hlow, hhigh, ← hvalue]
    constructor
    · rintro ⟨hl, hh⟩
      exact ⟨hl, hh, fun hopen => by rw [hclosed] at hopen; cases hopen⟩
    · intro h
      exact ⟨h.low, h.high⟩
  | false =>
    simp only [Bool.false_eq_true, if_false, decide_eq_true_eq]
    rw [hlow', hhigh', ← hvalue]
    constructor
    · rintro ⟨hl, hh⟩
      exact contains_of_lt hl hh
    · intro h
      exact h.inside hclosed

/-- How many quarters of a unit lie below a significand. -/
def below (m : Nat) (e : Int) : Nat := if m = 2 ^ 52 ∧ -1074 < e then 1 else 2

theorem below_le (m : Nat) (e : Int) : 1 ≤ below m e ∧ below m e ≤ 2 := by
  unfold below
  split <;> omega

theorem around_quarters (m : Nat) (e : Int) :
    ∃ quarter : Nat, 0 < (around m e).denominator ∧
      (quarter : Rat) = 2 ^ e / 4 * (around m e).denominator ∧
      (around m e).low = (4 * m - below m e) * quarter ∧ (around m e).value = 4 * m * quarter ∧
      (around m e).high = (4 * m + 2) * quarter := by
  obtain ⟨hpos, hdiv⟩ := scaleTwo_div 1 (by decide : 0 < 4) e
  have hden : ((Double.scaleTwo 1 4 e).2 : Rat) ≠ 0 := by positivity
  have hbelow : below m e = if m = 1 <<< 52 ∧ -1074 < e then 1 else 2 := by
    rw [below, Nat.one_shiftLeft]
  refine ⟨(Double.scaleTwo 1 4 e).1, hpos, ?_, ?_, rfl, rfl⟩
  · rw [div_eq_iff hden] at hdiv
    rw [hdiv]
    show _ = 2 ^ e / 4 * ((Double.scaleTwo 1 4 e).2 : Rat)
    push_cast
    ring
  · rw [hbelow]
    rfl

theorem around_value (m : Nat) (e : Int) :
    0 < (around m e).denominator ∧
      ((around m e).value : Rat) / (around m e).denominator = m * 2 ^ e := by
  obtain ⟨quarter, hpos, hquarter, -, hvalue, -⟩ := around_quarters m e
  have hden : ((around m e).denominator : Rat) ≠ 0 := by positivity
  refine ⟨hpos, ?_⟩
  rw [div_eq_iff hden, hvalue]
  push_cast
  rw [hquarter]
  ring

/-- The interval around `m · 2 ^ e`, in quarters of its unit. -/
theorem contains_around {m : Nat} (hm : m ≠ 0) (e : Int) (v : Rat) :
    (around m e).Contains v ↔
      (4 * m - below m e : Rat) * (2 ^ e / 4) ≤ v ∧ v ≤ (4 * m + 2) * (2 ^ e / 4) ∧
        (m % 2 = 1 → (4 * m - below m e : Rat) * (2 ^ e / 4) < v ∧ v < (4 * m + 2) * (2 ^ e / 4)) := by
  obtain ⟨quarter, hpos, hquarter, hlow, -, hhigh⟩ := around_quarters m e
  have hden : (0 : Rat) < (around m e).denominator := by exact_mod_cast hpos
  have hbelow : below m e ≤ 4 * m := by
    have := below_le m e
    omega
  have hlow' : ((around m e).low : Rat) =
      (4 * m - below m e) * (2 ^ e / 4) * (around m e).denominator := by
    rw [hlow]
    push_cast [hbelow]
    rw [hquarter]
    ring
  have hhigh' : ((around m e).high : Rat) =
      (4 * m + 2) * (2 ^ e / 4) * (around m e).denominator := by
    rw [hhigh]
    push_cast
    rw [hquarter]
    ring
  have hclosed : (around m e).closed = false ↔ m % 2 = 1 := by
    show (m % 2 == 0) = false ↔ _
    rw [beq_eq_false_iff_ne]
    omega
  constructor
  · rintro ⟨hl, hh, hinside⟩
    rw [hlow', hclosed] at hinside
    rw [hhigh'] at hinside
    rw [hlow'] at hl
    rw [hhigh'] at hh
    refine ⟨le_of_mul_le_mul_right hl hden, le_of_mul_le_mul_right hh hden, fun hodd => ?_⟩
    obtain ⟨hl, hh⟩ := hinside hodd
    exact ⟨lt_of_mul_lt_mul_right hl hden.le, lt_of_mul_lt_mul_right hh hden.le⟩
  · rintro ⟨hl, hh, hinside⟩
    refine ⟨?_, ?_, fun hopen => ?_⟩
    · rw [hlow']
      exact mul_le_mul_of_nonneg_right hl hden.le
    · rw [hhigh']
      exact mul_le_mul_of_nonneg_right hh hden.le
    · rw [hclosed] at hopen
      obtain ⟨hl, hh⟩ := hinside hopen
      rw [hlow', hhigh']
      exact ⟨mul_lt_mul_of_pos_right hl hden, mul_lt_mul_of_pos_right hh hden⟩

/-! ## Different doubles -/

open Double (Canonical)

variable {m n : Nat} {e f : Int} {v : Rat}

/-- Of two significands on one grid the smaller interval ends where the larger begins, and of two
neighbours one is odd. -/
theorem not_contains_of_lt (hm : m ≠ 0) (hmn : m < n) (hx : (around m e).Contains v)
    (hy : (around n e).Contains v) : False := by
  obtain ⟨-, hhigh, hopen⟩ := (contains_around hm e v).mp hx
  obtain ⟨hlow, -, hopen'⟩ := (contains_around (by omega) e v).mp hy
  have hunit : (0 : Rat) < 2 ^ e / 4 := by positivity
  have hbelow : (below n e : Rat) ≤ 2 := by exact_mod_cast (below_le n e).2
  have hends : (4 * m + 2 : Rat) * (2 ^ e / 4) ≤ (4 * n - below n e) * (2 ^ e / 4) := by
    refine mul_le_mul_of_nonneg_right ?_ hunit.le
    have hsucc : (m + 1 : Rat) ≤ n := by exact_mod_cast hmn
    linarith
  rcases Nat.lt_or_ge (m + 1) n with hfar | hnext
  · have hapart : (4 * m + 2 : Rat) * (2 ^ e / 4) < (4 * n - below n e) * (2 ^ e / 4) := by
      refine mul_lt_mul_of_pos_right ?_ hunit
      have hsucc : (m + 2 : Rat) ≤ n := by exact_mod_cast hfar
      linarith
    linarith
  · rcases Nat.mod_two_eq_zero_or_one m with heven | hodd
    · have hlow' := (hopen' (by omega)).1
      linarith
    · have hhigh' := (hopen hodd).2
      linarith

/-- A larger exponent makes a larger number: its significand is full. The two intervals meet only at a
power of two, whose lower neighbour is odd. -/
theorem not_contains_of_exponent_lt (hm : m ≠ 0) (hcm : Canonical m e) (hcn : Canonical n f)
    (hef : e < f) (hx : (around m e).Contains v) (hy : (around n f).Contains v) : False := by
  have hfull : 2 ^ 52 ≤ n := hcn.full.resolve_right (by have := hcm.exponent_ge; omega)
  obtain ⟨-, hhigh, hopen⟩ := (contains_around hm e v).mp hx
  obtain ⟨hlow, -, -⟩ := (contains_around (by omega) f v).mp hy
  have hunit : (0 : Rat) < 2 ^ e / 4 := by positivity
  have hscale : (2 : Rat) * (2 ^ e / 4) ≤ 2 ^ f / 4 := by
    have hpow : (2 : Rat) ^ (e + 1) ≤ 2 ^ f := zpow_le_zpow_right₀ (by norm_num) (by omega)
    rw [zpow_add_one₀ (by norm_num)] at hpow
    linarith
  have hquarters : (2 ^ 54 - 1 : Rat) ≤ 4 * n - below n f := by
    rcases Nat.eq_or_lt_of_le hfull with heq | hlt
    · have hbelow : below n f = 1 := by
        rw [below, if_pos ⟨heq.symm, by have := hcm.exponent_ge; omega⟩]
      rw [hbelow, ← heq]
      norm_num
    · have hbelow : (below n f : Rat) ≤ 2 := by exact_mod_cast (below_le n f).2
      have hsucc : (2 ^ 52 + 1 : Rat) ≤ n := by exact_mod_cast hlt
      linarith
  have hends : (2 ^ 55 - 2 : Rat) * (2 ^ e / 4) ≤ v := by
    calc (2 ^ 55 - 2 : Rat) * (2 ^ e / 4) = (2 ^ 54 - 1) * (2 * (2 ^ e / 4)) := by ring
      _ ≤ (4 * n - below n f) * (2 ^ f / 4) := mul_le_mul hquarters hscale (by positivity) (by linarith)
      _ ≤ v := hlow
  rcases Nat.lt_or_ge (m + 1) (2 ^ 53) with hless | hmost
  · have hsucc : (m + 2 : Rat) ≤ 2 ^ 53 := by exact_mod_cast hless
    have hapart : (4 * m + 2 : Rat) * (2 ^ e / 4) < (2 ^ 55 - 2) * (2 ^ e / 4) :=
      mul_lt_mul_of_pos_right (by linarith) hunit
    linarith
  · have hmax : m = 2 ^ 53 - 1 := by have := hcm.lt; omega
    have hhigh' := (hopen (by omega)).2
    have hsame : (4 * m + 2 : Rat) = 2 ^ 55 - 2 := by
      rw [hmax]
      norm_num
    rw [hsame] at hhigh'
    linarith

theorem eq_of_contains (hm : m ≠ 0) (hn : n ≠ 0) (hcm : Canonical m e) (hcn : Canonical n f)
    (hx : (around m e).Contains v) (hy : (around n f).Contains v) : m = n ∧ e = f := by
  rcases Int.lt_trichotomy e f with hlt | rfl | hgt
  · exact (not_contains_of_exponent_lt hm hcm hcn hlt hx hy).elim
  · rcases Nat.lt_trichotomy m n with hlt | rfl | hgt
    · exact (not_contains_of_lt hm hlt hx hy).elim
    · exact ⟨rfl, rfl⟩
    · exact (not_contains_of_lt hn hgt hy hx).elim
  · exact (not_contains_of_exponent_lt hn hcn hcm hgt hy hx).elim

/-- The numbers around a double that is not zero are above zero. -/
theorem pos_of_contains (hm : m ≠ 0) (h : (around m e).Contains v) : 0 < v := by
  obtain ⟨hlow, -, -⟩ := (contains_around hm e v).mp h
  have hone : (1 : Rat) ≤ m := by exact_mod_cast Nat.one_le_iff_ne_zero.mpr hm
  have hbelow : (below m e : Rat) ≤ 2 := by exact_mod_cast (below_le m e).2
  have hends : (0 : Rat) < (4 * m - below m e) * (2 ^ e / 4) :=
    mul_pos (by linarith) (by positivity)
  linarith

theorem contains_self (hm : m ≠ 0) (e : Int) : (around m e).Contains (m * 2 ^ e) := by
  have hunit : (0 : Rat) < 2 ^ e / 4 := by positivity
  have hbelow : (1 : Rat) ≤ below m e := by exact_mod_cast (below_le m e).1
  have hself : (m * 2 ^ e : Rat) = 4 * m * (2 ^ e / 4) := by ring
  have hlow : (4 * m - below m e : Rat) * (2 ^ e / 4) < m * 2 ^ e := by
    rw [hself]
    exact mul_lt_mul_of_pos_right (by linarith) hunit
  have hhigh : (m * 2 ^ e : Rat) < (4 * m + 2) * (2 ^ e / 4) := by
    rw [hself]
    exact mul_lt_mul_of_pos_right (by linarith) hunit
  exact (contains_around hm e _).mpr ⟨hlow.le, hhigh.le, fun _ => ⟨hlow, hhigh⟩⟩

end Interval
end Decimal
end ArithTree
