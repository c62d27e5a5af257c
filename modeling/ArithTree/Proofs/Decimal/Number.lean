import ArithTree.Proofs.Decimal.Numeral
import ArithTree.Proofs.Decimal.Shortest

/-!
# ArithTree.Proofs.Decimal.Number

Numbers in text tell doubles apart. A finite double is written as a sign and a numeral, and the value
of the numeral rounds to the double, whether it is whole and written as an integer or written with its
shortest digits. No number rounds to two doubles, so the text determines the double. Only the two
zeros have one text.

* `number_start`, `number_chars`: what the text of a number looks like.
* `number_finite`: the text of a finite double that is not zero.
* `number_eq_iff`: doubles have the same text exactly if they are equal.
-/

namespace ArithTree
namespace Decimal

open Double (Binary signed)

/-- The sign before a numeral. -/
def minus (s : Bool) : List Char := if s then ['-'] else []

/-! ## Whole numbers -/

theorem toList_signed (s : Bool) {k : Nat} (hk : k ≠ 0) :
    (toString (signed s k)).toList = minus s ++ (toString k).toList := by
  rw [Int.toString_eq_repr, Int.repr_eq_if, Nat.toString_eq_repr]
  cases s with
  | false => rfl
  | true =>
    have hneg : ¬ 0 ≤ signed true k := by
      simp only [signed, if_true]
      omega
    have habs : (-signed true k).toNat = k := by
      simp only [signed, if_true]
      omega
    rw [if_neg hneg, habs, String.toList_append]
    rfl

theorem eq_mul_two_zpow {k m j c : Nat} {e : Int} (hsum : e + c = j) (h : k * 2 ^ c = m * 2 ^ j) :
    (k : Rat) = m * 2 ^ e := by
  have hpow : (2 : Rat) ^ e * 2 ^ c = 2 ^ j := by
    rw [← zpow_natCast, ← zpow_natCast, ← zpow_add₀ (by norm_num), hsum]
  have hrat : (k : Rat) * 2 ^ c = m * 2 ^ e * 2 ^ c := by
    rw [mul_assoc, hpow]
    exact_mod_cast h
  exact mul_right_cancel₀ (by positivity) hrat

/-- The integer that a whole double stands for, as a sign and a magnitude. -/
theorem eq_signed_of_toInt? {s : Bool} {m : Nat} {e i : Int} (he : -1074 ≤ e)
    (h : (Binary.finite s m e).toInt? = some i) :
    i = signed s i.natAbs ∧ (i.natAbs : Rat) = m * 2 ^ e := by
  have hscaled := Double.toInt?_mul he h
  have habs := congrArg Int.natAbs hscaled
  rw [Double.natAbs_signed, Int.natAbs_mul, Int.natAbs_natCast] at habs
  constructor
  · rw [← habs, Double.signed_mul] at hscaled
    exact Int.eq_of_mul_eq_mul_right (by positivity) hscaled
  · have hsum : e + (1074 : Nat) = ((e + 1074).toNat : Int) := by omega
    exact eq_mul_two_zpow hsum habs

/-! ## The text of a double -/

variable {x y : Float} {s t : Bool} {m n : Nat} {e f : Int}

theorem number_zero (h : Binary.ofFloat x = .finite s 0 e) : number x = "0" := by
  rw [number, Double.toInt?_of_zero h]
  rfl

theorem number_infinite (h : Binary.ofFloat x = .infinite s) :
    (number x).toList = minus s ++ "inf".toList := by
  rw [number, Double.toInt?, h]
  simp only [Binary.toInt?, text, Layout.float, h]
  cases s <;> rfl

theorem number_finite (h : Binary.ofFloat x = .finite s m e) (hm : m ≠ 0) :
    ∃ cs v, (number x).toList = minus s ++ cs ∧ Numeral cs v ∧ (Interval.around m e).Contains v := by
  have hc := Double.ofFloat_canonical h
  rw [number, Double.toInt?, h]
  cases hwhole : (Binary.finite s m e).toInt? with
  | some i =>
    obtain ⟨hsigned, hvalue⟩ := eq_signed_of_toInt? hc.exponent_ge hwhole
    have hne : i.natAbs ≠ 0 := by
      have hpos : (0 : Rat) < i.natAbs := by
        rw [hvalue]
        positivity
      exact_mod_cast hpos.ne'
    refine ⟨_, i.natAbs, ?_, numeral_natural _, ?_⟩
    · dsimp only
      rw [hsigned, toList_signed s hne, ← hsigned]
    · rw [hvalue]
      exact Interval.contains_self hm e
  | none =>
    refine ⟨_, _, ?_, numeral_write (shortest m e),
      shortest_contains hc hm (Double.ofFloat_exponent_le h)⟩
    simp only [text, Layout.float, h, if_neg hm, String.toList_append]
    cases s <;> rfl

/-! ## Telling doubles apart -/

/-- A numeral starts with a digit, so a sign before it can be told. -/
theorem minus_append_inj {cs ds : List Char} {v w : Rat} (hc : Numeral cs v) (hd : Numeral ds w)
    (h : minus s ++ cs = minus t ++ ds) : s = t ∧ cs = ds := by
  obtain ⟨c, rest, rfl, hdigit⟩ := hc.head
  obtain ⟨d, rest', rfl, hdigit'⟩ := hd.head
  cases s <;> cases t
  · exact ⟨rfl, h⟩
  · cases h
    cases hdigit
  · cases h
    cases hdigit'
  · exact ⟨rfl, List.tail_eq_of_cons_eq h⟩

theorem ofFloat_ne_nan (hx : x.isNaN = false) : Binary.ofFloat x ≠ .nan := by
  rw [Ne, ← Double.isNaN_iff, hx]
  exact Bool.false_ne_true

theorem minus_mem (s : Bool) : ∀ c ∈ minus s, c = '-' := by
  intro c hc
  cases s with
  | false => cases hc
  | true => exact List.mem_singleton.mp hc

/-- The characters of a finite double. -/
theorem number_chars (h : Binary.ofFloat x = .finite s m e) :
    ∀ c ∈ (number x).toList, isNumeralChar c = true := by
  intro c hc
  rcases Nat.eq_zero_or_pos m with rfl | hm
  · rw [number_zero h] at hc
    rw [List.mem_singleton.mp hc]
    rfl
  · obtain ⟨cs, v, htext, hnumeral, -⟩ := number_finite h hm.ne'
    rw [htext] at hc
    rcases List.mem_append.mp hc with hc | hc
    · rw [minus_mem s c hc]
      rfl
    · exact hnumeral.chars c hc

/-- The text of a number starts with a digit or a minus sign, or it is that of infinity. -/
theorem number_start (hx : x.isNaN = false) :
    (number x).toList = "inf".toList ∨
      ∃ c cs, (number x).toList = c :: cs ∧ (c = '-' ∨ c.isDigit = true) := by
  cases hb : Binary.ofFloat x with
  | nan => exact absurd hb (ofFloat_ne_nan hx)
  | infinite s =>
    rw [number_infinite hb]
    cases s with
    | false => exact .inl rfl
    | true => exact .inr ⟨_, _, rfl, .inl rfl⟩
  | finite s m e =>
    right
    rcases Nat.eq_zero_or_pos m with rfl | hm
    · rw [number_zero hb]
      exact ⟨_, _, rfl, .inr rfl⟩
    · obtain ⟨cs, v, htext, hnumeral, -⟩ := number_finite hb hm.ne'
      obtain ⟨c, rest, rfl, hdigit⟩ := hnumeral.head
      rw [htext]
      cases s with
      | false => exact ⟨_, _, rfl, .inr hdigit⟩
      | true => exact ⟨_, _, rfl, .inl rfl⟩

theorem number_infinite_ne_finite (hx : Binary.ofFloat x = .infinite s)
    (hy : Binary.ofFloat y = .finite t n f) : number x ≠ number y := by
  intro h
  have hmem : 'n' ∈ (number x).toList := by
    rw [number_infinite hx]
    exact List.mem_append_right _ (by decide)
  rw [h] at hmem
  have hchar := number_chars hy 'n' hmem
  cases hchar

theorem number_zero_ne (hx : Binary.ofFloat x = .finite s 0 e) (hy : Binary.ofFloat y = .finite t n f)
    (hn : n ≠ 0) : number x ≠ number y := by
  intro h
  obtain ⟨cs, v, htext, hnumeral, hcontains⟩ := number_finite hy hn
  have hzero : Numeral "0".toList (0 : Nat) := numeral_natural 0
  rw [← h, number_zero hx] at htext
  obtain ⟨-, rfl⟩ := minus_append_inj (s := false) hzero hnumeral htext
  have hpos := Interval.pos_of_contains hn hcontains
  rw [← hzero.unique hnumeral] at hpos
  exact absurd hpos (by norm_num)

theorem finite_eq_of_number (hx : Binary.ofFloat x = .finite s m e)
    (hy : Binary.ofFloat y = .finite t n f) (hm : m ≠ 0) (hn : n ≠ 0) (h : number x = number y) :
    Binary.ofFloat x = Binary.ofFloat y := by
  obtain ⟨cs, v, htext, hnumeral, hcontains⟩ := number_finite hx hm
  obtain ⟨ds, w, htext', hnumeral', hcontains'⟩ := number_finite hy hn
  rw [h, htext'] at htext
  obtain ⟨rfl, rfl⟩ := minus_append_inj hnumeral' hnumeral htext
  obtain rfl := hnumeral.unique hnumeral'
  obtain ⟨rfl, rfl⟩ := Interval.eq_of_contains hm hn (Double.ofFloat_canonical hx)
    (Double.ofFloat_canonical hy) hcontains hcontains'
  rw [hx, hy]

theorem beq_of_number (hx : x.isNaN = false) (hy : y.isNaN = false) (h : number x = number y) :
    (x == y) = true := by
  cases hbx : Binary.ofFloat x with
  | nan => exact absurd hbx (ofFloat_ne_nan hx)
  | infinite s =>
    cases hby : Binary.ofFloat y with
    | nan => exact absurd hby (ofFloat_ne_nan hy)
    | infinite t =>
      have htext : (number x).toList = (number y).toList := by rw [h]
      rw [number_infinite hbx, number_infinite hby] at htext
      refine Double.beq_of_ofFloat hx ?_
      rw [hbx, hby]
      cases s <;> cases t
      · rfl
      · cases htext
      · cases htext
      · rfl
    | finite t n f => exact absurd h (number_infinite_ne_finite hbx hby)
  | finite s m e =>
    cases hby : Binary.ofFloat y with
    | nan => exact absurd hby (ofFloat_ne_nan hy)
    | infinite t => exact absurd h.symm (number_infinite_ne_finite hby hbx)
    | finite t n f =>
      rcases Nat.eq_zero_or_pos m with rfl | hm
      · rcases Nat.eq_zero_or_pos n with rfl | hn
        · exact Double.beq_of_toInt? (Double.toInt?_of_zero hbx) (Double.toInt?_of_zero hby)
        · exact absurd h (number_zero_ne hbx hby hn.ne')
      · rcases Nat.eq_zero_or_pos n with rfl | hn
        · exact absurd h.symm (number_zero_ne hby hbx hm.ne')
        · exact Double.beq_of_ofFloat hx (finite_eq_of_number hbx hby hm.ne' hn.ne' h)

theorem number_of_beq (h : (x == y) = true) : number x = number y := by
  rcases Double.ofFloat_of_beq h with heq | ⟨s, t, hx, hy⟩
  · simp only [number, Double.toInt?, text, Layout.float, heq]
  · rw [number_zero hx, number_zero hy]

theorem number_eq_iff (hx : x.isNaN = false) (hy : y.isNaN = false) :
    number x = number y ↔ (x == y) = true :=
  ⟨beq_of_number hx hy, number_of_beq⟩

end Decimal
end ArithTree
