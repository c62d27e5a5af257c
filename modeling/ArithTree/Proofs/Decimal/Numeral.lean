import ArithTree.Decimal.Layout
import ArithTree.Proofs.Decimal.Interval

/-!
# ArithTree.Proofs.Decimal.Numeral

Numerals: the texts of numbers without a sign, and the values that they stand for. A numeral is a
significand, with or without a point, and perhaps a power of ten.

* `Significand`, `Numeral`: the grammar, each text with its value.
* `Numeral.unique`: a numeral has one value. It is found by cutting the text at `e` and at the point.
* `numeral_write`: what the layout of full texts writes is a numeral for the number written.
-/

namespace ArithTree
namespace Decimal

def AllDigits (cs : List Char) : Prop := ∀ c ∈ cs, c.isDigit = true

/-- The number that a row of digits stands for. -/
def ofDigits (cs : List Char) : Nat := Nat.ofDigitChars 10 cs 0

inductive Significand : List Char → Rat → Prop where
  | whole {ds : List Char} : AllDigits ds → ds ≠ [] → Significand ds (ofDigits ds)
  | pointed {ds fs : List Char} : AllDigits ds → ds ≠ [] → AllDigits fs →
      Significand (ds ++ '.' :: fs) (ofDigits (ds ++ fs) * 10 ^ (-(fs.length : Int)))

inductive Numeral : List Char → Rat → Prop where
  | plain {cs : List Char} {v : Rat} : Significand cs v → Numeral cs v
  | scaled {cs : List Char} {v : Rat} (e : Int) : Significand cs v →
      Numeral (cs ++ 'e' :: (exponentText 2 e).toList) (v * 10 ^ e)

/-! ## Digits -/

theorem AllDigits.append {cs ds : List Char} (hc : AllDigits cs) (hd : AllDigits ds) :
    AllDigits (cs ++ ds) := by
  intro c h
  rcases List.mem_append.mp h with h | h
  · exact hc c h
  · exact hd c h

theorem AllDigits.not_mem {cs : List Char} (h : AllDigits cs) {c : Char} (hc : c.isDigit = false) :
    c ∉ cs := by
  intro hmem
  rw [h c hmem] at hc
  cases hc

theorem allDigits_replicate (n : Nat) : AllDigits (List.replicate n '0') := by
  intro c hc
  rw [List.eq_of_mem_replicate hc]
  decide

theorem allDigits_toDigits (n : Nat) : AllDigits (Nat.toDigits 10 n) :=
  fun _ hc => Nat.isDigit_of_mem_toDigits (by decide) (by decide) hc

theorem ofDigits_toDigits (n : Nat) : ofDigits (Nat.toDigits 10 n) = n :=
  Nat.ofDigitChars_ten_toDigits

theorem ofDigits_zeros_append (n : Nat) (cs : List Char) :
    ofDigits (List.replicate n '0' ++ cs) = ofDigits cs := by
  rw [ofDigits, Nat.ofDigitChars_append, Nat.ofDigitChars_replicate_zero, Nat.mul_zero]
  rfl

theorem ofDigits_append_zeros (cs : List Char) (n : Nat) :
    ofDigits (cs ++ List.replicate n '0') = ofDigits cs * 10 ^ n := by
  rw [ofDigits, Nat.ofDigitChars_append, Nat.ofDigitChars_replicate_zero, Nat.mul_comm]
  rfl

theorem toList_pushn (s : String) (c : Char) (n : Nat) :
    (s.pushn c n).toList = s.toList ++ List.replicate n c := by
  rw [String.pushn_eq_repeat_push]
  induction n with
  | zero => simp [Nat.repeat]
  | succ n ih =>
    rw [Nat.repeat, String.toList_push, ih, List.replicate_succ', List.append_assoc]

/-! ## One value -/

/-- The text before the first `c`, and the text after it. -/
def cut (c : Char) (cs : List Char) : List Char × List Char :=
  (cs.takeWhile (· != c), (cs.dropWhile (· != c)).drop 1)

theorem cut_append {c : Char} {cs : List Char} (h : c ∉ cs) (rest : List Char) :
    cut c (cs ++ c :: rest) = (cs, rest) := by
  have hall : ∀ d ∈ cs, (d != c) = true := by
    intro d hd
    rw [bne_iff_ne]
    rintro rfl
    exact h hd
  simp [cut, List.takeWhile_append_of_pos hall, List.dropWhile_append_of_pos hall]

theorem cut_absent {c : Char} {cs : List Char} (h : c ∉ cs) : cut c cs = (cs, []) := by
  have hall : ∀ d ∈ cs, (d != c) = true := by
    intro d hd
    rw [bne_iff_ne]
    rintro rfl
    exact h hd
  simp [cut, List.takeWhile_eq_self_iff.mpr hall, List.dropWhile_eq_nil_iff.mpr hall]

/-- The value of a signed row of digits. -/
def readExponent : List Char → Int
  | '-' :: cs => -(ofDigits cs : Int)
  | '+' :: cs => ofDigits cs
  | _ => 0

def readSignificand (cs : List Char) : Rat :=
  ofDigits ((cut '.' cs).1 ++ (cut '.' cs).2) * 10 ^ (-((cut '.' cs).2.length : Int))

def readNumeral (cs : List Char) : Rat :=
  readSignificand (cut 'e' cs).1 * 10 ^ readExponent (cut 'e' cs).2

theorem toList_exponentText (width : Nat) (e : Int) :
    ∃ n, (exponentText width e).toList =
      (if e < 0 then '-' else '+') :: (List.replicate n '0' ++ Nat.toDigits 10 e.natAbs) := by
  refine ⟨width - (toString e.natAbs).length, ?_⟩
  simp only [exponentText, String.toList_append, toList_pushn, Nat.toString_eq_repr, Nat.toList_repr]
  split <;> rfl

theorem readExponent_exponentText (width : Nat) (e : Int) :
    readExponent (exponentText width e).toList = e := by
  obtain ⟨n, htext⟩ := toList_exponentText width e
  have hdigits : ofDigits (List.replicate n '0' ++ Nat.toDigits 10 e.natAbs) = e.natAbs := by
    rw [ofDigits_zeros_append, ofDigits_toDigits]
  rw [htext]
  split
  · show -(ofDigits _ : Int) = e
    rw [hdigits]
    omega
  · show (ofDigits _ : Int) = e
    rw [hdigits]
    omega

theorem Significand.read {cs : List Char} {v : Rat} (h : Significand cs v) :
    'e' ∉ cs ∧ readSignificand cs = v := by
  cases h with
  | whole hds _ =>
    refine ⟨hds.not_mem rfl, ?_⟩
    rw [readSignificand, cut_absent (hds.not_mem rfl)]
    simp
  | pointed hds _ hfs =>
    refine ⟨?_, ?_⟩
    · simp only [List.mem_append, List.mem_cons, not_or]
      exact ⟨hds.not_mem rfl, by decide, hfs.not_mem rfl⟩
    · rw [readSignificand, cut_append (hds.not_mem rfl)]

theorem Numeral.read {cs : List Char} {v : Rat} (h : Numeral cs v) : readNumeral cs = v := by
  cases h with
  | plain hs =>
    obtain ⟨hmark, hread⟩ := hs.read
    rw [readNumeral, cut_absent hmark, hread]
    simp [readExponent]
  | scaled e hs =>
    obtain ⟨hmark, hread⟩ := hs.read
    rw [readNumeral, cut_append hmark, hread, readExponent_exponentText]

theorem Numeral.unique {cs : List Char} {v w : Rat} (hv : Numeral cs v) (hw : Numeral cs w) : v = w :=
  hv.read.symm.trans hw.read

/-! ## The characters of a numeral -/

def isNumeralChar (c : Char) : Bool :=
  c.isDigit || c == '.' || c == 'e' || c == '+' || c == '-'

theorem Significand.chars {cs : List Char} {v : Rat} (h : Significand cs v) :
    ∀ c ∈ cs, isNumeralChar c = true := by
  have digit {ds : List Char} (hds : AllDigits ds) : ∀ c ∈ ds, isNumeralChar c = true := by
    intro c hc
    simp [isNumeralChar, hds c hc]
  cases h with
  | whole hds _ => exact digit hds
  | pointed hds _ hfs =>
    intro c hc
    rcases List.mem_append.mp hc with hc | hc
    · exact digit hds c hc
    · rcases List.mem_cons.mp hc with rfl | hc
      · rfl
      · exact digit hfs c hc

theorem Numeral.chars {cs : List Char} {v : Rat} (h : Numeral cs v) :
    ∀ c ∈ cs, isNumeralChar c = true := by
  cases h with
  | plain hs => exact hs.chars
  | scaled e hs =>
    obtain ⟨n, htext⟩ := toList_exponentText 2 e
    rw [htext]
    intro c hc
    simp only [List.mem_append, List.mem_cons] at hc
    rcases hc with hc | rfl | rfl | hc | hc
    · exact hs.chars c hc
    · rfl
    · split <;> rfl
    · simp [isNumeralChar, allDigits_replicate n c hc]
    · simp [isNumeralChar, allDigits_toDigits _ c hc]

/-- A numeral has a first character, a digit. -/
theorem Numeral.head {cs : List Char} {v : Rat} (h : Numeral cs v) :
    ∃ c rest, cs = c :: rest ∧ c.isDigit = true := by
  have digit {ds : List Char} (hds : AllDigits ds) (hne : ds ≠ []) (after : List Char) :
      ∃ c rest, ds ++ after = c :: rest ∧ c.isDigit = true := by
    obtain ⟨c, rest, rfl⟩ := List.exists_cons_of_ne_nil hne
    exact ⟨c, rest ++ after, rfl, hds c List.mem_cons_self⟩
  have significand {cs : List Char} {v : Rat} (hs : Significand cs v) (after : List Char) :
      ∃ c rest, cs ++ after = c :: rest ∧ c.isDigit = true := by
    cases hs with
    | whole hds hne => exact digit hds hne after
    | pointed hds hne _ =>
      rw [List.append_assoc]
      exact digit hds hne _
  cases h with
  | plain hs =>
    rw [← List.append_nil cs]
    exact significand hs []
  | scaled e hs => exact significand hs _

/-! ## Writing -/

theorem numeral_natural (n : Nat) : Numeral (toString n).toList n := by
  rw [Nat.toString_eq_repr, Nat.toList_repr]
  have hvalue : (n : Rat) = ofDigits (Nat.toDigits 10 n) := by rw [ofDigits_toDigits]
  rw [hvalue]
  exact .plain (.whole (allDigits_toDigits n) Nat.toDigits_ne_nil)

section Place

variable {ds : List Char}

theorem mul_ten_zpow_mul (q : Rat) (j k : Int) : q * 10 ^ j * 10 ^ k = q * 10 ^ (j + k) := by
  rw [mul_assoc, zpow_add₀ (by norm_num)]

/-- A point after some of the digits. -/
theorem Significand.split (hds : AllDigits ds) {n : Nat} (hn : 0 < n) (hlen : n < ds.length) :
    Significand (ds.take n ++ '.' :: ds.drop n) (ofDigits ds * 10 ^ ((n : Int) - ds.length)) := by
  have hne : ds.take n ≠ [] := List.length_pos_iff.mp (by rw [List.length_take]; omega)
  have htake : AllDigits (ds.take n) := fun c hc => hds c (List.mem_of_mem_take hc)
  have hdrop : AllDigits (ds.drop n) := fun c hc => hds c (List.mem_of_mem_drop hc)
  have hsig := Significand.pointed htake hne hdrop
  have hexp : -((ds.drop n).length : Int) = n - ds.length := by
    rw [List.length_drop]
    omega
  rwa [List.take_append_drop, hexp] at hsig

/-- Digits written as a fraction below one. -/
theorem numeral_below_one (hds : AllDigits ds) {e : Int} (he : e < 0) :
    Numeral ("0.".toList ++ List.replicate ((-e).toNat - 1) '0' ++ ds)
      (ofDigits ds * 10 ^ (e + 1 - ds.length)) := by
  have hsig := Significand.pointed (allDigits_replicate 1) (by simp)
    ((allDigits_replicate ((-e).toNat - 1)).append hds)
  have hexp : -((List.replicate ((-e).toNat - 1) '0' ++ ds).length : Int) = e + 1 - ds.length := by
    rw [List.length_append, List.length_replicate]
    omega
  rw [ofDigits_zeros_append, ofDigits_zeros_append, hexp] at hsig
  exact .plain hsig

/-- Digits filled up with zeros to a whole number. -/
theorem numeral_whole (hds : AllDigits ds) (hne : ds ≠ []) (n : Nat) :
    Numeral (ds ++ List.replicate n '0' ++ ".0".toList) (ofDigits ds * 10 ^ (n : Int)) := by
  have hsig := Significand.pointed (hds.append (allDigits_replicate n))
    (List.append_ne_nil_of_left_ne_nil hne _) (allDigits_replicate 1)
  have hvalue : (ofDigits (ds ++ List.replicate n '0' ++ List.replicate 1 '0') : Rat) *
      10 ^ (-((List.replicate 1 '0').length : Int)) = ofDigits ds * 10 ^ (n : Int) := by
    rw [ofDigits_append_zeros, ofDigits_append_zeros, List.length_replicate, zpow_natCast]
    push_cast
    ring
  rw [hvalue] at hsig
  exact .plain hsig

theorem toList_power (e : Int) :
    (Layout.plain.power e).toList = 'e' :: (exponentText 2 e).toList := String.toList_append

theorem numeral_place (hds : AllDigits ds) (hne : ds ≠ []) (e : Int) :
    Numeral (Layout.plain.place ds e).toList (ofDigits ds * 10 ^ (e + 1 - ds.length)) := by
  have hlen : 0 < ds.length := List.length_pos_iff.mpr hne
  unfold Layout.place
  split
  · split
    · rename_i he
      simp only [String.toList_append, toList_pushn, String.toList_ofList]
      exact numeral_below_one hds he
    · dsimp only
      split
      · have hexp : e + 1 - ds.length = ((e.toNat + 1 - ds.length : Nat) : Int) := by omega
        rw [hexp]
        simp only [String.toList_append, toList_pushn, String.toList_ofList]
        exact numeral_whole hds hne _
      · have hexp : e + 1 - ds.length = ((e.toNat + 1 : Nat) : Int) - ds.length := by omega
        rw [hexp]
        simp only [String.toList_append, String.toList_ofList, List.append_assoc]
        exact .plain (.split hds (Nat.succ_pos _) (by omega))
  · split
    · rename_i d
      have hexp : e + 1 - ([d].length : Int) = e := by simp
      rw [hexp]
      simp only [String.toList_append, String.toList_ofList, toList_power]
      exact .scaled e (.whole hds hne)
    · rename_i hlong
      have hlong' : 1 < ds.length := by
        match ds, hne with
        | [d], _ => exact absurd rfl (hlong d)
        | c :: d :: rest, _ => simp
      have hexp : e + 1 - (ds.length : Int) = ((1 : Nat) : Int) - ds.length + e := by omega
      rw [hexp, ← mul_ten_zpow_mul]
      simp only [String.toList_append, String.toList_ofList, toList_power, List.append_assoc _ ".".toList]
      exact .scaled e (.split hds Nat.one_pos hlong')

end Place

theorem numeral_write (d : Digits) : Numeral (Layout.plain.write d).toList d.value := by
  have hds := allDigits_toDigits d.digits
  have hexp : d.exponent + (Nat.toDigits 10 d.digits).length - 1 + 1 -
      (Nat.toDigits 10 d.digits).length = d.exponent := by omega
  have hplace := numeral_place hds Nat.toDigits_ne_nil
    (d.exponent + (Nat.toDigits 10 d.digits).length - 1)
  rw [hexp, ofDigits_toDigits] at hplace
  rw [Layout.write, Nat.toString_eq_repr, Nat.toList_repr]
  exact hplace

end Decimal
end ArithTree
