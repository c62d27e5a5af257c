import ArithTree.Expr.Text
import ArithTree.Proofs.Decimal.Number

/-!
# ArithTree.Proofs.Expr.Unambiguous

The infix form of a tree can be read in one way only. A text begins with a word, which has none of the
characters that set words apart. The word and the character after it say which node stands there: a
word before an opening parenthesis is an operator, an opening parenthesis without a word begins an
infix operation, and any other word is a number or a name (`head_eq`).

* `legible`: the trees meant, without NaN and with identifiers as names.
* `append_inj`: a text is told from what follows it.
* `text_eq_iff`: trees have the same text exactly if they are equal.
-/

namespace ArithTree
namespace Expr

/-! ## Legible trees -/

/-- A letter or an underscore. Beyond ASCII every character counts as a letter. -/
def isWordStart (c : Char) : Bool := c.isAlpha || c == '_' || decide (128 ≤ c.toNat)

def isWordChar (c : Char) : Bool := isWordStart c || c.isDigit

def isIdentifier (n : String) : Bool :=
  match n.toList with
  | [] => false
  | c :: cs => isWordStart c && cs.all isWordChar

/-- No number is a NaN, no leaf a foreign value, and every name is an identifier that does not read as
an infinity. A name that reads as a NaN does no harm. -/
def legible : Expr → Bool
  | .num x => !x.isNaN
  | .var n => isIdentifier n && n != "inf"
  | .unary _ a => a.legible
  | .binary _ a b => a.legible && b.legible
  | .request _ a => a.legible
  | .plot e s l h t => e.legible && s.legible && l.legible && h.legible && t.legible
  | .foreign _ => false

/-! ## Words -/

/-- The characters that set words apart. -/
def isMark (c : Char) : Bool := c == ' ' || c == '(' || c == ')' || c == ','

def Unmarked (cs : List Char) : Prop := ∀ c ∈ cs, isMark c = false

/-- Nothing follows, or a mark does. -/
def Marked (r : List Char) : Prop := ∀ c ∈ r.head?, isMark c = true

/-- What may follow a whole expression: nothing, or a mark that opens no operands. -/
def Stop (r : List Char) : Prop := ∀ c ∈ r.head?, isMark c = true ∧ c ≠ '('

theorem Stop.marked {r : List Char} (h : Stop r) : Marked r := fun c hc => (h c hc).1

theorem takeWhile_word {u r : List Char} (hu : Unmarked u) (hr : Marked r) :
    (u ++ r).takeWhile (fun c => !isMark c) = u := by
  have hall : ∀ c ∈ u, (!isMark c) = true := by
    intro c hc
    rw [hu c hc]
    rfl
  rw [List.takeWhile_append_of_pos hall]
  cases r with
  | nil => simp
  | cons c r =>
    have hc : isMark c = true := hr c rfl
    simp [hc]

theorem word_append_inj {u v r r' : List Char} (hu : Unmarked u) (hv : Unmarked v) (hr : Marked r)
    (hr' : Marked r') (h : u ++ r = v ++ r') : u = v ∧ r = r' := by
  have huv : u = v := by rw [← takeWhile_word hu hr, h, takeWhile_word hv hr']
  subst huv
  exact ⟨rfl, List.append_cancel_left h⟩

/-- A mark is none of the characters that a test on words accepts. -/
theorem isMark_eq_false {p : Char → Bool} (hp : [' ', '(', ')', ','].all (fun c => !p c) = true)
    {c : Char} (h : p c = true) : isMark c = false := by
  by_contra hmark
  simp only [isMark, Bool.not_eq_false, Bool.or_eq_true, beq_iff_eq, or_assoc] at hmark
  simp only [List.all_cons, List.all_nil, Bool.and_true, Bool.and_eq_true, Bool.not_eq_true'] at hp
  obtain ⟨hspace, hopen, hclose, hcomma⟩ := hp
  rcases hmark with rfl | rfl | rfl | rfl
  · rw [hspace] at h
    cases h
  · rw [hopen] at h
    cases h
  · rw [hclose] at h
    cases h
  · rw [hcomma] at h
    cases h

theorem isDigit_of_isWordStart {c : Char} (h : isWordStart c = true) : c.isDigit = false := by
  by_contra hdigit
  simp only [isWordStart, Char.isAlpha, Char.isUpper, Char.isLower, Bool.or_eq_true,
    Bool.and_eq_true, decide_eq_true_eq, beq_iff_eq, UInt32.le_iff_toNat_le, ge_iff_le] at h
  simp only [Char.isDigit, Bool.not_eq_false, Bool.and_eq_true, decide_eq_true_eq,
    UInt32.le_iff_toNat_le, ge_iff_le] at hdigit
  change (((65 ≤ c.toNat ∧ c.toNat ≤ 90) ∨ (97 ≤ c.toNat ∧ c.toNat ≤ 122)) ∨ c = '_') ∨
    128 ≤ c.toNat at h
  change 48 ≤ c.toNat ∧ c.toNat ≤ 57 at hdigit
  rcases h with ((h | h) | rfl) | h
  · omega
  · omega
  · exact absurd hdigit (by decide)
  · omega

/-! ## The words of an expression -/

/-- The word that a text begins with, and the text after it. -/
def word : Expr → List Char
  | .num x => (Decimal.number x).toList
  | .var n => n.toList
  | .unary op _ => op.symbol.toList
  | .request r _ => r.symbol.toList
  | .plot .. => "plot".toList
  | .binary .. | .foreign _ => []

def afterWord : Expr → List Char
  | .unary _ a | .request _ a => '(' :: (a.text.toList ++ [')'])
  | .binary op a b =>
    '(' :: (a.text.toList ++ ' ' :: (op.symbol.toList ++ ' ' :: (b.text.toList ++ [')'])))
  | .plot e s l h t =>
    '(' :: (e.text.toList ++ ',' :: ' ' :: (s.text.toList ++ ',' :: ' ' :: (l.text.toList ++
      ',' :: ' ' :: (h.text.toList ++ ',' :: ' ' :: (t.text.toList ++ [')'])))))
  | .num _ | .var _ | .foreign _ => []

theorem toList_text {e : Expr} (he : e.legible = true) : e.text.toList = e.word ++ e.afterWord := by
  cases e with
  | num x => exact (List.append_nil _).symm
  | var n => exact (List.append_nil _).symm
  | foreign v => cases he
  | _ =>
    simp only [text_unary, text_binary, text_request, text_plot, word, afterWord,
      String.toList_append, List.append_assoc]
    rfl

theorem unmarked_of_all {cs : List Char} (h : cs.all (fun c => !isMark c) = true) : Unmarked cs := by
  intro c hc
  simpa using List.all_eq_true.mp h c hc

theorem symbol_unmarked (op : Operator) : Unmarked op.symbol.toList := by
  have hall : ∀ op' ∈ Operator.all, op'.symbol.toList.all (fun c => !isMark c) = true := by decide
  have hmem : op ∈ Operator.all := by
    rcases op with op | op | _ | op
    · cases op <;> decide
    · cases op <;> decide
    · decide
    · cases op <;> decide
  exact unmarked_of_all (hall op hmem)

theorem exists_of_isIdentifier {n : String} (h : isIdentifier n = true) :
    ∃ c cs, n.toList = c :: cs ∧ isWordStart c = true ∧ ∀ d ∈ cs, isWordChar d = true := by
  unfold isIdentifier at h
  split at h
  · cases h
  · rename_i c cs hn
    rw [Bool.and_eq_true, List.all_eq_true] at h
    exact ⟨c, cs, hn, h.1, h.2⟩

theorem name_unmarked {n : String} (h : isIdentifier n = true) : Unmarked n.toList := by
  obtain ⟨c, cs, hn, hc, hcs⟩ := exists_of_isIdentifier h
  intro d hd
  rw [hn] at hd
  rcases List.mem_cons.mp hd with rfl | hd
  · exact isMark_eq_false rfl hc
  · exact isMark_eq_false rfl (hcs d hd)

theorem number_unmarked {x : Float} (hx : x.isNaN = false) :
    Unmarked (Decimal.number x).toList := by
  cases hb : Double.Binary.ofFloat x with
  | nan => exact absurd hb (Decimal.ofFloat_ne_nan hx)
  | infinite s =>
    rw [Decimal.number_infinite hb]
    cases s with
    | false => exact unmarked_of_all (by decide)
    | true => exact unmarked_of_all (by decide)
  | finite s m e =>
    intro c hc
    exact isMark_eq_false rfl (Decimal.number_chars hb c hc)

theorem word_unmarked {e : Expr} (he : e.legible = true) : Unmarked e.word := by
  cases e with
  | num x =>
    rw [legible, Bool.not_eq_true'] at he
    exact number_unmarked he
  | var n =>
    rw [legible, Bool.and_eq_true] at he
    exact name_unmarked he.1
  | unary op a => exact symbol_unmarked (.unary op)
  | request r a => exact symbol_unmarked (.request r)
  | plot e s l h t => exact symbol_unmarked .plot
  | binary op a b => exact fun c hc => nomatch hc
  | foreign v => exact fun c hc => nomatch hc

/-! ## Which node a text begins -/

/-- What kind of node an expression is, with the operator of a call. -/
inductive Head where
  | number
  | name
  | infixed
  | call (op : Operator)
  deriving DecidableEq

def head : Expr → Head
  | .num _ => .number
  | .var _ | .foreign _ => .name
  | .unary op _ => .call (.unary op)
  | .binary .. => .infixed
  | .request r _ => .call (.request r)
  | .plot .. => .call .plot

/-- The kind of node, from the word and the text after it. -/
def readHead (w r : List Char) : Head :=
  if r.head? = some '(' then
    match Operator.ofSymbol? (String.ofList w) with
    | some op => .call op
    | none => .infixed
  else if w = "inf".toList ∨ w.head?.any isWordStart = false then .number
  else .name

theorem readHead_call (op : Operator) (r : List Char) :
    readHead op.symbol.toList ('(' :: r) = .call op := by
  simp only [readHead, List.head?_cons, if_true, String.ofList_toList, Operator.ofSymbol?_symbol]

theorem readHead_number {x : Float} (hx : x.isNaN = false) {r : List Char} (hr : Stop r) :
    readHead (Decimal.number x).toList r = .number := by
  have hopen : r.head? ≠ some '(' := fun h => (hr '(' h).2 rfl
  rw [readHead, if_neg hopen, if_pos]
  rcases Decimal.number_start hx with hinf | ⟨c, cs, htext, hc⟩
  · exact .inl hinf
  · right
    rw [htext, List.head?_cons, Option.any_some]
    rcases hc with rfl | hdigit
    · rfl
    · by_contra hstart
      rw [Bool.not_eq_false] at hstart
      rw [isDigit_of_isWordStart hstart] at hdigit
      cases hdigit

theorem readHead_name {n : String} (hn : isIdentifier n = true) (hinf : n ≠ "inf") {r : List Char}
    (hr : Stop r) : readHead n.toList r = .name := by
  have hopen : r.head? ≠ some '(' := fun h => (hr '(' h).2 rfl
  obtain ⟨c, cs, htext, hc, -⟩ := exists_of_isIdentifier hn
  have hstart : n.toList.head?.any isWordStart = true := by
    rw [htext, List.head?_cons, Option.any_some, hc]
  rw [readHead, if_neg hopen, if_neg]
  rintro (htoList | hnone)
  · exact hinf (String.toList_injective htoList)
  · rw [hstart] at hnone
    cases hnone

theorem readHead_eq {e : Expr} (he : e.legible = true) {r : List Char} (hr : Stop r) :
    readHead e.word (e.afterWord ++ r) = e.head := by
  cases e with
  | num x =>
    rw [legible, Bool.not_eq_true'] at he
    exact readHead_number he hr
  | var n =>
    rw [legible, Bool.and_eq_true, bne_iff_ne] at he
    exact readHead_name he.1 he.2 hr
  | unary op a => exact readHead_call (.unary op) _
  | request r a => exact readHead_call (.request r) _
  | plot e s l h t => exact readHead_call .plot _
  | binary op a b => rfl
  | foreign v => cases he

theorem afterWord_marked {e : Expr} {r : List Char} (hr : Stop r) : Marked (e.afterWord ++ r) := by
  have hopen (cs : List Char) : Marked ('(' :: cs) := by
    intro c hc
    rw [← Option.some.inj hc]
    rfl
  cases e with
  | num x => exact hr.marked
  | var n => exact hr.marked
  | foreign v => exact hr.marked
  | _ => exact hopen _

/-- Texts that begin alike begin with nodes of one kind, and go on alike after their first words. -/
theorem head_eq {a b : Expr} (ha : a.legible = true) (hb : b.legible = true) {r r' : List Char}
    (hr : Stop r) (hr' : Stop r') (h : a.text.toList ++ r = b.text.toList ++ r') :
    a.head = b.head ∧ a.word = b.word ∧ a.afterWord ++ r = b.afterWord ++ r' := by
  rw [toList_text ha, toList_text hb, List.append_assoc, List.append_assoc] at h
  obtain ⟨hword, hafter⟩ := word_append_inj (word_unmarked ha) (word_unmarked hb)
    (afterWord_marked hr) (afterWord_marked hr') h
  refine ⟨?_, hword, hafter⟩
  rw [← readHead_eq ha hr, ← readHead_eq hb hr', hword, hafter]

/-! ## Reading a text -/

theorem stop_space (r : List Char) : Stop (' ' :: r) := by
  rintro c ⟨⟩
  decide

theorem stop_close (r : List Char) : Stop (')' :: r) := by
  rintro c ⟨⟩
  decide

theorem stop_comma (r : List Char) : Stop (',' :: r) := by
  rintro c ⟨⟩
  decide

/-- The symbol between two operands. -/
theorem symbol_append_inj {op op' : BinaryOp} {r r' : List Char}
    (h : op.symbol.toList ++ ' ' :: r = op'.symbol.toList ++ ' ' :: r') : op = op' ∧ r = r' := by
  obtain ⟨hsymbol, hafter⟩ := word_append_inj (symbol_unmarked (.binary op))
    (symbol_unmarked (.binary op')) (stop_space r).marked (stop_space r').marked h
  have hfound := Operator.ofSymbol?_symbol (.binary op)
  rw [show (Operator.binary op).symbol = (Operator.binary op').symbol from
    String.toList_injective hsymbol, Operator.ofSymbol?_symbol] at hfound
  cases hfound
  exact ⟨rfl, List.tail_eq_of_cons_eq hafter⟩

/-- Two texts that are the same up to where expressions end are texts of equal expressions. The
induction follows the first tree; the kinds of the two nodes agree, so the second has the same shape. -/
theorem append_inj (a : Expr) : ∀ {b : Expr} {r r' : List Char}, a.legible = true → b.legible = true →
    Stop r → Stop r' → a.text.toList ++ r = b.text.toList ++ r' → a.same b = true ∧ r = r' := by
  induction a with
  | num x =>
    intro b r r' ha hb hr hr' htext
    obtain ⟨hhead, hword, hafter⟩ := head_eq ha hb hr hr' htext
    cases b with
    | num y =>
      rw [legible, Bool.not_eq_true'] at ha hb
      exact ⟨Decimal.beq_of_number ha hb (String.toList_injective hword), hafter⟩
    | _ => cases hhead
  | var n =>
    intro b r r' ha hb hr hr' htext
    obtain ⟨hhead, hword, hafter⟩ := head_eq ha hb hr hr' htext
    cases b with
    | var n' => exact ⟨beq_iff_eq.mpr (String.toList_injective hword), hafter⟩
    | foreign v => cases hb
    | _ => cases hhead
  | unary op a ih =>
    intro b r r' ha hb hr hr' htext
    obtain ⟨hhead, -, hafter⟩ := head_eq ha hb hr hr' htext
    cases b with
    | unary op' a' =>
      cases hhead
      rw [legible] at ha hb
      simp only [afterWord, List.cons_append, List.append_assoc, List.nil_append, List.cons.injEq,
        true_and] at hafter
      obtain ⟨hsame, hrest⟩ := ih ha hb (stop_close r) (stop_close r') hafter
      simp only [same, beq_self_eq_true, Bool.true_and]
      exact ⟨hsame, List.tail_eq_of_cons_eq hrest⟩
    | _ => cases hhead
  | binary op a b iha ihb =>
    intro c r r' hab hc hr hr' htext
    obtain ⟨hhead, -, hafter⟩ := head_eq hab hc hr hr' htext
    cases c with
    | binary op' a' b' =>
      simp only [legible, Bool.and_eq_true] at hab hc
      simp only [afterWord, List.cons_append, List.append_assoc, List.nil_append, List.cons.injEq,
        true_and] at hafter
      obtain ⟨hleft, hmiddle⟩ := iha hab.1 hc.1 (stop_space _) (stop_space _) hafter
      obtain ⟨rfl, hrest⟩ := symbol_append_inj (List.tail_eq_of_cons_eq hmiddle)
      obtain ⟨hright, hrest⟩ := ihb hab.2 hc.2 (stop_close r) (stop_close r') hrest
      simp only [same, beq_self_eq_true, Bool.true_and, Bool.and_eq_true]
      exact ⟨⟨hleft, hright⟩, List.tail_eq_of_cons_eq hrest⟩
    | _ => cases hhead
  | request q a ih =>
    intro b r r' ha hb hr hr' htext
    obtain ⟨hhead, -, hafter⟩ := head_eq ha hb hr hr' htext
    cases b with
    | request q' a' =>
      cases hhead
      rw [legible] at ha hb
      simp only [afterWord, List.cons_append, List.append_assoc, List.nil_append, List.cons.injEq,
        true_and] at hafter
      obtain ⟨hsame, hrest⟩ := ih ha hb (stop_close r) (stop_close r') hafter
      simp only [same, beq_self_eq_true, Bool.true_and]
      exact ⟨hsame, List.tail_eq_of_cons_eq hrest⟩
    | _ => cases hhead
  | plot e s l h t ihe ihs ihl ihh iht =>
    intro b r r' ha hb hr hr' htext
    obtain ⟨hhead, -, hafter⟩ := head_eq ha hb hr hr' htext
    cases b with
    | plot e' s' l' h' t' =>
      simp only [legible, Bool.and_eq_true] at ha hb
      obtain ⟨⟨⟨⟨hae, has⟩, hal⟩, hah⟩, hat⟩ := ha
      obtain ⟨⟨⟨⟨hbe, hbs⟩, hbl⟩, hbh⟩, hbt⟩ := hb
      simp only [afterWord, List.cons_append, List.append_assoc, List.nil_append, List.cons.injEq,
        true_and] at hafter
      obtain ⟨he, hrest⟩ := ihe hae hbe (stop_comma _) (stop_comma _) hafter
      simp only [List.cons.injEq, true_and] at hrest
      obtain ⟨hs, hrest⟩ := ihs has hbs (stop_comma _) (stop_comma _) hrest
      simp only [List.cons.injEq, true_and] at hrest
      obtain ⟨hl, hrest⟩ := ihl hal hbl (stop_comma _) (stop_comma _) hrest
      simp only [List.cons.injEq, true_and] at hrest
      obtain ⟨hh, hrest⟩ := ihh hah hbh (stop_comma _) (stop_comma _) hrest
      simp only [List.cons.injEq, true_and] at hrest
      obtain ⟨ht, hrest⟩ := iht hat hbt (stop_close r) (stop_close r') hrest
      simp only [same, Bool.and_eq_true]
      exact ⟨⟨he, hs, hl, hh, ht⟩, List.tail_eq_of_cons_eq hrest⟩
    | _ => cases hhead
  | foreign v =>
    intro b r r' ha
    cases ha

theorem text_of_same (a : Expr) : ∀ {b : Expr}, a.legible = true → a.same b = true → a.text = b.text := by
  induction a with
  | num x =>
    intro b _ hsame
    cases b with
    | num y => exact Decimal.number_of_beq hsame
    | _ => cases hsame
  | var n =>
    intro b _ hsame
    cases b with
    | var n' => exact eq_of_beq hsame
    | _ => cases hsame
  | unary op a ih =>
    intro b ha hsame
    cases b with
    | unary op' a' =>
      simp only [same, Bool.and_eq_true, beq_iff_eq] at hsame
      rw [text_unary, text_unary, hsame.1, ih ha hsame.2]
    | _ => cases hsame
  | binary op a b iha ihb =>
    intro c hab hsame
    cases c with
    | binary op' a' b' =>
      simp only [legible, Bool.and_eq_true] at hab
      simp only [same, Bool.and_eq_true, beq_iff_eq] at hsame
      rw [text_binary, text_binary, hsame.1, iha hab.1 hsame.2.1, ihb hab.2 hsame.2.2]
    | _ => cases hsame
  | request q a ih =>
    intro b ha hsame
    cases b with
    | request q' a' =>
      simp only [same, Bool.and_eq_true, beq_iff_eq] at hsame
      rw [text_request, text_request, hsame.1, ih ha hsame.2]
    | _ => cases hsame
  | plot e s l h t ihe ihs ihl ihh iht =>
    intro b ha hsame
    cases b with
    | plot e' s' l' h' t' =>
      simp only [legible, Bool.and_eq_true] at ha
      obtain ⟨⟨⟨⟨hae, has⟩, hal⟩, hah⟩, hat⟩ := ha
      simp only [same, Bool.and_eq_true] at hsame
      obtain ⟨he, hs, hl, hh, ht⟩ := hsame
      rw [text_plot, text_plot, ihe hae he, ihs has hs, ihl hal hl, ihh hah hh, iht hat ht]
    | _ => cases hsame
  | foreign v =>
    intro b ha
    cases ha

/-- Full texts stand for one tree each. -/
theorem text_eq_iff {a b : Expr} (ha : a.legible = true) (hb : b.legible = true) :
    a.text = b.text ↔ (a == b) = true := by
  constructor
  · intro h
    have htext : a.text.toList ++ [] = b.text.toList ++ [] := by rw [h]
    have hnil : Stop [] := fun c hc => nomatch hc
    exact (append_inj a ha hb hnil hnil htext).1
  · exact text_of_same a ha

theorem text_eq_iff_difference :
    (binary .sub (unary .sin (var "sin")) (num 0.5)).legible = true ∧
      (binary .sub (var "sin") (num (-0.5))).legible = true ∧
      ((binary .sub (unary .sin (var "sin")) (num 0.5)).text = (binary .sub (var "sin") (num (-0.5))).text ↔
        (binary .sub (unary .sin (var "sin")) (num 0.5) == binary .sub (var "sin") (num (-0.5))) = true) :=
  ⟨by decide, by decide, text_eq_iff (by decide) (by decide)⟩

end Expr
end ArithTree
