import HtmlQuery.Proofs.Reference.SinglePass
import HtmlQuery.Proofs.Selector.Formulas

/-!
# Which texts are position formulas

`NthFormula.Derives` is the grammar of formulas without blanks and in lower case: two keywords, a number, or a
coefficient, the letter `n` and a signed offset, with numbers of 64 bits. The reader is shown to accept what the
grammar derives and nothing else, part by part: a number (`Int64Range.ofDigits?_eq_some_iff`), a coefficient
(`step?_eq_some_iff`), an offset (`offset?_eq_some_iff`) and a whole formula (`ofNormal?_eq_some_iff`). `Spells` puts
blanks into a text and changes the case of its letters, which reading undoes (`normalize_of_spells`).
-/

namespace HtmlQuery

/-! ## Decimal numbers -/

namespace Int64Range

/-- A run of decimal digits, with or without a sign in front, and the number that it writes. -/
inductive Decimal : List Char → Int → Prop
  | bare {digits : List Char} {n : Nat} (hne : digits ≠ []) (hn : Reference.Writes 10 n digits) :
    Decimal digits n
  | plus {digits : List Char} {n : Nat} (hne : digits ≠ []) (hn : Reference.Writes 10 n digits) :
    Decimal ('+' :: digits) n
  | minus {digits : List Char} {n : Nat} (hne : digits ≠ []) (hn : Reference.Writes 10 n digits) :
    Decimal ('-' :: digits) (-n)

/-- The numbers of 64 bits. -/
def Fits (n : Int) : Prop := -2 ^ 63 ≤ n ∧ n < 2 ^ 63

variable {digits cs : List Char} {n : Int}

theorem holds_iff_fits : holds n = true ↔ Fits n := by
  rw [holds_iff]
  unfold least greatest Fits
  omega

theorem check_eq_some_iff {m : Int} : check m = some n ↔ m = n ∧ Fits n := by
  rw [← holds_iff_fits, check]
  split
  · rename_i hm
    rw [Option.some.injEq]
    constructor
    · rintro rfl
      exact ⟨rfl, hm⟩
    · exact And.left
  · rename_i hm
    refine iff_of_false (Option.some_ne_none n).symm ?_
    rintro ⟨rfl, hn⟩
    exact hm hn

/-- The value of digits is the sum of their values by their places. -/
theorem digitsValue_eq (h : ∀ c ∈ digits, Text.isAsciiDigit c = true) :
    digitsValue digits = Nat.ofDigits 10 (digits.map Reference.digitValue).reverse := by
  induction digits using List.reverseRecOn with
  | nil => rfl
  | append_singleton digits c ih =>
    have hc : Reference.digitValue c = c.toNat - '0'.toNat := if_pos (h c (by simp))
    have hdigits := ih fun d hd => h d (List.mem_append_left _ hd)
    rw [digitsValue] at hdigits
    rw [digitsValue, List.foldl_append, hdigits, List.map_append, List.reverse_append]
    simp only [List.foldl_cons, List.foldl_nil, List.map_cons, List.map_nil, List.reverse_singleton,
      List.singleton_append, Nat.ofDigits_cons, hc]
    omega

theorem writes_iff {n : Nat} :
    Reference.Writes 10 n digits ↔ (∀ c ∈ digits, Text.isAsciiDigit c = true) ∧ n = digitsValue digits := by
  rw [Reference.tellsDigits_ten.writes_iff]
  refine and_congr_right fun hdigits => ?_
  rw [digitsValue_eq hdigits]

theorem not_sign_of_digit {c : Char} (h : Text.isAsciiDigit c = true) : c ≠ '-' ∧ c ≠ '+' := by
  constructor <;> rintro rfl <;> revert h <;> decide

/-- Digits have no sign to split off. -/
theorem splitSign_digits (h : ∀ c ∈ digits, Text.isAsciiDigit c = true) : splitSign digits = (false, digits) := by
  unfold splitSign
  split
  · exact absurd rfl (not_sign_of_digit (h '-' (by simp))).1
  · exact absurd rfl (not_sign_of_digit (h '+' (by simp))).2
  · rfl

/-- What a text with a sign split off is read as. -/
theorem ofDigits?_of_splitSign {negative : Bool} (h : splitSign cs = (negative, digits)) :
    ofDigits? cs = some n ↔ digits ≠ [] ∧ (∀ c ∈ digits, Text.isAsciiDigit c = true) ∧
      (if negative then -(digitsValue digits : Int) else digitsValue digits) = n ∧ Fits n := by
  unfold ofDigits?
  rw [h]
  dsimp only
  by_cases hdigits : digits ≠ [] ∧ ∀ c ∈ digits, Text.isAsciiDigit c = true
  · rw [if_neg (by simpa using hdigits), check_eq_some_iff]
    exact ⟨fun hn => ⟨hdigits.1, hdigits.2, hn⟩, fun hn => hn.2.2⟩
  · rw [if_pos (by simpa [Decidable.or_iff_not_imp_left] using hdigits)]
    exact iff_of_false (Option.some_ne_none n).symm fun hn => hdigits ⟨hn.1, hn.2.1⟩

/-- **A number is read exactly where decimal digits write one of 64 bits.** -/
theorem ofDigits?_eq_some_iff : ofDigits? cs = some n ↔ Decimal cs n ∧ Fits n := by
  constructor
  · intro h
    rcases hsign : splitSign cs with ⟨negative, digits⟩
    obtain ⟨hne, hdigits, rfl, hfits⟩ := (ofDigits?_of_splitSign hsign).1 h
    have hn := writes_iff.2 ⟨hdigits, rfl⟩
    refine ⟨?_, hfits⟩
    unfold splitSign at hsign
    split at hsign <;> obtain ⟨rfl, rfl⟩ := Prod.mk.inj hsign
    · exact .minus hne hn
    · exact .plus hne hn
    · exact .bare hne hn
  · rintro ⟨hdecimal, hfits⟩
    cases hdecimal with
    | bare hne hn =>
      obtain ⟨hdigits, rfl⟩ := writes_iff.1 hn
      exact (ofDigits?_of_splitSign (splitSign_digits hdigits)).2 ⟨hne, hdigits, rfl, hfits⟩
    | plus hne hn =>
      obtain ⟨hdigits, rfl⟩ := writes_iff.1 hn
      exact (ofDigits?_of_splitSign rfl).2 ⟨hne, hdigits, rfl, hfits⟩
    | minus hne hn =>
      obtain ⟨hdigits, rfl⟩ := writes_iff.1 hn
      exact (ofDigits?_of_splitSign rfl).2 ⟨hne, hdigits, rfl, hfits⟩

/-- The characters of a decimal number. -/
def IsDecimalChar (c : Char) : Prop := c = '+' ∨ c = '-' ∨ Text.isAsciiDigit c = true

theorem Decimal.chars (h : Decimal cs n) : ∀ c ∈ cs, IsDecimalChar c := by
  intro c hc
  cases h with
  | bare _ hn => exact .inr (.inr ((writes_iff.1 hn).1 c hc))
  | plus _ hn =>
    rcases List.mem_cons.1 hc with rfl | hc
    · exact .inl rfl
    · exact .inr (.inr ((writes_iff.1 hn).1 c hc))
  | minus _ hn =>
    rcases List.mem_cons.1 hc with rfl | hc
    · exact .inr (.inl rfl)
    · exact .inr (.inr ((writes_iff.1 hn).1 c hc))

theorem writes_toDigits (n : Nat) : Reference.Writes 10 n (Nat.toDigits 10 n) := by
  refine writes_iff.2 ⟨fun c hc => ?_, ?_⟩
  · have hdigit := Nat.isDigit_of_mem_toDigits (by decide) (by decide) hc
    simpa [Char.isDigit, Text.isAsciiDigit, Char.le_def] using hdigit
  · have hvalue := Nat.ofDigitChars_ten_toDigits (n := n)
    rw [Nat.ofDigitChars_eq_foldl] at hvalue
    rw [digitsValue]
    simpa only [Nat.mul_comm] using hvalue.symm

theorem toList_toString_ofNat (n : Nat) : (toString (Int.ofNat n)).toList = Nat.toDigits 10 n := Nat.toList_repr

theorem toList_toString_negSucc (n : Nat) :
    (toString (Int.negSucc n)).toList = '-' :: Nat.toDigits 10 (n + 1) := by
  show ("-" ++ Nat.repr (n + 1)).toList = _
  rw [String.toList_append, Nat.toList_repr]
  rfl

/-- A number is written by its decimal text. -/
theorem decimal_toString (n : Int) : Decimal (toString n).toList n := by
  cases n with
  | ofNat n =>
    rw [toList_toString_ofNat]
    exact .bare Nat.toDigits_ne_nil (writes_toDigits n)
  | negSucc n =>
    rw [toList_toString_negSucc, Int.negSucc_eq]
    exact .minus Nat.toDigits_ne_nil (writes_toDigits (n + 1))

end Int64Range

/-! ## The grammar -/

namespace NthFormula

open Int64Range

/-- What may stand in front of `n`. Nothing, or a bare sign, stands for one with that sign. -/
inductive Coefficient : List Char → Int → Prop
  | omitted : Coefficient [] 1
  | plus : Coefficient ['+'] 1
  | minus : Coefficient ['-'] (-1)
  | decimal {cs : List Char} {a : Int} (h : Decimal cs a) : Coefficient cs a

/-- What may stand behind `n`: nothing, which stands for zero, or a number with a sign. -/
inductive Offset : List Char → Int → Prop
  | omitted : Offset [] 0
  | plus {digits : List Char} {b : Int} (h : Decimal ('+' :: digits) b) : Offset ('+' :: digits) b
  | minus {digits : List Char} {b : Int} (h : Decimal ('-' :: digits) b) : Offset ('-' :: digits) b

/-- The formulas as they are written without blanks and in lower case. -/
inductive Derives : List Char → NthFormula → Prop
  | odd : Derives ['o', 'd', 'd'] ⟨2, 1⟩
  | even : Derives ['e', 'v', 'e', 'n'] ⟨2, 0⟩
  | number {cs : List Char} {b : Int} (hb : Decimal cs b) (hfits : Fits b) : Derives cs ⟨0, b⟩
  | steps {cs ds : List Char} {a b : Int} (ha : Coefficient cs a) (hb : Offset ds b) (hfits : Fits a ∧ Fits b) :
    Derives (cs ++ 'n' :: ds) ⟨a, b⟩

variable {cs ds : List Char} {a b : Int} {f : NthFormula}

/-! ## Coefficients and offsets -/

theorem not_decimal_nil (h : Decimal [] a) : False := by
  cases h with
  | bare hne => exact hne rfl

theorem not_decimal_sign {c : Char} (hc : c = '+' ∨ c = '-') (h : Decimal [c] a) : False := by
  cases h with
  | bare _ hn =>
    have hsign := not_sign_of_digit ((writes_iff.1 hn).1 c (by simp))
    exact hc.elim hsign.2 hsign.1
  | plus hne => exact hne rfl
  | minus hne => exact hne rfl

theorem fits_of_le_two (ha : a.natAbs ≤ 2) : Fits a := by
  unfold Fits
  omega

theorem step?_eq_some_iff : step? cs = some a ↔ Coefficient cs a ∧ Fits a := by
  constructor
  · intro h
    unfold step? at h
    split at h
    · obtain rfl := Option.some.inj h
      exact ⟨.omitted, fits_of_le_two (by decide)⟩
    · obtain rfl := Option.some.inj h
      exact ⟨.plus, fits_of_le_two (by decide)⟩
    · obtain rfl := Option.some.inj h
      exact ⟨.minus, fits_of_le_two (by decide)⟩
    · exact (ofDigits?_eq_some_iff.1 h).imp_left .decimal
  · rintro ⟨hcoefficient, hfits⟩
    cases hcoefficient with
    | omitted => rfl
    | plus => rfl
    | minus => rfl
    | decimal h =>
      unfold step?
      split
      · exact (not_decimal_nil h).elim
      · exact (not_decimal_sign (.inl rfl) h).elim
      · exact (not_decimal_sign (.inr rfl) h).elim
      · exact ofDigits?_eq_some_iff.2 ⟨h, hfits⟩

theorem offset?_eq_some_iff : offset? cs = some b ↔ Offset cs b ∧ Fits b := by
  constructor
  · intro h
    unfold offset? at h
    split at h
    · obtain rfl := Option.some.inj h
      exact ⟨.omitted, fits_of_le_two (by decide)⟩
    · exact (ofDigits?_eq_some_iff.1 h).imp_left .plus
    · exact (ofDigits?_eq_some_iff.1 h).imp_left .minus
    · exact absurd h.symm (Option.some_ne_none b)
  · rintro ⟨hoffset, hfits⟩
    cases hoffset with
    | omitted => rfl
    | plus h => exact ofDigits?_eq_some_iff.2 ⟨h, hfits⟩
    | minus h => exact ofDigits?_eq_some_iff.2 ⟨h, hfits⟩

/-! ## Formulas -/

theorem not_isDecimalChar_letter {c : Char} (hc : c = 'n' ∨ c = 'o' ∨ c = 'e') : ¬ IsDecimalChar c := by
  unfold IsDecimalChar
  rcases hc with rfl | rfl | rfl <;> decide

theorem Coefficient.chars (h : Coefficient cs a) : ∀ c ∈ cs, IsDecimalChar c := by
  cases h with
  | omitted => simp
  | plus => simp [IsDecimalChar]
  | minus => simp [IsDecimalChar]
  | decimal h => exact h.chars

theorem not_mem_n (h : ∀ c ∈ cs, IsDecimalChar c) : 'n' ∉ cs := fun hn =>
  not_isDecimalChar_letter (.inl rfl) (h _ hn)

/-- Without the letter a text that is no keyword is a number. -/
theorem ofNormal?_of_not_mem (hn : 'n' ∉ cs) (hodd : cs ≠ ['o', 'd', 'd']) :
    ofNormal? cs = (ofDigits? cs).map (⟨0, ·⟩) := by
  have heven : cs ≠ ['e', 'v', 'e', 'n'] := by
    rintro rfl
    exact hn (by decide)
  have hdrop : cs.dropWhile (· ≠ 'n') = [] := by
    rw [List.dropWhile_eq_nil_iff]
    intro c hc
    simpa using ne_of_mem_of_not_mem hc hn
  rw [ofNormal?, if_neg hodd, if_neg heven, hdrop]

/-- The first letter `n` of a text that is no keyword stands between the coefficient and the offset. -/
theorem ofNormal?_append (hn : 'n' ∉ cs) (heven : cs ++ 'n' :: ds ≠ ['e', 'v', 'e', 'n']) :
    ofNormal? (cs ++ 'n' :: ds) = (step? cs).bind fun a => (offset? ds).map (⟨a, ·⟩) := by
  have hodd : cs ++ 'n' :: ds ≠ ['o', 'd', 'd'] := by
    intro h
    have hmem : 'n' ∈ ['o', 'd', 'd'] := h ▸ List.mem_append_right cs (List.mem_cons_self ..)
    exact absurd hmem (by decide)
  have hbefore : ∀ c ∈ cs, decide (c ≠ 'n') = true := fun c hc => by simpa using ne_of_mem_of_not_mem hc hn
  have hdrop : (cs ++ 'n' :: ds).dropWhile (· ≠ 'n') = 'n' :: ds := by
    rw [List.dropWhile_append_of_pos hbefore, List.dropWhile_cons_of_neg (by simp)]
  have htake : (cs ++ 'n' :: ds).takeWhile (· ≠ 'n') = cs := by
    rw [List.takeWhile_append_of_pos hbefore, List.takeWhile_cons_of_neg (by simp), List.append_nil]
  rw [ofNormal?, if_neg hodd, if_neg heven, hdrop, htake]

/-- **A formula is read exactly where the grammar derives it.** -/
theorem ofNormal?_eq_some_iff : ofNormal? cs = some f ↔ Derives cs f := by
  constructor
  · intro h
    by_cases hodd : cs = ['o', 'd', 'd']
    · subst hodd
      obtain rfl := Option.some.inj h
      exact .odd
    by_cases heven : cs = ['e', 'v', 'e', 'n']
    · subst heven
      obtain rfl := Option.some.inj h
      exact .even
    by_cases hn : 'n' ∈ cs
    · obtain ⟨before, behind, rfl, hbefore⟩ := List.eq_append_cons_of_mem hn
      rw [ofNormal?_append hbefore heven] at h
      obtain ⟨a, ha, h⟩ := Option.bind_eq_some_iff.1 h
      obtain ⟨b, hb, rfl⟩ := Option.map_eq_some_iff.1 h
      obtain ⟨hcoefficient, hafits⟩ := step?_eq_some_iff.1 ha
      obtain ⟨hoffset, hbfits⟩ := offset?_eq_some_iff.1 hb
      exact .steps hcoefficient hoffset ⟨hafits, hbfits⟩
    · rw [ofNormal?_of_not_mem hn hodd] at h
      obtain ⟨b, hb, rfl⟩ := Option.map_eq_some_iff.1 h
      obtain ⟨hdecimal, hfits⟩ := ofDigits?_eq_some_iff.1 hb
      exact .number hdecimal hfits
  · intro h
    cases h with
    | odd => rfl
    | even => rfl
    | number hb hfits =>
      have hodd : cs ≠ ['o', 'd', 'd'] := by
        rintro rfl
        exact not_isDecimalChar_letter (.inr (.inl rfl)) (hb.chars 'o' (by simp))
      rw [ofNormal?_of_not_mem (not_mem_n hb.chars) hodd, ofDigits?_eq_some_iff.2 ⟨hb, hfits⟩]
      rfl
    | @steps before behind a b ha hb hfits =>
      have heven : before ++ 'n' :: behind ≠ ['e', 'v', 'e', 'n'] := by
        intro h
        cases before with
        | nil => simp at h
        | cons c before =>
          obtain rfl := (List.cons.inj h).1
          exact not_isDecimalChar_letter (.inr (.inr rfl)) (ha.chars 'e' (by simp))
      rw [ofNormal?_append (not_mem_n ha.chars) heven, step?_eq_some_iff.2 ⟨ha, hfits.1⟩,
        offset?_eq_some_iff.2 ⟨hb, hfits.2⟩]
      rfl

/-! ## Spellings -/

/-- The first text spells the second one: blanks may stand anywhere in it, and a letter may have either case. -/
inductive Spells : List Char → List Char → Prop
  | nil : Spells [] []
  | blank {c : Char} {cs ds : List Char} (hc : Text.isWhitespace c = true) (h : Spells cs ds) : Spells (c :: cs) ds
  | char {c d : Char} {cs ds : List Char} (hc : c.toLower = d.toLower) (h : Spells cs ds) :
    Spells (c :: cs) (d :: ds)

/-- The text of a number with its sign, also where that is a plus. -/
def signedText (b : Int) : List Char := if 0 ≤ b then '+' :: (toString b).toList else (toString b).toList

/-- The text of the formula `an+b`: the step, the letter `n` and the offset with its sign. -/
def text (f : NthFormula) : List Char := (toString f.a).toList ++ 'n' :: signedText f.b

theorem isWhitespace_toLower (c : Char) : Text.isWhitespace c.toLower = Text.isWhitespace c := by
  by_cases hc : c.toNat < 0x80
  · exact Text.forall_ascii (p := fun c => Text.isWhitespace c.toLower = Text.isWhitespace c)
      (by decide +kernel) hc
  · rw [Bytewise.toLower_of_not_ascii (Nat.not_lt.1 hc)]

theorem toLower_toLower (c : Char) : c.toLower.toLower = c.toLower := by
  by_cases hc : c.toNat < 0x80
  · exact Text.forall_ascii (p := fun c => c.toLower.toLower = c.toLower) (by decide +kernel) hc
  · rw [Bytewise.toLower_of_not_ascii (Nat.not_lt.1 hc), Bytewise.toLower_of_not_ascii (Nat.not_lt.1 hc)]

/-- Blanks and the case of letters are gone from the text that is read. -/
theorem normalize_of_spells {s : String} {ds : List Char} (h : Spells s.toList ds) :
    normalize s = (ds.filter (!Text.isWhitespace ·)).map Char.toLower := by
  unfold normalize
  generalize s.toList = cs at h
  induction h with
  | nil => rfl
  | blank hc _ ih => rw [List.filter_cons_of_neg (by simp [hc]), ih]
  | @char c d cs ds hc _ ih =>
    have hblank : Text.isWhitespace c = Text.isWhitespace d := by
      rw [← isWhitespace_toLower, hc, isWhitespace_toLower]
    rw [List.filter_cons, List.filter_cons, hblank]
    split
    · rw [List.map_cons, List.map_cons, hc, ih]
    · exact ih

/-- A text spells what is left of it when it is read. -/
theorem spells_normalize (s : String) : Spells s.toList (normalize s) := by
  unfold normalize
  induction s.toList with
  | nil => exact .nil
  | cons c cs ih =>
    by_cases hc : Text.isWhitespace c = true
    · rw [List.filter_cons_of_neg (by simp [hc])]
      exact .blank hc ih
    · rw [List.filter_cons_of_pos (by simpa using hc), List.map_cons]
      exact .char (toLower_toLower c).symm ih

/-- Digits and signs stay as they are when blanks are deleted and letters are made small. -/
theorem settled_of_isDecimalChar {c : Char} (h : IsDecimalChar c) :
    Text.isWhitespace c = false ∧ c.toLower = c := by
  rcases h with rfl | rfl | h
  · decide
  · decide
  · have hc : c.toNat < 0x80 := Reference.isHexDigit_ascii (by simp [Reference.isHexDigit, h])
    exact Text.forall_ascii
      (p := fun c => Text.isAsciiDigit c = true → Text.isWhitespace c = false ∧ c.toLower = c)
      (by decide +kernel) hc h

theorem offset_signedText (b : Int) : Offset (signedText b) b := by
  cases b with
  | ofNat n =>
    rw [signedText, if_pos (show 0 ≤ Int.ofNat n from Int.natCast_nonneg n), toList_toString_ofNat]
    exact .plus (.plus Nat.toDigits_ne_nil (writes_toDigits n))
  | negSucc n =>
    rw [signedText, if_neg (by omega), toList_toString_negSucc, Int.negSucc_eq]
    exact .minus (.minus Nat.toDigits_ne_nil (writes_toDigits (n + 1)))

theorem Offset.chars (h : Offset cs b) : ∀ c ∈ cs, IsDecimalChar c := by
  cases h with
  | omitted => simp
  | plus h => exact h.chars
  | minus h => exact h.chars

theorem derives_text (ha : Fits f.a) (hb : Fits f.b) : Derives f.text f :=
  .steps (.decimal (decimal_toString f.a)) (offset_signedText f.b) ⟨ha, hb⟩

/-- The text of a formula has no blanks and no capital letters. -/
theorem settled_text : ∀ c ∈ f.text, Text.isWhitespace c = false ∧ c.toLower = c := by
  intro c hc
  rcases List.mem_append.1 hc with hc | hc
  · exact settled_of_isDecimalChar ((decimal_toString f.a).chars c hc)
  · rcases List.mem_cons.1 hc with rfl | hc
    · decide
    · exact settled_of_isDecimalChar ((offset_signedText f.b).chars c hc)

theorem normalize_of_spells_text {s : String} (h : Spells s.toList f.text) : normalize s = f.text := by
  rw [normalize_of_spells h, List.filter_eq_self.2 fun c hc => by simp [settled_text c hc]]
  exact (List.map_congr_left fun c hc => (settled_text c hc).2).trans (List.map_id' f.text)

/-- **Formulas are read by their grammar.** Of every text the blanks are deleted and the letters made small. What the
grammar derives from the rest is the formula that is read, and where it derives nothing, nothing is read. So the text
of any formula with numbers of 64 bits is read as that formula, in every spelling. -/
theorem parse?_derives (s : String) :
    (∀ f, parse? s = some f ↔ Derives (normalize s) f) ∧
    (parse? s = none ↔ ∀ f, ¬ Derives (normalize s) f) ∧
    ∀ f, Fits f.a → Fits f.b → Spells s.toList f.text → parse? s = some f := by
  have hderives : ∀ f, parse? s = some f ↔ Derives (normalize s) f := fun f => ofNormal?_eq_some_iff
  refine ⟨hderives, ?_, fun f ha hb hs => ?_⟩
  · rw [Option.eq_none_iff_forall_ne_some]
    exact forall_congr' fun f => not_congr (hderives f)
  · rw [hderives, normalize_of_spells_text hs]
    exact derives_text ha hb

/-- The step and the offset are as small as they can be, with blanks around and between their digits. -/
theorem parse?_derives_least : Fits (-2 ^ 63) ∧ Spells " -9223372036854775808 N - 9 223372036854775808\t".toList
      (text ⟨-2 ^ 63, -2 ^ 63⟩) ∧
    parse? " -9223372036854775808 N - 9 223372036854775808\t" = some ⟨-2 ^ 63, -2 ^ 63⟩ := by
  have hfits : Fits (-2 ^ 63) := by unfold Fits; omega
  have hspells : Spells " -9223372036854775808 N - 9 223372036854775808\t".toList (text ⟨-2 ^ 63, -2 ^ 63⟩) := by
    have hnormal : normalize " -9223372036854775808 N - 9 223372036854775808\t" = text ⟨-2 ^ 63, -2 ^ 63⟩ := by
      decide +kernel
    rw [← hnormal]
    exact spells_normalize _
  exact ⟨hfits, hspells, (parse?_derives _).2.2 ⟨-2 ^ 63, -2 ^ 63⟩ hfits hfits hspells⟩

end NthFormula

end HtmlQuery
