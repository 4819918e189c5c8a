import HtmlQuery.Text.CaseTable

/-!
# Lower-casing

Unicode's full lower-casing. Two rules go beyond a table of single characters: the dotted capital `İ`
becomes two characters, and a capital sigma becomes `ς` at the end of a word, `σ` elsewhere. Main
statement: the text of ASCII is lower-cased letter by letter (`lowerFrom_ascii`).
-/

namespace HtmlQuery.Text

/-- Whether a character has case. -/
def isCased (c : Char) : Bool :=
  if c.toNat < 0x80 then c.isAlpha else inRanges casedRanges c.toNat

/-- Whether a character is looked past where case depends on the letters around. -/
def isCaseIgnorable (c : Char) : Bool :=
  if c.toNat < 0x80 then c = '\'' || c = '.' || c = ':' || c = '^' || c.toNat = 0x60
  else inRanges caseIgnorableRanges c.toNat

/-- Whether the first character that counts for case has case. -/
def meetsCased (cs : List Char) : Bool :=
  match cs.dropWhile isCaseIgnorable with
  | [] => false
  | c :: _ => isCased c

/-- The small form of a character, whatever stands around it. -/
def smallForm (c : Char) : List Char :=
  if c.toNat < 0x80 then [c.toLower]
  else if c = 'İ' then ['i', '\u0307']
  else
    match capitalRuns.find? (·.holds c.toNat) with
    | some run => [Char.ofNat (c.toNat + run.shift).toNat]
    | none => [c]

/-- Lower-cases a text that follows `before`, which is read backwards. -/
def lowerFrom (before : List Char) : List Char → List Char
  | [] => []
  | c :: cs =>
    (if c = 'Σ' then if meetsCased before && !meetsCased cs then ['ς'] else ['σ'] else smallForm c)
      ++ lowerFrom (c :: before) cs

def lowercase (s : String) : String := String.ofList (lowerFrom [] s.toList)

/-! ## Lemmas -/

theorem lowerFrom_ascii (before cs : List Char) (h : ∀ c ∈ cs, c.toNat < 0x80) :
    lowerFrom before cs = cs.map Char.toLower := by
  induction cs generalizing before with
  | nil => rfl
  | cons c cs ih =>
    have hc := h c (List.mem_cons_self ..)
    have hsigma : c ≠ 'Σ' := by rintro rfl; revert hc; decide
    rw [lowerFrom, if_neg hsigma, smallForm, if_pos hc,
      ih _ fun d hd => h d (List.mem_cons_of_mem _ hd)]
    rfl

end HtmlQuery.Text
