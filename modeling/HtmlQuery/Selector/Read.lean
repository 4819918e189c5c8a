import HtmlQuery.Selector.Basic

/-!
# Reading selectors

Selector text is divided at its outermost commas, and each piece is read as one group. Nothing fails: text
that cannot go on a group ends it, a bracket with an unknown operator is left out, and an empty piece is
the group that matches nothing. Main statement: reading a compound never leaves more text than it was
given (`readCompound_length`), so a group ends.
-/

namespace HtmlQuery.SelectorList

/-! ## Dividing at commas -/

/-- What surrounds a place in selector text: open parentheses and brackets, the quote it stands in, and
whether a backslash in that quote takes the next character out of the count. -/
structure Nesting where
  parens : Nat
  brackets : Nat
  quote : Option Char
  escaped : Bool
  deriving DecidableEq, Repr

namespace Nesting

def outermost : Nesting := ⟨0, 0, none, false⟩

/-- What surrounds the place behind a character. Closers without openers change nothing. -/
def after (n : Nesting) (c : Char) : Nesting :=
  match n.quote with
  | some q =>
    if n.escaped then { n with escaped := false }
    else if c = '\\' then { n with escaped := true }
    else if c = q then { n with quote := none }
    else n
  | none =>
    if c = '"' || c = '\'' then { n with quote := some c }
    else if c = '(' then { n with parens := n.parens + 1 }
    else if c = ')' then { n with parens := n.parens - 1 }
    else if c = '[' then { n with brackets := n.brackets + 1 }
    else if c = ']' then { n with brackets := n.brackets - 1 }
    else n

def afterAll (n : Nesting) (cs : List Char) : Nesting := cs.foldl after n

def divides (n : Nesting) : Bool := n.quote.isNone && n.parens == 0 && n.brackets == 0

end Nesting

/-- The text up to the next dividing comma, and the pieces behind it. -/
def splitFrom (n : Nesting) : List Char → List Char × List (List Char)
  | [] => ([], [])
  | c :: cs =>
    if c = ',' && n.divides then
      let parts := splitFrom n cs
      ([], parts.1 :: parts.2)
    else
      let parts := splitFrom (n.after c) cs
      (c :: parts.1, parts.2)

/-- The pieces between the outermost commas. There is at least one. -/
def split (cs : List Char) : List (List Char) :=
  let parts := splitFrom .outermost cs
  parts.1 :: parts.2

/-! ## Characters -/

def startsName (c : Char) : Bool := Text.isAsciiLetter c || c = '_' || 0x80 ≤ c.toNat

def isNameChar (c : Char) : Bool := startsName c || Text.isAsciiDigit c || c = '-'

/-- The characters that start a condition of a compound. -/
def startsCondition (c : Char) : Bool :=
  c = '#' || c = '.' || c = '[' || c = ':' || c = '*' || startsName c

def skipBlanks (cs : List Char) : List Char := cs.dropWhile Text.isWhitespace

def name (cs : List Char) : String := String.ofList (cs.takeWhile isNameChar)

def afterName (cs : List Char) : List Char := cs.dropWhile isNameChar

def skipPast (mark : Char) (cs : List Char) : List Char := (cs.dropWhile (· ≠ mark)).drop 1

/-! ## Brackets and arguments -/

/-- The characters that end the name in brackets. -/
def endsBracketName (c : Char) : Bool :=
  c = '^' || c = '$' || c = '*' || c = '~' || c = '|' || c = '=' || c = ']'

/-- The value in brackets and the text behind the bracket: up to the quote that it starts with, or up to the
bracket without the blanks around it. -/
def readValue (cs : List Char) : String × List Char :=
  match skipBlanks cs with
  | '"' :: rest =>
    (String.ofList (rest.takeWhile (· ≠ '"')), skipPast ']' (skipPast '"' rest))
  | '\'' :: rest =>
    (String.ofList (rest.takeWhile (· ≠ '\'')), skipPast ']' (skipPast '\'' rest))
  | rest => (String.ofList (Text.trim (rest.takeWhile (· ≠ ']'))), skipPast ']' rest)

/-- The condition behind an opening bracket, and the text behind the closing one. -/
def readBracket (cs : List Char) : Option AttributeCondition × List Char :=
  let name := String.ofList (Text.trim (cs.takeWhile (!endsBracketName ·)))
  match cs.dropWhile (!endsBracketName ·) with
  | ']' :: rest => (some (.present name), rest)
  | '=' :: rest =>
    let (value, rest) := readValue rest
    (AttributeCondition.ofOperator? "=" name value, rest)
  | c :: '=' :: rest =>
    let (value, rest) := readValue rest
    (AttributeCondition.ofOperator? (String.ofList [c, '=']) name value, rest)
  | rest => (none, skipPast ']' rest)

/-- The text up to the parenthesis that closes `depth + 1` open ones, and the text behind it. -/
def readArgument (depth : Nat) : List Char → List Char × List Char
  | [] => ([], [])
  | c :: cs =>
    if c = ')' then
      match depth with
      | 0 => ([], cs)
      | depth + 1 =>
        let parts := readArgument depth cs
        (c :: parts.1, parts.2)
    else
      let parts := readArgument (if c = '(' then depth + 1 else depth) cs
      (c :: parts.1, parts.2)

/-- The pseudo-class behind a colon, and the text behind it. -/
def readPseudoClass (cs : List Char) : PseudoClass × List Char :=
  match afterName cs with
  | '(' :: rest =>
    let parts := readArgument 0 rest
    (.ofText (name cs) (some (String.ofList parts.1)), parts.2)
  | rest => (.ofText (name cs) none, rest)

/-! ## Lengths -/

theorem skipPast_length (mark : Char) (cs : List Char) :
    (skipPast mark cs).length ≤ cs.length := by
  have := Text.length_dropWhile_le (· ≠ mark) cs
  simp only [skipPast, List.length_drop]
  omega

theorem readValue_length (cs : List Char) : (readValue cs).2.length ≤ cs.length := by
  have hblank := Text.length_dropWhile_le Text.isWhitespace cs
  unfold readValue skipBlanks
  split
  · rename_i rest heq
    rw [heq, List.length_cons] at hblank
    have := skipPast_length ']' (skipPast '"' rest)
    have := skipPast_length '"' rest
    simp only
    omega
  · rename_i rest heq
    rw [heq, List.length_cons] at hblank
    have := skipPast_length ']' (skipPast '\'' rest)
    have := skipPast_length '\'' rest
    simp only
    omega
  · exact Nat.le_trans (skipPast_length ..) hblank

theorem readBracket_length (cs : List Char) : (readBracket cs).2.length ≤ cs.length := by
  have hname := Text.length_dropWhile_le (!endsBracketName ·) cs
  unfold readBracket
  simp only
  split
  · rename_i rest heq
    rw [heq, List.length_cons] at hname
    simp only
    omega
  · rename_i rest heq
    rw [heq, List.length_cons] at hname
    have := readValue_length rest
    simp only
    omega
  · rename_i c rest _ _ heq
    rw [heq] at hname
    have := readValue_length rest
    simp only [List.length_cons] at hname ⊢
    omega
  · exact Nat.le_trans (skipPast_length ..) hname

theorem readArgument_length (depth : Nat) (cs : List Char) :
    (readArgument depth cs).2.length ≤ cs.length := by
  induction cs generalizing depth with
  | nil => simp [readArgument]
  | cons c cs ih =>
    unfold readArgument
    split
    · split
      · simp
      · rename_i depth
        have := ih depth
        simp only [List.length_cons]
        omega
    · have := ih (if c = '(' then depth + 1 else depth)
      simp only [List.length_cons]
      omega

theorem readPseudoClass_length (cs : List Char) :
    (readPseudoClass cs).2.length ≤ cs.length := by
  have hname : (afterName cs).length ≤ cs.length := Text.length_dropWhile_le ..
  unfold readPseudoClass
  split
  · rename_i rest heq
    rw [heq, List.length_cons] at hname
    have := readArgument_length 0 rest
    simp only
    omega
  · exact hname

/-! ## Compounds and groups -/

/-- Adds the conditions in front of a text to a compound; the text behind them comes with it. A later tag or
id takes the place of an earlier one. -/
def readCompound (p : Compound) (cs : List Char) : Compound × List Char :=
  match cs with
  | [] => (p, [])
  | c :: rest =>
    if c = '#' then
      readCompound (if (name rest).isEmpty then p else { p with id := some (name rest) })
        (afterName rest)
    else if c = '.' then
      readCompound { p with classes := p.classes ++ [name rest] } (afterName rest)
    else if c = '[' then
      readCompound { p with attributes := p.attributes ++ (readBracket rest).1.toList }
        (readBracket rest).2
    else if c = ':' then
      readCompound { p with pseudoClasses := p.pseudoClasses ++ [(readPseudoClass rest).1] }
        (readPseudoClass rest).2
    else if c = '*' then readCompound { p with tag := some "*" } rest
    else if startsName c then
      readCompound { p with tag := some (Text.lowercase (name (c :: rest))) } (afterName rest)
    else (p, c :: rest)
termination_by cs.length
decreasing_by
  all_goals
    simp only [List.length_cons, Nat.lt_succ_iff]
    first
    | exact Text.length_dropWhile_le ..
    | exact readBracket_length ..
    | exact readPseudoClass_length ..
    | exact Nat.le_refl _

theorem readCompound_length (p : Compound) (cs : List Char) :
    (readCompound p cs).2.length ≤ cs.length := by
  fun_induction readCompound p cs with
  | case1 => exact Nat.le_refl _
  | case2 p rest ih =>
    exact Nat.le_trans ih (Nat.le_succ_of_le (Text.length_dropWhile_le ..))
  | case3 p rest _ ih =>
    exact Nat.le_trans ih (Nat.le_succ_of_le (Text.length_dropWhile_le ..))
  | case4 p rest _ _ ih => exact Nat.le_trans ih (Nat.le_succ_of_le (readBracket_length rest))
  | case5 p rest _ _ _ ih =>
    exact Nat.le_trans ih (Nat.le_succ_of_le (readPseudoClass_length rest))
  | case6 p rest _ _ _ _ ih => exact Nat.le_trans ih (Nat.le_succ _)
  | case7 p c rest _ _ _ _ _ _ ih =>
    exact Nat.le_trans ih (Nat.le_succ_of_le (Text.length_dropWhile_le ..))
  | case8 => exact Nat.le_refl _

/-- The combinator in front of a text without blanks before it, and the text behind it. A blank that was
skipped is a combinator too, where no other one follows. -/
def readCombinator (spaced : Bool) : List Char → Option (Combinator × List Char)
  | [] => none
  | c :: rest =>
    if c = '>' then some (.child, skipBlanks rest)
    else if c = '+' then some (.nextSibling, skipBlanks rest)
    else if c = '~' then some (.laterSibling, skipBlanks rest)
    else if spaced then some (.descendant, c :: rest)
    else none

theorem readCombinator_length {spaced : Bool} {cs rest : List Char} {c : Combinator}
    (h : readCombinator spaced cs = some (c, rest)) :
    rest.length ≤ cs.length ∧ (spaced = false → rest.length < cs.length) := by
  unfold readCombinator at h
  split at h
  · simp at h
  · rename_i d tail
    have hblank := Text.length_dropWhile_le Text.isWhitespace tail
    have hlt : (skipBlanks tail).length < (d :: tail).length := Nat.lt_succ_of_le hblank
    repeat' split at h
    all_goals simp only [Option.some.injEq, Prod.mk.injEq, reduceCtorEq] at h
    · rw [← h.2]
      exact ⟨Nat.le_of_lt hlt, fun _ => hlt⟩
    · rw [← h.2]
      exact ⟨Nat.le_of_lt hlt, fun _ => hlt⟩
    · rw [← h.2]
      exact ⟨Nat.le_of_lt hlt, fun _ => hlt⟩
    · rename_i hspaced
      rw [← h.2]
      exact ⟨Nat.le_refl _, fun hf => absurd hspaced (by rw [hf]; decide)⟩

def isSpaced (cs : List Char) : Bool := decide ((skipBlanks cs).length < cs.length)

theorem readCombinator_shorter {cs rest : List Char} {c : Combinator}
    (h : readCombinator (isSpaced cs) (skipBlanks cs) = some (c, rest)) :
    rest.length < cs.length := by
  obtain ⟨hle, hlt⟩ := readCombinator_length h
  have hblank : (skipBlanks cs).length ≤ cs.length := Text.length_dropWhile_le ..
  by_cases hspaced : (skipBlanks cs).length < cs.length
  · exact Nat.lt_of_le_of_lt hle hspaced
  · exact Nat.lt_of_lt_of_le (hlt (by simp [isSpaced, hspaced])) hblank

/-- Adds the combinators and compounds in front of a text to a group. A combinator without a compound
behind it is passed over. -/
def readMore (g : Group) (cs : List Char) : Group :=
  match _h : readCombinator (isSpaced cs) (skipBlanks cs) with
  | none => g
  | some (c, rest) =>
    if rest.head?.any startsCondition then
      readMore (g.push c (readCompound .any rest).1) (readCompound .any rest).2
    else readMore g rest
termination_by cs.length
decreasing_by
  · exact Nat.lt_of_le_of_lt (readCompound_length ..) (readCombinator_shorter _h)
  · exact readCombinator_shorter _h

/-- The group of a piece of selector text. -/
def readGroup (cs : List Char) : Group :=
  match skipBlanks cs with
  | [] => .empty
  | rest =>
    let parts := readCompound .any rest
    readMore ⟨[parts.1], []⟩ parts.2

/-- The groups of a selector text. -/
def parse (s : String) : SelectorList :=
  ⟨(split s.toList).map fun piece => readGroup (Text.trim piece)⟩

end HtmlQuery.SelectorList
