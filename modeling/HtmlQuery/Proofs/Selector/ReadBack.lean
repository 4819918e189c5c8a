import HtmlQuery.Proofs.Selector.Grammar

/-!
# Reading written selectors

Each reader ends where what was written ends, whatever comes behind it. At the outermost level no comma inside a
group divides it (`Nesting.Leads`), so the pieces are found (`split_text`); each condition is read off the front of a
compound and added to it (`readCompound_condition`), and each joint off the front of what is left of a group
(`readCombinator_joint`). So a written list is read as what it stands for (`parse_text`).
-/

namespace HtmlQuery.SelectorList

open Written

/-! ## Commas that do not divide -/

namespace Nesting

/-- No comma of the text divides pieces, and the place behind it is surrounded by `n'`. -/
def Leads (n n' : Nesting) : List Char → Prop
  | [] => n = n'
  | c :: cs => (c = ',' → n.divides = false) ∧ (n.after c).Leads n' cs

instance decidableLeads (n n' : Nesting) : (cs : List Char) → Decidable (n.Leads n' cs)
  | [] => inferInstanceAs (Decidable (n = n'))
  | c :: cs =>
    have := decidableLeads (n.after c) n' cs
    inferInstanceAs (Decidable (_ ∧ _))

variable {n n' n'' : Nesting} {cs ds : List Char}

theorem Leads.append (hcs : n.Leads n' cs) (hds : n'.Leads n'' ds) : n.Leads n'' (cs ++ ds) := by
  induction cs generalizing n with
  | nil =>
    obtain rfl : n = n' := hcs
    exact hds
  | cons c cs ih => exact ⟨hcs.1, ih hcs.2⟩

theorem leads_flatMap {α : Type} {f : α → List Char} {as : List α} (h : ∀ a ∈ as, n.Leads n (f a)) :
    n.Leads n (as.flatMap f) := by
  induction as with
  | nil => rfl
  | cons a as ih =>
    obtain ⟨ha, has⟩ := List.forall_mem_cons.1 h
    rw [List.flatMap_cons]
    exact ha.append (ih has)

/-- A character that is no mark changes nothing outside quotes. -/
theorem after_of_not_mark {c : Char} (hquote : n.quote = none) (hc : c ∉ marks) : n.after c = n := by
  simp only [marks, List.mem_cons, List.not_mem_nil, or_false, not_or] at hc
  simp [after, hquote, hc]

theorem leads_plain (hquote : n.quote = none) (hcs : ∀ c ∈ cs, c ∉ marks) : n.Leads n cs := by
  induction cs with
  | nil => rfl
  | cons c cs ih =>
    obtain ⟨hc, hcs⟩ := List.forall_mem_cons.1 hcs
    refine ⟨fun hcomma => absurd (hcomma ▸ by decide) hc, ?_⟩
    rw [after_of_not_mark hquote hc]
    exact ih hcs

theorem leads_name (name : Name) (hquote : n.quote = none) : n.Leads n name.chars :=
  leads_plain hquote fun c hc => (isNameChar_facts (name.valid c hc)).2.2

theorem leads_blanks (blanks : Blanks) (hquote : n.quote = none) : n.Leads n blanks.chars :=
  leads_plain hquote fun c hc => not_mark_of_blank (blanks.blank c hc)

theorem leads_spaced_name (before : Blanks) (name : Name) (behind : Blanks) (hquote : n.quote = none) :
    n.Leads n (before.chars ++ name.chars ++ behind.chars) :=
  ((leads_blanks before hquote).append (leads_name name hquote)).append (leads_blanks behind hquote)

/-- A value leads from quote to quote. -/
theorem leads_value (value : Value) : Leads ⟨0, 1, some '"', false⟩ ⟨0, 1, some '"', false⟩ value.chars := by
  obtain ⟨cs, hquote, hbackslash⟩ := value
  dsimp only
  induction cs with
  | nil => rfl
  | cons c cs ih =>
    rw [List.mem_cons, not_or] at hquote hbackslash
    refine ⟨fun _ => rfl, ?_⟩
    have hafter : after ⟨0, 1, some '"', false⟩ c = ⟨0, 1, some '"', false⟩ := by
      simp [after, Ne.symm hquote.1, Ne.symm hbackslash.1]
    rw [hafter]
    exact ih hquote.2 hbackslash.2

/-- Outside quotes, parentheses and brackets are counted each on their own. -/
theorem after_eq_shift {p b : Nat} {c : Char} (hdouble : c ≠ '"') (hsingle : c ≠ '\'') :
    after ⟨p, b, none, false⟩ c = ⟨shift '(' ')' p c, shift '[' ']' b c, none, false⟩ := by
  simp only [after, shift, hdouble, hsingle, decide_false, Bool.or_self, if_false, Bool.false_eq_true]
  by_cases h₁ : c = '('
  · subst h₁
    rfl
  by_cases h₂ : c = ')'
  · subst h₂
    rfl
  by_cases h₃ : c = '['
  · subst h₃
    rfl
  by_cases h₄ : c = ']'
  · subst h₄
    rfl
  · simp [h₁, h₂, h₃, h₄]

/-- An argument leads through its parenthesis, in which no comma divides. -/
theorem leads_argument {p b : Nat} {cs : List Char} (hdouble : '"' ∉ cs) (hsingle : '\'' ∉ cs)
    (h : Covered '(' ')' p cs) : Leads ⟨p + 1, b, none, false⟩
      ⟨cs.foldl (shift '(' ')') p + 1, cs.foldl (shift '[' ']') b, none, false⟩ cs := by
  induction cs generalizing p b with
  | nil => rfl
  | cons c cs ih =>
    rw [List.mem_cons, not_or] at hdouble hsingle
    have hshift : shift '(' ')' (p + 1) c = shift '(' ')' p c + 1 := by
      unfold shift
      split
      · rfl
      split
      · rename_i hc
        have hpos := Covered.pos (hc ▸ h) (by decide)
        omega
      · rfl
    refine ⟨fun _ => by simp [divides], ?_⟩
    rw [after_eq_shift (Ne.symm hdouble.1) (Ne.symm hsingle.1), hshift, List.foldl_cons, List.foldl_cons]
    exact ih hdouble.2 hsingle.2 (h.tail (by decide))

end Nesting

/-- No comma of the text divides it, and what is opened in it is closed in it. -/
def Closed (cs : List Char) : Prop := Nesting.outermost.Leads .outermost cs

open Nesting

theorem closed_condition (c : Condition) : Closed c.text := by
  have hopen : outermost.Leads ⟨0, 1, none, false⟩ ['['] := by decide
  have hclose : Leads ⟨0, 1, none, false⟩ outermost [']'] := by decide
  cases c with
  | id name => exact ⟨by decide, leads_name name rfl⟩
  | ofClass name => exact ⟨by decide, leads_name name rfl⟩
  | present before name after =>
    exact hopen.append ((leads_spaced_name before name after rfl).append hclose)
  | compares before name after comparison gap value behind =>
    have hquote : Leads ⟨0, 1, none, false⟩ ⟨0, 1, some '"', false⟩ ['"'] := by decide
    have hunquote : Leads ⟨0, 1, some '"', false⟩ ⟨0, 1, none, false⟩ ['"'] := by decide
    have hoperator : Leads ⟨0, 1, none, false⟩ ⟨0, 1, none, false⟩ comparison.operator.toList := by
      cases comparison <;> decide
    have hvalue := hquote.append ((leads_value value).append (hunquote.append
      ((leads_blanks behind rfl).append hclose)))
    exact hopen.append ((leads_spaced_name before name after rfl).append
      (hoperator.append ((leads_blanks gap rfl).append hvalue)))
  | pseudo name argument =>
    cases argument with
    | none => exact ⟨by decide, leads_name name rfl⟩
    | some argument =>
      have hparen : outermost.Leads ⟨0 + 1, 0, none, false⟩ ['('] := by decide
      have hunparen : Leads ⟨0 + 1, 0, none, false⟩ outermost [')'] := by decide
      have hargument := leads_argument (b := 0) argument.unquoted.1 argument.unquoted.2
        argument.parens.covered_zero
      rw [argument.parens.foldl_shift (by decide), argument.brackets.foldl_shift (by decide)] at hargument
      exact ⟨by decide, (leads_name name rfl).append (hparen.append (hargument.append hunparen))⟩

theorem closed_compound (p : Written.Compound) : Closed p.text := by
  have htag : Closed ((p.tag.map Tag.text).getD []) := by
    cases p.tag with
    | none => rfl
    | some tag =>
      cases tag with
      | any => exact ⟨by decide, rfl⟩
      | named name => exact leads_name name.toName rfl
  exact htag.append (leads_flatMap fun c _ => closed_condition c)

theorem closed_joint (j : Joint) : Closed j.text := by
  cases j with
  | blanks between nonempty => exact leads_blanks between rfl
  | sign before combinator signed after =>
    have hsign : outermost.Leads outermost [combinator.sign] := by
      cases combinator <;> decide
    exact (leads_blanks before rfl).append (hsign.append (leads_blanks after rfl))

theorem closed_piece (p : Piece) : Closed p.text := by
  have hgroup : Closed p.group.text :=
    (closed_compound p.group.first).append (leads_flatMap fun m _ => (closed_joint m.1).append (closed_compound m.2))
  exact ((leads_blanks p.before rfl).append hgroup).append (leads_blanks p.after rfl)

theorem splitFrom_append {n n' : Nesting} {cs : List Char} (h : n.Leads n' cs) (rest : List Char) :
    splitFrom n (cs ++ rest) = (cs ++ (splitFrom n' rest).1, (splitFrom n' rest).2) := by
  induction cs generalizing n with
  | nil =>
    obtain rfl : n = n' := h
    rfl
  | cons c cs ih =>
    have hcomma : ¬ (decide (c = ',') && n.divides) = true := by
      intro hboth
      obtain ⟨hc, hdivides⟩ := Bool.and_eq_true_iff.1 hboth
      rw [h.1 (of_decide_eq_true hc)] at hdivides
      exact Bool.false_ne_true hdivides
    rw [List.cons_append, splitFrom, if_neg hcomma, ih h.2]
    rfl

theorem split_of_leads {n : Nesting} {cs : List Char} (h : outermost.Leads n cs) : split cs = [cs] := by
  have hsplit := splitFrom_append h []
  rw [List.append_nil] at hsplit
  rw [split, hsplit]
  simp [splitFrom]

theorem split_closed {cs : List Char} (h : Closed cs) (rest : List Char) :
    split (cs ++ ',' :: rest) = cs :: split rest := by
  have hcomma : splitFrom outermost (',' :: rest) = ([], split rest) := if_pos (by decide)
  rw [split, splitFrom_append h, hcomma, List.append_nil]

/-- The pieces of a written list are found. -/
theorem split_text (l : Written.SelectorList) :
    split l.text.toList = (l.first :: l.more).map Piece.text := by
  obtain ⟨first, more⟩ := l
  rw [Written.SelectorList.text, String.toList_ofList]
  dsimp only
  induction more generalizing first with
  | nil =>
    rw [List.flatMap_nil, List.append_nil, split_of_leads (closed_piece first)]
    rfl
  | cons p ps ih =>
    rw [List.flatMap_cons, List.cons_append, split_closed (closed_piece first), ih p]
    rfl

/-! ## Conditions -/

section
variable {p : HtmlQuery.Compound} {cs rest : List Char}

/-- What does not go on a name or give a pseudo-class an argument. -/
def Stops (rest : List Char) : Prop := ∀ c ∈ rest.head?, isNameChar c = false ∧ c ≠ '('

theorem name_append (n : Name) (hrest : ∀ c ∈ rest.head?, isNameChar c = false) :
    name (n.chars ++ rest) = n.string ∧ afterName (n.chars ++ rest) = rest := by
  obtain ⟨htake, hdrop⟩ := Text.span_append (fun c hc => (isNameChar_facts (n.valid c hc)).1) hrest
  rw [name, afterName, htake, hdrop]
  exact ⟨rfl, rfl⟩

/-- A character that does not close the argument is part of it. -/
theorem readArgument_cons {depth : Nat} {c : Char} (h : c = ')' → 0 < depth) (cs : List Char) :
    readArgument depth (c :: cs) = (c :: (readArgument (shift '(' ')' depth c) cs).1,
      (readArgument (shift '(' ')' depth c) cs).2) := by
  by_cases hc : c = ')'
  · subst hc
    obtain ⟨d, rfl⟩ : ∃ d, depth = d + 1 := ⟨depth - 1, by have := h rfl; omega⟩
    rfl
  · have hshift : shift '(' ')' depth c = if c = '(' then depth + 1 else depth := by
      rw [shift, if_neg hc]
    rw [hshift]
    exact if_neg hc

/-- An argument is read up to the parenthesis that closes its own. -/
theorem readArgument_append {depth : Nat} (h : Covered '(' ')' depth cs) (rest : List Char) :
    readArgument depth (cs ++ rest) = (cs ++ (readArgument (cs.foldl (shift '(' ')') depth) rest).1,
      (readArgument (cs.foldl (shift '(' ')') depth) rest).2) := by
  induction cs generalizing depth with
  | nil => rfl
  | cons c cs ih =>
    have hopen : c = ')' → 0 < depth := fun hc => Covered.pos (hc ▸ h) (by decide)
    rw [List.cons_append, readArgument_cons hopen, ih (h.tail (by decide))]
    rfl

theorem readArgument_argument (argument : Argument) :
    readArgument 0 (argument.chars ++ ')' :: rest) = (argument.chars, rest) := by
  have hend : readArgument 0 (')' :: rest) = ([], rest) := rfl
  rw [readArgument_append argument.parens.covered_zero, argument.parens.foldl_shift (by decide), hend,
    List.append_nil]

/-- The name in brackets, with what ends it behind it. -/
theorem bracketName_append (before : Blanks) (name : Name) (behind : Blanks) {rest : List Char}
    (hrest : ∀ c ∈ rest.head?, endsBracketName c = true) :
    Text.trim ((before.chars ++ name.chars ++ behind.chars ++ rest).takeWhile (!endsBracketName ·)) = name.chars ∧
      (before.chars ++ name.chars ++ behind.chars ++ rest).dropWhile (!endsBracketName ·) = rest := by
  have hmark : ∀ c, c ∉ marks → (!endsBracketName c) = true := by
    intro c hc
    simp only [marks, List.mem_cons, List.not_mem_nil, or_false, not_or] at hc
    simp [endsBracketName, hc]
  have hall : ∀ c ∈ before.chars ++ name.chars ++ behind.chars, (!endsBracketName c) = true := by
    intro c hc
    rcases List.mem_append.1 hc with hc | hc
    · rcases List.mem_append.1 hc with hc | hc
      · exact hmark c (not_mark_of_blank (before.blank c hc))
      · exact hmark c (isNameChar_facts (name.valid c hc)).2.2
    · exact hmark c (not_mark_of_blank (behind.blank c hc))
  obtain ⟨htake, hdrop⟩ := Text.span_append hall fun c hc => by rw [hrest c hc]; rfl
  have hsolid : ∀ c ∈ name.chars, Text.isWhitespace c = false := fun c hc =>
    (isNameChar_facts (name.valid c hc)).2.1
  rw [htake, hdrop]
  exact ⟨Text.trim_append before.blank (fun c hc => hsolid c (List.mem_of_mem_head? hc))
    (fun c hc => hsolid c (List.mem_of_mem_getLast? hc)) behind.blank, rfl⟩

theorem readBracket_present (before : Blanks) (name : Name) (behind : Blanks) :
    readBracket (before.chars ++ name.chars ++ behind.chars ++ ']' :: rest) =
      (some (.present name.string), rest) := by
  have hend : ∀ c ∈ (']' :: rest).head?, endsBracketName c = true := by simp [endsBracketName]
  obtain ⟨hname, hrest⟩ := bracketName_append before name behind hend
  rw [readBracket, hname, hrest]
  rfl

theorem skipBlanks_append (blanks : Blanks) (hrest : ∀ c ∈ rest.head?, Text.isWhitespace c = false) :
    skipBlanks (blanks.chars ++ rest) = rest :=
  Text.dropWhile_append_of_head? blanks.blank hrest

theorem skipPast_append {mark : Char} (h : mark ∉ cs) : skipPast mark (cs ++ mark :: rest) = rest := by
  have hcs : ∀ c ∈ cs, decide (c ≠ mark) = true := by
    intro c hc
    exact decide_eq_true fun heq => h (heq ▸ hc)
  rw [skipPast, (Text.span_append hcs (by simp)).2]
  rfl

theorem readValue_of_quote {q : Char} (hq : q = '"' ∨ q = '\'') (h : skipBlanks cs = q :: rest) :
    readValue cs = (String.ofList (rest.takeWhile (· ≠ q)), skipPast ']' (skipPast q rest)) := by
  rw [readValue, h]
  rcases hq with rfl | rfl <;> rfl

/-- A value between quotes of either kind, up to the bracket behind it. -/
theorem readValue_quoted {q : Char} {v : List Char} (hq : q = '"' ∨ q = '\'') (hv : q ∉ v) (gap behind : Blanks) :
    readValue (gap.chars ++ q :: (v ++ q :: (behind.chars ++ ']' :: rest))) = (String.ofList v, rest) := by
  have hvalue : ∀ c ∈ v, decide (c ≠ q) = true := fun c hc => decide_eq_true fun heq => hv (heq ▸ hc)
  have hbehind : ']' ∉ behind.chars := fun hmem => not_mark_of_blank (behind.blank _ hmem) (by decide)
  have htake : (v ++ q :: (behind.chars ++ ']' :: rest)).takeWhile (· ≠ q) = v :=
    (Text.span_append hvalue (by simp)).1
  have hskip : skipPast ']' (skipPast q (v ++ q :: (behind.chars ++ ']' :: rest))) = rest := by
    rw [skipPast_append hv, skipPast_append hbehind]
  have hsolid : Text.isWhitespace q = false := by rcases hq with rfl | rfl <;> decide
  have hgap : skipBlanks (gap.chars ++ q :: (v ++ q :: (behind.chars ++ ']' :: rest))) =
      q :: (v ++ q :: (behind.chars ++ ']' :: rest)) := skipBlanks_append gap (by simpa using hsolid)
  rw [readValue_of_quote hq hgap, htake, hskip]

theorem readBracket_compares (before : Blanks) (name : Name) (behind : Blanks) (comparison : Comparison)
    (gap : Blanks) (value : Value) (last : Blanks) :
    readBracket (before.chars ++ name.chars ++ behind.chars ++ (comparison.operator.toList ++
      (gap.chars ++ '"' :: (value.chars ++ '"' :: (last.chars ++ ']' :: rest))))) =
      (some (.compares comparison name.string (String.ofList value.chars)), rest) := by
  have hvalue := @readValue_quoted rest '"' value.chars (.inl rfl) value.no_quote gap last
  generalize gap.chars ++ '"' :: (value.chars ++ '"' :: (last.chars ++ ']' :: rest)) = tail at hvalue ⊢
  have hend : ∀ c ∈ (comparison.operator.toList ++ tail).head?, endsBracketName c = true := by
    cases comparison <;> simp [Comparison.operator, endsBracketName]
  obtain ⟨hname, hrest⟩ := bracketName_append before name behind hend
  have hread : readBracket (before.chars ++ name.chars ++ behind.chars ++ (comparison.operator.toList ++ tail)) =
      (AttributeCondition.ofOperator? comparison.operator name.string (readValue tail).1, (readValue tail).2) := by
    rw [readBracket, hname, hrest]
    cases comparison <;> rfl
  have hoperator : AttributeCondition.ofOperator? comparison.operator name.string (String.ofList value.chars) =
      some (.compares comparison name.string (String.ofList value.chars)) := by
    cases comparison <;> rfl
  rw [hread, hvalue, hoperator]

/-! ## Compounds -/

/-- A compound with one more condition. -/
def addCondition (p : HtmlQuery.Compound) : Condition → HtmlQuery.Compound
  | .id name => { p with id := some name.string }
  | .ofClass name => { p with classes := p.classes ++ [name.string] }
  | .present _ name _ => { p with attributes := p.attributes ++ [.present name.string] }
  | .compares _ name _ comparison _ value _ =>
    { p with attributes := p.attributes ++ [.compares comparison name.string (String.ofList value.chars)] }
  | .pseudo name argument =>
    { p with pseudoClasses := p.pseudoClasses ++
        [.ofText name.string (argument.map fun argument => String.ofList argument.chars)] }

theorem readPseudoClass_bare (name : Name) (hrest : Stops rest) :
    readPseudoClass (name.chars ++ rest) = (.ofText name.string none, rest) := by
  obtain ⟨hname, hafter⟩ := name_append name fun c hc => (hrest c hc).1
  rw [readPseudoClass, hname, hafter]
  split
  · exact absurd rfl (hrest '(' rfl).2
  · rfl

theorem readPseudoClass_argument (name : Name) (argument : Argument) :
    readPseudoClass (name.chars ++ '(' :: (argument.chars ++ ')' :: rest)) =
      (.ofText name.string (some (String.ofList argument.chars)), rest) := by
  have hparen : ∀ c ∈ ('(' :: (argument.chars ++ ')' :: rest)).head?, isNameChar c = false := by
    simp
    decide
  obtain ⟨hname, hafter⟩ := name_append name hparen
  have hread : readPseudoClass (name.chars ++ '(' :: (argument.chars ++ ')' :: rest)) =
      (.ofText name.string (some (String.ofList (readArgument 0 (argument.chars ++ ')' :: rest)).1)),
        (readArgument 0 (argument.chars ++ ')' :: rest)).2) := by
    rw [readPseudoClass, hname, hafter]
    rfl
  rw [hread, readArgument_argument]

section
variable (p : HtmlQuery.Compound) (cs : List Char)

theorem readCompound_id : readCompound p ('#' :: cs) =
    readCompound (if (name cs).isEmpty then p else { p with id := some (name cs) }) (afterName cs) := by
  rw [readCompound, if_pos rfl]

theorem readCompound_class : readCompound p ('.' :: cs) =
    readCompound { p with classes := p.classes ++ [name cs] } (afterName cs) := by
  rw [readCompound, if_neg (by decide), if_pos rfl]

theorem readCompound_bracket : readCompound p ('[' :: cs) =
    readCompound { p with attributes := p.attributes ++ (readBracket cs).1.toList } (readBracket cs).2 := by
  rw [readCompound, if_neg (by decide), if_neg (by decide), if_pos rfl]

theorem readCompound_pseudo : readCompound p (':' :: cs) =
    readCompound { p with pseudoClasses := p.pseudoClasses ++ [(readPseudoClass cs).1] } (readPseudoClass cs).2 := by
  rw [readCompound, if_neg (by decide), if_neg (by decide), if_neg (by decide), if_pos rfl]

theorem readCompound_any : readCompound p ('*' :: cs) = readCompound { p with tag := some "*" } cs := by
  rw [readCompound, if_neg (by decide), if_neg (by decide), if_neg (by decide), if_neg (by decide), if_pos rfl]

theorem readCompound_named {c : Char} (h : startsName c = true) : readCompound p (c :: cs) =
    readCompound { p with tag := some (Text.lowercase (name (c :: cs))) } (afterName cs) := by
  have hmark : ∀ d, startsName d = false → c ≠ d := by
    intro d hd heq
    rw [heq, hd] at h
    exact Bool.false_ne_true h
  rw [readCompound, if_neg (hmark '#' (by decide)), if_neg (hmark '.' (by decide)), if_neg (hmark '[' (by decide)),
    if_neg (hmark ':' (by decide)), if_neg (hmark '*' (by decide)), if_pos h]

end

theorem text_compares_append (before : Blanks) (name : Name) (behind : Blanks) (comparison : Comparison) (gap : Blanks)
    (value : Value) (last : Blanks) (rest : List Char) :
    (Condition.compares before name behind comparison gap value last).text ++ rest =
      '[' :: (before.chars ++ name.chars ++ behind.chars ++ (comparison.operator.toList ++
        (gap.chars ++ '"' :: (value.chars ++ '"' :: (last.chars ++ ']' :: rest))))) := by
  simp only [Condition.text, List.cons_append, List.append_assoc, List.nil_append]

theorem text_argument_append (name : Name) (argument : Argument) (rest : List Char) :
    (Condition.pseudo name (some argument)).text ++ rest =
      ':' :: (name.chars ++ '(' :: (argument.chars ++ ')' :: rest)) := by
  simp only [Condition.text, List.cons_append, List.append_assoc, List.nil_append]

/-- A condition is read off the front of a compound and added to it. -/
theorem readCompound_condition (p : HtmlQuery.Compound) (c : Condition) (hrest : Stops rest) :
    readCompound p (c.text ++ rest) = readCompound (addCondition p c) rest := by
  have hname : ∀ c ∈ rest.head?, isNameChar c = false := fun c hc => (hrest c hc).1
  cases c with
  | id name =>
    obtain ⟨hread, hafter⟩ := name_append name hname
    have hne : name.string.isEmpty = false := by simpa [Name.string] using name.nonempty
    rw [Condition.text, List.cons_append, readCompound_id, hread, hafter, hne]
    rfl
  | ofClass name =>
    obtain ⟨hread, hafter⟩ := name_append name hname
    rw [Condition.text, List.cons_append, readCompound_class, hread, hafter]
    rfl
  | present before name behind =>
    have hread := @readBracket_present rest before name behind
    rw [Condition.text, List.cons_append, List.append_assoc, List.singleton_append, readCompound_bracket, hread]
    rfl
  | compares before name behind comparison gap value last =>
    have hread := @readBracket_compares rest before name behind comparison gap value last
    rw [text_compares_append, readCompound_bracket, hread]
    rfl
  | pseudo name argument =>
    cases argument with
    | none =>
      rw [Condition.text, List.cons_append, readCompound_pseudo, readPseudoClass_bare name hrest]
      rfl
    | some argument =>
      have hread := @readPseudoClass_argument rest name argument
      rw [text_argument_append, readCompound_pseudo, hread]
      rfl

/-- A condition ends what is in front of it. -/
theorem stops_conditions (cs : List Condition) (hrest : Stops rest) : Stops (cs.flatMap Condition.text ++ rest) := by
  have hstart : ∀ c ∈ ['#', '.', '[', ':'], isNameChar c = false ∧ c ≠ '(' := by
    simp only [List.forall_mem_cons, List.not_mem_nil, IsEmpty.forall_iff, implies_true]
    decide
  cases cs with
  | nil => exact hrest
  | cons c cs =>
    intro d hd
    apply hstart d
    cases c with
    | pseudo name argument => cases argument <;> obtain rfl := Option.some.inj hd <;> decide
    | _ => obtain rfl := Option.some.inj hd; decide

theorem readCompound_conditions (p : HtmlQuery.Compound) (cs : List Condition) (hrest : Stops rest) :
    readCompound p (cs.flatMap Condition.text ++ rest) = readCompound (cs.foldl addCondition p) rest := by
  induction cs generalizing p with
  | nil => rfl
  | cons c cs ih =>
    rw [List.flatMap_cons, List.append_assoc, readCompound_condition p c (stops_conditions cs hrest), ih]
    rfl

/-- Added conditions stand behind those that are there; of ids the last one counts. -/
theorem foldl_addCondition (p : HtmlQuery.Compound) (cs : List Condition) :
    cs.foldl addCondition p =
      ⟨p.tag, (cs.filterMap Condition.id?).getLast?.or p.id, p.classes ++ cs.filterMap Condition.class?,
        p.attributes ++ cs.filterMap Condition.attribute?,
        p.pseudoClasses ++ cs.filterMap Condition.pseudoClass?⟩ := by
  induction cs generalizing p with
  | nil => simp
  | cons c cs ih =>
    rw [List.foldl_cons, ih]
    cases c <;> simp [addCondition, Condition.id?, Condition.class?, Condition.attribute?, Condition.pseudoClass?,
      List.filterMap_cons, List.getLast?_cons]

/-- The name of a tag starts a name and goes on to its end. -/
theorem tagName_append (tag : TagName) (hrest : ∀ c ∈ rest.head?, isNameChar c = false) :
    ∃ c cs, tag.chars = c :: cs ∧ startsName c = true ∧ afterName (cs ++ rest) = rest := by
  obtain ⟨-, hafter⟩ := name_append tag.toName hrest
  obtain ⟨c, cs, hcs⟩ := List.exists_cons_of_ne_nil tag.nonempty
  obtain ⟨hname, -, -⟩ := isNameChar_facts (tag.valid c (by simp [hcs]))
  obtain ⟨hdigit, hhyphen⟩ := tag.starts c (by simp [hcs])
  rw [hcs, List.cons_append, afterName, List.dropWhile_cons_of_pos hname] at hafter
  exact ⟨c, cs, hcs, by simpa [isNameChar, hdigit, hhyphen] using hname, hafter⟩

/-- A tag is read off the front of a compound. -/
theorem readCompound_tag (p : HtmlQuery.Compound) (tag : Tag) (hrest : Stops rest) :
    readCompound p (tag.text ++ rest) = readCompound { p with tag := some tag.meaning } rest := by
  cases tag with
  | any => exact readCompound_any p rest
  | named tag =>
    have hname : ∀ c ∈ rest.head?, isNameChar c = false := fun c hc => (hrest c hc).1
    obtain ⟨hread, -⟩ := name_append tag.toName hname
    obtain ⟨c, cs, hcs, hstart, hskip⟩ := tagName_append tag hname
    rw [hcs, List.cons_append] at hread
    rw [Tag.text, hcs, List.cons_append, readCompound_named p _ hstart, hread, hskip]
    rfl

/-- What does not go on a compound either. -/
structure EndsCompound (rest : List Char) : Prop where
  stops : Stops rest
  bare : ∀ c ∈ rest.head?, startsCondition c = false

theorem readCompound_ended (p : HtmlQuery.Compound) (hbare : ∀ c ∈ rest.head?, startsCondition c = false) :
    readCompound p rest = (p, rest) := by
  cases rest with
  | nil => rw [readCompound]
  | cons c cs =>
    replace hbare := hbare c rfl
    simp only [startsCondition, Bool.or_eq_false_iff, decide_eq_false_iff_not] at hbare
    rw [readCompound]
    simp [hbare]

/-- A written compound is read as what it stands for. -/
theorem readCompound_compound (p : Written.Compound) (hrest : EndsCompound rest) :
    readCompound .any (p.text ++ rest) = (p.meaning, rest) := by
  obtain ⟨tag, conditions, -, hid⟩ := p
  have hlast : (conditions.filterMap Condition.id?).getLast? = (conditions.filterMap Condition.id?).head? := by
    match conditions.filterMap Condition.id?, hid with
    | [], _ => rfl
    | [_], _ => rfl
  have htag : readCompound .any ((tag.map Tag.text).getD [] ++ (conditions.flatMap Condition.text ++ rest)) =
      readCompound { HtmlQuery.Compound.any with tag := tag.map Tag.meaning }
        (conditions.flatMap Condition.text ++ rest) := by
    cases tag with
    | none => rfl
    | some tag => exact readCompound_tag .any tag (stops_conditions conditions hrest.stops)
  rw [Written.Compound.text, List.append_assoc, htag, readCompound_conditions _ _ hrest.stops,
    readCompound_ended _ hrest.bare, foldl_addCondition, hlast]
  simp [Written.Compound.meaning, HtmlQuery.Compound.any]

/-! ## Groups -/

theorem endsCompound_cons {c : Char} (hname : isNameChar c = false) (hparen : c ≠ '(')
    (hbare : startsCondition c = false) (cs : List Char) : EndsCompound (c :: cs) := by
  constructor
  · intro d hd
    obtain rfl := Option.some.inj hd
    exact ⟨hname, hparen⟩
  · intro d hd
    obtain rfl := Option.some.inj hd
    exact hbare

theorem endsCompound_blank {c : Char} (hblank : Text.isWhitespace c = true) (hascii : c.toNat < 0x80)
    (cs : List Char) : EndsCompound (c :: cs) := by
  obtain ⟨hname, hparen, hbare⟩ := Text.forall_ascii (p := fun c => Text.isWhitespace c = true →
    isNameChar c = false ∧ c ≠ '(' ∧ startsCondition c = false) (by decide +kernel) hascii hblank
  exact endsCompound_cons hname hparen hbare cs

theorem endsCompound_sign {c : Combinator} (h : c ≠ .descendant) (cs : List Char) : EndsCompound (c.sign :: cs) := by
  cases c with
  | descendant => exact absurd rfl h
  | _ => exact endsCompound_cons (by decide) (by decide) (by decide) cs

/-- A joint that starts with a blank of ASCII or a sign ends the compound in front of it. -/
theorem endsCompound_joint (j : Joint) (hspaced : ∀ c ∈ j.before.chars.head?, c.toNat < 0x80) :
    EndsCompound (j.text ++ rest) := by
  have hblanks : ∀ {c cs}, j.before.chars = c :: cs → ∀ ds, EndsCompound (c :: ds) := by
    intro c cs hcs
    exact endsCompound_blank (j.before.blank c (by simp [hcs])) (hspaced c (by simp [hcs]))
  cases j with
  | blanks between nonempty =>
    obtain ⟨c, cs, hcs⟩ := List.exists_cons_of_ne_nil nonempty
    rw [Joint.text, hcs]
    exact hblanks hcs _
  | sign before combinator signed after =>
    rw [Joint.text]
    cases hcs : before.chars with
    | nil => exact endsCompound_sign signed _
    | cons c cs => exact hblanks hcs _

theorem endsCompound_more (ms : List (Joint × Written.Compound))
    (hspaced : ∀ m ∈ ms, ∀ c ∈ m.1.before.chars.head?, c.toNat < 0x80) :
    EndsCompound (ms.flatMap fun m => m.1.text ++ m.2.text) := by
  cases ms with
  | nil => exact ⟨nofun, nofun⟩
  | cons m ms =>
    rw [List.flatMap_cons, List.append_assoc]
    exact endsCompound_joint m.1 (hspaced m List.mem_cons_self)

theorem readCombinator_sign {c : Combinator} (h : c ≠ .descendant) (spaced : Bool) (cs : List Char) :
    readCombinator spaced (c.sign :: cs) = some (c, skipBlanks cs) := by
  cases c with
  | descendant => exact absurd rfl h
  | _ => rfl

theorem readCombinator_unsigned {d : Char} (h : ∀ c : Combinator, c ≠ .descendant → d ≠ c.sign) (spaced : Bool)
    (cs : List Char) : readCombinator spaced (d :: cs) = if spaced then some (.descendant, d :: cs) else none := by
  obtain ⟨hchild, hnext, hlater⟩ : d ≠ '>' ∧ d ≠ '+' ∧ d ≠ '~' :=
    ⟨h .child (by decide), h .nextSibling (by decide), h .laterSibling (by decide)⟩
  rw [readCombinator, if_neg hchild, if_neg hnext, if_neg hlater]

theorem readCombinator_blank {c : Char} (h : startsCondition c = true) (cs : List Char) :
    readCombinator true (c :: cs) = some (.descendant, c :: cs) := by
  refine readCombinator_unsigned (fun sign _ heq => ?_) true cs
  rw [heq] at h
  cases sign <;> exact absurd h (by decide)

/-- A joint is read off the front of what is left of a group. -/
theorem readCombinator_joint (j : Joint) (hrest : Opens rest) :
    readCombinator (isSpaced (j.text ++ rest)) (skipBlanks (j.text ++ rest)) = some (j.combinator, rest) := by
  obtain ⟨c, cs, rfl, hstart, hsolid⟩ := hrest
  have hskip : ∀ blanks : Blanks, skipBlanks (blanks.chars ++ c :: cs) = c :: cs := fun blanks =>
    skipBlanks_append blanks fun d hd => Option.some.inj hd ▸ hsolid
  cases j with
  | blanks between nonempty =>
    have hspaced : isSpaced (between.chars ++ c :: cs) = true := by
      have hpos := List.length_pos_iff.2 nonempty
      rw [isSpaced, hskip, List.length_append]
      exact decide_eq_true (by omega)
    rw [Joint.text, hspaced, hskip]
    exact readCombinator_blank hstart cs
  | sign before combinator signed after =>
    have hsign : Text.isWhitespace combinator.sign = false := by
      cases combinator with
      | descendant => exact absurd rfl signed
      | _ => decide
    have hbefore : skipBlanks (before.chars ++ combinator.sign :: (after.chars ++ c :: cs)) =
        combinator.sign :: (after.chars ++ c :: cs) :=
      skipBlanks_append before fun d hd => Option.some.inj hd ▸ hsign
    rw [Joint.text, List.append_assoc, List.cons_append, hbefore, readCombinator_sign signed, hskip]
    rfl

theorem readMore_of_none {g : HtmlQuery.Group} (h : readCombinator (isSpaced cs) (skipBlanks cs) = none) :
    readMore g cs = g := by
  rw [readMore]
  split
  · rfl
  · rename_i hsome
    exact absurd (hsome.symm.trans h) (Option.some_ne_none _)

theorem readMore_nil (g : HtmlQuery.Group) : readMore g [] = g := readMore_of_none rfl

theorem readMore_of_joint {g : HtmlQuery.Group} {c : Combinator}
    (h : readCombinator (isSpaced cs) (skipBlanks cs) = some (c, rest)) :
    readMore g cs = if rest.head?.any startsCondition then
      readMore (g.push c (readCompound .any rest).1) (readCompound .any rest).2 else readMore g rest := by
  rw [readMore]
  split
  · rename_i hnone
    exact absurd (h.symm.trans hnone) (Option.some_ne_none _)
  · rename_i c' rest' hsome
    obtain ⟨rfl, rfl⟩ := Prod.mk.inj (Option.some.inj (h.symm.trans hsome))
    rfl

/-- One more compound is read behind a combinator. -/
theorem readMore_push {g : HtmlQuery.Group} {c : Combinator}
    (h : readCombinator (isSpaced cs) (skipBlanks cs) = some (c, rest)) (hrest : Opens rest) :
    readMore g cs = readMore (g.push c (readCompound .any rest).1) (readCompound .any rest).2 := by
  have hstart : rest.head?.any startsCondition = true := by
    obtain ⟨d, ds, rfl, hstart, -⟩ := hrest
    exact hstart
  rw [readMore_of_joint h, if_pos hstart]

/-- Joints that are spaced, with compounds behind them, are read to the end. -/
theorem readMore_more (g : HtmlQuery.Group) (ms : List (Joint × Written.Compound))
    (hspaced : ∀ m ∈ ms, ∀ c ∈ m.1.before.chars.head?, c.toNat < 0x80) :
    readMore g (ms.flatMap fun m => m.1.text ++ m.2.text) =
      ⟨g.parts ++ ms.map fun m => m.2.meaning, g.combinators ++ ms.map fun m => m.1.combinator⟩ := by
  induction ms generalizing g with
  | nil => simp [readMore_nil]
  | cons m ms ih =>
    obtain ⟨-, hms⟩ := List.forall_mem_cons.1 hspaced
    have hjoint := readCombinator_joint m.1 (m.2.opens.append (ms.flatMap fun m => m.1.text ++ m.2.text))
    have hcompound := readCompound_compound m.2 (endsCompound_more ms hms)
    rw [List.flatMap_cons, List.append_assoc, readMore_push hjoint (m.2.opens.append _), hcompound, ih _ hms]
    simp [HtmlQuery.Group.push]

theorem readGroup_of_opens (hopens : Opens cs) :
    readGroup cs = readMore ⟨[(readCompound .any cs).1], []⟩ (readCompound .any cs).2 := by
  obtain ⟨c, ds, rfl, -, hsolid⟩ := hopens
  have hskip : skipBlanks (c :: ds) = c :: ds := List.dropWhile_cons_of_neg (by simp [hsolid])
  rw [readGroup, hskip]

/-- A group is read as what it stands for. -/
theorem readGroup_group (g : Written.Group) (hspaced : g.Spaced) : readGroup g.text = g.meaning := by
  have hcompound := readCompound_compound g.first (endsCompound_more g.more hspaced)
  rw [readGroup_of_opens g.opens, Written.Group.text, hcompound, readMore_more _ _ hspaced]
  rfl

theorem trim_blanks (before behind : Blanks) (hopens : Opens cs) (hends : EndsSolid cs) :
    Text.trim (before.chars ++ cs ++ behind.chars) = cs := by
  obtain ⟨c, ds, rfl, -, hfirst⟩ := hopens
  obtain ⟨d, hlast, hsolid⟩ := hends
  exact Text.trim_append before.blank (fun e he => Option.some.inj he ▸ hfirst)
    (fun e he => Option.some.inj (hlast.symm.trans he) ▸ hsolid) behind.blank

theorem trim_piece (p : Piece) : Text.trim p.text = p.group.text :=
  trim_blanks p.before p.after p.group.opens p.group.endsSolid

/-! ## Lists -/

/-- A selector list is read back, however it is written, if blanks right behind a compound and inside a group start
with one of ASCII. -/
theorem parse_text (l : Written.SelectorList) (h : l.Spaced) : parse l.text = l.meaning := by
  have hpiece : ∀ p ∈ l.first :: l.more, readGroup (Text.trim p.text) = p.group.meaning := by
    intro p hp
    rw [trim_piece, readGroup_group p.group (h p hp)]
  rw [parse, split_text, List.map_map, Written.SelectorList.meaning]
  exact congrArg HtmlQuery.SelectorList.mk (List.map_congr_left hpiece)

theorem parse_text_items : items.Spaced ∧ parse "Ul > li.x, *" = ⟨[
    ⟨[⟨some "ul", none, [], [], []⟩, ⟨some "li", none, ["x"], [], []⟩], [.child]⟩,
    ⟨[⟨some "*", none, [], [], []⟩], []⟩]⟩ := by
  have hspaced : items.Spaced := by
    simp [items, Written.SelectorList.Spaced, Written.Group.Spaced, Joint.before, Blanks.space]
  have hmeaning : items.meaning = ⟨[
      ⟨[⟨some "ul", none, [], [], []⟩, ⟨some "li", none, ["x"], [], []⟩], [.child]⟩,
      ⟨[⟨some "*", none, [], [], []⟩], []⟩]⟩ := by decide +kernel
  exact ⟨hspaced, (parse_text items hspaced).trans hmeaning⟩

/-- A no-break space goes on the name in front of it, so one compound is read where two are written. -/
theorem not_parse_text_unspaced : ¬ ∀ l : Written.SelectorList, parse l.text = l.meaning := by
  intro h
  have hsizes := congrArg (fun l => l.groups.map fun g => g.parts.length) (h unspaced)
  exact absurd hsizes (by decide +kernel)

end

end HtmlQuery.SelectorList
