import HtmlQuery.Proofs.Selector.ReadBack

/-!
# What cannot go on a group

A group in which every bracket and every argument is closed (`Complete`) is read first, whatever comes behind it that
does not go on its last compound (`Complete.readGroup_append`). Every group of the grammar is such a group
(`complete_group`). A sign without a compound behind it is passed over (`readMore_dangling`), and then the group ends,
unless another sign comes next. That one is read as if the first were not there, so a group goes on behind text that
cannot go on a group (`readGroup_dangling`).
-/

namespace HtmlQuery.SelectorList

open Written

/-! ## Brackets and arguments that are closed -/

/-- The value in front of a text ends in it, and so does the bracket behind the value. -/
def valueCloses (cs : List Char) : Bool :=
  match skipBlanks cs with
  | '"' :: rest => rest.contains '"' && (skipPast '"' rest).contains ']'
  | '\'' :: rest => rest.contains '\'' && (skipPast '\'' rest).contains ']'
  | rest => rest.contains ']'

/-- The bracket that was opened in front of a text is closed in it. -/
def bracketCloses (cs : List Char) : Bool :=
  match cs.dropWhile (!endsBracketName ·) with
  | ']' :: _ => true
  | '=' :: rest => valueCloses rest
  | _ :: '=' :: rest => valueCloses rest
  | rest => rest.contains ']'

/-- The argument of the pseudo-class in front of a text is closed in it, if there is one. -/
def argumentCloses (cs : List Char) : Bool :=
  match afterName cs with
  | '(' :: rest => rest == (readArgument 0 rest).1 ++ ')' :: (readArgument 0 rest).2
  | _ => true

variable {cs tail : List Char}

/-- A run that ends in a text, or in front of what comes behind it, is the same run with that behind it. -/
theorem span_append_of_ended {p : Char → Bool} (tail : List Char)
    (h : cs.dropWhile p ≠ [] ∨ ∀ c ∈ tail.head?, p c = false) :
    (cs ++ tail).takeWhile p = cs.takeWhile p ∧ (cs ++ tail).dropWhile p = cs.dropWhile p ++ tail := by
  induction cs with
  | nil =>
    have hstop : ∀ c ∈ tail.head?, p c = false := h.resolve_left fun hne => hne rfl
    exact Text.span_append (List.forall_mem_nil _) hstop
  | cons c cs ih =>
    by_cases hc : p c = true
    · rw [List.dropWhile_cons_of_pos hc] at h ⊢
      obtain ⟨htake, hdrop⟩ := ih h
      rw [List.cons_append, List.takeWhile_cons_of_pos hc, List.dropWhile_cons_of_pos hc,
        List.takeWhile_cons_of_pos hc, htake, hdrop]
      exact ⟨rfl, rfl⟩
    · rw [List.cons_append, List.takeWhile_cons_of_neg hc, List.dropWhile_cons_of_neg hc,
        List.takeWhile_cons_of_neg hc, List.dropWhile_cons_of_neg hc]
      exact ⟨rfl, rfl⟩

/-- Up to a mark that stands in a text, it is read alike whatever comes behind it. -/
theorem takeWhile_append_of_mem {mark : Char} (h : mark ∈ cs) (tail : List Char) :
    (cs ++ tail).takeWhile (· ≠ mark) = cs.takeWhile (· ≠ mark) ∧
      skipPast mark (cs ++ tail) = skipPast mark cs ++ tail := by
  obtain ⟨before, after, rfl, hnot⟩ := List.eq_append_cons_of_mem h
  have hbefore : ∀ c ∈ before, decide (c ≠ mark) = true := by
    intro c hc
    exact decide_eq_true fun heq => hnot (heq ▸ hc)
  have htake : ∀ rest, (before ++ mark :: rest).takeWhile (· ≠ mark) = before := fun rest =>
    (Text.span_append hbefore (by simp)).1
  rw [List.append_assoc, List.cons_append, htake, htake, skipPast_append hnot, skipPast_append hnot]
  exact ⟨rfl, rfl⟩

theorem skipBlanks_append_of_ne (h : skipBlanks cs ≠ []) : skipBlanks (cs ++ tail) = skipBlanks cs ++ tail :=
  (span_append_of_ended tail (.inl h)).2

theorem readValue_quote_append {q : Char} {rest : List Char} (hq : q = '"' ∨ q = '\'') (heq : skipBlanks cs = q :: rest)
    (h : (rest.contains q && (skipPast q rest).contains ']') = true) :
    readValue (cs ++ tail) = ((readValue cs).1, (readValue cs).2 ++ tail) := by
  simp only [Bool.and_eq_true, List.contains_iff_mem] at h
  obtain ⟨htake, hskip⟩ := takeWhile_append_of_mem h.1 tail
  have hclose := (takeWhile_append_of_mem h.2 tail).2
  have hquote : skipBlanks (cs ++ tail) = q :: (rest ++ tail) := by
    rw [skipBlanks_append_of_ne (by simp [heq]), heq, List.cons_append]
  rw [readValue_of_quote hq heq, readValue_of_quote hq hquote, htake, hskip, hclose]

theorem readValue_bare (hdouble : ∀ rest, skipBlanks cs = '"' :: rest → False)
    (hsingle : ∀ rest, skipBlanks cs = '\'' :: rest → False) :
    readValue cs =
      (String.ofList (Text.trim ((skipBlanks cs).takeWhile (· ≠ ']'))), skipPast ']' (skipBlanks cs)) := by
  rw [readValue]
  split
  · exact (hdouble _ ‹_›).elim
  · exact (hsingle _ ‹_›).elim
  · rfl

theorem readValue_append (h : valueCloses cs = true) :
    readValue (cs ++ tail) = ((readValue cs).1, (readValue cs).2 ++ tail) := by
  unfold valueCloses at h
  split at h
  · exact readValue_quote_append (.inl rfl) ‹_› h
  · exact readValue_quote_append (.inr rfl) ‹_› h
  · rename_i hdouble hsingle
    rw [List.contains_iff_mem] at h
    have hskip : skipBlanks (cs ++ tail) = skipBlanks cs ++ tail := skipBlanks_append_of_ne (List.ne_nil_of_mem h)
    have hother : ∀ {q : Char}, (∀ rest, skipBlanks cs = q :: rest → False) →
        ∀ rest, skipBlanks (cs ++ tail) = q :: rest → False := by
      intro q hq rest heq
      obtain ⟨c, ds, hcs⟩ := List.exists_cons_of_ne_nil (List.ne_nil_of_mem h)
      rw [hskip, hcs, List.cons_append, List.cons.injEq] at heq
      exact hq ds (heq.1 ▸ hcs)
    obtain ⟨htake, hclose⟩ := takeWhile_append_of_mem h tail
    rw [readValue_bare hdouble hsingle, readValue_bare (hother hdouble) (hother hsingle), hskip, htake, hclose]

theorem readBracket_append (h : bracketCloses cs = true) :
    readBracket (cs ++ tail) = ((readBracket cs).1, (readBracket cs).2 ++ tail) := by
  have hne : cs.dropWhile (!endsBracketName ·) ≠ [] := by
    intro hnil
    rw [bracketCloses, hnil] at h
    exact Bool.false_ne_true h
  obtain ⟨htake, hdrop⟩ := span_append_of_ended tail (.inl hne)
  unfold bracketCloses at h
  rw [readBracket, readBracket, htake, hdrop]
  generalize cs.dropWhile (!endsBracketName ·) = ds at h
  split at h
  · rfl
  · simp only [List.cons_append, readValue_append h]
  · simp [readValue_append h]
  · rename_i hclose hequals hoperator
    rw [List.contains_iff_mem] at h
    have hskip := (takeWhile_append_of_mem h tail).2
    -- there is a second character, so what comes behind does not make the first one an operator
    obtain ⟨c, ds, rfl⟩ := List.exists_cons_of_ne_nil (List.ne_nil_of_mem h)
    have hc : c ≠ ']' := fun heq => hclose ds (by rw [heq])
    have hc' : c ≠ '=' := fun heq => hequals ds (by rw [heq])
    obtain ⟨d, ds, rfl⟩ := List.exists_cons_of_ne_nil (List.ne_nil_of_mem (List.mem_of_ne_of_mem hc.symm h))
    have hd : d ≠ '=' := fun heq => hoperator c ds (by rw [heq])
    simp [hc, hc', hd, ← hskip]

theorem readArgument_append_of_closed {depth : Nat}
    (h : cs = (readArgument depth cs).1 ++ ')' :: (readArgument depth cs).2) :
    readArgument depth (cs ++ tail) = ((readArgument depth cs).1, (readArgument depth cs).2 ++ tail) := by
  induction cs generalizing depth with
  | nil => simp [readArgument] at h
  | cons c cs ih =>
    by_cases hclose : c = ')' ∧ depth = 0
    · obtain ⟨rfl, rfl⟩ := hclose
      rfl
    · have hdepth : c = ')' → 0 < depth := fun hc => Nat.pos_of_ne_zero fun hzero => hclose ⟨hc, hzero⟩
      have hstep := readArgument_cons hdepth
      rw [hstep, List.cons_append, List.cons.injEq] at h
      rw [List.cons_append, hstep, hstep, ih h.2]

/-- A name ends in front of what does not go it on, or before that. -/
theorem name_append_of_head? (cs : List Char) (htail : ∀ c ∈ tail.head?, isNameChar c = false) :
    name (cs ++ tail) = name cs ∧ afterName (cs ++ tail) = afterName cs ++ tail := by
  obtain ⟨htake, hdrop⟩ := span_append_of_ended tail (.inr htail)
  exact ⟨congrArg String.ofList htake, hdrop⟩

theorem readPseudoClass_of_bare (h : ∀ rest, afterName cs = '(' :: rest → False) :
    readPseudoClass cs = (.ofText (name cs) none, afterName cs) := by
  rw [readPseudoClass]
  split
  · exact (h _ ‹_›).elim
  · rfl

theorem readPseudoClass_append (h : argumentCloses cs = true) (htail : Stops tail) :
    readPseudoClass (cs ++ tail) = ((readPseudoClass cs).1, (readPseudoClass cs).2 ++ tail) := by
  obtain ⟨hname, hafter⟩ := name_append_of_head? cs fun c hc => (htail c hc).1
  unfold argumentCloses at h
  split at h
  · rename_i rest heq
    rw [readPseudoClass, readPseudoClass, hname, hafter, heq]
    simp [readArgument_append_of_closed (eq_of_beq h)]
  · rename_i hbare
    have hbare' : ∀ rest, afterName (cs ++ tail) = '(' :: rest → False := by
      intro rest heq
      rw [hafter] at heq
      cases hcs : afterName cs with
      | nil =>
        rw [hcs, List.nil_append] at heq
        exact (htail '(' (congrArg List.head? heq)).2 rfl
      | cons c ds =>
        rw [hcs, List.cons_append, List.cons.injEq] at heq
        exact hbare ds (heq.1 ▸ hcs)
    rw [readPseudoClass_of_bare hbare, readPseudoClass_of_bare hbare', hname, hafter]

/-! ## Compounds -/

/-- Every bracket and every argument of the compound in front of a text is closed in it. -/
inductive Closes : List Char → Prop
  | nil : Closes []
  | id {cs : List Char} (more : Closes (afterName cs)) : Closes ('#' :: cs)
  | ofClass {cs : List Char} (more : Closes (afterName cs)) : Closes ('.' :: cs)
  | bracket {cs : List Char} (closed : bracketCloses cs = true) (more : Closes (readBracket cs).2) : Closes ('[' :: cs)
  | pseudo {cs : List Char} (closed : argumentCloses cs = true) (more : Closes (readPseudoClass cs).2) :
    Closes (':' :: cs)
  | any {cs : List Char} (more : Closes cs) : Closes ('*' :: cs)
  | named {c : Char} {cs : List Char} (starts : startsName c = true) (more : Closes (afterName cs)) : Closes (c :: cs)
  | ended {c : Char} {cs : List Char} (bare : startsCondition c = false) : Closes (c :: cs)

theorem readCompound_append (h : Closes cs) (htail : EndsCompound tail) (p : HtmlQuery.Compound) :
    readCompound p (cs ++ tail) = ((readCompound p cs).1, (readCompound p cs).2 ++ tail) := by
  have hname : ∀ cs : List Char, name (cs ++ tail) = name cs ∧ afterName (cs ++ tail) = afterName cs ++ tail :=
    fun cs => name_append_of_head? cs fun c hc => (htail.stops c hc).1
  induction h generalizing p with
  | nil =>
    rw [List.nil_append, readCompound_ended p htail.bare, readCompound]
    rfl
  | @id cs more ih =>
    rw [List.cons_append, readCompound_id, readCompound_id, (hname cs).1, (hname cs).2]
    exact ih _
  | @ofClass cs more ih =>
    rw [List.cons_append, readCompound_class, readCompound_class, (hname cs).1, (hname cs).2]
    exact ih _
  | bracket closed more ih =>
    rw [List.cons_append, readCompound_bracket, readCompound_bracket, readBracket_append closed]
    exact ih _
  | pseudo closed more ih =>
    rw [List.cons_append, readCompound_pseudo, readCompound_pseudo, readPseudoClass_append closed htail.stops]
    exact ih _
  | any more ih =>
    rw [List.cons_append, readCompound_any, readCompound_any]
    exact ih _
  | @named c cs starts more ih =>
    rw [List.cons_append, readCompound_named _ _ starts, readCompound_named _ _ starts, ← List.cons_append,
      (hname (c :: cs)).1, (hname cs).2]
    exact ih _
  | @ended c cs bare =>
    have hends : ∀ ds, readCompound p (c :: ds) = (p, c :: ds) := fun ds =>
      readCompound_ended p fun d hd => Option.some.inj hd ▸ bare
    rw [List.cons_append, hends, hends]
    rfl

/-! ## Groups -/

/-- A text is compounds with combinators between them, and every bracket and every argument in it is closed. -/
inductive Complete : List Char → Prop
  | last {cs : List Char} (opens : Opens cs) (closes : Closes cs) (whole : (readCompound .any cs).2 = []) : Complete cs
  | more {cs mid rest : List Char} {c : Combinator} (opens : Opens cs) (closes : Closes cs)
    (compound : (readCompound .any cs).2 = mid)
    (joint : readCombinator (isSpaced mid) (skipBlanks mid) = some (c, rest)) (more : Complete rest) : Complete cs

theorem Complete.opens (h : Complete cs) : Opens cs := by
  cases h with
  | last opens => exact opens
  | more opens => exact opens

theorem readCombinator_append {c : Combinator} {rest : List Char} (tail : List Char)
    (h : readCombinator (isSpaced cs) (skipBlanks cs) = some (c, rest)) (hne : rest ≠ []) :
    readCombinator (isSpaced (cs ++ tail)) (skipBlanks (cs ++ tail)) = some (c, rest ++ tail) := by
  have hblanks : skipBlanks cs ≠ [] := by
    intro hnil
    rw [hnil] at h
    exact absurd h.symm (Option.some_ne_none _)
  have hspaced : isSpaced (cs ++ tail) = isSpaced cs := by
    rw [isSpaced, skipBlanks_append_of_ne hblanks, List.length_append, List.length_append, isSpaced]
    simp
  rw [hspaced, skipBlanks_append_of_ne hblanks]
  generalize skipBlanks cs = ds at h hblanks
  obtain ⟨d, ds, rfl⟩ := List.exists_cons_of_ne_nil hblanks
  by_cases hsign : ∃ c' : Combinator, c' ≠ .descendant ∧ d = c'.sign
  · obtain ⟨c', hc', rfl⟩ := hsign
    rw [readCombinator_sign hc', Option.some.injEq, Prod.mk.injEq] at h
    obtain ⟨rfl, rfl⟩ := h
    rw [List.cons_append, readCombinator_sign hc', skipBlanks_append_of_ne hne]
  · have hunsigned : ∀ c' : Combinator, c' ≠ .descendant → d ≠ c'.sign := fun c' hc' heq => hsign ⟨c', hc', heq⟩
    rw [readCombinator_unsigned hunsigned] at h
    rw [List.cons_append, readCombinator_unsigned hunsigned]
    split at h
    · rename_i hblank
      obtain ⟨rfl, rfl⟩ := Prod.mk.inj (Option.some.inj h)
      rw [if_pos hblank, List.cons_append]
    · exact absurd h.symm (Option.some_ne_none _)

/-- A complete group is read first, whatever comes behind it, and then what comes behind it. -/
theorem Complete.readMore_append (h : Complete cs) (htail : EndsCompound tail)
    (add : HtmlQuery.Compound → HtmlQuery.Group) :
    readMore (add (readCompound .any (cs ++ tail)).1) (readCompound .any (cs ++ tail)).2 =
      readMore (readMore (add (readCompound .any cs).1) (readCompound .any cs).2) tail := by
  induction h generalizing add with
  | last opens closes whole =>
    rw [readCompound_append closes htail, whole, readMore_nil, List.nil_append]
  | more opens closes compound joint more ih =>
    have hjoint := readCombinator_append tail joint more.opens.ne_nil
    rw [readCompound_append closes htail, compound, readMore_push joint more.opens,
      readMore_push hjoint (more.opens.append tail)]
    exact ih _

/-- A group is read as far as it is complete, and then what comes behind it. -/
theorem Complete.readGroup_append (h : Complete cs) (htail : EndsCompound tail) :
    readGroup (cs ++ tail) = readMore (readGroup cs) tail := by
  rw [readGroup_of_opens (h.opens.append tail), readGroup_of_opens h.opens]
  exact h.readMore_append htail fun p => ⟨[p], []⟩

/-! ## Written groups are complete -/

theorem valueCloses_value (gap : Blanks) (value : Value) (behind : Blanks) (rest : List Char) :
    valueCloses (gap.chars ++ '"' :: (value.chars ++ '"' :: (behind.chars ++ ']' :: rest))) = true := by
  have hquote : ∀ d ∈ ('"' :: (value.chars ++ '"' :: (behind.chars ++ ']' :: rest))).head?,
      Text.isWhitespace d = false := fun d hd => Option.some.inj hd ▸ rfl
  rw [valueCloses, skipBlanks_append gap hquote]
  simp [skipPast_append value.no_quote]

theorem bracketCloses_present (before : Blanks) (name : Name) (behind : Blanks) (rest : List Char) :
    bracketCloses (before.chars ++ name.chars ++ behind.chars ++ ']' :: rest) = true := by
  have hend : ∀ d ∈ (']' :: rest).head?, endsBracketName d = true := by simp [endsBracketName]
  rw [bracketCloses, (bracketName_append before name behind hend).2]
  rfl

theorem bracketCloses_compares (before : Blanks) (name : Name) (behind : Blanks) (comparison : Comparison)
    {rest : List Char} (hvalue : valueCloses rest = true) :
    bracketCloses (before.chars ++ name.chars ++ behind.chars ++ (comparison.operator.toList ++ rest)) = true := by
  have hend : ∀ d ∈ (comparison.operator.toList ++ rest).head?, endsBracketName d = true := by
    cases comparison <;> simp [Comparison.operator, endsBracketName]
  rw [bracketCloses, (bracketName_append before name behind hend).2]
  cases comparison <;> exact hvalue

theorem argumentCloses_bare (name : Name) (hrest : Stops tail) : argumentCloses (name.chars ++ tail) = true := by
  rw [argumentCloses, (name_append name fun d hd => (hrest d hd).1).2]
  split
  · rename_i ds
    exact absurd rfl (hrest '(' rfl).2
  · rfl

theorem argumentCloses_argument (name : Name) (argument : Argument) (rest : List Char) :
    argumentCloses (name.chars ++ '(' :: (argument.chars ++ ')' :: rest)) = true := by
  have hparen : ∀ d ∈ ('(' :: (argument.chars ++ ')' :: rest)).head?, isNameChar d = false :=
    fun d hd => Option.some.inj hd ▸ by decide
  rw [argumentCloses, (name_append name hparen).2]
  simp [readArgument_argument]

theorem closes_condition (c : Condition) (hrest : Stops tail) (h : Closes tail) : Closes (c.text ++ tail) := by
  have hname : ∀ d ∈ tail.head?, isNameChar d = false := fun d hd => (hrest d hd).1
  cases c with
  | id name => exact .id ((name_append name hname).2.symm ▸ h)
  | ofClass name => exact .ofClass ((name_append name hname).2.symm ▸ h)
  | present before name behind =>
    rw [Condition.text, List.cons_append, List.append_assoc, List.singleton_append]
    exact .bracket (bracketCloses_present before name behind tail) (by rw [readBracket_present]; exact h)
  | compares before name behind comparison gap value last =>
    have hvalue := valueCloses_value gap value last tail
    rw [text_compares_append]
    exact .bracket (bracketCloses_compares before name behind comparison hvalue) (by rw [readBracket_compares]; exact h)
  | pseudo name argument =>
    cases argument with
    | none =>
      rw [Condition.text, List.cons_append]
      exact .pseudo (argumentCloses_bare name hrest) (by rw [readPseudoClass_bare name hrest]; exact h)
    | some argument =>
      rw [text_argument_append]
      exact .pseudo (argumentCloses_argument name argument tail) (by rw [readPseudoClass_argument]; exact h)

theorem closes_compound (p : Written.Compound) (hrest : EndsCompound tail) : Closes (p.text ++ tail) := by
  have htail : Closes tail := by
    cases tail with
    | nil => exact .nil
    | cons c ds => exact .ended (hrest.bare c rfl)
  have hconditions : ∀ cs : List Condition, Closes (cs.flatMap Condition.text ++ tail) := by
    intro cs
    induction cs with
    | nil => exact htail
    | cons c cs ih =>
      rw [List.flatMap_cons, List.append_assoc]
      exact closes_condition c (stops_conditions cs hrest.stops) ih
  rw [Written.Compound.text, List.append_assoc]
  cases p.tag with
  | none => exact hconditions _
  | some tag =>
    cases tag with
    | any => exact .any (hconditions _)
    | named tag =>
      obtain ⟨c, cs, hcs, hstart, hskip⟩ := tagName_append tag fun c hc =>
        (stops_conditions p.conditions hrest.stops c hc).1
      dsimp only [Option.map_some, Option.getD_some]
      rw [Tag.text, hcs, List.cons_append]
      exact .named hstart (hskip.symm ▸ hconditions _)

/-- What is written is complete, if blanks right behind a compound start with one of ASCII. -/
theorem complete_group (first : Written.Compound) (ms : List (Joint × Written.Compound))
    (hspaced : ∀ m ∈ ms, ∀ c ∈ m.1.before.chars.head?, c.toNat < 0x80) :
    Complete (first.text ++ ms.flatMap fun m => m.1.text ++ m.2.text) := by
  induction ms generalizing first with
  | nil =>
    rw [List.flatMap_nil, List.append_nil]
    have hends : EndsCompound [] := ⟨nofun, nofun⟩
    have hread := readCompound_compound first hends
    have hcloses := closes_compound first hends
    rw [List.append_nil] at hread hcloses
    exact .last first.opens hcloses (congrArg Prod.snd hread)
  | cons m ms ih =>
    have hmore := endsCompound_more (m :: ms) hspaced
    obtain ⟨-, hms⟩ := List.forall_mem_cons.1 hspaced
    have hread := readCompound_compound first hmore
    have hjoint := readCombinator_joint m.1 (m.2.opens.append (ms.flatMap fun m => m.1.text ++ m.2.text))
    have hmid : (m :: ms).flatMap (fun m => m.1.text ++ m.2.text) =
        m.1.text ++ (m.2.text ++ ms.flatMap fun m => m.1.text ++ m.2.text) := by
      rw [List.flatMap_cons, List.append_assoc]
    rw [← hmid] at hjoint
    exact .more (first.opens.append _) (closes_compound first hmore) (congrArg Prod.snd hread) hjoint (ih m.2 hms)

/-! ## Signs without a compound -/

variable {c : Combinator} {t : List Char}

/-- A sign without a compound behind it is passed over. -/
theorem readMore_dangling (hc : c ≠ .descendant) (w : Blanks)
    (ht : ∀ d ∈ t.head?, Text.isWhitespace d = false ∧ startsCondition d = false) (g : HtmlQuery.Group) :
    readMore g (c.sign :: (w.chars ++ t)) = readMore g t := by
  have hsolid : Text.isWhitespace c.sign = false := by
    cases c with
    | descendant => exact absurd rfl hc
    | _ => decide
  have hskip : skipBlanks (c.sign :: (w.chars ++ t)) = c.sign :: (w.chars ++ t) :=
    List.dropWhile_cons_of_neg (by simp [hsolid])
  have hjoint : readCombinator (isSpaced (c.sign :: (w.chars ++ t))) (skipBlanks (c.sign :: (w.chars ++ t))) =
      some (c, t) := by
    rw [hskip, readCombinator_sign hc, skipBlanks_append w fun d hd => (ht d hd).1]
  have hbare : ¬ t.head?.any startsCondition = true := by
    cases t with
    | nil => exact Bool.false_ne_true
    | cons d ds => simpa using (ht d rfl).2
  rw [readMore_of_joint hjoint, if_neg hbare]

/-- Text that starts with neither a blank nor a sign ends a group. -/
theorem readMore_ended (hsolid : ∀ d ∈ t.head?, Text.isWhitespace d = false)
    (hsign : ∀ c : Combinator, t.head? ≠ some c.sign) (g : HtmlQuery.Group) : readMore g t = g := by
  cases t with
  | nil => exact readMore_nil g
  | cons d ds =>
    have hskip : skipBlanks (d :: ds) = d :: ds := List.dropWhile_cons_of_neg (by simp [hsolid d rfl])
    have hne : ∀ c : Combinator, d ≠ c.sign := fun c heq => hsign c (congrArg some heq)
    refine readMore_of_none ?_
    rw [isSpaced, hskip, decide_eq_false (Nat.lt_irrefl _), readCombinator_unsigned fun c _ => hne c]
    rfl

/-- **Text that cannot go on a group.** Behind a complete group and a sign with nothing to join, text that starts with
no blank and no condition is not read, unless it starts with a sign: then it is read as if it stood right behind the
group. -/
theorem readGroup_dangling (g t : List Char) (c : Combinator) (w : Blanks) (hg : Complete g) (hc : c ≠ .descendant)
    (ht : ∀ d ∈ t.head?, Text.isWhitespace d = false ∧ startsCondition d = false) :
    ((∀ c' : Combinator, t.head? ≠ some c'.sign) → readGroup (g ++ c.sign :: (w.chars ++ t)) = readGroup g) ∧
    ∀ c' : Combinator, t.head? = some c'.sign → readGroup (g ++ c.sign :: (w.chars ++ t)) = readGroup (g ++ t) := by
  rw [hg.readGroup_append (endsCompound_sign hc _), readMore_dangling hc w ht]
  constructor
  · intro hsign
    exact readMore_ended (fun d hd => (ht d hd).1) hsign _
  · intro c' hsign
    obtain ⟨ds, rfl⟩ := List.head?_eq_some_iff.1 hsign
    have hc' : c' ≠ .descendant := by
      rintro rfl
      exact absurd (ht _ rfl).1 (by decide)
    rw [hg.readGroup_append (endsCompound_sign hc' ds)]

theorem readGroup_dangling_items : Complete "Ul > li.x".toList ∧ Combinator.nextSibling ≠ .descendant ∧
    (∀ d ∈ ")b".toList.head?, Text.isWhitespace d = false ∧ startsCondition d = false) ∧
    (∀ c : Combinator, ")b".toList.head? ≠ some c.sign) ∧
    readGroup "Ul > li.x+ )b".toList = readGroup "Ul > li.x".toList := by
  have hspaced : items.first.group.Spaced := by simp [items, Written.Group.Spaced, Joint.before, Blanks.space]
  have htext : items.first.group.text = "Ul > li.x".toList := by decide
  have hg : Complete "Ul > li.x".toList := htext ▸ complete_group items.first.group.first _ hspaced
  have ht : ∀ d ∈ ")b".toList.head?, Text.isWhitespace d = false ∧ startsCondition d = false := by
    intro d hd
    obtain rfl : ')' = d := Option.some.inj hd
    decide
  have hsign : ∀ c : Combinator, ")b".toList.head? ≠ some c.sign := by
    intro c
    cases c <;> decide
  exact ⟨hg, by decide, ht, hsign, (readGroup_dangling _ _ .nextSibling .space hg (by decide) ht).1 hsign⟩

/-- A second sign goes on a group behind the first one. -/
theorem not_readGroup_dangling_sign : ¬ ∀ (g t : List Char) (c : Combinator) (w : Blanks), Complete g →
    c ≠ .descendant → t ≠ [] → (∀ d ∈ t.head?, Text.isWhitespace d = false ∧ startsCondition d = false) →
      readGroup (g ++ c.sign :: (w.chars ++ t)) = readGroup g := by
  intro h
  have hg : Complete "div".toList :=
    .last ⟨'d', _, rfl, by decide, by decide⟩ (.named (by decide) .nil) (by decide +kernel)
  have ht : ∀ d ∈ ['>', ' ', 'p'].head?, Text.isWhitespace d = false ∧ startsCondition d = false :=
    fun d hd => Option.some.inj hd ▸ by decide
  have hgroup := h _ ['>', ' ', 'p'] .child .space hg (by decide) (by decide) ht
  exact absurd (congrArg (·.parts.length) hgroup) (by decide +kernel)

end HtmlQuery.SelectorList
