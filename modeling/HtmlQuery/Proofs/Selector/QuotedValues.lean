import HtmlQuery.Proofs.Selector.ReadBack
import Mathlib.Data.List.Infix

/-!
# Quoted values

A value between quotes is looked at by three readers. The text is divided by one that knows quotes and backslashes,
attribute values are read by one that knows quotes alone, and arguments by one that knows parentheses alone. They agree
on where the value ends exactly if no backslash takes the closing quote out of the count (`EndsEscaped`) and, in an
argument, if the parentheses of the value are balanced (`readArgument_quoted`, `covered_of_readArgument`). A name in
brackets is read without the blanks around it. So a comma behind a quoted value divides, and the value is what stands
between the quotes, under these conditions and no weaker ones (`parse_quoted_iff`).
-/

namespace HtmlQuery.SelectorList

open Written

/-! ## Inside quotes -/

/-- The run of backslashes at the end is odd, so the last of them takes the next character out of the count. -/
def EndsEscaped (cs : List Char) : Prop := (cs.reverse.takeWhile (· = '\\')).length % 2 = 1

instance (cs : List Char) : Decidable (EndsEscaped cs) := inferInstanceAs (Decidable (_ = _))

theorem endsEscaped_concat (cs : List Char) (c : Char) :
    EndsEscaped (cs ++ [c]) ↔ c = '\\' ∧ ¬ EndsEscaped cs := by
  rw [EndsEscaped, EndsEscaped, List.reverse_concat, List.takeWhile_cons]
  by_cases hc : c = '\\'
  · simp only [hc, decide_true, if_true, List.length_cons, true_and]
    omega
  · simp [hc]

namespace Nesting

variable {p b : Nat} {q : Char} {cs : List Char}

theorem after_quoted {c : Char} (hc : c ≠ q) (escaped : Bool) :
    after ⟨p, b, some q, escaped⟩ c = ⟨p, b, some q, !escaped && c = '\\'⟩ := by
  cases escaped with
  | true => rfl
  | false =>
    by_cases hbackslash : c = '\\'
    · simp [after, hbackslash]
    · simp [after, hbackslash, hc]

theorem afterAll_quoted (hcs : q ∉ cs) :
    afterAll ⟨p, b, some q, false⟩ cs = ⟨p, b, some q, decide (EndsEscaped cs)⟩ := by
  induction cs using List.reverseRecOn with
  | nil => rfl
  | append_singleton cs c ih =>
    rw [List.mem_append, not_or, List.mem_singleton] at hcs
    have hstep := after_quoted (p := p) (b := b) (Ne.symm hcs.2) (decide (EndsEscaped cs))
    rw [afterAll, List.foldl_concat, ← afterAll, ih hcs.1, hstep]
    simp [endsEscaped_concat, Bool.and_comm]

/-- In a quote no comma divides. -/
theorem leads_quoted (hcs : q ∉ cs) (escaped : Bool) :
    Leads ⟨p, b, some q, escaped⟩ (afterAll ⟨p, b, some q, escaped⟩ cs) cs := by
  induction cs generalizing escaped with
  | nil => rfl
  | cons c cs ih =>
    rw [List.mem_cons, not_or] at hcs
    refine ⟨fun _ => rfl, ?_⟩
    rw [afterAll, List.foldl_cons, ← afterAll, after_quoted (Ne.symm hcs.1)]
    exact ih hcs.2 _

/-- A closing quote that is not taken out of the count ends the value. -/
theorem leads_closed_quote (hq : q ≠ '\\') (hcs : q ∉ cs) (h : ¬ EndsEscaped cs) :
    Leads ⟨p, b, some q, false⟩ ⟨p, b, none, false⟩ (cs ++ [q]) := by
  have hvalue := leads_quoted (p := p) (b := b) hcs false
  rw [afterAll_quoted hcs, decide_eq_false h] at hvalue
  exact hvalue.append ⟨fun _ => rfl, by simp [after, hq, Leads]⟩

/-- One that is taken out of the count is part of the value. -/
theorem leads_escaped_quote (hcs : q ∉ cs) (h : EndsEscaped cs) :
    Leads ⟨p, b, some q, false⟩ ⟨p, b, some q, false⟩ (cs ++ [q]) := by
  have hvalue := leads_quoted (p := p) (b := b) hcs false
  rw [afterAll_quoted hcs, decide_eq_true h] at hvalue
  exact hvalue.append ⟨fun _ => rfl, rfl⟩

end Nesting

open Nesting

/-! ## Pieces -/

/-- Two groups: a compound alone, and the tag `b` alone. -/
def orB (compound : HtmlQuery.Compound) : HtmlQuery.SelectorList :=
  ⟨[⟨[compound], []⟩, ⟨[{ HtmlQuery.Compound.any with tag := some "b" }], []⟩]⟩

section
variable {p b : Nat} {q : Char} {front v back rest : List Char}

/-- The comma behind a quoted value divides unless the closing quote is taken out of the count. -/
theorem split_quoted (hq : q ≠ '\\') (hfront : outermost.Leads ⟨p, b, some q, false⟩ front) (hv : q ∉ v)
    (hback : Leads ⟨p, b, none, false⟩ outermost back) (hbehind : q ∉ back ++ ',' :: rest) :
    split (front ++ (v ++ q :: back) ++ ',' :: rest) =
      if EndsEscaped v then [front ++ (v ++ q :: back) ++ ',' :: rest]
      else (front ++ (v ++ q :: back)) :: split rest := by
  split
  · rename_i hescaped
    have hall := hfront.append ((leads_escaped_quote hv hescaped).append (leads_quoted hbehind false))
    simp only [List.append_assoc, List.cons_append] at hall ⊢
    exact split_of_leads hall
  · rename_i hunescaped
    have hclosed := hfront.append ((leads_closed_quote hq hv hunescaped).append hback)
    rw [List.append_assoc v, List.singleton_append] at hclosed
    exact split_closed hclosed rest

/-- A compound with a quoted value stands alone in front of the comma if the closing quote counts and what is read in
front of the comma is that compound. -/
theorem parse_eq_orB_iff (hq : q = '"' ∨ q = '\'') (hfront : outermost.Leads ⟨p, b, some q, false⟩ front) (hv : q ∉ v)
    (hback : Leads ⟨p, b, none, false⟩ outermost back) (hbehind : q ∉ back) (hopens : Opens front)
    (hends : EndsSolid back) {s : String} (hs : s.toList = front ++ (v ++ q :: back) ++ [',', ' ', 'b'])
    (compound : HtmlQuery.Compound) :
    parse s = orB compound ↔ ¬ EndsEscaped v ∧ readGroup (front ++ (v ++ q :: back)) = ⟨[compound], []⟩ := by
  have hbackslash : q ≠ '\\' := by rcases hq with rfl | rfl <;> decide
  have hcomma : q ∉ back ++ [',', ' ', 'b'] := by rcases hq with rfl | rfl <;> simp [hbehind]
  have hb : readGroup (Text.trim [' ', 'b']) = ⟨[{ HtmlQuery.Compound.any with tag := some "b" }], []⟩ := by
    decide +kernel
  have hpiece : EndsSolid (front ++ (v ++ q :: back)) := ((hends.append [q]).append v).append front
  have htrim : Text.trim (front ++ (v ++ q :: back)) = front ++ (v ++ q :: back) := by
    simpa [Blanks.none] using trim_blanks .none .none (hopens.append (v ++ q :: back)) hpiece
  rw [parse, hs, split_quoted hbackslash hfront hv hback hcomma]
  split
  · rename_i hescaped
    simp [orB, hescaped]
  · rename_i hunescaped
    have hrest : split [' ', 'b'] = [[' ', 'b']] := rfl
    rw [hrest, List.map_cons, List.map_cons, htrim, hb]
    simp [orB, hunescaped]

end

/-! ## Brackets -/

theorem not_mark_of_isNameChar {c : Char} (h : isNameChar c = true) : c ∉ marks := by
  by_cases hascii : c.toNat < 0x80
  · exact Text.forall_ascii (p := fun c => isNameChar c = true → c ∉ marks) (by decide +kernel) hascii h
  · have hall : ∀ d ∈ marks, d.toNat < 0x80 := by simp [marks]
    exact fun hmem => hascii (hall c hmem)

section
variable {q : Char} {n v : List Char}

theorem readBracket_quoted (hq : q = '"' ∨ q = '\'') (hv : q ∉ v) (hn : ∀ c ∈ n, isNameChar c = true)
    (rest : List Char) : readBracket (n ++ '=' :: q :: (v ++ q :: ']' :: rest)) =
      (some (.compares .equals (String.ofList (Text.trim n)) (String.ofList v)), rest) := by
  have hname : ∀ c ∈ n, (!endsBracketName c) = true := by
    intro c hc
    have hmark := not_mark_of_isNameChar (hn c hc)
    simp only [marks, List.mem_cons, List.not_mem_nil, or_false, not_or] at hmark
    simp [endsBracketName, hmark]
  have hend : ∀ c ∈ ('=' :: q :: (v ++ q :: ']' :: rest)).head?, (!endsBracketName c) = false := by
    simp [endsBracketName]
  obtain ⟨htake, hdrop⟩ := Text.span_append hname hend
  have hvalue : readValue (q :: (v ++ q :: ']' :: rest)) = (String.ofList v, rest) :=
    readValue_quoted hq hv .none .none
  rw [readBracket, htake, hdrop]
  show (AttributeCondition.ofOperator? "=" _ (readValue (q :: (v ++ q :: ']' :: rest))).1,
    (readValue (q :: (v ++ q :: ']' :: rest))).2) = _
  rw [hvalue]
  rfl

theorem readGroup_bracket (hq : q = '"' ∨ q = '\'') (hv : q ∉ v) (hn : ∀ c ∈ n, isNameChar c = true) :
    readGroup ('[' :: (n ++ '=' :: q :: (v ++ [q, ']']))) =
      ⟨[{ HtmlQuery.Compound.any with attributes :=
        [.compares .equals (String.ofList (Text.trim n)) (String.ofList v)] }], []⟩ := by
  have hread : readCompound .any ('[' :: (n ++ '=' :: q :: (v ++ [q, ']']))) =
      ({ HtmlQuery.Compound.any with attributes :=
        [.compares .equals (String.ofList (Text.trim n)) (String.ofList v)] }, []) := by
    rw [readCompound_bracket, readBracket_quoted hq hv hn, readCompound]
    rfl
  rw [readGroup_of_opens ⟨'[', _, rfl, by decide, by decide⟩, hread, readMore_nil]

end

/-! ## Arguments -/

section
variable {q : Char} {v : List Char}

/-- Balanced parentheses do not end an argument. -/
theorem readArgument_quoted (hopener : q ≠ '(') (hcloser : q ≠ ')') (h : Balanced '(' ')' v) :
    readArgument 0 (v ++ [q, ')']) = (v ++ [q], []) := by
  rw [readArgument_append h.covered_zero, h.foldl_shift (by decide), readArgument_cons (fun hc => absurd hc hcloser)]
  simp [shift, hopener, hcloser, readArgument]

/-- An argument that is read to its closing quote has balanced parentheses in front of it. -/
theorem covered_of_readArgument (hopener : q ≠ '(') (hcloser : q ≠ ')') {depth : Nat}
    (hread : (readArgument depth (v ++ [q, ')'])).1 = v ++ [q]) :
    Covered '(' ')' depth v ∧ v.foldl (shift '(' ')') depth = 0 := by
  induction v generalizing depth with
  | nil =>
    cases depth with
    | zero => exact ⟨by simp [Covered], rfl⟩
    | succ depth =>
      rw [List.nil_append, readArgument_cons (fun _ => Nat.succ_pos depth)] at hread
      simp [shift, hopener, hcloser, readArgument] at hread
  | cons c v ih =>
    by_cases hend : c = ')' ∧ depth = 0
    · obtain ⟨rfl, rfl⟩ := hend
      exact absurd hread (List.cons_ne_nil _ _).symm
    · have hopen : c = ')' → 0 < depth := fun hc => Nat.pos_of_ne_zero fun hzero => hend ⟨hc, hzero⟩
      rw [List.cons_append, readArgument_cons hopen] at hread
      obtain ⟨hcovered, hlevel⟩ := ih (List.cons.inj hread).2
      exact ⟨hcovered.cons hopen (by decide), hlevel⟩

/-- What stands between two quotes is the value only if the second one is the last character. -/
theorem unquote_eq_iff (hq : q = '"' ∨ q = '\'') (hv : q ∉ v) (rest : List Char) :
    PseudoClass.unquote (String.ofList (q :: rest)) = String.ofList v ↔ rest = v ++ [q] := by
  have hunquote : PseudoClass.unquote (String.ofList (q :: rest)) =
      if rest.getLast? = some q then String.ofList rest.dropLast else String.ofList (q :: rest) := by
    by_cases hlast : rest.getLast? = some q
    · rcases hq with rfl | rfl <;> simp [PseudoClass.unquote, PseudoClass.unquoteBy, hlast]
    · rcases hq with rfl | rfl <;> simp [PseudoClass.unquote, PseudoClass.unquoteBy, hlast]
  rw [hunquote]
  constructor
  · split
    · rename_i hlast
      intro heq
      rw [← String.ofList_inj.1 heq, List.dropLast_append_getLast? q hlast]
    · intro heq
      exact absurd (String.ofList_inj.1 heq ▸ List.mem_cons_self) hv
  · rintro rfl
    simp

theorem pseudoClasses_prefix_readCompound (p : HtmlQuery.Compound) (cs : List Char) :
    p.pseudoClasses <+: (readCompound p cs).1.pseudoClasses := by
  fun_induction readCompound p cs with
  | case1 => exact List.prefix_refl _
  | case2 p rest ih =>
    refine List.IsPrefix.trans ?_ ih
    split <;> exact List.prefix_refl _
  | case3 p rest _ ih => exact ih
  | case4 p rest _ _ ih => exact ih
  | case5 p rest _ _ _ ih => exact (List.prefix_append ..).trans ih
  | case6 p rest _ _ _ _ ih => exact ih
  | case7 p c rest _ _ _ _ _ _ ih => exact ih
  | case8 => exact List.prefix_refl _

theorem parts_prefix_readMore (g : HtmlQuery.Group) (cs : List Char) : g.parts <+: (readMore g cs).parts := by
  fun_induction readMore g cs with
  | case1 => exact List.prefix_refl _
  | case2 g cs c rest h _ ih => exact (List.prefix_append ..).trans ih
  | case3 g cs c rest h _ ih => exact ih

theorem readPseudoClass_contains (hq : q = '"' ∨ q = '\'') (cs : List Char) :
    readPseudoClass ("contains(".toList ++ q :: cs) =
      (.contains (some (PseudoClass.unquote (String.ofList (q :: (readArgument 0 cs).1)))), (readArgument 0 cs).2) := by
  have hname : name ("contains(".toList ++ q :: cs) = "contains" := rfl
  have hafter : afterName ("contains(".toList ++ q :: cs) = '(' :: q :: cs := rfl
  have hargument : readArgument 0 (q :: cs) = (q :: (readArgument 0 cs).1, (readArgument 0 cs).2) := by
    rcases hq with rfl | rfl <;> rfl
  have hcontains : PseudoClass.ofText "contains" (some (String.ofList (q :: (readArgument 0 cs).1))) =
      .contains (some (PseudoClass.unquote (String.ofList (q :: (readArgument 0 cs).1)))) := by
    have hknown : PseudoName.ofText? "contains" = some .contains := by decide
    simp [PseudoClass.ofText, hknown, PseudoClass.argument, PseudoClass.ofName]
  rw [readPseudoClass, hname, hafter]
  show (PseudoClass.ofText "contains" (some (String.ofList (readArgument 0 (q :: cs)).1)),
    (readArgument 0 (q :: cs)).2) = _
  rw [hargument, hcontains]

/-- The group is the one condition if the parentheses of the value are balanced, and only then. -/
theorem readGroup_contains_iff (hq : q = '"' ∨ q = '\'') (hv : q ∉ v) :
    readGroup (':' :: ("contains(".toList ++ q :: (v ++ [q, ')']))) =
      ⟨[{ HtmlQuery.Compound.any with pseudoClasses := [.contains (some (String.ofList v))] }], []⟩ ↔
    Balanced '(' ')' v := by
  have hopener : q ≠ '(' := by rcases hq with rfl | rfl <;> decide
  have hcloser : q ≠ ')' := by rcases hq with rfl | rfl <;> decide
  have hread : readCompound .any (':' :: ("contains(".toList ++ q :: (v ++ [q, ')']))) =
      readCompound { HtmlQuery.Compound.any with pseudoClasses :=
        [.contains (some (PseudoClass.unquote (String.ofList (q :: (readArgument 0 (v ++ [q, ')'])).1))))] }
        (readArgument 0 (v ++ [q, ')'])).2 := by
    rw [readCompound_pseudo, readPseudoClass_contains hq]
    rfl
  rw [readGroup_of_opens ⟨':', _, rfl, by decide, by decide⟩, hread]
  constructor
  · intro hgroup
    -- What is read behind the condition only adds to the compound and to the group.
    have hparts := hgroup ▸ parts_prefix_readMore ⟨[(readCompound _ _).1], []⟩ (readCompound _ _).2
    have hfirst := (List.cons_prefix_cons.1 hparts).1
    have hconditions := hfirst ▸ pseudoClasses_prefix_readCompound _ _
    have hcontains := (List.cons_prefix_cons.1 hconditions).1
    rw [PseudoClass.contains.injEq, Option.some.injEq, unquote_eq_iff hq hv] at hcontains
    obtain ⟨hcovered, hlevel⟩ := covered_of_readArgument hopener hcloser hcontains
    exact hcovered.balanced (by decide) hlevel
  · intro hbalanced
    rw [readArgument_quoted hopener hcloser hbalanced, (unquote_eq_iff hq hv _).2 rfl, readCompound, readMore_nil]

end

/-! ## Both forms -/

/-- The value between two quotes. -/
def quoted (q : Char) (v : String) : String := String.singleton q ++ v ++ String.singleton q

section
variable {q : Char} {v : String}

theorem leads_opening_quote (hq : q = '"' ∨ q = '\'') (p b : Nat) :
    Leads ⟨p, b, none, false⟩ ⟨p, b, some q, false⟩ [q] := by
  rcases hq with rfl | rfl
  · exact ⟨fun hcomma => absurd hcomma (by decide), rfl⟩
  · exact ⟨fun hcomma => absurd hcomma (by decide), rfl⟩

/-- An attribute value stands for itself, with the name as it is written, if the name has no blanks around it and the
closing quote counts. -/
theorem parse_bracket_iff (hq : q = '"' ∨ q = '\'') (hv : q ∉ v.toList) {n : String}
    (hn : ∀ c ∈ n.toList, isNameChar c = true) : parse ("[" ++ n ++ "=" ++ quoted q v ++ "], b") =
      orB { HtmlQuery.Compound.any with attributes := [.compares .equals n v] } ↔
    Text.trimmed n = n ∧ ¬ EndsEscaped v.toList := by
  have hname : Leads ⟨0, 1, none, false⟩ ⟨0, 1, none, false⟩ (n.toList ++ ['=']) :=
    (leads_plain rfl fun c hc => not_mark_of_isNameChar (hn c hc)).append (by decide)
  have hfront : outermost.Leads ⟨0, 1, some q, false⟩ ('[' :: (n.toList ++ ['='] ++ [q])) :=
    ⟨by decide, hname.append (leads_opening_quote hq 0 1)⟩
  have hback : Leads ⟨0, 1, none, false⟩ outermost [']'] := by decide
  have hbehind : q ∉ [']'] := by rcases hq with rfl | rfl <;> decide
  have hs : ("[" ++ n ++ "=" ++ quoted q v ++ "], b").toList =
      '[' :: (n.toList ++ ['='] ++ [q]) ++ (v.toList ++ [q, ']']) ++ [',', ' ', 'b'] := by simp [quoted]
  have hpiece : '[' :: (n.toList ++ ['='] ++ [q]) ++ (v.toList ++ [q, ']']) =
      '[' :: (n.toList ++ '=' :: q :: (v.toList ++ [q, ']'])) := by simp
  rw [parse_eq_orB_iff hq hfront hv hback hbehind ⟨'[', _, rfl, by decide, by decide⟩ ⟨']', rfl, by decide⟩ hs,
    hpiece, readGroup_bracket hq hv hn]
  simp [Text.trimmed, and_comm]

/-- An argument stands for the value between the quotes if its parentheses are balanced and the closing quote counts. -/
theorem parse_contains_iff (hq : q = '"' ∨ q = '\'') (hv : q ∉ v.toList) :
    parse (":contains(" ++ quoted q v ++ "), b") =
      orB { HtmlQuery.Compound.any with pseudoClasses := [.contains (some v)] } ↔
    Balanced '(' ')' v.toList ∧ ¬ EndsEscaped v.toList := by
  have hname : outermost.Leads ⟨1, 0, none, false⟩ (':' :: "contains(".toList) := by decide
  have hfront := hname.append (leads_opening_quote hq 1 0)
  have hback : Leads ⟨1, 0, none, false⟩ outermost [')'] := by decide
  have hbehind : q ∉ [')'] := by rcases hq with rfl | rfl <;> decide
  have hs : (":contains(" ++ quoted q v ++ "), b").toList =
      ':' :: "contains(".toList ++ [q] ++ (v.toList ++ [q, ')']) ++ [',', ' ', 'b'] := by simp [quoted]
  have hpiece : ':' :: "contains(".toList ++ [q] ++ (v.toList ++ [q, ')']) =
      ':' :: ("contains(".toList ++ q :: (v.toList ++ [q, ')'])) := by simp
  have hgroup := readGroup_contains_iff hq hv
  rw [String.ofList_toList] at hgroup
  rw [parse_eq_orB_iff hq hfront hv hback hbehind ⟨':', _, rfl, by decide, by decide⟩ ⟨')', rfl, by decide⟩ hs,
    hpiece, hgroup, and_comm]

/-- **What makes a quoted value opaque.** Between quotes that it does not contain, a value stands for itself and the
comma behind it divides exactly if no backslash of it takes the closing quote out of the count and, in a bracket, the
name has no blanks around it or, in an argument, the parentheses of the value are balanced. -/
theorem parse_quoted_iff (hq : q = '"' ∨ q = '\'') (hv : q ∉ v.toList) :
    (∀ n : String, (∀ c ∈ n.toList, isNameChar c = true) →
      (parse ("[" ++ n ++ "=" ++ quoted q v ++ "], b") =
          orB { HtmlQuery.Compound.any with attributes := [.compares .equals n v] } ↔
        Text.trimmed n = n ∧ ¬ EndsEscaped v.toList)) ∧
    (parse (":contains(" ++ quoted q v ++ "), b") =
        orB { HtmlQuery.Compound.any with pseudoClasses := [.contains (some v)] } ↔
      Balanced '(' ')' v.toList ∧ ¬ EndsEscaped v.toList) :=
  ⟨fun _ hn => parse_bracket_iff hq hv hn, parse_contains_iff hq hv⟩

/-- Commas, brackets, balanced parentheses, the other quote and an even run of backslashes are read as they stand. -/
theorem parse_quoted_nested : '\'' ∉ "f(x, \"y]\"), \\\\".toList ∧ (∀ c ∈ "data-é".toList, isNameChar c = true) ∧
    parse ("[" ++ "data-é" ++ "=" ++ quoted '\'' "f(x, \"y]\"), \\\\" ++ "], b") = orB { HtmlQuery.Compound.any with
      attributes := [.compares .equals "data-é" "f(x, \"y]\"), \\\\"] } ∧
    parse (":contains(" ++ quoted '\'' "f(x, \"y]\"), \\\\" ++ "), b") = orB { HtmlQuery.Compound.any with
      pseudoClasses := [.contains (some "f(x, \"y]\"), \\\\")] } := by
  have hv : '\'' ∉ "f(x, \"y]\"), \\\\".toList := by decide
  have hn : ∀ c ∈ "data-é".toList, isNameChar c = true := List.all_eq_true.1 rfl
  have hunescaped : ¬ EndsEscaped "f(x, \"y]\"), \\\\".toList := by decide
  have hbalanced : Balanced '(' ')' "f(x, \"y]\"), \\\\".toList := by
    have hall : ∀ pre ∈ "f(x, \"y]\"), \\\\".toList.inits, pre.count ')' ≤ pre.count '(' := by decide
    exact ⟨by decide, fun pre hpre => hall pre ((List.mem_inits _ _).2 hpre)⟩
  exact ⟨hv, hn, ((parse_quoted_iff (.inr rfl) hv).1 "data-é" hn).2 ⟨by decide, hunescaped⟩,
    (parse_quoted_iff (.inr rfl) hv).2.2 ⟨hbalanced, hunescaped⟩⟩

/-- Not every value is opaque: a backslash takes the closing quote out of the count. Without one a no-break space at the
end of a name is still lost, and a parenthesis in a value ends the argument. -/
theorem not_parse_quoted :
    (¬ ∀ (q : Char) (n v : String), (q = '"' ∨ q = '\'') → q ∉ v.toList → n ≠ "" →
      (∀ c ∈ n.toList, isNameChar c = true) →
      parse ("[" ++ n ++ "=" ++ quoted q v ++ "], b") =
          orB { HtmlQuery.Compound.any with attributes := [.compares .equals n v] } ∧
        parse (":contains(" ++ quoted q v ++ "), b") =
          orB { HtmlQuery.Compound.any with pseudoClasses := [.contains (some v)] }) ∧
    (¬ ∀ n : String, n ≠ "" → (∀ c ∈ n.toList, isNameChar c = true) →
      parse ("[" ++ n ++ "=" ++ quoted '"' "v" ++ "], b") =
        orB { HtmlQuery.Compound.any with attributes := [.compares .equals n "v"] }) ∧
    ¬ ∀ v : String, '"' ∉ v.toList → '\\' ∉ v.toList →
      parse (":contains(" ++ quoted '"' v ++ "), b") =
        orB { HtmlQuery.Compound.any with pseudoClasses := [.contains (some v)] } := by
  refine ⟨fun h => ?_, fun h => ?_, fun h => ?_⟩
  · have hescaped := (h '"' "n" "\\" (.inl rfl) (by decide) (by decide) (List.all_eq_true.1 rfl)).1
    exact absurd hescaped (by decide +kernel)
  · have hblank := h "n\u00A0" (by decide) (List.all_eq_true.1 rfl)
    exact absurd hblank (by decide +kernel)
  · have hparen := h ")" (by decide) (by decide)
    exact absurd hparen (by decide +kernel)

end

end HtmlQuery.SelectorList
