import HtmlQuery.Proofs.Selector.Placement
import HtmlQuery.Proofs.Selector.ReadBack
import HtmlQuery.Proofs.Selector.Union

/-!
# Relative selectors and combinators

`:has` goes down and forward from an element, where a combinator goes up and back. In a well-formed tree the elements
that it meets are those to which the element is related as the combinator says (`mem_relatives_iff`). Blanks around a
selector text do not count (`SelectorList.parse_trimmed`), so what it asks about is the text behind its combinator
(`Relative.ofText_text`), and `:has` with a combinator is the converse of the combinator
(`Session.has_converse`).
-/

namespace HtmlQuery

open Written (Blanks)

/-! ## Blanks around a text -/

theorem Text.trim_between {pre post : List Char} (hpre : ∀ c ∈ pre, isWhitespace c = true)
    (hpost : ∀ c ∈ post, isWhitespace c = true) (cs : List Char) : trim (pre ++ cs ++ post) = trim cs := by
  obtain ⟨first, last, hcs, hfirst, hlast⟩ := exists_trim cs
  have hparts : pre ++ cs ++ post = (pre ++ first) ++ trim cs ++ (last ++ post) := by
    conv => lhs; rw [hcs]
    simp only [List.append_assoc]
  rw [hparts]
  refine trim_append (fun c hc => ?_) (fun _ => not_isWhitespace_of_head?_trim)
    (fun _ => not_isWhitespace_of_getLast?_trim) fun c hc => ?_
  · exact (List.mem_append.1 hc).elim (hpre c) (hfirst c)
  · exact (List.mem_append.1 hc).elim (hlast c) (hpost c)

namespace SelectorList

variable {cs pre post : List Char}

theorem splitFrom_of_not_mem (h : ',' ∉ cs) (n : Nesting) : splitFrom n cs = (cs, []) := by
  induction cs generalizing n with
  | nil => rfl
  | cons c cs ih =>
    rw [List.mem_cons, not_or] at h
    rw [splitFrom_go (fun hc => h.1 hc.1.symm), ih h.2]

/-- What comes behind a text and has no commas goes into its last piece. -/
theorem exists_last_piece (h : ',' ∉ post) (n : Nesting) (cs : List Char) : ∃ front last,
    (splitFrom n cs).1 :: (splitFrom n cs).2 = front ++ [last] ∧
      (splitFrom n (cs ++ post)).1 :: (splitFrom n (cs ++ post)).2 = front ++ [last ++ post] := by
  induction cs generalizing n with
  | nil => exact ⟨[], [], rfl, by rw [List.nil_append, splitFrom_of_not_mem h]; rfl⟩
  | cons c cs ih =>
    rw [List.cons_append]
    by_cases hc : c = ',' ∧ n.divides = true
    · obtain ⟨rfl, hdivides⟩ := hc
      obtain ⟨front, last, hfront, hpost⟩ := ih n
      refine ⟨[] :: front, last, ?_, ?_⟩
      · rw [splitFrom_divide hdivides, hfront, List.cons_append]
      · rw [splitFrom_divide hdivides, hpost, List.cons_append]
    · obtain ⟨front, last, hfront, hpost⟩ := ih (n.after c)
      rw [splitFrom_go hc, splitFrom_go hc]
      cases front with
      | nil =>
        obtain ⟨hlast, hmore⟩ := List.cons.inj hfront
        obtain ⟨hlast', hmore'⟩ := List.cons.inj hpost
        exact ⟨[], c :: last, by rw [hlast, hmore]; rfl, by rw [hlast', hmore']; rfl⟩
      | cons first front =>
        obtain ⟨hfirst, hmore⟩ := List.cons.inj hfront
        obtain ⟨hfirst', hmore'⟩ := List.cons.inj hpost
        exact ⟨(c :: first) :: front, last, by rw [hfirst, hmore]; rfl, by rw [hfirst', hmore']; rfl⟩

/-- Blanks around a text are around its first and its last piece. -/
theorem map_trim_split (hpre : ∀ c ∈ pre, Text.isWhitespace c = true)
    (hpost : ∀ c ∈ post, Text.isWhitespace c = true) (cs : List Char) :
    (split (pre ++ (cs ++ post))).map Text.trim = (split cs).map Text.trim := by
  have hleads : Nesting.outermost.Leads .outermost pre := Nesting.leads_blanks ⟨pre, hpre⟩ rfl
  have hcomma : ',' ∉ post := fun hmem => absurd (hpost _ hmem) (by decide)
  have hfirst : ∀ piece, Text.trim (pre ++ piece) = Text.trim piece := fun piece => by
    have hbetween := Text.trim_between hpre (List.forall_mem_nil _) piece
    rwa [List.append_nil] at hbetween
  have hlast : ∀ piece, Text.trim (piece ++ post) = Text.trim piece := Text.trim_between (List.forall_mem_nil _) hpost
  obtain ⟨front, last, hcs, hboth⟩ := exists_last_piece hcomma .outermost cs
  have hback : (split (pre ++ (cs ++ post))).map Text.trim = (split (cs ++ post)).map Text.trim := by
    rw [split, splitFrom_append hleads, List.map_cons, hfirst, split, List.map_cons]
  rw [hback, split, split, hcs, hboth, List.map_append, List.map_append, List.map_singleton, List.map_singleton, hlast]

/-- Blanks around a selector text do not count. -/
theorem parse_trimmed (s : String) : parse (Text.trimmed s) = parse s := by
  obtain ⟨pre, post, hs, hpre, hpost⟩ := Text.exists_trim s.toList
  have hread : ∀ cs, (split cs).map (fun piece => readGroup (Text.trim piece)) =
      ((split cs).map Text.trim).map readGroup := fun cs => by rw [List.map_map]; rfl
  have hpieces : (split s.toList).map Text.trim = (split (Text.trim s.toList)).map Text.trim := by
    conv => lhs; rw [hs, List.append_assoc]
    exact map_trim_split hpre hpost _
  rw [parse, parse, hread, hread, Text.trimmed, String.toList_ofList, hpieces]

/-- A text of blanks has no compound. -/
theorem trim_ne_nil {s : String} {g : Group} (hs : (parse s).groups = [g]) (hg : g.parts ≠ []) :
    Text.trim s.toList ≠ [] := by
  intro hblank
  have hempty : parse s = ⟨[.empty]⟩ := by
    rw [← parse_trimmed, Text.trimmed, hblank]
    rfl
  rw [hempty] at hs
  obtain rfl := List.singleton_inj.1 hs
  exact hg rfl

end SelectorList

/-! ## Relative selectors -/

/-- What a relative selector starts with. -/
def Combinator.leading : Combinator → List Char
  | descendant => []
  | c => [c.sign]

/-- The text of a relative selector: a combinator and a selector text, with blanks in front of both. -/
def Relative.text (before : Blanks) (c : Combinator) (behind : Blanks) (selectors : String) : String :=
  String.ofList (before.chars ++ (c.leading ++ (behind.chars ++ selectors.toList)))

/-- The compound with `:has(relative)` behind it. -/
def Compound.having (p : Compound) (relative : String) : Compound :=
  { p with pseudoClasses := p.pseudoClasses ++ [.ofText "has" (some relative)] }

namespace Relative

variable {c : Combinator} {s : String} (before behind : Blanks)

theorem text_ne_empty (hs : Text.trim s.toList ≠ []) : text before c behind s ≠ "" := by
  intro hempty
  have hchars := congrArg String.toList hempty
  rw [text, String.toList_ofList] at hchars
  obtain ⟨-, hchars⟩ := List.append_eq_nil_iff.1 hchars
  obtain ⟨-, hchars⟩ := List.append_eq_nil_iff.1 hchars
  obtain ⟨-, hchars⟩ := List.append_eq_nil_iff.1 hchars
  exact hs (by rw [hchars]; rfl)

/-- A relative selector without blanks around it starts with its sign. -/
theorem trim_text (hc : c ≠ .descendant) (hs : Text.trim s.toList ≠ []) :
    ∃ rest, Text.trim (text before c behind s).toList = c.sign :: rest ∧ Text.trim rest = Text.trim s.toList := by
  obtain ⟨pre, post, hparts, hpre, hpost⟩ := Text.exists_trim s.toList
  have hleading : c.leading = [c.sign] := by
    cases c with
    | descendant => exact absurd rfl hc
    | _ => rfl
  have hsolid : Text.isWhitespace c.sign = false := by
    cases c with
    | descendant => exact absurd rfl hc
    | _ => rfl
  refine ⟨behind.chars ++ pre ++ Text.trim s.toList, ?_, ?_⟩
  · have htext : (text before c behind s).toList =
        before.chars ++ (c.sign :: (behind.chars ++ pre ++ Text.trim s.toList)) ++ post := by
      rw [text, String.toList_ofList, hleading]
      conv => lhs; rw [hparts]
      simp
    rw [htext]
    refine Text.trim_append before.blank (fun d hd => Option.some.inj hd ▸ hsolid) (fun d hd => ?_) hpost
    rw [← List.cons_append, List.getLast?_append_of_ne_nil _ hs] at hd
    exact Text.not_isWhitespace_of_getLast?_trim hd
  · have hblank : ∀ d ∈ behind.chars ++ pre, Text.isWhitespace d = true := fun d hd =>
      (List.mem_append.1 hd).elim (behind.blank d) (hpre d)
    have hbetween := Text.trim_between hblank (List.forall_mem_nil _) (Text.trim s.toList)
    rwa [List.append_nil, Text.trim_trim] at hbetween

/-- What was written is read: a combinator, and a selector text without the blanks around it. -/
theorem ofText_text (hs : Text.trim s.toList ≠ [])
    (hstart : c = .descendant → ∀ d ∈ (Text.trim s.toList).head?, d ∉ ['>', '+', '~']) :
    ofText (text before c behind s) = ⟨c, Text.trimmed s⟩ := by
  have hselectors : ∀ rest, Text.trim rest = Text.trim s.toList →
      (if (Text.trim rest).isEmpty then "*" else String.ofList (Text.trim rest)) = Text.trimmed s := by
    intro rest hrest
    rw [hrest, if_neg (by simpa using hs)]
    rfl
  by_cases hc : c = .descendant
  · subst hc
    have htrim : Text.trim (text before .descendant behind s).toList = Text.trim s.toList := by
      have hblank : ∀ d ∈ before.chars ++ behind.chars, Text.isWhitespace d = true := fun d hd =>
        (List.mem_append.1 hd).elim (before.blank d) (behind.blank d)
      have hbetween := Text.trim_between hblank (List.forall_mem_nil _) s.toList
      rw [List.append_nil, List.append_assoc] at hbetween
      rw [text, String.toList_ofList]
      exact hbetween
    have hnosign := hstart rfl
    unfold ofText
    rw [htrim]
    split
    · rename_i heq
      split at heq
      · rename_i rest h
        exact absurd (by decide) (hnosign '>' (by rw [h]; rfl))
      · rename_i rest h
        exact absurd (by decide) (hnosign '+' (by rw [h]; rfl))
      · rename_i rest h
        exact absurd (by decide) (hnosign '~' (by rw [h]; rfl))
      · obtain ⟨rfl, rfl⟩ := Prod.mk.inj heq
        exact congrArg (Relative.mk _) (hselectors _ (Text.trim_trim _))
  · obtain ⟨rest, htrim, hrest⟩ := trim_text before behind hc hs
    unfold ofText
    rw [htrim]
    cases c with
    | descendant => exact absurd rfl hc
    | _ => exact congrArg (Relative.mk _) (hselectors rest hrest)

end Relative

/-! ## Relatives of an element -/

/-- The elements among the relatives of an element are those to which it is related. -/
theorem mem_relatives_iff {t : Tree} {x y : NodeId} (h : t.WellFormed) (hx : t.isElement x = true)
    (hy : t.isElement y = true) (c : Combinator) : y ∈ c.relatives t x ↔ c.Relates t x y := by
  have hroot : x ≠ Tree.root := by
    rintro rfl
    rw [Tree.isElement, Tree.element?, h.root_kind] at hx
    exact Bool.false_ne_true hx
  cases c with
  | descendant =>
    rw [Combinator.relatives, Combinator.Relates, h.mem_descendants_iff, h.mem_ancestors_iff]
    exact (and_iff_right hroot).symm
  | child =>
    rw [Combinator.relatives, Tree.elementChildren, List.mem_filter, h.mem_children_iff]
    exact and_iff_left hy
  | nextSibling =>
    rw [Combinator.relatives, Option.mem_toList, h.nextElement_eq_some_iff]
    refine exists₄_congr fun p before between after => and_congr_right fun _ => ?_
    rw [and_iff_right hy, and_iff_right hx]
  | laterSibling =>
    rw [Combinator.relatives, Combinator.Relates, List.mem_iff_append]
    constructor
    · rintro ⟨between, after, hbehind⟩
      obtain ⟨p, before, hsplit⟩ := h.followingSiblings_eq_append_iff.1 hbehind
      exact ⟨p, before, between, after, hsplit⟩
    · rintro ⟨p, before, between, after, hsplit⟩
      exact ⟨between, after, h.followingSiblings_eq_append_iff.2 ⟨p, before, hsplit⟩⟩

/-! ## Compounds and groups of one and two -/

section
variable {t : Tree} {n : NodeId} {p q : Compound} {g : Group} {s : String}

theorem Compound.isElement_of_matches (h : p.matches t n = true) : t.isElement n = true := by
  unfold Compound.matches Compound.holds at h
  rw [Tree.isElement]
  split at h
  · exact absurd h Bool.false_ne_true
  · rename_i e he
    rw [he]
    rfl

theorem PseudoClass.ofText_has {relative : String} (h : relative ≠ "") :
    ofText "has" (some relative) = .has (some relative) := by
  have hknown : PseudoName.ofText? "has" = some .has := by decide +kernel
  have hargument : argument (some relative) = some relative :=
    Option.filter_eq_some_iff.2 ⟨rfl, by simpa using h⟩
  rw [ofText, hknown, hargument]
  rfl

/-- `:has` asks about the relatives of an element. -/
theorem Compound.matches_having {relative : String} (h : relative ≠ "") (p : Compound) (t : Tree) (n : NodeId) :
    (p.having relative).matches t n = true ↔ p.matches t n = true ∧
      ∃ m ∈ (Relative.ofText relative).combinator.relatives t n,
        t.matchesText (Relative.ofText relative).selectors m = true := by
  unfold Compound.matches Compound.holds
  cases t.element? n with
  | none => simp
  | some e =>
    have hplain : (p.having relative).plain e = p.plain e := rfl
    have hclasses : (p.having relative).pseudoClasses = p.pseudoClasses ++ [.has (some relative)] := by
      rw [having, PseudoClass.ofText_has h]
    dsimp only
    rw [hplain, hclasses, List.all_append, List.all_cons, List.all_nil, Bool.and_true, ← Bool.and_assoc,
      Bool.and_eq_true, PseudoClass.holds, List.any_eq_true]

theorem Group.matches_of_single (h : g.parts = [p]) : g.matches t = p.matches t := by
  funext n
  have hsteps : g.steps = [] := by rw [Group.steps, h]; rfl
  rw [Group.matches, Group.holds, h, hsteps]
  dsimp only [List.getLast?_singleton]
  rw [Group.follow, Bool.and_true]
  rfl

theorem Group.follow_single (p : Compound) (c : Combinator) (t : Tree) (n : NodeId) :
    follow t.matchesText t [(p, c)] n = ((c.candidates t n).find? (p.matches t)).isSome := by
  have hholds : p.holds t.matchesText t = p.matches t := rfl
  rw [follow, hholds]
  cases (c.candidates t n).find? (p.matches t) <;> rfl

theorem Group.matches_pair (p q : Compound) (c : Combinator) (t : Tree) (n : NodeId) :
    (Group.mk [p, q] [c]).matches t n = true ↔
      q.matches t n = true ∧ ∃ m ∈ c.candidates t n, p.matches t m = true := by
  have hsplit : (Group.mk [p, q] [c]).matches t n = (q.matches t n && follow t.matchesText t [(p, c)] n) := rfl
  rw [hsplit, follow_single, Bool.and_eq_true, List.find?_isSome]

/-- A selector text of one group asks what the group asks. -/
theorem Tree.matchesText_of_group (hs : (SelectorList.parse s).groups = [g]) : t.matchesText s = g.matches t := by
  funext n
  have hlist : (SelectorList.parse s).matches t n = (SelectorList.parse s).groups.any (·.matches t n) := rfl
  rw [← SelectorList.matches_parse, hlist, hs, List.any_cons, List.any_nil, Bool.or_false]

theorem Tree.matchesText_of_single (hs : (SelectorList.parse s).groups = [g]) (hg : g.parts = [p]) :
    t.matchesText s = p.matches t := by
  rw [matchesText_of_group hs, Group.matches_of_single hg]

end

/-- `:has` with a combinator asks for an element that matches and to which the element is related. -/
theorem Compound.matches_having_text {t : Tree} {s : String} {g : Group} {part : Compound} {c : Combinator}
    (h : t.WellFormed) (before behind : Blanks) (hs : (SelectorList.parse s).groups = [g]) (hg : g.parts = [part])
    (hstart : c = .descendant → ∀ d ∈ (Text.trim s.toList).head?, d ∉ ['>', '+', '~']) (p : Compound) (x : NodeId) :
    (p.having (Relative.text before c behind s)).matches t x = true ↔
      p.matches t x = true ∧ ∃ y, t.matchesText s y = true ∧ c.Relates t x y := by
  have hne : Text.trim s.toList ≠ [] := SelectorList.trim_ne_nil hs (by rw [hg]; exact List.cons_ne_nil _ _)
  have htrimmed : t.matchesText (Text.trimmed s) = t.matchesText s := by
    rw [← SelectorList.matches_parse, SelectorList.parse_trimmed, SelectorList.matches_parse]
  rw [Compound.matches_having (Relative.text_ne_empty before behind hne), Relative.ofText_text before behind hne hstart]
  refine and_congr_right fun hx => exists_congr fun y => ?_
  rw [htrimmed, and_comm]
  refine and_congr_right fun hy => ?_
  rw [Tree.matchesText_of_single hs hg] at hy
  exact mem_relatives_iff h (Compound.isElement_of_matches hx) (Compound.isElement_of_matches hy) c

namespace Session

/-- **`:has` with a combinator is the converse of the combinator.** An element matches it if it is related, as the
combinator says, to a node that matches the selector text in it; so some node matches it exactly if some node matches
the two compounds with the combinator between them. -/
theorem has_converse {t : Tree} {session : Session} {s : String} {g : Group} {part : Compound} (h : t.WellFormed)
    (hsound : session.Sound) (hs : (SelectorList.parse s).groups = [g]) (hg : g.parts = [part])
    (hstart : ∀ d ∈ (Text.trim s.toList).head?, d ∉ ['>', '+', '~']) (p : Compound) (c : Combinator)
    (before behind : Blanks) :
    (∀ x, ((matchesCompound t (p.having (Relative.text before c behind s)) x).run session).1 = true ↔
      ((matchesCompound t p x).run session).1 = true ∧
        ∃ y, ((matchesText t y s).run session).1 = true ∧ c.Relates t x y) ∧
    ((∃ y, ((matchesGroup t ⟨[p, part], [c]⟩ y).run session).1 = true) ↔
      ∃ x, ((matchesCompound t (p.having (Relative.text before c behind s)) x).run session).1 = true) := by
  have hcompound := fun p x => (ensures_matchesCompound t p x).result hsound
  have htext := fun y => (ensures_matchesText t y s).result hsound
  have hgroup := fun g y => (ensures_matchesGroup t g y).result hsound
  have hhas := Compound.matches_having_text h before behind hs hg (fun _ : c = .descendant => hstart) p
  simp only [hcompound, htext, hgroup]
  refine ⟨hhas, ?_⟩
  simp only [hhas, Tree.matchesText_of_single hs hg, Group.matches_pair, Group.mem_candidates_iff h]
  constructor
  · rintro ⟨y, hy, x, hrelates, hx⟩
    exact ⟨x, hx, y, hy, hrelates⟩
  · rintro ⟨x, hx, y, hy, hrelates⟩
    exact ⟨y, hy, x, hrelates, hx⟩

/-- The second paragraph of the page stands before the list; a no-break space belongs to the text in `:has`. -/
theorem has_converse_page : page.WellFormed ∧ crowded.Sound ∧
    (SelectorList.parse "\u00A0ul").groups = [⟨[{ Compound.any with tag := some "ul" }], []⟩] ∧
    (∀ d ∈ (Text.trim "\u00A0ul".toList).head?, d ∉ ['>', '+', '~']) ∧
    ∃ y, ((matchesText page y "\u00A0ul").run crowded).1 = true ∧ Combinator.nextSibling.Relates page 4 y := by
  have hwf : page.WellFormed := Tree.wellFormed_parse _ _
  have hsound : crowded.Sound := Call.sound_runAll 1 .empty _
  have hread : (SelectorList.parse "\u00A0ul").groups = [⟨[{ Compound.any with tag := some "ul" }], []⟩] := by
    decide +kernel
  have hstart : ∀ d ∈ (Text.trim "\u00A0ul".toList).head?, d ∉ ['>', '+', '~'] := by
    have hhead : (Text.trim "\u00A0ul".toList).head? = some 'u' := by decide +kernel
    intro d hd
    obtain rfl := Option.some.inj (hhead.symm.trans hd)
    decide
  have hmatches : ((matchesCompound page
      (Compound.having { Compound.any with tag := some "p" } (Relative.text .none .nextSibling .space "\u00A0ul"))
      4).run crowded).1 = true := by decide +kernel
  have hconverse := has_converse hwf hsound hread rfl hstart { Compound.any with tag := some "p" } .nextSibling
    .none .space
  exact ⟨hwf, hsound, hread, hstart, ((hconverse.1 4).1 hmatches).2⟩

end Session

end HtmlQuery
