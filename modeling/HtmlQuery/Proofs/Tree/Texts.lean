import HtmlQuery.Proofs.Tree.Walks
import HtmlQuery.Tree.Strings

/-!
# The texts under a node

`Yields` and `Wraps` are the loops behind the texts of a node, without a bound: the one takes nodes off a stack and
keeps what it makes of the texts it meets, the other goes down as long as there is one child. Each is a relation that
holds only of loops that come to an end. Over a well-formed tree both do, and `Tree.strings`, `Tree.strippedStrings` and
`Tree.soleString?` are their results (`WellFormed.yields_iff`, `WellFormed.wraps_iff`). The texts of a node are its own
and those of its children (`WellFormed.strings_eq_flatMap`), and all other texts are made from that list
(`texts_agree`).
-/

namespace HtmlQuery.Tree

/-! ## The loops -/

/-- What is made of a text that is met: the text itself or, stripped, the text without the blanks around it, if anything
is left of it. -/
def keptText? (strip : Bool) (data : String) : Option String :=
  if strip then if (Text.trimmed data).isEmpty then none else some (Text.trimmed data) else some data

/-- What is made of the text of a node, if it is one. -/
def piece? (t : Tree) (strip : Bool) (n : NodeId) : Option String := (t.text? n).bind (keptText? strip)

/-- Taking a node off the stack, putting its children on the stack and keeping what is made of its text, again and
again, comes to an end and yields `l`. -/
inductive Yields (t : Tree) (strip : Bool) : List NodeId → List String → Prop
  | done : Yields t strip [] []
  | pass {n : NodeId} {stack : List NodeId} {l : List String} : t.piece? strip n = none →
      Yields t strip (t.children n ++ stack) l → Yields t strip (n :: stack) l
  | keep {n : NodeId} {stack : List NodeId} {piece : String} {l : List String} : t.piece? strip n = some piece →
      Yields t strip (t.children n ++ stack) l → Yields t strip (n :: stack) (piece :: l)

/-- The child of a container that has no other. -/
def onlyChild? (t : Tree) (n : NodeId) : Option NodeId :=
  match (t.kind? n).map NodeKind.isContainer, t.children n with
  | some true, [c] => some c
  | _, _ => none

/-- Going down from a node that is no text to its only child, again and again, comes to an end and answers with the text
that is met, or with none. -/
inductive Wraps (t : Tree) : NodeId → Option String → Prop
  | text {n : NodeId} {data : String} : t.text? n = some data → Wraps t n (some data)
  | down {n c : NodeId} {answer : Option String} : t.text? n = none → t.onlyChild? n = some c → Wraps t c answer →
      Wraps t n answer
  | stop {n : NodeId} : t.text? n = none → t.onlyChild? n = none → Wraps t n none

/-- Texts one behind the other with a separator between each one and the next. -/
def between (separator : String) : List String → String
  | [] => ""
  | [piece] => piece
  | piece :: next :: pieces => piece ++ separator ++ between separator (next :: pieces)

variable {t : Tree} {n c : NodeId} {ns l stack : List NodeId} {strip : Bool} {pieces pieces' : List String}
  {answer answer' : Option String} {data : String}

theorem Yields.step (h : Yields t strip (t.children n ++ stack) pieces) :
    Yields t strip (n :: stack) ((t.piece? strip n).toList ++ pieces) := by
  cases hpiece : t.piece? strip n with
  | none => exact .pass hpiece h
  | some piece => exact .keep hpiece h

theorem Yields.unique (h : Yields t strip stack pieces) (h' : Yields t strip stack pieces') : pieces = pieces' := by
  induction h generalizing pieces' with
  | done =>
    cases h'
    rfl
  | pass hpiece _ ih =>
    cases h' with
    | pass _ h' => exact ih h'
    | keep hpiece' _ => simp [hpiece] at hpiece'
  | keep hpiece _ ih =>
    cases h' with
    | pass hpiece' _ => simp [hpiece] at hpiece'
    | keep hpiece' h' =>
      rw [hpiece, Option.some.injEq] at hpiece'
      rw [hpiece', ih h']

/-- Over nodes with all that is under them the loop yields what is made of their texts, and goes on with the rest of the
stack. -/
theorem Lists.yields (hl : Lists t ns l) (h : Yields t strip stack pieces) :
    Yields t strip (ns ++ stack) (l.filterMap (t.piece? strip) ++ pieces) := by
  induction hl generalizing stack pieces with
  | nil => exact h
  | @cons n ns below rest _ _ ihbelow ihrest =>
    have hstep := (ihbelow (ihrest h)).step
    cases hpiece : t.piece? strip n <;> simpa [hpiece] using hstep

theorem Wraps.unique (h : Wraps t n answer) (h' : Wraps t n answer') : answer = answer' := by
  induction h generalizing answer' with
  | text htext => cases h' <;> simp_all
  | down htext hchild _ ih =>
    cases h' with
    | text htext' => simp [htext] at htext'
    | down _ hchild' h' =>
      rw [hchild, Option.some.injEq] at hchild'
      exact ih (hchild' ▸ h')
    | stop _ hchild' => simp [hchild] at hchild'
  | stop htext hchild => cases h' <;> simp_all

theorem between_eq_intercalate (separator : String) (pieces : List String) :
    between separator pieces = separator.intercalate pieces := by
  fun_induction between separator pieces with
  | case1 => rfl
  | case2 piece => exact (String.intercalate_singleton ..).symm
  | case3 piece next pieces ih => rw [String.intercalate_cons_cons, ih]

/-! ## The texts of a node -/

theorem strippedStrings_eq_filterMap (t : Tree) (n : NodeId) :
    t.strippedStrings n = (t.subtree n).filterMap (t.piece? true) := by
  rw [strippedStrings, strings, ← List.filterMap_eq_map, ← List.filterMap_eq_filter, List.filterMap_filterMap,
    List.filterMap_filterMap]
  refine List.filterMap_congr fun m _ => ?_
  cases htext : t.text? m with
  | none => simp [piece?, htext]
  | some data => simp [piece?, htext, keptText?, Option.guard]

theorem strings_eq_filterMap (t : Tree) (n : NodeId) : t.strings n = (t.subtree n).filterMap (t.piece? false) := by
  refine List.filterMap_congr fun m _ => ?_
  cases htext : t.text? m <;> simp [piece?, htext, keptText?]

theorem strings_eq_append (t : Tree) (n : NodeId) :
    t.strings n = (t.text? n).toList ++ (t.descendants n).filterMap t.text? := by
  rw [strings, subtree_eq_cons, List.filterMap_cons]
  cases t.text? n <;> rfl

theorem children_of_onlyChild? (h : t.onlyChild? n = some c) : t.children n = [c] := by
  unfold onlyChild? at h
  split at h
  · rename_i hchildren
    rw [hchildren, Option.some.inj h]
  · cases h

theorem soleText_succ (t : Tree) (fuel : Nat) (n : NodeId) :
    t.soleText (fuel + 1) n = match t.text? n with
      | some data => some data
      | none => (t.onlyChild? n).bind (t.soleText fuel) := by
  rw [soleText, text?, onlyChild?]
  cases t.kind? n with
  | none => rfl
  | some kind => cases kind <;> cases t.children n with
    | nil => rfl
    | cons c cs => cases cs <;> rfl

theorem text?_eq_none_of_container {kind : NodeKind} (hkind : t.kind? n = some kind)
    (hcontainer : kind.isContainer = true) : t.text? n = none := by
  rw [text?, hkind]
  cases kind <;> first | rfl | cases hcontainer

namespace WellFormed

variable (h : t.WellFormed)
include h

/-- The loop comes to an end with what is made of the texts of the node and of the nodes under it. -/
theorem yields_iff (n : NodeId) :
    Yields t strip [n] pieces ↔ pieces = (t.subtree n).filterMap (t.piece? strip) := by
  have hyields : Yields t strip ([n] ++ []) _ := (h.lists_subtree n).yields .done
  rw [List.append_nil, List.append_nil] at hyields
  constructor
  · exact fun h' => h'.unique hyields
  · rintro rfl
    exact hyields

theorem children_of_text (htext : t.text? n = some data) : t.children n = [] := by
  by_contra hne
  obtain ⟨kind, hkind, hcontainer⟩ := h.container n hne
  rw [text?_eq_none_of_container hkind hcontainer] at htext
  exact Option.some_ne_none _ htext.symm

theorem strings_of_text (htext : t.text? n = some data) : t.strings n = [data] := by
  rw [strings_eq_append, htext, (h.listsBelow_iff.2 rfl) n, h.children_of_text htext]
  rfl

/-- The texts of a node that is none itself are those of its children, one after the other. -/
theorem strings_eq_flatMap (htext : t.text? n = none) : t.strings n = (t.children n).flatMap t.strings := by
  rw [strings_eq_append, htext, (h.listsBelow_iff.2 rfl) n, List.filterMap_flatMap]
  refine List.flatMap_congr fun c _ => ?_
  rw [strings, subtree_eq_cons]

theorem textContent_eq_join (htext : t.text? n = none) :
    t.textContent n = String.join ((t.children n).map t.textContent) := by
  rw [textContent, h.strings_eq_flatMap htext]
  induction t.children n with
  | nil => rfl
  | cons c cs ih => rw [List.flatMap_cons, String.join_append, ih, List.map_cons, String.join_cons, textContent]

/-! ## The one text that a node wraps -/

/-- The way down is no longer than what its node leaves of the number of nodes. -/
theorem wraps_soleText {fuel : Nat} (hn : t.has n = true) (hfuel : t.size ≤ t.depth n + fuel) :
    Wraps t n (t.soleText fuel n) := by
  induction fuel generalizing n with
  | zero => exact absurd (h.depth_lt_size hn) (by omega)
  | succ fuel ih =>
    rw [soleText_succ]
    cases htext : t.text? n with
    | some data => exact .text htext
    | none =>
      cases hchild : t.onlyChild? n with
      | none => exact .stop htext hchild
      | some c =>
        have hc : c ∈ t.children n := by simp [children_of_onlyChild? hchild]
        have hdepth := h.depth_of_mem_children hc
        exact .down htext hchild (ih (h.child_has n c hc) (by omega))

/-- The way down from a node comes to an end, and answers as `soleString?` does. -/
theorem wraps_iff (n : NodeId) : Wraps t n answer ↔ answer = t.soleString? n := by
  have hwraps : Wraps t n (t.soleString? n) := by
    cases hkind : t.kind? n with
    | some kind => exact h.wraps_soleText (has_of_kind? hkind) (by omega)
    | none =>
      obtain ⟨k, hk⟩ : ∃ k, t.size = k + 1 := Nat.exists_eq_succ_of_ne_zero (Nat.ne_of_gt (has_iff.1 h.has_root))
      have htext : t.text? n = none := by rw [text?, hkind]; rfl
      have hchild : t.onlyChild? n = none := by rw [onlyChild?, hkind]; rfl
      rw [soleString?, hk, soleText_succ, htext, hchild]
      exact .stop htext hchild
  constructor
  · exact fun h' => h'.unique hwraps
  · rintro rfl
    exact hwraps

/-- A node that wraps one text has no other text. -/
theorem strings_of_wraps (hwraps : Wraps t n (some data)) : t.strings n = [data] := by
  generalize hanswer : some data = answer at hwraps
  induction hwraps with
  | text htext =>
    cases hanswer
    exact h.strings_of_text htext
  | down htext hchild _ ih =>
    rw [h.strings_eq_flatMap htext, children_of_onlyChild? hchild, List.flatMap_singleton, ih hanswer]
  | stop => cases hanswer

end WellFormed

/-! ## All texts of a node -/

/-- How the texts of a node, their concatenations and the one text it wraps stand to the tree. -/
structure TextsAgree (t : Tree) (n : NodeId) : Prop where
  /-- The texts are the payload of a text, and of another node those of the texts under it. -/
  strings_eq : t.strings n = match t.text? n with
    | some data => [data]
    | none => (t.descendants n).filterMap t.text?
  /-- They are what the loop with its stack yields, which ends. -/
  strings_iff : ∀ pieces, Yields t false [n] pieces ↔ pieces = t.strings n
  stripped_eq : t.strippedStrings n = ((t.strings n).map Text.trimmed).filter (· ≠ "")
  stripped_iff : ∀ pieces, Yields t true [n] pieces ↔ pieces = t.strippedStrings n
  content_eq : t.textContent n = String.join (t.strings n)
  content_children : ∀ kind, t.kind? n = some kind → kind.isContainer = true →
    t.textContent n = String.join ((t.children n).map t.textContent)
  joined_eq : ∀ separator, t.joinedText n separator false = between separator (t.strings n) ∧
    t.joinedText n separator true = between separator (t.strippedStrings n)
  /-- The way down to the one text ends. -/
  sole_iff : ∀ answer, Wraps t n answer ↔ answer = t.soleString? n
  strings_of_sole : ∀ data, t.soleString? n = some data → t.strings n = [data]

/-- **The texts of a node agree with the tree**: the loops that collect them end, and yield the payloads in document
order. -/
theorem texts_agree (h : t.WellFormed) (n : NodeId) : t.TextsAgree n where
  strings_eq := by
    cases htext : t.text? n with
    | none => rw [strings_eq_append, htext, Option.toList_none, List.nil_append]
    | some data => exact h.strings_of_text htext
  strings_iff pieces := by rw [h.yields_iff, ← strings_eq_filterMap]
  stripped_eq := by
    rw [strippedStrings]
    refine List.filter_congr fun piece _ => ?_
    rw [Bool.eq_iff_iff]
    simp
  stripped_iff pieces := by rw [h.yields_iff, ← strippedStrings_eq_filterMap]
  content_eq := rfl
  content_children _ hkind hcontainer := h.textContent_eq_join (text?_eq_none_of_container hkind hcontainer)
  joined_eq separator := ⟨(between_eq_intercalate ..).symm, (between_eq_intercalate ..).symm⟩
  sole_iff _ := h.wraps_iff n
  strings_of_sole data hsole := h.strings_of_wraps ((h.wraps_iff n).2 hsole.symm)

/-- A paragraph with blanks, a comment and a mark in it, behind a document type. -/
theorem texts_agree_paragraph : ∃ t, t = parse "<!doctype html><p> a <!--b--><i><b>c</b></i> </p>" .default ∧
    t.WellFormed ∧ t.strings 2 = [" a ", "c", " "] ∧ Yields t true [2] ["a", "c"] ∧
    t.joinedText 2 "|" true = "a|c" ∧ Wraps t 5 (some "c") ∧ Wraps t 2 none := by
  have hwf := wellFormed_parse "<!doctype html><p> a <!--b--><i><b>c</b></i> </p>" .default
  have hparagraph := texts_agree hwf 2
  refine ⟨_, rfl, hwf, by decide +kernel, (hparagraph.stripped_iff _).2 (by decide +kernel), ?_,
    ((texts_agree hwf 5).sole_iff _).2 (by decide +kernel), (hparagraph.sole_iff _).2 (by decide +kernel)⟩
  rw [(hparagraph.joined_eq "|").2]
  decide +kernel

end HtmlQuery.Tree
