import HtmlQuery.Proofs.Token.Stream
import HtmlQuery.Proofs.Tree.Spine
import HtmlQuery.Tree.Build

/-!
# What a builder builds

A builder does to its tree what a reader of the same tokens does to a spine. `Spine.step` is the second one, which
knows no numbers and no links, and `Builder.Holds b s` says that a builder is at the spine `s`. Every step keeps it
(`Holds.step`), so the tree of a text is well-formed and holds the branch that the steps make of its tokens
(`holds_parse`).
-/

namespace HtmlQuery

open Branch

/-! ## Tokens and steps -/

namespace Builder

/-- Takes a token with the verbatim content behind it. -/
def step (o : ParseOptions) (b : Builder) (l : Lexeme) : Builder :=
  match l.token with
  | .text data => b.addText data (o.note l.place)
  | .comment data => b.add (.comment data) (o.note l.place)
  | .doctype data => b.add (.doctype data) (o.note l.place)
  | .endTag tag => b.close tag
  | .startTag tag attributes selfClosing =>
    let b := if o.xml then b else b.closeFor tag
    let e := Element.ofAttributes tag attributes
    if keeps o e (l.content.getD "") then
      b.addElement e (Rules.contentModel tag selfClosing o.xml) l.content (o.note l.place)
    else b

theorem take_eq (o : ParseOptions) (b : Builder) (token : Token) (place : Location) (s : Scanner) :
    b.take o token place s =
      (b.step o ⟨token, place, (s.verbatim o.xml token).1⟩, (s.verbatim o.xml token).2) := by
  cases token with
  | startTag tag attributes selfClosing =>
    rw [take, Scanner.verbatim]
    generalize s.content? (Rules.contentModel tag selfClosing o.xml) tag = parts
    obtain ⟨content, s'⟩ := parts
    dsimp only [step]
    split <;> rfl
  | _ => rfl

/-- What the tokens build does not reach back to the scanner. -/
theorem run_eq_foldl (o : ParseOptions) (b : Builder) (s : Scanner) :
    run o b s = (s.stream o.xml).foldl (step o) b := by
  fun_induction run o b s with
  | case1 b s s' h => rw [Scanner.stream_of_none h, List.foldl_nil]
  | case2 b s token place s' h ih =>
    rw [Scanner.stream_of_some h, List.foldl_cons]
    simpa only [take_eq] using ih

end Builder

namespace Spine

/-- Complete branches with a text behind them; it joins a text that comes last. -/
def joinText (data : String) (done : List Branch) : List Branch :=
  match done.getLast? with
  | some (.node (.text before) []) => done.dropLast ++ [.node (.text (before ++ data)) []]
  | _ => done ++ [.node (.text data) []]

theorem joinText_text (data before : String) (bs : List Branch) :
    joinText data (bs ++ [.node (.text before) []]) = bs ++ [.node (.text (before ++ data)) []] := by
  rw [joinText, List.getLast?_concat, List.dropLast_concat]

theorem joinText_other (data : String) (bs : List Branch) {kind : NodeKind} (inner : List Branch)
    (h : kind.text? = none) : joinText data (bs ++ [.node kind inner]) =
      bs ++ [.node kind inner] ++ [.node (.text data) []] := by
  rw [joinText, List.getLast?_concat]
  cases kind <;> first | rfl | simp [NodeKind.text?] at h

/-- Adds text at the insertion point. -/
def addText (data : String) (s : Spine) : Spine :=
  if data.isEmpty then s else s.mapDone (joinText data)

theorem mapDone_joinText_text (data before : String) (s : Spine) :
    (s.push (.node (.text before) [])).mapDone (joinText data) =
      s.push (.node (.text (before ++ data)) []) := by
  cases s <;> simp only [push, mapDone, joinText_text]

theorem mapDone_joinText_other (data : String) (s : Spine) {kind : NodeKind} (inner : List Branch)
    (h : kind.text? = none) : (s.push (.node kind inner)).mapDone (joinText data) =
      (s.push (.node kind inner)).push (.node (.text data) []) := by
  cases s <;> simp only [push, mapDone, joinText_other data _ inner h]

/-- Leaves the innermost open element with a tag and what is open in it. -/
def close? (tag : String) (s : Spine) : Option Spine :=
  match s with
  | document _ => none
  | inside outer e done =>
    if e.tag == tag then some (inside outer e done).leave
    else close? tag (outer.push (.node (.element e) done))
termination_by s.depth
decreasing_by simp [depth]

/-- Leaves the innermost open element if the start tag `tag` ends it. -/
def closeFor (tag : String) (s : Spine) : Spine :=
  match s with
  | document done => document done
  | inside outer e done =>
    if Rules.closesImplicitly e.tag tag then (inside outer e done).leave else inside outer e done

/-- The branches of verbatim content. -/
def contentBranches (content : Option String) : List Branch :=
  match content with
  | some data => if data.isEmpty then [] else [.node (.text data) []]
  | none => []

/-- Adds an element, and goes into it if it takes ordinary content. -/
def addElement (e : Element) (model : ContentModel) (content : Option String) (s : Spine) : Spine :=
  if model = .normal then inside s e (contentBranches content)
  else s.push (.node (.element e) (contentBranches content))

/-- Takes a token with the verbatim content behind it. -/
def step (o : ParseOptions) (s : Spine) (l : Lexeme) : Spine :=
  match l.token with
  | .text data => s.addText data
  | .comment data => s.push (.node (.comment data) [])
  | .doctype data => s.push (.node (.doctype data) [])
  | .endTag tag => (s.close? tag).getD s
  | .startTag tag attributes selfClosing =>
    let s := if o.xml then s else s.closeFor tag
    let e := Element.ofAttributes tag attributes
    if Builder.keeps o e (l.content.getD "") then
      s.addElement e (Rules.contentModel tag selfClosing o.xml) l.content
    else s

end Spine

/-! ## New nodes -/

namespace Tree

variable {t t' : Tree} {p : NodeId} {kind : NodeKind}

/-- `t'` is `t` with a new node, the last child of `p`. -/
structure Grown (t t' : Tree) (p : NodeId) (kind : NodeKind) : Prop where
  wellFormed : t'.WellFormed
  size_eq : t'.size = t.size + 1
  kind? : ∀ m, t'.kind? m = if m = t.size then some kind else t.kind? m
  children : ∀ m, t'.children m = if m = p then t.children m ++ [t.size] else t.children m

theorem children_size (t : Tree) : t.children t.size = [] := by
  rw [children_eq, get?_size]
  rfl

/-- Nothing lies under a node without children but itself. -/
theorem WellFormed.above_childless (h : t.WellFormed) {a n : NodeId} (ha : t.children a = [])
    (habove : Above t a n) : a = n := by
  induction habove with
  | refl => rfl
  | up hp _ ih =>
    have := h.mem_children_iff.2 hp
    rw [← ih, ha] at this
    simp at this

theorem WellFormed.grown (h : t.WellFormed) {container : NodeKind} (hp : t.kind? p = some container)
    (hcontainer : container.isContainer = true) (kind : NodeKind) (location : Option Location) :
    Grown t ((t.alloc kind location).attach p t.size) p kind := by
  have hne : p ≠ t.size := Nat.ne_of_lt (has_iff.1 (has_of_kind? hp))
  have hnone := get?_size t
  have hloose : t.parent t.size = none := by rw [parent, hnone]; rfl
  have hchildless := children_size t
  have hwf := h.alloc kind location
  have hkind := kind?_alloc (t := t) kind location
  have hinsert : Insertable (t.alloc kind location) p t.size := by
    refine ⟨⟨container, ?_, hcontainer⟩, ?_, ?_, fun habove => ?_⟩
    · rw [hkind, if_neg hne, hp]
    · rw [has_iff, size_alloc]
      exact Nat.lt_succ_self _
    · exact Nat.ne_of_gt (has_iff.1 h.has_root)
    · exact hne (hwf.above_childless (by rw [children_alloc, hchildless]) habove).symm
  have hlink : Linked (t.alloc kind location) ((t.alloc kind location).attach p t.size) p t.size
      ((t.alloc kind location).children p) [] := by
    have hl := hwf.loose t.size (by rw [parent_alloc, hloose])
    refine linked_attach (by rw [parent_alloc, hloose]) hl.1 hl.2 ?_
    rw [children_alloc, h.mem_children_iff, hloose]
    simp
  refine ⟨hwf.attach hinsert, by rw [hlink.size_eq, size_alloc], fun m => ?_, fun m => ?_⟩
  · rw [hlink.kind?, hkind]
  · rw [hlink.children (has_of_kind? (by rw [hkind, if_neg hne, hp])), children_alloc, children_alloc]
    split
    · rename_i hm
      rw [hm]
    · rfl

end Tree

/-! ## Builders and spines -/

/-- A builder is at a spine. -/
structure Builder.Holds (b : Builder) (s : Spine) : Prop where
  wellFormed : b.tree.WellFormed
  at_point : s.At b.tree []
  size_eq : b.tree.size = s.size
  current : b.current = s.point

namespace Builder

open HtmlQuery.Tree

variable {b : Builder} {s outer : Spine} {e : Element} {inner : List Branch}

theorem holds_empty : empty.Holds (.document []) where
  wellFormed := Tree.wellFormed_empty
  at_point := ⟨rfl, rfl, trivial⟩
  size_eq := rfl
  current := rfl

theorem Holds.add (h : b.Holds s) (kind : NodeKind) (location : Option Location) :
    (b.add kind location).Holds (s.push (.node kind [])) := by
  have hcontainer : s.kind.isContainer = true := by cases s <;> rfl
  have hgrown : Tree.Grown b.tree (b.add kind location).tree s.point kind := by
    rw [Builder.add, addUnder, h.current]
    exact h.wellFormed.grown h.at_point.kind? hcontainer kind location
  obtain ⟨hwf, hsize, hkind, hchildren⟩ := hgrown
  have hchildless := b.tree.children_size
  rw [h.size_eq] at hsize hkind hchildren hchildless
  have hpoint := s.size_eq
  refine ⟨hwf, Spine.at_push_iff.2 ⟨h.at_point.frame (fun m hm => ?_) (fun m hm hne => ?_) ?_, ?_⟩,
    ?_, ?_⟩
  · exact (hkind m).trans (if_neg (Nat.ne_of_lt hm))
  · exact (hchildren m).trans (if_neg hne)
  · refine (hchildren _).trans ?_
    rw [if_pos rfl, h.at_point.children, List.append_nil]
  · refine ⟨(hkind _).trans (if_pos rfl), (hchildren _).trans ?_, trivial⟩
    rw [if_neg (show s.size ≠ s.point by omega), hchildless, tops]
  · rw [Spine.size, Spine.payloads_push, List.length_append]
    exact hsize
  · rw [Spine.point_push]
    exact h.current

theorem Holds.enter (h : b.Holds (s.push (.node (.element e) inner))) :
    Holds { b with current := s.size } (.inside s e inner) where
  wellFormed := h.wellFormed
  at_point := Spine.at_inside_iff.2 h.at_point
  size_eq := by
    rw [h.size_eq, Spine.size, Spine.size, Spine.payloads_push, Branch.payloads, Spine.payloads]
  current := rfl

theorem Holds.leave (h : b.Holds (.inside outer e inner)) :
    Holds { b with current := outer.point } (outer.push (.node (.element e) inner)) where
  wellFormed := h.wellFormed
  at_point := Spine.at_inside_iff.1 h.at_point
  size_eq := by
    rw [h.size_eq, Spine.size, Spine.size, Spine.payloads_push, Branch.payloads, Spine.payloads]
  current := by rw [Spine.point_push]

theorem Holds.parent (h : b.Holds (.inside outer e inner)) :
    b.tree.parent b.current = some outer.point := by
  rw [h.current, ← h.wellFormed.mem_children_iff, h.at_point.1.children]
  simp [Spine.point]

theorem Holds.tag? (h : b.Holds s) : b.tree.tag? s.point = s.kind.element?.map (·.tag) := by
  rw [Tree.tag?, Tree.element?, h.at_point.kind?]
  rfl

/-! ## Text -/

theorem Holds.setLast {kind kind' : NodeKind} (h : b.Holds (s.push (.node kind inner)))
    (hcontainer : kind.isContainer = kind'.isContainer) :
    Holds { b with tree := b.tree.setKind s.size kind' } (s.push (.node kind' inner)) := by
  obtain ⟨hat, hkind, hchildren, hinner⟩ := Spine.at_push_iff.1 h.at_point
  have hset := kind?_setKind (has_of_kind? hkind) kind'
  have hsame : ∀ m, (b.tree.setKind s.size kind').children m = b.tree.children m := fun _ =>
    children_modify fun _ => rfl
  have hpos : s.size ≠ 0 := by rw [s.size_eq]; omega
  refine ⟨?_, Spine.at_push_iff.2 ⟨hat.frame (fun m hm => ?_) (fun m _ _ => hsame m) ?_, ?_, ?_, ?_⟩,
    ?_, ?_⟩
  · exact h.wellFormed.setKind hkind (fun hroot => absurd hroot hpos) hcontainer
  · rw [hset, if_neg (Nat.ne_of_gt hm)]
  · rw [hsame, hat.children]
  · rw [hset, if_pos rfl]
  · rw [hsame, hchildren]
  · refine hinner.frame fun m hm _ => ⟨?_, hsame m⟩
    rw [hset, if_neg (show s.size ≠ m by omega)]
  · rw [Tree.setKind, size_modify, h.size_eq]
    simp only [Spine.size, Spine.payloads_push, Branch.payloads, List.length_append, List.length_cons]
  · rw [h.current, Spine.point_push, Spine.point_push]

/-- A text that was completed last has nothing under it. -/
theorem Holds.text_childless {before : String} (h : b.Holds (s.push (.node (.text before) inner))) :
    inner = [] := by
  obtain ⟨-, hkind, hinner, -⟩ := Spine.at_push_iff.1 h.at_point
  by_contra hne
  obtain ⟨kind, hkind', hcontainer⟩ := h.wellFormed.container s.size (by
    rw [hinner]
    cases inner with
    | nil => exact absurd rfl hne
    | cons => simp [tops])
  rw [hkind, Option.some.injEq] at hkind'
  simp [← hkind', NodeKind.isContainer] at hcontainer

theorem Holds.addText (h : b.Holds s) (data : String) (location : Option Location) :
    (b.addText data location).Holds (s.addText data) := by
  unfold Builder.addText Spine.addText
  split
  · exact h
  have hchildren : b.tree.children b.current = tops (s.point + 1) s.done := by
    rw [h.current, h.at_point.children, List.append_nil]
  rw [hchildren]
  rcases List.eq_nil_or_concat' s.done with hdone | ⟨bs, last, hdone⟩
  · have hjoin : s.mapDone (Spine.joinText data) = s.push (.node (.text data) []) := by
      cases s <;> simp_all [Spine.done, Spine.mapDone, Spine.push, Spine.joinText]
    rw [hdone, hjoin]
    exact h.add _ _
  obtain ⟨kind, inner⟩ := last
  have hpush := Spine.eq_push_of_done hdone
  generalize s.mapDone (fun _ => bs) = s' at hpush
  subst hpush
  obtain ⟨-, hkind, -, -⟩ := Spine.at_push_iff.1 h.at_point
  have hlast : b.tree.text? s'.size = kind.text? := by
    rw [Tree.text?, hkind]
    rfl
  rw [Spine.done_push, getLast?_tops, Spine.point_push, ← Spine.size_eq]
  dsimp only
  rw [hlast]
  cases htext : kind.text? with
  | none =>
    rw [Spine.mapDone_joinText_other data s' inner htext]
    exact h.add _ _
  | some before =>
    obtain rfl : kind = .text before := by
      cases kind <;> simp [NodeKind.text?] at htext
      rw [htext]
    obtain rfl := h.text_childless
    rw [Spine.mapDone_joinText_text]
    exact h.setLast rfl

/-! ## Closing -/

theorem Holds.openNodes (h : b.Holds s) : b.openNodes = s.opens := by
  rw [Builder.openNodes, h.current,
    h.at_point.climb h.wellFormed (by rw [h.size_eq]; exact s.depth_lt_size),
    List.takeWhile_append_of_pos (by simpa using s.opens_ne_root)]
  simp

/-- The innermost open node with a tag is where the spine is left. -/
theorem Holds.find_open (h : b.Holds s) (tag : String) :
    match s.close? tag with
    | none => b.openNodes.find? (fun n => b.tree.tag? n == some tag) = none
    | some s' => ∃ n, b.openNodes.find? (fun n => b.tree.tag? n == some tag) = some n ∧
        Holds { b with current := (b.tree.parent n).getD Tree.root } s' := by
  rw [h.openNodes]
  fun_induction Spine.close? tag s generalizing b with
  | case1 done => rfl
  | case2 outer e inner htag =>
    refine ⟨outer.size, ?_, ?_⟩
    · have hfound : b.tree.tag? outer.size = some e.tag := h.tag?
      rw [Spine.opens, List.find?_cons_of_pos (by simpa [hfound] using htag)]
    · have hparent := h.at_point.parent h.wellFormed
      rw [hparent]
      exact h.leave
  | case3 outer e inner htag ih =>
    have hskip : b.tree.tag? outer.size = some e.tag := h.tag?
    rw [Spine.opens, List.find?_cons_of_neg (by simpa [hskip] using htag), ← Spine.opens_push]
    have := ih h.leave
    exact this

theorem Holds.close (h : b.Holds s) (tag : String) :
    (b.close tag).Holds ((s.close? tag).getD s) := by
  have hfind := h.find_open tag
  unfold Builder.close
  split at hfind
  · rename_i hclose
    rw [hfind, hclose]
    exact h
  · rename_i s' hclose
    obtain ⟨n, hn, hs'⟩ := hfind
    rw [hn, hclose]
    exact hs'

theorem Holds.closeFor (h : b.Holds s) (tag : String) : (b.closeFor tag).Holds (s.closeFor tag) := by
  unfold Builder.closeFor
  cases s with
  | document done => 
    rw [h.current, h.tag?]
    exact h
  | inside outer e inner =>
    rw [h.current, h.tag?, Spine.closeFor, ← h.current]
    dsimp only [Spine.kind, NodeKind.element?, Option.map_some]
    split
    · rw [h.parent]
      exact h.leave
    · exact h

/-! ## Elements and whole runs -/

/-- Verbatim content goes into the element that was added last. -/
theorem Holds.addContent (h : b.Holds (s.push (.node (.element e) []))) (content : Option String) :
    Holds (match content with
      | some data => if data.isEmpty then b else b.addUnder s.size (.text data) none
      | none => b) (s.push (.node (.element e) (Spine.contentBranches content))) := by
  unfold Spine.contentBranches
  cases content with
  | none => exact h
  | some data =>
    dsimp only
    split
    · exact h
    · have hinner := (h.enter.add (.text data) none).leave
      have hcurrent : s.point = b.current := by rw [h.current, Spine.point_push]
      rw [hcurrent] at hinner
      exact hinner

theorem Holds.addElement (h : b.Holds s) (e : Element) (model : ContentModel)
    (content : Option String) (location : Option Location) :
    (b.addElement e model content location).Holds (s.addElement e model content) := by
  have hadd := (h.add (.element e) location).addContent content
  unfold Builder.addElement Spine.addElement
  rw [h.size_eq]
  dsimp only
  split
  · exact hadd.enter
  · exact hadd

theorem Holds.step (h : b.Holds s) (o : ParseOptions) (l : Lexeme) :
    (b.step o l).Holds (s.step o l) := by
  unfold Builder.step Spine.step
  split
  · exact h.addText _ _
  · exact h.add _ _
  · exact h.add _ _
  · exact h.close _
  · rename_i tag attributes selfClosing _
    have hfor : (if o.xml then b else b.closeFor tag).Holds (if o.xml then s else s.closeFor tag) := by
      split
      · exact h
      · exact h.closeFor tag
    dsimp only
    split
    · exact hfor.addElement _ _ _ _
    · exact hfor

theorem Holds.foldl (h : b.Holds s) (o : ParseOptions) (ls : List Lexeme) :
    (ls.foldl (Builder.step o) b).Holds (ls.foldl (Spine.step o) s) := by
  induction ls generalizing b s with
  | nil => exact h
  | cons l ls ih => exact ih (h.step o l)

end Builder

/-! ## Trees of texts -/

/-- The tokens of a text under parse options. -/
def ParseOptions.lexemes (o : ParseOptions) (html : String) : List Lexeme :=
  (Scanner.ofString html o.folding).stream o.xml

/-- The spine that a text leaves. -/
def Spine.ofText (html : String) (o : ParseOptions) : Spine :=
  (o.lexemes html).foldl (Spine.step o) (.document [])

/-- The branch of a text. -/
def Branch.ofText (html : String) (o : ParseOptions) : Branch := (Spine.ofText html o).whole

namespace Tree

variable (html : String) (o : ParseOptions)

theorem holds_parse : ∃ b : Builder, b.tree = parse html o ∧ b.Holds (Spine.ofText html o) := by
  refine ⟨_, rfl, ?_⟩
  rw [Builder.run_eq_foldl]
  exact Builder.holds_empty.foldl o _

theorem wellFormed_parse : (parse html o).WellFormed := by
  obtain ⟨b, hb, h⟩ := holds_parse html o
  exact hb ▸ h.wellFormed

/-- The branch of a text fills its tree, numbered in document order. -/
theorem laidOut_parse : (Branch.ofText html o).LaidOut (parse html o) root := by
  obtain ⟨b, hb, h⟩ := holds_parse html o
  exact hb ▸ h.at_point.whole

theorem size_parse : (parse html o).size = (Branch.ofText html o).size := by
  obtain ⟨b, hb, h⟩ := holds_parse html o
  rw [← hb, h.size_eq, Spine.size, Branch.size, Branch.ofText, Spine.payloads_whole]

theorem branch?_parse : (parse html o).branch? root = some (Branch.ofText html o) :=
  (laidOut_parse html o).branchTo (by rw [size_parse]; exact Nat.le_succ _)

/-- The walk over the document passes all numbers in order. -/
theorem subtree_parse : (parse html o).subtree root = List.range' 0 (parse html o).size := by
  have hwalk : (parse html o).preorder ((parse html o).size + 1) (root :: []) = _ :=
    (laidOut_parse html o).preorder (by rw [size_parse]; exact Nat.le_succ _)
  rw [preorder_nil, List.append_nil, ← size_parse] at hwalk
  exact hwalk

theorem descendants_parse :
    (parse html o).descendants root = List.range' 1 ((parse html o).size - 1) := by
  have hwalk := subtree_parse html o
  obtain ⟨k, hk⟩ := Nat.exists_eq_succ_of_ne_zero (Nat.ne_of_gt (has_iff.1 (wellFormed_parse html o).has_root))
  rw [hk, subtree_eq_cons, List.range'_succ, List.cons.injEq] at hwalk
  rw [hwalk.2, hk]
  rfl

/-- The payloads met in document order are those of the branch. -/
theorem map_kind?_parse : ((parse html o).subtree root).map (parse html o).kind? =
    (Branch.ofText html o).payloads.map some := by
  rw [subtree_parse, size_parse]
  exact (laidOut_parse html o).map_kind?

end Tree

end HtmlQuery
