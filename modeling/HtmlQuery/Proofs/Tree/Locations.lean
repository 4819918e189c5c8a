import HtmlQuery.Proofs.Tree.Building
import Mathlib.Data.List.DropRight

/-!
# Locations

A tree that is read with locations notes of each node the place where its token starts. Lines and columns are
counted on from token to token, and yet each place is the one that counting from scratch gives (`afterAll_start`).
Every scanner is behind a part of its text (`Cursor.Within`), each token leaves the scanner further on (`next_starts`),
and a token adds at most its own place to those of the tree (`marks_step`), so the places of a tree are in the order
of its nodes. The places are all that depends on whether they are noted (`step_unlocated`).
-/

namespace HtmlQuery

/-! ## Places of a text -/

namespace Location

/-- The place behind a text, counted from scratch. -/
def behind (pre : List Char) : Location where
  line := 1 + pre.count '\n'
  column := 1 + (pre.rtakeWhile (· ≠ '\n')).length
  offset := utf8Length pre

theorem afterAll_start (pre : List Char) : start.afterAll pre = behind pre := by
  induction pre using List.reverseRecOn with
  | nil => rfl
  | append_singleton pre c ih =>
    rw [afterAll_append, ih, afterAll_cons, afterAll_nil, after]
    by_cases hc : c = '\n'
    · subst hc
      simp [behind, List.rtakeWhile_concat_neg, Nat.add_assoc]
    · simp [behind, List.rtakeWhile_concat_pos, hc, Nat.add_assoc]

/-- A place in a text, in front of a `<` if markup starts there. -/
def Starts (input : List Char) (markup : Bool) (p : Location) : Prop :=
  ∃ pre rest, input = pre ++ rest ∧ p = behind pre ∧ (markup = true → rest.head? = some '<')

end Location

/-! ## Tokens -/

namespace Cursor

variable {input : List Char} {c c' : Cursor}

/-- The cursor has read some part of a text. -/
def Within (input : List Char) (c : Cursor) : Prop := ∃ pre, At input pre c

theorem Within.upTo (h : Within input c) (rest : List Char) : Within input (c.upTo rest) := by
  obtain ⟨pre, hat⟩ := h
  exact ⟨_, hat.move _⟩

theorem Within.starts (h : Within input c) {markup : Bool} (hhead : markup = true → c.rest.head? = some '<') :
    c.location.Starts input markup := by
  obtain ⟨pre, hinput, hlocation⟩ := h
  exact ⟨pre, c.rest, hinput, hlocation.trans (Location.afterAll_start pre), hhead⟩

/-- Of two cursors in a text, the one with less to read has read more. -/
theorem Within.exists_read (h : Within input c) (h' : Within input c') (hle : c'.rest.length ≤ c.rest.length) :
    ∃ mid, c.rest = mid ++ c'.rest ∧ c'.offset = c.offset + utf8Length mid := by
  obtain ⟨pre, hat⟩ := h
  obtain ⟨pre', hat'⟩ := h'
  have hinput : pre ++ c.rest = pre' ++ c'.rest := hat.1.symm.trans hat'.1
  have hlength := congrArg List.length hinput
  rw [List.length_append, List.length_append] at hlength
  obtain ⟨mid, rfl⟩ : pre <+: pre' :=
    List.prefix_of_prefix_length_le ⟨_, hinput⟩ (List.prefix_append ..) (by omega)
  rw [List.append_assoc] at hinput
  exact ⟨mid, List.append_cancel_left hinput, by rw [hat.offset_eq, hat'.offset_eq, utf8Length_append]⟩

theorem Within.offset_le (h : Within input c) (h' : Within input c') (hle : c'.rest.length ≤ c.rest.length) :
    c.offset ≤ c'.offset := by
  obtain ⟨mid, -, hoffset⟩ := h.exists_read h' hle
  omega

theorem Within.offset_lt (h : Within input c) (h' : Within input c') (hlt : c'.rest.length < c.rest.length) :
    c.offset < c'.offset := by
  obtain ⟨mid, hmid, hoffset⟩ := h.exists_read h' (Nat.le_of_lt hlt)
  cases mid with
  | nil => exact absurd hlt (hmid ▸ Nat.lt_irrefl _)
  | cons x mid =>
    have := x.utf8Size_pos
    rw [utf8Length_cons] at hoffset
    omega

end Cursor

/-- Whether a token is written as markup. -/
def Token.isMarkup : Token → Bool
  | text _ => false
  | _ => true

theorem Token.head_of_scan {fold : Folding} {cs rest : List Char} {token : Token}
    (h : scan fold cs = (some token, rest)) (hmarkup : token.isMarkup = true) : cs.head? = some '<' := by
  unfold scan at h
  split at h
  · rfl
  · obtain ⟨htoken, -⟩ := Prod.mk.inj h
    obtain rfl := Option.some.inj htoken
    exact absurd hmarkup Bool.false_ne_true

namespace Scanner

variable {input : List Char} {s s' : Scanner} {token : Token} {place : Location}

/-- What a construct is read from is longer than what is behind it. -/
theorem upTo_shorter {c : Char} {cs rest : List Char} {found : Option Token} (hrest : s.cursor.rest = c :: cs)
    (hscan : Token.scan s.folding (c :: cs) = (found, rest)) :
    (s.upTo rest).cursor.rest.length < s.cursor.rest.length := by
  have hlt := Token.scan_shorter s.folding c cs
  rw [hscan, ← hrest] at hlt
  rwa [rest_upTo_length (Nat.le_of_lt hlt)]

/-- A token starts at a place of the text, not in front of the scanner and in front of the scanner behind it. -/
structure Starts (input : List Char) (s s' : Scanner) (token : Token) (place : Location) : Prop where
  within : s'.cursor.Within input
  starts : place.Starts input token.isMarkup
  behind : s.offset ≤ place.offset
  before : place.offset < s'.offset

theorem next_starts (hin : s.cursor.Within input) (h : s.next = (some (token, place), s')) :
    Starts input s s' token place := by
  fun_induction next s with
  | case1 => simp at h
  | case2 s c cs hrest found rest hscan =>
    obtain ⟨hfound, rfl⟩ := Prod.mk.inj h
    obtain ⟨rfl, rfl⟩ := Prod.mk.inj (Option.some.inj hfound)
    have hwithin : (s.upTo rest).cursor.Within input := hin.upTo rest
    refine ⟨hwithin, hin.starts fun hmarkup => ?_, Nat.le_refl _, hin.offset_lt hwithin (upTo_shorter hrest hscan)⟩
    rw [hrest]
    exact Token.head_of_scan hscan hmarkup
  | case3 s c cs hrest rest hscan ih =>
    have hwithin : (s.upTo rest).cursor.Within input := hin.upTo rest
    have hle : s.offset ≤ (s.upTo rest).offset := hin.offset_le hwithin (Nat.le_of_lt (upTo_shorter hrest hscan))
    have hlater := ih hwithin h
    exact ⟨hlater.within, hlater.starts, Nat.le_trans hle hlater.behind, hlater.before⟩

theorem within_verbatim (hin : s.cursor.Within input) (xml : Bool) (token : Token) :
    (s.verbatim xml token).2.cursor.Within input := by
  cases token with
  | startTag tag attributes selfClosing =>
    rw [verbatim]
    cases Rules.contentModel tag selfClosing xml with
    | rawText => exact hin.upTo _
    | rcdata => exact hin.upTo _
    | normal => exact hin
    | void => exact hin
  | _ => exact hin

end Scanner

/-! ## Marks of a tree -/

/-- Whether a payload is written as markup of its own. -/
def NodeKind.isMarkup : NodeKind → Bool
  | document => false
  | text _ => false
  | _ => true

/-- Whether a node is markup, and what it notes of its place. -/
def Node.mark (node : Node) : Bool × Option Location := (node.kind.isMarkup, node.location)

namespace Tree

variable {t : Tree} {n : NodeId} {f : Node → Node}

def marks (t : Tree) : List (Bool × Option Location) := t.nodes.toList.map Node.mark

theorem getElem?_marks (t : Tree) (n : NodeId) : t.marks[n]? = (t.get? n).map Node.mark := by
  rw [marks, List.getElem?_map, Array.getElem?_toList]
  rfl

theorem marks_alloc (t : Tree) (kind : NodeKind) (location : Option Location) :
    (t.alloc kind location).marks = t.marks ++ [(kind.isMarkup, location)] := by
  rw [marks, alloc, Array.toList_push, List.map_append]
  rfl

theorem marks_modify (hf : ∀ x, t.get? n = some x → (f x).mark = x.mark) : (t.modify n f).marks = t.marks := by
  refine List.ext_getElem? fun m => ?_
  rw [getElem?_marks, getElem?_marks, get?_modify]
  split
  · subst m
    cases h : t.get? n with
    | none => rfl
    | some x => exact congrArg some (hf x h)
  · rfl

theorem marks_join (t : Tree) (prev next : Option NodeId) : (t.join prev next).marks = t.marks := by
  unfold join
  cases prev with
  | none =>
    cases next with
    | none => rfl
    | some n => exact marks_modify fun _ _ => rfl
  | some p =>
    cases next with
    | none => exact marks_modify fun _ _ => rfl
    | some n => rw [marks_modify, marks_modify] <;> exact fun _ _ => rfl

theorem marks_detach (t : Tree) (n : NodeId) : (t.detach n).marks = t.marks := by
  unfold detach
  split
  · rfl
  · split
    · rfl
    · dsimp only
      rw [marks_join, marks_modify, marks_modify] <;> exact fun _ _ => rfl

theorem marks_attach (t : Tree) (p c : NodeId) : (t.attach p c).marks = t.marks := by
  unfold attach
  dsimp only
  split
  · rw [marks_modify, marks_modify, marks_modify, marks_modify, marks_detach] <;> exact fun _ _ => rfl
  · rw [marks_modify, marks_modify, marks_detach] <;> exact fun _ _ => rfl

/-- A text that grows is a text as before. -/
theorem marks_setKind_text {before : String} (h : t.text? n = some before) (data : String) :
    (t.setKind n (.text data)).marks = t.marks :=
  marks_modify fun x hx => by
    rw [text?, kind?, hx] at h
    have hkind : x.kind.text? = some before := h
    obtain ⟨kind, _⟩ := x
    cases kind with
    | text => rfl
    | _ => exact absurd hkind.symm (Option.some_ne_none _)

end Tree

namespace Builder

theorem marks_addUnder (b : Builder) (p : NodeId) (kind : NodeKind) (location : Option Location) :
    (b.addUnder p kind location).tree.marks = b.tree.marks ++ [(kind.isMarkup, location)] := by
  rw [addUnder, Tree.marks_attach, Tree.marks_alloc]

/-- A text adds its place, or none where it joins another. -/
theorem marks_addText (b : Builder) (data : String) (location : Option Location) :
    ∃ added, added <+: [(false, location)] ∧ (b.addText data location).tree.marks = b.tree.marks ++ added := by
  have hadd : ∃ added, added <+: [(false, location)] ∧
      (b.add (.text data) location).tree.marks = b.tree.marks ++ added :=
    ⟨_, List.prefix_rfl, b.marks_addUnder b.current (.text data) location⟩
  unfold addText
  split
  · exact ⟨[], List.nil_prefix, (List.append_nil _).symm⟩
  · split
    · exact hadd
    · split
      · rename_i last _ _ before htext
        have hjoined := Tree.marks_setKind_text htext (before ++ data)
        exact ⟨[], List.nil_prefix, hjoined.trans (List.append_nil _).symm⟩
      · exact hadd

/-- An element adds its place; its verbatim content has none. -/
theorem marks_addElement (b : Builder) (e : Element) (model : ContentModel) (content : Option String)
    (location : Option Location) : ∃ added, added <+: [(true, location), (false, none)] ∧
      (b.addElement e model content location).tree.marks = b.tree.marks ++ added := by
  have hadd : (b.add (.element e) location).tree.marks = b.tree.marks ++ [(true, location)] := b.marks_addUnder ..
  have hone : [(true, location)] <+: [(true, location), (false, none)] := List.prefix_append [_] [_]
  unfold addElement
  dsimp only
  rw [apply_ite Builder.tree, ite_self]
  split
  · split
    · exact ⟨_, hone, hadd⟩
    · exact ⟨_, List.prefix_rfl, by rw [marks_addUnder, hadd, List.append_assoc]; rfl⟩
  · exact ⟨_, hone, hadd⟩

theorem tree_close (b : Builder) (tag : String) : (b.close tag).tree = b.tree := by
  unfold close
  split <;> rfl

theorem tree_closeFor (b : Builder) (tag : String) : (b.closeFor tag).tree = b.tree := by
  unfold closeFor
  split
  · split <;> rfl
  · rfl

/-- A token adds its own place at most, and behind it a node without one. -/
theorem marks_step (o : ParseOptions) (b : Builder) (l : Lexeme) :
    ∃ added, added <+: [(l.token.isMarkup, o.note l.place), (false, none)] ∧
      (b.step o l).tree.marks = b.tree.marks ++ added := by
  obtain ⟨token, place, content⟩ := l
  have hnone : ∃ added, added <+: [(token.isMarkup, o.note place), (false, none)] ∧
      b.tree.marks = b.tree.marks ++ added := ⟨[], List.nil_prefix, (List.append_nil _).symm⟩
  have hone : [(token.isMarkup, o.note place)] <+: [(token.isMarkup, o.note place), (false, none)] :=
    List.prefix_append [_] [_]
  cases token with
  | text data =>
    obtain ⟨added, hadded, hmarks⟩ := b.marks_addText data (o.note place)
    exact ⟨added, hadded.trans hone, hmarks⟩
  | comment data => exact ⟨_, hone, b.marks_addUnder ..⟩
  | doctype data => exact ⟨_, hone, b.marks_addUnder ..⟩
  | endTag tag =>
    rw [step, tree_close]
    exact hnone
  | startTag tag attributes selfClosing =>
    have hfor : (if o.xml then b else b.closeFor tag).tree = b.tree := by
      split
      · rfl
      · exact b.tree_closeFor tag
    rw [← hfor] at hnone ⊢
    rw [step]
    dsimp only
    split
    · exact marks_addElement ..
    · exact hnone

end Builder

/-! ## Places of a tree -/

namespace Tree

/-- The marks of a tree for which a text has been read up to an offset. -/
structure MarkedTo (input : List Char) (limit : Nat) (ms : List (Bool × Option Location)) : Prop where
  starts : ∀ m ∈ ms, ∀ p ∈ m.2, p.Starts input m.1
  /-- What comes next starts behind all that came before. -/
  before : ∀ m ∈ ms, ∀ p ∈ m.2, p.offset < limit
  increasing : ms.Pairwise fun l m => ∀ p ∈ l.2, ∀ q ∈ m.2, p.offset < q.offset
  noted : (true, none) ∉ ms

variable {t : Tree} {input : List Char} {limit : Nat} {ms : List (Bool × Option Location)} {place : Location}
  {markup : Bool}

theorem markedTo_empty (input : List Char) : MarkedTo input 0 empty.marks := by
  have hmarks : empty.marks = [(false, none)] := rfl
  rw [hmarks]
  exact ⟨by simp, by simp, List.pairwise_singleton .., by simp⟩

theorem MarkedTo.initial {ls : List (Bool × Option Location)} (h : MarkedTo input limit ms) (hinitial : ls <+: ms) :
    MarkedTo input limit ls where
  starts := fun m hm => h.starts m (hinitial.subset hm)
  before := fun m hm => h.before m (hinitial.subset hm)
  increasing := h.increasing.sublist hinitial.sublist
  noted := fun hm => h.noted (hinitial.subset hm)

theorem MarkedTo.mono {limit' : Nat} (h : MarkedTo input limit ms) (hle : limit ≤ limit') :
    MarkedTo input limit' ms :=
  { h with before := fun m hm p hp => Nat.lt_of_lt_of_le (h.before m hm p hp) hle }

/-- The place of the next token comes behind those before. -/
theorem MarkedTo.append (h : MarkedTo input limit ms) (hstarts : place.Starts input markup)
    (hlimit : limit ≤ place.offset) :
    MarkedTo input (place.offset + 1) (ms ++ [(markup, some place), (false, none)]) where
  starts := by simpa [or_imp, forall_and, hstarts] using h.starts
  before := by
    simp only [List.mem_append, List.mem_cons, List.not_mem_nil, or_false]
    rintro m (hm | rfl | rfl) p hp
    · exact Nat.lt_succ_of_lt (Nat.lt_of_lt_of_le (h.before m hm p hp) hlimit)
    · obtain rfl := Option.some.inj hp
      exact Nat.lt_succ_self _
    · simp at hp
  increasing := by
    refine List.pairwise_append.2 ⟨h.increasing, by simp, ?_⟩
    simp only [List.mem_cons, List.not_mem_nil, or_false]
    rintro l hl m (rfl | rfl) p hp q hq
    · obtain rfl := Option.some.inj hq
      exact Nat.lt_of_lt_of_le (h.before l hl p hp) hlimit
    · simp at hq
  noted := by simpa using h.noted

/-- The nodes of a tree keep where they start in a text. -/
structure Located (input : List Char) (t : Tree) : Prop where
  /-- A place that a node keeps is behind a part of the text, and an element, a comment or a document type starts
  there with a `<`. -/
  starts : ∀ n kind p, t.kind? n = some kind → t.location n = some p → p.Starts input kind.isMarkup
  /-- Later nodes start later in the text. -/
  increasing : ∀ m n p q, t.location m = some p → t.location n = some q → m < n → p.offset < q.offset
  /-- Every element, comment and document type keeps its place. -/
  noted : ∀ n kind, t.kind? n = some kind → kind.isMarkup = true → ∃ p, t.location n = some p

theorem getElem?_marks_of_location {n : NodeId} {p : Location} (h : t.location n = some p) :
    ∃ kind, t.kind? n = some kind ∧ t.marks[n]? = some (kind.isMarkup, some p) := by
  obtain ⟨node, hnode, hp⟩ := Option.bind_eq_some_iff.1 h
  refine ⟨node.kind, by rw [kind?, hnode]; rfl, ?_⟩
  rw [getElem?_marks, hnode, ← hp]
  rfl

theorem MarkedTo.located (h : MarkedTo input limit t.marks) : t.Located input where
  starts := fun n kind p hkind hp => by
    obtain ⟨kind', hkind', hmark⟩ := getElem?_marks_of_location hp
    obtain rfl := Option.some.inj (hkind.symm.trans hkind')
    exact h.starts _ (List.mem_of_getElem? hmark) p rfl
  increasing := fun m n p q hp hq hlt => by
    obtain ⟨_, -, hm⟩ := getElem?_marks_of_location hp
    obtain ⟨_, -, hn⟩ := getElem?_marks_of_location hq
    obtain ⟨hmlt, hm⟩ := List.getElem?_eq_some_iff.1 hm
    obtain ⟨hnlt, hn⟩ := List.getElem?_eq_some_iff.1 hn
    have hpair := List.pairwise_iff_getElem.1 h.increasing m n hmlt hnlt hlt
    rw [hm, hn] at hpair
    exact hpair p rfl q rfl
  noted := fun n kind hkind hmarkup => by
    obtain ⟨node, hnode, rfl⟩ := Option.map_eq_some_iff.1 hkind
    have hmark : t.marks[n]? = some (node.kind.isMarkup, node.location) := by
      rw [getElem?_marks, hnode]
      rfl
    cases hlocation : node.location with
    | none =>
      rw [hmarkup, hlocation] at hmark
      exact absurd (List.mem_of_getElem? hmark) h.noted
    | some p => exact ⟨p, by rw [location, hnode]; exact hlocation⟩

end Tree

namespace Builder

open HtmlQuery.Tree

variable {input : List Char} {o : ParseOptions}

/-- Whatever is read, the places of the nodes stay in order, in front of the scanner. -/
theorem markedTo_run (ho : o.locations = true) (b : Builder) (s : Scanner) (hin : s.cursor.Within input)
    (h : MarkedTo input s.offset b.tree.marks) : ∃ limit, MarkedTo input limit (b.run o s).tree.marks := by
  fun_induction run o b s with
  | case1 b s s' hnext => exact ⟨_, h⟩
  | case2 b s token place s' hnext ih =>
    rw [take_eq] at ih ⊢
    have hstarts := Scanner.next_starts hin hnext
    have hwithin := Scanner.within_verbatim hstarts.within o.xml token
    refine ih hwithin ?_
    have hoffset : s'.offset ≤ (s'.verbatim o.xml token).2.offset :=
      hstarts.within.offset_le hwithin (Scanner.verbatim_length ..)
    obtain ⟨added, hadded, hmarks⟩ := marks_step o b ⟨token, place, (s'.verbatim o.xml token).1⟩
    have hnote : o.note place = some place := if_pos ho
    rw [hnote] at hadded
    rw [hmarks]
    have hmarked := (h.append hstarts.starts hstarts.behind).initial ((List.prefix_append_right_inj _).2 hadded)
    exact hmarked.mono (Nat.lt_of_lt_of_le hstarts.before hoffset)

end Builder

/-! ## Without places -/

/-- A node that keeps no place. -/
def Node.unlocated (node : Node) : Node := { node with location := none }

namespace Tree

/-- A tree of which no node keeps its place. -/
def unlocated (t : Tree) : Tree := ⟨t.nodes.map Node.unlocated⟩

variable {t : Tree} {n : NodeId} {f : Node → Node}

theorem unlocated_empty : empty.unlocated = empty := by simp [unlocated, empty, Node.unlocated, Node.detached]

theorem get?_unlocated (t : Tree) (n : NodeId) : t.unlocated.get? n = (t.get? n).map Node.unlocated :=
  Array.getElem?_map

@[simp] theorem size_unlocated (t : Tree) : t.unlocated.size = t.size := Array.size_map

@[simp] theorem kind?_unlocated (t : Tree) (n : NodeId) : t.unlocated.kind? n = t.kind? n := by
  rw [kind?, get?_unlocated, Option.map_map]
  rfl

@[simp] theorem parent_unlocated (t : Tree) (n : NodeId) : t.unlocated.parent n = t.parent n := by
  rw [parent, get?_unlocated, Option.bind_map]
  rfl

@[simp] theorem children_unlocated (t : Tree) (n : NodeId) : t.unlocated.children n = t.children n := by
  rw [children_eq, get?_unlocated, Option.map_map, children_eq]
  rfl

@[simp] theorem text?_unlocated (t : Tree) (n : NodeId) : t.unlocated.text? n = t.text? n := by
  rw [text?, kind?_unlocated, text?]

@[simp] theorem tag?_unlocated (t : Tree) (n : NodeId) : t.unlocated.tag? n = t.tag? n := by
  rw [tag?, element?, kind?_unlocated, tag?, element?]

@[simp] theorem climb_unlocated (t : Tree) (fuel : Nat) (n? : Option NodeId) :
    t.unlocated.climb fuel n? = t.climb fuel n? := by
  fun_induction climb t fuel n? with
  | case1 => rfl
  | case2 fuel hfuel => exact climb_none ..
  | case3 fuel n ih => rw [climb, parent_unlocated, ih]

theorem alloc_unlocated (t : Tree) (kind : NodeKind) (location : Option Location) :
    t.unlocated.alloc kind none = (t.alloc kind location).unlocated := by
  rw [alloc, alloc, unlocated, unlocated, Array.map_push]
  rfl

/-- What changes nodes without regard to their places does the same without them. -/
theorem modify_unlocated (hf : ∀ x, f x.unlocated = (f x).unlocated) :
    t.unlocated.modify n f = (t.modify n f).unlocated := by
  refine ext_get? fun m => ?_
  rw [get?_modify, get?_unlocated, get?_unlocated, get?_modify]
  split
  · rw [Option.map_map, Option.map_map]
    exact congrArg (Option.map · _) (funext hf)
  · rfl

theorem join_unlocated (t : Tree) (prev next : Option NodeId) :
    t.unlocated.join prev next = (t.join prev next).unlocated := by
  cases prev with
  | none =>
    cases next with
    | none => rfl
    | some n => exact modify_unlocated fun _ => rfl
  | some p =>
    cases next with
    | none => exact modify_unlocated fun _ => rfl
    | some n =>
      unfold join
      dsimp only
      rw [modify_unlocated, modify_unlocated] <;> exact fun _ => rfl

theorem detach_unlocated (t : Tree) (n : NodeId) : t.unlocated.detach n = (t.detach n).unlocated := by
  unfold detach
  rw [get?_unlocated]
  cases t.get? n with
  | none => rfl
  | some node =>
    dsimp only [Option.map_some, Node.unlocated]
    cases node.parent with
    | none => rfl
    | some p =>
      dsimp only
      rw [modify_unlocated, modify_unlocated, join_unlocated] <;> exact fun _ => rfl

theorem attach_unlocated (t : Tree) (p c : NodeId) : t.unlocated.attach p c = (t.attach p c).unlocated := by
  unfold attach
  rw [detach_unlocated]
  dsimp only
  rw [children_unlocated]
  cases ((t.detach c).children p).getLast? with
  | none =>
    dsimp only
    rw [modify_unlocated, modify_unlocated] <;> exact fun _ => rfl
  | some last =>
    dsimp only
    rw [modify_unlocated, modify_unlocated, modify_unlocated, modify_unlocated] <;> exact fun _ => rfl

end Tree

namespace Builder

open HtmlQuery.Tree

/-- A builder of a tree that keeps no places. -/
def unlocated (b : Builder) : Builder := { b with tree := b.tree.unlocated }

variable (b : Builder)

theorem addUnder_unlocated (p : NodeId) (kind : NodeKind) (location : Option Location) :
    b.unlocated.addUnder p kind none = (b.addUnder p kind location).unlocated := by
  rw [addUnder, unlocated, size_unlocated, alloc_unlocated _ kind location, attach_unlocated]
  rfl

theorem addText_unlocated (data : String) (location : Option Location) :
    b.unlocated.addText data none = (b.addText data location).unlocated := by
  have hadd : b.unlocated.add (.text data) none = (b.add (.text data) location).unlocated :=
    b.addUnder_unlocated ..
  have hchildren : b.unlocated.tree.children b.unlocated.current = b.tree.children b.current :=
    children_unlocated ..
  unfold addText
  rw [hchildren]
  split
  · rfl
  · cases (b.tree.children b.current).getLast? with
    | none => exact hadd
    | some last =>
      have htext : b.unlocated.tree.text? last = b.tree.text? last := text?_unlocated ..
      dsimp only
      rw [htext]
      cases b.tree.text? last with
      | none => exact hadd
      | some before => exact congrArg (Builder.mk · b.current) (modify_unlocated fun _ => rfl)

theorem close_unlocated (tag : String) : b.unlocated.close tag = (b.close tag).unlocated := by
  have hopen : b.unlocated.openNodes = b.openNodes := by
    rw [openNodes, unlocated, size_unlocated, climb_unlocated, openNodes]
  unfold close
  rw [hopen]
  simp only [unlocated, tag?_unlocated, parent_unlocated]
  split <;> rfl

theorem closeFor_unlocated (tag : String) : b.unlocated.closeFor tag = (b.closeFor tag).unlocated := by
  unfold closeFor
  simp only [unlocated, tag?_unlocated, parent_unlocated]
  split
  · split <;> rfl
  · rfl

theorem addElement_unlocated (e : Element) (model : ContentModel) (content : Option String)
    (location : Option Location) :
    b.unlocated.addElement e model content none = (b.addElement e model content location).unlocated := by
  have hadd : b.unlocated.add (.element e) none = (b.add (.element e) location).unlocated :=
    b.addUnder_unlocated ..
  have hsize : b.unlocated.tree.size = b.tree.size := size_unlocated _
  unfold addElement
  rw [hadd, hsize]
  cases content with
  | none =>
    dsimp only
    split <;> rfl
  | some data =>
    dsimp only
    rw [addUnder_unlocated _ _ _ none]
    split <;> split <;> rfl

/-- Whether places are kept changes nothing else of what a token does. -/
theorem step_unlocated (o : ParseOptions) (l : Lexeme) :
    b.unlocated.step { o with locations := false } l = (b.step o l).unlocated := by
  obtain ⟨token, place, content⟩ := l
  cases token with
  | text data => exact b.addText_unlocated ..
  | comment data => exact b.addUnder_unlocated ..
  | doctype data => exact b.addUnder_unlocated ..
  | endTag tag => exact b.close_unlocated ..
  | startTag tag attributes selfClosing =>
    have hfor : (if o.xml then b.unlocated else b.unlocated.closeFor tag) =
        (if o.xml then b else b.closeFor tag).unlocated := by
      rw [closeFor_unlocated]
      split <;> rfl
    change (if keeps o _ _ then (if o.xml then b.unlocated else _).addElement _ _ _ none
      else if o.xml then b.unlocated else _) = _
    rw [hfor, addElement_unlocated _ _ _ _ (o.note place), step]
    dsimp only
    split <;> rfl

end Builder

namespace Tree

/-- **The places that a tree keeps are right, and nothing else depends on whether they are kept.** Each is the place
behind a part of the text, that of an element, a comment or a document type is in front of a `<`, and they come in
the order of the nodes. Without places the tree is the same tree. -/
theorem located_parse (html : String) (o : ParseOptions) (ho : o.locations = true) :
    (parse html o).Located html.toList ∧ parse html { o with locations := false } = (parse html o).unlocated := by
  constructor
  · have hin : (Scanner.ofString html o.folding).cursor.Within html.toList := ⟨[], Cursor.at_ofString html⟩
    obtain ⟨limit, h⟩ := Builder.markedTo_run ho .empty _ hin (markedTo_empty html.toList)
    exact h.located
  · have hsteps : (o.lexemes html).foldl (Builder.step { o with locations := false }) Builder.empty.unlocated =
        ((o.lexemes html).foldl (Builder.step o) .empty).unlocated :=
      List.foldl_hom Builder.unlocated (Builder.step_unlocated · o)
    rw [Builder.unlocated, Builder.empty, unlocated_empty] at hsteps
    rw [parse, parse, Builder.run_eq_foldl, Builder.run_eq_foldl]
    exact congrArg Builder.tree hsteps

/-- A line break and a character of two bytes stand in front of the element. -/
theorem located_parse_lines : let o : ParseOptions := ⟨.all, none, true, false⟩
    o.locations = true ∧ (parse "\u00e9\n<b>x</b>" o).location 2 = some ⟨2, 1, 3⟩ ∧
      (parse "\u00e9\n<b>x</b>" o).Located "\u00e9\n<b>x</b>".toList ∧
      parse "\u00e9\n<b>x</b>" { o with locations := false } = (parse "\u00e9\n<b>x</b>" o).unlocated :=
  ⟨rfl, by decide +kernel, located_parse _ _ rfl⟩

end Tree

end HtmlQuery
