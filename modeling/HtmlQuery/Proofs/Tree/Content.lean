import HtmlQuery.Proofs.Tree.Building
import HtmlQuery.Tree.Strings

/-!
# The content of a parsed text

Where the insertion point goes decides under which node something comes, but not in which order: each token adds
its payload or its text behind all that came before (`Spine.others_step`, `Spine.prose_step`). So the tree of a
text has the payloads of its tokens in their order, and the text of its tokens in theirs (`others_parse`,
`textContent_parse`); what a strainer turns down is missing and nothing else changes (`elements_parse`).
-/

namespace HtmlQuery

open Branch

/-! ## What tokens stand for -/

namespace Lexeme

/-- The element of a start tag. -/
def element? (l : Lexeme) : Option Element :=
  match l.token with
  | .startTag tag attributes _ => some (.ofAttributes tag attributes)
  | _ => none

/-- The element of a start tag with the text that a strainer tests it with. -/
def start? (l : Lexeme) : Option (Element × String) := l.element?.map (·, l.content.getD "")

/-- The payload other than text that a token stands for under parse options. -/
def other? (o : ParseOptions) (l : Lexeme) : Option NodeKind :=
  match l.token with
  | .comment data => some (.comment data)
  | .doctype data => some (.doctype data)
  | .startTag tag attributes _ =>
    if Builder.keeps o (.ofAttributes tag attributes) (l.content.getD "") then
      some (.element (.ofAttributes tag attributes))
    else none
  | .text _ => none
  | .endTag _ => none

/-- A payload other than text is that of a comment, of a document type or of an element. -/
theorem other?_cases {o : ParseOptions} {l : Lexeme} {kind : NodeKind} (h : l.other? o = some kind) :
    (∃ data, l.token = .comment data ∧ kind = .comment data) ∨
    (∃ data, l.token = .doctype data ∧ kind = .doctype data) ∨
    ∃ tag attributes selfClosing, l.token = .startTag tag attributes selfClosing ∧
      kind = .element (.ofAttributes tag attributes) := by
  obtain ⟨token, place, content⟩ := l
  cases token with
  | text data => cases h
  | endTag tag => cases h
  | comment data => exact .inl ⟨data, rfl, (Option.some.inj h).symm⟩
  | doctype data => exact .inr (.inl ⟨data, rfl, (Option.some.inj h).symm⟩)
  | startTag tag attributes selfClosing =>
    unfold other? at h
    dsimp only at h
    split at h
    · exact .inr (.inr ⟨tag, attributes, selfClosing, rfl, (Option.some.inj h).symm⟩)
    · cases h

/-- The text that a token stands for under parse options, verbatim content included. -/
def text? (o : ParseOptions) (l : Lexeme) : Option String :=
  match l.token with
  | .text data => some data
  | .startTag tag attributes _ =>
    if Builder.keeps o (.ofAttributes tag attributes) (l.content.getD "") then l.content else none
  | _ => none

end Lexeme

namespace NodeKind

/-- The payloads other than text. -/
def others (kinds : List NodeKind) : List NodeKind := kinds.filter (·.text?.isNone)

/-- The text of payloads. -/
def prose (kinds : List NodeKind) : String := String.join (kinds.filterMap text?)

/-- `after` has the payloads of `before` and behind them `new` and the text `data`. -/
def Adds (before after new : List NodeKind) (data : String) : Prop :=
  others after = others before ++ new ∧ prose after = prose before ++ data

theorem others_append (ks ls : List NodeKind) : others (ks ++ ls) = others ks ++ others ls :=
  List.filter_append ..

theorem prose_append (ks ls : List NodeKind) : prose (ks ++ ls) = prose ks ++ prose ls := by
  rw [prose, List.filterMap_append, String.join_append, prose, prose]

theorem prose_text (data : String) : prose [.text data] = data := by
  rw [prose, List.filterMap_cons]
  simp [text?]

variable {before after middle new new' ks : List NodeKind} {data data' : String}

theorem adds_refl : Adds ks ks [] "" := by simp [Adds]

theorem adds_append (before ks : List NodeKind) : Adds before (before ++ ks) (others ks) (prose ks) :=
  ⟨others_append .., prose_append ..⟩

theorem Adds.trans (h₁ : Adds before middle new data) (h₂ : Adds middle after new' data') :
    Adds before after (new ++ new') (data ++ data') := by
  rw [Adds, h₂.1, h₁.1, h₂.2, h₁.2, List.append_assoc, String.append_assoc]
  exact ⟨rfl, rfl⟩

theorem Adds.behind (h : Adds before after new data) (ks : List NodeKind) :
    Adds (ks ++ before) (ks ++ after) new data := by
  rw [Adds, others_append, others_append, prose_append, prose_append, h.1, h.2, List.append_assoc,
    String.append_assoc]
  exact ⟨rfl, rfl⟩

/-- A payload that is no text comes behind the others. -/
theorem adds_other {kind : NodeKind} (h : kind.text? = none) : Adds ks (ks ++ [kind]) [kind] "" := by
  have hadds := adds_append ks [kind]
  simpa [others, prose, h] using hadds

/-- A text comes behind the text before. -/
theorem adds_text : Adds ks (ks ++ [.text data]) [] data := by
  have hadds := adds_append ks [.text data]
  rw [prose_text] at hadds
  exact hadds

/-- A text that grows is a text that comes behind. -/
theorem adds_grow {old : String} : Adds (ks ++ [.text old]) (ks ++ [.text (old ++ data)]) [] data := by
  rw [Adds, others_append, others_append, prose_append, prose_append, prose_text, prose_text,
    String.append_assoc]
  exact ⟨(List.append_nil _).symm, rfl⟩

end NodeKind

open NodeKind

/-! ## Steps -/

namespace Spine

variable (s : Spine)

theorem adds_joinText (data : String) (done : List Branch) :
    Adds (payloadsAll done) (payloadsAll (joinText data done)) [] data := by
  have hpush : ∀ bs, Adds (payloadsAll bs) (payloadsAll (bs ++ [.node (.text data) []])) [] data := by
    intro bs
    rw [payloadsAll_append, payloadsAll_singleton, Branch.payloads]
    exact adds_text
  unfold joinText
  split
  · rename_i before hlast
    obtain ⟨bs, rfl⟩ := List.getLast?_eq_some_iff.1 hlast
    rw [List.dropLast_concat, payloadsAll_append, payloadsAll_append, payloadsAll_singleton,
      payloadsAll_singleton, Branch.payloads, Branch.payloads]
    exact adds_grow
  · exact hpush done

theorem adds_mapDone {f : List Branch → List Branch} {new : List NodeKind} {data : String}
    (h : Adds (payloadsAll s.done) (payloadsAll (f s.done)) new data) :
    Adds s.payloads (s.mapDone f).payloads new data := by
  cases s with
  | document done => exact h.behind [.document]
  | inside outer e done =>
    have hadds := h.behind (outer.payloads ++ [.element e])
    rwa [List.append_assoc, List.append_assoc] at hadds

theorem adds_addText (data : String) : Adds s.payloads (s.addText data).payloads [] data := by
  unfold addText
  split
  · rename_i hempty
    rw [String.isEmpty_iff.1 hempty]
    exact adds_refl
  · exact s.adds_mapDone (adds_joinText data s.done)

theorem payloads_close? {tag : String} {s s' : Spine} (h : s.close? tag = some s') :
    s'.payloads = s.payloads := by
  fun_induction close? tag s with
  | case1 => simp at h
  | case2 outer e done _ =>
    rw [Option.some.injEq] at h
    rw [← h, payloads_leave]
  | case3 outer e done _ ih =>
    rw [ih h]
    exact payloads_leave (inside outer e done)

theorem payloads_closeFor (tag : String) : (s.closeFor tag).payloads = s.payloads := by
  unfold closeFor
  split
  · rfl
  · split
    · exact payloads_leave _
    · rfl

theorem payloads_addElement (e : Element) (model : ContentModel) (content : Option String) :
    (s.addElement e model content).payloads =
      s.payloads ++ [.element e] ++ payloadsAll (contentBranches content) := by
  unfold addElement
  split
  · rw [payloads, List.append_assoc, List.singleton_append]
  · rw [payloads_push, Branch.payloads, List.append_assoc, List.singleton_append]

theorem adds_addElement (e : Element) (model : ContentModel) (content : Option String) :
    Adds s.payloads (s.addElement e model content).payloads [.element e] (content.getD "") := by
  have hadds : Adds s.payloads (s.payloads ++ [.element e]) [.element e] "" := adds_other rfl
  rw [payloads_addElement]
  unfold contentBranches
  cases content with
  | none => simpa [payloadsAll] using hadds
  | some data =>
    dsimp only
    split
    · rename_i hempty
      simpa [payloadsAll, String.isEmpty_iff.1 hempty] using hadds
    · rw [payloadsAll_singleton, Branch.payloads]
      simpa [payloadsAll] using hadds.trans adds_text

/-- Every token adds what it stands for behind what was there. -/
theorem adds_step (o : ParseOptions) (l : Lexeme) :
    Adds s.payloads (s.step o l).payloads (l.other? o).toList ((l.text? o).getD "") := by
  obtain ⟨token, place, content⟩ := l
  cases token with
  | text data => exact s.adds_addText data
  | comment data =>
    rw [step, payloads_push]
    exact adds_other rfl
  | doctype data =>
    rw [step, payloads_push]
    exact adds_other rfl
  | endTag tag =>
    have hclose : ((s.close? tag).getD s).payloads = s.payloads := by
      cases h : s.close? tag with
      | none => rfl
      | some s' => exact payloads_close? h
    rw [step]
    dsimp only
    rw [hclose]
    exact adds_refl
  | startTag tag attributes selfClosing =>
    have hfor : (if o.xml then s else s.closeFor tag).payloads = s.payloads := by
      split
      · rfl
      · exact s.payloads_closeFor tag
    rw [step, Lexeme.other?, Lexeme.text?, ← hfor]
    dsimp only
    generalize (if o.xml then s else s.closeFor tag) = s'
    split
    · exact adds_addElement _ _ _ _
    · exact adds_refl

theorem adds_foldl (o : ParseOptions) (ls : List Lexeme) :
    Adds s.payloads (ls.foldl (step o) s).payloads (ls.filterMap (·.other? o))
      (String.join (ls.filterMap (·.text? o))) := by
  induction ls generalizing s with
  | nil => exact adds_refl
  | cons l ls ih =>
    have hadds := (s.adds_step o l).trans (ih (s.step o l))
    rw [List.foldl_cons, List.filterMap_cons, List.filterMap_cons]
    cases hother : l.other? o <;> cases htext : l.text? o <;> simpa [hother, htext] using hadds

end Spine

/-! ## Trees of texts -/

namespace Tree

variable (html : String) (o : ParseOptions)

/-- The payloads other than text under a node, in document order. -/
def others (t : Tree) (n : NodeId) : List NodeKind := NodeKind.others ((t.descendants n).filterMap t.kind?)

/-- The elements under a node, in document order. -/
def elements (t : Tree) (n : NodeId) : List Element := (t.descendants n).filterMap t.element?

theorem filterMap_kind?_parse : ((parse html o).subtree root).filterMap (parse html o).kind? =
    (Branch.ofText html o).payloads := by
  have hkinds := congrArg (List.filterMap id) (map_kind?_parse html o)
  rwa [List.filterMap_map, List.filterMap_map, Function.id_comp, Function.id_comp,
    List.filterMap_some] at hkinds

theorem adds_parse : Adds [.document] (Branch.ofText html o).payloads
    ((o.lexemes html).filterMap (·.other? o)) (String.join ((o.lexemes html).filterMap (·.text? o))) := by
  rw [Branch.ofText, Spine.payloads_whole]
  exact (Spine.document []).adds_foldl o _

/-- A property of the document, of every text and of what tokens stand for holds of the payloads of a text. -/
theorem payloads_forall {p : NodeKind → Prop} (hdocument : p .document) (htext : ∀ data, p (.text data))
    (hother : ∀ l ∈ o.lexemes html, ∀ kind, l.other? o = some kind → p kind) :
    ∀ kind ∈ (Branch.ofText html o).payloads, p kind := by
  intro kind hkind
  cases hdata : kind.text? with
  | some data =>
    cases kind with
    | text data => exact htext data
    | _ => cases hdata
  | none =>
    have hmem : kind ∈ NodeKind.others (Branch.ofText html o).payloads :=
      List.mem_filter.2 ⟨hkind, by rw [hdata]; rfl⟩
    rw [(adds_parse html o).1] at hmem
    rcases List.mem_append.1 hmem with hroot | hlexeme
    · obtain rfl : kind = .document := List.mem_singleton.1 hroot
      exact hdocument
    · obtain ⟨l, hl, hkind⟩ := List.mem_filterMap.1 hlexeme
      exact hother l hl kind hkind

/-- The payloads other than text are those of the tokens. -/
theorem others_parse : (parse html o).others root = (o.lexemes html).filterMap (·.other? o) := by
  have hadds := (adds_parse html o).1
  rw [← filterMap_kind?_parse, subtree_eq_cons, List.filterMap_cons, (wellFormed_parse html o).root_kind]
    at hadds
  exact List.cons.inj hadds |>.2

/-- The text is that of the tokens. -/
theorem textContent_parse : (parse html o).textContent root =
    String.join ((o.lexemes html).filterMap (·.text? o)) := by
  have hadds := (adds_parse html o).2
  have hdocument : prose [.document] = "" := rfl
  rw [← filterMap_kind?_parse, prose, List.filterMap_filterMap, hdocument, String.empty_append] at hadds
  exact hadds

theorem elements_eq (t : Tree) (n : NodeId) : t.elements n = (t.others n).filterMap (·.element?) := by
  rw [elements, others, NodeKind.others, List.filterMap_filter, List.filterMap_filterMap]
  refine List.filterMap_congr fun m _ => ?_
  rw [element?]
  cases t.kind? m with
  | none => rfl
  | some kind => cases kind <;> rfl

/-- The elements are those of the start tags that the options keep. -/
theorem elements_parse : (parse html o).elements root =
    (((o.lexemes html).filterMap Lexeme.start?).filter fun start => Builder.keeps o start.1 start.2).map
      (·.1) := by
  rw [elements_eq, others_parse, List.filterMap_filterMap, List.filter_filterMap, List.map_filterMap]
  refine List.filterMap_congr fun l _ => ?_
  obtain ⟨token, place, content⟩ := l
  cases token with
  | startTag tag attributes selfClosing =>
    dsimp only [Lexeme.other?, Lexeme.start?, Lexeme.element?, Option.map_some, Option.filter_some]
    split <;> rfl
  | _ => rfl

/-- **A tree has what its tokens say, in their order**: the payloads other than text, the text, and with a
strainer the elements that it accepts of those that there are without it. -/
theorem parse_content : (parse html o).others root = (o.lexemes html).filterMap (·.other? o) ∧
    (parse html o).textContent root = String.join ((o.lexemes html).filterMap (·.text? o)) ∧
    ∃ starts : List (Element × String), starts = (o.lexemes html).filterMap Lexeme.start? ∧
      (parse html { o with strainer := none }).elements root = starts.map (·.1) ∧
      ∀ strainer : Strainer, (parse html { o with strainer := some strainer }).elements root =
        (starts.filter fun start => strainer.accepts start.1 start.2).map (·.1) := by
  refine ⟨others_parse html o, textContent_parse html o, _, rfl, ?_, fun strainer => ?_⟩
  · have hkeeps : ∀ start ∈ (o.lexemes html).filterMap Lexeme.start?,
        Builder.keeps { o with strainer := none } start.1 start.2 = true := fun _ _ => rfl
    exact (elements_parse html { o with strainer := none }).trans
      (congrArg (List.map (·.1)) (List.filter_eq_self.2 hkeeps))
  · exact elements_parse html { o with strainer := some strainer }

end Tree

end HtmlQuery
