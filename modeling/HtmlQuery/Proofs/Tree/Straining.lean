import HtmlQuery.Proofs.Token.Scanned
import HtmlQuery.Proofs.Tree.Building

/-!
# Strained trees

`Branch.strained keep` is a branch in which every element that is not kept has given way to its children, and texts
that came together are one text. Reading XML with a strainer gives that branch of what is read without one
(`parse_strained`), if the elements are properly nested (`Nested`) and no element that is left out ends inside a kept
one of its name: the end tag of an element that was never opened closes the nearest open element with its name. Where
there is one, content that follows moves out of it (`not_parse_strained_same_name`).
-/

namespace HtmlQuery

open Branch

/-! ## Joined texts -/

namespace Branch

/-- A branch behind complete ones. A text joins a text that comes last. -/
def joinOn (done : List Branch) (b : Branch) : List Branch :=
  match b.kind with
  | .text data => Spine.joinText data done
  | _ => done ++ [b]

/-- Branches behind complete ones. A text joins a text right before it. -/
def joinAll (done bs : List Branch) : List Branch := bs.foldl joinOn done

variable {keep : Element → Bool} {done bs cs : List Branch}

@[simp] theorem joinAll_nil (done : List Branch) : joinAll done [] = done := rfl

theorem joinAll_append (done bs cs : List Branch) :
    joinAll done (bs ++ cs) = joinAll (joinAll done bs) cs := List.foldl_append

@[simp] theorem joinAll_text (done : List Branch) (data : String) :
    joinAll done [node (.text data) []] = Spine.joinText data done := rfl

/-- A text comes behind a text, or behind nothing that it joins. -/
theorem joinText_cases (done : List Branch) : (∃ bs before, done = bs ++ [node (.text before) []]) ∨
    ∀ data, Spine.joinText data done = done ++ [node (.text data) []] := by
  unfold Spine.joinText
  split
  · rename_i before hlast
    exact .inl ⟨_, before, (List.getLast?_eq_some_iff.1 hlast).choose_spec⟩
  · exact .inr fun _ => rfl

/-- Two texts that are joined one after the other are joined as one. -/
theorem joinText_joinText (before data : String) (done : List Branch) :
    Spine.joinText data (Spine.joinText before done) = Spine.joinText (before ++ data) done := by
  rcases joinText_cases done with ⟨bs, first, rfl⟩ | hbehind
  · simp only [Spine.joinText_text, String.append_assoc]
  · rw [hbehind, hbehind, Spine.joinText_text]

end Branch

/-! ## Straining -/

/-- Whether a payload is kept where some elements are. -/
def NodeKind.keptBy (keep : Element → Bool) : NodeKind → Bool
  | element e => keep e
  | _ => true

namespace Branch

mutual

/-- What takes the place of a branch: its children, if its payload is not kept. -/
def strain (keep : Element → Bool) : Branch → List Branch
  | node kind children =>
    if kind.keptBy keep then [node kind (joinAll [] (strainAll keep children))] else strainAll keep children

/-- What takes the place of branches. -/
def strainAll (keep : Element → Bool) : List Branch → List Branch
  | [] => []
  | b :: bs => strain keep b ++ strainAll keep bs

end

/-- A branch without the elements that are not kept, whatever its top is. -/
def strained (keep : Element → Bool) : Branch → Branch
  | node kind children => node kind (joinAll [] (strainAll keep children))

variable {keep : Element → Bool}

theorem strainAll_append (bs cs : List Branch) :
    strainAll keep (bs ++ cs) = strainAll keep bs ++ strainAll keep cs := by
  induction bs with
  | nil => rfl
  | cons b bs ih => rw [List.cons_append, strainAll, strainAll, ih, List.append_assoc]

theorem strainAll_singleton (b : Branch) : strainAll keep [b] = strain keep b := by
  rw [strainAll, strainAll, List.append_nil]

theorem strain_leaf {kind : NodeKind} (h : kind.keptBy keep = true) :
    strain keep (node kind []) = [node kind []] := by
  rw [strain, if_pos h, strainAll, joinAll_nil]

/-- It does not matter whether texts are joined before the straining or behind it. -/
theorem joinAll_strainAll_joinText (data : String) (before done : List Branch) :
    joinAll before (strainAll keep (Spine.joinText data done)) =
      Spine.joinText data (joinAll before (strainAll keep done)) := by
  have htext : ∀ data, strain keep (node (.text data) []) = [node (.text data) []] := fun _ =>
    strain_leaf rfl
  rcases joinText_cases done with ⟨bs, first, rfl⟩ | hbehind
  · rw [Spine.joinText_text, strainAll_append, strainAll_append, strainAll_singleton, strainAll_singleton, htext,
      htext, joinAll_append, joinAll_append, joinAll_text, joinAll_text, joinText_joinText]
  · rw [hbehind, strainAll_append, strainAll_singleton, htext, joinAll_append, joinAll_text]

end Branch

namespace Spine

variable {keep : Element → Bool} {s outer : Spine} {b : Branch}

/-- The open elements, the innermost first. -/
def around : Spine → List Element
  | document _ => []
  | inside outer e _ => e :: outer.around

/-- A spine without the elements that are not kept. -/
def strained (keep : Element → Bool) : Spine → Spine
  | document done => document (joinAll [] (strainAll keep done))
  | inside outer e done =>
    if keep e then inside (outer.strained keep) e (joinAll [] (strainAll keep done))
    else (outer.strained keep).mapDone (joinAll · (strainAll keep done))

@[simp] theorem around_mapDone (s : Spine) (f : List Branch → List Branch) : (s.mapDone f).around = s.around := by
  cases s <;> rfl

theorem mapDone_mapDone (s : Spine) (f g : List Branch → List Branch) :
    (s.mapDone f).mapDone g = s.mapDone fun done => g (f done) := by cases s <;> rfl

theorem mapDone_id (s : Spine) : s.mapDone (fun done => done) = s := by cases s <;> rfl

theorem around_strained (s : Spine) : (s.strained keep).around = s.around.filter keep := by
  induction s with
  | document => rfl
  | inside outer e done ih =>
    rw [strained, around, List.filter_cons]
    split
    · rw [around, ih]
    · rw [around_mapDone, ih]

/-- What is done to the complete branches may be done behind the straining. -/
theorem strained_mapDone {f g : List Branch → List Branch}
    (h : ∀ before done, joinAll before (strainAll keep (f done)) = g (joinAll before (strainAll keep done)))
    (s : Spine) : (s.mapDone f).strained keep = (s.strained keep).mapDone g := by
  cases s with
  | document done => rw [mapDone, strained, strained, mapDone, h]
  | inside outer e done =>
    rw [mapDone, strained, strained]
    split
    · rw [mapDone, h]
    · simp only [h, mapDone_mapDone]

theorem strained_push (s : Spine) (b : Branch) :
    (s.push b).strained keep = (s.strained keep).mapDone (joinAll · (strain keep b)) :=
  s.strained_mapDone fun before done => by rw [strainAll_append, strainAll_singleton, joinAll_append]

theorem strained_addText (s : Spine) (data : String) :
    (s.addText data).strained keep = (s.strained keep).addText data := by
  unfold addText
  split
  · rfl
  · exact s.strained_mapDone (joinAll_strainAll_joinText data)

/-- An end tag closes nothing if no open element has its name. -/
theorem close?_of_around {tag : String} (h : ∀ e ∈ s.around, e.tag ≠ tag) : s.close? tag = none := by
  fun_induction close? tag s with
  | case1 => rfl
  | case2 outer e done htag => exact absurd (beq_iff_eq.1 htag) (h e List.mem_cons_self)
  | case3 outer e done htag ih => exact ih fun a ha => h a (List.mem_cons_of_mem _ (by simpa [push] using ha))

theorem close?_inside {e : Element} {done : List Branch} :
    (inside outer e done).close? e.tag = some (outer.push (.node (.element e) done)) := by
  rw [close?, if_pos (beq_self_eq_true _), leave]

end Spine

/-! ## Proper nesting -/

/-- The tokens go on inside of open elements, the innermost first: every end tag is that of the innermost one, and in
the end all are closed. Of each element that is closed, with those that it is closed in, `ok` holds. -/
def Nested (ok : Element → List Element → Prop) : List Element → List Token → Prop
  | around, [] => around = []
  | around, .startTag tag attributes selfClosing :: ts =>
    Nested ok (if selfClosing then around else .ofAttributes tag attributes :: around) ts
  | [], .endTag _ :: _ => False
  | e :: outer, .endTag tag :: ts => e.tag = tag ∧ ok e outer ∧ Nested ok outer ts
  | around, _ :: ts => Nested ok around ts

instance decidableNested {ok : Element → List Element → Prop} [∀ e around, Decidable (ok e around)] :
    ∀ around ts, Decidable (Nested ok around ts)
  | around, [] => inferInstanceAs (Decidable (around = []))
  | _, .startTag .. :: ts => decidableNested _ ts
  | [], .endTag _ :: _ => inferInstanceAs (Decidable False)
  | e :: outer, .endTag tag :: ts =>
    have : Decidable (Nested ok outer ts) := decidableNested outer ts
    inferInstanceAs (Decidable (e.tag = tag ∧ ok e outer ∧ Nested ok outer ts))
  | around, .text _ :: ts => decidableNested around ts
  | around, .comment _ :: ts => decidableNested around ts
  | around, .doctype _ :: ts => decidableNested around ts

/-- An element is kept, or it is in no kept element of its name. -/
def Unshadowed (keep : Element → Bool) (e : Element) (around : List Element) : Prop :=
  keep e = false → ∀ a ∈ around, keep a = true → a.tag ≠ e.tag

instance (keep : Element → Bool) (e : Element) (around : List Element) : Decidable (Unshadowed keep e around) :=
  inferInstanceAs (Decidable (keep e = false → ∀ a ∈ around, keep a = true → a.tag ≠ e.tag))

namespace Spine

variable {keep : Element → Bool} {strainer : Strainer} {s : Spine}

/-- An element that is added is added to what is strained if it is kept. -/
theorem strained_addElement (e : Element) (model : ContentModel) (s : Spine) :
    (s.addElement e model none).strained keep =
      if keep e then (s.strained keep).addElement e model none else s.strained keep := by
  unfold addElement
  split
  · rw [strained, contentBranches, strainAll, joinAll_nil]
    split
    · rfl
    · exact mapDone_id _
  · rw [strained_push, contentBranches, strain]
    change (s.strained keep).mapDone (joinAll · (if keep e then _ else _)) = _
    split
    · rfl
    · exact mapDone_id _

theorem strained_endTag {e : Element} {outer : List Element} (haround : s.around = e :: outer)
    (hok : Unshadowed keep e outer) :
    ((s.close? e.tag).getD s).strained keep = ((s.strained keep).close? e.tag).getD (s.strained keep) := by
  cases s with
  | document => cases haround
  | inside outer' e' done =>
    obtain ⟨rfl, rfl⟩ := List.cons.inj haround
    rw [close?_inside, Option.getD_some, strained_push, strain, strained]
    change (outer'.strained keep).mapDone (joinAll · (if keep e' then _ else _)) = _
    split
    · rw [close?_inside]
      rfl
    · rename_i hkeep
      -- the end tag comes without a start tag, so it must meet no kept element with its name
      have hnone : ((outer'.strained keep).mapDone (joinAll · (strainAll keep done))).close? e'.tag = none :=
        close?_of_around fun a ha => by
          rw [around_mapDone, around_strained, List.mem_filter] at ha
          exact hok (Bool.eq_false_iff.2 hkeep) a ha.1 ha.2
      rw [hnone]
      rfl

/-! ## Tokens and runs -/

variable {o : ParseOptions} {l : Lexeme} {ls : List Lexeme} {ts : List Token}

@[simp] theorem around_push (s : Spine) (b : Branch) : (s.push b).around = s.around := around_mapDone ..

@[simp] theorem around_addText (s : Spine) (data : String) : (s.addText data).around = s.around := by
  unfold addText
  split
  · rfl
  · exact around_mapDone ..

theorem around_addElement (e : Element) (model : ContentModel) (content : Option String) (s : Spine) :
    (s.addElement e model content).around = if model = .normal then e :: s.around else s.around := by
  unfold addElement
  split
  · rfl
  · exact around_push ..

/-- The end tag of the innermost open element closes it. -/
theorem around_close?_self {e : Element} {outer : List Element} (haround : s.around = e :: outer) :
    ((s.close? e.tag).getD s).around = outer := by
  cases s with
  | document => cases haround
  | inside outer' e' done =>
    obtain ⟨rfl, rfl⟩ := List.cons.inj haround
    rw [close?_inside, Option.getD_some, around_push]

/-- No content comes verbatim behind a start tag of XML. -/
theorem content_of_faithful {tag : String} {attributes : Attributes} {selfClosing : Bool} (h : l.Faithful true)
    (htoken : l.token = .startTag tag attributes selfClosing) : l.content = none := by
  have hl := h tag attributes selfClosing htoken
  rw [Rules.contentModel, if_pos rfl] at hl
  cases selfClosing <;> exact hl

/-- A token of properly nested XML does to what is strained what it does without a strainer. -/
theorem strained_step (hxml : o.xml = true) (hl : l.Faithful true)
    (h : Nested (Unshadowed (strainer.accepts · "")) s.around (l.token :: ts)) :
    (s.step { o with strainer := none } l).strained (strainer.accepts · "") =
        (s.strained (strainer.accepts · "")).step { o with strainer := some strainer } l ∧
      Nested (Unshadowed (strainer.accepts · "")) (s.step { o with strainer := none } l).around ts := by
  obtain ⟨token, place, content⟩ := l
  cases token with
  | text data => exact ⟨strained_addText s data, by rwa [step, around_addText]⟩
  | comment data => exact ⟨strained_push s _, by rwa [step, around_push]⟩
  | doctype data => exact ⟨strained_push s _, by rwa [step, around_push]⟩
  | endTag tag =>
    cases haround : s.around with
    | nil =>
      rw [haround, Nested] at h
      exact h.elim
    | cons e outer =>
      rw [haround, Nested] at h
      obtain ⟨rfl, hok, hnested⟩ := h
      exact ⟨strained_endTag haround hok, by rwa [step, around_close?_self haround]⟩
  | startTag tag attributes selfClosing =>
    rw [Nested] at h
    obtain rfl : content = none := content_of_faithful hl rfl
    simp only [step, hxml, if_true, Builder.keeps, Option.getD_none]
    refine ⟨strained_addElement .., ?_⟩
    rw [around_addElement, Rules.contentModel, if_pos rfl]
    cases selfClosing <;> exact h

/-- A run over properly nested XML does to what is strained what it does without a strainer. -/
theorem strained_foldl (hxml : o.xml = true) (hls : ∀ l ∈ ls, l.Faithful true)
    (h : Nested (Unshadowed (strainer.accepts · "")) s.around (ls.map (·.token))) :
    (ls.foldl (step { o with strainer := none }) s).strained (strainer.accepts · "") =
        ls.foldl (step { o with strainer := some strainer }) (s.strained (strainer.accepts · "")) ∧
      (ls.foldl (step { o with strainer := none }) s).around = [] := by
  induction ls generalizing s with
  | nil => exact ⟨rfl, h⟩
  | cons l ls ih =>
    obtain ⟨hl, hls⟩ := List.forall_mem_cons.1 hls
    obtain ⟨hstep, hnext⟩ := strained_step hxml hl h
    rw [List.foldl_cons, List.foldl_cons, ← hstep]
    exact ih hls hnext

/-- Where no element is open, the spine is the document. -/
theorem whole_strained (h : s.around = []) : (s.strained keep).whole = s.whole.strained keep := by
  cases s with
  | document done => rw [strained, whole, whole, Branch.strained]
  | inside => cases h

end Spine

/-! ## Strained parses -/

namespace Tree

/-- Reading properly nested XML with a strainer leaves out of the tree the elements that it does not accept, and
nothing else. -/
theorem parse_strained (html : String) (o : ParseOptions) (strainer : Strainer) (hxml : o.xml = true)
    (h : Nested (Unshadowed (strainer.accepts · "")) [] ((o.lexemes html).map (·.token))) :
    (parse html { o with strainer := some strainer }).branch? root =
      ((parse html { o with strainer := none }).branch? root).map (Branch.strained (strainer.accepts · "")) := by
  have hfaithful : ∀ l ∈ o.lexemes html, l.Faithful true := by
    rw [ParseOptions.lexemes, hxml]
    exact Scanner.faithful_stream
  obtain ⟨hrun, haround⟩ := Spine.strained_foldl (s := .document []) hxml hfaithful h
  have hspine : Spine.ofText html { o with strainer := some strainer } =
      (Spine.ofText html { o with strainer := none }).strained (strainer.accepts · "") := hrun.symm
  have hclosed : (Spine.ofText html { o with strainer := none }).around = [] := haround
  rw [branch?_parse, branch?_parse, Option.map_some, Branch.ofText, Branch.ofText, hspine,
    Spine.whole_strained hclosed]

theorem parse_strained_names :
    let o : ParseOptions := ⟨.all, none, false, true⟩
    let strainer : Strainer := ⟨none, [("k", .present)], none⟩
    let html := "<a k=1><b>w<b k=2>x</b>y</b>z</a>"
    (o.xml = true ∧ Nested (Unshadowed (strainer.accepts · "")) [] ((o.lexemes html).map (·.token))) ∧
      (parse html { o with strainer := some strainer }).branch? root =
        ((parse html { o with strainer := none }).branch? root).map (Branch.strained (strainer.accepts · "")) := by
  intro o strainer html
  have hnested : Nested (Unshadowed (strainer.accepts · "")) [] ((o.lexemes html).map (·.token)) := by
    decide +kernel
  exact ⟨⟨rfl, hnested⟩, parse_strained html o strainer rfl hnested⟩

/-- What comes behind the end of an element that was left out moves out of a kept element with the same name, though
all elements are properly nested. -/
theorem not_parse_strained_same_name :
    ¬ ∀ (html : String) (o : ParseOptions) (strainer : Strainer), o.xml = true →
      Nested (fun _ _ => True) [] ((o.lexemes html).map (·.token)) →
      (parse html { o with strainer := some strainer }).branch? root =
        ((parse html { o with strainer := none }).branch? root).map (Branch.strained (strainer.accepts · "")) := by
  intro h
  have hsame := congrArg (Option.map (·.children.length))
    (h "<a k=\"1\"><a>x</a>y</a>" ⟨.all, none, false, true⟩ ⟨none, [("k", .present)], none⟩ rfl
      (by decide +kernel))
  revert hsame
  decide +kernel

end Tree

end HtmlQuery
