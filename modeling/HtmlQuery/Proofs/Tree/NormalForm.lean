import HtmlQuery.Proofs.Tree.Shape

/-!
# Writing what was read

A tree that is read from a text can be written and read again, but for one thing: an element may stand under one that
its start tag ends, because a start tag moves the insertion point out of one element only. Where no element does, the
tree is canonical and comes back as it is. Where one does, the first such element comes back one level higher: a reader
never changes the depths of the nodes that it has (`Spine.depths_step`), and it strays from the depths of what was
written at that start tag (`Spine.strays_write`). So writing and reading again gives the same tree just where
`Tree.StaysOpen` holds (`Tree.parse_write_parse`).
-/

namespace HtmlQuery

open Branch

/-! ## Payloads -/

namespace NodeKind

/-- What the payload says can be written and read again. -/
def Readable : NodeKind → Prop
  | document => True
  | element e => Token.ReadableTag e.tag ∧ (∀ name ∈ e.attributes.names, Token.ReadableName name) ∧
      e.attributes.names.Nodup
  | text _ => True
  | comment data => Text.contains ['-', '-', '>'] data.toList = false
  | doctype data => Text.trim data.toList = data.toList ∧ '>' ∉ data.toList

/-- No element among the children has a start tag that ends the element they are under. -/
def StaysOpen (kind : NodeKind) (kinds : List NodeKind) : Prop :=
  ∀ e inner, kind = .element e → .element inner ∈ kinds → Rules.closesImplicitly e.tag inner.tag = false

theorem staysOpen_nil (kind : NodeKind) : kind.StaysOpen [] := fun _ _ _ h => absurd h List.not_mem_nil

theorem StaysOpen.cons {kind k : NodeKind} {ks : List NodeKind} (h : kind.StaysOpen ks)
    (hk : ∀ e inner, kind = .element e → k = .element inner → Rules.closesImplicitly e.tag inner.tag = false) :
    kind.StaysOpen (k :: ks) := by
  intro e inner he hinner
  rcases List.mem_cons.1 hinner with hinner | hinner
  · exact hk e inner he hinner.symm
  · exact h e inner he hinner

/-- It depends on the tag only. -/
theorem StaysOpen.of_tag {e e' : Element} {kinds : List NodeKind} (h : (element e').StaysOpen kinds)
    (htag : e'.tag = e.tag) : (element e).StaysOpen kinds := by
  intro e₁ inner he hinner
  obtain rfl := NodeKind.element.inj he
  rw [← htag]
  exact h e' inner rfl hinner

end NodeKind

theorem Lexeme.readable_other? {o : ParseOptions} {l : Lexeme} {kind : NodeKind} (h : l.token.Readable)
    (hother : l.other? o = some kind) : kind.Readable ∧ ∀ e, kind = .element e → e.InStep := by
  rcases other?_cases hother with ⟨data, htoken, rfl⟩ | ⟨data, htoken, rfl⟩ | ⟨tag, as, selfClosing, htoken, rfl⟩
  · rw [htoken] at h
    exact ⟨h, nofun⟩
  · rw [htoken] at h
    exact ⟨h, nofun⟩
  · rw [htoken] at h
    refine ⟨h, fun e he => ?_⟩
    obtain rfl := NodeKind.element.inj he
    rfl

/-- The payloads of a text can be written and read again. -/
theorem Branch.readable_ofText {html : String} {kind : NodeKind}
    (h : kind ∈ (Branch.ofText html .default).payloads) :
    kind.Readable ∧ ∀ e, kind = .element e → e.InStep :=
  Tree.payloads_forall (p := fun kind => kind.Readable ∧ ∀ e, kind = .element e → e.InStep) html .default
    ⟨trivial, nofun⟩ (fun _ => ⟨trivial, nofun⟩)
    (fun l hl _ hother => l.readable_other? (Scanner.readable_stream rfl l hl) hother) kind h

/-! ## Canonical branches -/

namespace Branch

variable {kind : NodeKind} {children : List Branch}

theorem siblings_of_shaped {xml : Bool} (h : kind.Shaped xml (children.map Branch.kind)) : Siblings children where
  no_document b hb hkind := h.no_document (List.mem_map.2 ⟨b, hb, hkind⟩)
  no_adjacent := (List.isChain_map _).1 h.no_adjacent

theorem atMostText_of_kinds {p : String → Prop} (hall : AllEvery (NodeKind.Shaped false) children)
    (h : children.map Branch.kind = [] ∨ ∃ data, children.map Branch.kind = [.text data] ∧ p data) :
    AtMostText p children := by
  rcases h with hnil | ⟨data, hdata, hp⟩
  · exact .inl (List.map_eq_nil_iff.1 hnil)
  · obtain ⟨⟨kind, inner⟩, bs, rfl, hkind, hbs⟩ := List.map_eq_cons_iff.1 hdata
    obtain rfl := List.map_eq_nil_iff.1 hbs
    obtain rfl : kind = .text data := hkind
    have hinner := hall.1.1.leaf rfl
    obtain rfl := List.map_eq_nil_iff.1 hinner
    exact .inr ⟨data, rfl, hp⟩

theorem canonicalNode_of (hshaped : kind.Shaped false (children.map Branch.kind))
    (hall : AllEvery (NodeKind.Shaped false) children) (hread : kind.Readable)
    (hopen : kind.StaysOpen (children.map Branch.kind)) : CanonicalNode kind children := by
  cases kind with
  | document => exact siblings_of_shaped hshaped
  | element e =>
    obtain ⟨htag, hnames, hnodup⟩ := hread
    exact {
      tag := htag
      names := fun a ha => hnames a.name (List.mem_map_of_mem ha)
      nodup := hnodup
      siblings := siblings_of_shaped hshaped
      void := fun hvoid => List.map_eq_nil_iff.1 (hshaped.void rfl e rfl hvoid)
      rawText := fun hraw => atMostText_of_kinds hall (hshaped.rawText rfl e rfl hraw)
      rcdata := fun hrcdata => atMostText_of_kinds hall <| (hshaped.rcdata rfl e rfl hrcdata).imp_right
        fun ⟨data, hdata⟩ => ⟨data, hdata, trivial⟩
      not_closing := fun b hb inner hinner => hopen e inner rfl (List.mem_map.2 ⟨b, hb, hinner⟩) }
  | text data =>
    refine ⟨fun hempty => hshaped.filled (congrArg _ hempty), ?_⟩
    exact List.map_eq_nil_iff.1 (hshaped.leaf rfl)
  | comment data => exact ⟨hread, List.map_eq_nil_iff.1 (hshaped.leaf rfl)⟩
  | doctype data => exact ⟨hread.1, hread.2, List.map_eq_nil_iff.1 (hshaped.leaf rfl)⟩

mutual

theorem canonical_of : ∀ {b : Branch}, b.Every (NodeKind.Shaped false) →
    (∀ kind ∈ b.payloads, kind.Readable) → b.Every NodeKind.StaysOpen → b.Canonical
  | node kind children, hshaped, hread, hopen => by
    rw [payloads, List.forall_mem_cons] at hread
    exact ⟨canonicalNode_of hshaped.1 hshaped.2 hread.1 hopen.1,
      allCanonical_of hshaped.2 hread.2 hopen.2⟩

theorem allCanonical_of : ∀ {bs : List Branch}, AllEvery (NodeKind.Shaped false) bs →
    (∀ kind ∈ payloadsAll bs, kind.Readable) → AllEvery NodeKind.StaysOpen bs → AllCanonical bs
  | [], _, _, _ => trivial
  | b :: bs, hshaped, hread, hopen => by
    rw [payloadsAll, List.forall_mem_append] at hread
    exact ⟨canonical_of hshaped.1 hread.1 hopen.1, allCanonical_of hshaped.2 hread.2 hopen.2⟩

end

/-! ## Depths -/

mutual

/-- The depths of the nodes of a branch in document order, where its top is at the given one. -/
def depths (depth : Nat) : Branch → List Nat
  | node _ children => depth :: depthsAll (depth + 1) children

/-- The depths of the nodes of branches whose tops are at the given one. -/
def depthsAll (depth : Nat) : List Branch → List Nat
  | [] => []
  | b :: bs => depths depth b ++ depthsAll depth bs

end

theorem depthsAll_append (depth : Nat) (bs cs : List Branch) :
    depthsAll depth (bs ++ cs) = depthsAll depth bs ++ depthsAll depth cs := by
  induction bs with
  | nil => rfl
  | cons b bs ih => rw [List.cons_append, depthsAll, depthsAll, ih, List.append_assoc]

theorem depthsAll_singleton (depth : Nat) (b : Branch) : depthsAll depth [b] = b.depths depth := by
  rw [depthsAll, depthsAll, List.append_nil]

mutual

theorem depths_reread (d : Dialect) : ∀ (depth : Nat) (b : Branch), (b.reread d).depths depth = b.depths depth
  | depth, node kind children => by rw [reread, depths, depths, depthsAll_reread d]

theorem depthsAll_reread (d : Dialect) : ∀ (depth : Nat) (bs : List Branch),
    depthsAll depth (rereadAll d bs) = depthsAll depth bs
  | _, [] => rfl
  | depth, b :: bs => by rw [rereadAll, depthsAll, depthsAll, depths_reread d, depthsAll_reread d]

end

end Branch

namespace Spine

/-- The depths of all nodes in document order. -/
def depths : Spine → List Nat
  | document done => 0 :: depthsAll 1 done
  | inside outer _ done => outer.depths ++ (outer.depth + 1) :: depthsAll (outer.depth + 2) done

variable (s : Spine)

theorem depths_push (b : Branch) : (s.push b).depths = s.depths ++ b.depths (s.depth + 1) := by
  cases s <;> simp [push, mapDone, depths, depth, depthsAll_append, depthsAll_singleton]

theorem depths_leave : s.leave.depths = s.depths := by
  cases s with
  | document => rfl
  | inside outer e done => rw [leave, depths_push, Branch.depths, depths]

theorem depths_whole : s.whole.depths 0 = s.depths := by
  fun_induction whole s with
  | case1 done => rw [Branch.depths, depths]
  | case2 outer e done ih => rw [ih, depths_push, Branch.depths, depths]

theorem depths_addText (data : String) : s.depths <+: (s.addText data).depths := by
  have hjoin : ∀ depth done, depthsAll depth done <+: depthsAll depth (joinText data done) := by
    intro depth done
    unfold joinText
    split
    · rename_i before hlast
      obtain ⟨bs, rfl⟩ := List.getLast?_eq_some_iff.1 hlast
      rw [List.dropLast_concat, depthsAll_append, depthsAll_append]
      exact List.prefix_refl _
    · rw [depthsAll_append]
      exact List.prefix_append ..
  unfold addText
  split
  · exact List.prefix_refl _
  · cases s with
    | document done => exact List.cons_prefix_cons.2 ⟨rfl, hjoin 1 done⟩
    | inside outer e done =>
      exact (List.prefix_append_right_inj _).2 (List.cons_prefix_cons.2 ⟨rfl, hjoin _ done⟩)

theorem depths_close? {tag : String} {s s' : Spine} (h : s.close? tag = some s') : s'.depths = s.depths := by
  fun_induction close? tag s with
  | case1 => cases h
  | case2 outer e done _ =>
    obtain rfl := Option.some.inj h
    exact depths_leave _
  | case3 outer e done _ ih =>
    rw [ih h]
    exact depths_leave (inside outer e done)

theorem depths_closeFor (tag : String) : (s.closeFor tag).depths = s.depths := by
  unfold closeFor
  split
  · rfl
  · split
    · exact depths_leave _
    · rfl

theorem depths_addElement (e : Element) (model : ContentModel) (content : Option String) :
    (s.addElement e model content).depths =
      s.depths ++ (s.depth + 1) :: depthsAll (s.depth + 2) (contentBranches content) := by
  unfold addElement
  split
  · rw [depths]
  · rw [depths_push, Branch.depths]

/-- A token leaves the nodes that there are at their depths. -/
theorem depths_step (o : ParseOptions) (l : Lexeme) : s.depths <+: (s.step o l).depths := by
  obtain ⟨token, place, content⟩ := l
  unfold step
  cases token with
  | text data => exact s.depths_addText data
  | comment data =>
    dsimp only
    rw [depths_push]
    exact List.prefix_append ..
  | doctype data =>
    dsimp only
    rw [depths_push]
    exact List.prefix_append ..
  | endTag tag =>
    dsimp only
    cases hclose : s.close? tag with
    | none => exact List.prefix_refl _
    | some s' => rw [Option.getD_some, depths_close? hclose]
  | startTag tag attributes selfClosing =>
    have hfor : (if o.xml then s else s.closeFor tag).depths = s.depths := by
      split
      · rfl
      · exact s.depths_closeFor tag
    dsimp only
    split
    · rw [depths_addElement, hfor]
      exact List.prefix_append ..
    · rw [hfor]

theorem depths_foldl (o : ParseOptions) (ls : List Lexeme) : s.depths <+: (ls.foldl (step o) s).depths := by
  induction ls generalizing s with
  | nil => exact List.prefix_refl _
  | cons l ls ih => exact (s.depths_step o l).trans (ih (s.step o l))

/-! ## Where reading strays -/

/-- What a spine must be for branches to come next, except that one of them may end the innermost open element. -/
structure Receives (s : Spine) (bs : List Branch) : Prop where
  plain : s.Plain
  side_by_side : (document s.done).Admits bs

variable {s} {e inner : Element} {b : Branch} {bs children : List Branch} {rest : List Char}

theorem Receives.admits (h : s.Receives (b :: bs))
    (hopen : ∀ e inner, s.kind = .element e → b.kind = .element inner → Rules.closesImplicitly e.tag inner.tag = false) :
    s.Admits [b] where
  plain := h.plain
  no_document c hc := h.side_by_side.no_document c (by simp_all)
  not_closing c hc e inner he hinner := by
    obtain rfl := List.mem_singleton.1 hc
    exact hopen e inner he hinner
  no_adjacent := by
    have hchain := h.side_by_side.no_adjacent
    rw [Spine.done] at hchain
    exact (List.isChain_append.1 (by simpa using hchain : (s.done.getLast?.toList ++ [b] ++ bs).IsChain _)).1

theorem Receives.tail {b' : Branch} (h : s.Receives (b :: bs)) (htext : b'.isText = b.isText) :
    (s.push b').Receives bs where
  plain := (plain_mapDone _ _).2 h.plain
  side_by_side := by
    rw [done_push]
    exact h.side_by_side.tail htext

theorem admits_siblings (h : Siblings bs) : (document []).Admits bs where
  plain := trivial
  no_document := h.no_document
  not_closing _ _ _ _ he := by cases he
  no_adjacent := h.no_adjacent

/-- An incoming start tag that ends an open element has no verbatim content. -/
theorem model_of_closes {opened incoming : String} (h : Rules.closesImplicitly opened incoming = true) :
    Rules.contentModel incoming false false = .normal ∨ Rules.contentModel incoming false false = .void := by
  have hall : ∀ entry ∈ Rules.closers, ∀ tag ∈ entry.2,
      Rules.contentModel tag false false = .normal ∨ Rules.contentModel tag false false = .void := by decide
  unfold Rules.closesImplicitly at h
  split at h
  · rename_i tags hlookup
    obtain ⟨before, after, hsplit, -⟩ := List.lookup_eq_some_iff.1 hlookup
    exact hall (opened, tags) (by rw [hsplit]; simp) incoming (List.contains_iff_mem.1 h)
  · cases h

/-- The markup of an element starts with its start tag, which ends in one of two ways. -/
theorem write_element (wo : WriteOptions) (parentTag : Option String) (e : Element) (children : List Branch) :
    ∃ tail, (node (.element e) children).write wo parentTag = openTag wo.dialect e ++ '>' :: tail ∨
      (node (.element e) children).write wo parentTag = openTag wo.dialect e ++ ' ' :: '/' :: '>' :: tail := by
  rw [write]
  split
  · split
    · exact ⟨[], .inr rfl⟩
    · exact ⟨[], .inl rfl⟩
  · split
    · exact ⟨[], .inr rfl⟩
    · exact ⟨_, .inl rfl⟩

/-- A start tag that ends the innermost open element adds its own one level higher. -/
theorem depths_step_closing (hs : s.kind = .element e) (hcloses : Rules.closesImplicitly e.tag inner.tag = true)
    (as : Attributes) (selfClosing : Bool) :
    (s.step .default ⟨.startTag inner.tag as selfClosing, .start, none⟩).depths = s.depths ++ [s.depth] := by
  cases s with
  | document => cases hs
  | inside outer e' done =>
    obtain rfl := NodeKind.element.inj hs
    have hfor : (inside outer e' done).closeFor inner.tag = (inside outer e' done).leave := by
      rw [closeFor, if_pos hcloses]
    have hstep : (inside outer e' done).step .default ⟨.startTag inner.tag as selfClosing, .start, none⟩ =
        (inside outer e' done).leave.addElement (.ofAttributes inner.tag as)
          (Rules.contentModel inner.tag selfClosing false) none := by
      rw [← hfor]
      rfl
    have hdepth : (inside outer e' done).leave.depth = outer.depth := depth_push ..
    rw [hstep, depths_addElement, depths_leave, hdepth]
    rfl

/-- The text is read up to a place where the depths do not go on as given. -/
def Strays (s : Spine) (cs : List Char) (ds : List Nat) : Prop :=
  ∃ s' rest, Reads .default s s' cs rest ∧ ∀ more, ¬ s'.depths <+: s.depths ++ ds ++ more

variable {cs : List Char} {ds ds' : List Nat}

theorem Strays.append (h : s.Strays cs ds) (ds' : List Nat) : s.Strays cs (ds ++ ds') := by
  obtain ⟨s', rest, hreads, hstray⟩ := h
  refine ⟨s', rest, hreads, fun more hmore => hstray (ds' ++ more) ?_⟩
  simpa only [List.append_assoc] using hmore

/-- What is read as it was written may stand in front. -/
theorem Strays.behind {s₁ : Spine} (h : s₁.Strays rest ds') (hreads : Reads .default s s₁ cs rest)
    (hdepths : s₁.depths = s.depths ++ ds) : s.Strays cs (ds ++ ds') := by
  obtain ⟨s', rest', hlater, hstray⟩ := h
  refine ⟨s', rest', hreads.trans hlater, fun more hmore => hstray more ?_⟩
  rw [hdepths]
  simpa only [List.append_assoc] using hmore

/-- Where an element is written that ends the one it is under, its start tag is read one level higher. -/
theorem strays_closing {wo : WriteOptions} (hd : wo.dialect ≠ .minimal) (parentTag : Option String)
    (hread : (NodeKind.element inner).Readable) (hs : s.kind = .element e)
    (hcloses : Rules.closesImplicitly e.tag inner.tag = true) :
    s.Strays ((node (.element inner) children).write wo parentTag ++ rest)
      ((node (.element inner) children).depths (s.depth + 1)) := by
  obtain ⟨htag, hnames, hnodup⟩ := hread
  have hnames' : ∀ a ∈ inner.attributes.toList, Token.ReadableName a.name := fun a ha =>
    hnames a.name (List.mem_map_of_mem ha)
  have hstray : ∀ {s' : Spine}, s'.depths = s.depths ++ [s.depth] → ∀ more,
      ¬ s'.depths <+: s.depths ++ (node (.element inner) children).depths (s.depth + 1) ++ more := by
    intro s' hdepths more
    rw [hdepths, Branch.depths]
    simp [List.cons_prefix_cons]
  obtain ⟨tail, hwrite | hwrite⟩ := write_element wo parentTag inner children
  · rw [hwrite, List.append_assoc, List.cons_append]
    exact ⟨_, _, reads_openTag hd htag hnames' hnodup (model_of_closes hcloses),
      hstray (depths_step_closing hs hcloses _ _)⟩
  · rw [hwrite, List.append_assoc]
    exact ⟨_, _, reads_openTag_empty hd htag hnames' hnodup, hstray (depths_step_closing hs hcloses _ _)⟩

/-- An element over another one takes ordinary content. -/
theorem normal_of_not_staysOpen (hshaped : (node (.element e) children).Every (NodeKind.Shaped false))
    (hbad : ¬ (node (.element e) children).Every NodeKind.StaysOpen) :
    Rules.contentModel e.tag false false = .normal := by
  have hopen : ∀ {p}, AtMostText p children → (node (.element e) children).Every NodeKind.StaysOpen := by
    intro p htext
    rcases htext with rfl | ⟨data, rfl, -⟩
    · exact ⟨NodeKind.staysOpen_nil _, trivial⟩
    · exact ⟨fun _ _ _ h => by simp [Branch.kind] at h, ⟨NodeKind.staysOpen_nil _, trivial⟩, trivial⟩
  obtain ⟨hnode, hall⟩ := hshaped
  unfold Rules.contentModel
  rw [if_neg Bool.false_ne_true, Bool.false_or]
  split
  · rename_i hvoid
    have hnil := List.map_eq_nil_iff.1 (hnode.void rfl e rfl hvoid)
    exact absurd (hopen (p := fun _ => True) (.inl hnil)) hbad
  split
  · rename_i hraw
    exact absurd (hopen (atMostText_of_kinds hall (hnode.rawText rfl e rfl hraw))) hbad
  split
  · rename_i hrcdata
    have htext : children.map Branch.kind = [] ∨ ∃ data, children.map Branch.kind = [.text data] ∧ True := by
      simpa only [and_true] using hnode.rcdata rfl e rfl hrcdata
    exact absurd (hopen (atMostText_of_kinds hall htext)) hbad
  · rfl

/-- A branch that comes back otherwise has an element at its top, and children under it. -/
theorem exists_element_of_not_staysOpen {kind : NodeKind} (hkind : kind ≠ .document)
    (hshaped : (node kind children).Every (NodeKind.Shaped false))
    (hbad : ¬ (node kind children).Every NodeKind.StaysOpen) :
    ∃ e, kind = .element e ∧ Rules.contentModel e.tag false false = .normal ∧ children.isEmpty = false := by
  have hnonempty : children ≠ [] := by
    intro hnil
    subst hnil
    exact hbad ⟨NodeKind.staysOpen_nil _, trivial⟩
  cases kind with
  | document => exact absurd rfl hkind
  | element e => exact ⟨e, rfl, normal_of_not_staysOpen hshaped hbad, List.isEmpty_eq_false_iff.2 hnonempty⟩
  | _ => exact absurd (List.map_eq_nil_iff.1 (hshaped.1.leaf rfl)) hnonempty

mutual

/-- The markup of a branch in which some element would end the one it is under is read up to the first such element,
which then has another depth. -/
theorem strays_write {wo : WriteOptions} (hd : wo.dialect ≠ .minimal) {parentTag : Option String} {s : Spine}
    {b : Branch} {bs : List Branch} {rest : List Char} (hshaped : b.Every (NodeKind.Shaped false))
    (hread : ∀ kind ∈ b.payloads, kind.Readable) (hbad : ¬ b.Every NodeKind.StaysOpen)
    (h : s.Admits (b :: bs)) :
    s.Strays (b.write wo parentTag ++ rest) (b.depths (s.depth + 1)) := by
  match b, hshaped with
  | node kind children, hshaped =>
    obtain ⟨e, rfl, hmodel, hchildren⟩ :=
      exists_element_of_not_staysOpen (h.no_document _ List.mem_cons_self) hshaped hbad
    obtain ⟨hvoid, hraw, -⟩ := NodeKind.tag_of_normal hmodel
    rw [Branch.payloads, List.forall_mem_cons] at hread
    obtain ⟨⟨htag, hnames, hnodup⟩, hread⟩ := hread
    have hwrite : (node (.element e) children).write wo parentTag ++ rest = openTag wo.dialect e ++
        '>' :: (writeAll wo (some e.tag) children ++ (Token.closing e.tag ++ '>' :: rest)) := by
      rw [write, hvoid, hchildren]
      simp [Token.closing]
    have hopen : Reads .default s _ (openTag wo.dialect e ++
        '>' :: (writeAll wo (some e.tag) children ++ (Token.closing e.tag ++ '>' :: rest))) _ :=
      reads_openTag hd htag (fun a ha => hnames a.name (List.mem_map_of_mem ha)) hnodup (.inl hmodel)
    rw [step_startTag h, addElement, if_pos hmodel] at hopen
    have hinner : (inside s (.ofAttributes e.tag ⟨e.attributes.toList.map wo.dialect.reread⟩) []).Receives children :=
      ⟨⟨hmodel, h.plain⟩, admits_siblings (siblings_of_shaped hshaped.1)⟩
    have hparent : ((some e.tag).map Rules.isRawText).getD false = false := hraw
    have hmarkup : Token.AtMarkup (Token.closing e.tag ++ '>' :: rest) := Token.atMarkup_cons _
    have hinside := strays_writeAll hd hshaped.2 hread
      (fun ⟨hkind, hall⟩ => hbad ⟨hkind.of_tag rfl, hall⟩) hinner hparent hmarkup
    rw [hwrite]
    exact hinside.behind hopen rfl

theorem strays_writeAll {wo : WriteOptions} (hd : wo.dialect ≠ .minimal) {parentTag : Option String} {s : Spine}
    {bs : List Branch} {rest : List Char} (hshaped : AllEvery (NodeKind.Shaped false) bs)
    (hread : ∀ kind ∈ payloadsAll bs, kind.Readable)
    (hbad : ¬ (s.kind.StaysOpen (bs.map Branch.kind) ∧ AllEvery NodeKind.StaysOpen bs)) (h : s.Receives bs)
    (hparent : (parentTag.map Rules.isRawText).getD false = false) (hrest : Token.AtMarkup rest) :
    s.Strays (writeAll wo parentTag bs ++ rest) (depthsAll (s.depth + 1) bs) := by
  match bs, hshaped with
  | [], _ => exact absurd ⟨NodeKind.staysOpen_nil _, trivial⟩ hbad
  | b :: bs, hshaped =>
    rw [payloadsAll, List.forall_mem_append] at hread
    rw [writeAll, List.append_assoc, depthsAll]
    by_cases hopen : ∀ e inner, s.kind = .element e → b.kind = .element inner →
        Rules.closesImplicitly e.tag inner.tag = false
    · have hadmits := h.admits hopen
      by_cases hb : b.Every NodeKind.StaysOpen
      · -- this branch is read as it is, so reading strays in one of those behind it
        have hreads : Reads .default s _ (b.write wo parentTag ++ (writeAll wo parentTag bs ++ rest)) _ :=
          reads_write hd (canonical_of hshaped.1 hread.1 hb) hadmits hparent fun htext =>
            h.side_by_side.atMarkup htext hrest wo parentTag
        have hbad' : ¬ ((s.push (b.reread wo.dialect)).kind.StaysOpen (bs.map Branch.kind) ∧
            AllEvery NodeKind.StaysOpen bs) := by
          rw [kind_push]
          exact fun ⟨hkind, hall⟩ => hbad ⟨hkind.cons hopen, hb, hall⟩
        have hlater := strays_writeAll hd hshaped.2 hread.2 hbad' (h.tail (isText_reread wo.dialect b)) hparent hrest
        rw [depth_push] at hlater
        exact hlater.behind hreads (by rw [depths_push, depths_reread])
      · exact (strays_write hd hshaped.1 hread.1 hb hadmits).append _
    · obtain ⟨kind, children⟩ := b
      simp only [not_forall, Bool.not_eq_false] at hopen
      obtain ⟨e, inner, hs, hkind, hcloses⟩ := hopen
      obtain rfl : kind = .element inner := hkind
      exact (strays_closing hd parentTag (hread.1 _ (by simp [Branch.payloads])) hs hcloses).append _

end

/-- What is read of a text first keeps its depths to the end. -/
theorem Reads.depths_ofText {o : ParseOptions} {html : String} (h : Reads o (document []) s html.toList rest) :
    s.depths <+: (Spine.ofText html o).depths := by
  obtain ⟨scanner, -, -, heq⟩ := h (.ofString html o.folding) rfl rfl
  rw [Spine.ofText, ParseOptions.lexemes, heq]
  exact s.depths_foldl o _

end Spine

/-! ## Writing and reading again -/

/-- A document that can be written comes back as it is if and only if no element ends the one it is under. -/
theorem Branch.ofText_write_iff {b : Branch} (hshaped : b.Every (NodeKind.Shaped false))
    (hread : ∀ kind ∈ b.payloads, kind.Readable) (hkind : b.kind = .document) {wo : WriteOptions}
    (hd : wo.dialect ≠ .minimal) (parentTag : Option String) :
    Branch.ofText (String.ofList (b.write wo parentTag)) .default = b.reread wo.dialect ↔
      b.Every NodeKind.StaysOpen := by
  refine ⟨fun heq => ?_, fun hopen => ofText_write (canonical_of hshaped hread hopen) hkind hd parentTag⟩
  obtain ⟨kind, children⟩ := b
  obtain rfl : kind = .document := hkind
  have hroot : NodeKind.document.StaysOpen (children.map Branch.kind) := fun _ _ he => by cases he
  by_contra hbad
  have hreceives : (Spine.document []).Receives children :=
    ⟨trivial, Spine.admits_siblings (siblings_of_shaped hshaped.1)⟩
  rw [payloads, List.forall_mem_cons] at hread
  have hparent : ((none : Option String).map Rules.isRawText).getD false = false := rfl
  obtain ⟨s, rest, hreads, hstray⟩ := Spine.strays_writeAll hd hshaped.2 hread.2
    (fun hgood => hbad ⟨hroot, hgood.2⟩) hreceives hparent Token.atMarkup_nil
  rw [List.append_nil, ← @String.toList_ofList (writeAll wo none children)] at hreads
  -- the spine that strays keeps its depths, and the tree that comes back has those of the first one
  have hkept : s.depths <+: (Branch.ofText (String.ofList (writeAll wo none children)) .default).depths 0 := by
    rw [Branch.ofText, Spine.depths_whole]
    exact hreads.depths_ofText
  rw [write] at heq
  rw [heq, depths_reread, depths] at hkept
  refine hstray [] ?_
  rw [List.append_nil]
  exact hkept

namespace Tree

/-- No element has a child whose start tag would end it. -/
def StaysOpen (t : Tree) : Prop :=
  ∀ n c e inner, c ∈ t.children n → t.element? n = some e → t.element? c = some inner →
    Rules.closesImplicitly e.tag inner.tag = false

instance (t : Tree) : Decidable t.StaysOpen :=
  decidable_of_iff (∀ n < t.size, ∀ c ∈ t.children n, ∀ e ∈ t.element? n, ∀ inner ∈ t.element? c,
      Rules.closesImplicitly e.tag inner.tag = false)
    ⟨fun h n c e inner hc he hinner => h n (has_iff.1 (has_of_mem_children hc)) c hc e he inner hinner,
      fun h n _ c hc e he inner hinner => h n c e inner hc he hinner⟩

variable (html : String)

theorem staysOpen_parse_iff (o : ParseOptions) :
    (parse html o).StaysOpen ↔ (Branch.ofText html o).Every NodeKind.StaysOpen := by
  have hlaid := laidOut_parse html o
  have helement : ∀ {m e}, (parse html o).kind? m = some (.element e) → (parse html o).element? m = some e := by
    intro m e h
    rw [element?, h]
    rfl
  rw [hlaid.every_iff]
  constructor
  · intro h m _ _ kind hkind e inner he hinner
    subst he
    obtain ⟨c, hc, hkind'⟩ := List.mem_filterMap.1 hinner
    exact h m c e inner hc (helement hkind) (helement hkind')
  · intro h n c e inner hc he hinner
    have hkind := kind?_of_element? he
    have hsize := has_iff.1 (has_of_kind? hkind)
    rw [size_parse] at hsize
    refine h n (Nat.zero_le n) (by rw [root, Nat.zero_add]; exact hsize) _ hkind e inner rfl ?_
    exact List.mem_filterMap.2 ⟨c, hc, kind?_of_element? hinner⟩

theorem write_parse (o : ParseOptions) (wo : WriteOptions) :
    (parse html o).write root wo = String.ofList ((Branch.ofText html o).write wo none) := by
  rw [write, branch?_parse, (wellFormed_parse html o).root_loose]
  rfl

/-- The top of the branch of a text is the document. -/
theorem kind_ofText (o : ParseOptions) : (Branch.ofText html o).kind = .document := by
  have hlaid := laidOut_parse html o
  have hroot := (wellFormed_parse html o).root_kind
  cases hb : Branch.ofText html o with
  | node kind children =>
    rw [hb] at hlaid
    exact Option.some.inj (hlaid.1.symm.trans hroot)

/-- The tree of a text, written and read again. -/
def again (html : String) : Tree := parse ((parse html .default).write root .default) .default

/-- **Written and read again, the tree of a text comes back just where no element has a child whose start tag ends
it**, and there writing it again gives the same text. -/
theorem parse_write_parse (html : String) :
    ((again html).branch? root = (parse html .default).branch? root ↔ (parse html .default).StaysOpen) ∧
      ((parse html .default).StaysOpen →
        (again html).write root .default = (parse html .default).write root .default) := by
  have hreread : (Branch.ofText html .default).reread .default = Branch.ofText html .default :=
    reread_default fun e he => (Branch.readable_ofText he).2 e rfl
  have hd : WriteOptions.default.dialect ≠ .minimal := by decide
  have hback : Branch.ofText ((parse html .default).write root .default) .default = Branch.ofText html .default ↔
      (parse html .default).StaysOpen := by
    have hiff := Branch.ofText_write_iff (Branch.every_ofText html .default)
      (fun kind hkind => (Branch.readable_ofText hkind).1) (kind_ofText html .default) hd none
    rw [show WriteOptions.default.dialect = .default from rfl, hreread] at hiff
    rw [staysOpen_parse_iff, write_parse]
    exact hiff
  constructor
  · rw [again, branch?_parse, branch?_parse, Option.some.injEq]
    exact hback
  · intro hopen
    rw [again, write_parse, hback.2 hopen, ← write_parse]

/-- A list whose items have no end tags. -/
theorem parse_write_parse_list :
    (parse "<ul><li>a<li>b</ul>" .default).StaysOpen ∧
      (again "<ul><li>a<li>b</ul>").write root .default = "<ul><li>a</li><li>b</li></ul>" := by
  have hopen : (parse "<ul><li>a<li>b</ul>" .default).StaysOpen := by decide +kernel
  refine ⟨hopen, ?_⟩
  rw [(parse_write_parse "<ul><li>a<li>b</ul>").2 hopen]
  decide +kernel

/-- The second group of options ends the option, not the group around it, and comes back beside that. -/
theorem not_parse_write_groups :
    ¬ ∀ html, (again html).branch? root = (parse html .default).branch? root := by
  intro h
  have hgroups := congrArg (Option.map (·.children.length)) (h "<optgroup><option><optgroup>")
  revert hgroups
  decide +kernel

end Tree

end HtmlQuery
