import HtmlQuery.CommandLine.Colour
import HtmlQuery.Proofs.Tree.OutlineLines

/-!
# Colour adds nothing but colour

A coloured outline without its control sequences is the outline (`decoloured_outline`). What puts colour around a text
is a parameter: of it is asked only that it writes the text between control sequences (`OnlyWraps`). `Painted` says that
one text is another one with control sequences in between, and is kept by everything of which a line is made. `Paints`
is the loop that writes a coloured outline, without a bound; it goes in step with the loop that writes the outline
(`Paints.prints`).
-/

namespace HtmlQuery

/-- The strings that a node shows. -/
def NodeKind.strings : NodeKind → List String
  | document => []
  | element e => e.tag :: e.attributes.toList.flatMap fun a => [a.name, a.value]
  | text data => [data]
  | comment data => [data]
  | doctype data => [data]

/-- No node of a tree has an escape character in it. -/
def Tree.EscapeFree (t : Tree) : Prop := ∀ node ∈ t.nodes, ∀ s ∈ node.kind.strings, '\x1b' ∉ s.toList

instance (t : Tree) : Decidable t.EscapeFree :=
  inferInstanceAs (Decidable (∀ node ∈ t.nodes, ∀ s ∈ node.kind.strings, '\x1b' ∉ s.toList))

namespace CommandLine

/-! ## Control sequences -/

/-- The characters between the opening bracket of a control sequence and the `m` that ends it. -/
def isParameter (c : Char) : Bool := Text.isAsciiDigit c || c = ';'

/-- What follows a control sequence, behind its escape character. -/
def afterControl? : List Char → Option (List Char)
  | '[' :: cs =>
    match cs.dropWhile isParameter with
    | 'm' :: rest => some rest
    | _ => none
  | _ => none

theorem afterControl?_shorter {cs rest : List Char} (h : afterControl? cs = some rest) : rest.length < cs.length := by
  unfold afterControl? at h
  split at h
  · rename_i cs
    have hdrop := Text.length_dropWhile_le isParameter cs
    split at h
    · rename_i heq
      obtain rfl := Option.some.inj h
      rw [heq] at hdrop
      exact Nat.lt_of_lt_of_le (Nat.lt_succ_self _) (Nat.le_succ_of_le hdrop)
    · exact absurd h nofun
  · exact absurd h nofun

/-- A text without its control sequences. An escape character that begins none stays. -/
def withoutControls : List Char → List Char
  | [] => []
  | c :: cs =>
    if c = '\x1b' then
      match _h : afterControl? cs with
      | some rest => withoutControls rest
      | none => c :: withoutControls cs
    else c :: withoutControls cs
termination_by cs => cs.length
decreasing_by
  · exact Nat.lt_succ_of_lt (afterControl?_shorter _h)
  · exact Nat.lt_succ_self _
  · exact Nat.lt_succ_self _

def decoloured (s : String) : String := String.ofList (withoutControls s.toList)

/-! ## Texts with control sequences in between -/

/-- The first text is the second one with control sequences in between. -/
inductive Painted : List Char → List Char → Prop
  | nil : Painted [] []
  | char {c : Char} {cs ds : List Char} : c ≠ '\x1b' → Painted cs ds → Painted (c :: cs) (c :: ds)
  | control {params cs ds : List Char} : (∀ c ∈ params, isParameter c = true) → Painted cs ds →
      Painted ('\x1b' :: '[' :: (params ++ 'm' :: cs)) ds

/-- A text of control sequences and nothing else. -/
def Controls (cs : List Char) : Prop := Painted cs []

/-- Showing a text in a style writes it between control sequences, whatever the style and the text. -/
def OnlyWraps (wrap : Style → String → String) : Prop :=
  ∀ style text, ∃ before behind, Controls before ∧ Controls behind ∧
    (wrap style text).toList = before ++ text.toList ++ behind

variable {cs ds cs' ds' : List Char} {wrap : Style → String → String}

theorem afterControl?_append {params : List Char} (h : ∀ c ∈ params, isParameter c = true) (cs : List Char) :
    afterControl? ('[' :: (params ++ 'm' :: cs)) = some cs := by
  have hdrop : (params ++ 'm' :: cs).dropWhile isParameter = 'm' :: cs := by
    rw [List.dropWhile_append_of_pos h, List.dropWhile_cons_of_neg (by decide)]
  simp only [afterControl?, hdrop]

/-- What is left of a painted text without its control sequences is the text that was painted. -/
theorem Painted.withoutControls_eq (h : Painted cs ds) : withoutControls cs = ds := by
  induction h with
  | nil => rw [withoutControls]
  | char hne _ ih => rw [withoutControls, if_neg hne, ih]
  | @control params cs ds hparams _ ih =>
    rw [withoutControls, if_pos rfl]
    split
    · rename_i rest hrest
      rw [afterControl?_append hparams] at hrest
      rw [← Option.some.inj hrest, ih]
    · rename_i hnone
      rw [afterControl?_append hparams] at hnone
      exact absurd hnone nofun

theorem Painted.append (h : Painted cs ds) (h' : Painted cs' ds') : Painted (cs ++ cs') (ds ++ ds') := by
  induction h with
  | nil => exact h'
  | char hne _ ih => exact .char hne ih
  | control hparams _ ih =>
    rw [List.cons_append, List.cons_append, List.append_assoc]
    exact .control hparams ih

theorem painted_self (h : '\x1b' ∉ cs) : Painted cs cs := by
  induction cs with
  | nil => exact .nil
  | cons c cs ih =>
    rw [List.mem_cons, not_or] at h
    exact .char (Ne.symm h.1) (ih h.2)

theorem OnlyWraps.painted (hwrap : OnlyWraps wrap) (style : Style) {text : String} (h : Painted text.toList ds) :
    Painted (wrap style text).toList ds := by
  obtain ⟨before, behind, hbefore, hbehind, heq⟩ := hwrap style text
  have hpainted := (hbefore.append h).append hbehind
  rw [heq]
  rwa [List.nil_append, List.append_nil] at hpainted

/-! ## Lines -/

/-- A text with its styles around it, where `wrap` shows a text in a style. -/
def Piece.renderWith (wrap : Style → String → String) (p : Piece) : String := p.styles.foldr wrap p.text

/-- The coloured line of a node, without its indentation. -/
def paintedLine (wrap : Style → String → String) (kind : NodeKind) : String :=
  String.join ((linePieces kind).map (Piece.renderWith wrap))

theorem OnlyWraps.painted_piece (hwrap : OnlyWraps wrap) {p : Piece} (h : '\x1b' ∉ p.text.toList) :
    Painted (p.renderWith wrap).toList p.text.toList := by
  rw [Piece.renderWith]
  induction p.styles with
  | nil => exact painted_self h
  | cons style styles ih => exact hwrap.painted style ih

theorem OnlyWraps.painted_pieces (hwrap : OnlyWraps wrap) {ps : List Piece} (h : ∀ p ∈ ps, '\x1b' ∉ p.text.toList) :
    Painted (String.join (ps.map (Piece.renderWith wrap))).toList (Piece.plain ps).toList := by
  induction ps with
  | nil => exact .nil
  | cons p ps ih =>
    obtain ⟨hp, hps⟩ := List.forall_mem_cons.1 h
    simp only [Piece.plain, List.map_cons, String.join_cons, String.toList_append]
    exact (hwrap.painted_piece hp).append (ih hps)

theorem not_mem_linePieces {kind : NodeKind} (h : ∀ s ∈ kind.strings, '\x1b' ∉ s.toList) :
    ∀ p ∈ linePieces kind, '\x1b' ∉ p.text.toList := by
  intro p hp
  cases kind with
  | document =>
    obtain rfl := List.mem_singleton.1 hp
    decide
  | element e =>
    obtain ⟨htag, hattributes⟩ := List.forall_mem_cons.1 h
    simp only [linePieces, List.mem_append, List.mem_cons, List.not_mem_nil, or_false, List.mem_flatMap] at hp
    rcases hp with ((rfl | rfl) | ⟨a, ha, hp⟩) | rfl
    · decide
    · exact htag
    · have hname := hattributes a.name (List.mem_flatMap.2 ⟨a, ha, List.mem_cons_self⟩)
      have hvalue := hattributes a.value (List.mem_flatMap.2 ⟨a, ha, by simp⟩)
      unfold attributePieces at hp
      split at hp <;> simp only [List.mem_cons, List.not_mem_nil, or_false] at hp
      · rcases hp with rfl | rfl
        · decide
        · exact hname
      · rcases hp with rfl | rfl | rfl | rfl | rfl
        · decide
        · exact hname
        · decide
        · exact hvalue
        · decide
    · decide
  | text data =>
    obtain rfl := List.mem_singleton.1 hp
    have hdata := h data List.mem_cons_self
    have hshown : '\x1b' ∉ (Reference.showBlanks data).toList := fun hmem =>
      (Reference.mem_showBlanks hmem).elim (fun h => hdata h.1) (by decide)
    simpa [Piece.plainText] using hshown
  | comment data =>
    obtain rfl := List.mem_singleton.1 hp
    simpa using h data List.mem_cons_self
  | doctype data =>
    obtain rfl := List.mem_singleton.1 hp
    simpa using h data List.mem_cons_self

/-- The coloured line of a node is its line, painted. -/
theorem OnlyWraps.painted_line (hwrap : OnlyWraps wrap) {kind : NodeKind}
    (h : ∀ s ∈ kind.strings, '\x1b' ∉ s.toList) (depth : Nat) :
    Painted (indent depth ++ paintedLine wrap kind ++ "\n").toList (indent depth ++ kind.describe ++ "\n").toList := by
  have hindent := painted_self (@not_mem_indent '\x1b' (by decide) depth)
  have hline := hwrap.painted_pieces (not_mem_linePieces h)
  have hfeed : Painted "\n".toList "\n".toList := painted_self (by decide)
  rw [plain_linePieces] at hline
  simp only [String.toList_append]
  exact (hindent.append hline).append hfeed

/-! ## The loop -/

/-- Taking a node with its depth off the stack, writing its coloured line and putting its children on the stack one
level deeper, again and again, comes to an end and writes `out`. A number that names no node is passed over. -/
inductive Paints (wrap : Style → String → String) (t : Tree) : List (NodeId × Nat) → String → Prop
  | done : Paints wrap t [] ""
  | unknown {n : NodeId} {depth : Nat} {stack : List (NodeId × Nat)} {out : String} : t.get? n = none →
      Paints wrap t stack out → Paints wrap t ((n, depth) :: stack) out
  | line {n : NodeId} {depth : Nat} {stack : List (NodeId × Nat)} {node : Node} {out : String} : t.get? n = some node →
      Paints wrap t ((t.children n).map (·, depth + 1) ++ stack) out →
      Paints wrap t ((n, depth) :: stack) (indent depth ++ paintedLine wrap node.kind ++ "\n" ++ out)

variable {t : Tree} {n : NodeId} {stack : List (NodeId × Nat)} {out : String}

/-- Where the loop with colour ends, the loop without colour ends, and has written the same without control
sequences. -/
theorem Paints.prints (hwrap : OnlyWraps wrap) (ht : t.EscapeFree) (h : Paints wrap t stack out) :
    ∃ plain, t.Prints stack plain ∧ Painted out.toList plain.toList := by
  induction h with
  | done => exact ⟨"", .done, .nil⟩
  | @unknown n depth stack out hnone _ ih =>
    obtain ⟨plain, hprints, hpainted⟩ := ih
    have hdescribe : t.describe? n = none := by rw [Tree.describe?, Tree.kind?, hnone]; rfl
    exact ⟨plain, .unknown hdescribe hprints, hpainted⟩
  | @line n depth stack node out hnode _ ih =>
    obtain ⟨plain, hprints, hpainted⟩ := ih
    have hdescribe : t.describe? n = some node.kind.describe := by rw [Tree.describe?, Tree.kind?, hnode]; rfl
    have hline := hwrap.painted_line (ht node (Array.mem_of_getElem? hnode)) depth
    refine ⟨_, .line hdescribe hprints, ?_⟩
    rw [String.toList_append, String.toList_append (t := plain)]
    exact hline.append hpainted

/-- The coloured line of a node at a depth, with its line feed. -/
def paintedAt (wrap : Style → String → String) (t : Tree) (n : NodeId) (depth : Nat) : String :=
  match t.get? n with
  | some node => indent depth ++ paintedLine wrap node.kind ++ "\n"
  | none => ""

/-- A walk that ends before its bound is the one of the loop. -/
theorem paints_of_length_lt {fuel : Nat} (wrap : Style → String → String)
    (h : (t.preorderLevels fuel stack).length < fuel) :
    Paints wrap t stack (String.join ((t.preorderLevels fuel stack).map fun m => paintedAt wrap t m.1 m.2)) := by
  induction fuel generalizing stack with
  | zero => exact absurd h (Nat.not_lt_zero _)
  | succ fuel ih =>
    cases stack with
    | nil => exact .done
    | cons top stack =>
      obtain ⟨n, depth⟩ := top
      rw [Tree.preorderLevels, List.length_cons] at h
      have hbelow := ih (Nat.lt_of_add_lt_add_right h)
      rw [Tree.preorderLevels, List.map_cons, String.join_cons]
      cases hnode : t.get? n with
      | none =>
        have hchildren : t.children n = [] := by rw [Tree.children, hnode]
        rw [hchildren] at hbelow ⊢
        simpa [paintedAt, hnode] using Paints.unknown hnode hbelow
      | some node =>
        simpa [paintedAt, hnode] using Paints.line hnode hbelow

/-! ## The program's colours -/

theorem controls_control (code : Nat) : Controls (Style.control code).toList := by
  have hdigits : ∀ c ∈ (toString code).toList, isParameter c = true := by
    intro c hc
    have hdigit : c.isDigit = true := by
      rw [Nat.toString_eq_repr, Nat.toList_repr] at hc
      exact Nat.isDigit_of_mem_toDigits (by decide) (by decide) hc
    rw [Char.isDigit, Bool.and_eq_true, decide_eq_true_iff, decide_eq_true_iff] at hdigit
    rw [isParameter, Text.isAsciiDigit, Bool.or_eq_true, Bool.and_eq_true, decide_eq_true_iff, decide_eq_true_iff]
    exact .inl hdigit
  have hcontrols := Painted.control hdigits .nil
  rw [Style.control, String.toList_append, String.toList_append]
  exact hcontrols

theorem onlyWraps_wrap : OnlyWraps Style.wrap := by
  intro style text
  refine ⟨(Style.control style.onCode).toList, (Style.control style.offCode).toList, controls_control _,
    controls_control _, ?_⟩
  rw [Style.wrap, String.toList_append, String.toList_append]

theorem colouredLine_eq (t : Tree) (n : NodeId) (depth : Nat) :
    colouredLine t false n depth = paintedAt Style.wrap t n depth := by
  rw [colouredLine, paintedAt]
  cases t.get? n with
  | none => rfl
  | some node =>
    have hpieces : nodePieces node false = linePieces node.kind := by
      rw [nodePieces]
      cases node.location <;> exact List.append_nil _
    simp only [hpieces]
    rfl

/-- From every node of a well-formed tree, or a number that names none, the loop ends with the lines of the walk. -/
theorem paints_levels (h : t.WellFormed) (wrap : Style → String → String) (n : NodeId) :
    Paints wrap t [(n, 0)] (String.join ((t.levels n).map fun m => paintedAt wrap t m.1 m.2)) := by
  cases hn : t.has n with
  | false =>
    rw [Tree.levels, hn]
    exact .unknown (Tree.get?_of_not_has hn) .done
  | true =>
    have hlevels := h.levels_eq n
    rw [h.shown_of_has hn] at hlevels
    have hlength : (t.levels n).length < t.size + 1 := by
      rw [hlevels, List.length_map, Tree.subtree_eq_cons, List.length_cons]
      exact Nat.succ_lt_succ (h.length_descendants_lt n)
    rw [Tree.levels, if_pos hn] at hlength ⊢
    exact paints_of_length_lt wrap hlength

theorem colouredOutline_eq (t : Tree) (n : NodeId) :
    colouredOutline t n false = String.join ((t.levels n).map fun m => paintedAt Style.wrap t m.1 m.2) := by
  simp only [colouredOutline, colouredLine_eq]

theorem Paints.decoloured_eq (h : Paints wrap t [(n, 0)] out) (hwrap : OnlyWraps wrap) (hwf : t.WellFormed)
    (ht : t.EscapeFree) : decoloured out = t.outline n := by
  obtain ⟨plain, hprints, hpainted⟩ := h.prints hwrap ht
  rw [decoloured, hpainted.withoutControls_eq, String.ofList_toList]
  exact (hwf.prints_iff n).1 hprints

/-- **Colour changes nothing but colour.** Over a well-formed tree without escape characters the loop that writes a
coloured outline ends, from every node and whatever puts colour around a text, as long as that only writes control
sequences around it; and without its control sequences, what it writes is the outline. This loop, with the colours of
a terminal, is what writes `colouredOutline`. -/
theorem decoloured_outline (hwrap : OnlyWraps wrap) (h : t.WellFormed) (ht : t.EscapeFree) (n : NodeId) :
    (∃ out, Paints wrap t [(n, 0)] out) ∧
    (∀ out, Paints wrap t [(n, 0)] out → decoloured out = t.outline n) ∧
    OnlyWraps Style.wrap ∧ Paints Style.wrap t [(n, 0)] (colouredOutline t n false) ∧
    decoloured (colouredOutline t n false) = t.outline n := by
  have hpaints : Paints Style.wrap t [(n, 0)] (colouredOutline t n false) := by
    rw [colouredOutline_eq]
    exact paints_levels h Style.wrap n
  exact ⟨⟨_, paints_levels h wrap n⟩, fun out hout => hout.decoloured_eq hwrap h ht, onlyWraps_wrap, hpaints,
    hpaints.decoloured_eq onlyWraps_wrap h ht⟩

/-- A paragraph with an attribute, a comment and a text, in the colours of a terminal. -/
theorem decoloured_outline_paragraph : ∃ t, t = Tree.parse "<p id=a><!--b-->c d" .default ∧ OnlyWraps Style.wrap ∧
    t.WellFormed ∧ t.EscapeFree ∧ (t.outline 1).length < (colouredOutline t 1 false).length ∧
    decoloured (colouredOutline t 1 false) = t.outline 1 := by
  have hwf := Tree.wellFormed_parse "<p id=a><!--b-->c d" .default
  have hescape : (Tree.parse "<p id=a><!--b-->c d" .default).EscapeFree := by decide +kernel
  have hlonger : ((Tree.parse "<p id=a><!--b-->c d" .default).outline 1).length <
      (colouredOutline (Tree.parse "<p id=a><!--b-->c d" .default) 1 false).length := by decide +kernel
  exact ⟨_, rfl, onlyWraps_wrap, hwf, hescape, hlonger, (decoloured_outline onlyWraps_wrap hwf hescape 1).2.2.2.2⟩

end CommandLine

end HtmlQuery
