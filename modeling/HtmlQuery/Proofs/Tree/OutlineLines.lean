import HtmlQuery.Proofs.Tree.Walks
import HtmlQuery.Tree.Outline

/-!
# The lines of an outline

An outline has a line for each node, in document order and behind two spaces for each level
(`WellFormed.outline_eq`). `Prints` is the loop that writes it, without a bound; over a well-formed tree it comes to an
end (`WellFormed.prints_iff`). Text shows its line feeds as an escape, and every other payload goes into its line as it
is. So the lines of an outline are those of its nodes just where no such payload has a line feed in it
(`outline_lines`).
-/

namespace HtmlQuery

/-! ## Line feeds in lines -/

/-- Whether a string has a line feed in it. -/
def holdsFeed (s : String) : Bool := s.toList.contains '\n'

/-- Whether a line of an outline has a line feed from this payload. -/
def NodeKind.breaksLine : NodeKind → Bool
  | document => false
  | element e => holdsFeed e.tag || e.attributes.toList.any fun a => holdsFeed a.name || holdsFeed a.value
  | text _ => false
  | comment data => holdsFeed data
  | doctype data => holdsFeed data

/-- The text is these lines one behind the other, each closed by a line feed, and none has one in it. -/
structure HasLines (text : String) (lines : List String) : Prop where
  text_eq : text = String.join (lines.map (· ++ "\n"))
  no_feed : ∀ line ∈ lines, '\n' ∉ line.toList

theorem mem_of_holdsFeed_iff {s : String} : '\n' ∈ s.toList ↔ holdsFeed s = true := by
  rw [holdsFeed, List.contains_iff_mem]

/-- What is shown of a string are its characters other than line feeds and spaces, and what stands for these. -/
theorem Reference.mem_showBlanks {c : Char} {s : String} (h : c ∈ (Reference.showBlanks s).toList) :
    (c ∈ s.toList ∧ c ≠ '\n' ∧ c ≠ ' ') ∨ c ∈ ['\\', 'n', '·'] := by
  rw [Reference.showBlanks, String.toList_ofList, List.mem_flatMap] at h
  obtain ⟨d, hd, hc⟩ := h
  unfold Reference.showBlank at hc
  split at hc
  · exact .inr (List.mem_append_left ['·'] hc)
  · rename_i hfeed
    split at hc
    · exact .inr (List.mem_append_right ['\\', 'n'] hc)
    · rename_i hspace
      obtain rfl := List.mem_singleton.1 hc
      exact .inl ⟨hd, hfeed, hspace⟩

theorem Reference.not_mem_showBlanks (s : String) : '\n' ∉ (Reference.showBlanks s).toList := by
  intro hmem
  rcases Reference.mem_showBlanks hmem with ⟨-, hfeed, -⟩ | hmark
  · exact hfeed rfl
  · revert hmark
    decide

theorem Attribute.mem_describe_iff (a : Attribute) :
    '\n' ∈ a.describe.toList ↔ (holdsFeed a.name || holdsFeed a.value) = true := by
  have hequals : '\n' ∉ "=\"".toList := by decide
  rw [Attribute.describe]
  split
  · rename_i hempty
    have hvalue : holdsFeed a.value = false := by rw [String.isEmpty_iff.1 hempty]; rfl
    simp [hvalue, ← mem_of_holdsFeed_iff]
  · simp [← mem_of_holdsFeed_iff]

theorem NodeKind.mem_describe_iff (kind : NodeKind) : '\n' ∈ kind.describe.toList ↔ kind.breaksLine = true := by
  cases kind with
  | document => decide
  | element e => simp [describe, breaksLine, ← mem_of_holdsFeed_iff, Attribute.mem_describe_iff]
  | text data => simpa [describe, breaksLine] using Reference.not_mem_showBlanks data
  | comment data => simp [describe, breaksLine, ← mem_of_holdsFeed_iff]
  | doctype data => simp [describe, breaksLine, ← mem_of_holdsFeed_iff]

theorem not_mem_indent {c : Char} (hc : c ≠ ' ') (depth : Nat) : c ∉ (indent depth).toList := by
  rw [indent, String.toList_ofList]
  exact fun hmem => hc (List.eq_of_mem_replicate hmem)

/-- Lines that are closed one behind the other have a line feed each, and no more just where none has one in it. -/
theorem count_join_lines (lines : List String) :
    lines.length ≤ (String.join (lines.map (· ++ "\n"))).toList.count '\n' ∧
      ((String.join (lines.map (· ++ "\n"))).toList.count '\n' = lines.length ↔
        ∀ line ∈ lines, '\n' ∉ line.toList) := by
  induction lines with
  | nil => exact ⟨Nat.zero_le _, iff_of_true rfl nofun⟩
  | cons line lines ih =>
    obtain ⟨hle, hiff⟩ := ih
    have hfeed : "\n".toList.count '\n' = 1 := by decide
    have hline : line.toList.count '\n' = 0 ↔ '\n' ∉ line.toList := List.count_eq_zero
    rw [List.map_cons, String.join_cons, String.toList_append, String.toList_append, List.count_append,
      List.count_append, hfeed, List.length_cons, List.forall_mem_cons, ← hiff, ← hline]
    omega

theorem HasLines.count_eq {text : String} {lines : List String} (h : HasLines text lines) :
    text.toList.count '\n' = lines.length := by
  rw [h.text_eq]
  exact (count_join_lines lines).2.2 h.no_feed

namespace Tree

/-! ## The loop -/

/-- Taking a node with its depth off the stack, writing its line and putting its children on the stack one level deeper,
again and again, comes to an end and writes `out`. A number that names no node is passed over. -/
inductive Prints (t : Tree) : List (NodeId × Nat) → String → Prop
  | done : Prints t [] ""
  | unknown {n : NodeId} {depth : Nat} {stack : List (NodeId × Nat)} {out : String} : t.describe? n = none →
      Prints t stack out → Prints t ((n, depth) :: stack) out
  | line {n : NodeId} {depth : Nat} {stack : List (NodeId × Nat)} {line out : String} : t.describe? n = some line →
      Prints t ((t.children n).map (·, depth + 1) ++ stack) out →
      Prints t ((n, depth) :: stack) (indent depth ++ line ++ "\n" ++ out)

/-- The nodes of an outline: the node and those under it. A number that names no node has none. -/
def shown (t : Tree) (n : NodeId) : List NodeId := (t.subtree n).filter t.has

/-- The line of the node `m` in the outline of the node `n`, without its line feed. -/
def lineBelow (t : Tree) (n m : NodeId) : String := indent (t.depth m - t.depth n) ++ (t.describe? m).getD ""

variable {t : Tree} {n : NodeId} {ns l : List NodeId} {stack : List (NodeId × Nat)} {out out' : String}

theorem Prints.unique (h : Prints t stack out) (h' : Prints t stack out') : out = out' := by
  induction h generalizing out' with
  | done =>
    cases h'
    rfl
  | unknown hnone _ ih =>
    cases h' with
    | unknown _ h' => exact ih h'
    | line hsome _ => simp [hnone] at hsome
  | line hsome _ ih =>
    cases h' with
    | unknown hnone _ => simp [hsome] at hnone
    | line hsome' h' =>
      rw [hsome, Option.some.injEq] at hsome'
      rw [hsome', ih h']

theorem exists_describe?_of_has (hn : t.has n = true) : ∃ line, t.describe? n = some line := by
  obtain ⟨kind, hkind⟩ := exists_kind?_of_has hn
  exact ⟨kind.describe, by rw [describe?, hkind]; rfl⟩

section
variable (h : t.WellFormed)
include h

/-- Over nodes of one level with all that is under them the loop writes their lines, and goes on with the rest of the
stack. -/
theorem Lists.prints (base depth : Nat) (hl : Lists t ns l) (hns : ∀ c ∈ ns, t.has c = true ∧ t.depth c = base)
    (hstack : Prints t stack out) : Prints t (ns.map (·, depth) ++ stack)
      (String.join (l.map fun m => indent (t.depth m + depth - base) ++ (t.describe? m).getD "" ++ "\n") ++ out) := by
  induction hl generalizing depth base stack out with
  | nil => simpa using hstack
  | @cons n ns below rest _ _ ihbelow ihrest =>
    obtain ⟨⟨hn, hbase⟩, hns⟩ := List.forall_mem_cons.1 hns
    have hunder : ∀ c ∈ t.children n, t.has c = true ∧ t.depth c = base + 1 := fun c hc =>
      ⟨h.child_has n c hc, by rw [h.depth_of_mem_children hc, hbase]⟩
    obtain ⟨line, hline⟩ := exists_describe?_of_has hn
    have hprints := Prints.line hline (ihbelow (base + 1) (depth + 1) hunder (ihrest base depth hns hstack))
    -- one level down, depth and base have both grown by one
    simp only [← Nat.add_assoc, Nat.add_sub_add_right] at hprints
    simpa [hline, hbase, String.append_assoc] using hprints

/-- The bounded walk passes nodes of one level with all that is under them, each with its level. -/
theorem Lists.preorderLevels (base depth fuel : Nat) (hl : Lists t ns l) (hns : ∀ c ∈ ns, t.depth c = base) :
    t.preorderLevels (l.length + fuel) (ns.map (·, depth) ++ stack) =
      l.map (fun m => (m, t.depth m + depth - base)) ++ t.preorderLevels fuel stack := by
  induction hl generalizing depth base stack fuel with
  | nil => simp
  | @cons n ns below rest _ _ ihbelow ihrest =>
    obtain ⟨hbase, hns⟩ := List.forall_mem_cons.1 hns
    have hunder : ∀ c ∈ t.children n, t.depth c = base + 1 := fun c hc => by
      rw [h.depth_of_mem_children hc, hbase]
    have hfuel : (n :: (below ++ rest)).length + fuel = below.length + (rest.length + fuel) + 1 := by
      rw [List.length_cons, List.length_append]
      omega
    rw [hfuel, List.map_cons, List.cons_append, Tree.preorderLevels, ihbelow _ _ _ hunder, ihrest _ _ _ hns, List.map_cons,
      List.map_append, hbase, Nat.add_sub_cancel_left]
    simp only [← Nat.add_assoc, Nat.add_sub_add_right, List.cons_append, List.append_assoc]

end

namespace WellFormed

variable (h : t.WellFormed)
include h

theorem shown_of_has (hn : t.has n = true) : t.shown n = t.subtree n := by
  rw [shown, List.filter_eq_self, subtree_eq_cons]
  intro m hm
  rcases List.mem_cons.1 hm with rfl | hm
  · exact hn
  · obtain ⟨p, hp, -⟩ := h.mem_ancestors_iff.1 (h.mem_descendants_iff.1 hm)
    exact has_of_parent hp

theorem children_of_not_has (hn : t.has n = false) : t.children n = [] := by
  by_contra hne
  obtain ⟨kind, hkind, -⟩ := h.container n hne
  exact Bool.false_ne_true (hn.symm.trans (has_of_kind? hkind))

theorem shown_of_not_has (hn : t.has n = false) : t.shown n = [] := by
  rw [shown, subtree_eq_cons, (h.listsBelow_iff.2 rfl) n, h.children_of_not_has hn]
  simp [hn]

theorem levels_eq (n : NodeId) : t.levels n = (t.shown n).map fun m => (m, t.depth m - t.depth n) := by
  cases hn : t.has n with
  | false => rw [levels, hn, h.shown_of_not_has hn]; rfl
  | true =>
    have hl : Lists t [n] (t.subtree n) := h.lists_subtree n
    have hlength : (t.subtree n).length ≤ t.size := by
      rw [subtree_eq_cons, List.length_cons]
      exact h.length_descendants_lt n
    have hwalk : t.preorderLevels _ ([n].map (·, 0) ++ []) = _ :=
      hl.preorderLevels h (t.depth n) 0 (t.size + 1 - (t.subtree n).length) (by simp)
    rw [Nat.add_sub_cancel' (Nat.le_succ_of_le hlength)] at hwalk
    rw [levels, if_pos hn, h.shown_of_has hn]
    have hnil : ∀ fuel, t.preorderLevels fuel [] = [] := fun fuel => by cases fuel <;> rfl
    simpa [hnil] using hwalk

/-- An outline is the lines of its nodes in document order, each behind two spaces for each level below the top. -/
theorem outline_eq (n : NodeId) : t.outline n = String.join (((t.shown n).map (t.lineBelow n)).map (· ++ "\n")) := by
  rw [outline, h.levels_eq, List.map_map, List.map_map]
  refine congrArg String.join (List.map_congr_left fun m hm => ?_)
  obtain ⟨line, hline⟩ := exists_describe?_of_has (List.mem_filter.1 hm).2
  simp [outlineLine, lineBelow, hline]

theorem prints_iff (n : NodeId) : Prints t [(n, 0)] out ↔ out = t.outline n := by
  have hprints : Prints t [(n, 0)] (t.outline n) := by
    cases hn : t.has n with
    | false =>
      have hnone : t.describe? n = none := by
        rw [describe?, Option.map_eq_none_iff]
        cases hkind : t.kind? n with
        | none => rfl
        | some kind => exact absurd (hn.symm.trans (has_of_kind? hkind)) Bool.false_ne_true
      rw [h.outline_eq, h.shown_of_not_has hn]
      exact .unknown hnone .done
    | true =>
      have hprints := (h.lists_subtree n).prints h (t.depth n) 0 (by simp [hn]) .done
      rw [h.outline_eq, h.shown_of_has hn]
      simpa [lineBelow, Function.comp_def] using hprints
  constructor
  · exact fun h' => h'.unique hprints
  · rintro rfl
    exact hprints

end WellFormed

/-! ## One line for each node -/

theorem mem_lineBelow_iff {m : NodeId} {kind : NodeKind} (hkind : t.kind? m = some kind) :
    '\n' ∈ (t.lineBelow n m).toList ↔ kind.breaksLine = true := by
  have hdescribe : t.describe? m = some kind.describe := by rw [describe?, hkind]; rfl
  rw [lineBelow, hdescribe, String.toList_append, List.mem_append, Option.getD_some, ← kind.mem_describe_iff]
  exact or_iff_right (not_mem_indent (by decide) _)

/-- No node of an outline has a line feed that shows. -/
def Unbroken (t : Tree) (n : NodeId) : Prop :=
  ∀ m ∈ t.shown n, ∀ kind, t.kind? m = some kind → kind.breaksLine = false

theorem unbroken_iff : t.Unbroken n ↔ ∀ line ∈ (t.shown n).map (t.lineBelow n), '\n' ∉ line.toList := by
  constructor
  · intro hunbroken line hline
    obtain ⟨m, hm, rfl⟩ := List.mem_map.1 hline
    obtain ⟨kind, hkind⟩ := exists_kind?_of_has (List.mem_filter.1 hm).2
    rw [mem_lineBelow_iff hkind, hunbroken m hm kind hkind]
    exact Bool.false_ne_true
  · intro hlines m hm kind hkind
    rw [Bool.eq_false_iff, ne_eq, ← mem_lineBelow_iff hkind]
    exact hlines _ (List.mem_map_of_mem hm)

/-- **An outline has one line for each node just where no payload other than text has a line feed in it.** The lines are
then those of the nodes in document order. In any case the loop that writes an outline ends, and writes for each node
its line and a line feed. -/
theorem outline_lines (h : t.WellFormed) (n : NodeId) :
    (∀ out, Prints t [(n, 0)] out ↔ out = t.outline n) ∧
    t.outline n = String.join (((t.shown n).map (t.lineBelow n)).map (· ++ "\n")) ∧
    (HasLines (t.outline n) ((t.shown n).map (t.lineBelow n)) ↔ t.Unbroken n) ∧
    ((∃ lines, HasLines (t.outline n) lines ∧ lines.length = (t.shown n).length) ↔ t.Unbroken n) := by
  have houtline := h.outline_eq n
  have hlines : t.Unbroken n → HasLines (t.outline n) ((t.shown n).map (t.lineBelow n)) := fun hunbroken =>
    ⟨houtline, unbroken_iff.1 hunbroken⟩
  refine ⟨fun out => h.prints_iff n, houtline, ⟨fun h' => unbroken_iff.2 h'.no_feed, hlines⟩, ?_, fun hunbroken => ?_⟩
  · rintro ⟨lines, hhas, hlength⟩
    have hcount := hhas.count_eq
    rw [hlength, houtline, ← List.length_map (t.lineBelow n)] at hcount
    exact unbroken_iff.2 ((count_join_lines _).2.1 hcount)
  · exact ⟨_, hlines hunbroken, List.length_map _⟩

/-- A paragraph with an attribute, a comment and a text that has a line feed. -/
theorem outline_lines_paragraph : ∃ t, t = parse "<p id=a><!--b-->c\nd" .default ∧ t.WellFormed ∧
    (t.shown 1).length = 3 ∧ HasLines (t.outline 1) ["<p id=\"a\">", "  <!--b-->", "  \"c\\nd\""] := by
  have hwf := wellFormed_parse "<p id=a><!--b-->c\nd" .default
  have hshown : (parse "<p id=a><!--b-->c\nd" .default).shown 1 = [1, 2, 3] := by decide +kernel
  have hunbroken : (parse "<p id=a><!--b-->c\nd" .default).Unbroken 1 := by
    rw [unbroken_iff, hshown]
    decide +kernel
  have hlines := (outline_lines hwf 1).2.2.1.2 hunbroken
  rw [hshown] at hlines
  refine ⟨_, rfl, hwf, by rw [hshown]; rfl, ?_⟩
  convert hlines using 1
  decide +kernel

/-- A line feed in a comment ends the line of the comment. -/
theorem not_outline_lines_comment : ¬ ∀ (t : Tree) (n : NodeId), t.WellFormed →
    ∃ lines, HasLines (t.outline n) lines ∧ lines.length = (t.shown n).length := by
  intro h
  obtain ⟨lines, hlines, hlength⟩ := h (parse "<!--a\nb-->" .default) root (wellFormed_parse ..)
  have hcount : ((parse "<!--a\nb-->" .default).outline root).toList.count '\n' = 3 ∧
      ((parse "<!--a\nb-->" .default).shown root).length = 2 := by decide +kernel
  have hthree : lines.length = 3 := hlines.count_eq.symm.trans hcount.1
  exact absurd (hthree.symm.trans (hlength.trans hcount.2)) (by decide)

end Tree

end HtmlQuery
