import HtmlQuery.Proofs.Reference.RoundTrip
import HtmlQuery.Proofs.Tree.Content

/-!
# Number of nodes

A token adds a node at most, and one more where verbatim content comes behind it. Each takes a character at least, so
the tree of a text has at most one node for each character, besides the document (`size_parse_le`).
-/

namespace HtmlQuery

open Branch

namespace Lexeme

/-- The most nodes that a token with its verbatim content adds to a tree. -/
def cost (l : Lexeme) : Nat := 1 + (Spine.contentBranches l.content).length

def costAll : List Lexeme → Nat
  | [] => 0
  | l :: ls => l.cost + costAll ls

end Lexeme

/-! ## Nodes of a spine -/

namespace Spine

variable (s : Spine)

theorem size_push (b : Branch) : (s.push b).size = s.size + b.size := by
  rw [size, payloads_push, List.length_append, size, Branch.size]

/-- A text that joins another is no node of its own. -/
theorem sizeAll_joinText_le (data : String) (done : List Branch) :
    sizeAll (joinText data done) ≤ sizeAll done + 1 := by
  have htext : ∀ text : String, sizeAll [.node (.text text) []] = 1 := fun _ => rfl
  unfold joinText
  split
  · rename_i before hlast
    obtain ⟨bs, rfl⟩ := List.getLast?_eq_some_iff.1 hlast
    rw [List.dropLast_concat, sizeAll_append, sizeAll_append, htext, htext]
    exact Nat.le_succ _
  · exact Nat.le_of_eq (by rw [sizeAll_append, htext])

theorem size_addText_le (data : String) : (s.addText data).size ≤ s.size + 1 := by
  have hjoin := sizeAll_joinText_le data s.done
  rw [addText]
  split
  · exact Nat.le_succ _
  · rw [size_eq, size_eq, point_mapDone, done_mapDone]
    omega

theorem sizeAll_contentBranches (content : Option String) :
    sizeAll (contentBranches content) = (contentBranches content).length := by
  unfold contentBranches
  split
  · split <;> rfl
  · rfl

/-- Text is a node only where there is some. -/
theorem length_contentBranches_le (data : String) : (contentBranches (some data)).length ≤ data.length := by
  rw [contentBranches]
  split
  · exact Nat.zero_le _
  · rename_i hne
    exact Nat.pos_of_ne_zero fun hlength => hne (by simpa using hlength)

theorem size_addElement (e : Element) (model : ContentModel) (content : Option String) :
    (s.addElement e model content).size = s.size + 1 + (contentBranches content).length := by
  rw [← sizeAll_contentBranches, size, payloads_addElement, List.length_append, List.length_append]
  rfl

/-- A token adds no more nodes than it costs. -/
theorem size_step_le (o : ParseOptions) (l : Lexeme) : (s.step o l).size ≤ s.size + l.cost := by
  have hone : s.size + 1 ≤ s.size + l.cost := by rw [Lexeme.cost]; omega
  have hleaf : ∀ kind, (s.push (.node kind [])).size ≤ s.size + l.cost := fun kind => s.size_push _ ▸ hone
  obtain ⟨token, place, content⟩ := l
  cases token with
  | text data => exact Nat.le_trans (s.size_addText_le data) hone
  | comment data => exact hleaf _
  | doctype data => exact hleaf _
  | endTag tag =>
    have hclose : ((s.close? tag).getD s).size = s.size := by
      cases hclose : s.close? tag with
      | none => rfl
      | some s' => exact congrArg List.length (payloads_close? hclose)
    exact Nat.le_trans (Nat.le_of_eq hclose) (Nat.le_add_right ..)
  | startTag tag attributes selfClosing =>
    have hfor : (if o.xml then s else s.closeFor tag).size = s.size := by
      split
      · rfl
      · exact congrArg List.length (s.payloads_closeFor tag)
    rw [step]
    dsimp only
    split
    · exact Nat.le_of_eq (by rw [size_addElement, hfor, Nat.add_assoc, Lexeme.cost])
    · exact Nat.le_trans (Nat.le_of_eq hfor) (Nat.le_add_right ..)

theorem size_foldl_step_le (o : ParseOptions) (ls : List Lexeme) :
    (ls.foldl (step o) s).size ≤ s.size + Lexeme.costAll ls := by
  induction ls generalizing s with
  | nil => exact Nat.le_refl _
  | cons l ls ih =>
    have hstep := s.size_step_le o l
    have hlater := ih (s.step o l)
    rw [List.foldl_cons, Lexeme.costAll]
    omega

end Spine

/-! ## What tokens cost -/

theorem Text.cutBefore_getD_append (here : List Char → Bool) (cs : List Char) :
    ((cutBefore here cs).getD (cs, [])).1 ++ ((cutBefore here cs).getD (cs, [])).2 = cs := by
  cases hcut : cutBefore here cs with
  | none => exact List.append_nil cs
  | some parts => exact (cutBefore_eq_some hcut).1.symm

namespace Scanner

/-- Verbatim content, decoded or not, is no longer than what is read for it. -/
theorem rawText_length_add_le (tag : String) (decode : Bool) (s : Scanner) : (s.rawText tag decode).1.length +
    (s.rawText tag decode).2.cursor.rest.length ≤ s.cursor.rest.length := by
  have hparts := congrArg List.length
    (Text.cutBefore_getD_append (Text.startsIgnoringCase ('<' :: '/' :: tag.toList)) s.cursor.rest)
  rw [rawText]
  generalize (Text.cutBefore _ s.cursor.rest).getD _ = parts at hparts ⊢
  rw [List.length_append] at hparts
  have hdecode := Reference.length_decode_le parts.1
  rw [rest_upTo_length (by omega), String.length_ofList]
  split <;> omega

/-- Verbatim content is a node only where something is read for it. -/
theorem verbatim_length_add_le (xml : Bool) (token : Token) (s : Scanner) :
    (Spine.contentBranches (s.verbatim xml token).1).length + (s.verbatim xml token).2.cursor.rest.length ≤
      s.cursor.rest.length := by
  have hraw : ∀ tag decode, (Spine.contentBranches ((s.rawText tag decode).map some id).1).length +
      (s.rawText tag decode).2.cursor.rest.length ≤ s.cursor.rest.length := fun tag decode =>
    Nat.le_trans (Nat.add_le_add_right (Spine.length_contentBranches_le _) _) (s.rawText_length_add_le tag decode)
  cases token with
  | startTag tag attributes selfClosing =>
    rw [verbatim]
    cases Rules.contentModel tag selfClosing xml with
    | rawText => exact hraw tag false
    | rcdata => exact hraw tag true
    | normal => exact Nat.le_of_eq (Nat.zero_add _)
    | void => exact Nat.le_of_eq (Nat.zero_add _)
  | _ => exact Nat.le_of_eq (Nat.zero_add _)

/-- All tokens from a scanner on cost no more than there are characters to read. -/
theorem costAll_stream_le (xml : Bool) (s : Scanner) :
    Lexeme.costAll (s.stream xml) ≤ s.cursor.rest.length := by
  fun_induction stream xml s with
  | case1 s s' h => exact Nat.zero_le _
  | case2 s token place s' h ih =>
    have hnext := next_shorter h
    have hcontent := verbatim_length_add_le xml token s'
    rw [Lexeme.costAll, Lexeme.cost]
    dsimp only
    omega

end Scanner

/-- The tree of a text has at most one node for each character, besides the document. -/
theorem Tree.size_parse_le (html : String) (o : ParseOptions) : (parse html o).size ≤ html.length + 1 :=
  calc (parse html o).size
    _ = (Spine.ofText html o).size := by rw [size_parse, Branch.ofText, Branch.size, Spine.payloads_whole, Spine.size]
    _ ≤ 1 + Lexeme.costAll (o.lexemes html) := Spine.size_foldl_step_le (.document []) o _
    _ ≤ 1 + html.length := Nat.add_le_add_left (Scanner.costAll_stream_le o.xml (.ofString html o.folding)) 1
    _ = html.length + 1 := Nat.add_comm ..

end HtmlQuery
