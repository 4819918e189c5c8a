import HtmlQuery.Proofs.Token.Requests
import HtmlQuery.Proofs.Tree.Size

/-!
# Parsing does not fail

The builder once more, on the scanner by byte offsets, where the number of a node and a loop can fail as well as a
slice: a number must name a node wherever one is changed, and the search for an open element goes from parent to parent
in no more rounds than there are nodes. In the trees that are built no number fails (`WellFormed.link?_eq`) and the
parents end in time (`Holds.outside?_eq`), so the tree of a text is found without a failure (`parse?_eq`). Main
statement: scanning and building are total, and the tree is no larger than the text (`parse_total`).
-/

namespace HtmlQuery

open Cursor

/-! ## Numbers that must name nodes -/

namespace Tree

/-- Changes a node that must be there. -/
def modify? (t : Tree) (n : NodeId) (f : Node → Node) : Option Tree := if t.has n then some (t.modify n f) else none

/-- `join` for siblings that must be there. -/
def join? (t : Tree) (prev next : Option NodeId) : Option Tree := do
  let t ← match prev with
    | some p => t.modify? p fun node => { node with next := next }
    | none => some t
  match next with
  | some n => t.modify? n fun node => { node with prev := prev }
  | none => some t

/-- `detach` for nodes that must be there. -/
def unlink? (t : Tree) (n : NodeId) : Option Tree := do
  let node ← t.get? n
  match node.parent with
  | none => some t
  | some parent =>
    let t ← t.modify? n fun node => { node with parent := none, prev := none, next := none }
    let t ← t.modify? parent fun node => { node with children := node.children.filter (· ≠ n) }
    t.join? node.prev node.next

/-- `attach` for nodes that must be there. -/
def link? (t : Tree) (parent child : NodeId) : Option Tree := do
  let t ← t.unlink? child
  let last := (← t.get? parent).children.getLast?
  let t ← t.modify? parent fun node => { node with children := node.children ++ [child] }
  let t ← t.modify? child fun node => { node with parent := some parent }
  match last with
  | some prev =>
    let t ← t.modify? prev fun node => { node with next := some child }
    t.modify? child fun node => { node with prev := some prev }
  | none => some t

variable {t : Tree} {n p c : NodeId} {f : Node → Node}

theorem modify?_eq (h : t.has n = true) : t.modify? n f = some (t.modify n f) := if_pos h

@[simp] theorem has_modify (m : NodeId) : (t.modify n f).has m = t.has m := by rw [has, has, size_modify]

theorem join?_eq {prev next : Option NodeId} (hprev : ∀ m, prev = some m → t.has m = true)
    (hnext : ∀ m, next = some m → t.has m = true) : t.join? prev next = some (t.join prev next) := by
  cases prev <;> cases next <;> simp_all [join?, join, modify?_eq]

theorem WellFormed.unlink?_eq (h : t.WellFormed) (hn : t.has n = true) : t.unlink? n = some (t.detach n) := by
  obtain ⟨node, hnode⟩ := has_iff_get?.1 hn
  simp only [unlink?, Tree.detach, hnode, Option.bind_eq_bind, Option.bind_some]
  cases hparent : node.parent with
  | none => rfl
  | some parent =>
    have hp : t.has parent = true := h.parent_has n parent (by rw [Tree.parent, hnode]; exact hparent)
    have hprev : ∀ m, node.prev = some m → t.has m = true := fun m hm =>
      h.prev_has n m (by rw [Tree.prev, hnode]; exact hm)
    have hnext : ∀ m, node.next = some m → t.has m = true := fun m hm =>
      h.next_has n m (by rw [Tree.next, hnode]; exact hm)
    simp only [modify?_eq, hn, hp, has_modify, Option.bind_some]
    exact join?_eq (by simpa using hprev) (by simpa using hnext)

/-- In a well-formed tree no number fails when a node is put under another. -/
theorem WellFormed.link?_eq (h : t.WellFormed) (hp : t.has p = true) (hc : t.has c = true) :
    t.link? p c = some (t.attach p c) := by
  have hsame : ∀ m, (t.detach c).has m = t.has m := fun m => by rw [has, has, size_detach]
  have hwf := h.detach c
  rw [← hsame] at hp hc
  rw [link?, Tree.attach, h.unlink?_eq (hsame c ▸ hc), Option.bind_eq_bind, Option.bind_some]
  -- from here on only the links of the tree without the child matter
  generalize t.detach c = t at hp hc hwf
  obtain ⟨node, hnode⟩ := has_iff_get?.1 hp
  have hchildren : t.children p = node.children := by rw [children_eq, hnode]; rfl
  rw [hnode, hchildren]
  simp only [modify?_eq, hp, hc, has_modify, Option.bind_eq_bind, Option.bind_some]
  cases hlast : node.children.getLast? with
  | none => rfl
  | some prev =>
    have hprev : t.has prev = true := hwf.child_has p prev (hchildren ▸ List.mem_of_getLast? hlast)
    simp only [modify?_eq, hprev, hc, has_modify, Option.bind_some]

end Tree

/-! ## Building -/

namespace Builder

/-- `addUnder` for a node that must be there. -/
def addUnder? (b : Builder) (parent : NodeId) (kind : NodeKind) (location : Option Location) : Option Builder := do
  let t ← (b.tree.alloc kind location).link? parent b.tree.size
  return { b with tree := t }

def add? (b : Builder) (kind : NodeKind) (location : Option Location) : Option Builder :=
  b.addUnder? b.current kind location

def addText? (b : Builder) (data : String) (location : Option Location) : Option Builder :=
  if data.isEmpty then some b
  else
    match (b.tree.children b.current).getLast? with
    | none => b.add? (.text data) location
    | some last =>
      match b.tree.text? last with
      | some before => some { b with tree := b.tree.setKind last (.text (before ++ data)) }
      | none => b.add? (.text data) location

/-- The insertion point outside of the innermost element with a tag, from `n?` on over its parents; `current` where
there is none. -/
def outside? (t : Tree) (tag : String) (current : NodeId) : Nat → Option NodeId → Option NodeId
  | 0, _ => none
  | rounds + 1, n? =>
    match n?.filter (· ≠ Tree.root) with
    | none => some current
    | some n =>
      if t.tag? n = some tag then some ((t.parent n).getD Tree.root) else outside? t tag current rounds (t.parent n)

/-- `close` by a loop over the parents, which may go round once for each node. -/
def close? (b : Builder) (tag : String) : Option Builder := do
  let n ← outside? b.tree tag b.current b.tree.size (some b.current)
  return { b with current := n }

def addElement? (b : Builder) (e : Element) (model : ContentModel) (content : Option String)
    (location : Option Location) : Option Builder := do
  let n := b.tree.size
  let b ← b.add? (.element e) location
  let b ← match content with
    | some data => if data.isEmpty then some b else b.addUnder? n (.text data) none
    | none => some b
  return if model = .normal then { b with current := n } else b

variable {b : Builder} {s outer : Spine} {e : Element}

theorem Holds.has_current (h : b.Holds s) : b.tree.has b.current = true :=
  Tree.has_of_kind? (h.current ▸ h.at_point.kind?)

theorem Holds.current_ne_root {inner : List Branch} (h : b.Holds (.inside outer e inner)) : b.current ≠ Tree.root := by
  rw [h.current]
  exact Nat.ne_of_gt (Nat.zero_lt_of_lt outer.depth_lt_size)

theorem Holds.addUnder?_eq (h : b.Holds s) {p : NodeId} (hp : b.tree.has p = true) (kind : NodeKind)
    (location : Option Location) : b.addUnder? p kind location = some (b.addUnder p kind location) := by
  have hsize := Tree.size_alloc b.tree kind location
  rw [addUnder?, (h.wellFormed.alloc kind location).link?_eq]
  · rfl
  · exact Tree.has_iff.2 (hsize ▸ Nat.lt_succ_of_lt (Tree.has_iff.1 hp))
  · exact Tree.has_iff.2 (hsize ▸ Nat.lt_succ_self _)

theorem Holds.add?_eq (h : b.Holds s) (kind : NodeKind) (location : Option Location) :
    b.add? kind location = some (b.add kind location) := h.addUnder?_eq h.has_current kind location

theorem Holds.addText?_eq (h : b.Holds s) (data : String) (location : Option Location) :
    b.addText? data location = some (b.addText data location) := by
  rw [addText?, Builder.addText]
  split
  · rfl
  · cases (b.tree.children b.current).getLast? with
    | none => exact h.add?_eq _ _
    | some last =>
      dsimp only
      cases b.tree.text? last with
      | none => exact h.add?_eq _ _
      | some before => rfl

theorem outside?_of_ne {t : Tree} {n : NodeId} (hn : n ≠ Tree.root) (tag : String) (current : NodeId) (rounds : Nat) :
    outside? t tag current (rounds + 1) (some n) =
      if t.tag? n = some tag then some ((t.parent n).getD Tree.root)
      else outside? t tag current rounds (t.parent n) := by
  rw [outside?, Option.filter_some, if_pos (decide_eq_true hn)]

/-- The loop over the parents leaves the spine where the innermost open element with the tag is left. It goes round
once for each open element, and once more. -/
theorem Holds.outside?_eq (h : b.Holds s) (tag : String) (current : NodeId) {rounds : Nat}
    (hrounds : s.depth < rounds) :
    outside? b.tree tag current rounds (some b.current) = some (((s.close? tag).map Spine.point).getD current) := by
  obtain _ | rounds := rounds
  · exact absurd hrounds (Nat.not_lt_zero _)
  fun_induction Spine.close? tag s generalizing b rounds with
  | case1 done =>
    rw [outside?, h.current]
    rfl
  | case2 outer e inner htag =>
    have hfound : b.tree.tag? b.current = some tag := by
      rw [h.current, h.tag?]
      exact congrArg some (beq_iff_eq.1 htag)
    rw [outside?_of_ne h.current_ne_root, if_pos hfound, h.parent]
    simp [Spine.leave]
  | case3 outer e inner htag ih =>
    have hskip : b.tree.tag? b.current ≠ some tag := by
      rw [h.current, h.tag?]
      exact fun heq => htag (beq_iff_eq.2 (Option.some.inj heq))
    obtain _ | rounds := rounds
    · exact absurd (Nat.lt_of_succ_lt_succ hrounds) (Nat.not_lt_zero _)
    rw [outside?_of_ne h.current_ne_root, if_neg hskip, h.parent]
    exact ih h.leave rounds (by simpa [Spine.depth] using hrounds)

theorem Holds.close?_eq (h : b.Holds s) (tag : String) : b.close? tag = some (b.close tag) := by
  have htree : (b.close tag).tree = b.tree := by
    unfold Builder.close
    split <;> rfl
  have hcurrent : ((s.close? tag).map Spine.point).getD b.current = (b.close tag).current := by
    rw [(h.close tag).current, h.current]
    cases s.close? tag <;> rfl
  rw [close?, h.outside?_eq tag b.current (h.size_eq ▸ s.depth_lt_size), hcurrent, ← htree]
  rfl

theorem Holds.addElement?_eq (h : b.Holds s) (e : Element) (model : ContentModel) (content : Option String)
    (location : Option Location) :
    b.addElement? e model content location = some (b.addElement e model content location) := by
  have hadd := h.add (.element e) location
  -- content goes under the element that was added last, whether the insertion point is there or not
  have hhas : (b.add (.element e) location).tree.has b.tree.size = true := by
    rw [h.size_eq]
    exact hadd.enter.has_current
  unfold addElement? Builder.addElement
  rw [h.add?_eq]
  cases content with
  | none => rfl
  | some data =>
    dsimp only [Option.bind_eq_bind, Option.bind_some]
    split
    · rfl
    · rw [hadd.addUnder?_eq hhas]
      rfl

theorem Holds.take (h : b.Holds s) (o : ParseOptions) (token : Token) (place : Location) (scanner : Scanner) :
    ∃ s', (b.take o token place scanner).1.Holds s' := by
  rw [take_eq]
  exact ⟨_, h.step o _⟩

end Builder

/-! ## Whole runs -/

namespace Bytewise

def content? (model : ContentModel) (tag : String) : Reading (Option String) := do
  match model with
  | .rawText => return some (← rawText tag false)
  | .rcdata => return some (← rawText tag true)
  | .normal => return none
  | .void => return none

def take (o : ParseOptions) (b : Builder) (token : Token) (place : Location) : Reading Builder := do
  match token with
  | .text data => b.addText? data (o.note place)
  | .comment data => b.add? (.comment data) (o.note place)
  | .doctype data => b.add? (.doctype data) (o.note place)
  | .endTag tag => b.close? tag
  | .startTag tag attributes selfClosing =>
    let b := if o.xml then b else b.closeFor tag
    let model := Rules.contentModel tag selfClosing o.xml
    let content ← content? model tag
    let e := Element.ofAttributes tag attributes
    if Builder.keeps o e (content.getD "") then b.addElement? e model content (o.note place)
    else return b

/-- Takes all tokens. -/
def run (o : ParseOptions) (b : Builder) : Nat → Reading Builder
  | 0 => failure
  | rounds + 1 => do
    match ← next o.folding with
    | some (token, place) => run o (← take o b token place) rounds
    | none => return b

/-- The tree of a text, if no slice, no number of a node and no loop fails. -/
def parse? (html : String) (o : ParseOptions) : Option Tree := do
  let (b, _) ← bounded (run o .empty) (.ofString html)
  return b.tree

open Builder

variable {b : Builder} {s : Spine} {fold : Folding} {pre cs : List Char}

theorem follows_content? (fold : Folding) (model : ContentModel) (tag : String) (pre cs : List Char) :
    Follows (content? model tag) fold pre cs ((scannerAt fold pre cs).content? model tag) := by
  cases model with
  | rawText => exact (follows_rawText fold tag false pre cs).map some
  | rcdata => exact (follows_rawText fold tag true pre cs).map some
  | normal => exact .pure fold pre cs none
  | void => exact .pure fold pre cs none

theorem Follows.lift {α : Type} {x : Option α} {a : α} (h : x = some a) (fold : Folding) (pre cs : List Char) :
    Follows x fold pre cs (a, scannerAt fold pre cs) :=
  h ▸ .pure fold pre cs a

/-- A token is taken without a number that fails. -/
theorem follows_take (h : b.Holds s) (o : ParseOptions) (token : Token) (place : Location) (pre cs : List Char) :
    Follows (take o b token place) o.folding pre cs (b.take o token place (scannerAt o.folding pre cs)) := by
  cases token with
  | text data => exact .lift (h.addText?_eq _ _) ..
  | comment data => exact .lift (h.add?_eq _ _) ..
  | doctype data => exact .lift (h.add?_eq _ _) ..
  | endTag tag => exact .lift (h.close?_eq _) ..
  | startTag tag attributes selfClosing =>
    refine (follows_content? ..).bind fun mid cs' _ hs => ?_
    have hfor : ∃ s', (if o.xml then b else b.closeFor tag).Holds s' := by
      split
      · exact ⟨s, h⟩
      · exact ⟨_, h.closeFor tag⟩
    obtain ⟨s', hfor⟩ := hfor
    rw [Builder.take]
    dsimp only
    generalize (scannerAt o.folding pre cs).content? (Rules.contentModel tag selfClosing o.xml) tag = read at hs ⊢
    obtain ⟨content, behindContent⟩ := read
    obtain rfl : behindContent = _ := hs
    dsimp only
    split
    · exact .lift (hfor.addElement?_eq ..) ..
    · exact .pure ..

/-- All tokens are taken without a failure, up to the end of the text. -/
theorem follows_run (h : b.Holds s) (o : ParseOptions) {rounds : Nat} (hrounds : cs.length ≤ rounds) :
    Follows (run o b (rounds + 1)) o.folding pre cs
      (Builder.run o b (scannerAt o.folding pre cs), scannerAt o.folding (pre ++ cs) []) := by
  generalize hscanner : scannerAt o.folding pre cs = scanner
  fun_induction Builder.run o b scanner generalizing pre cs s rounds with
  | case1 b scanner scanner' hnext =>
    subst hscanner
    have hread := follows_next o.folding pre cs
    rw [hnext] at hread
    refine hread.bind fun mid cs' hcs hs => ?_
    obtain rfl : cs' = [] := by
      have := Scanner.rest_of_next_none hnext
      rwa [show scanner' = _ from hs] at this
    rw [hcs, List.append_nil]
    exact .pure ..
  | case2 b scanner token place scanner' hnext ih =>
    subst hscanner
    have hread := follows_next o.folding pre cs
    rw [hnext] at hread
    refine hread.bind fun mid cs' hcs hs => ?_
    obtain rfl : scanner' = scannerAt o.folding (pre ++ mid) cs' := hs
    have hshorter := Nat.lt_of_lt_of_le (Scanner.next_shorter hnext) hrounds
    obtain _ | rounds := rounds
    · exact absurd hshorter (Nat.not_lt_zero _)
    refine (follows_take h o token place (pre ++ mid) cs').bind fun mid' cs'' hcs' hs' => ?_
    -- what the token built is at a spine again, and less is unread than there are rounds left
    obtain ⟨s', hholds⟩ := h.take o token place (scannerAt o.folding (pre ++ mid) cs')
    have hend : pre ++ cs = pre ++ mid ++ mid' ++ cs'' := by
      rw [hcs, hcs', List.append_assoc, List.append_assoc]
    have hlength : cs''.length ≤ cs'.length := by
      rw [hcs', List.length_append]
      exact Nat.le_add_left ..
    rw [hend]
    exact ih hholds (Nat.le_trans hlength (Nat.le_of_lt_succ hshorter)) hs'.symm

/-- The tree of a text is found without a slice, a number or a loop that fails. -/
theorem parse?_eq (html : String) (o : ParseOptions) : parse? html o = some (Tree.parse html o) := by
  obtain ⟨mid, cs, -, -, hrun⟩ := Follows.bounded fun _ => @follows_run _ _ [] html.toList Builder.holds_empty o _
  change (bounded (run o .empty) (.ofString html)).bind _ = _
  rw [show bounded (run o .empty) (.ofString html) = some (_, behind ([] ++ mid) cs) from hrun]
  rfl

end Bytewise

/-- **Parsing is total and linear.** On any text, whatever a scanner was asked for and whatever it is asked for next,
it answers without a slice past the end of the text or inside a character and without a loop that goes round more often
than the text has characters; the answer moves it on, never past the end, by a byte at least for a token, and to the
end where there is no token any more. The builder on top of it takes all tokens without a number that names no node,
and its tree has at most one node for each byte, besides the document. -/
theorem Tree.parse_total (html : String) (o : ParseOptions) :
    (∀ (fold : Folding) (qs : List Scanner.Request), ∃ as s r,
      (Scanner.ofString html fold).answers qs = (as, s) ∧
      Bytewise.answers fold qs (.ofString html) = some (as, r) ∧ r.place = s.cursor.location ∧
      ∀ q, ∃ found s' r', s.answer q = (found, s') ∧
        Bytewise.answer fold q r = some (found, r') ∧ r'.place = s'.cursor.location ∧
        Bytewise.Moved html.utf8ByteSize s.offset found s'.offset) ∧
    Bytewise.parse? html o = some (parse html o) ∧ (parse html o).size ≤ html.utf8ByteSize + 1 :=
  ⟨Bytewise.exists_answers html, Bytewise.parse?_eq html o,
    Nat.le_trans (size_parse_le html o) (Nat.succ_le_succ (Bytewise.length_le_utf8ByteSize html))⟩

end HtmlQuery
