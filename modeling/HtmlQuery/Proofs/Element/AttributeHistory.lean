import HtmlQuery.Proofs.Tree.WellFormed
import Mathlib.Data.List.Induction

/-!
# Attributes by their history

What the attributes of an element are after edits can be said of the list of edits alone: which value a name was last
given and has kept (`LastSet`), and since which edit it is there (`InsertedAt`). An edit more changes both as
`lastSet_concat_iff` and `insertedAt_concat_iff` say, and the attribute list in the same way (`Attributes.Records`).
An element keeps its `id` and its classes beside the list; each edit keeps them in step with it (`Element.InStep`).
Edits of a tree reach the element at their node and no other (`element?_requestAll`).
-/

namespace HtmlQuery

/-! ## Histories -/

/-- A change of one attribute. -/
inductive AttributeEdit where
  | set (name value : String)
  | erase (name : String)
  deriving DecidableEq

namespace AttributeEdit

/-- The name whose attribute changes. -/
def name : AttributeEdit → String
  | set name _ => name
  | erase name => name

/-- The edits that insert attributes one by one. -/
def inserts (pairs : List (String × String)) : List AttributeEdit := pairs.map fun p => .set p.1 p.2

/-- A name was last given the value, and no edit of the name comes later. -/
def LastSet (edits : List AttributeEdit) (name value : String) : Prop :=
  ∃ before after, edits = before ++ .set name value :: after ∧ ∀ edit ∈ after, edit.name ≠ name

/-- The edit at a place brought the name in, which was not there before, and no later one took it away. -/
def InsertedAt (edits : List AttributeEdit) (name : String) (i : Nat) : Prop :=
  ∃ before value after, edits = before ++ .set name value :: after ∧ before.length = i ∧
    (∀ v, ¬ LastSet before name v) ∧ .erase name ∉ after

variable {edits before after : List AttributeEdit} {edit e : AttributeEdit} {n v : String} {i : Nat}

/-- A member of a list with one more at its end is the last one, or it comes before. -/
theorem concat_eq_split : edits ++ [edit] = before ++ e :: after ↔
    (edits = before ∧ edit = e ∧ after = []) ∨ ∃ rest, after = rest ++ [edit] ∧ edits = before ++ e :: rest := by
  constructor
  · intro h
    rcases List.eq_nil_or_concat after with rfl | ⟨rest, last, rfl⟩
    · obtain ⟨hedits, hlast⟩ := List.append_inj' h rfl
      exact .inl ⟨hedits, List.head_eq_of_cons_eq hlast, rfl⟩
    · rw [List.concat_eq_append, ← List.cons_append, ← List.append_assoc] at h
      obtain ⟨hedits, hlast⟩ := List.append_inj' h rfl
      obtain rfl := List.head_eq_of_cons_eq hlast
      exact .inr ⟨rest, List.concat_eq_append, hedits⟩
  · rintro (⟨rfl, rfl, rfl⟩ | ⟨rest, rfl, rfl⟩)
    · rfl
    · simp

/-- The last edit decides what its name has, and leaves the other names alone. -/
theorem lastSet_concat_iff : LastSet (edits ++ [edit]) n v ↔
    if edit.name = n then edit = .set n v else LastSet edits n v := by
  constructor
  · rintro ⟨before, after, hsplit, hlater⟩
    rcases concat_eq_split.1 hsplit with ⟨-, rfl, -⟩ | ⟨rest, rfl, rfl⟩
    · exact (if_pos rfl).mpr rfl
    · rw [if_neg (hlater edit (by simp))]
      exact ⟨before, rest, rfl, fun e he => hlater e (List.mem_append_left _ he)⟩
  · split
    · rintro rfl
      exact ⟨edits, [], rfl, by simp⟩
    · rename_i hname
      rintro ⟨before, after, rfl, hlater⟩
      refine ⟨before, after ++ [edit], by simp, fun e he => ?_⟩
      rcases List.mem_append.1 he with he | he
      · exact hlater e he
      · rw [List.mem_singleton.1 he]
        exact hname

theorem not_lastSet_nil : ¬ LastSet [] n v := by
  rintro ⟨before, after, h, -⟩
  simp at h

/-- An edit more takes a name away, or brings it in at the end, or leaves it at its place. -/
theorem insertedAt_concat_iff : InsertedAt (edits ++ [edit]) n i ↔
    (InsertedAt edits n i ∧ edit ≠ .erase n) ∨
      (i = edits.length ∧ (∃ v, edit = .set n v) ∧ ∀ v, ¬ LastSet edits n v) := by
  constructor
  · rintro ⟨before, value, after, hsplit, rfl, hnew, hkept⟩
    rcases concat_eq_split.1 hsplit with ⟨rfl, rfl, -⟩ | ⟨rest, rfl, rfl⟩
    · exact .inr ⟨rfl, ⟨value, rfl⟩, hnew⟩
    · rw [List.mem_append, not_or] at hkept
      exact .inl ⟨⟨before, value, rest, rfl, rfl, hnew, hkept.1⟩, by simpa [eq_comm] using hkept.2⟩
  · rintro (⟨⟨before, value, after, rfl, rfl, hnew, hkept⟩, hedit⟩ | ⟨rfl, ⟨value, rfl⟩, hnew⟩)
    · exact ⟨before, value, after ++ [edit], by simp, rfl, hnew, by simp [hkept, hedit.symm]⟩
    · exact ⟨edits, value, [], rfl, rfl, hnew, by simp⟩

theorem InsertedAt.lt_length (h : InsertedAt edits n i) : i < edits.length := by
  obtain ⟨before, value, after, rfl, rfl, -⟩ := h
  simp

/-- A name is there if and only if some edit brought it in. -/
theorem exists_lastSet_iff : (∃ v, LastSet edits n v) ↔ ∃ i, InsertedAt edits n i := by
  induction edits using List.reverseRecOn with
  | nil => exact iff_of_false (fun ⟨_, h⟩ => not_lastSet_nil h) fun ⟨_, h⟩ => by simpa using h.lt_length
  | append_singleton edits edit ih =>
    simp only [lastSet_concat_iff, insertedAt_concat_iff]
    cases edit with
    | set name value =>
      by_cases hname : name = n
      · subst hname
        simp only [AttributeEdit.name, if_true]
        refine iff_of_true ⟨value, rfl⟩ ?_
        by_cases hthere : ∃ v, LastSet edits name v
        · obtain ⟨i, hi⟩ := ih.1 hthere
          exact ⟨i, .inl ⟨hi, nofun⟩⟩
        · exact ⟨edits.length, .inr ⟨rfl, ⟨value, rfl⟩, not_exists.1 hthere⟩⟩
      · simp [AttributeEdit.name, hname, ih]
    | erase name =>
      by_cases hname : name = n
      · simp [AttributeEdit.name, hname]
      · simp [AttributeEdit.name, hname, ih]

/-- A name that was there before an edit keeps its place. -/
theorem InsertedAt.of_concat (hthere : ∃ v, LastSet edits n v) (h : InsertedAt (edits ++ [edit]) n i) :
    InsertedAt edits n i := by
  rcases insertedAt_concat_iff.1 h with ⟨h, -⟩ | ⟨-, -, hnew⟩
  · exact h
  · obtain ⟨v, hv⟩ := hthere
    exact absurd hv (hnew v)

end AttributeEdit

/-! ## Attribute lists -/

namespace Attributes

open AttributeEdit

/-- An attribute list is what a history of edits says. -/
structure Records (as : Attributes) (edits : List AttributeEdit) : Prop where
  /-- No name comes twice. -/
  nodup : as.names.Nodup
  /-- A name has the value it was last given and has kept. -/
  value_iff : ∀ name v, as.get? name = some v ↔ LastSet edits name v
  /-- A name that is there was brought in at some place, -/
  placed : ∀ name ∈ as.names, ∃ i, InsertedAt edits name i
  /-- and the names stand in the order of these places. -/
  order : as.names.Pairwise fun a b => ∀ i j, InsertedAt edits a i → InsertedAt edits b j → i < j

variable {as : Attributes} {edits : List AttributeEdit} {edit : AttributeEdit} {name : String}

theorem Records.of_order (hnodup : as.names.Nodup) (hvalue : ∀ name v, as.get? name = some v ↔ LastSet edits name v)
    (horder : as.names.Pairwise fun a b => ∀ i j, InsertedAt edits a i → InsertedAt edits b j → i < j) :
    as.Records edits where
  nodup := hnodup
  value_iff := hvalue
  placed name hname := exists_lastSet_iff.1 (by simpa only [mem_names_iff, hvalue] using hname)
  order := horder

theorem Records.mem_names_iff (h : as.Records edits) : name ∈ as.names ↔ ∃ v, LastSet edits name v := by
  rw [Attributes.mem_names_iff]
  exact exists_congr fun v => h.value_iff name v

/-- Names that were there before an edit stay in their order. -/
theorem Records.order_concat (h : as.Records edits) (edit : AttributeEdit) : as.names.Pairwise fun a b =>
    ∀ i j, InsertedAt (edits ++ [edit]) a i → InsertedAt (edits ++ [edit]) b j → i < j :=
  h.order.imp_of_mem fun ha hb hab i j hi hj =>
    hab i j (hi.of_concat (h.mem_names_iff.1 ha)) (hj.of_concat (h.mem_names_iff.1 hb))

theorem records_empty : empty.Records [] :=
  .of_order .nil (fun name v => iff_of_false (by simp) not_lastSet_nil) .nil

theorem Records.set (h : as.Records edits) (name value : String) :
    (as.set name value).Records (edits ++ [.set name value]) := by
  have hvalue : ∀ other v, (as.set name value).get? other = some v ↔ LastSet (edits ++ [.set name value]) other v := by
    intro other v
    rw [lastSet_concat_iff]
    by_cases hname : name = other
    · subst hname
      rw [get?_set_self]
      simp [AttributeEdit.name]
    · rw [get?_set_of_ne as value hname, h.value_iff]
      simp [AttributeEdit.name, hname]
  by_cases hthere : name ∈ as.names
  · have hnames : (as.set name value).names = as.names := by rw [names_set, if_pos hthere]
    refine .of_order ?_ hvalue ?_
    · rw [hnames]
      exact h.nodup
    · rw [hnames]
      exact h.order_concat _
  · have hnames : (as.set name value).names = as.names ++ [name] := by rw [names_set, if_neg hthere]
    refine .of_order ?_ hvalue ?_
    · rw [hnames]
      refine List.nodup_append.2 ⟨h.nodup, List.pairwise_singleton .., fun a ha b hb => ?_⟩
      rw [List.mem_singleton.1 hb]
      exact ne_of_mem_of_not_mem ha hthere
    · rw [hnames, List.pairwise_append]
      refine ⟨h.order_concat _, List.pairwise_singleton .., fun a ha b hb i j hi hj => ?_⟩
      rw [List.mem_singleton.1 hb] at hj
      have hi := (hi.of_concat (h.mem_names_iff.1 ha)).lt_length
      -- the new name was not there before, so its place is that of the last edit
      rcases insertedAt_concat_iff.1 hj with ⟨hj, -⟩ | ⟨rfl, -⟩
      · exact absurd (h.mem_names_iff.2 (exists_lastSet_iff.2 ⟨j, hj⟩)) hthere
      · exact hi

theorem Records.erase (h : as.Records edits) (name : String) :
    (as.erase name).Records (edits ++ [.erase name]) := by
  have hsub : (as.names.erase name).Sublist as.names := List.erase_sublist
  refine .of_order ?_ (fun other v => ?_) ?_
  · rw [names_erase]
    exact h.nodup.sublist hsub
  · rw [lastSet_concat_iff]
    by_cases hname : name = other
    · subst hname
      rw [get?_erase_self h.nodup]
      simp [AttributeEdit.name]
    · rw [get?_erase_of_ne as hname, h.value_iff]
      simp [AttributeEdit.name, hname]
  · rw [names_erase]
    exact (h.order_concat _).sublist hsub

/-- Inserting pairs one by one is recorded as so many edits. -/
theorem records_ofList (pairs : List (String × String)) : (ofList pairs).Records (inserts pairs) := by
  have hfold : ∀ (as : Attributes) (edits : List AttributeEdit), as.Records edits →
      (pairs.foldl (fun as p => as.set p.1 p.2) as).Records (edits ++ inserts pairs) := by
    induction pairs with
    | nil =>
      intro as edits h
      simpa [inserts] using h
    | cons p pairs ih =>
      intro as edits h
      have hp := ih _ _ (h.set p.1 p.2)
      rwa [List.append_assoc] at hp
  exact hfold empty [] records_empty

end Attributes

/-! ## Class tokens -/

namespace Text

/-- The text has the word as one of the pieces between its ASCII blanks. -/
def HasWord (text word : String) : Prop := word ≠ "" ∧ word.toList ∈ text.toList.splitOnP isAsciiWhitespace

theorem modifyHead_nil_append (pieces : List (List Char)) :
    pieces.modifyHead (([] : List Char).reverse ++ ·) = pieces := by
  cases pieces <;> rfl

/-- The words are the pieces that are not empty; the first one goes on with the token read so far. -/
theorem words_go_eq (token cs : List Char) : words.go token cs =
    ((cs.splitOnP isAsciiWhitespace).modifyHead (token.reverse ++ ·)).filter (!·.isEmpty) := by
  induction cs generalizing token with
  | nil =>
    rw [words.go, List.splitOnP_nil]
    cases token <;> simp
  | cons c cs ih =>
    rw [words.go, List.splitOnP_cons_eq_if_modifyHead]
    by_cases hc : isAsciiWhitespace c = true
    · rw [if_pos hc, if_pos hc, ih [], modifyHead_nil_append]
      cases token <;> simp
    · rw [if_neg hc, if_neg hc, ih (c :: token), List.modifyHead_modifyHead]
      simp [Function.comp_def]

theorem mem_words_iff {text word : String} : word ∈ words text ↔ HasWord text word := by
  rw [words, words_go_eq, modifyHead_nil_append, HasWord, List.mem_map]
  constructor
  · rintro ⟨piece, hpiece, rfl⟩
    obtain ⟨hmem, hne⟩ := List.mem_filter.1 hpiece
    rw [String.toList_ofList]
    exact ⟨by simpa [String.ofList_eq_empty_iff] using hne, hmem⟩
  · rintro ⟨hne, hmem⟩
    refine ⟨word.toList, List.mem_filter.2 ⟨hmem, ?_⟩, String.ofList_toList⟩
    simpa using hne

end Text

/-! ## Elements -/

namespace Element

open AttributeEdit

variable {e : Element} {edits : List AttributeEdit}

theorem get?_set (e : Element) (name value other : String) :
    (e.set name value).get? other = if name = other then some value else e.get? other := by
  split
  · rename_i hname
    subst hname
    exact Attributes.get?_set_self ..
  · rename_i hname
    exact Attributes.get?_set_of_ne e.attributes value hname

theorem get?_erase (h : e.attributes.names.Nodup) (name other : String) :
    (e.erase name).get? other = if name = other then none else e.get? other := by
  split
  · rename_i hname
    subst hname
    exact Attributes.get?_erase_self h name
  · rename_i hname
    exact Attributes.get?_erase_of_ne e.attributes hname

theorem InStep.set (h : e.InStep) (name value : String) : (e.set name value).InStep := by
  obtain ⟨hid, hclasses⟩ := inStep_iff.1 h
  refine inStep_iff.2 ⟨?_, ?_⟩
  · rw [get?_set, ← hid]
    simp [Element.set]
  · rw [get?_set, apply_ite (fun v => (Option.map classesOf v).getD []), ← hclasses]
    simp [Element.set]

theorem InStep.erase (h : e.InStep) (hnodup : e.attributes.names.Nodup) (name : String) :
    (e.erase name).InStep := by
  obtain ⟨hid, hclasses⟩ := inStep_iff.1 h
  refine inStep_iff.2 ⟨?_, ?_⟩
  · rw [get?_erase hnodup, ← hid]
    simp [Element.erase]
  · rw [get?_erase hnodup, apply_ite (fun v => (Option.map classesOf v).getD []), ← hclasses]
    simp [Element.erase]

/-- An element is what a history of edits says: its attributes are, and its `id` and classes are theirs. -/
structure Records (e : Element) (edits : List AttributeEdit) : Prop extends e.attributes.Records edits where
  id : e.id = e.get? "id"
  /-- The classes are the words of the class attribute, each of them once. -/
  mem_classes_iff : ∀ c, c ∈ e.classes ↔ ∃ value, e.get? "class" = some value ∧ Text.HasWord value c
  nodup_classes : e.classes.Nodup

theorem nodup_eraseDups (words : List String) : words.eraseDups.Nodup := by
  induction hl : words.length using Nat.strongRecOn generalizing words with
  | _ _ ih =>
    subst hl
    cases words with
    | nil => exact .nil
    | cons word words =>
      rw [List.eraseDups_cons, List.nodup_cons]
      have hlen := List.length_filter_le (fun w => !w == word) words
      exact ⟨by simp [List.mem_eraseDups], ih _ (Nat.lt_succ_of_le hlen) _ rfl⟩

theorem mem_classesOf_iff {value c : String} : c ∈ classesOf value ↔ Text.HasWord value c := by
  rw [classesOf, List.mem_eraseDups, Text.mem_words_iff]

theorem InStep.records (h : e.InStep) (hrecords : e.attributes.Records edits) : e.Records edits where
  toRecords := hrecords
  id := (inStep_iff.1 h).1
  mem_classes_iff c := by
    rw [(inStep_iff.1 h).2]
    cases e.get? "class" with
    | none => simp
    | some value => simp [mem_classesOf_iff]
  nodup_classes := by
    rw [(inStep_iff.1 h).2]
    cases e.get? "class" with
    | none => exact .nil
    | some value => exact nodup_eraseDups _

end Element

/-! ## Runs of edits -/

namespace AttributeEdit

/-- Makes an edit of an element. It is answered with the value that the name had before. -/
def run (e : Element) : AttributeEdit → Option String × Element
  | set name value => (e.get? name, e.set name value)
  | erase name => (e.get? name, e.erase name)

/-- Makes edits one after the other. -/
def runAll (e : Element) : List AttributeEdit → List (Option String) × Element
  | [] => ([], e)
  | edit :: edits =>
    let later := runAll (edit.run e).2 edits
    ((edit.run e).1 :: later.1, later.2)

/-- Behind a history, every edit is answered with the value that its name was last given and has kept. -/
inductive Answered : List AttributeEdit → List AttributeEdit → List (Option String) → Prop
  | nil {history : List AttributeEdit} : Answered history [] []
  | cons {history edits : List AttributeEdit} {edit : AttributeEdit} {answer : Option String}
    {answers : List (Option String)} (hanswer : ∀ v, answer = some v ↔ LastSet history edit.name v)
    (hlater : Answered (history ++ [edit]) edits answers) : Answered history (edit :: edits) (answer :: answers)

variable {e : Element} {history : List AttributeEdit}

/-- One edit more is one edit more in the history. -/
theorem records_run (hrecords : e.attributes.Records history) (hstep : e.InStep) (edit : AttributeEdit) :
    (edit.run e).2.attributes.Records (history ++ [edit]) ∧ (edit.run e).2.InStep ∧
      ∀ v, (edit.run e).1 = some v ↔ LastSet history edit.name v := by
  cases edit with
  | set name value => exact ⟨hrecords.set name value, hstep.set name value, hrecords.value_iff name⟩
  | erase name => exact ⟨hrecords.erase name, hstep.erase hrecords.nodup name, hrecords.value_iff name⟩

theorem records_runAll (hrecords : e.attributes.Records history) (hstep : e.InStep) (edits : List AttributeEdit) :
    (runAll e edits).2.Records (history ++ edits) ∧ Answered history edits (runAll e edits).1 := by
  induction edits generalizing e history with
  | nil =>
    rw [List.append_nil]
    exact ⟨hstep.records hrecords, .nil⟩
  | cons edit edits ih =>
    obtain ⟨hrecords', hstep', hanswer⟩ := records_run hrecords hstep edit
    obtain ⟨hlater, hanswers⟩ := ih hrecords' hstep'
    rw [List.append_assoc] at hlater
    exact ⟨hlater, .cons hanswer hanswers⟩

end AttributeEdit

/-! ## Edits of a tree -/

namespace Tree

open AttributeEdit

/-- Makes an edit of the element at a node. -/
def request (t : Tree) (n : NodeId) : AttributeEdit → Edited (Option String)
  | .set name value => t.setAttribute n name value
  | .erase name => t.removeAttribute n name

/-- Makes edits at nodes one after the other. -/
def requestAll (t : Tree) : List (NodeId × AttributeEdit) → List (Except EditError (Option String)) × Tree
  | [] => ([], t)
  | (n, edit) :: requests =>
    let later := (t.request n edit).2.requestAll requests
    ((t.request n edit).1 :: later.1, later.2)

/-- Of what belongs to requests, what belongs to those at a node. -/
def ofNode {α : Type} (n : NodeId) (requests : List (NodeId × AttributeEdit)) (l : List α) : List α :=
  (requests.zip l).filterMap fun p => if p.1.1 = n then some p.2 else none

/-- The edits that are requested at a node. -/
def editsAt (n : NodeId) (requests : List (NodeId × AttributeEdit)) : List AttributeEdit :=
  ofNode n requests (requests.map (·.2))

variable {t : Tree} {m n : NodeId} {e : Element}

theorem ofNode_cons {α : Type} (edit : AttributeEdit) (requests : List (NodeId × AttributeEdit)) (a : α)
    (l : List α) :
    ofNode n ((m, edit) :: requests) (a :: l) = if m = n then a :: ofNode n requests l else ofNode n requests l := by
  unfold ofNode
  rw [List.zip_cons_cons, List.filterMap_cons]
  split <;> simp_all

theorem editsAt_cons (edit : AttributeEdit) (requests : List (NodeId × AttributeEdit)) :
    editsAt n ((m, edit) :: requests) = if m = n then edit :: editsAt n requests else editsAt n requests :=
  ofNode_cons ..

theorem element?_setKind (hn : t.has n = true) (data : Element) (m : NodeId) :
    (t.setKind n (.element data)).element? m = if n = m then some data else t.element? m := by
  rw [element?, kind?_setKind hn, element?]
  split <;> rfl

theorem editElement_of_element? {α : Type} (h : t.element? n = some e) (ask : Element → α)
    (change : Element → Element) :
    t.editElement n ask change = (.ok (ask e), t.setKind n (.element (change e))) := by
  rw [editElement, kind?_of_element? h]

/-- An edit of an element makes the change there. -/
theorem request_of_element? (h : t.element? n = some e) (edit : AttributeEdit) :
    (t.request n edit).1 = .ok (edit.run e).1 ∧ (t.request n edit).2.element? n = some (edit.run e).2 := by
  have hn := has_of_kind? (kind?_of_element? h)
  cases edit with
  | set name value =>
    rw [request, setAttribute, editElement_of_element? h, element?_setKind hn, if_pos rfl]
    exact ⟨rfl, rfl⟩
  | erase name =>
    rw [request, removeAttribute, editElement_of_element? h, element?_setKind hn, if_pos rfl]
    exact ⟨rfl, rfl⟩

/-- An edit at another node, refused or not, leaves an element alone. -/
theorem editElement_of_ne {α : Type} (hne : m ≠ n) (ask : Element → α) (change : Element → Element) :
    (t.editElement m ask change).2.element? n = t.element? n := by
  unfold editElement
  split
  · rfl
  · rename_i data hkind
    rw [element?_setKind (has_of_kind? hkind), if_neg hne]
  · rfl

theorem request_of_ne (hne : m ≠ n) (edit : AttributeEdit) :
    (t.request m edit).2.element? n = t.element? n := by
  cases edit with
  | set name value => exact editElement_of_ne hne ..
  | erase name => exact editElement_of_ne hne ..

/-- The element at a node goes through the edits at that node, and these are answered as edits of the element. -/
theorem element?_requestAll (h : t.element? n = some e) (requests : List (NodeId × AttributeEdit)) :
    (t.requestAll requests).2.element? n = some (runAll e (editsAt n requests)).2 ∧
      ofNode n requests (t.requestAll requests).1 = (runAll e (editsAt n requests)).1.map .ok := by
  induction requests generalizing t e with
  | nil => exact ⟨h, rfl⟩
  | cons request requests ih =>
    obtain ⟨m, edit⟩ := request
    rw [requestAll, ofNode_cons, editsAt_cons]
    by_cases hm : m = n
    · subst hm
      obtain ⟨hanswer, helement⟩ := request_of_element? h edit
      obtain ⟨hend, hanswers⟩ := ih helement
      rw [if_pos rfl, if_pos rfl, hanswer, hanswers]
      exact ⟨hend, rfl⟩
    · rw [if_neg hm, if_neg hm]
      exact ih ((request_of_ne hm edit).trans h)

end Tree

namespace Element

open AttributeEdit HtmlQuery.Tree

/-- **An element is what the history of its attributes says.** It starts with attributes that are inserted one by one,
and they are set and removed, on the element itself or by edits of the tree that holds it, whatever other nodes these
edits go to. Every edit is answered with what its name had before. -/
theorem records_of_edits (tag : String) (pairs : List (String × String)) :
    (∀ edits, (runAll (.ofAttributes tag (.ofList pairs)) edits).2.Records (inserts pairs ++ edits) ∧
      Answered (inserts pairs) edits (runAll (.ofAttributes tag (.ofList pairs)) edits).1) ∧
    ∀ (t : Tree) (n : NodeId) (requests : List (NodeId × AttributeEdit)),
      t.element? n = some (.ofAttributes tag (.ofList pairs)) →
      ∃ e, (t.requestAll requests).2.element? n = some e ∧ e.Records (inserts pairs ++ editsAt n requests) ∧
        ∃ answers, ofNode n requests (t.requestAll requests).1 = answers.map .ok ∧
          Answered (inserts pairs) (editsAt n requests) answers := by
  have hedits := records_runAll (Attributes.records_ofList pairs) (inStep_ofAttributes tag (.ofList pairs))
  refine ⟨hedits, fun t n requests h => ?_⟩
  obtain ⟨hend, hanswers⟩ := element?_requestAll h requests
  obtain ⟨hrecords, hanswered⟩ := hedits (editsAt n requests)
  exact ⟨_, hend, hrecords, _, hanswers, hanswered⟩

/-- A paragraph whose class comes twice in a list, and a text. -/
def paragraph : Tree :=
  (Tree.empty.alloc (.element (.ofAttributes "p" (.ofList [("class", "a"), ("id", "x"), ("class", "b c")]))) none).alloc
    (.text "x") none

/-- The class is removed and set again, so that it comes behind the `id`; what goes to other nodes is refused. -/
theorem records_of_edits_paragraph :
    paragraph.element? 1 = some (.ofAttributes "p" (.ofList [("class", "a"), ("id", "x"), ("class", "b c")])) ∧
    ∃ e, (paragraph.requestAll [(1, .erase "class"), (2, .set "id" "z"), (1, .set "class" "d\td e"),
        (9, .erase "id")]).2.element? 1 = some e ∧
      e.Records [.set "class" "a", .set "id" "x", .set "class" "b c", .erase "class", .set "class" "d\td e"] ∧
      e.attributes.names = ["id", "class"] ∧ e.id = some "x" ∧ e.classes = ["d", "e"] := by
  obtain ⟨e, he, hrecords, -⟩ := (records_of_edits "p" [("class", "a"), ("id", "x"), ("class", "b c")]).2
    paragraph 1 [(1, .erase "class"), (2, .set "id" "z"), (1, .set "class" "d\td e"), (9, .erase "id")] rfl
  refine ⟨rfl, e, he, hrecords, ?_⟩
  obtain rfl := Option.some.inj he
  decide

end Element

end HtmlQuery
