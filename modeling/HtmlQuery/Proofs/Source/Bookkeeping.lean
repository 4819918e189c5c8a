import HtmlQuery.Proofs.Source.Bytewise
import HtmlQuery.Proofs.Tree.Locations

/-!
# The bookkeeping of a cursor

A cursor counts offset, line and column as it goes, and yet they are those of the text that it has read: after any run
of moves it stands at the place that counting from scratch gives, in front of a character or at the end
(`bookkeeping_runAll`). Every move takes some characters (`takes_run`) and reads by byte offsets without a slice that
fails (`reads_run`), so these facts need to be shown of one move only. Searches find the first offset at which the bytes
of a needle stand, and it is in front of a character too (`isFirst_find`, `isFirst_findIgnoringCase`).
-/

namespace HtmlQuery

open Cursor Bytewise

/-- The moves of a cursor. -/
inductive CursorMove where
  /-- Over one character, which is handed back. -/
  | bump
  /-- Over so many characters, or all that are left. -/
  | bumpN (count : Nat)
  /-- Until the offset is the target or more. -/
  | advanceTo (target : Nat)
  | advanceToEnd
  /-- Over the longest run of characters that satisfy `p`, which is handed back. -/
  | takeWhile (p : Char → Bool)
  | skipWhitespace

namespace CursorMove

/-- Makes a move; answers the text that it hands back. -/
def run (c : Cursor) : CursorMove → List Char × Cursor
  | bump => (c.peek.toList, c.bump)
  | bumpN count => ([], c.move count)
  | advanceTo target => ([], c.advanceTo target)
  | advanceToEnd => ([], c.advanceToEnd)
  | takeWhile p => (c.run p, c.skipWhile p)
  | skipWhitespace => ([], c.skipWhitespace)

/-- Makes moves one after the other. -/
def runAll (c : Cursor) : List CursorMove → List (List Char) × Cursor
  | [] => ([], c)
  | m :: ms =>
    let later := runAll (m.run c).2 ms
    ((m.run c).1 :: later.1, later.2)

/-- Makes a move by byte offsets. -/
def read : CursorMove → Reading (List Char)
  | bump => return (← Bytewise.bump).toList
  | bumpN count => do
    Bytewise.bumpN count
    return []
  | advanceTo target => do
    Bytewise.advanceTo target
    return []
  | advanceToEnd => do
    Bytewise.advanceToEnd
    return []
  | takeWhile p => Bytewise.takeWhile p
  | skipWhitespace => do
    Bytewise.skipWhitespace
    return []

/-- Makes moves by byte offsets, one after the other. -/
def readAll : List CursorMove → Reading (List (List Char))
  | [] => return []
  | m :: ms => do
    let answer ← m.read
    let answers ← readAll ms
    return answer :: answers

/-- Whether a move hands back what it takes. -/
def handsBack : CursorMove → Bool
  | bump => true
  | takeWhile _ => true
  | _ => false

/-- What a move takes at the offset `start`, where `rest` is left behind it. -/
def Takes (start : Nat) (taken rest : List Char) : CursorMove → Prop
  | bump => taken.length = 1 ∨ taken = [] ∧ rest = []
  | bumpN count => taken.length = count ∨ taken.length < count ∧ rest = []
  | advanceTo target => (target ≤ start + utf8Length taken ∨ rest = []) ∧
      ∀ less, less <+: taken → less ≠ taken → start + utf8Length less < target
  | advanceToEnd => rest = []
  | takeWhile p => (∀ c ∈ taken, p c = true) ∧ ∀ c ∈ rest.head?, p c = false
  | skipWhitespace => (∀ c ∈ taken, Text.isWhitespace c = true) ∧ ∀ c ∈ rest.head?, Text.isWhitespace c = false

end CursorMove

/-- What a cursor tells about a text of which it has read a part. -/
structure Cursor.Bookkeeping (text : List Char) (c : Cursor) : Prop where
  /-- The text can be cut at the offset, and line and column are those of counting what is in front from scratch. -/
  place : ∃ before, cut? c.offset text = some (before, c.rest) ∧ c.location = .behind before
  /-- A move does not go back. The text between the offsets before and after it is what it takes and hands back. -/
  moves : ∀ m : CursorMove, c.offset ≤ (m.run c).2.offset ∧
    ∃ taken, slice? c.offset (m.run c).2.offset text = some taken ∧
      m.Takes c.offset taken (m.run c).2.rest ∧ (m.run c).1 = if m.handsBack then taken else []
  /-- A search finds the first offset from here on at which the bytes of the needle stand. -/
  find : ∀ needle : String,
    IsFirst (fun k => encode needle.toList <+: (encode text).drop k) c.offset (c.find needle)
  /-- So does a search that ignores the case of ASCII letters. -/
  findIgnoringCase : ∀ needle : String,
    IsFirst (fun k => startsBytes (encode needle.toList) ((encode text).drop k) = true) c.offset
      (c.findIgnoringCase needle)
  /-- The text can be cut at what is found. -/
  found : ∀ (needle : String) (k : Nat), c.find needle = some k ∨ c.findIgnoringCase needle = some k →
    (cut? k text).isSome = true

variable {text pre cs : List Char} {c : Cursor}

/-! ## One move -/

namespace CursorMove

/-- How many characters a move goes over. -/
def count (c : Cursor) : CursorMove → Nat
  | bump => 1
  | bumpN count => count
  | advanceTo target => countBefore target c.offset c.rest
  | advanceToEnd => c.rest.length
  | takeWhile p => (c.run p).length
  | skipWhitespace => (c.run Text.isWhitespace).length

theorem run_snd (c : Cursor) (m : CursorMove) : (m.run c).2 = c.move (m.count c) := by
  cases m <;> rfl

/-- The characters that start in front of a target: no fewer would reach it. -/
theorem takes_countBefore (target start : Nat) (cs : List Char) :
    Takes start (cs.take (countBefore target start cs)) (cs.drop (countBefore target start cs)) (advanceTo target) := by
  induction cs generalizing start with
  | nil =>
    refine ⟨.inr rfl, fun less hless hne => ?_⟩
    rw [List.take_nil] at hless hne
    exact absurd (List.prefix_nil.1 hless) hne
  | cons c cs ih =>
    rw [countBefore]
    split
    · rename_i hlt
      obtain ⟨hreach, hless⟩ := ih (start + c.utf8Size)
      rw [List.take_succ_cons, List.drop_succ_cons]
      refine ⟨by rwa [utf8Length_cons, ← Nat.add_assoc], fun less hprefix hne => ?_⟩
      cases less with
      | nil => exact hlt
      | cons d less =>
        obtain ⟨rfl, hprefix⟩ := List.cons_prefix_cons.1 hprefix
        rw [utf8Length_cons, ← Nat.add_assoc]
        exact hless less hprefix fun heq => hne (by rw [heq])
    · rename_i hge
      refine ⟨.inl (Nat.le_add_right_of_le (Nat.not_lt.1 hge)), fun less hprefix hne => ?_⟩
      exact absurd (List.prefix_nil.1 hprefix) hne

/-- The longest run of characters that satisfy `p` is what is taken by its length. -/
theorem take_drop_takeWhile (p : Char → Bool) (cs : List Char) :
    cs.take (cs.takeWhile p).length = cs.takeWhile p ∧ cs.drop (cs.takeWhile p).length = cs.dropWhile p := by
  have htake : cs.take (cs.takeWhile p).length = cs.takeWhile p :=
    (List.prefix_iff_eq_take.1 (List.takeWhile_prefix p)).symm
  have hsplit : cs.takeWhile p ++ cs.drop (cs.takeWhile p).length = cs.takeWhile p ++ cs.dropWhile p := by
    rw [List.takeWhile_append_dropWhile]
    nth_rewrite 1 [← htake]
    exact List.take_append_drop ..
  exact ⟨htake, List.append_cancel_left hsplit⟩

theorem takes_longest (p : Char → Bool) (cs : List Char) :
    (∀ c ∈ cs.take (cs.takeWhile p).length, p c = true) ∧
      ∀ c ∈ (cs.drop (cs.takeWhile p).length).head?, p c = false := by
  obtain ⟨htake, hdrop⟩ := take_drop_takeWhile p cs
  rw [htake, hdrop]
  refine ⟨fun c hc => Text.of_mem_takeWhile hc, fun c hc => ?_⟩
  have hhead := List.head?_dropWhile_not p cs
  rwa [hc] at hhead

/-- Each move takes what it is to take. -/
theorem takes_run (m : CursorMove) (c : Cursor) :
    m.Takes c.offset (c.rest.take (m.count c)) (m.run c).2.rest := by
  rw [run_snd]
  cases m with
  | bump =>
    show (c.rest.take 1).length = 1 ∨ c.rest.take 1 = [] ∧ c.rest.drop 1 = []
    cases c.rest with
    | nil => exact .inr ⟨rfl, rfl⟩
    | cons d cs => exact .inl rfl
  | bumpN n =>
    show (c.rest.take n).length = n ∨ (c.rest.take n).length < n ∧ c.rest.drop n = []
    rw [List.length_take, List.drop_eq_nil_iff]
    omega
  | advanceTo target => exact takes_countBefore target c.offset c.rest
  | advanceToEnd => exact List.drop_length
  | takeWhile p => exact takes_longest p c.rest
  | skipWhitespace => exact takes_longest Text.isWhitespace c.rest

/-- What a move hands back is what it takes, or nothing. -/
theorem run_fst (m : CursorMove) (c : Cursor) :
    (m.run c).1 = if m.handsBack then c.rest.take (m.count c) else [] := by
  cases m with
  | bump =>
    show c.rest.head?.toList = c.rest.take 1
    cases c.rest <;> rfl
  | takeWhile p => exact (take_drop_takeWhile p c.rest).1.symm
  | bumpN count => rfl
  | advanceTo target => rfl
  | advanceToEnd => rfl
  | skipWhitespace => rfl

theorem at_run (h : At text pre c) (m : CursorMove) : At text (pre ++ c.rest.take (m.count c)) (m.run c).2 := by
  rw [run_snd]
  exact h.move _

/-- By byte offsets a move reads the same, and no slice fails. -/
theorem reads_run (h : At text pre c) (m : CursorMove) : Reads m.read pre c.rest (m.run c).1 (m.run c).2.rest := by
  rw [run_snd]
  cases m with
  | bump => exact reads_bump.bind fun _ _ => .pure ..
  | bumpN count => exact (reads_bumpN count).bind fun _ _ => .pure ..
  | advanceTo target =>
    have hadvance := @reads_advanceTo pre c.rest target
    rw [← h.offset_eq] at hadvance
    exact hadvance.bind fun _ _ => .pure ..
  | advanceToEnd =>
    show Reads _ pre c.rest [] (c.rest.drop c.rest.length)
    rw [List.drop_length]
    exact reads_advanceToEnd.bind fun _ _ => .pure ..
  | takeWhile p =>
    have htake := @reads_takeWhile pre c.rest p
    rwa [← (take_drop_takeWhile p c.rest).2] at htake
  | skipWhitespace =>
    have hskip := @reads_skipWhitespace pre c.rest
    rw [Token.skipBlanks, ← (take_drop_takeWhile Text.isWhitespace c.rest).2] at hskip
    exact hskip.bind fun _ _ => .pure ..

/-! ## Runs of moves -/

theorem at_runAll (h : At text pre c) (ms : List CursorMove) : ∃ pre', At text pre' (runAll c ms).2 := by
  induction ms generalizing pre c with
  | nil => exact ⟨pre, h⟩
  | cons m ms ih => exact ih (at_run h m)

theorem reads_runAll (h : At text pre c) (ms : List CursorMove) :
    Reads (readAll ms) pre c.rest (runAll c ms).1 (runAll c ms).2.rest := by
  induction ms generalizing pre c with
  | nil => exact .pure ..
  | cons m ms ih =>
    refine (reads_run h m).bind fun mid hmid => ?_
    have hat : At text (pre ++ mid) (m.run c).2 := by
      have hrun := at_run h m
      have htaken : c.rest.take (m.count c) = mid := by
        rw [run_snd] at hmid
        exact List.append_cancel_right ((List.take_append_drop ..).trans hmid)
      rwa [htaken] at hrun
    exact (ih hat).bind fun _ _ => .pure ..

end CursorMove

/-! ## Searches -/

theorem Cursor.At.isFirst_findWhere (h : At text pre c) {here : List Char → Bool} {p : List UInt8 → Prop}
    (hsame : ∀ cs, p (encode cs) ↔ here cs = true)
    (hinside : ∀ b bs, ¬ b.IsUTF8FirstByte → p (b :: bs) → ∀ cs, here cs = true) :
    IsFirst (fun k => p ((encode text).drop k)) c.offset (c.findWhere here) ∧
      ∀ k, c.findWhere here = some k → (cut? k text).isSome = true := by
  constructor
  · have hfirst := isFirst_cutBefore hsame hinside c.rest
    have hshift : IsFirst (fun k => p ((encode text).drop k)) (utf8Length pre) _ :=
      hfirst.shift (utf8Length pre) fun k => by
        rw [h.1, encode_append, ← List.drop_drop, List.drop_left' (length_encode pre)]
    rw [Option.map_map] at hshift
    rw [findWhere, h.offset_eq]
    exact hshift
  · intro k hk
    obtain ⟨⟨before, after⟩, hcut, rfl⟩ := Option.map_eq_some_iff.1 hk
    obtain ⟨hrest, -⟩ := Text.cutBefore_eq_some hcut
    have htext : text = (pre ++ before) ++ after := by rw [h.1, hrest, List.append_assoc]
    rw [htext, h.offset_eq, ← utf8Length_append, cut?_append]
    rfl

theorem Cursor.At.isFirst_find (h : At text pre c) (needle : String) :
    IsFirst (fun k => encode needle.toList <+: (encode text).drop k) c.offset (c.find needle) ∧
      ∀ k, c.find needle = some k → (cut? k text).isSome = true := by
  refine h.isFirst_findWhere (p := fun bytes => encode needle.toList <+: bytes) ?_ ?_
  · intro cs
    rw [encode_prefix_iff, List.isPrefixOf_iff_prefix]
  · intro b bs hb hprefix cs
    rw [eq_nil_of_prefix_cons hb hprefix]
    rfl

theorem Cursor.At.isFirst_findIgnoringCase (h : At text pre c) (needle : String) :
    IsFirst (fun k => startsBytes (encode needle.toList) ((encode text).drop k) = true) c.offset
        (c.findIgnoringCase needle) ∧
      ∀ k, c.findIgnoringCase needle = some k → (cut? k text).isSome = true := by
  refine h.isFirst_findWhere (p := fun bytes => startsBytes (encode needle.toList) bytes = true) ?_ ?_
  · intro cs
    rw [startsBytes_encode]
  · intro b bs hb hstarts cs
    rw [eq_nil_of_startsBytes hb hstarts]
    rfl

/-- Searches by byte offsets find what a cursor finds, and move nothing. -/
theorem Cursor.At.find_eq (h : At text pre c) (needle : String) :
    Bytewise.find needle.toList ⟨text, c.location⟩ = some (c.find needle, ⟨text, c.location⟩) ∧
    Bytewise.findIgnoringCase needle.toList ⟨text, c.location⟩ =
      some (c.findIgnoringCase needle, ⟨text, c.location⟩) := by
  have hbehind : Reader.mk text c.location = behind pre c.rest := by rw [behind, ← h.1, h.2]
  have hsame : ∀ {f : Reading (Option Nat)} {found : Option Nat}, Reads f pre c.rest found c.rest →
      f (behind pre c.rest) = some (found, behind pre c.rest) := by
    rintro f found ⟨mid, hmid, hf⟩
    obtain rfl := List.self_eq_append_left.1 hmid
    rwa [List.append_nil] at hf
  have hoffset : ∀ here : List Char → Bool, c.findWhere here =
      (Text.cutBefore here c.rest).map fun parts => utf8Length (pre ++ parts.1) := by
    intro here
    simp only [findWhere, h.offset_eq, utf8Length_append]
  rw [hbehind, Cursor.find, Cursor.findIgnoringCase, hoffset, hoffset]
  exact ⟨hsame (reads_find _), hsame (reads_findIgnoringCase _)⟩

/-! ## Every run -/

theorem Cursor.At.bookkeeping (h : At text pre c) : Bookkeeping text c where
  place := by
    refine ⟨pre, cut?_eq_some_iff.2 ⟨h.1, h.offset_eq.symm⟩, ?_⟩
    rw [h.2, Location.afterAll_start]
  moves m := by
    have hrun := CursorMove.at_run h m
    have hoffset := h.offset_eq
    have hoffset' := hrun.offset_eq
    have htext := hrun.1
    rw [List.append_assoc] at htext
    refine ⟨by rw [hoffset', hoffset, utf8Length_append]; exact Nat.le_add_right .., c.rest.take (m.count c), ?_,
      m.takes_run c, m.run_fst c⟩
    rw [hoffset', hoffset, htext, slice?_append]
  find needle := (h.isFirst_find needle).1
  findIgnoringCase needle := (h.isFirst_findIgnoringCase needle).1
  found needle k hk := hk.elim ((h.isFirst_find needle).2 k) ((h.isFirst_findIgnoringCase needle).2 k)

/-- **A cursor keeps its books.** After any moves over any text it stands in front of a character or at the end, with
the line and the column of what it has read; no move goes back, each takes what it is to take, and what it hands back
is the text between the offsets before and after it; and a search finds the first offset from there on at which the
bytes of the needle stand, in front of a character. Reading by byte offsets does the same, without a slice that
fails. -/
theorem Cursor.bookkeeping_runAll (text : String) (ms : List CursorMove) :
    ∃ answers c, CursorMove.runAll (.ofString text) ms = (answers, c) ∧ c.Bookkeeping text.toList ∧
      (CursorMove.readAll ms).run (.ofString text) = some (answers, ⟨text.toList, c.location⟩) ∧
      ∀ needle : String,
        (Bytewise.find needle.toList).run ⟨text.toList, c.location⟩ =
          some (c.find needle, ⟨text.toList, c.location⟩) ∧
        (Bytewise.findIgnoringCase needle.toList).run ⟨text.toList, c.location⟩ =
          some (c.findIgnoringCase needle, ⟨text.toList, c.location⟩) := by
  have hstart := at_ofString text
  obtain ⟨pre, hat⟩ := CursorMove.at_runAll hstart ms
  refine ⟨_, _, rfl, hat.bookkeeping, ?_, hat.find_eq⟩
  obtain ⟨mid, hmid, hread⟩ := CursorMove.reads_runAll hstart ms
  have hpre : pre = mid := List.append_cancel_right (hat.1.symm.trans hmid)
  have hend : behind mid (CursorMove.runAll (.ofString text) ms).2.rest =
      ⟨text.toList, (CursorMove.runAll (.ofString text) ms).2.location⟩ := by
    rw [behind, ← hpre, ← hat.1, ← hat.2]
  rw [List.nil_append, hend] at hread
  exact hread

end HtmlQuery
