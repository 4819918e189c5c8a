import HtmlQuery.Proofs.Source.Encoding

/-!
# Reading by byte offsets

`Reading` is a reader that knows the whole text and a byte offset in it, and gets at what is unread only by slices
of the text. A slice past the end of the text or inside a character fails, and so does a loop that goes round more
often than the text has characters (`bounded`). `Reads f pre cs a cs'` says that behind `pre`, where `cs` is unread,
`f` does not fail, answers `a` and leaves `cs'`.
-/

namespace HtmlQuery.Bytewise

open Cursor

/-! ## Slices -/

/-- Cuts a text at a byte offset. There is no cut past its end and none inside a character. -/
def cut? : Nat → List Char → Option (List Char × List Char)
  | 0, cs => some ([], cs)
  | _ + 1, [] => none
  | n + 1, c :: cs =>
    if c.utf8Size ≤ n + 1 then (cut? (n + 1 - c.utf8Size) cs).map fun parts => (c :: parts.1, parts.2) else none

/-- The text from one byte offset to another. -/
def slice? (start stop : Nat) (cs : List Char) : Option (List Char) := do
  let parts ← cut? stop cs
  return (← cut? start parts.1).2

variable {pre cs cs' cs'' mid : List Char}

/-- A cut at an offset is between the characters that take as many bytes and the others. -/
theorem cut?_eq_some_iff {n : Nat} {cs before after : List Char} :
    cut? n cs = some (before, after) ↔ cs = before ++ after ∧ utf8Length before = n := by
  have hpos : ∀ c : Char, 0 < c.utf8Size := Char.utf8Size_pos
  fun_induction cut? n cs generalizing before with
  | case1 cs =>
    cases before with
    | nil => simp [eq_comm]
    | cons b before => simp [(Nat.ne_of_gt (hpos b))]
  | case2 n => cases before <;> simp
  | case3 n c cs hle ih =>
    cases before with
    | nil => simp
    | cons b before =>
      simp only [Option.map_eq_some_iff, Prod.exists, Prod.mk.injEq, List.cons.injEq, List.cons_append,
        utf8Length_cons]
      constructor
      · rintro ⟨before, after, hcut, ⟨rfl, rfl⟩, rfl⟩
        obtain ⟨rfl, hlength⟩ := ih.1 hcut
        exact ⟨⟨rfl, rfl⟩, by omega⟩
      · rintro ⟨⟨rfl, hcs⟩, hlength⟩
        exact ⟨_, _, ih.2 ⟨hcs, by omega⟩, ⟨rfl, rfl⟩, rfl⟩
  | case4 n c cs hgt =>
    cases before with
    | nil => simp
    | cons b before =>
      simp only [reduceCtorEq, utf8Length_cons, List.cons_append, List.cons.injEq, false_iff, not_and]
      rintro ⟨rfl, -⟩
      omega

theorem cut?_append (pre cs : List Char) : cut? (utf8Length pre) (pre ++ cs) = some (pre, cs) :=
  cut?_eq_some_iff.2 ⟨rfl, rfl⟩

theorem slice?_append (pre mid cs : List Char) :
    slice? (utf8Length pre) (utf8Length (pre ++ mid)) (pre ++ (mid ++ cs)) = some mid := by
  rw [slice?, ← List.append_assoc, cut?_append]
  dsimp only [Option.bind_eq_bind, Option.bind_some]
  rw [cut?_append]
  rfl

-- there is no slice inside a character or past the end
example : slice? 0 1 ['\u00e9'] = none ∧ slice? 0 2 ['a'] = none ∧ slice? 1 3 ['a', '\u00e9'] = some ['\u00e9'] := by
  decide

/-! ## Readers -/

/-- A text and a place in it. -/
structure Reader where
  text : List Char
  place : Location

/-- Reads from a reader, or fails. -/
abbrev Reading := StateT Reader Option

def Reader.ofString (s : String) : Reader := ⟨s.toList, .start⟩

def text : Reading (List Char) := return (← get).text

def place : Reading Location := return (← get).place

def offset : Reading Nat := return (← place).offset

def stop : Reading Nat := return utf8Length (← text)

/-- Runs a loop that may go round once for each character of the text, and once more. -/
def bounded {α : Type} (loop : Nat → Reading α) : Reading α := do loop ((← text).length + 1)

def atEnd : Reading Bool := return (← stop) ≤ (← offset)

/-- The text between two byte offsets. -/
def slice (start stop : Nat) : Reading (List Char) := do slice? start stop (← text)

/-- What is unread. -/
def rest : Reading (List Char) := do slice (← offset) (← stop)

/-- What is unread up to a byte offset. -/
def sliceTo (stop : Nat) : Reading (List Char) := do slice (← offset) stop

def peek : Reading (Option Char) := return (← rest).head?

def peekSecond : Reading (Option Char) := return (← rest)[1]?

def startsWith (pre : List Char) : Reading Bool := return pre.isPrefixOf (← rest)

def startsIgnoringCase (pre : List Char) : Reading Bool := return startsBytes (encode pre) (encode (← rest))

/-- Reads one character. -/
def bump : Reading (Option Char) := do
  match ← peek with
  | some c =>
    modify fun r => { r with place := r.place.after c }
    return some c
  | none => return none

/-- Reads `n` characters, or all that are left. -/
def bumpN : Nat → Reading Unit
  | 0 => return
  | n + 1 => do
    if (← bump).isSome then bumpN n

/-- Reads until the offset is `target` or more. -/
def advance (target : Nat) : Nat → Reading Unit
  | 0 => failure
  | rounds + 1 => do
    if (← offset) < target then
      if (← bump).isSome then advance target rounds

def advanceTo (target : Nat) : Reading Unit := bounded (advance target)

def advanceToEnd : Reading Unit := do advanceTo (← stop)

/-- Reads characters as long as they satisfy `p`. -/
def skip (p : Char → Bool) : Nat → Reading Unit
  | 0 => failure
  | rounds + 1 => do
    if (← peek).any p then
      let _ ← bump
      skip p rounds

/-- Reads the longest run of characters that satisfy `p`. -/
def takeWhile (p : Char → Bool) : Reading (List Char) := do
  let start ← offset
  bounded (skip p)
  slice start (← offset)

def skipWhitespace : Reading Unit := do
  let _ ← takeWhile Text.isWhitespace

/-- The offset of the next occurrence of a text. -/
def find (needle : List Char) : Reading (Option Nat) := do
  let start ← offset
  return (Text.cutBefore needle.isPrefixOf (← rest)).map fun parts => start + utf8Length parts.1

/-- The offset of the next occurrence of a text up to ASCII case. It is searched for byte by byte. -/
def findIgnoringCase (needle : List Char) : Reading (Option Nat) := do
  let start ← offset
  return (findBytes (encode needle) (encode (← rest))).map (start + ·)

/-! ## What is read -/

/-- The reader that has read `pre` and in which `cs` is unread. -/
def behind (pre cs : List Char) : Reader := ⟨pre ++ cs, Location.start.afterAll pre⟩

/-- Behind `pre`, where `cs` is unread, `f` does not fail, answers `a` and leaves `cs'`. -/
def Reads {α : Type} (f : Reading α) (pre cs : List Char) (a : α) (cs' : List Char) : Prop :=
  ∃ mid, cs = mid ++ cs' ∧ f (behind pre cs) = some (a, behind (pre ++ mid) cs')

variable {α β : Type} {f : Reading α} {k : α → Reading β} {loop : Nat → Reading α} {a : α} {b : β} {p : Char → Bool}
  {rounds : Nat}

theorem behind_offset (pre cs : List Char) : (behind pre cs).place.offset = utf8Length pre := by
  rw [behind, offset_afterAll]
  exact Nat.zero_add _

theorem Reads.same (h : f (behind pre cs) = some (a, behind pre cs)) : Reads f pre cs a cs :=
  ⟨[], rfl, by rw [List.append_nil, h]⟩

theorem Reads.pure (pre cs : List Char) (a : α) : Reads (pure a) pre cs a cs := .same rfl

theorem Reads.bind (h : Reads f pre cs a cs')
    (hk : ∀ mid, cs = mid ++ cs' → Reads (k a) (pre ++ mid) cs' b cs'') : Reads (f >>= k) pre cs b cs'' := by
  obtain ⟨mid, hmid, hf⟩ := h
  obtain ⟨mid', hmid', hk⟩ := hk mid hmid
  refine ⟨mid ++ mid', by rw [hmid, hmid', List.append_assoc], ?_⟩
  rw [← List.append_assoc, ← hk]
  change (f (behind pre cs)).bind _ = _
  rw [hf]
  rfl

/-- What reads nothing leaves the reader where it is. -/
theorem Reads.look (h : Reads f pre cs a cs) (hk : Reads (k a) pre cs b cs') : Reads (f >>= k) pre cs b cs' :=
  h.bind fun mid hmid => by
    obtain rfl := List.self_eq_append_left.1 hmid
    rwa [List.append_nil]

theorem reads_text : Reads text pre cs (pre ++ cs) cs := .same rfl

/-- A loop that goes round no more often than there are unread characters does not fail for its bound. -/
theorem Reads.bounded (h : ∀ rounds, cs.length ≤ rounds → Reads (loop (rounds + 1)) pre cs a cs') :
    Reads (bounded loop) pre cs a cs' :=
  reads_text.look (h _ (by rw [List.length_append]; exact Nat.le_add_left ..))

theorem reads_place : Reads place pre cs (Location.start.afterAll pre) cs := .same rfl

theorem reads_offset : Reads offset pre cs (utf8Length pre) cs :=
  .same (by rw [← behind_offset pre cs]; rfl)

theorem reads_stop : Reads stop pre cs (utf8Length (pre ++ cs)) cs := .same rfl

/-- A slice between two places of the text does not fail, wherever the reader is. -/
theorem slice_eq {r : Reader} (h : r.text = pre ++ (mid ++ cs)) :
    slice (utf8Length pre) (utf8Length (pre ++ mid)) r = some (mid, r) := by
  change (slice? _ _ r.text).bind _ = _
  rw [h, slice?_append]
  rfl

theorem reads_sliceTo : Reads (sliceTo (utf8Length (pre ++ mid))) pre (mid ++ cs) mid (mid ++ cs) :=
  reads_offset.look (.same (slice_eq rfl))

theorem reads_rest : Reads rest pre cs cs cs :=
  reads_offset.look (reads_stop.look (.same (@slice_eq pre [] cs _ (by rw [List.append_nil]; rfl))))

theorem reads_atEnd : Reads atEnd pre cs cs.isEmpty cs := by
  have hpos : utf8Length (pre ++ cs) ≤ utf8Length pre ↔ cs = [] := by
    cases cs with
    | nil => simp
    | cons c cs => have := c.utf8Size_pos; simp; omega
  have hend : decide (utf8Length (pre ++ cs) ≤ utf8Length pre) = cs.isEmpty := by
    rw [Bool.eq_iff_iff, decide_eq_true_iff, hpos, List.isEmpty_iff]
  rw [← hend]
  exact reads_stop.look (reads_offset.look (.pure ..))

theorem reads_peek : Reads peek pre cs cs.head? cs := reads_rest.look (.pure ..)

theorem reads_peekSecond : Reads peekSecond pre cs cs[1]? cs := reads_rest.look (.pure ..)

theorem reads_startsWith (needle : List Char) :
    Reads (startsWith needle) pre cs (needle.isPrefixOf cs) cs := reads_rest.look (.pure ..)

theorem reads_startsIgnoringCase (needle : List Char) :
    Reads (startsIgnoringCase needle) pre cs (Text.startsIgnoringCase needle cs) cs := by
  rw [← startsBytes_encode]
  exact reads_rest.look (.pure ..)

theorem reads_bump : Reads bump pre cs cs.head? (cs.drop 1) := by
  cases cs with
  | nil => exact reads_peek.look (.pure ..)
  | cons c cs =>
    refine reads_peek.look ⟨[c], rfl, ?_⟩
    change some (some c, Reader.mk (pre ++ c :: cs) ((Location.start.afterAll pre).after c)) = _
    rw [behind, Location.afterAll_append, List.append_assoc]
    rfl

theorem reads_bumpN (n : Nat) : Reads (bumpN n) pre cs () (cs.drop n) := by
  induction n generalizing pre cs with
  | zero => exact .pure ..
  | succ n ih =>
    refine reads_bump.bind fun mid _ => ?_
    cases cs with
    | nil => exact .pure ..
    | cons c cs => exact ih

/-- Up to a target the characters are read that start in front of it. -/
theorem reads_advance (target : Nat) (h : cs.length ≤ rounds) :
    Reads (advance target (rounds + 1)) pre cs () (cs.drop (countBefore target (utf8Length pre) cs)) := by
  induction cs generalizing pre rounds with
  | nil =>
    rw [advance]
    refine reads_offset.look ?_
    split
    · exact reads_bump.bind fun _ _ => .pure ..
    · exact .pure ..
  | cons c cs ih =>
    obtain _ | rounds := rounds
    · exact absurd h (Nat.not_succ_le_zero _)
    rw [advance, countBefore]
    refine reads_offset.look ?_
    split
    · refine reads_bump.bind fun read hread => ?_
      obtain rfl : [c] = read := List.append_cancel_right hread
      have hread := @ih (pre ++ [c]) rounds (Nat.le_of_succ_le_succ h)
      rwa [utf8Length_append] at hread
    · exact .pure ..

theorem countBefore_append (start : Nat) (mid cs : List Char) :
    countBefore (start + utf8Length mid) start (mid ++ cs) = mid.length := by
  induction mid generalizing start with
  | nil => cases cs <;> simp [countBefore]
  | cons c mid ih =>
    have hpos := c.utf8Size_pos
    rw [List.cons_append, countBefore, utf8Length_cons, if_pos (by omega), ← Nat.add_assoc, ih, List.length_cons]

theorem reads_advanceTo (target : Nat) :
    Reads (advanceTo target) pre cs () (cs.drop (countBefore target (utf8Length pre) cs)) :=
  .bounded fun _ => reads_advance target

/-- Where the target is in front of a character, that is what is read next. -/
theorem reads_advanceTo_append : Reads (advanceTo (utf8Length (pre ++ mid))) pre (mid ++ cs) () cs := by
  have hadvance := @reads_advanceTo pre (mid ++ cs) (utf8Length (pre ++ mid))
  rwa [utf8Length_append, countBefore_append, List.drop_left, ← utf8Length_append] at hadvance

theorem reads_advanceToEnd : Reads advanceToEnd pre cs () [] :=
  reads_stop.look (by simpa using @reads_advanceTo_append pre [] cs)

theorem reads_skip (p : Char → Bool) (h : cs.length ≤ rounds) :
    Reads (skip p (rounds + 1)) pre cs () (cs.dropWhile p) := by
  induction cs generalizing pre rounds with
  | nil => exact reads_peek.look (.pure ..)
  | cons c cs ih =>
    obtain _ | rounds := rounds
    · exact absurd h (Nat.not_succ_le_zero _)
    refine reads_peek.look ?_
    rw [List.head?_cons, Option.any_some]
    by_cases hc : p c = true
    · rw [if_pos hc, List.dropWhile_cons_of_pos hc]
      exact reads_bump.bind fun mid _ => ih (Nat.le_of_succ_le_succ h)
    · rw [if_neg hc, List.dropWhile_cons_of_neg hc]
      exact .pure ..

theorem reads_takeWhile (p : Char → Bool) :
    Reads (takeWhile p) pre cs (cs.takeWhile p) (cs.dropWhile p) := by
  refine reads_offset.look ((Reads.bounded fun _ => reads_skip p).bind fun mid hmid => reads_offset.look (.same ?_))
  obtain rfl : cs.takeWhile p = mid :=
    List.append_cancel_right ((List.takeWhile_append_dropWhile (p := p) (l := cs)).trans hmid)
  exact slice_eq (List.append_assoc ..)

theorem reads_skipWhitespace : Reads skipWhitespace pre cs () (Token.skipBlanks cs) :=
  (reads_takeWhile _).bind fun _ _ => .pure ..

theorem reads_find (needle : List Char) : Reads (find needle) pre cs
    ((Text.cutBefore needle.isPrefixOf cs).map fun parts => utf8Length (pre ++ parts.1)) cs := by
  simp only [utf8Length_append]
  exact reads_offset.look (reads_rest.look (.pure ..))

theorem reads_findIgnoringCase (needle : List Char) : Reads (findIgnoringCase needle) pre cs
    ((Text.cutBefore (Text.startsIgnoringCase needle) cs).map fun parts => utf8Length (pre ++ parts.1)) cs := by
  have hfind := congrArg (Option.map (utf8Length pre + ·)) (findBytes_encode needle cs)
  rw [Option.map_map] at hfind
  simp only [utf8Length_append]
  have hlook : Reads (findIgnoringCase needle) pre cs
      ((findBytes (encode needle) (encode cs)).map (utf8Length pre + ·)) cs :=
    reads_offset.look (reads_rest.look (.pure ..))
  rwa [hfind] at hlook

end HtmlQuery.Bytewise
