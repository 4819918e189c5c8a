import HtmlQuery.Proofs.Token.Bytewise

/-!
# Requests to a scanner

Whoever reads a document asks a scanner for tokens and for verbatim content, in an order of its own. Whatever that
order is, the scanner by byte offsets does not fail and answers as `Scanner` does (`follows_answers`), and every
answer moves it on as it should: never back, never past the end, over a byte at least for a token, and to the end
where there is no token any more (`moved_answer`).
-/

namespace HtmlQuery

open Cursor

namespace Scanner

/-- What a scanner is asked for. -/
inductive Request where
  /-- The next token. -/
  | next
  /-- The text up to the closing tag of an element, with its references decoded or not. -/
  | rawText (tag : String) (decode : Bool)

/-- What a request is answered with. -/
inductive Answer where
  | found (token : Option (Token × Location))
  | raw (text : String)

/-- The answer to a request and the scanner behind it. -/
def answer (s : Scanner) : Request → Answer × Scanner
  | .next => (.found s.next.1, s.next.2)
  | .rawText tag decode => (.raw (s.rawText tag decode).1, (s.rawText tag decode).2)

/-- The answers to requests that are made one after the other. -/
def answers (s : Scanner) : List Request → List Answer × Scanner
  | [] => ([], s)
  | q :: qs =>
    let later := (s.answer q).2.answers qs
    ((s.answer q).1 :: later.1, later.2)

/-- There is no token only where nothing is unread. -/
theorem rest_of_next_none {s s' : Scanner} (h : s.next = (none, s')) : s'.cursor.rest = [] := by
  fun_induction next s with
  | case1 s hrest =>
    obtain ⟨-, rfl⟩ := Prod.mk.inj h
    exact hrest
  | case2 => simp at h
  | case3 s c cs hrest rest hscan ih => exact ih h

end Scanner

namespace Bytewise

open Scanner (Request Answer)

def answer (fold : Folding) : Request → Reading Answer
  | .next => return .found (← next fold)
  | .rawText tag decoded => return .raw (← rawText tag decoded)

def answers (fold : Folding) : List Request → Reading (List Answer)
  | [] => return []
  | q :: qs => return (← answer fold q) :: (← answers fold qs)

/-- An answer takes a scanner of a text of `size` bytes from one offset to another as it should. -/
structure Moved (size start : Nat) (found : Answer) (stop : Nat) : Prop where
  forward : start ≤ stop
  within : stop ≤ size
  /-- A token is worth a byte at least. -/
  token : ∀ token, found = .found (some token) → start < stop
  /-- There is no token only where nothing is unread. -/
  finished : found = .found none → stop = size

variable {fold : Folding} {pre mid cs cs' : List Char}

theorem follows_answer (fold : Folding) (q : Request) (pre cs : List Char) :
    Follows (answer fold q) fold pre cs ((scannerAt fold pre cs).answer q) := by
  cases q with
  | next => exact (follows_next fold pre cs).map Answer.found
  | rawText tag decoded => exact (follows_rawText fold tag decoded pre cs).map Answer.raw

/-- Requests are answered without a slice that fails, in whatever order they come. -/
theorem follows_answers (fold : Folding) (qs : List Request) (pre cs : List Char) :
    Follows (answers fold qs) fold pre cs ((scannerAt fold pre cs).answers qs) := by
  induction qs generalizing pre cs with
  | nil => exact .pure fold pre cs []
  | cons q qs ih =>
    refine (follows_answer fold q pre cs).bind fun mid cs' _ hs => ?_
    rw [Scanner.answers, hs]
    exact (ih (pre ++ mid) cs').map _

/-- Wherever a scanner is, the next answer moves it on. -/
theorem moved_answer (q : Request) (h : ((scannerAt fold pre (mid ++ cs')).answer q).2 =
    scannerAt fold (pre ++ mid) cs') : Moved (utf8Length (pre ++ (mid ++ cs'))) (utf8Length pre)
      ((scannerAt fold pre (mid ++ cs')).answer q).1 (utf8Length (pre ++ mid)) where
  forward := by
    rw [utf8Length_append]
    exact Nat.le_add_right ..
  within := by
    rw [← List.append_assoc, utf8Length_append (pre ++ mid)]
    exact Nat.le_add_right ..
  token := fun token hfound => by
    cases q with
    | next =>
      rw [Scanner.answer, Answer.found.injEq] at hfound
      cases mid with
      | nil => exact absurd (Scanner.next_shorter (Prod.ext hfound h)) (Nat.lt_irrefl cs'.length)
      | cons c mid =>
        have := c.utf8Size_pos
        rw [utf8Length_append, utf8Length_cons]
        omega
    | rawText => cases hfound
  finished := fun hfound => by
    cases q with
    | next =>
      rw [Scanner.answer, Answer.found.injEq] at hfound
      obtain rfl : cs' = [] := Scanner.rest_of_next_none (Prod.ext hfound h)
      rw [List.append_nil]
    | rawText => cases hfound

/-- The size of a text in bytes is the byte length of its characters. -/
theorem utf8Length_toList (s : String) : utf8Length s.toList = s.utf8ByteSize := by
  have hlist : ∀ cs : List Char, utf8Length cs = (String.ofList cs).utf8ByteSize := fun cs => by
    induction cs with
    | nil => rfl
    | cons c cs ih =>
      rw [String.ofList_cons, String.utf8ByteSize_append, String.utf8ByteSize_singleton, ← ih, utf8Length_cons]
  rw [hlist, String.ofList_toList]

theorem length_le_utf8ByteSize (s : String) : s.length ≤ s.utf8ByteSize := by
  rw [← utf8Length_toList, ← String.length_toList]
  induction s.toList with
  | nil => exact Nat.le_refl _
  | cons c cs ih =>
    have := c.utf8Size_pos
    rw [List.length_cons, utf8Length_cons]
    omega

/-- After any requests the scanner by byte offsets is where the scanner is, and both give the same next answer. -/
theorem exists_answers (html : String) (fold : Folding) (qs : List Request) : ∃ as s r,
    (Scanner.ofString html fold).answers qs = (as, s) ∧
    answers fold qs (.ofString html) = some (as, r) ∧ r.place = s.cursor.location ∧
    ∀ q, ∃ found s' r', s.answer q = (found, s') ∧
      answer fold q r = some (found, r') ∧ r'.place = s'.cursor.location ∧
      Moved html.utf8ByteSize s.offset found s'.offset := by
  obtain ⟨pre, cs, hcs, hs, hanswers⟩ := follows_answers fold qs [] html.toList
  rw [List.nil_append] at hs hanswers
  refine ⟨_, scannerAt fold pre cs, behind pre cs, Prod.ext rfl hs, hanswers, rfl, fun q => ?_⟩
  obtain ⟨mid, cs', rfl, hs', hanswer⟩ := follows_answer fold q pre cs
  have hmoved := moved_answer q hs'
  rw [← hcs, utf8Length_toList, ← behind_offset pre (mid ++ cs'), ← behind_offset (pre ++ mid) cs'] at hmoved
  exact ⟨_, scannerAt fold (pre ++ mid) cs', _, Prod.ext rfl hs', hanswer, rfl, hmoved⟩

end Bytewise

end HtmlQuery
