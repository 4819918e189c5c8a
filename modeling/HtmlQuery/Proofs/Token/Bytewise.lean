import HtmlQuery.Proofs.Reference.Bytewise
import HtmlQuery.Proofs.Token.Stream

/-!
# Scanning by byte offsets

The scanner once more, on a text and a byte offset: every piece of a token is a slice of the text, and what is searched
for is found as an offset. Whatever the text is, no slice fails, no loop runs out of rounds, and the tokens and the
verbatim content are those of `Scanner` (`follows_next`, `follows_rawText`).
-/

namespace HtmlQuery.Bytewise

open Cursor

/-! ## Tags -/

def skipTagEnd : Reading Unit := do
  let _ ← takeWhile (· ≠ '>')
  let _ ← bump

def tagName (fold : Folding) : Reading String := do
  let raw := String.ofList (← takeWhile Token.isTagNameChar)
  return if fold.tags then Text.lowerAscii raw else raw

/-- A value between quotes. -/
def quotedValue (quote : Char) : Reading (List Char) := do
  let _ ← bump
  let raw ← takeWhile (· ≠ quote)
  let _ ← bump
  return raw

def scanValue : Reading (List Char) := do
  match ← peek with
  | some '"' => quotedValue '"'
  | some '\'' => quotedValue '\''
  | _ => takeWhile (!Token.endsBareValue ·)

def scanAttribute (fold : Folding) : Reading (Option Attribute) := do
  skipWhitespace
  if (← peek).all fun c => c = '>' || c = '/' then return none
  else
    let raw ← takeWhile (!Token.endsAttributeName ·)
    if raw.isEmpty then return none
    else
      skipWhitespace
      if (← peek) ≠ some '=' then return some ⟨Token.attributeName fold raw, ""⟩
      else
        let _ ← bump
        skipWhitespace
        return some ⟨Token.attributeName fold raw, String.ofList (← decode (← scanValue))⟩

def scanAttributes (fold : Folding) (as : Attributes) : Nat → Reading Attributes
  | 0 => failure
  | rounds + 1 => do
    match ← scanAttribute fold with
    | some a => scanAttributes fold (as.set a.name a.value) rounds
    | none => return as

def scanStartTag (fold : Folding) : Reading Token := do
  let _ ← bump
  let name ← tagName fold
  if name.isEmpty then return .text "<"
  else
    let as ← bounded (scanAttributes fold ∅)
    skipWhitespace
    if (← peek) = some '/' then
      let _ ← bump
      skipTagEnd
      return .startTag name as true
    else
      skipTagEnd
      return .startTag name as false

def scanEndTag (fold : Folding) : Reading Token := do
  bumpN 2
  let name ← tagName fold
  skipTagEnd
  return .endTag name

/-! ## Other constructs -/

/-- What is unread up to an offset that was found, or all of it; `size` bytes behind the offset are skipped. -/
def through (size : Nat) (found : Option Nat) : Reading (List Char) := do
  match found with
  | some stop =>
    let body ← sliceTo stop
    advanceTo (stop + size)
    return body
  | none =>
    let body ← rest
    advanceToEnd
    return body

def scanComment : Reading Token := do
  bumpN 4
  return .comment (String.ofList (← through 3 (← find ['-', '-', '>'])))

def scanDoctype : Reading Token := do
  bumpN 9
  return .doctype (String.ofList (Text.trim (← through 1 (← find ['>']))))

def scanText : Reading Token := do
  return .text (String.ofList (← decode (← takeWhile (· ≠ '<'))))

/-- Reads one construct. Some give no token. -/
def scan (fold : Folding) : Reading (Option Token) := do
  if (← peek) ≠ some '<' then return some (← scanText)
  else if ← startsWith ['<', '!', '-', '-'] then return some (← scanComment)
  else if ← startsIgnoringCase "<!doctype".toList then return some (← scanDoctype)
  else
    match ← peekSecond with
    | some '/' => return some (← scanEndTag fold)
    | some '!' =>
      skipTagEnd
      return none
    | some '?' =>
      skipTagEnd
      return none
    | _ => return some (← scanStartTag fold)

/-- Reads constructs until one gives a token. -/
def seek (fold : Folding) : Nat → Reading (Option (Token × Location))
  | 0 => failure
  | rounds + 1 => do
    if ← atEnd then return none
    else
      let start ← place
      match ← scan fold with
      | some token => return some (token, start)
      | none => seek fold rounds

/-- The next token and where it starts. -/
def next (fold : Folding) : Reading (Option (Token × Location)) := bounded (seek fold)

/-- The text up to the closing tag of an element, decoded or not. -/
def rawText (tag : String) (decoded : Bool) : Reading String := do
  let raw ← through 0 (← findIgnoringCase ('<' :: '/' :: tag.toList))
  if decoded then return String.ofList (← decode raw)
  else return String.ofList raw

/-! ## Tags are read -/

variable {fold : Folding} {pre cs : List Char}

theorem reads_skipTagEnd : Reads skipTagEnd pre cs () (Token.skipTagEnd cs) :=
  (reads_takeWhile _).bind fun _ _ => reads_bump.bind fun _ _ => .pure ..

theorem reads_tagName : Reads (tagName fold) pre cs (Token.tagName fold cs) (Token.afterTagName cs) :=
  (reads_takeWhile _).bind fun _ _ => .pure ..

theorem reads_decode (raw : List Char) : Reads (liftM (decode raw)) pre cs (Reference.decode raw) cs := by
  refine .same ?_
  change (decode raw).bind _ = _
  rw [decode_eq]
  rfl

theorem reads_quotedValue {quote c : Char} : Reads (quotedValue quote) pre (c :: cs)
    (cs.takeWhile (· ≠ quote)) ((cs.dropWhile (· ≠ quote)).drop 1) :=
  reads_bump.bind fun _ _ => (reads_takeWhile _).bind fun _ _ => reads_bump.bind fun _ _ => .pure ..

theorem reads_scanValue : Reads scanValue pre cs (Token.scanValue cs).1 (Token.scanValue cs).2 := by
  refine reads_peek.look ?_
  fun_cases Token.scanValue cs with
  | case1 cs => exact reads_quotedValue
  | case2 cs => exact reads_quotedValue
  | case3 hdouble hsingle =>
    cases cs with
    | nil => exact reads_takeWhile _
    | cons c cs =>
      rw [List.head?_cons]
      split
      · simp_all
      · simp_all
      · exact reads_takeWhile _

/-- A name that is not empty does not start with what ends a tag. -/
theorem not_tagEnd_of_name {p : Char → Bool} (h : cs.takeWhile p ≠ []) (hend : p '>' = false ∧ p '/' = false) :
    cs.head?.all (fun c => c = '>' || c = '/') = false := by
  cases cs with
  | nil => exact absurd rfl h
  | cons c cs =>
    have hc : p c = true := by
      by_contra hc
      exact h (List.takeWhile_cons_of_neg hc)
    rw [List.head?_cons, Option.all_some, Bool.or_eq_false_iff]
    constructor <;> refine decide_eq_false ?_ <;> rintro rfl <;> simp_all

/-- An attribute is read, or the blanks in front of what is none. -/
theorem reads_scanAttribute : Reads (scanAttribute fold) pre cs ((Token.scanAttribute fold cs).map (·.1))
    (((Token.scanAttribute fold cs).map (·.2)).getD (Token.skipBlanks cs)) := by
  rw [Token.scanAttribute]
  refine reads_skipWhitespace.bind fun _ _ => reads_peek.look ?_
  dsimp only
  generalize Token.skipBlanks cs = ds
  have hparts := List.takeWhile_append_dropWhile (p := (!Token.endsAttributeName ·)) (l := ds)
  by_cases hraw : ds.takeWhile (!Token.endsAttributeName ·) = []
  · simp only [hraw, List.nil_append] at hparts
    simp only [hraw, List.isEmpty_nil, if_true, Option.map_none, Option.getD_none]
    split
    · exact .pure ..
    · refine (reads_takeWhile _).bind fun _ _ => ?_
      rw [hraw, if_pos List.isEmpty_nil, hparts]
      exact .pure ..
  · have hnot : ¬ (ds.takeWhile (!Token.endsAttributeName ·)).isEmpty = true := by rwa [List.isEmpty_iff]
    rw [not_tagEnd_of_name hraw (by decide), if_neg Bool.false_ne_true, if_neg hnot]
    refine (reads_takeWhile _).bind fun _ _ => ?_
    rw [if_neg hnot]
    refine reads_skipWhitespace.bind fun _ _ => reads_peek.look ?_
    generalize Token.skipBlanks (ds.dropWhile (!Token.endsAttributeName ·)) = es
    split
    · rename_i hes
      split
      · exact absurd rfl hes
      · exact .pure ..
    · rename_i hes
      obtain ⟨tail, rfl⟩ := List.head?_eq_some_iff.1 (not_not.1 hes)
      exact reads_bump.bind fun _ _ => reads_skipWhitespace.bind fun _ _ => reads_scanValue.bind fun _ _ =>
        (reads_decode _).look (.pure ..)

theorem reads_scanAttributes (as : Attributes) {rounds : Nat} (hrounds : cs.length ≤ rounds) :
    Reads (scanAttributes fold as (rounds + 1)) pre cs (Token.scanAttributes fold as cs).1
      (Token.scanAttributes fold as cs).2 := by
  fun_induction Token.scanAttributes fold as cs generalizing pre rounds with
  | case1 as cs a rest h ih =>
    have hshorter := Nat.lt_of_lt_of_le (Token.scanAttribute_shorter h) hrounds
    obtain _ | rounds := rounds
    · exact absurd hshorter (Nat.not_lt_zero _)
    have hread := @reads_scanAttribute fold pre cs
    rw [h] at hread
    exact hread.bind fun _ _ => ih (Nat.le_of_lt_succ hshorter)
  | case2 as cs h =>
    have hread := @reads_scanAttribute fold pre cs
    rw [h] at hread
    exact hread.bind fun _ _ => .pure ..

theorem skipBlanks_scanAttributes (as : Attributes) (cs : List Char) :
    Token.skipBlanks (Token.scanAttributes fold as cs).2 = (Token.scanAttributes fold as cs).2 := by
  fun_induction Token.scanAttributes fold as cs with
  | case1 as cs a rest h ih => exact ih
  | case2 as cs h => exact List.dropWhile_idempotent ..

theorem afterTagName_of_isEmpty (h : (Token.tagName fold cs).isEmpty = true) : Token.afterTagName cs = cs := by
  have hname : cs.takeWhile Token.isTagNameChar = [] := by
    rw [String.isEmpty_iff, Token.tagName] at h
    split at h
    · rwa [Text.lowerAscii, String.toList_ofList, String.ofList_eq_empty_iff, List.map_eq_nil_iff] at h
    · rwa [String.ofList_eq_empty_iff] at h
  have hparts := List.takeWhile_append_dropWhile (p := Token.isTagNameChar) (l := cs)
  rwa [hname, List.nil_append] at hparts

theorem reads_scanStartTag {c : Char} : Reads (scanStartTag fold) pre (c :: cs)
    (Token.scanStartTag fold cs).1 (Token.scanStartTag fold cs).2 := by
  refine reads_bump.bind fun _ _ => reads_tagName.bind fun _ _ => ?_
  rw [Token.scanStartTag]
  rw [List.drop_succ_cons, List.drop_zero]
  split
  · rename_i hname
    rw [afterTagName_of_isEmpty hname]
    exact .pure ..
  · refine (Reads.bounded fun _ => reads_scanAttributes _).bind fun _ _ => ?_
    refine reads_skipWhitespace.bind fun _ _ => reads_peek.look ?_
    rw [skipBlanks_scanAttributes]
    generalize Token.scanAttributes fold ∅ (Token.afterTagName cs) = read
    obtain ⟨as, ds⟩ := read
    dsimp only
    split
    · rename_i hslash
      obtain ⟨tail, rfl⟩ := List.head?_eq_some_iff.1 hslash
      exact reads_bump.bind fun _ _ => reads_skipTagEnd.bind fun _ _ => .pure ..
    · rename_i hslash
      split
      · rename_i heq
        exact absurd (congrArg (·.2.head?) heq) hslash
      · rename_i heq
        obtain ⟨rfl, rfl⟩ := Prod.mk.inj heq
        exact reads_skipTagEnd.bind fun _ _ => .pure ..

theorem reads_scanEndTag {c d : Char} : Reads (scanEndTag fold) pre (c :: d :: cs)
    (Token.scanEndTag fold cs).1 (Token.scanEndTag fold cs).2 :=
  (reads_bumpN 2).bind fun _ _ => reads_tagName.bind fun _ _ => reads_skipTagEnd.bind fun _ _ => .pure ..

/-! ## Other constructs are read -/

/-- What is found is cut off, and so are some ASCII characters behind it. -/
theorem reads_through_some {before skipped after : List Char} (size : Nat) (hsize : utf8Length skipped = size) :
    Reads (through size (some (utf8Length (pre ++ before)))) pre (before ++ (skipped ++ after)) before after := by
  have hadvance := @reads_advanceTo_append pre after (before ++ skipped)
  rw [← List.append_assoc, utf8Length_append, hsize, List.append_assoc] at hadvance
  exact reads_sliceTo.look (hadvance.bind fun _ _ => .pure ..)

theorem reads_through_none (size : Nat) : Reads (through size none) pre cs cs [] :=
  reads_rest.look (reads_advanceToEnd.bind fun _ _ => .pure ..)

theorem reads_scanComment : Reads scanComment pre cs (Token.scanComment (cs.drop 4)).1
    (Token.scanComment (cs.drop 4)).2 := by
  refine (reads_bumpN 4).bind fun _ _ => (reads_find _).look ?_
  rw [Token.scanComment, Text.cutAt]
  cases hcut : Text.cutBefore ['-', '-', '>'].isPrefixOf (cs.drop 4) with
  | none => exact (reads_through_none 3).bind fun _ _ => .pure ..
  | some parts =>
    obtain ⟨body, after⟩ := parts
    obtain ⟨hcs, hfound⟩ := Text.cutBefore_eq_some hcut
    obtain ⟨rest, rfl⟩ := List.isPrefixOf_iff_prefix.1 hfound
    rw [hcs]
    exact (reads_through_some 3 rfl).bind fun _ _ => .pure ..

/-- The search for one character divides a text in front of its first occurrence. -/
theorem cutBefore_char {d : Char} {before : List Char} (h : d ∉ before) (after : List Char) :
    Text.cutBefore [d].isPrefixOf (before ++ d :: after) = some (before, d :: after) :=
  Text.cutBefore_append (by simp [List.isPrefixOf]) fun post hpost hne => by
    obtain ⟨c, cs, rfl⟩ := List.exists_cons_of_ne_nil hne
    have hc : d ≠ c := fun heq => h (heq ▸ hpost.subset List.mem_cons_self)
    simp [List.isPrefixOf, hc]

theorem cutBefore_char_none {d : Char} (h : d ∉ cs) : Text.cutBefore [d].isPrefixOf cs = none := by
  cases hcut : Text.cutBefore [d].isPrefixOf cs with
  | none => rfl
  | some parts =>
    obtain ⟨hcs, hfound⟩ := Text.cutBefore_eq_some hcut
    obtain ⟨rest, hrest⟩ := List.isPrefixOf_iff_prefix.1 hfound
    exact absurd (by rw [hcs, ← hrest]; simp) h

theorem reads_scanDoctype : Reads scanDoctype pre cs (Token.scanDoctype (cs.drop 9)).1
    (Token.scanDoctype (cs.drop 9)).2 := by
  refine (reads_bumpN 9).bind fun _ _ => (reads_find _).look ?_
  rw [Token.scanDoctype]
  generalize cs.drop 9 = ds
  by_cases hend : '>' ∈ ds
  · obtain ⟨body, after, rfl, hbody⟩ := List.eq_append_cons_of_mem hend
    obtain ⟨htake, hskip⟩ := @Token.span_tagEnd after body hbody
    rw [cutBefore_char hbody, htake, hskip]
    exact (@reads_through_some _ body ['>'] after 1 rfl).bind fun _ _ => .pure ..
  · have htake : ds.takeWhile (· ≠ '>') = ds := List.takeWhile_eq_self_iff.2 (Token.ne_of_not_mem hend)
    have hskip : Token.skipTagEnd ds = [] := by
      rw [Token.skipTagEnd, List.dropWhile_eq_nil_iff.2 (Token.ne_of_not_mem hend), List.drop_nil]
    rw [cutBefore_char_none hend, htake, hskip]
    exact (reads_through_none 1).bind fun _ _ => .pure ..

theorem reads_scanText : Reads scanText pre cs (Token.scanText cs).1 (Token.scanText cs).2 :=
  (reads_takeWhile _).bind fun _ _ => (reads_decode _).look (.pure ..)

/-! ## Tokens and verbatim content are read -/

/-- A declaration that gives no token is skipped with its first two characters. -/
theorem reads_skipDeclaration {c : Char} (hc : c ≠ '>') :
    Reads skipTagEnd pre ('<' :: c :: cs) () (Token.skipTagEnd cs) := by
  have hskip : Token.skipTagEnd ('<' :: c :: cs) = Token.skipTagEnd cs := by
    rw [Token.skipTagEnd, List.dropWhile_cons_of_pos (by decide), List.dropWhile_cons_of_pos (by simpa using hc)]
    rfl
  exact hskip ▸ reads_skipTagEnd

/-- What is no comment and no document type is told apart by its second character. -/
theorem scan_other : ¬ ['!', '-', '-'].isPrefixOf cs = true →
    ¬ Text.startsIgnoringCase "!doctype".toList cs = true → Token.scan fold ('<' :: cs) =
      match cs with
      | '/' :: cs => (Token.scanEndTag fold cs).map some id
      | '!' :: cs => (none, Token.skipTagEnd cs)
      | '?' :: cs => (none, Token.skipTagEnd cs)
      | cs => (Token.scanStartTag fold cs).map some id :=
  fun hcomment hdoctype => (if_neg hcomment).trans (if_neg hdoctype)

theorem reads_scan : Reads (scan fold) pre cs (Token.scan fold cs).1 (Token.scan fold cs).2 := by
  refine reads_peek.look ?_
  by_cases hmark : cs.head? = some '<'
  · obtain ⟨cs, rfl⟩ := List.head?_eq_some_iff.1 hmark
    have hcomment : ['<', '!', '-', '-'].isPrefixOf ('<' :: cs) = ['!', '-', '-'].isPrefixOf cs := rfl
    have hdoctype : Text.startsIgnoringCase "<!doctype".toList ('<' :: cs) =
        Text.startsIgnoringCase "!doctype".toList cs := rfl
    rw [if_neg (by simp)]
    refine (reads_startsWith _).look ?_
    by_cases hc : ['!', '-', '-'].isPrefixOf cs = true
    · have hscan : Token.scan fold ('<' :: cs) = (Token.scanComment (cs.drop 3)).map some id := if_pos hc
      rw [hcomment, if_pos hc, hscan]
      exact reads_scanComment.bind fun _ _ => .pure ..
    rw [hcomment, if_neg hc]
    refine (reads_startsIgnoringCase _).look ?_
    by_cases hd : Text.startsIgnoringCase "!doctype".toList cs = true
    · have hscan : Token.scan fold ('<' :: cs) = (Token.scanDoctype (cs.drop 8)).map some id :=
        (if_neg hc).trans (if_pos hd)
      rw [hdoctype, if_pos hd, hscan]
      exact reads_scanDoctype.bind fun _ _ => .pure ..
    rw [hdoctype, if_neg hd]
    refine reads_peekSecond.look ?_
    rw [scan_other hc hd]
    cases cs with
    | nil => exact reads_scanStartTag.bind fun _ _ => .pure ..
    | cons c cs =>
      rw [List.getElem?_cons_succ, List.getElem?_cons_zero]
      split
      · obtain rfl := Option.some.inj ‹_›
        exact reads_scanEndTag.bind fun _ _ => .pure ..
      · obtain rfl := Option.some.inj ‹_›
        exact (reads_skipDeclaration (by decide)).bind fun _ _ => .pure ..
      · obtain rfl := Option.some.inj ‹_›
        exact (reads_skipDeclaration (by decide)).bind fun _ _ => .pure ..
      · refine reads_scanStartTag.bind fun _ _ => ?_
        -- the second character is none of those that were told apart
        split
        · simp_all
        · simp_all
        · simp_all
        · exact .pure ..
  · rw [if_pos hmark, Token.scan]
    · exact reads_scanText.bind fun _ _ => .pure ..
    · rintro tail rfl
      exact hmark rfl

/-! ## Readers and scanners -/

/-- The scanner that has read `pre` and in which `cs` is unread. -/
def scannerAt (fold : Folding) (pre cs : List Char) : Scanner := ⟨⟨cs, Location.start.afterAll pre⟩, fold⟩

/-- Behind `pre`, where `cs` is unread, `f` does not fail; it gives the answer of a scanner and stops where that
stops. -/
def Follows {α : Type} (f : Reading α) (fold : Folding) (pre cs : List Char) (answer : α × Scanner) : Prop :=
  ∃ mid cs', cs = mid ++ cs' ∧ answer.2 = scannerAt fold (pre ++ mid) cs' ∧
    f (behind pre cs) = some (answer.1, behind (pre ++ mid) cs')

variable {α β : Type} {f : Reading α} {k : α → Reading β} {a : α} {found : α × Scanner}
  {answer : β × Scanner} {cs' : List Char}

theorem upTo_scannerAt (fold : Folding) (pre mid cs : List Char) :
    (scannerAt fold pre (mid ++ cs)).upTo cs = scannerAt fold (pre ++ mid) cs := by
  have hlength : (mid ++ cs).length - cs.length = mid.length := by rw [List.length_append]; omega
  rw [Scanner.upTo, Cursor.upTo, scannerAt, hlength, Cursor.move, List.drop_left, List.take_left, scannerAt,
    Location.afterAll_append]

theorem Reads.follows (h : Reads f pre cs a cs') (fold : Folding) :
    Follows f fold pre cs (a, (scannerAt fold pre cs).upTo cs') := by
  obtain ⟨mid, rfl, hf⟩ := h
  exact ⟨mid, cs', rfl, upTo_scannerAt .., hf⟩

theorem Follows.pure (fold : Folding) (pre cs : List Char) (a : α) :
    Follows (pure a) fold pre cs (a, scannerAt fold pre cs) :=
  ⟨[], cs, rfl, by rw [List.append_nil], by rw [List.append_nil]; rfl⟩

theorem Follows.bind (h : Follows f fold pre cs found) (hk : ∀ mid cs', cs = mid ++ cs' →
    found.2 = scannerAt fold (pre ++ mid) cs' → Follows (k found.1) fold (pre ++ mid) cs' answer) :
    Follows (f >>= k) fold pre cs answer := by
  obtain ⟨mid, cs', hmid, hs, hf⟩ := h
  obtain ⟨mid', cs'', rfl, hs', hk⟩ := hk mid cs' hmid hs
  refine ⟨mid ++ mid', cs'', by rw [hmid, List.append_assoc], by rw [← List.append_assoc, hs'], ?_⟩
  rw [← List.append_assoc, ← hk]
  change (f (behind pre cs)).bind _ = _
  rw [hf]
  rfl

/-- What reads nothing leaves the scanner where it is. -/
theorem Follows.look (h : Reads f pre cs a cs) (hk : Follows (k a) fold pre cs answer) :
    Follows (f >>= k) fold pre cs answer :=
  (h.follows fold).bind fun mid cs' hmid hs => by
    have hrest := congrArg (·.cursor.rest) ((upTo_scannerAt fold pre [] cs).symm.trans hs)
    obtain rfl : cs = cs' := hrest
    obtain rfl := List.self_eq_append_left.1 hmid
    rwa [List.append_nil]

theorem Follows.map (h : Follows f fold pre cs found) (g : α → β) :
    Follows (do return g (← f)) fold pre cs (g found.1, found.2) :=
  h.bind fun mid cs' _ hs => hs ▸ .pure fold (pre ++ mid) cs' (g found.1)

theorem Follows.bounded {loop : Nat → Reading β}
    (h : ∀ rounds, cs.length ≤ rounds → Follows (loop (rounds + 1)) fold pre cs answer) :
    Follows (bounded loop) fold pre cs answer :=
  .look reads_text (h _ (by rw [List.length_append]; exact Nat.le_add_left ..))

theorem follows_seek_end (fold : Folding) (pre : List Char) (rounds : Nat) :
    Follows (seek fold (rounds + 1)) fold pre [] (scannerAt fold pre []).next := by
  rw [Scanner.next_of_end rfl]
  exact .look reads_atEnd (.pure ..)

/-- What gives no token takes a character at least, so there are rounds enough to find one that does. -/
theorem follows_seek (fold : Folding) {rounds : Nat} (h : cs.length ≤ rounds) :
    Follows (seek fold (rounds + 1)) fold pre cs (scannerAt fold pre cs).next := by
  induction rounds generalizing pre cs with
  | zero =>
    obtain rfl := List.length_eq_zero_iff.1 (Nat.le_zero.1 h)
    exact follows_seek_end ..
  | succ rounds ih =>
    obtain _ | ⟨c, cs⟩ := cs
    · exact follows_seek_end ..
    have hread := @reads_scan fold pre (c :: cs)
    have hshorter := Token.scan_shorter fold c cs
    generalize hscan : Token.scan fold (c :: cs) = scanned at hread hshorter
    obtain ⟨token, rest⟩ := scanned
    cases token with
    | some token =>
      rw [Scanner.next_of_scan (List.cons_ne_nil c cs) hscan]
      have hfound := fun pre' => Reads.pure pre' rest (some (token, Location.start.afterAll pre))
      exact (reads_atEnd.look (reads_place.look (hread.bind fun mid _ => hfound (pre ++ mid)))).follows fold
    | none =>
      -- what was skipped took one round and one character at least
      rw [Scanner.next_of_skip (List.cons_ne_nil c cs) hscan]
      refine .look reads_atEnd (.look reads_place ((hread.follows fold).bind fun mid cs' _ hs => ?_))
      dsimp only at hs hshorter ⊢
      have hlength : rest.length = cs'.length := by
        rw [← @Scanner.rest_upTo_length rest (scannerAt fold pre (c :: cs)) (Nat.le_of_lt hshorter), hs]
        rfl
      rw [hs]
      exact ih (Nat.le_of_lt_succ (Nat.lt_of_lt_of_le (hlength ▸ hshorter) h))

/-- The next token is found without a slice that fails. -/
theorem follows_next (fold : Folding) (pre cs : List Char) :
    Follows (next fold) fold pre cs (scannerAt fold pre cs).next := .bounded fun _ => follows_seek fold

/-- The verbatim content of an element is found without a slice that fails. -/
theorem follows_rawText (fold : Folding) (tag : String) (decoded : Bool) (pre cs : List Char) :
    Follows (rawText tag decoded) fold pre cs ((scannerAt fold pre cs).rawText tag decoded) := by
  have hend : ∀ {pre raw after : List Char}, Reads
      (do if decoded then return String.ofList (← decode raw) else return String.ofList raw) pre after
      (String.ofList (if decoded then Reference.decode raw else raw)) after := by
    intro pre raw after
    split
    · exact (reads_decode _).look (.pure ..)
    · exact .pure ..
  rw [Scanner.rawText]
  refine Reads.follows ((reads_findIgnoringCase _).look ?_) fold
  rw [scannerAt]
  cases hcut : Text.cutBefore (Text.startsIgnoringCase ('<' :: '/' :: tag.toList)) cs with
  | none => exact (reads_through_none 0).bind fun _ _ => hend
  | some parts =>
    obtain ⟨before, after⟩ := parts
    obtain ⟨rfl, -⟩ := Text.cutBefore_eq_some hcut
    exact (@reads_through_some _ before [] after 0 rfl).bind fun _ _ => hend

end HtmlQuery.Bytewise
