/-!
# White space

Two classes of blanks: Unicode's `White_Space` property, which trimming and the markup scanner use,
and the five ASCII blanks that separate class tokens. Main statements: `trim` is the middle of a text
between two blank runs (`exists_trim`), and it neither starts nor ends with a blank
(`not_isWhitespace_of_head?_trim`, `not_isWhitespace_of_getLast?_trim`); it is the only such text
(`trim_append`).
-/

namespace HtmlQuery.Text

/-- The characters with Unicode's `White_Space` property. -/
def isWhitespace (c : Char) : Bool :=
  (9 ≤ c.val && c.val ≤ 13) || c.val = 0x20 || c.val = 0x85 || c.val = 0xA0 || c.val = 0x1680
    || (0x2000 ≤ c.val && c.val ≤ 0x200A) || c.val = 0x2028 || c.val = 0x2029 || c.val = 0x202F
    || c.val = 0x205F || c.val = 0x3000

/-- The blanks of markup attributes: tab, line feed, form feed, carriage return and space. -/
def isAsciiWhitespace (c : Char) : Bool :=
  c = '\t' || c = '\n' || c = '\x0C' || c = '\r' || c = ' '

def trimEnd (cs : List Char) : List Char := (cs.reverse.dropWhile isWhitespace).reverse

def trim (cs : List Char) : List Char := trimEnd (cs.dropWhile isWhitespace)

def trimmed (s : String) : String := String.ofList (trim s.toList)

def isBlank (s : String) : Bool := s.toList.all isWhitespace

/-- Collects the tokens of the rest of a text, with `token` read backwards so far. -/
def words.go (token : List Char) : List Char → List (List Char)
  | [] => if token.isEmpty then [] else [token.reverse]
  | c :: cs =>
    if isAsciiWhitespace c then
      if token.isEmpty then go [] cs else token.reverse :: go [] cs
    else go (c :: token) cs

/-- The maximal runs of a text without ASCII blanks, in order. -/
def words (s : String) : List String := (words.go [] s.toList).map String.ofList

/-! ## Lemmas -/

theorem length_dropWhile_le (p : Char → Bool) (cs : List Char) :
    (cs.dropWhile p).length ≤ cs.length := (List.dropWhile_suffix p).length_le

/-- A member of the longest run that satisfies a test satisfies it. -/
theorem of_mem_takeWhile {p : Char → Bool} {cs : List Char} {c : Char}
    (h : c ∈ cs.takeWhile p) : p c = true := by
  induction cs with
  | nil => simp at h
  | cons d ds ih =>
    rw [List.takeWhile_cons] at h
    split at h
    · rcases List.mem_cons.1 h with rfl | h
      · assumption
      · exact ih h
    · simp at h

theorem exists_trimEnd (cs : List Char) :
    ∃ post, cs = trimEnd cs ++ post ∧ ∀ c ∈ post, isWhitespace c = true := by
  refine ⟨(cs.reverse.takeWhile isWhitespace).reverse, ?_, ?_⟩
  · rw [trimEnd, ← List.reverse_append, List.takeWhile_append_dropWhile, List.reverse_reverse]
  · intro c hc
    rw [List.mem_reverse] at hc
    exact of_mem_takeWhile hc

theorem exists_trim (cs : List Char) :
    ∃ pre post, cs = pre ++ trim cs ++ post ∧
      (∀ c ∈ pre, isWhitespace c = true) ∧ ∀ c ∈ post, isWhitespace c = true := by
  obtain ⟨post, hpost, hblank⟩ := exists_trimEnd (cs.dropWhile isWhitespace)
  refine ⟨cs.takeWhile isWhitespace, post, ?_, fun c hc => of_mem_takeWhile hc, hblank⟩
  rw [trim, List.append_assoc, ← hpost, List.takeWhile_append_dropWhile]

/-- What is left when blanks are dropped does not start with one. -/
theorem not_isWhitespace_of_head?_dropWhile {cs : List Char} {c : Char}
    (h : (cs.dropWhile isWhitespace).head? = some c) : isWhitespace c = false := by
  have := List.head?_dropWhile_not isWhitespace cs
  rwa [h] at this

theorem not_isWhitespace_of_head?_trim {cs : List Char} {c : Char}
    (h : (trim cs).head? = some c) : isWhitespace c = false := by
  obtain ⟨post, hpost, -⟩ := exists_trimEnd (cs.dropWhile isWhitespace)
  refine @not_isWhitespace_of_head?_dropWhile cs c ?_
  rw [hpost, List.head?_append]
  rw [trim] at h
  rw [h]
  rfl

theorem not_isWhitespace_of_getLast?_trim {cs : List Char} {c : Char}
    (h : (trim cs).getLast? = some c) : isWhitespace c = false := by
  rw [trim, trimEnd, List.getLast?_reverse] at h
  exact not_isWhitespace_of_head?_dropWhile h

/-- Dropping blanks stops at the first character that is none. -/
theorem dropWhile_append_of_head? {pre cs : List Char} (hpre : ∀ c ∈ pre, isWhitespace c = true)
    (hhead : ∀ c ∈ cs.head?, isWhitespace c = false) : (pre ++ cs).dropWhile isWhitespace = cs := by
  rw [List.dropWhile_append_of_pos hpre]
  cases cs with
  | nil => rfl
  | cons c cs => rw [List.dropWhile_cons_of_neg (by simp [hhead c rfl])]

/-- A text that neither starts nor ends with a blank is what is left of it between blanks. -/
theorem trim_append {pre cs post : List Char} (hpre : ∀ c ∈ pre, isWhitespace c = true)
    (hhead : ∀ c ∈ cs.head?, isWhitespace c = false)
    (hlast : ∀ c ∈ cs.getLast?, isWhitespace c = false)
    (hpost : ∀ c ∈ post, isWhitespace c = true) : trim (pre ++ cs ++ post) = cs := by
  cases cs with
  | nil =>
    have hnil := @dropWhile_append_of_head? (pre ++ post) []
      (fun c hc => (List.mem_append.1 hc).elim (hpre c) (hpost c)) (by simp)
    rw [List.append_nil] at hnil
    rw [List.append_nil, trim, hnil]
    rfl
  | cons c cs =>
    have hstart := @dropWhile_append_of_head? pre (c :: cs ++ post) hpre hhead
    have hend := @dropWhile_append_of_head? post.reverse (c :: cs).reverse
      (fun d hd => hpost d (List.mem_reverse.1 hd)) (by rwa [List.head?_reverse])
    rw [List.append_assoc, trim, hstart, trimEnd, List.reverse_append, hend, List.reverse_reverse]

/-- Between blanks there is nothing in a blank text, and only there. -/
theorem trim_eq_nil_iff {cs : List Char} : trim cs = [] ↔ ∀ c ∈ cs, isWhitespace c = true := by
  constructor
  · intro htrim
    obtain ⟨pre, post, hcs, hpre, hpost⟩ := exists_trim cs
    rw [htrim, List.append_nil] at hcs
    rw [hcs]
    exact fun c hc => (List.mem_append.1 hc).elim (hpre c) (hpost c)
  · intro hblank
    have htrim := @trim_append cs [] [] hblank (by simp) (by simp) (by simp)
    rwa [List.append_nil, List.append_nil] at htrim

theorem trim_trim (cs : List Char) : trim (trim cs) = trim cs := by
  have h := @trim_append [] (trim cs) [] (by simp) (fun _ => not_isWhitespace_of_head?_trim)
    (fun _ => not_isWhitespace_of_getLast?_trim) (by simp)
  rwa [List.nil_append, List.append_nil] at h

end HtmlQuery.Text
