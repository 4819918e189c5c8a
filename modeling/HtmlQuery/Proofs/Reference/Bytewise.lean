import HtmlQuery.Proofs.Source.Bytewise

/-!
# Decoding by byte offsets

References are read and replaced with slices of the text at byte offsets. None of the slices fails, the loop over the
references goes round no more often than the text has characters, and what comes out is the decoded text
(`decode_eq`).
-/

namespace HtmlQuery.Bytewise

open Cursor

/-- The text up to a byte offset. -/
def upTo (n : Nat) (cs : List Char) : Option (List Char) := (cut? n cs).map (·.1)

/-- The text from a byte offset on. -/
def sliceFrom (n : Nat) (cs : List Char) : Option (List Char) := (cut? n cs).map (·.2)

/-- The longest run of characters that satisfy `p` in front of a text. -/
def leading (p : Char → Bool) (cs : List Char) : Option (List Char) :=
  upTo (utf8Length (cs.takeWhile p)) cs

/-- What the digits behind a number sign and a mark of `size` bytes stand for, and where the number ends. -/
def numeric (base : Nat) (isDigit : Char → Bool) (size : Nat) (input digits : List Char) :
    Option (Option (List Char × Nat)) := do
  let digits ← leading isDigit digits
  let stop := size + utf8Length digits
  if digits.isEmpty || (← sliceFrom stop input).head? ≠ some ';' then return none
  else return some ((Reference.numbered? base digits).toList, stop + 1)

/-- What the name behind the ampersand of `input` stands for, and where it ends. -/
def named (input name : List Char) : Option (Option (List Char × Nat)) := do
  let name ← leading Reference.isAsciiAlphanumeric name
  let stop := 1 + utf8Length name
  if (← sliceFrom stop input).head? ≠ some ';' then return none
  else
    let whole ← upTo (stop + 1) input
    return some (((Reference.lookup (String.ofList name)).map fun c => [c]).getD whole, stop + 1)

/-- What the reference at the start of a text stands for, and how many bytes it has. -/
def reference (input : List Char) : Option (Option (List Char × Nat)) := do
  match ← sliceFrom 1 input with
  | '#' :: 'x' :: digits => numeric 16 Reference.isHexDigit 3 input digits
  | '#' :: 'X' :: digits => numeric 16 Reference.isHexDigit 3 input digits
  | '#' :: digits => numeric 10 Text.isAsciiDigit 2 input digits
  | body => if body.head?.any Text.isAsciiLetter then named input body else return none

/-- A text with every reference replaced; each round reads up to an ampersand and what it begins. -/
def replace : Nat → List Char → Option (List Char)
  | 0, _ => none
  | rounds + 1, cs => do
    if '&' ∈ cs then
      let size := utf8Length (cs.takeWhile (· ≠ '&'))
      let before ← upTo size cs
      let input ← sliceFrom size cs
      match ← reference input with
      | some (replacement, size) => return before ++ replacement ++ (← replace rounds (← sliceFrom size input))
      | none => return before ++ '&' :: (← replace rounds (← sliceFrom 1 input))
    else return cs

/-- The text with every reference replaced. There are no more rounds than characters, and one at the end. -/
def decode (cs : List Char) : Option (List Char) := replace (cs.length + 1) cs

/-! ## References -/

variable {pre cs ds after : List Char}

theorem upTo_append (pre cs : List Char) : upTo (utf8Length pre) (pre ++ cs) = some pre := by
  rw [upTo, cut?_append]
  rfl

theorem sliceFrom_append (pre cs : List Char) : sliceFrom (utf8Length pre) (pre ++ cs) = some cs := by
  rw [sliceFrom, cut?_append]
  rfl

theorem leading_eq (p : Char → Bool) (cs : List Char) : leading p cs = some (cs.takeWhile p) := by
  have hupTo := upTo_append (cs.takeWhile p) (cs.dropWhile p)
  rwa [List.takeWhile_append_dropWhile] at hupTo

/-- What was found at the start of `input` stands for the text that `parts` says, and its bytes are those in front of
what `parts` leaves. -/
def Found (input : List Char) (parts : Option (List Char × List Char)) (found : Option (List Char × Nat)) : Prop :=
  match parts with
  | none => found = none
  | some (replacement, after) => ∃ read, input = read ++ after ∧ found = some (replacement, utf8Length read)

/-- Up to the end of the digits and the semicolon behind them, bytes and characters agree. -/
theorem numeric_found (base : Nat) (isDigit : Char → Bool) (mark ds : List Char) :
    ∃ found, numeric base isDigit (utf8Length mark) (mark ++ ds) ds = some found ∧
      Found (mark ++ ds) (Reference.numeric? base isDigit ds) found := by
  have hparts := List.takeWhile_append_dropWhile (p := isDigit) (l := ds)
  have hfrom : sliceFrom (utf8Length mark + utf8Length (ds.takeWhile isDigit)) (mark ++ ds) =
      some (ds.dropWhile isDigit) := by
    have hslice := sliceFrom_append (mark ++ ds.takeWhile isDigit) (ds.dropWhile isDigit)
    rwa [List.append_assoc, hparts, utf8Length_append] at hslice
  rw [numeric, leading_eq]
  dsimp only [Option.bind_eq_bind, Option.bind_some]
  rw [hfrom, Reference.numeric?]
  dsimp only [Option.bind_some]
  generalize ds.takeWhile isDigit = digits at hparts ⊢
  generalize ds.dropWhile isDigit = tail at hparts ⊢
  subst hparts
  cases tail with
  | nil => exact ⟨none, by simp, rfl⟩
  | cons c after =>
    by_cases hc : c = ';'
    · subst hc
      by_cases hnone : digits.isEmpty = true
      · exact ⟨none, by simp [hnone], by simp [Found, hnone]⟩
      · have hread : utf8Length (mark ++ digits ++ [';']) = utf8Length mark + utf8Length digits + 1 := by
          rw [utf8Length_append, utf8Length_append]
          rfl
        refine ⟨_, by simp only [hnone]; rfl, ?_⟩
        simp only [Found, hnone]
        exact ⟨mark ++ digits ++ [';'], by simp, by rw [hread]⟩
    · refine ⟨none, by simp [hc], ?_⟩
      split <;> simp_all [Found]

theorem named_found (cs : List Char) :
    ∃ found, named ('&' :: cs) cs = some found ∧ Found ('&' :: cs) (Reference.named? cs) found := by
  have hparts := List.takeWhile_append_dropWhile (p := Reference.isAsciiAlphanumeric) (l := cs)
  have hfrom : sliceFrom (1 + utf8Length (cs.takeWhile Reference.isAsciiAlphanumeric)) ('&' :: cs) =
      some (cs.dropWhile Reference.isAsciiAlphanumeric) := by
    have hslice := sliceFrom_append ('&' :: cs.takeWhile Reference.isAsciiAlphanumeric)
      (cs.dropWhile Reference.isAsciiAlphanumeric)
    rwa [List.cons_append, hparts] at hslice
  rw [named, leading_eq]
  dsimp only [Option.bind_eq_bind, Option.bind_some]
  rw [hfrom, Reference.named?]
  dsimp only [Option.bind_some]
  generalize cs.takeWhile Reference.isAsciiAlphanumeric = name at hparts ⊢
  generalize cs.dropWhile Reference.isAsciiAlphanumeric = tail at hparts ⊢
  subst hparts
  cases tail with
  | nil => exact ⟨none, by simp, rfl⟩
  | cons c after =>
    by_cases hc : c = ';'
    · subst hc
      have hread : utf8Length ('&' :: name ++ [';']) = 1 + utf8Length name + 1 := by
        rw [utf8Length_append]
        rfl
      have hwhole : upTo (1 + utf8Length name + 1) ('&' :: (name ++ ';' :: after)) = some ('&' :: name ++ [';']) := by
        have hslice := upTo_append ('&' :: name ++ [';']) after
        rwa [hread, List.append_assoc] at hslice
      rw [if_neg (by simp), hwhole]
      refine ⟨_, rfl, ?_⟩
      cases Reference.lookup (String.ofList name) <;>
        exact ⟨'&' :: name ++ [';'], by simp, by rw [hread]; rfl⟩
    · refine ⟨none, by simp [hc], ?_⟩
      split <;> simp_all [Found]

/-- A reference is read without a slice that fails. -/
theorem reference_found (cs : List Char) :
    ∃ found, reference ('&' :: cs) = some found ∧ Found ('&' :: cs) (Reference.reference? cs) found := by
  have hbody : sliceFrom 1 ('&' :: cs) = some cs := sliceFrom_append ['&'] cs
  rw [reference, hbody]
  dsimp only [Option.bind_eq_bind, Option.bind_some]
  fun_cases Reference.reference? cs with
  | case1 digits => exact numeric_found 16 Reference.isHexDigit ['&', '#', 'x'] digits
  | case2 digits => exact numeric_found 16 Reference.isHexDigit ['&', '#', 'X'] digits
  | case3 digits hx hX =>
    have hfound : ∃ found, numeric 10 Text.isAsciiDigit 2 ('&' :: '#' :: digits) digits = some found ∧
        Found ('&' :: '#' :: digits) (Reference.numeric? 10 Text.isAsciiDigit digits) found :=
      numeric_found 10 Text.isAsciiDigit ['&', '#'] digits
    split <;> simp_all
  | case4 c name hx hX hmark hletter =>
    have hfound := named_found (c :: name)
    split <;> simp_all
  | case5 c name hx hX hmark hletter =>
    split <;> simp_all [Found]
  | case6 => exact ⟨none, rfl, rfl⟩

/-! ## Decoding -/

theorem decode_append {before : List Char} (h : '&' ∉ before) (cs : List Char) :
    Reference.decode (before ++ cs) = before ++ Reference.decode cs := by
  induction before with
  | nil => rfl
  | cons c before ih =>
    rw [List.mem_cons, not_or] at h
    rw [List.cons_append, Reference.decode_cons_of_ne (Ne.symm h.1), ih h.2, List.cons_append]

theorem replace_eq {rounds : Nat} (h : cs.length ≤ rounds) : replace (rounds + 1) cs = some (Reference.decode cs) := by
  induction rounds generalizing cs with
  | zero =>
    obtain rfl := List.length_eq_zero_iff.1 (Nat.le_zero.1 h)
    rw [replace, if_neg List.not_mem_nil, Reference.decode_of_not_mem List.not_mem_nil]
    rfl
  | succ rounds ih =>
    rw [replace]
    by_cases hamp : '&' ∈ cs
    · obtain ⟨before, rest, rfl, hbefore⟩ := List.eq_append_cons_of_mem hamp
      have htake : (before ++ '&' :: rest).takeWhile (· ≠ '&') = before :=
        (Text.span_append (Token.ne_of_not_mem hbefore) (by simp)).1
      have hrest : rest.length ≤ rounds := by
        rw [List.length_append, List.length_cons] at h
        omega
      obtain ⟨found, hreference, hfound⟩ := reference_found rest
      rw [if_pos hamp, htake, decode_append hbefore]
      dsimp only
      rw [upTo_append, sliceFrom_append]
      dsimp only [Option.bind_eq_bind, Option.bind_some]
      rw [hreference]
      dsimp only [Option.bind_some]
      cases hparts : Reference.reference? rest with
      | none =>
        rw [hparts, Found] at hfound
        have hone : sliceFrom 1 ('&' :: rest) = some rest := sliceFrom_append ['&'] rest
        rw [hfound, Reference.decode_no_reference hparts]
        dsimp only
        rw [hone]
        dsimp only [Option.bind_some]
        rw [ih hrest]
        rfl
      | some parts =>
        obtain ⟨replacement, after⟩ := parts
        rw [hparts, Found] at hfound
        obtain ⟨read, hread, rfl⟩ := hfound
        have hlength := Reference.reference?_shorter hparts
        rw [Reference.decode_reference hparts, hread]
        dsimp only
        rw [sliceFrom_append]
        dsimp only [Option.bind_some]
        rw [ih (by omega)]
        simp
    · rw [if_neg hamp, Reference.decode_of_not_mem hamp]
      rfl

/-- Decoding with slices does not fail and gives the decoded text. -/
theorem decode_eq (cs : List Char) : decode cs = some (Reference.decode cs) := replace_eq (Nat.le_refl _)

end HtmlQuery.Bytewise
