import HtmlQuery.Reference.Decode
import HtmlQuery.Reference.Escape
import Mathlib.Tactic.SplitIfs

/-!
# Escaped text decodes to itself

Each escape is a reference that decoding replaces by the character it was written for, and no other character of an
escaped text is an ampersand (`decode_escapeText`, `decode_escapeValue`, `Escapes.ampersands`). The characters that
markup gives a meaning do not occur in it (`Escapes.not_mem`). Any text decodes to one that is no longer
(`length_decode_le`).
-/

namespace HtmlQuery.Reference

theorem decode_reference {rest after replacement : List Char}
    (h : reference? rest = some (replacement, after)) :
    decode ('&' :: rest) = replacement ++ decode after := by
  rw [decode, if_pos rfl]
  split
  · rename_i r a heq
    rw [h, Option.some.injEq, Prod.mk.injEq] at heq
    rw [heq.1, heq.2]
  · rename_i heq
    simp [h] at heq

theorem decode_no_reference {rest : List Char} (h : reference? rest = none) :
    decode ('&' :: rest) = '&' :: decode rest := by
  rw [decode, if_pos rfl]
  split
  · rename_i r a heq
    simp [h] at heq
  · rfl

/-- What a name stands for. -/
def nameValue (name : List Char) : List Char :=
  match lookup (String.ofList name) with
  | some c => [c]
  | none => '&' :: (name ++ [';'])

theorem named?_of_dropWhile {cs tail : List Char} (h : cs.dropWhile isAsciiAlphanumeric = ';' :: tail) :
    named? cs = some (nameValue (cs.takeWhile isAsciiAlphanumeric), tail) := by
  rw [named?, h, nameValue]
  dsimp only
  cases lookup (String.ofList (cs.takeWhile isAsciiAlphanumeric)) <;> rfl

/-- A letter begins names only. -/
theorem reference?_letter {cs : List Char} (h : cs.head?.any Text.isAsciiLetter = true) :
    reference? cs = named? cs := by
  unfold reference?
  split
  case h_4 c cs _ _ _ => exact if_pos h
  all_goals simp [Text.isAsciiLetter] at h

/-- A name before a semicolon is a reference. -/
theorem reference?_nameValue {name : List Char} (hletter : name.head?.any Text.isAsciiLetter = true)
    (hname : ∀ c ∈ name, isAsciiAlphanumeric c = true) (rest : List Char) :
    reference? (name ++ ';' :: rest) = some (nameValue name, rest) := by
  have htake : (name ++ ';' :: rest).takeWhile isAsciiAlphanumeric = name := by
    rw [List.takeWhile_append_of_pos hname, List.takeWhile_cons_of_neg (by decide), List.append_nil]
  have hdrop : (name ++ ';' :: rest).dropWhile isAsciiAlphanumeric = ';' :: rest := by
    rw [List.dropWhile_append_of_pos hname, List.dropWhile_cons_of_neg (by decide)]
  have hhead : (name ++ ';' :: rest).head?.any Text.isAsciiLetter = true := by
    cases name with
    | nil => simp at hletter
    | cons c name => exact hletter
  rw [reference?_letter hhead, named?_of_dropWhile hdrop, htake]

/-- A name of the table stands for its character. -/
theorem reference?_name {name rest : List Char} {c : Char}
    (hletter : name.head?.any Text.isAsciiLetter = true)
    (hname : name.all isAsciiAlphanumeric = true) (hlookup : lookup (String.ofList name) = some c) :
    reference? (name ++ ';' :: rest) = some ([c], rest) := by
  rw [reference?_nameValue hletter (List.all_eq_true.1 hname), nameValue, hlookup]

theorem decode_escapeTextChar (c : Char) (rest : List Char) :
    decode (escapeTextChar c ++ rest) = c :: decode rest := by
  unfold escapeTextChar
  split_ifs with hamp hlt hgt
  · subst hamp
    exact decode_reference (@reference?_name ['a', 'm', 'p'] rest '&' (by decide) (by decide) (by decide))
  · subst hlt
    exact decode_reference (@reference?_name ['l', 't'] rest '<' (by decide) (by decide) (by decide))
  · subst hgt
    exact decode_reference (@reference?_name ['g', 't'] rest '>' (by decide) (by decide) (by decide))
  · exact decode_cons_of_ne hamp rest

theorem decode_escapeValueChar (c : Char) (rest : List Char) :
    decode (escapeValueChar c ++ rest) = c :: decode rest := by
  unfold escapeValueChar
  split_ifs with hquot
  · subst hquot
    exact decode_reference
      (@reference?_name ['q', 'u', 'o', 't'] rest '"' (by decide) (by decide) (by decide))
  · exact decode_escapeTextChar c rest

section
variable {escape : Char → List Char} (h : ∀ c rest, decode (escape c ++ rest) = c :: decode rest)
include h

/-- A text that is escaped character by character decodes to itself. -/
theorem decode_flatMap (cs : List Char) : decode (cs.flatMap escape) = cs := by
  induction cs with
  | nil => rw [List.flatMap_nil, decode]
  | cons c cs ih => rw [List.flatMap_cons, h, ih]

end

theorem decode_escapeText (s : String) : decode (escapeText s).toList = s.toList := by
  rw [escapeText, String.toList_ofList, decode_flatMap decode_escapeTextChar]

theorem decode_escapeValue (s : String) : decode (escapeValue s).toList = s.toList := by
  rw [escapeValue, String.toList_ofList, decode_flatMap decode_escapeValueChar]

/-! ## Characters of escaped text -/

/-- The references that escaping writes. -/
def escapes : List (List Char) := ["&amp;".toList, "&lt;".toList, "&gt;".toList, "&quot;".toList]

/-- The marks, the ampersand among them, are written as references and all other characters as they are. -/
def Escapes (marks : List Char) (escape : Char → List Char) : Prop :=
  ∀ c, escape c ∈ escapes ∨ escape c = [c] ∧ c ∉ '&' :: marks

/-- Every ampersand of a text starts one of the references that escaping writes. -/
def EscapesAmpersands (cs : List Char) : Prop :=
  ∀ pre post, cs = pre ++ '&' :: post → ∃ text ∈ escapes, text <+: '&' :: post

theorem escapes_text : Escapes ['<', '>'] escapeTextChar := by
  intro c
  unfold escapeTextChar
  split_ifs with hamp hlt hgt
  · exact .inl (by decide)
  · exact .inl (by decide)
  · exact .inl (by decide)
  · exact .inr ⟨rfl, by simp [hamp, hlt, hgt]⟩

theorem escapes_value : Escapes ['<', '>', '"'] escapeValueChar := by
  intro c
  unfold escapeValueChar
  split_ifs with hquot
  · exact .inl (by decide)
  · refine (escapes_text c).imp id fun ⟨hsame, hc⟩ => ⟨hsame, ?_⟩
    simp_all

section
variable {marks : List Char} {escape : Char → List Char} (h : Escapes marks escape)
include h

/-- A mark that is in no reference is not in the text. -/
theorem Escapes.not_mem {c : Char} (hc : c ∈ marks) (hescapes : ∀ text ∈ escapes, c ∉ text) (cs : List Char) :
    c ∉ cs.flatMap escape := by
  intro hmem
  obtain ⟨d, -, hd⟩ := List.mem_flatMap.1 hmem
  rcases h d with hescape | ⟨hsame, hmarks⟩
  · exact hescapes _ hescape hd
  · rw [hsame, List.mem_singleton] at hd
    exact hmarks (List.mem_cons_of_mem _ (hd ▸ hc))

theorem Escapes.ampersands (cs : List Char) : EscapesAmpersands (cs.flatMap escape) := by
  have hbody : ∀ text ∈ escapes, ∃ body, text = '&' :: body ∧ '&' ∉ body := by
    simp [escapes]
  induction cs with
  | nil => exact fun pre post hcs => absurd hcs (by simp)
  | cons c cs ih =>
    intro pre post hcs
    rw [List.flatMap_cons] at hcs
    rcases h c with hescape | ⟨hsame, hmarks⟩
    · obtain ⟨body, hreference, hnot⟩ := hbody _ hescape
      cases pre with
      | nil => exact ⟨_, hescape, _, hcs⟩
      | cons d pre =>
        -- The ampersand is not the one that starts the reference, so it comes behind the reference.
        rw [hreference, List.cons_append, List.cons_append] at hcs
        rcases List.append_eq_append_iff.1 (List.cons.inj hcs).2 with ⟨between, -, hrest⟩ | ⟨between, hwithin, hrest⟩
        · exact ih between post hrest
        · cases between with
          | nil => exact ih [] post hrest.symm
          | cons e between =>
            obtain rfl : '&' = e := (List.cons.inj hrest).1
            exact absurd (hwithin ▸ by simp) hnot
    · rw [hsame, List.singleton_append] at hcs
      cases pre with
      | nil =>
        obtain rfl : c = '&' := (List.cons.inj hcs).1
        exact absurd List.mem_cons_self hmarks
      | cons d pre => exact ih pre post (List.cons.inj hcs).2

end

theorem not_mem_escapeText (s : String) : '<' ∉ (escapeText s).toList := by
  rw [escapeText, String.toList_ofList]
  exact escapes_text.not_mem (by decide) (by decide) _

theorem not_mem_escapeValue (s : String) : '"' ∉ (escapeValue s).toList := by
  rw [escapeValue, String.toList_ofList]
  exact escapes_value.not_mem (by decide) (by decide) _

/-- **Escaping hides markup and is undone by decoding.** Every text comes back from either way of escaping it. No
character with a meaning in markup is left in it, and every ampersand in it starts an escape. -/
theorem decode_escaped (s : String) : decodeString (escapeText s) = s ∧ decodeString (escapeValue s) = s ∧
    '<' ∉ (escapeText s).toList ∧ '>' ∉ (escapeText s).toList ∧
    '<' ∉ (escapeValue s).toList ∧ '>' ∉ (escapeValue s).toList ∧ '"' ∉ (escapeValue s).toList ∧
    EscapesAmpersands (escapeText s).toList ∧ EscapesAmpersands (escapeValue s).toList := by
  have htext : decodeString (escapeText s) = s := by rw [decodeString, decode_escapeText, String.ofList_toList]
  have hvalue : decodeString (escapeValue s) = s := by rw [decodeString, decode_escapeValue, String.ofList_toList]
  refine ⟨htext, hvalue, ?_⟩
  rw [escapeText, escapeValue, String.toList_ofList, String.toList_ofList]
  exact ⟨escapes_text.not_mem (by decide) (by decide) _, escapes_text.not_mem (by decide) (by decide) _,
    escapes_value.not_mem (by decide) (by decide) _, escapes_value.not_mem (by decide) (by decide) _,
    escapes_value.not_mem (by decide) (by decide) _, escapes_text.ampersands _, escapes_value.ampersands _⟩

/-- A text that looks escaped already, and one that a bare ampersand would turn into a reference. -/
example : escapeValue "&lt;" = "&amp;lt;" ∧ escapeText "&#60" = "&amp;#60" := by decide

theorem escapeTextChar_ne_nil (c : Char) : escapeTextChar c ≠ [] := by
  unfold escapeTextChar
  split_ifs <;> simp

theorem escapeText_ne_nil {s : String} (h : s ≠ "") : (escapeText s).toList ≠ [] := by
  obtain ⟨c, cs, hs⟩ := List.exists_cons_of_ne_nil (fun hnil => h (String.toList_eq_nil_iff.1 hnil))
  rw [escapeText, String.toList_ofList, hs, List.flatMap_cons]
  exact fun hnil => escapeTextChar_ne_nil c (List.append_eq_nil_iff.1 hnil).1

/-! ## Lengths -/

theorem numeric?_length {base : Nat} {isDigit : Char → Bool} {cs r rest : List Char}
    (h : numeric? base isDigit cs = some (r, rest)) : r.length + rest.length ≤ cs.length := by
  have hrest := numeric?_shorter h
  have hr : r.length ≤ 1 := by
    unfold numeric? at h
    split at h
    · split at h
      · exact absurd h.symm (Option.some_ne_none _)
      · obtain ⟨rfl, -⟩ := Prod.mk.inj (Option.some.inj h)
        exact Option.length_toList_le
    · exact absurd h.symm (Option.some_ne_none _)
  omega

theorem named?_length {cs r rest : List Char} (h : named? cs = some (r, rest)) :
    r.length + rest.length ≤ cs.length + 1 := by
  have hrest := named?_shorter h
  unfold named? at h
  split at h
  · rename_i tail htail
    dsimp only at h
    split at h
    · obtain ⟨rfl, -⟩ := Prod.mk.inj (Option.some.inj h)
      simp only [List.length_cons, List.length_nil]
      omega
    · obtain ⟨rfl, rfl⟩ := Prod.mk.inj (Option.some.inj h)
      have hparts := congrArg List.length (List.takeWhile_append_dropWhile (p := isAsciiAlphanumeric) (l := cs))
      rw [htail] at hparts
      simp only [List.length_append, List.length_cons, List.length_nil] at hparts ⊢
      omega
  · exact absurd h.symm (Option.some_ne_none _)

/-- What a reference stands for is no longer than the reference. -/
theorem reference?_length {cs r rest : List Char} (h : reference? cs = some (r, rest)) :
    r.length + rest.length ≤ cs.length + 1 := by
  unfold reference? at h
  split at h
  · exact Nat.le_trans (numeric?_length h) (by simp only [List.length_cons]; omega)
  · exact Nat.le_trans (numeric?_length h) (by simp only [List.length_cons]; omega)
  · exact Nat.le_trans (numeric?_length h) (by simp only [List.length_cons]; omega)
  · split at h
    · exact named?_length h
    · exact absurd h.symm (Option.some_ne_none _)
  · exact absurd h.symm (Option.some_ne_none _)

/-- Decoding makes no text longer. -/
theorem length_decode_le (cs : List Char) : (decode cs).length ≤ cs.length := by
  fun_induction decode cs with
  | case1 => exact Nat.le_refl _
  | case2 rest r after h ih =>
    have := reference?_length h
    rw [List.length_append, List.length_cons]
    omega
  | case3 rest h ih => simpa using ih
  | case4 c rest hc ih => simpa using ih

end HtmlQuery.Reference
