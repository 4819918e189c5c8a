import HtmlQuery.Proofs.Reference.SinglePass
import HtmlQuery.Proofs.Token.Scanned
import Mathlib.Data.List.Infix

/-!
# The text of markup

`Token.prose` is what is left of a markup when it is read with no element verbatim and all but text is dropped. Text
that is escaped comes back whole (`prose_escapeText`), and each other construct that is written leaves nothing
(`prose_comment`, `prose_doctype`, `prose_openTag`, `prose_closing`). Text that goes into markup as it stands is
decoded, whatever is around it, as long as no `<` in it begins markup (`prose_verbatim`).
-/

namespace HtmlQuery.Token

/-! ## Text and what is dropped -/

/-- The text that a token is; other tokens have none. -/
def textOf : Option Token → List Char
  | some (text data) => data.toList
  | _ => []

/-- The text of the tokens of a markup in which no element is verbatim. -/
def prose (fold : Folding) : List Char → List Char
  | [] => []
  | c :: cs => textOf (scan fold (c :: cs)).1 ++ prose fold (scan fold (c :: cs)).2
termination_by cs => cs.length
decreasing_by exact scan_shorter fold c cs

/-- Whether a `<` in front of a text begins a tag, a comment, a declaration or an instruction. -/
def opensMarkup : List Char → Bool
  | '<' :: c :: _ => isTagNameChar c || c = '/' || c = '!' || c = '?'
  | _ => false

/-- Markup begins somewhere in a text. -/
def HoldsMarkup (cs : List Char) : Prop := ∃ post, post <:+ cs ∧ opensMarkup post = true

instance (cs : List Char) : Decidable (HoldsMarkup cs) :=
  decidable_of_iff (∃ post ∈ cs.tails, opensMarkup post = true) (by simp [HoldsMarkup])

variable {fold : Folding} {cs rest : List Char} {token : Option Token}

theorem prose_nil : prose fold [] = [] := by rw [prose]

theorem prose_of_scan (hne : cs ≠ []) (h : scan fold cs = (token, rest)) :
    prose fold cs = textOf token ++ prose fold rest := by
  cases cs with
  | nil => exact absurd rfl hne
  | cons c cs => rw [prose, h]

/-! ## The three ways to go on -/

/-- A run of text is read up to the next `<`. -/
theorem scan_run {c : Char} (hc : c ≠ '<') : scan fold (c :: cs) =
    (some (text (String.ofList (Reference.decode ((c :: cs).takeWhile (· ≠ '<'))))),
      (c :: cs).dropWhile (· ≠ '<')) := by
  rw [scan]
  · rfl
  · intro tail heq
    exact hc (List.cons.inj heq).1

theorem tagName_eq_empty_iff : tagName fold cs = "" ↔ ∀ c ∈ cs.head?, isTagNameChar c = false := by
  have hempty : tagName fold cs = "" ↔ cs.takeWhile isTagNameChar = [] := by
    rw [tagName]
    split <;> simp [Text.lowerAscii]
  rw [hempty]
  cases cs with
  | nil => simp
  | cons c cs => cases hc : isTagNameChar c <;> simp [hc]

/-- A `<` that begins nothing is text. -/
theorem scan_lone (h : opensMarkup ('<' :: cs) = false) : scan fold ('<' :: cs) = (some (text "<"), cs) := by
  have hlone : (∀ c ∈ cs.head?, isTagNameChar c = false) →
      (scanStartTag fold cs).map some id = (some (text "<"), cs) := by
    intro hhead
    rcases scanStartTag_cases fold cs with ⟨-, htext⟩ | ⟨hname, -⟩
    · rw [htext]
      rfl
    · exact absurd (tagName_eq_empty_iff.2 hhead) hname
  cases cs with
  | nil => exact hlone nofun
  | cons c cs =>
    simp only [opensMarkup, Bool.or_eq_false_iff, decide_eq_false_iff_not] at h
    obtain ⟨⟨⟨hname, hslash⟩, hbang⟩, hquestion⟩ := h
    rw [scan_name hbang hslash hquestion]
    exact hlone (by simpa using hname)

/-! ## Text that holds no markup -/

theorem holdsMarkup_cons {c : Char} : HoldsMarkup (c :: cs) ↔ opensMarkup (c :: cs) = true ∨ HoldsMarkup cs := by
  simp only [HoldsMarkup, List.suffix_cons_iff]
  constructor
  · rintro ⟨post, rfl | hpost, hopens⟩
    · exact .inl hopens
    · exact .inr ⟨post, hpost, hopens⟩
  · rintro (hopens | ⟨post, hpost, hopens⟩)
    · exact ⟨_, .inl rfl, hopens⟩
    · exact ⟨post, .inr hpost, hopens⟩

theorem opensMarkup_of_ne {c : Char} (hc : c ≠ '<') : opensMarkup (c :: cs) = false := by
  unfold opensMarkup
  split
  · rename_i heq
    exact absurd (List.cons.inj heq).1 hc
  · rfl

/-- Markup begins behind the run of text in front. -/
theorem holdsMarkup_dropWhile : HoldsMarkup (cs.dropWhile (· ≠ '<')) ↔ HoldsMarkup cs := by
  induction cs with
  | nil => exact Iff.rfl
  | cons c cs ih =>
    by_cases hc : c = '<'
    · rw [List.dropWhile_cons_of_neg (by simpa using hc)]
    · rw [List.dropWhile_cons_of_pos (by simpa using hc), ih, holdsMarkup_cons, opensMarkup_of_ne hc]
      exact (or_iff_right Bool.false_ne_true).symm

theorem prose_run {c : Char} (hc : c ≠ '<') : prose fold (c :: cs) =
    Reference.decode ((c :: cs).takeWhile (· ≠ '<')) ++ prose fold ((c :: cs).dropWhile (· ≠ '<')) := by
  rw [prose_of_scan (List.cons_ne_nil c cs) (scan_run hc), textOf, String.toList_ofList]

theorem prose_lone (h : opensMarkup ('<' :: cs) = false) : prose fold ('<' :: cs) = '<' :: prose fold cs :=
  prose_of_scan (List.cons_ne_nil '<' cs) (scan_lone h)

/-- Markup ends a run of text. -/
theorem span_atMarkup (hrest : AtMarkup rest) (cs : List Char) :
    (cs ++ rest).takeWhile (· ≠ '<') = cs.takeWhile (· ≠ '<') ∧
      (cs ++ rest).dropWhile (· ≠ '<') = cs.dropWhile (· ≠ '<') ++ rest := by
  induction cs with
  | nil =>
    cases rest with
    | nil => exact ⟨rfl, rfl⟩
    | cons d ds =>
      obtain rfl := hrest d rfl
      exact ⟨rfl, rfl⟩
  | cons c cs ih =>
    by_cases hc : c = '<'
    · subst hc
      exact ⟨rfl, rfl⟩
    · simpa [hc] using ih

theorem opensMarkup_append (h : opensMarkup ('<' :: cs) = false) (hrest : AtMarkup rest) :
    opensMarkup ('<' :: (cs ++ rest)) = false := by
  cases cs with
  | nil =>
    cases rest with
    | nil => rfl
    | cons d ds =>
      obtain rfl := hrest d rfl
      rfl
  | cons c cs => exact h

/-- No reference goes on over the end of a run of text. -/
theorem decode_span (cs : List Char) : Reference.decode (cs.takeWhile (· ≠ '<')) ++
    Reference.decode (cs.dropWhile (· ≠ '<')) = Reference.decode cs := by
  have hrun : ∀ c ∈ (cs.dropWhile (· ≠ '<')).head?, ¬ Reference.GoesOn c := by
    intro c hc
    have hhead := List.head?_dropWhile_not (· ≠ '<') cs
    rw [Option.mem_def.1 hc] at hhead
    obtain rfl : c = '<' := by simpa using hhead
    unfold Reference.GoesOn
    decide
  rw [← Reference.decode_append hrun, List.takeWhile_append_dropWhile]

/-- Text without markup in it is decoded, whatever markup is behind it. -/
theorem prose_verbatim {data : List Char} (h : ¬ HoldsMarkup data) (hrest : AtMarkup rest) :
    prose fold (data ++ rest) = Reference.decode data ++ prose fold rest := by
  induction hl : data.length using Nat.strongRecOn generalizing data with
  | _ _ ih =>
    subst hl
    cases data with
    | nil => rw [Reference.decode, List.nil_append, List.nil_append]
    | cons c cs =>
      by_cases hc : c = '<'
      · subst hc
        rw [holdsMarkup_cons, not_or, Bool.not_eq_true] at h
        rw [List.cons_append, prose_lone (opensMarkup_append h.1 hrest), Reference.decode_cons_of_ne (by decide),
          ih cs.length (Nat.lt_succ_self _) h.2 rfl, List.cons_append]
      · obtain ⟨htake, hdrop⟩ := span_atMarkup hrest (c :: cs)
        have hshorter : ((c :: cs).dropWhile (· ≠ '<')).length < (c :: cs).length :=
          dropWhile_shorter (by simp [hc])
        rw [List.cons_append] at htake hdrop
        rw [List.cons_append, prose_run hc, htake, hdrop, ih _ hshorter (mt holdsMarkup_dropWhile.1 h) rfl,
          ← List.append_assoc, decode_span]

/-! ## What is written -/

theorem prose_escapeText (data : String) (hrest : AtMarkup rest) :
    prose fold ((Reference.escapeText data).toList ++ rest) = data.toList ++ prose fold rest := by
  by_cases hdata : data = ""
  · rw [hdata]
    rfl
  · have hne : (Reference.escapeText data).toList ++ rest ≠ [] :=
      List.append_ne_nil_of_left_ne_nil (Reference.escapeText_ne_nil hdata) rest
    exact prose_of_scan hne (scan_text hdata hrest)

theorem prose_comment {data : String} (h : Text.contains ['-', '-', '>'] data.toList = false) :
    prose fold ('<' :: '!' :: '-' :: '-' :: (data.toList ++ '-' :: '-' :: '>' :: rest)) = prose fold rest :=
  prose_of_scan (List.cons_ne_nil _ _) (scan_comment h)

theorem prose_doctype {data : List Char} (htrim : Text.trim data = data) (hend : '>' ∉ data) :
    prose fold ("<!DOCTYPE ".toList ++ data ++ '>' :: rest) = prose fold rest :=
  prose_of_scan (by simp) (scan_doctype htrim hend)

section
variable {e : Element} (htag : SpelledTag e.tag) (hnames : ∀ a ∈ e.attributes.toList, SpelledName a.name)

include htag in
theorem prose_closing : prose fold (closing e.tag ++ '>' :: rest) = prose fold rest :=
  prose_of_scan (by simp [closing]) (scan_closing htag)

include htag hnames in
theorem prose_openTag {d : Dialect} (hd : d ≠ .minimal) :
    prose fold (openTag d e ++ '>' :: rest) = prose fold rest ∧
      prose fold (openTag d e ++ ' ' :: '/' :: '>' :: rest) = prose fold rest := by
  obtain ⟨hopen, hempty⟩ := scan_openTag_folded (fun a _ => Dialect.preserves_of_ne hd a) htag hnames
  exact ⟨prose_of_scan (by simp) hopen, prose_of_scan (by simp) hempty⟩

end

end HtmlQuery.Token
