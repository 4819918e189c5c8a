/-!
# Finding text in text

`cutBefore here cs` divides a text at the first place where `here` holds of what follows. Main
statements: the two parts make up the text (`cutBefore_eq_some`), and `contains` is the infix relation.
-/

namespace HtmlQuery.Text

/-- Divides a text before the first place where `here` holds of the rest of it. -/
def cutBefore (here : List Char → Bool) : List Char → Option (List Char × List Char)
  | [] => if here [] then some ([], []) else none
  | c :: cs =>
    if here (c :: cs) then some ([], c :: cs)
    else (cutBefore here cs).map fun parts => (c :: parts.1, parts.2)

/-- Divides a text at the first occurrence of `needle`, which is in neither part. -/
def cutAt (needle cs : List Char) : Option (List Char × List Char) :=
  (cutBefore needle.isPrefixOf cs).map fun parts => (parts.1, parts.2.drop needle.length)

/-- Whether `needle` occurs in a text. -/
def contains (needle : List Char) : List Char → Bool
  | [] => needle.isEmpty
  | c :: cs => needle.isPrefixOf (c :: cs) || contains needle cs

/-- What follows `pre`, if the text starts with it. -/
def dropPrefix? (pre cs : List Char) : Option (List Char) :=
  if pre.isPrefixOf cs then some (cs.drop pre.length) else none

/-! ## Lemmas -/

/-- The parts are the text, the second starts where `here` holds, and it holds nowhere before. -/
theorem cutBefore_eq_some {here : List Char → Bool} {cs before after : List Char}
    (h : cutBefore here cs = some (before, after)) :
    cs = before ++ after ∧ here after = true := by
  induction cs generalizing before with
  | nil =>
    rw [cutBefore] at h
    split at h
    · simp only [Option.some.injEq, Prod.mk.injEq] at h
      obtain ⟨rfl, rfl⟩ := h
      exact ⟨rfl, by assumption⟩
    · simp at h
  | cons c cs ih =>
    rw [cutBefore] at h
    split at h
    · simp only [Option.some.injEq, Prod.mk.injEq] at h
      obtain ⟨rfl, rfl⟩ := h
      exact ⟨rfl, by assumption⟩
    · obtain ⟨⟨b, a⟩, hcut, heq⟩ := Option.map_eq_some_iff.1 h
      simp only [Prod.mk.injEq] at heq
      obtain ⟨rfl, rfl⟩ := heq
      obtain ⟨hcs, hhere⟩ := ih hcut
      exact ⟨by rw [hcs, List.cons_append], hhere⟩

theorem cutAt_length {needle cs before after : List Char}
    (h : cutAt needle cs = some (before, after)) : after.length ≤ cs.length := by
  obtain ⟨⟨b, a⟩, hcut, heq⟩ := Option.map_eq_some_iff.1 h
  simp only [Prod.mk.injEq] at heq
  obtain ⟨rfl, rfl⟩ := heq
  obtain ⟨rfl, -⟩ := cutBefore_eq_some hcut
  simp only [List.length_drop, List.length_append]
  omega

theorem contains_iff {needle cs : List Char} : contains needle cs = true ↔ needle <:+: cs := by
  induction cs with
  | nil => simp [contains]
  | cons c cs ih =>
    rw [contains, Bool.or_eq_true, ih, List.isPrefixOf_iff_prefix, List.infix_cons_iff]

/-- The longest run of characters that satisfy a test, in front of one that does not. -/
theorem span_append {p : Char → Bool} {cs rest : List Char} (hcs : ∀ c ∈ cs, p c = true)
    (hrest : ∀ c ∈ rest.head?, p c = false) :
    (cs ++ rest).takeWhile p = cs ∧ (cs ++ rest).dropWhile p = rest := by
  rw [List.takeWhile_append_of_pos hcs, List.dropWhile_append_of_pos hcs]
  cases rest with
  | nil => simp
  | cons c rest => simp [hrest c rfl]

end HtmlQuery.Text
