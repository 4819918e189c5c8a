import HtmlQuery.Proofs.Reference.Bytewise
import Mathlib.Data.Nat.Digits.Defs
import Mathlib.Tactic.Ring

/-!
# Decoding in a single pass

`StandsFor` says which texts are references and what each of them stands for, with numbers of any size. `Rewrites` is
the rewriting from left to right that replaces references, copies what begins none and does not look at a replacement
again. Numbers are read with a check for 32 bits, which turns away no number that has a character (`numbered?_eq`).
What is read as a reference is one (`standsFor_of_reference?`) and every reference is read (`reference?_of_standsFor`),
so decoding is that rewriting (`rewrites_iff`). No reference goes on with a character that none of them holds, so a text
may be cut in front of such a character (`Rewrites.append`).
-/

namespace HtmlQuery.Reference

/-! ## The rewriting -/

/-- A name: a letter and any letters and digits behind it. -/
def IsName (name : List Char) : Prop :=
  name.head?.any Text.isAsciiLetter = true ∧ ∀ c ∈ name, isAsciiAlphanumeric c = true

/-- The digits write the number in the base, the highest first. Letters among them have either case. -/
def Writes (base n : Nat) (digits : List Char) : Prop :=
  ∃ ds : List Nat, (∀ d ∈ ds, d < base) ∧ digits.map Char.toLower = ds.map Nat.digitChar ∧
    n = Nat.ofDigits base ds.reverse

/-- What a code stands for: the character that has it, and nothing where none has it and for zero. -/
inductive Codes (n : Nat) : List Char → Prop
  | char {c : Char} (hc : c.toNat = n) (hn : n ≠ 0) : Codes n [c]
  | nothing (h : ∀ c : Char, c.toNat = n → n = 0) : Codes n []

/-- A complete reference, and what it stands for. -/
inductive StandsFor : List Char → List Char → Prop
  /-- A name of the table. -/
  | known {name : List Char} {c : Char} (hname : IsName name) (hc : lookup (String.ofList name) = some c) :
    StandsFor ('&' :: (name ++ [';'])) [c]
  /-- Any other name, which stands for itself. -/
  | unknown {name : List Char} (hname : IsName name) (hnone : lookup (String.ofList name) = none) :
    StandsFor ('&' :: (name ++ [';'])) ('&' :: (name ++ [';']))
  /-- A number in base ten. -/
  | decimal {digits r : List Char} {n : Nat} (hne : digits ≠ []) (hn : Writes 10 n digits) (hr : Codes n r) :
    StandsFor ('&' :: '#' :: (digits ++ [';'])) r
  /-- A number in base sixteen. -/
  | hexadecimal {x : Char} {digits r : List Char} {n : Nat} (hx : x = 'x' ∨ x = 'X') (hne : digits ≠ [])
    (hn : Writes 16 n digits) (hr : Codes n r) : StandsFor ('&' :: '#' :: x :: (digits ++ [';'])) r

/-- Rewriting from left to right: a reference is replaced and its replacement is done with, and a character at which
no reference begins is copied. -/
inductive Rewrites : List Char → List Char → Prop
  | nil : Rewrites [] []
  | reference {text r rest out : List Char} (h : StandsFor text r) (hrest : Rewrites rest out) :
    Rewrites (text ++ rest) (r ++ out)
  | copy {c : Char} {rest out : List Char} (h : ∀ text r, StandsFor text r → ¬ text <+: c :: rest)
    (hrest : Rewrites rest out) : Rewrites (c :: rest) (c :: out)

/-! ## Digits -/

/-- `isDigit` tells the digits of a base, and `digitValue` which ones they are. -/
def TellsDigits (base : Nat) (isDigit : Char → Bool) : Prop :=
  ∀ c d, isDigit c = true ∧ digitValue c = d ↔ d < base ∧ c.toLower = Nat.digitChar d

theorem digitChar_ascii {d : Nat} (h : d < 16) : (Nat.digitChar d).toNat < 0x80 := by
  revert d
  decide

/-- Digits of a base up to sixteen are ASCII, so it is enough to look at the ASCII characters. -/
theorem tellsDigits_of_ascii {base : Nat} {isDigit : Char → Bool} (hbase : base ≤ 16)
    (hdigit : ∀ c, isDigit c = true → c.toNat < 0x80)
    (h : ∀ n < 0x80, (isDigit (Char.ofNat n) = true → digitValue (Char.ofNat n) < base) ∧ ∀ d < base,
      (isDigit (Char.ofNat n) = true ∧ digitValue (Char.ofNat n) = d ↔ (Char.ofNat n).toLower = Nat.digitChar d)) :
    TellsDigits base isDigit := by
  intro c d
  by_cases hc : c.toNat < 0x80
  · obtain ⟨hvalue, hiff⟩ := Text.forall_ascii (p := fun c => (isDigit c = true → digitValue c < base) ∧ ∀ d < base,
      (isDigit c = true ∧ digitValue c = d ↔ c.toLower = Nat.digitChar d)) h hc
    constructor
    · rintro ⟨hd, rfl⟩
      exact ⟨hvalue hd, (hiff _ (hvalue hd)).1 ⟨hd, rfl⟩⟩
    · rintro ⟨hd, hlower⟩
      exact (hiff d hd).2 hlower
  · refine iff_of_false (fun hboth => hc (hdigit c hboth.1)) fun hboth => hc ?_
    rw [← Bytewise.toLower_of_not_ascii (Nat.not_lt.1 hc), hboth.2]
    exact digitChar_ascii (Nat.lt_of_lt_of_le hboth.1 hbase)

theorem isHexDigit_ascii {c : Char} (h : isHexDigit c = true) : c.toNat < 0x80 := by
  simp only [isHexDigit, Text.isAsciiDigit, Bool.or_eq_true, Bool.and_eq_true, decide_eq_true_eq, Char.le_def,
    UInt32.le_iff_toNat_le] at h
  have h9 : '9'.val.toNat = 57 := rfl
  have hf : 'f'.val.toNat = 102 := rfl
  have hF : 'F'.val.toNat = 70 := rfl
  have hval : c.val.toNat = c.toNat := rfl
  omega

theorem isAlphanumeric_of_hexDigit {c : Char} (h : isHexDigit c = true) : isAsciiAlphanumeric c = true :=
  Text.forall_ascii (p := fun c => isHexDigit c = true → isAsciiAlphanumeric c = true)
    (by decide +kernel) (isHexDigit_ascii h) h

theorem tellsDigits_ten : TellsDigits 10 Text.isAsciiDigit :=
  tellsDigits_of_ascii (by decide) (fun c h => isHexDigit_ascii (by simp [isHexDigit, h])) (by decide +kernel)

theorem tellsDigits_sixteen : TellsDigits 16 isHexDigit :=
  tellsDigits_of_ascii (by decide) (fun c h => isHexDigit_ascii h) (by decide +kernel)

section
variable {base : Nat} {isDigit : Char → Bool} {digits : List Char}

theorem TellsDigits.map_iff (h : TellsDigits base isDigit) {ds : List Nat} :
    (∀ d ∈ ds, d < base) ∧ digits.map Char.toLower = ds.map Nat.digitChar ↔
      (∀ c ∈ digits, isDigit c = true) ∧ digits.map digitValue = ds := by
  induction digits generalizing ds with
  | nil => cases ds <;> simp
  | cons c digits ih =>
    cases ds with
    | nil => simp
    | cons d ds =>
      have hc := h c d
      have hdigits := @ih ds
      simp only [List.forall_mem_cons, List.map_cons, List.cons.injEq]
      tauto

/-- Digits write one number, which is the sum of their values by their places. -/
theorem TellsDigits.writes_iff (h : TellsDigits base isDigit) {n : Nat} : Writes base n digits ↔
    (∀ c ∈ digits, isDigit c = true) ∧ n = Nat.ofDigits base (digits.map digitValue).reverse := by
  constructor
  · rintro ⟨ds, hbound, hdigits, rfl⟩
    obtain ⟨hall, rfl⟩ := h.map_iff.1 ⟨hbound, hdigits⟩
    exact ⟨hall, rfl⟩
  · rintro ⟨hall, rfl⟩
    obtain ⟨hbound, hdigits⟩ := h.map_iff.2 ⟨hall, rfl⟩
    exact ⟨_, hbound, hdigits, rfl⟩

end

/-! ## Numbers and codes -/

/-- Checking every step turns away the numbers that are too large in the end, and no others. -/
theorem foldlM_addDigit? {base n : Nat} (hbase : 0 < base) (hn : n < UInt32.size) (digits : List Char) :
    digits.foldlM (addDigit? base) n =
      if n * base ^ digits.length + Nat.ofDigits base (digits.map digitValue).reverse < UInt32.size then
        some (n * base ^ digits.length + Nat.ofDigits base (digits.map digitValue).reverse)
      else none := by
  induction digits generalizing n with
  | nil =>
    have hsame : n * base ^ ([] : List Char).length +
        Nat.ofDigits base (([] : List Char).map digitValue).reverse = n := by simp
    rw [hsame, if_pos hn]
    rfl
  | cons c digits ih =>
    have hvalue : n * base ^ (c :: digits).length + Nat.ofDigits base ((c :: digits).map digitValue).reverse =
        (n * base + digitValue c) * base ^ digits.length + Nat.ofDigits base (digits.map digitValue).reverse := by
      rw [List.map_cons, Nat.ofDigits_reverse_cons, List.length_map, List.length_cons]
      ring
    rw [hvalue, List.foldlM_cons, addDigit?]
    split
    · rename_i hfits
      exact ih hfits
    · rename_i hlarge
      have hgrows : n * base + digitValue c ≤ (n * base + digitValue c) * base ^ digits.length :=
        Nat.le_mul_of_pos_right _ (Nat.pow_pos hbase)
      rw [if_neg (by omega)]
      rfl

theorem codes_iff {n : Nat} {r : List Char} : Codes n r ↔ r = (scalar? n).toList := by
  constructor
  · intro hcodes
    cases hcodes with
    | char hc hn =>
      subst hc
      rw [scalar?, if_pos ⟨hn, Char.valid _⟩, Char.ofNat_toNat, Option.toList_some]
    | nothing hnone =>
      rw [scalar?, if_neg fun ⟨hn, hvalid⟩ => hn (hnone _ (Text.toNat_ofNat hvalid)), Option.toList_none]
  · rintro rfl
    rw [scalar?]
    split
    · rename_i hcode
      exact .char (Text.toNat_ofNat hcode.2) hcode.1
    · rename_i hcode
      refine .nothing fun c hc => by_contra fun hn => hcode ⟨hn, ?_⟩
      exact hc ▸ c.valid

/-- The check for 32 bits costs no character. -/
theorem numbered?_eq {base : Nat} (hbase : 0 < base) (digits : List Char) :
    numbered? base digits = scalar? (Nat.ofDigits base (digits.map digitValue).reverse) := by
  have hnumber := foldlM_addDigit? hbase (n := 0) (by decide) digits
  rw [Nat.zero_mul, Nat.zero_add] at hnumber
  rw [numbered?, number?, hnumber]
  split
  · rfl
  · rename_i hlarge
    refine (if_neg fun ⟨_, hvalid⟩ => hlarge ?_).symm
    have hsize : UInt32.size = 4294967296 := rfl
    rcases hvalid with hvalid | hvalid <;> omega

/-! ## References -/

section
variable {base : Nat} {isDigit : Char → Bool} {cs r rest : List Char}

/-- A run and the character behind it, which does not go on with it. -/
theorem span_eq_iff {p : Char → Bool} {c : Char} (hc : p c = false) {pre : List Char} :
    cs.takeWhile p = pre ∧ cs.dropWhile p = c :: rest ↔ (∀ d ∈ pre, p d = true) ∧ cs = pre ++ c :: rest := by
  constructor
  · rintro ⟨rfl, hdrop⟩
    refine ⟨fun d hd => Text.of_mem_takeWhile hd, ?_⟩
    rw [← hdrop, List.takeWhile_append_dropWhile]
  · rintro ⟨hall, rfl⟩
    exact Text.span_append hall (by simp [hc])

theorem numeric?_of_dropWhile {tail : List Char} (h : cs.dropWhile isDigit = ';' :: tail)
    (hne : cs.takeWhile isDigit ≠ []) :
    numeric? base isDigit cs = some ((numbered? base (cs.takeWhile isDigit)).toList, tail) := by
  rw [numeric?, h]
  exact if_neg fun hempty => hne (List.isEmpty_iff.1 hempty)

theorem numeric?_eq_some_iff (h : TellsDigits base isDigit) (hbase : 0 < base) (hsemicolon : isDigit ';' = false) :
    numeric? base isDigit cs = some (r, rest) ↔
      ∃ digits n, digits ≠ [] ∧ Writes base n digits ∧ Codes n r ∧ cs = digits ++ ';' :: rest := by
  constructor
  · intro hread
    obtain ⟨tail, htail, hne⟩ : ∃ tail, cs.dropWhile isDigit = ';' :: tail ∧ cs.takeWhile isDigit ≠ [] := by
      unfold numeric? at hread
      split at hread
      · split at hread
        · exact absurd hread.symm (Option.some_ne_none _)
        · rename_i htail hne
          exact ⟨_, htail, fun hnil => hne (List.isEmpty_iff.2 hnil)⟩
      · exact absurd hread.symm (Option.some_ne_none _)
    rw [numeric?_of_dropWhile htail hne, Option.some.injEq, Prod.mk.injEq] at hread
    obtain ⟨rfl, rfl⟩ := hread
    obtain ⟨hall, hcs⟩ := (span_eq_iff hsemicolon).1 ⟨rfl, htail⟩
    exact ⟨_, _, hne, h.writes_iff.2 ⟨hall, rfl⟩, codes_iff.2 (by rw [numbered?_eq hbase]), hcs⟩
  · rintro ⟨digits, n, hne, hn, hr, hcs⟩
    obtain ⟨hall, rfl⟩ := h.writes_iff.1 hn
    obtain ⟨htake, hdrop⟩ := (span_eq_iff hsemicolon).2 ⟨hall, hcs⟩
    rw [numeric?_of_dropWhile hdrop (htake ▸ hne), htake, numbered?_eq hbase, codes_iff.1 hr]

end

variable {cs r rest : List Char}

theorem named?_eq_some_iff : named? cs = some (r, rest) ↔ ∃ name : List Char,
    (∀ c ∈ name, isAsciiAlphanumeric c = true) ∧ r = nameValue name ∧ cs = name ++ ';' :: rest := by
  constructor
  · intro h
    obtain ⟨tail, htail⟩ : ∃ tail, cs.dropWhile isAsciiAlphanumeric = ';' :: tail := by
      unfold named? at h
      split at h
      · exact ⟨_, ‹_›⟩
      · exact absurd h.symm (Option.some_ne_none _)
    rw [named?_of_dropWhile htail, Option.some.injEq, Prod.mk.injEq] at h
    obtain ⟨rfl, rfl⟩ := h
    obtain ⟨hall, hcs⟩ := (span_eq_iff (by decide)).1 ⟨rfl, htail⟩
    exact ⟨_, hall, rfl, hcs⟩
  · rintro ⟨name, hall, rfl, hcs⟩
    obtain ⟨htake, hdrop⟩ := (span_eq_iff (by decide)).2 ⟨hall, hcs⟩
    rw [named?_of_dropWhile hdrop, htake]

theorem standsFor_name {name : List Char} (hname : IsName name) :
    StandsFor ('&' :: (name ++ [';'])) (nameValue name) := by
  rw [nameValue]
  split
  · rename_i c hc
    exact .known hname hc
  · rename_i hnone
    exact .unknown hname hnone

theorem reference?_decimal (hx : cs.head? ≠ some 'x') (hX : cs.head? ≠ some 'X') :
    reference? ('#' :: cs) = numeric? 10 Text.isAsciiDigit cs := by
  rw [reference?]
  · rintro tail rfl
    exact hx rfl
  · rintro tail rfl
    exact hX rfl

/-- What is read behind an ampersand is a reference. -/
theorem standsFor_of_reference? (h : reference? cs = some (r, rest)) :
    ∃ text, StandsFor text r ∧ '&' :: cs = text ++ rest := by
  have hsixteen := fun digits => @numeric?_eq_some_iff _ _ digits r rest tellsDigits_sixteen (by decide) (by decide)
  have hten := fun digits => @numeric?_eq_some_iff _ _ digits r rest tellsDigits_ten (by decide) (by decide)
  unfold reference? at h
  split at h
  case h_1 =>
    obtain ⟨digits, n, hne, hn, hr, rfl⟩ := (hsixteen _).1 h
    exact ⟨_, .hexadecimal (.inl rfl) hne hn hr, by simp⟩
  case h_2 =>
    obtain ⟨digits, n, hne, hn, hr, rfl⟩ := (hsixteen _).1 h
    exact ⟨_, .hexadecimal (.inr rfl) hne hn hr, by simp⟩
  case h_3 =>
    obtain ⟨digits, n, hne, hn, hr, rfl⟩ := (hten _).1 h
    exact ⟨_, .decimal hne hn hr, by simp⟩
  case h_4 c cs _ _ _ =>
    split at h
    · rename_i hletter
      obtain ⟨name, hname, rfl, hcs⟩ := named?_eq_some_iff.1 h
      refine ⟨_, standsFor_name ⟨?_, hname⟩, by simp [hcs]⟩
      cases name with
      | nil =>
        obtain rfl : c = ';' := (List.cons.inj hcs).1
        exact absurd hletter (by decide)
      | cons d name =>
        obtain rfl : c = d := (List.cons.inj hcs).1
        exact hletter
    · exact absurd h.symm (Option.some_ne_none _)
  case h_5 => exact absurd h.symm (Option.some_ne_none _)

/-- Every reference is read, whatever comes behind it. -/
theorem reference?_of_standsFor {text : List Char} (h : StandsFor text r) (rest : List Char) :
    ∃ body, text = '&' :: body ∧ reference? (body ++ rest) = some (r, rest) := by
  cases h with
  | @known name c hname hc =>
    have hvalue : nameValue name = [c] := by rw [nameValue, hc]
    refine ⟨_, rfl, ?_⟩
    rw [List.append_assoc, ← hvalue]
    exact reference?_nameValue hname.1 hname.2 rest
  | @unknown name hname hnone =>
    have hvalue : nameValue name = '&' :: (name ++ [';']) := by rw [nameValue, hnone]
    refine ⟨_, rfl, ?_⟩
    rw [List.append_assoc, ← hvalue]
    exact reference?_nameValue hname.1 hname.2 rest
  | @decimal digits r n hne hn hr =>
    refine ⟨_, rfl, ?_⟩
    have hall := (tellsDigits_ten.writes_iff.1 hn).1
    have hhead : ∀ x, Text.isAsciiDigit x = false → (digits ++ [';'] ++ rest).head? ≠ some x := by
      intro x hx hhead
      obtain ⟨d, ds, rfl⟩ := List.exists_cons_of_ne_nil hne
      obtain rfl : d = x := Option.some.inj hhead
      exact Bool.false_ne_true (hx.symm.trans (hall d List.mem_cons_self))
    rw [List.cons_append, reference?_decimal (hhead _ (by decide)) (hhead _ (by decide))]
    exact (numeric?_eq_some_iff tellsDigits_ten (by decide) (by decide)).2 ⟨digits, n, hne, hn, hr, by simp⟩
  | @hexadecimal x digits r n hx hne hn hr =>
    refine ⟨_, rfl, ?_⟩
    have hread : numeric? 16 isHexDigit (digits ++ [';'] ++ rest) = some (r, rest) :=
      (numeric?_eq_some_iff tellsDigits_sixteen (by decide) (by decide)).2 ⟨digits, n, hne, hn, hr, by simp⟩
    rcases hx with rfl | rfl <;> exact hread

/-! ## Rewriting -/

/-- A reference may go on with the character behind its ampersand. -/
def GoesOn (c : Char) : Prop := isAsciiAlphanumeric c = true ∨ c = '#' ∨ c = ';'

theorem StandsFor.goesOn {text : List Char} (h : StandsFor text r) :
    ∃ body, text = '&' :: body ∧ ∀ c ∈ body, GoesOn c := by
  have hsemicolon : ∀ cs : List Char, (∀ c ∈ cs, isAsciiAlphanumeric c = true) → ∀ c ∈ cs ++ [';'], GoesOn c := by
    intro cs hcs c hc
    rcases List.mem_append.1 hc with hc | hc
    · exact .inl (hcs c hc)
    · exact .inr (.inr (List.mem_singleton.1 hc))
  have hsharp : GoesOn '#' := .inr (.inl rfl)
  cases h with
  | known hname hc => exact ⟨_, rfl, hsemicolon _ hname.2⟩
  | unknown hname hnone => exact ⟨_, rfl, hsemicolon _ hname.2⟩
  | @decimal digits _ _ hne hn hr =>
    have hdigits := hsemicolon digits fun c hc => by
      simp [isAsciiAlphanumeric, (tellsDigits_ten.writes_iff.1 hn).1 c hc]
    exact ⟨_, rfl, List.forall_mem_cons.2 ⟨hsharp, hdigits⟩⟩
  | @hexadecimal x digits _ _ hx hne hn hr =>
    have hmark : GoesOn x := .inl (by rcases hx with rfl | rfl <;> decide)
    have hdigits := hsemicolon digits fun c hc =>
      isAlphanumeric_of_hexDigit ((tellsDigits_sixteen.writes_iff.1 hn).1 c hc)
    exact ⟨_, rfl, List.forall_mem_cons.2 ⟨hsharp, List.forall_mem_cons.2 ⟨hmark, hdigits⟩⟩⟩

theorem rewrites_decode (cs : List Char) : Rewrites cs (decode cs) := by
  fun_induction decode cs with
  | case1 => exact .nil
  | case2 rest r after h ih =>
    obtain ⟨text, htext, hcs⟩ := standsFor_of_reference? h
    rw [hcs]
    exact .reference htext ih
  | case3 rest h ih =>
    refine .copy (fun text r htext hprefix => ?_) ih
    obtain ⟨tail, htail⟩ := hprefix
    obtain ⟨body, rfl, hread⟩ := reference?_of_standsFor htext tail
    obtain rfl : body ++ tail = rest := (List.cons.inj htail).2
    exact Option.some_ne_none _ (hread.symm.trans h)
  | case4 c rest hc ih =>
    refine .copy (fun text r htext hprefix => hc ?_) ih
    obtain ⟨body, rfl, -⟩ := htext.goesOn
    exact (List.cons_prefix_cons.1 hprefix).1.symm

theorem rewrites_iff {cs out : List Char} : Rewrites cs out ↔ decode cs = out := by
  constructor
  · intro h
    induction h with
    | nil => rw [decode]
    | @reference text r rest out htext hrest ih =>
      obtain ⟨body, rfl, hread⟩ := reference?_of_standsFor htext rest
      rw [List.cons_append, decode_reference hread, ih]
    | @copy c rest out hnone hrest ih =>
      by_cases hc : c = '&'
      · subst hc
        have hread : reference? rest = none := Option.eq_none_iff_forall_ne_some.2 fun parts hparts => by
          obtain ⟨text, htext, hcs⟩ := standsFor_of_reference? hparts
          exact hnone text _ htext ⟨_, hcs.symm⟩
        rw [decode_no_reference hread, ih]
      · rw [decode_cons_of_ne hc, ih]
  · rintro rfl
    exact rewrites_decode cs

/-- A text is rewritten on its own in front of a character with which no reference goes on. -/
theorem Rewrites.append {as bs out out' : List Char} (ha : Rewrites as out) (hb : Rewrites bs out')
    (h : ∀ c ∈ bs.head?, ¬ GoesOn c) : Rewrites (as ++ bs) (out ++ out') := by
  induction ha with
  | nil => exact hb
  | @reference text r rest out htext hrest ih =>
    rw [List.append_assoc, List.append_assoc]
    exact .reference htext ih
  | @copy c rest out hnone hrest ih =>
    refine .copy (fun text r htext hprefix => ?_) ih
    -- A reference that does not end in front of `bs` holds the head of `bs`.
    rcases List.prefix_or_prefix_of_prefix hprefix (List.prefix_append (c :: rest) bs) with hwithin | ⟨beyond, rfl⟩
    · exact hnone text r htext hwithin
    · cases beyond with
      | nil => exact hnone (c :: rest) r (by simpa using htext) (List.prefix_refl _)
      | cons d beyond =>
        obtain ⟨tail, htail⟩ := (List.prefix_append_right_inj (c :: rest)).1 hprefix
        obtain ⟨body, hbody, hgoesOn⟩ := htext.goesOn
        obtain rfl := (List.cons.inj hbody).2
        exact h d (by rw [← htail]; rfl) (hgoesOn d (by simp))

theorem decode_append {as bs : List Char} (h : ∀ c ∈ bs.head?, ¬ GoesOn c) :
    decode (as ++ bs) = decode as ++ decode bs :=
  rewrites_iff.1 ((rewrites_decode as).append (rewrites_decode bs) h)

/-- **Decoding is one pass from left to right.** A text decodes to what it is rewritten to, and to nothing else; the
loop over byte offsets finds the same text without a failure. Two texts are decoded apart if no reference goes on with
the first character of the second. -/
theorem decode_single_pass : (∀ s t : String, decodeString s = t ↔ Rewrites s.toList t.toList) ∧
    (∀ s : String, Bytewise.decode s.toList = some (decodeString s).toList) ∧
    ∀ a b : String, (∀ c ∈ b.toList.head?, ¬ GoesOn c) →
      decodeString (a ++ b) = decodeString a ++ decodeString b := by
  refine ⟨fun s t => ?_, fun s => ?_, fun a b h => ?_⟩
  · rw [rewrites_iff, decodeString]
    constructor
    · rintro rfl
      rw [String.toList_ofList]
    · intro h
      rw [h, String.ofList_toList]
  · rw [Bytewise.decode_eq, decodeString, String.toList_ofList]
  · have hrewrites := (rewrites_decode a.toList).append (rewrites_decode b.toList) h
    rw [decodeString, String.toList_append, rewrites_iff.1 hrewrites, String.ofList_append]
    rfl

/-- A replacement that looks like a reference again, a number with zeros in front, one that is cut off, a surrogate and
a name that is not in the table. -/
theorem decode_single_pass_words : (∀ c ∈ " &#XD800;&bogus;&#x1F600;".toList.head?, ¬ GoesOn c) ∧
    decodeString ("AT&T &amp;lt; &#00000000000060; &#60" ++ " &#XD800;&bogus;&#x1F600;") =
      "AT&T &lt; < &#60 &bogus;😀" := by
  have hcut : ∀ c ∈ " &#XD800;&bogus;&#x1F600;".toList.head?, ¬ GoesOn c := by
    intro c hc
    obtain rfl : ' ' = c := Option.some.inj hc
    unfold GoesOn
    decide
  have hfirst : decodeString "AT&T &amp;lt; &#00000000000060; &#60" = "AT&T &lt; < &#60" := by decide +kernel
  have hsecond : decodeString " &#XD800;&bogus;&#x1F600;" = " &bogus;😀" := by decide +kernel
  refine ⟨hcut, ?_⟩
  rw [decode_single_pass.2.2 _ _ hcut, hfirst, hsecond]
  rfl

end HtmlQuery.Reference
