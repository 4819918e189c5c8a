import HtmlQuery.Proofs.Token.Written
import HtmlQuery.Source.Cursor

/-!
# The bytes of a text

Texts are lists of characters, and what is read of them is told by byte offsets. The first byte of a character is no
later byte of any other (`encodeChar_cons`), so a search through bytes for a text stops in front of a character and
never inside one: it finds the place that a search through characters finds (`isFirst_cutBefore`, `findBytes_encode`).
-/

namespace HtmlQuery.Bytewise

open Cursor

/-- The UTF-8 bytes of a text. -/
def encode (cs : List Char) : List UInt8 := cs.flatMap String.utf8EncodeChar

/-- A byte, an ASCII letter in lower case. -/
def lowerByte (b : UInt8) : UInt8 := if 0x41 ≤ b ∧ b ≤ 0x5a then b + 0x20 else b

/-- Whether bytes start with others up to the case of ASCII letters. -/
def startsBytes (needle bytes : List UInt8) : Bool :=
  (needle.map lowerByte).isPrefixOf (bytes.map lowerByte)

/-- The first place at which bytes go on with others up to the case of ASCII letters. -/
def findBytes (needle : List UInt8) : List UInt8 → Option Nat
  | [] => if startsBytes needle [] then some 0 else none
  | b :: bs => if startsBytes needle (b :: bs) then some 0 else (findBytes needle bs).map (· + 1)

variable {c : Char} {cs ds : List Char}

@[simp] theorem encode_nil : encode [] = [] := rfl

theorem encode_cons (c : Char) (cs : List Char) : encode (c :: cs) = String.utf8EncodeChar c ++ encode cs :=
  List.flatMap_cons

/-- A remainder behind a mark of the high bit is past the bytes of ASCII. -/
theorem high_ofNat (v : Nat) {m k : Nat} (hm : 0 < m) (hk : 0x80 ≤ k) (hmk : m + k ≤ 0x100) :
    0x80 ≤ UInt8.ofNat (v % m + k) := by
  have hlt := Nat.mod_lt v hm
  rw [UInt8.le_iff_toNat_le, UInt8.toNat_ofNat', Nat.mod_eq_of_lt (by omega)]
  exact Nat.le_trans hk (Nat.le_add_left ..)

/-- All bytes of a character that is not ASCII are past those of ASCII. -/
theorem high_of_not_ascii (h : 0x80 ≤ c.toNat) : ∀ b ∈ String.utf8EncodeChar c, 0x80 ≤ b := by
  have hval : 0x80 ≤ c.val.toNat := h
  unfold String.utf8EncodeChar
  dsimp only
  split_ifs
  · omega
  all_goals
    simp (disch := decide) only [List.forall_mem_cons, List.not_mem_nil, false_imp_iff, implies_true, high_ofNat,
      and_self]

/-! ## Case -/

theorem lowerByte_high {b : UInt8} (h : 0x80 ≤ b) : lowerByte b = b := by
  refine if_neg fun hletter => ?_
  have hle := UInt8.le_trans h hletter.2
  revert hle
  decide

theorem toLower_of_not_ascii (h : 0x80 ≤ c.toNat) : c.toLower = c := by
  refine dif_neg fun hletter => ?_
  have hle := UInt32.le_iff_toNat_le.1 hletter.2
  have hZ : 'Z'.val.toNat = 90 := rfl
  have hval : c.val.toNat = c.toNat := rfl
  omega

theorem encodeChar_toLower (c : Char) :
    String.utf8EncodeChar c.toLower = (String.utf8EncodeChar c).map lowerByte := by
  by_cases h : c.toNat < 0x80
  · exact Text.forall_ascii
      (p := fun c => String.utf8EncodeChar c.toLower = (String.utf8EncodeChar c).map lowerByte) (by decide +kernel) h
  · have hhigh := high_of_not_ascii (Nat.not_lt.1 h)
    rw [toLower_of_not_ascii (Nat.not_lt.1 h), List.map_congr_left fun b hb => lowerByte_high (hhigh b hb),
      List.map_id']

theorem encode_toLower (cs : List Char) : encode (cs.map Char.toLower) = (encode cs).map lowerByte := by
  induction cs with
  | nil => rfl
  | cons c cs ih => rw [List.map_cons, encode_cons, encode_cons, ih, List.map_append, encodeChar_toLower]

/-! ## First bytes -/

@[simp] theorem length_encode (cs : List Char) : (encode cs).length = utf8Length cs := by
  induction cs with
  | nil => rfl
  | cons c cs ih => rw [encode_cons, List.length_append, ih, String.length_utf8EncodeChar, utf8Length_cons]

theorem encode_append (cs ds : List Char) : encode (cs ++ ds) = encode cs ++ encode ds := List.flatMap_append

/-- A character is a first byte, and other bytes that are none. -/
theorem encodeChar_cons (c : Char) : ∃ b bs, String.utf8EncodeChar c = b :: bs ∧ b.IsUTF8FirstByte ∧
    (∀ x ∈ bs, ¬ x.IsUTF8FirstByte) ∧ c.utf8Size = bs.length + 1 := by
  have hlength := String.length_utf8EncodeChar c
  have hfirst : ∀ i (hi : i < (String.utf8EncodeChar c).length),
      (String.utf8EncodeChar c)[i].IsUTF8FirstByte ↔ i = 0 := fun _ _ => UInt8.isUTF8FirstByte_getElem_utf8EncodeChar
  obtain ⟨b, bs, hbytes⟩ : ∃ b bs, String.utf8EncodeChar c = b :: bs := by
    refine List.exists_cons_of_ne_nil fun hnil => ?_
    rw [hnil] at hlength
    exact Nat.ne_of_lt c.utf8Size_pos hlength
  simp only [hbytes] at hfirst hlength
  refine ⟨b, bs, hbytes, (hfirst 0 (Nat.zero_lt_succ _)).2 rfl, fun x hx => ?_, hlength.symm⟩
  obtain ⟨i, hi, rfl⟩ := List.getElem_of_mem hx
  exact fun h => Nat.succ_ne_zero i ((hfirst (i + 1) (Nat.succ_lt_succ hi)).1 h)

/-- What holds of all bytes by their numbers holds of each. -/
theorem forall_byte {p : UInt8 → Prop} (h : ∀ i : Fin 256, p (UInt8.ofFin i)) (b : UInt8) : p b := h b.toFin

/-- First bytes are told from other bytes also when case is ignored. -/
theorem isFirstByte_lowerByte (b : UInt8) : (lowerByte b).IsUTF8FirstByte ↔ b.IsUTF8FirstByte :=
  forall_byte (p := fun b => (lowerByte b).IsUTF8FirstByte ↔ b.IsUTF8FirstByte) (by decide +kernel) b

/-- A text that starts with no first byte starts with no character, so it is only empty texts that it starts with. -/
theorem eq_nil_of_prefix_cons {needle : List Char} {b : UInt8} {bs : List UInt8} (hb : ¬ b.IsUTF8FirstByte)
    (h : encode needle <+: b :: bs) : needle = [] := by
  cases needle with
  | nil => rfl
  | cons c needle =>
    obtain ⟨n, ns, hbytes, hn, -⟩ := encodeChar_cons c
    rw [encode_cons, hbytes, List.cons_append, List.cons_prefix_cons] at h
    exact absurd (h.1 ▸ hn) hb

theorem eq_nil_of_startsBytes {needle : List Char} {b : UInt8} {bs : List UInt8} (hb : ¬ b.IsUTF8FirstByte)
    (h : startsBytes (encode needle) (b :: bs) = true) : needle = [] := by
  rw [startsBytes, List.isPrefixOf_iff_prefix, ← encode_toLower, List.map_cons] at h
  have hnil := eq_nil_of_prefix_cons (fun hfirst => hb ((isFirstByte_lowerByte b).1 hfirst)) h
  exact List.map_eq_nil_iff.1 hnil

/-! ## Prefixes -/

/-- What starts with the bytes of a character starts with those of no other. -/
theorem encodeChar_inj {d : Char} {bs bs' : List UInt8}
    (h : String.utf8EncodeChar c ++ bs = String.utf8EncodeChar d ++ bs') : c = d ∧ bs = bs' := by
  have hdecode := congrArg (fun bytes => bytes.toByteArray.utf8DecodeChar? 0) h
  simp only [List.toByteArray_append, ByteArray.utf8DecodeChar?_utf8EncodeChar_append, Option.some.injEq] at hdecode
  subst hdecode
  exact ⟨rfl, List.append_cancel_left h⟩

theorem encode_prefix_iff : encode cs <+: encode ds ↔ cs <+: ds := by
  induction cs generalizing ds with
  | nil => simp
  | cons c cs ih =>
    cases ds with
    | nil =>
      obtain ⟨b, bs, hbytes, -⟩ := encodeChar_cons c
      have hne : encode (c :: cs) ≠ [] := by
        rw [encode_cons, hbytes]
        exact List.cons_ne_nil _ _
      simp [hne]
    | cons d ds =>
      rw [List.cons_prefix_cons, ← ih, encode_cons, encode_cons]
      constructor
      · rintro ⟨rest, hrest⟩
        rw [List.append_assoc] at hrest
        obtain ⟨rfl, htail⟩ := encodeChar_inj hrest
        exact ⟨rfl, rest, htail⟩
      · rintro ⟨rfl, hprefix⟩
        exact (List.prefix_append_right_inj _).2 hprefix

/-- Texts are compared up to case as their bytes are. -/
theorem startsBytes_encode (needle cs : List Char) :
    startsBytes (encode needle) (encode cs) = Text.startsIgnoringCase needle cs := by
  rw [Text.startsIgnoringCase_eq, Bool.eq_iff_iff, startsBytes, ← encode_toLower, ← encode_toLower,
    List.isPrefixOf_iff_prefix, List.isPrefixOf_iff_prefix, encode_prefix_iff]

/-! ## Searching -/

/-- The number is the least one with a property, from a start on; there is none if no such number has it. -/
def IsFirst (p : Nat → Prop) (start : Nat) : Option Nat → Prop
  | some k => start ≤ k ∧ p k ∧ ∀ j, start ≤ j → p j → k ≤ j
  | none => ∀ j, start ≤ j → ¬ p j

theorem IsFirst.unique {p : Nat → Prop} {start : Nat} {found found' : Option Nat} (h : IsFirst p start found)
    (h' : IsFirst p start found') : found = found' := by
  cases found with
  | none =>
    cases found' with
    | none => rfl
    | some k => exact absurd h'.2.1 (h k h'.1)
  | some k =>
    cases found' with
    | none => exact absurd h.2.1 (h' k h.1)
    | some k' => exact congrArg some (Nat.le_antisymm (h.2.2 k' h'.1 h'.2.1) (h'.2.2 k h.1 h.2.1))

theorem isFirst_zero {p : Nat → Prop} (h : p 0) : IsFirst p 0 (some 0) :=
  ⟨Nat.le_refl _, h, fun j _ _ => Nat.zero_le j⟩

/-- The first place behind so many others. -/
theorem IsFirst.shift {p q : Nat → Prop} {found : Option Nat} (h : IsFirst p 0 found) (n : Nat)
    (hq : ∀ j, q (n + j) ↔ p j) : IsFirst q n (found.map (n + ·)) := by
  have hsplit : ∀ j, n ≤ j → q j → ∃ i, j = n + i ∧ p i := by
    intro j hj hqj
    obtain ⟨i, rfl⟩ := Nat.exists_eq_add_of_le hj
    exact ⟨i, rfl, (hq i).1 hqj⟩
  cases found with
  | none =>
    intro j hj hqj
    obtain ⟨i, -, hi⟩ := hsplit j hj hqj
    exact h i (Nat.zero_le _) hi
  | some k =>
    refine ⟨Nat.le_add_right .., (hq k).2 h.2.1, fun j hj hqj => ?_⟩
    obtain ⟨i, rfl, hi⟩ := hsplit j hj hqj
    exact Nat.add_le_add_left (h.2.2 i (Nat.zero_le _) hi) n

/-- The first place of all, where there is none in front of the start. -/
theorem IsFirst.of_none_before {p : Nat → Prop} {start : Nat} {found : Option Nat} (h : IsFirst p start found)
    (hbefore : ∀ j < start, ¬ p j) : IsFirst p 0 found := by
  have hstart : ∀ j, p j → start ≤ j := fun j hj => Nat.not_lt.1 fun hlt => hbefore j hlt hj
  cases found with
  | none => exact fun j _ hj => h j (hstart j hj) hj
  | some k => exact ⟨Nat.zero_le _, h.2.1, fun j _ hj => h.2.2 j (hstart j hj) hj⟩

theorem isFirst_findBytes (needle bytes : List UInt8) :
    IsFirst (fun j => startsBytes needle (bytes.drop j) = true) 0 (findBytes needle bytes) := by
  induction bytes with
  | nil =>
    rw [findBytes]
    split
    · rename_i hstarts
      exact isFirst_zero hstarts
    · rename_i hstarts
      intro j _
      show ¬ startsBytes needle (List.drop j []) = true
      rwa [List.drop_nil]
  | cons b bs ih =>
    rw [findBytes]
    split
    · rename_i hstarts
      exact isFirst_zero hstarts
    · rename_i hstarts
      have hlater : IsFirst (fun j => startsBytes needle ((b :: bs).drop j) = true) 1
          ((findBytes needle bs).map (1 + ·)) := ih.shift 1 fun j => by rw [Nat.add_comm, List.drop_succ_cons]
      simp only [Nat.add_comm 1] at hlater
      refine hlater.of_none_before fun j hj => ?_
      rwa [Nat.lt_one_iff.1 hj]

/-- A search through the bytes of a text with a test that agrees with one of texts, and that fails inside characters
unless it never does, stops in front of a character, where the search through the text stops. -/
theorem isFirst_cutBefore {here : List Char → Bool} {p : List UInt8 → Prop}
    (hsame : ∀ cs, p (encode cs) ↔ here cs = true)
    (hinside : ∀ b bs, ¬ b.IsUTF8FirstByte → p (b :: bs) → ∀ cs, here cs = true) (cs : List Char) :
    IsFirst (fun j => p ((encode cs).drop j)) 0 ((Text.cutBefore here cs).map fun parts => utf8Length parts.1) := by
  induction cs with
  | nil =>
    rw [Text.cutBefore]
    split
    · rename_i hhere
      exact isFirst_zero ((hsame []).2 hhere)
    · rename_i hhere
      intro j _
      show ¬ p (List.drop j [])
      rwa [List.drop_nil, ← encode_nil, hsame]
  | cons c cs ih =>
    rw [Text.cutBefore]
    split
    · rename_i hhere
      exact isFirst_zero ((hsame _).2 hhere)
    · rename_i hhere
      obtain ⟨b, bs, hbytes, -, hlater, hsize⟩ := encodeChar_cons c
      have hshift : IsFirst (fun j => p ((encode (c :: cs)).drop j)) c.utf8Size _ := ih.shift c.utf8Size fun j => by
        rw [← List.drop_drop, encode_cons, List.drop_left' (String.length_utf8EncodeChar c)]
      rw [Option.map_map] at hshift ⊢
      refine IsFirst.of_none_before hshift fun j hj hp => hhere ?_
      cases j with
      | zero => exact (hsame _).1 hp
      | succ j =>
        -- the bytes from a place inside the character on start with a later byte
        have hlt : j < bs.length := by omega
        rw [encode_cons, hbytes, List.cons_append, List.drop_succ_cons, List.drop_append_of_le_length (Nat.le_of_lt hlt),
          List.drop_eq_getElem_cons hlt, List.cons_append] at hp
        exact hinside _ _ (hlater _ (List.getElem_mem hlt)) hp _

theorem findBytes_encode (needle cs : List Char) : findBytes (encode needle) (encode cs) =
    (Text.cutBefore (Text.startsIgnoringCase needle) cs).map fun parts => utf8Length parts.1 := by
  have hfirst := isFirst_cutBefore (p := fun bytes => startsBytes (encode needle) bytes = true)
    (fun cs => by rw [startsBytes_encode]) (fun b bs hb h cs => by rw [eq_nil_of_startsBytes hb h]; rfl) cs
  exact (isFirst_findBytes ..).unique hfirst

end HtmlQuery.Bytewise
