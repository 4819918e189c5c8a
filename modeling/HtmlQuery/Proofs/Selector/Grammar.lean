import HtmlQuery.Selector.Read
import Mathlib.Data.List.Basic

/-!
# Written selectors

The selectors of the grammar together with all that is free in how they are written: the order of conditions, the
blanks around names, signs and commas, the arguments of pseudo-classes. Each part carries what makes it well-formed.
`text` is what is written, and `meaning` says which selectors that stands for, without reading it.
-/

namespace HtmlQuery.Written

/-! ## Names, blanks, values and arguments -/

/-- The characters of names: letters, digits, `_` and `-` of ASCII, and beyond ASCII all that are no blanks. -/
def isNameChar (c : Char) : Bool :=
  if c.toNat < 0x80 then Text.isAsciiLetter c || Text.isAsciiDigit c || c = '_' || c = '-'
  else !Text.isWhitespace c

/-- A name. -/
structure Name where
  chars : List Char
  nonempty : chars ≠ []
  valid : ∀ c ∈ chars, isNameChar c = true

/-- The name of a tag. -/
structure TagName extends Name where
  starts : ∀ c ∈ chars.head?, Text.isAsciiDigit c = false ∧ c ≠ '-'

/-- Any number of blanks. -/
structure Blanks where
  chars : List Char
  blank : ∀ c ∈ chars, Text.isWhitespace c = true

/-- A value that stands between double quotes. -/
structure Value where
  chars : List Char
  no_quote : '"' ∉ chars
  no_backslash : '\\' ∉ chars

/-- There are as many closers as openers, and at no place more. -/
structure Balanced (opener closer : Char) (cs : List Char) : Prop where
  equal : cs.count closer = cs.count opener
  covered : ∀ pre, pre <+: cs → pre.count closer ≤ pre.count opener

/-- The argument of a pseudo-class. -/
structure Argument where
  chars : List Char
  unquoted : '"' ∉ chars ∧ '\'' ∉ chars
  parens : Balanced '(' ')' chars
  brackets : Balanced '[' ']' chars

def Name.string (n : Name) : String := String.ofList n.chars

def Blanks.none : Blanks := ⟨[], nofun⟩

/-- A single blank. -/
def Blanks.space : Blanks := ⟨[' '], List.forall_mem_singleton.2 rfl⟩

/-! ## Compounds -/

/-- The tag in front of a compound. -/
inductive Tag where
  | any
  | named (name : TagName)

/-- A condition behind the tag. -/
inductive Condition where
  | id (name : Name)
  | ofClass (name : Name)
  | present (before : Blanks) (name : Name) (after : Blanks)
  | compares (before : Blanks) (name : Name) (after : Blanks) (comparison : Comparison) (gap : Blanks)
      (value : Value) (behind : Blanks)
  | pseudo (name : Name) (argument : Option Argument)

namespace Tag

def text : Tag → List Char
  | any => ['*']
  | named name => name.chars

def meaning : Tag → String
  | any => "*"
  | named name => Text.lowercase name.string

end Tag

namespace Condition

def text : Condition → List Char
  | id name => '#' :: name.chars
  | ofClass name => '.' :: name.chars
  | present before name after => '[' :: (before.chars ++ name.chars ++ after.chars ++ [']'])
  | compares before name after comparison gap value behind =>
    '[' :: (before.chars ++ name.chars ++ after.chars ++ (comparison.operator.toList ++
      (gap.chars ++ '"' :: (value.chars ++ '"' :: (behind.chars ++ [']'])))))
  | pseudo name none => ':' :: name.chars
  | pseudo name (some argument) => ':' :: (name.chars ++ '(' :: (argument.chars ++ [')']))

def id? : Condition → Option String
  | id name => some name.string
  | _ => none

def class? : Condition → Option String
  | ofClass name => some name.string
  | _ => none

def attribute? : Condition → Option AttributeCondition
  | present _ name _ => some (.present name.string)
  | compares _ name _ comparison _ value _ =>
    some (.compares comparison name.string (String.ofList value.chars))
  | _ => none

def pseudoClass? : Condition → Option PseudoClass
  | pseudo name argument =>
    some (.ofText name.string (argument.map fun argument => String.ofList argument.chars))
  | _ => none

end Condition

/-- A tag, conditions or both. -/
structure Compound where
  tag : Option Tag
  conditions : List Condition
  nonempty : tag = none → conditions ≠ []
  one_id : (conditions.filterMap Condition.id?).length ≤ 1

namespace Compound

def text (p : Compound) : List Char :=
  (p.tag.map Tag.text).getD [] ++ p.conditions.flatMap Condition.text

/-- The compound with the conditions of each kind in their order. -/
def meaning (p : Compound) : HtmlQuery.Compound where
  tag := p.tag.map Tag.meaning
  id := (p.conditions.filterMap Condition.id?).head?
  classes := p.conditions.filterMap Condition.class?
  attributes := p.conditions.filterMap Condition.attribute?
  pseudoClasses := p.conditions.filterMap Condition.pseudoClass?

end Compound

/-! ## Groups and lists -/

/-- What stands between two compounds: blanks, or a sign with blanks around it. -/
inductive Joint where
  | blanks (between : Blanks) (nonempty : between.chars ≠ [])
  | sign (before : Blanks) (combinator : Combinator) (signed : combinator ≠ .descendant) (after : Blanks)

namespace Joint

/-- The blanks right behind the compound on the left. -/
def before : Joint → Blanks
  | blanks between _ => between
  | sign before _ _ _ => before

def text : Joint → List Char
  | blanks between _ => between.chars
  | sign before combinator _ after => before.chars ++ combinator.sign :: after.chars

def combinator : Joint → Combinator
  | blanks _ _ => .descendant
  | sign _ combinator _ _ => combinator

end Joint

/-- A compound, and further ones behind joints. -/
structure Group where
  first : Compound
  more : List (Joint × Compound)

/-- A group with blanks around it. -/
structure Piece where
  before : Blanks
  group : Group
  after : Blanks

/-- Pieces with commas between them. -/
structure SelectorList where
  first : Piece
  more : List Piece

namespace Group

def text (g : Group) : List Char := g.first.text ++ g.more.flatMap fun m => m.1.text ++ m.2.text

def meaning (g : Group) : HtmlQuery.Group :=
  ⟨g.first.meaning :: g.more.map fun m => m.2.meaning, g.more.map fun m => m.1.combinator⟩

/-- Blanks right behind a compound start with one of ASCII; other ones could go on a name. -/
def Spaced (g : Group) : Prop := ∀ m ∈ g.more, ∀ c ∈ m.1.before.chars.head?, c.toNat < 0x80

end Group

def Piece.text (p : Piece) : List Char := p.before.chars ++ p.group.text ++ p.after.chars

namespace SelectorList

def text (l : SelectorList) : String :=
  String.ofList (l.first.text ++ l.more.flatMap fun p => ',' :: p.text)

def meaning (l : SelectorList) : HtmlQuery.SelectorList :=
  ⟨(l.first :: l.more).map fun p => p.group.meaning⟩

/-- All groups are spaced. -/
def Spaced (l : SelectorList) : Prop := ∀ p ∈ l.first :: l.more, p.group.Spaced

end SelectorList

/-- `Ul > li.x, *` -/
def items : SelectorList :=
  ⟨⟨.none, ⟨⟨some (.named ⟨⟨['U', 'l'], nofun, List.all_eq_true.1 rfl⟩, by simp; decide⟩), [], nofun, by decide⟩,
    [(.sign .space .child (by decide) .space,
      ⟨some (.named ⟨⟨['l', 'i'], nofun, List.all_eq_true.1 rfl⟩, by simp; decide⟩),
        [.ofClass ⟨['x'], nofun, List.all_eq_true.1 rfl⟩], nofun, by decide⟩)]⟩, .none⟩,
    [⟨.space, ⟨⟨some .any, [], nofun, by decide⟩, []⟩, .none⟩]⟩

/-- `a` and `b` with a no-break space between them, which is not spaced. -/
def unspaced : SelectorList :=
  ⟨⟨.none, ⟨⟨some (.named ⟨⟨['a'], nofun, List.all_eq_true.1 rfl⟩, by simp; decide⟩), [], nofun, by decide⟩,
    [(.blanks ⟨['\u00A0'], List.forall_mem_singleton.2 rfl⟩ nofun,
      ⟨some (.named ⟨⟨['b'], nofun, List.all_eq_true.1 rfl⟩, by simp; decide⟩), [], nofun, by decide⟩)]⟩, .none⟩, []⟩

/-! ## Characters -/

/-- The characters with a meaning of their own in selectors. None stands in a name or is a blank. -/
def marks : List Char :=
  [',', '"', '\'', '(', ')', '[', ']', '#', '.', ':', '*', '>', '+', '~', '^', '$', '|', '=']

theorem isNameChar_facts {c : Char} (h : isNameChar c = true) :
    HtmlQuery.SelectorList.isNameChar c = true ∧ Text.isWhitespace c = false ∧ c ∉ marks := by
  by_cases hascii : c.toNat < 0x80
  · exact Text.forall_ascii (p := fun c => isNameChar c = true →
      HtmlQuery.SelectorList.isNameChar c = true ∧ Text.isWhitespace c = false ∧ c ∉ marks)
      (by decide +kernel) hascii h
  · have hbeyond : 0x80 ≤ c.toNat := Nat.not_lt.1 hascii
    have hall : ∀ d ∈ marks, d.toNat < 0x80 := by simp [marks]
    have hmark : c ∉ marks := fun hmem => hascii (hall c hmem)
    have hname : HtmlQuery.SelectorList.isNameChar c = true := by
      simp [HtmlQuery.SelectorList.isNameChar, HtmlQuery.SelectorList.startsName, hbeyond]
    have hblank : Text.isWhitespace c = false := by
      rw [isNameChar, if_neg hascii] at h
      simpa using h
    exact ⟨hname, hblank, hmark⟩

theorem not_mark_of_blank {c : Char} (h : Text.isWhitespace c = true) : c ∉ marks := by
  intro hmem
  have hnone : ∀ d ∈ marks, Text.isWhitespace d = false := by simp [marks, Text.isWhitespace]
  rw [hnone c hmem] at h
  exact Bool.false_ne_true h

/-! ## Levels -/

/-- How many openers are without a closer behind a character. -/
def shift (opener closer : Char) (level : Nat) (c : Char) : Nat :=
  if c = opener then level + 1 else if c = closer then level - 1 else level

/-- With so many openers in front of the text, no place in it has more closers than openers. -/
def Covered (opener closer : Char) (level : Nat) (cs : List Char) : Prop :=
  ∀ pre, pre <+: cs → pre.count closer ≤ level + pre.count opener

variable {opener closer : Char} {level : Nat} {cs : List Char}

/-- A closer that is covered closes something. -/
theorem Covered.pos (h : Covered opener closer level (closer :: cs)) (hne : opener ≠ closer) : 0 < level := by
  have hfirst := h [closer] (List.cons_prefix_cons.2 ⟨rfl, List.nil_prefix⟩)
  rw [List.count_singleton_self, List.count_singleton, if_neg (by simpa using Ne.symm hne)] at hfirst
  omega

theorem Covered.tail {c : Char} (h : Covered opener closer level (c :: cs)) (hne : opener ≠ closer) :
    Covered opener closer (shift opener closer level c) cs := by
  intro pre hpre
  have hcount := h (c :: pre) (List.cons_prefix_cons.2 ⟨rfl, hpre⟩)
  unfold shift
  by_cases ho : c = opener
  · subst ho
    rw [List.count_cons_self, List.count_cons_of_ne hne] at hcount
    rw [if_pos rfl]
    omega
  by_cases hc : c = closer
  · subst hc
    have hpos := h.pos hne
    rw [List.count_cons_self, List.count_cons_of_ne ho] at hcount
    rw [if_neg ho, if_pos rfl]
    omega
  · rw [List.count_cons_of_ne hc, List.count_cons_of_ne ho] at hcount
    rw [if_neg ho, if_neg hc]
    omega

theorem Covered.foldl_shift (h : Covered opener closer level cs) (hne : opener ≠ closer) :
    cs.foldl (shift opener closer) level + cs.count closer = level + cs.count opener := by
  induction cs generalizing level with
  | nil => simp
  | cons c cs ih =>
    have hrest := ih (h.tail hne)
    rw [List.foldl_cons]
    by_cases ho : c = opener
    · subst ho
      rw [List.count_cons_self, List.count_cons_of_ne hne]
      rw [shift, if_pos rfl] at hrest ⊢
      omega
    by_cases hc : c = closer
    · subst hc
      have hpos := h.pos hne
      rw [List.count_cons_self, List.count_cons_of_ne ho]
      rw [shift, if_neg ho, if_pos rfl] at hrest ⊢
      omega
    · rw [List.count_cons_of_ne hc, List.count_cons_of_ne ho]
      rw [shift, if_neg ho, if_neg hc] at hrest ⊢
      omega

/-- What is covered behind a character is covered with it, if it closes nothing that is not open. -/
theorem Covered.cons {c : Char} (h : Covered opener closer (shift opener closer level c) cs)
    (hpos : c = closer → 0 < level) (hne : opener ≠ closer) : Covered opener closer level (c :: cs) := by
  intro pre hpre
  cases pre with
  | nil => simp
  | cons d pre =>
    obtain ⟨rfl, htail⟩ := List.cons_prefix_cons.1 hpre
    have hcount := h pre htail
    unfold shift at hcount
    by_cases ho : d = opener
    · subst ho
      rw [if_pos rfl] at hcount
      rw [List.count_cons_self, List.count_cons_of_ne hne]
      omega
    by_cases hc : d = closer
    · subst hc
      have hlevel := hpos rfl
      rw [if_neg ho, if_pos rfl] at hcount
      rw [List.count_cons_self, List.count_cons_of_ne ho]
      omega
    · rw [if_neg ho, if_neg hc] at hcount
      rw [List.count_cons_of_ne hc, List.count_cons_of_ne ho]
      omega

/-- Covered text that ends at the level it starts at is balanced. -/
theorem Covered.balanced (h : Covered opener closer 0 cs) (hne : opener ≠ closer)
    (hlevel : cs.foldl (shift opener closer) 0 = 0) : Balanced opener closer cs where
  equal := by
    have hend := h.foldl_shift hne
    omega
  covered pre hpre := by
    have hcount := h pre hpre
    omega

theorem Balanced.covered_zero (h : Balanced opener closer cs) : Covered opener closer 0 cs := by
  intro pre hpre
  rw [Nat.zero_add]
  exact h.covered pre hpre

/-- Balanced text ends at the level it starts at. -/
theorem Balanced.foldl_shift (h : Balanced opener closer cs) (hne : opener ≠ closer) :
    cs.foldl (shift opener closer) 0 = 0 := by
  have hend := h.covered_zero.foldl_shift hne
  have hequal := h.equal
  omega

/-! ## Where compounds start and end -/

/-- The text ends with a character that is no blank. -/
def EndsSolid (cs : List Char) : Prop := ∃ c, cs.getLast? = some c ∧ Text.isWhitespace c = false

/-- The text starts with a character that starts a condition and is no blank. -/
def Opens (cs : List Char) : Prop := ∃ c ds, cs = c :: ds ∧
  HtmlQuery.SelectorList.startsCondition c = true ∧ Text.isWhitespace c = false

theorem EndsSolid.append {cs : List Char} (ds : List Char) (h : EndsSolid cs) : EndsSolid (ds ++ cs) := by
  obtain ⟨c, hlast, hsolid⟩ := h
  exact ⟨c, by rw [List.getLast?_append, hlast]; rfl, hsolid⟩

theorem endsSolid_concat (cs : List Char) {c : Char} (h : Text.isWhitespace c = false) : EndsSolid (cs ++ [c]) :=
  ⟨c, List.getLast?_concat, h⟩

theorem Opens.ne_nil {cs : List Char} (h : Opens cs) : cs ≠ [] := by
  obtain ⟨c, ds, rfl, -, -⟩ := h
  exact List.cons_ne_nil c ds

theorem Opens.append {cs : List Char} (h : Opens cs) (ds : List Char) : Opens (cs ++ ds) := by
  obtain ⟨c, rest, rfl, hstart, hsolid⟩ := h
  exact ⟨c, rest ++ ds, rfl, hstart, hsolid⟩

theorem Name.endsSolid (n : Name) : EndsSolid n.chars := by
  have hlast := List.getLast?_eq_some_getLast n.nonempty
  exact ⟨_, hlast, (isNameChar_facts (n.valid _ (List.getLast_mem n.nonempty))).2.1⟩

theorem TagName.opens (n : TagName) : Opens n.chars := by
  obtain ⟨c, cs, hcs⟩ := List.exists_cons_of_ne_nil n.nonempty
  have hname := isNameChar_facts (n.valid c (by simp [hcs]))
  obtain ⟨hdigit, hhyphen⟩ := n.starts c (by simp [hcs])
  have hstart : HtmlQuery.SelectorList.startsName c = true := by
    simpa [HtmlQuery.SelectorList.isNameChar, hdigit, hhyphen] using hname.1
  exact ⟨c, cs, hcs, by simp [HtmlQuery.SelectorList.startsCondition, hstart], hname.2.1⟩

theorem Tag.opens (t : Tag) : Opens t.text := by
  cases t with
  | any => exact ⟨'*', [], rfl, by decide, by decide⟩
  | named name => exact name.opens

theorem Tag.endsSolid (t : Tag) : EndsSolid t.text := by
  cases t with
  | any => exact ⟨'*', rfl, by decide⟩
  | named name => exact name.toName.endsSolid

theorem Condition.opens (c : Condition) : Opens c.text := by
  cases c with
  | id name => exact ⟨'#', _, rfl, by decide, by decide⟩
  | ofClass name => exact ⟨'.', _, rfl, by decide, by decide⟩
  | present before name after => exact ⟨'[', _, rfl, by decide, by decide⟩
  | compares before name after comparison gap value behind => exact ⟨'[', _, rfl, by decide, by decide⟩
  | pseudo name argument => cases argument <;> exact ⟨':', _, rfl, by decide, by decide⟩

theorem Condition.endsSolid (c : Condition) : EndsSolid c.text := by
  cases c with
  | id name => exact name.endsSolid.append ['#']
  | ofClass name => exact name.endsSolid.append ['.']
  | present before name after => exact endsSolid_concat ('[' :: (before.chars ++ name.chars ++ after.chars)) (by decide)
  | compares before name after comparison gap value behind =>
    have hclose : EndsSolid [']'] := ⟨']', rfl, by decide⟩
    have hvalue := (((hclose.append behind.chars).append ['"']).append value.chars).append ['"']
    have hoperator := (hvalue.append gap.chars).append comparison.operator.toList
    exact (hoperator.append (before.chars ++ name.chars ++ after.chars)).append ['[']
  | pseudo name argument =>
    cases argument with
    | none => exact name.endsSolid.append [':']
    | some argument =>
      have hclose := endsSolid_concat ('(' :: argument.chars) (c := ')') (by decide)
      exact (hclose.append name.chars).append [':']

namespace Compound

variable (p : Compound)

theorem opens : Opens p.text := by
  cases htag : p.tag with
  | some tag =>
    rw [text, htag]
    exact tag.opens.append _
  | none =>
    obtain ⟨c, cs, hcs⟩ := List.exists_cons_of_ne_nil (p.nonempty htag)
    rw [text, htag, hcs, List.flatMap_cons]
    exact c.opens.append _

theorem endsSolid : EndsSolid p.text := by
  rcases List.eq_nil_or_concat' p.conditions with hnil | ⟨cs, c, hcs⟩
  · obtain ⟨tag, htag⟩ : ∃ tag, p.tag = some tag := by
      cases htag : p.tag with
      | some tag => exact ⟨tag, rfl⟩
      | none => exact absurd hnil (p.nonempty htag)
    rw [text, htag, hnil, List.flatMap_nil, List.append_nil]
    exact tag.endsSolid
  · rw [text, hcs, List.flatMap_append, List.flatMap_singleton]
    exact (c.endsSolid.append _).append _

end Compound

theorem Group.opens (g : Group) : Opens g.text := g.first.opens.append _

theorem Group.endsSolid (g : Group) : EndsSolid g.text := by
  rcases List.eq_nil_or_concat' g.more with hnil | ⟨ms, m, hms⟩
  · rw [text, hnil, List.flatMap_nil, List.append_nil]
    exact g.first.endsSolid
  · rw [text, hms, List.flatMap_append, List.flatMap_singleton]
    exact ((m.2.endsSolid.append _).append _).append _

end HtmlQuery.Written
