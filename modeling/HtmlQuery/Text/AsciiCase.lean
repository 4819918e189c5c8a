/-!
# ASCII case

Tag names, keywords and closing tags are compared without regard to the case of ASCII letters; all
other characters stand for themselves.
-/

namespace HtmlQuery.Text

def lowerAscii (s : String) : String := String.ofList (s.toList.map Char.toLower)

/-- Equality of character lists up to the case of ASCII letters. -/
def sameLetters (a b : List Char) : Bool := a.map Char.toLower == b.map Char.toLower

def eqIgnoringCase (a b : String) : Bool := sameLetters a.toList b.toList

/-- Whether a text starts with `pre` up to the case of ASCII letters. -/
def startsIgnoringCase : List Char → List Char → Bool
  | [], _ => true
  | _ :: _, [] => false
  | p :: pre, c :: cs => p.toLower == c.toLower && startsIgnoringCase pre cs

def isAsciiLetter (c : Char) : Bool := ('a' ≤ c && c ≤ 'z') || ('A' ≤ c && c ≤ 'Z')

def isAsciiDigit (c : Char) : Bool := '0' ≤ c && c ≤ '9'

/-! ## Lemmas -/

theorem toNat_ofNat {n : Nat} (h : n.isValidChar) : (Char.ofNat n).toNat = n := by
  rw [Char.ofNat, dif_pos h]
  rfl

/-- What can be seen of each ASCII character by its code point holds of it. -/
theorem forall_ascii {p : Char → Prop} (h : ∀ n < 0x80, p (Char.ofNat n)) {c : Char} (hc : c.toNat < 0x80) :
    p c := by
  have hp := h c.toNat hc
  rwa [Char.ofNat_toNat] at hp

end HtmlQuery.Text
