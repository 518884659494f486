import Mathlib.Data.List.Basic
import Mathlib.Tactic.Tauto
import RsxInspect.Text.CharClass

/-!
# Characters of names

No character of a name (`isNamePart`) is a blank or a mark of the grammar, and a digit starts no
name (`isNameStart`). So a rule that asks for a mark first never takes a name for one. The blanks
are finitely many (`blankCodes`), and so are the characters that marks start with (`markStarts`), so
each fact is checked for these.

The dollar sign is the odd one: it starts a name and is part of one in expressions, but not in tags
(`isTagNamePart_dollar`).
-/

namespace RsxInspect

/-- The code points of the blanks, as `isBlank` has them. -/
def blankCodes : List Nat :=
  [0x9, 0xA, 0xB, 0xC, 0xD, 0x20, 0x85, 0xA0, 0x1680, 0x2000, 0x2001, 0x2002, 0x2003, 0x2004,
   0x2005, 0x2006, 0x2007, 0x2008, 0x2009, 0x200A, 0x2028, 0x2029, 0x202F, 0x205F, 0x3000]

/-- The characters that marks, operators and quotes start with. -/
def markStarts : List Char :=
  ['<', '>', '=', '!', '&', '|', '+', '-', '*', '/', '%', '?', ':', '.', ',', '(', ')', '[', ']',
   '\x7b', '\x7d', '"', '\'', '@']

theorem mem_blankCodes {c : Char} (h : isBlank c = true) : c.toNat ∈ blankCodes := by
  obtain ⟨r, hr, hlo, hhi⟩ := (Unicode.inRanges_iff (by unfold Unicode.Ascending; decide)).mp h
  simp only [blankRanges, List.mem_cons, List.not_mem_nil, or_false] at hr
  simp only [blankCodes, List.mem_cons, List.not_mem_nil, or_false]
  rcases hr with rfl | rfl | rfl | rfl | rfl | rfl | rfl | rfl | rfl | rfl <;> simp only at hlo hhi <;>
    omega

theorem not_isNamePart_of_isBlank {c : Char} (h : isBlank c = true) : isNamePart c = false := by
  have hall : ∀ n ∈ blankCodes, isNamePart (Char.ofNat n) = false := by decide +kernel
  have := hall _ (mem_blankCodes h)
  rwa [Char.ofNat_toNat] at this

theorem not_isNamePart_of_markStart {c : Char} (h : c ∈ markStarts) : isNamePart c = false := by
  have hall : (markStarts.all fun c => !isNamePart c) = true := by decide +kernel
  have hc := List.all_eq_true.mp hall c h
  rwa [Bool.not_eq_true'] at hc

theorem not_isDigit_of_isNameStart {c : Char} (h : isNameStart c = true) : c.isDigit = false := by
  have hall : ∀ n < 58, 48 ≤ n → isNameStart (Char.ofNat n) = false := by decide +kernel
  by_contra hdigit
  rw [Bool.not_eq_false, Char.isDigit, Bool.and_eq_true, decide_eq_true_eq, decide_eq_true_eq]
    at hdigit
  have hno := hall c.toNat (Nat.lt_succ_of_le hdigit.2) hdigit.1
  rw [Char.ofNat_toNat, h] at hno
  cases hno

/-! ### What starts a name -/

theorem isNamePart_of_isNameStart {c : Char} (h : isNameStart c = true) :
    isNamePart c = true := by
  unfold isNameStart at h
  unfold isNamePart isAlphanumeric
  simp only [Bool.or_eq_true] at h ⊢
  tauto

theorem isAlphanumeric_dollar : isAlphanumeric '$' = false := by decide +kernel

theorem isTagNamePart_dollar : isTagNamePart '$' = false := by
  rw [isTagNamePart, isAlphanumeric_dollar]
  rfl

theorem isBlank_dollar : isBlank '$' = false := by decide

/-- Any other character that starts a name goes on with it in tags (`isTagNamePart`). -/
theorem isTagNamePart_of_isNameStart {c : Char} (h : isNameStart c = true) (hc : c ≠ '$') :
    isTagNamePart c = true := by
  have hstart : isAlphabetic c = true ∨ c = '_' := by simpa [isNameStart, hc] using h
  unfold isTagNamePart isAlphanumeric
  rcases hstart with h | h
  · simp [h]
  · simp [h]

end RsxInspect
