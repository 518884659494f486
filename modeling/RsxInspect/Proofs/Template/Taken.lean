import RsxInspect.Document
import RsxInspect.Proofs.Template.StartTag

/-!
# The kinds of the tokens that are taken

What is taken behind the first token of a piece or a section is of few kinds, whatever stands in the
file. `AllKinds p ts` says that the kinds of all tokens of a list have the property `p`, and there is
one lemma on each reader that says for which kinds `p` has to hold:

* `readText_kinds`: for texts;
* `readStartTag_kinds`: for names, and for whatever a derivation of `TagTokens` can hold;
* `readEndTag_kinds`: for names, bad characters and the end of a tag;
* `Braces.read_kinds`, `readBraces_kinds`: for a keyword, for the run and for the closing braces;
* `Document.readCode_kinds`: for the two kinds of a section of code.

That no keyword is taken (`NoKeywords`), that the closing tag of the template is not (`AllInside`), and
that no attribute is read but in a start tag (`Piece.attributeValues_eq`) are three such properties.
-/

namespace RsxInspect

/-- The kinds of all tokens have the property. -/
def AllKinds (p : TokenKind → Prop) (ts : List Token) : Prop := ∀ t ∈ ts, p t.kind

namespace AllKinds

variable {p : TokenKind → Prop} {t : Token} {ts us : List Token} {k n : Nat}

theorem nil : AllKinds p [] := fun _ ht => (nomatch ht)

theorem cons (ht : p t.kind) (h : AllKinds p ts) : AllKinds p (t :: ts) :=
  List.forall_mem_cons.mpr ⟨ht, h⟩

theorem append (ht : AllKinds p ts) (hu : AllKinds p us) : AllKinds p (ts ++ us) :=
  List.forall_mem_append.mpr ⟨ht, hu⟩

/-- `AllKinds` of what is taken in two goes. -/
theorem take_add (h : AllKinds p (ts.take k)) (h' : AllKinds p ((ts.drop k).take n)) :
    AllKinds p (ts.take (k + n)) := by
  rw [List.take_add]
  exact h.append h'

/-- The next token is taken if it is of a certain kind. -/
theorem take_if {kind : TokenKind} (hkind : p kind) (ts : List Token) :
    AllKinds p (ts.take (if ts.head?.any (·.kind == kind) then 1 else 0)) := by
  split
  · rename_i hhead
    cases ts with
    | nil => exact nil
    | cons t ts =>
      rw [List.head?_cons, Option.any_some, beq_iff_eq] at hhead
      exact cons (hhead ▸ hkind) nil
  · exact nil

/-- The tokens of certain kinds in front are taken. -/
theorem take_takeWhile {q : Token → Bool} (hq : ∀ t, q t = true → p t.kind) (ts : List Token) :
    AllKinds p (ts.take (ts.takeWhile q).length) := by
  rw [← List.prefix_iff_eq_take.mp (List.takeWhile_prefix q)]
  exact fun t ht => hq t (List.all_eq_true.mp List.all_takeWhile t ht)

/-- The tokens of one kind in front are taken. -/
theorem take_ofKind {kind : TokenKind} (hkind : p kind) (ts : List Token) :
    AllKinds p (ts.take (ts.takeWhile (·.kind == kind)).length) :=
  take_takeWhile (fun _ ht => beq_iff_eq.mp ht ▸ hkind) ts

end AllKinds

/-! ### Pieces

One lemma for each reader, each about the kinds that it may take. -/

section Pieces

variable {r : Reading} {p : TokenKind → Prop} {first : Token} {ts : List Token}

theorem readText_kinds (htext : p .text) : AllKinds p (ts.take (readText r first ts).taken) :=
  .take_ofKind htext ts

/-- The name of a tag is taken if there is one. -/
theorem name_kinds (hname : p .tagName) :
    AllKinds p (ts.take (if (ts.head?.filter (·.kind == .tagName)).isNone then 0 else 1)) := by
  rcases name_cases ts with ⟨hnone, -⟩ | ⟨t, us, rfl, hsome, hkind⟩
  · rw [hnone]
    exact .nil
  · rw [hsome]
    exact .cons (by rw [hkind]; exact hname) .nil

theorem strayInEndTag_kinds (hname : p .tagName) (hbad : p .badCharacter) :
    AllKinds p (ts.take (strayInEndTag r ts).1) := by
  induction ts with
  | nil => exact .nil
  | cons t ts ih =>
    rw [strayInEndTag]
    split
    · rename_i hkind
      exact .cons (by rw [hkind]; exact hbad) ih
    · rename_i hkind
      exact .cons (by rw [hkind]; exact hname) ih
    · exact .nil

/-- `readEndTag` takes a name, what does not belong there, and the end of the tag. -/
theorem readEndTag_kinds (hname : p .tagName) (hbad : p .badCharacter) (hclose : p .tagClose) :
    AllKinds p (ts.take (readEndTag r first ts).taken) := by
  let skip := if (ts.head?.filter (·.kind == .tagName)).isNone then 0 else 1
  let stray := (strayInEndTag r (ts.drop skip)).1
  have htaken : (readEndTag r first ts).taken = skip + stray
      + (if (ts.drop (skip + stray)).head?.any (·.kind == .tagClose) then 1 else 0) := by
    unfold readEndTag
    dsimp only
    split <;> rfl
  rw [htaken]
  exact .take_add (.take_add (name_kinds hname) (strayInEndTag_kinds hname hbad))
    (.take_if hclose _)

/-- A start tag takes its name, and what `TagTokens` derives its attributes and its end from. -/
theorem readStartTag_kinds (hname : p .tagName)
    (hbody : ∀ us as last ds, us <+: ts.drop
        (if (ts.head?.filter (·.kind == .tagName)).isNone then 0 else 1) →
      TagTokens r us as last ds → AllKinds p us) :
    AllKinds p (ts.take (readStartTag r first ts).taken) := by
  let skip := if (ts.head?.filter (·.kind == .tagName)).isNone then 0 else 1
  obtain ⟨k, as, ds, -, htaken, -, -, htokens⟩ :=
    TagBody.readFrom_tokens r ⟨#[], none, skip, #[]⟩ (ts.drop skip) rfl
  have htaken : (readStartTag r first ts).taken = skip + k := htaken
  rw [htaken]
  exact .take_add (name_kinds hname) (hbody _ _ _ _ (List.take_prefix ..) htokens)

/-- `Braces.read` takes what is skipped, the run, and the closing braces. -/
theorem Braces.read_kinds (first : Token) {skip : Nat} (hskip : AllKinds p (ts.take skip))
    (hrun : AllKinds p ((ts.drop skip).takeWhile (!·.kind.endsRun)))
    (hclose : p .interpolationClose) :
    AllKinds p (ts.take (Braces.read first ts skip).taken) := by
  let run := (ts.drop skip).takeWhile (!·.kind.endsRun)
  have htaken : (Braces.read first ts skip).taken = skip + run.length
      + (if (ts.drop (skip + run.length)).head?.any (·.kind == .interpolationClose) then 1
        else 0) := by
    unfold Braces.read
    dsimp only
    split <;> rfl
  have hsplit : run = (ts.drop skip).take run.length :=
    List.prefix_iff_eq_take.mp (List.takeWhile_prefix _)
  rw [htaken]
  exact .take_add (.take_add hskip (hsplit ▸ hrun)) (.take_if hclose _)

/-- A keyword belongs to the run if it is seen from the opening braces, so it is enough to know that
run (`readBraces`). -/
theorem readBraces_kinds (hrun : AllKinds p (ts.takeWhile (!·.kind.endsRun)))
    (hclose : p .interpolationClose) : AllKinds p (ts.take (readBraces r first ts).taken) := by
  have hword : ∀ {kind : TokenKind}, ts.head?.map Token.kind = some kind → kind.endsRun = false →
      AllKinds p (ts.take (Braces.read first ts 1).taken) := by
    intro kind hhead hkind
    cases ts with
    | nil => exact Braces.read_kinds first .nil .nil hclose
    | cons t ts =>
      obtain rfl : t.kind = kind := Option.some.inj hhead
      rw [List.takeWhile_cons_of_pos (by rw [hkind]; rfl)] at hrun
      obtain ⟨ht, hrun⟩ := List.forall_mem_cons.mp hrun
      exact Braces.read_kinds first (.cons ht .nil) hrun hclose
  unfold readBraces
  split
  case h_8 => exact Braces.read_kinds first .nil hrun hclose
  all_goals exact hword ‹_› rfl

end Pieces

/-! ### Sections of code -/

namespace Document

/-- `readCode` takes its code and its closing delimiter. -/
theorem readCode_kinds {p : TokenKind → Prop} (r : Reading) (notes : Notes) {kind : SectionKind}
    (opening : Token) (ts : List Token) (hcode : p (codeKinds kind).1)
    (hclose : p (codeKinds kind).2) :
    AllKinds p (ts.take (readCode r notes kind opening ts).taken) := by
  -- the code, and the closing delimiter if there is one
  have htaken : (readCode r notes kind opening ts).taken
      = (ts.takeWhile (·.kind == (codeKinds kind).1)).length
        + if (ts.drop (ts.takeWhile (·.kind == (codeKinds kind).1)).length).head?.any
            (·.kind == (codeKinds kind).2) then 1 else 0 := by
    unfold readCode
    simp only [Option.isSome_map, Option.isSome_filter]
  rw [htaken]
  exact .take_add (.take_ofKind hcode ts) (.take_if hclose _)

end Document

end RsxInspect
