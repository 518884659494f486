import RsxInspect.Proofs.Template.Loops
import RsxInspect.Proofs.Template.Taken

/-!
# Keywords between braces

`keywordBraces` lists the directive keywords among some tokens, each with the span of the braces
that it stands in. A keyword stands right behind opening braces only (`Trace.not_directive`), and
everything else that a piece takes was read in a mode in which there are no keywords (`NoKeywords`).
The bricks:

* `map_fst_keywordBraces`: the list has every keyword behind the first token.
* `keywordBraces_append` and `Stops.keywordBraces_eq`: tokens without a keyword can be left out, if
  the scan is outside of braces behind them.
* `readStartTag_noKeywords`, `Braces.noKeywords`: what tags take, and what braces take behind their
  first token.
* `readBraces_keywords`: braces take the keyword that they start with.

So the list falls apart at the ends of pieces (`Piece.read_keywords`) and of sections
(`Document.readCode_keywords`).
-/

namespace RsxInspect

/-- The directive keywords among the tokens, each with the span of its braces: a token counts if the
one in front of it is there to start the braces from. -/
def keywordBraces : List Token → List (TokenKind × Span)
  | opening :: word :: ts =>
    if word.kind.isDirective then
      (word.kind, (Braces.read opening (word :: ts) 1).span) :: keywordBraces (word :: ts)
    else keywordBraces (word :: ts)
  | _ => []

/-- The keyword that opens a block. -/
def DirectiveKind.openWord : DirectiveKind → TokenKind
  | choice => .ifBlock
  | loop => .eachBlock

/-- The keyword that closes a block. -/
def DirectiveKind.closeWord : DirectiveKind → TokenKind
  | choice => .endIf
  | loop => .endEach

/-- The keyword that a piece is read from, with the span of its braces. Only raw interpolations have
one among the nodes. -/
def Piece.keywords : Piece → List (TokenKind × Span)
  | .node (.interpolation i) => if i.raw then [(.html, i.span)] else []
  | .opener _ head => [(head.keyword, head.span)]
  | .branch word _ span => [(Builder.keywordOf word, span)]
  | .closer kind span => [(kind.closeWord, span)]
  | _ => []

/-- None of the tokens is a directive keyword. -/
def NoKeywords (ts : List Token) : Prop := AllKinds (·.isDirective = false) ts

section Lists

variable {t : Token} {us vs : List Token} {m : Mode}

/-- Every keyword behind the first token is on the list of `keywordBraces`, in order. -/
theorem map_fst_keywordBraces (t : Token) (ts : List Token) :
    (keywordBraces (t :: ts)).map Prod.fst = (ts.map Token.kind).filter TokenKind.isDirective := by
  induction ts generalizing t with
  | nil => rfl
  | cons word ts ih =>
    rw [keywordBraces, List.map_cons]
    split
    · rename_i hword
      rw [List.filter_cons_of_pos hword, List.map_cons, ih]
    · rename_i hword
      rw [List.filter_cons_of_neg hword, ih]

/-- Tokens without a keyword behind them add nothing, as long as no keyword stands right behind
these. -/
theorem keywordBraces_append (hus : NoKeywords us)
    (hvs : ∀ v, vs.head? = some v → v.kind.isDirective = false) :
    keywordBraces (t :: us ++ vs) = keywordBraces vs := by
  induction us generalizing t with
  | nil =>
    cases vs with
    | nil => rfl
    | cons v vs =>
      show keywordBraces (t :: v :: vs) = _
      rw [keywordBraces, hvs v rfl]
      rfl
  | cons u us ih =>
    show keywordBraces (t :: u :: (us ++ vs)) = _
    rw [keywordBraces, hus u (List.mem_cons_self ..)]
    exact ih fun w hw => hus w (List.mem_cons_of_mem _ hw)

/-- Right behind opening braces is the one place for a keyword: in no other mode than `.directive`
is one read. -/
theorem Trace.not_directive (h : Trace m vs) (hm : m ≠ .directive) :
    ∀ v, vs.head? = some v → v.kind.isDirective = false := by
  intro v hv
  cases h with
  | nil => cases hv
  | cons _ hstep _ =>
    cases hv
    refine Bool.eq_false_iff.mpr fun hword => hm (hstep.eq_directive hword)

/-- So a token adds nothing in front of tokens that are read outside of that mode. -/
theorem Trace.keywordBraces_cons (h : Trace m vs) (hm : m ≠ .directive) (t : Token) :
    keywordBraces (t :: vs) = keywordBraces vs :=
  keywordBraces_append AllKinds.nil (h.not_directive hm)

/-- Tokens without a keyword can be left out in front of such a place. -/
theorem Trace.keywordBraces_drop {k : Nat} (h : Trace m (us.drop k)) (hm : m ≠ .directive)
    (hus : NoKeywords (us.take k)) (t : Token) :
    keywordBraces (t :: us) = keywordBraces (us.drop k) := by
  have happend := keywordBraces_append (t := t) hus (h.not_directive hm)
  rw [List.cons_append, List.take_append_drop] at happend
  exact happend

/-- The same where markup goes on (`Stops`). -/
theorem Stops.keywordBraces_eq {k : Nat} (h : Stops k us) (hus : NoKeywords (us.take k)) (t : Token) :
    keywordBraces (t :: us) = keywordBraces (us.drop k) :=
  h.2.keywordBraces_drop (by decide) hus t

end Lists

/-! ### Tags

In a tag the scan is never in the mode of directives, so there are no keywords among its tokens. -/

section Tags

variable {r : Reading} {m : Mode} {us rest : List Token}

/-- Behind an attribute the tag goes on, and none of its tokens is a keyword. -/
theorem AttributeTokens.trace {a : Attribute} {ds : List Diagnostic}
    (h : AttributeTokens r us a ds) (htrace : Trace m (us ++ rest)) (hm : m.InTag) :
    NoKeywords us ∧ ∃ n : Mode, n.InTag ∧ Trace n rest := by
  cases h with
  | bare ht =>
    have hfirst := htrace.inTag hm (by rw [ht]; decide)
    exact ⟨.cons (by rw [ht]; rfl) .nil, hfirst⟩
  | unvalued ht hequals =>
    obtain ⟨n, hn, hbehind⟩ := htrace.inTag hm (by rw [ht]; decide)
    have hsecond := hbehind.inTag hn (by rw [hequals]; decide)
    exact ⟨.cons (by rw [ht]; rfl) (.cons (by rw [hequals]; rfl) .nil), hsecond⟩
  | valued ht hequals hv =>
    obtain ⟨n, hn, hbehind⟩ := htrace.inTag hm (by rw [ht]; decide)
    obtain ⟨n, hn, hbehind⟩ := hbehind.inTag hn (by rw [hequals]; decide)
    have hthird := hbehind.inTag hn (by rw [hv]; decide)
    exact ⟨.cons (by rw [ht]; rfl) (.cons (by rw [hequals]; rfl) (.cons (by rw [hv]; rfl) .nil)),
      hthird⟩

/-- In a start tag stands no keyword, by induction on the derivation of its tokens (`TagTokens`). -/
theorem TagTokens.noKeywords {as : List Attribute} {last : Option TokenKind} {ds : List Diagnostic}
    (h : TagTokens r us as last ds) (htrace : Trace m (us ++ rest)) (hm : m.InTag) :
    NoKeywords us := by
  induction h generalizing m with
  | unended => exact .nil
  | ended ht =>
    refine .cons ?_ .nil
    rcases ht with ht | ht <;> rw [ht] <;> rfl
  | attr ha more ih =>
    rw [List.append_assoc] at htrace
    obtain ⟨hattribute, n, hn, hbehind⟩ := ha.trace htrace hm
    exact hattribute.append (ih hbehind hn)
  | bad ht more ih =>
    obtain ⟨n, hn, hbehind⟩ := htrace.inTag hm (by rw [ht]; decide)
    exact .cons (by rw [ht]; rfl) (ih hbehind hn)
  | stray htag hself hclose more ih =>
    obtain ⟨n, hn, hbehind⟩ := htrace.inTag hm ⟨htag, hself, hclose⟩
    have hhere : m ≠ .directive := by rcases hm with rfl | rfl <;> decide
    exact .cons (htrace.not_directive hhere _ rfl) (ih hbehind hn)

/-- So `readStartTag` takes none, since the scan is in the tag from its first token on. -/
theorem readStartTag_noKeywords (first : Token) {ts : List Token} (h : Trace .tagOpen ts) :
    NoKeywords (ts.take (readStartTag r first ts).taken) := by
  refine readStartTag_kinds rfl fun us as last ds hus htokens => ?_
  -- with a name or without, the tag goes on where its attributes start
  obtain ⟨n, hn, hbehind⟩ : ∃ n : Mode, n.InTag ∧
      Trace n (ts.drop (if (ts.head?.filter (·.kind == .tagName)).isNone then 0 else 1)) := by
    rcases name_cases ts with ⟨hnone, -⟩ | ⟨name, us, rfl, hsome, hkind⟩
    · rw [hnone]
      exact ⟨.tagOpen, .inl rfl, h⟩
    · rw [hsome]
      exact h.inTag (.inl rfl) (by rw [hkind]; decide)
  obtain ⟨rest, hrest⟩ := hus
  rw [← hrest] at hbehind
  exact htokens.noKeywords hbehind hn

/-- What `readStartTag` gives stands for no keyword. -/
theorem readStartTag_keywords (first : Token) (ts : List Token) :
    (readStartTag r first ts).piece.keywords = [] := by
  rcases readStartTag_cases r first ts with ⟨hpiece, -⟩ | ⟨_, _, _, _, _, -, -, -, -, hpiece, -⟩
  · rw [hpiece]
    rfl
  · rw [hpiece]
    dsimp only
    split <;> rfl

/-- Nor does what `readEndTag` gives. -/
theorem readEndTag_keywords (first : Token) (ts : List Token) :
    (readEndTag r first ts).piece.keywords = [] := by
  unfold readEndTag
  dsimp only
  split <;> rfl

end Tags

/-! ### Braces

A keyword can only be the first token between the braces. So there are two cases: with a keyword
there is none behind it, and without one there is none at all. -/

section Braces

variable {r : Reading} {first : Token} {ts us : List Token} {m : Mode}

/-- Behind a keyword the scan is in an expression, whatever the keyword asks for. -/
theorem Transition.interpolation_of_directive {n : Mode} {k : TokenKind} (h : Transition m k n)
    (hk : k.isDirective = true) : n = .interpolation := by
  cases h with
  | expression | keyword | plainExpression | badDirective => rfl
  | _ => cases hk

/-- Behind the first token between braces there are no keywords, by induction on the run: the scan
has left the mode `.directive`. -/
theorem Trace.noKeywords_run (h : Trace m us) (hm : m.InBraces)
    (hhead : ∀ u, us.head? = some u → u.kind.isDirective = false) :
    NoKeywords (us.takeWhile (!·.kind.endsRun)) := by
  induction us generalizing m with
  | nil => exact .nil
  | cons u us ih =>
    rw [List.takeWhile_cons]
    split
    · rename_i hruns
      obtain ⟨n, hstep, hrest⟩ := h.of_cons
      -- no keyword stands first, so what starts the run leads to an expression, where there are
      -- none
      have hn : n = .interpolation := by
        have hblank := h.kind_ne_whitespace
        generalize u.kind = k at hstep hruns hblank
        rcases hm with rfl | rfl <;> cases hstep <;> first
          | rfl
          | exact absurd rfl hblank
          | cases hruns
      subst hn
      exact .cons (hhead u rfl) (ih hrest (.inr rfl) (hrest.not_directive (by decide)))
    · exact .nil

/-- What braces take behind `skip` tokens has no keyword, if the first of it is none. -/
theorem Braces.noKeywords (first : Token) (skip : Nat) (h : Trace m (ts.drop skip))
    (hm : m.InBraces) (hhead : ∀ u, (ts.drop skip).head? = some u → u.kind.isDirective = false) :
    ∃ n, (Braces.read first ts skip).taken = skip + n ∧ NoKeywords ((ts.drop skip).take n) := by
  have hrun := h.noKeywords_run hm hhead
  -- the run is what the braces take first
  have hsplit : (ts.drop skip).take (Braces.read first ts skip).run.length
      = (Braces.read first ts skip).run :=
    (List.prefix_iff_eq_take.mp (List.takeWhile_prefix _)).symm
  by_cases hclose : ((ts.drop (skip + (Braces.read first ts skip).run.length)).head?.any
      (·.kind == .interpolationClose)) = true
  · -- the closing braces are no keyword either
    refine ⟨(Braces.read first ts skip).run.length + 1, ?_, ?_⟩
    · exact (if_pos hclose).trans (Nat.add_assoc ..)
    · rw [List.take_add, hsplit, List.drop_drop]
      refine hrun.append ?_
      cases hrest : ts.drop (skip + (Braces.read first ts skip).run.length) with
      | nil => exact .nil
      | cons u us =>
        rw [hrest, List.head?_cons, Option.any_some, beq_iff_eq] at hclose
        exact .cons (by rw [hclose]; rfl) .nil
  · refine ⟨(Braces.read first ts skip).run.length, ?_, ?_⟩
    · exact if_neg hclose
    · rw [hsplit]
      exact hrun

/-- Braces with a keyword stand for it, and skip it in front of their run. -/
theorem readBraces_keyword (r : Reading) (first : Token) (ts : List Token) {word : Token}
    (hword : word.kind.isDirective = true) :
    (readBraces r first (word :: ts)).piece.keywords
        = [(word.kind, (Braces.read first (word :: ts) 1).span)] ∧
      (readBraces r first (word :: ts)).taken = (Braces.read first (word :: ts) 1).taken := by
  unfold readBraces
  rw [List.head?_cons, Option.map_some]
  generalize word.kind = kind at hword
  cases kind with
  | ifBlock | elseIf | elseBranch | endIf | eachBlock | endEach | html => exact ⟨rfl, rfl⟩
  | _ => cases hword

/-- Braces without a keyword are an interpolation. -/
theorem readBraces_plain_head (hts : ∀ t, ts.head? = some t → t.kind.isDirective = false) :
    readBraces r first ts = readInterpolation r first ts 0 false := by
  unfold readBraces
  cases ts with
  | nil => rfl
  | cons word ts =>
    have hword := hts word rfl
    rw [List.head?_cons, Option.map_some]
    generalize word.kind = kind at hword
    cases kind <;> first | rfl | cases hword

/-- `readBraces` takes the keyword that the braces start with, if there is one, and no other. -/
theorem readBraces_keywords (h : Trace m ts) (hm : m.InBraces) :
    keywordBraces (first :: ts) = (readBraces r first ts).piece.keywords
      ++ keywordBraces (ts.drop (readBraces r first ts).taken) := by
  have hstops := readBraces_stops r first h hm
  -- a keyword can only be the first token between the braces
  by_cases hhead : ∀ t, ts.head? = some t → t.kind.isDirective = false
  · rw [readBraces_plain_head hhead] at hstops ⊢
    obtain ⟨n, htaken, hnone⟩ := Braces.noKeywords first 0 h hm hhead
    rw [Nat.zero_add] at htaken
    have hnone : NoKeywords (ts.take (readInterpolation r first ts 0 false).taken) := by
      show NoKeywords (ts.take (Braces.read first ts 0).taken)
      rw [htaken]
      exact hnone
    exact hstops.keywordBraces_eq hnone first
  · cases ts with
    | nil => exact absurd (fun t ht => nomatch ht) hhead
    | cons word us =>
      have hword : word.kind.isDirective = true := by
        by_contra hnot
        refine hhead fun t ht => ?_
        cases ht
        exact Bool.eq_false_iff.mpr hnot
      obtain ⟨hkeywords, htaken⟩ := readBraces_keyword r first us hword
      obtain ⟨n, hstep, hrest⟩ := h.of_cons
      obtain rfl := hstep.interpolation_of_directive hword
      -- behind the keyword there is no other one
      have hrest : Trace .interpolation ((word :: us).drop 1) := hrest
      obtain ⟨k, hk, hnone⟩ := Braces.noKeywords first 1 hrest (.inr rfl)
        (hrest.not_directive (by decide))
      rw [htaken, hk, Nat.add_comm] at hstops
      have hbehind : Stops k us := ⟨Nat.le_of_succ_le_succ hstops.1, hstops.2⟩
      rw [hkeywords, htaken, hk, Nat.add_comm, List.drop_succ_cons, keywordBraces, if_pos hword]
      exact congrArg _ (hbehind.keywordBraces_eq hnone word)

end Braces

/-! ### Pieces and sections -/

/-- **The keyword of a piece.** A piece takes the braces of its own keyword (`Piece.keywords`) and
no others. -/
theorem Piece.read_keywords (r : Reading) {first : Token} {ts : List Token}
    (htrace : Trace .template (first :: ts)) (hfirst : first.kind ≠ .templateClose) :
    keywordBraces (first :: ts) = (Piece.read r first ts).piece.keywords
      ++ keywordBraces (ts.drop (Piece.read r first ts).taken) := by
  have hstops := Piece.read_stops r htrace hfirst
  rcases htrace.piece_cases hfirst with
    ⟨hkind, hrest⟩ | ⟨hkind, hrest⟩ | ⟨hkind, hrest⟩ | ⟨hkind, -⟩ | ⟨hkind, m, hm, hrest⟩
  · rw [Piece.read, hkind]
    exact hrest.keywordBraces_cons (by decide) first
  · rw [Piece.read, hkind] at hstops ⊢
    exact hstops.keywordBraces_eq (readText_kinds rfl) first
  · rw [Piece.read, hkind] at hstops ⊢
    rw [readStartTag_keywords]
    exact hstops.keywordBraces_eq (readStartTag_noKeywords first hrest) first
  · rw [Piece.read, hkind] at hstops ⊢
    rw [readEndTag_keywords]
    exact hstops.keywordBraces_eq (readEndTag_kinds rfl rfl rfl) first
  · rw [Piece.read, hkind]
    exact readBraces_keywords hrest hm

/-- In a section of code there are `NoKeywords`. -/
theorem Document.readCode_noKeywords (r : Reading) (notes : Notes) (kind : SectionKind)
    (opening : Token) (ts : List Token) :
    NoKeywords (ts.take (readCode r notes kind opening ts).taken) :=
  readCode_kinds r notes opening ts (by cases kind <;> rfl) (by cases kind <;> rfl)

/-- So it adds nothing to the list. -/
theorem Document.readCode_keywords (r : Reading) (notes : Notes) {kind : SectionKind}
    (hkind : kind ≠ .template) (opening : Token) {ts : List Token} (htrace : Trace kind.mode ts) :
    keywordBraces (opening :: ts)
      = keywordBraces (ts.drop (readCode r notes kind opening ts).taken) := by
  have hstops : Trace .initial (ts.drop (readCode r notes kind opening ts).taken) :=
    readCode_stops hkind htrace
  exact hstops.keywordBraces_drop (by decide) (readCode_noKeywords r notes kind opening ts) opening

end RsxInspect
