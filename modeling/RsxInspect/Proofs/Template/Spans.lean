import RsxInspect.Proofs.Expr.Spans
import RsxInspect.Proofs.Template.Nodes
import RsxInspect.Proofs.Template.Value

/-!
# Spans of a tree

`Document.spans` lists all spans of a file: those of its sections and their delimiters, of tags,
attributes and values, of heads and bindings, and of expressions with their tokens and trees.

They are put together from tokens in a row (`TokensInRow`), which fit the source and follow each
other, so that what goes from the first of them to any other one fits as well (`TokensInRow.spanOf`,
`TokensInRow.ofRun?`).
-/

namespace RsxInspect

/-! ### The spans of the parts of a tree

One list for each type of the tree, put together from those of its parts. -/

/-- The spans of an expression, of its tokens and of its tree. -/
def Expression.spans (e : Expression) : List Span :=
  e.span :: (e.tokens.map Token.span ++ e.tree.toList.flatMap Expr.spans)

def AttributeValue.spans (v : AttributeValue) : List Span :=
  v.span :: v.expression.toList.flatMap Expression.spans

def Attribute.spans (a : Attribute) : List Span :=
  a.span :: a.value.toList.flatMap AttributeValue.spans

def Element.spans (e : Element) : List Span :=
  e.span :: e.startTag :: (e.endTag.toList ++ e.attributes.flatMap Attribute.spans)

def BranchHead.spans (h : BranchHead) : List Span :=
  h.span :: (h.expression.toList.flatMap Expression.spans ++ h.binding.toList.map LoopBinding.span)

/-- The spans of a node without those of the nodes in it: its own, those of its delimiters,
attributes and heads, and of the expressions in them. -/
def Node.ownSpans : Node → List Span
  | .element e _ => e.spans
  | .text t => [t.span]
  | .comment s | .error s => [s]
  | .interpolation i => i.span :: i.expression.toList.flatMap Expression.spans
  | .directive d branches =>
    d.span :: (d.closing.toList ++ branches.flatMap fun b => b.head.spans)

def CodeSection.spans (c : CodeSection) : List Span :=
  c.opening :: c.content :: c.span :: c.closing.toList

def TemplateSection.spans (t : TemplateSection) : List Span :=
  t.opening :: t.span :: (t.closing.toList
    ++ (Node.subtreeAll t.children).flatMap Node.ownSpans)

def Section.spans : Section → List Span
  | .frontMatter c | .script c | .style c => c.spans
  | .template t => t.spans

/-- All spans of a file, section by section. -/
def Document.spans (d : Document) : List Span :=
  d.span :: d.sections.flatMap Section.spans

/-- The expressions of interpolations and of heads, with those of attribute values left out
(`valueExpressions`). -/
def Node.expressions : Node → List Expression
  | .interpolation i => i.expression.toList
  | .directive _ branches => branches.flatMap fun b => b.head.expression.toList
  | _ => []

/-- The attribute values of a node. -/
def Node.attributeValues : Node → List AttributeValue
  | .element e _ => e.attributes.flatMap fun a => a.value.toList
  | _ => []

/-- The expressions of the attribute values of a node. -/
def Node.valueExpressions : Node → List Expression
  | .element e _ =>
    e.attributes.flatMap fun a => a.value.toList.flatMap fun v => v.expression.toList
  | _ => []

/-! ### Spans that meet -/

/-- The spans overlap or touch, so two that share only an offset do. -/
def Span.Touches (s t : Span) : Prop := s.start ≤ t.stop ∧ t.start ≤ s.stop

namespace Span.Touches

variable {s t u : Span}

/-- What covers a span touches whatever that touches, so `Touches` only grows with the span. -/
theorem of_covered (h : s.Touches u) (hstart : t.start ≤ s.start) (hstop : s.stop ≤ t.stop) :
    t.Touches u :=
  ⟨Nat.le_trans hstart h.1, Nat.le_trans h.2 hstop⟩

theorem cover (h : s.Touches u) (t : Span) : (s.cover t).Touches u :=
  h.of_covered (Nat.min_le_left _ _) (Nat.le_max_left _ _)

/-- A part of a span `Touches` it. -/
theorem of_within (hle : s.start ≤ s.stop) (hstart : t.start ≤ s.start) (hstop : s.stop ≤ t.stop) :
    s.Touches t :=
  ⟨Nat.le_trans hle hstop, Nat.le_trans hstart hle⟩

end Span.Touches

/-! ### Tokens in a row

`TokensInRow` is what the readers know of the tokens ahead: they fit the source and follow each
other. It passes to what is left, and to the tokens between the braces of a value. -/

/-- The tokens fit the source and follow each other (`Span.Ordered`). -/
structure TokensInRow (source : String) (ts : List Token) : Prop where
  fits : ∀ t ∈ ts, t.span.Fits source
  ordered : ∃ a b, Span.Ordered a (ts.map Token.span) b

theorem tokensInRow_significantTokens (source : String) :
    TokensInRow source (significantTokens source) :=
  ⟨fits_significantTokens source, _, _, (spaced_significantTokens source).ordered⟩

/-- The tokens between the braces of an attribute value are in a row, in their places in the source
(`Token.Inner.fits`). -/
theorem Token.Inner.tokensInRow {r : Reading} {t : Token} {done inner beyond : List Char}
    (h : t.Inner r done inner beyond) : TokensInRow r.source (valueTokens r t).1 :=
  ⟨h.fits, _, _, h.ordered⟩

namespace TokensInRow

variable {source : String} {first t : Token} {ts us : List Token}

theorem sublist (h : TokensInRow source ts) (hsub : us.Sublist ts) : TokensInRow source us := by
  obtain ⟨a, b, hordered⟩ := h.ordered
  exact ⟨fun t ht => h.fits t (hsub.subset ht), a, b, hordered.sublist (hsub.map Token.span)⟩

theorem suffix (h : TokensInRow source ts) (hsub : us <:+ ts) : TokensInRow source us :=
  h.sublist hsub.sublist

theorem tail (h : TokensInRow source (first :: ts)) : TokensInRow source ts :=
  h.suffix (List.suffix_cons first ts)

/-- No token starts behind the end of another one that comes later, and the first one starts before
all of them. -/
theorem start_le (h : TokensInRow source (first :: ts)) (ht : t ∈ first :: ts) :
    first.span.start ≤ t.span.start ∧ first.span.start ≤ t.span.stop := by
  obtain ⟨a, b, -, hfirst, hrest⟩ := h.ordered
  have hle := (h.fits t ht).le
  rcases List.mem_cons.mp ht with rfl | ht
  · exact ⟨Nat.le_refl _, hle⟩
  · have hbehind := (hrest.mem (List.mem_map_of_mem ht)).1
    omega

theorem le_stop {last : Token} (h : TokensInRow source ts) (hlast : ts.getLast? = some last)
    (ht : t ∈ ts) : t.span.stop ≤ last.span.stop := by
  obtain ⟨a, b, hordered⟩ := h.ordered
  obtain ⟨init, rfl⟩ := List.getLast?_eq_some_iff.mp hlast
  rw [List.map_append] at hordered
  obtain ⟨c, hinit, hstart, hnonempty, -⟩ := Span.Ordered.append_iff.mp hordered
  rcases List.mem_append.mp ht with ht | ht
  · have := (hinit.mem (List.mem_map_of_mem ht)).2.2
    omega
  · rw [List.mem_singleton.mp ht]

/-- The end of what is taken, `endOf`, is the end of a token. -/
theorem exists_endOf (first : Token) (ts : List Token) (n : Nat) :
    ∃ t ∈ first :: ts, endOf first ts n = t.span.stop := by
  unfold endOf
  cases hlast : (first :: ts)[n]? with
  | none => exact ⟨first, List.mem_cons_self .., rfl⟩
  | some t => exact ⟨t, List.mem_of_getElem? hlast, rfl⟩

theorem isBoundary_endOf (h : TokensInRow source (first :: ts)) (n : Nat) :
    IsBoundary source (endOf first ts n) := by
  obtain ⟨t, ht, hend⟩ := exists_endOf first ts n
  rw [hend]
  exact (h.fits t ht).stop

theorem start_le_endOf (h : TokensInRow source (first :: ts)) (n : Nat) :
    first.span.start ≤ endOf first ts n := by
  obtain ⟨t, ht, hend⟩ := exists_endOf first ts n
  rw [hend]
  exact (h.start_le ht).2

/-- The `endOf` what is taken does not lie in front of its second token, if it takes that. -/
theorem stop_le_endOf {n : Nat} (h : TokensInRow source (first :: t :: us)) (hn : n ≤ us.length) :
    t.span.stop ≤ endOf first (t :: us) (n + 1) := by
  have hlt : n < (t :: us).length := Nat.lt_succ_of_le hn
  have hlast : ((t :: us).take (n + 1)).getLast? = some (t :: us)[n] := by
    rw [List.getLast?_take, if_neg (Nat.succ_ne_zero n), Nat.add_sub_cancel,
      List.getElem?_eq_getElem hlt]
    rfl
  have hend : endOf first (t :: us) (n + 1) = (t :: us)[n].span.stop := by
    rw [endOf, List.getElem?_cons_succ, List.getElem?_eq_getElem hlt]
    rfl
  rw [hend]
  exact (h.tail.sublist (List.take_sublist (n + 1) _)).le_stop hlast (List.mem_cons_self ..)

/-- From the start of the first token to the end of any other one is a span that `Fits`. -/
theorem spanOf (h : TokensInRow source (first :: ts)) (n : Nat) :
    (spanOf first ts n).Fits source :=
  .of_boundaries (h.fits first (List.mem_cons_self ..)).start (h.isBoundary_endOf n)
    (h.start_le_endOf n)

/-- The span of a run, `Span.ofRun?`, fits, and all tokens of the run are in it. -/
theorem ofRun? (h : TokensInRow source ts) {s : Span} (hs : Span.ofRun? ts = some s) :
    s.Fits source ∧ ∀ t ∈ ts, s.start ≤ t.span.start ∧ t.span.stop ≤ s.stop := by
  cases ts with
  | nil => cases hs
  | cons first rest =>
    obtain ⟨last, hlast⟩ : ∃ last, (first :: rest).getLast? = some last :=
      ⟨_, List.getLast?_eq_some_getLast (List.cons_ne_nil first rest)⟩
    rw [Span.ofRun?, List.head?_cons, hlast] at hs
    obtain rfl : first.span.cover last.span = s := Option.some.inj hs
    have hmem : last ∈ first :: rest := List.mem_of_getLast? hlast
    refine ⟨(h.fits first (List.mem_cons_self ..)).cover (h.fits last hmem), fun t ht => ⟨?_, ?_⟩⟩
    · exact Nat.le_trans (Nat.min_le_left _ _) (h.start_le ht).1
    · exact Nat.le_trans (h.le_stop hlast ht) (Nat.le_max_right _ _)

end TokensInRow

end RsxInspect
