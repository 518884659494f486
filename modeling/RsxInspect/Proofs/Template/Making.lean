import RsxInspect.Proofs.Template.Invariant
import RsxInspect.Proofs.Template.Keywords
import RsxInspect.Proofs.Template.Nesting
import RsxInspect.Proofs.Template.Spans

/-!
# What is made of tokens

The spans of a file are made of those of its tokens: of expressions, attribute values, heads, nodes
and the frames that become nodes. All of them fit the source, as the tokens do. Two more facts go
along, since they are only to be had where the tokens are:

* `Expression.Explained`: an expression without a tree is explained, by something that is reported
  where it is, or, in an attribute value, by the tag that closes the template;
* `AttributeValue.Made`: an attribute value is the text of a token.

`Node.Made` and `Frame.Made` say all this of a node and of a frame. The rest of the module shows how
they come about, along the readers: runs (`ofRun?_explained`), attribute values
(`AttributeValue.ofToken_made`), the attributes of a tag (`TagTokens.made`), and nodes. A list of
diagnostics that grows keeps all of them (`Made.mono`), which is what the loops over pieces and
sections need.
-/

namespace RsxInspect

/-! ### Diagnostics of a place

What is said of a token, a run or a piece stands where these stand and speaks of nothing larger. -/

namespace Problem

/-- Whether a problem is one of a section as a whole, or of a tag that has no end. These two are
said by the loops, and are counted there. -/
def isOfDelimiter : Problem → Bool
  | duplicateSection _ | unclosedSection _ => true
  | openTagWithoutEnd _ | startTagWithoutEnd _ | endTagWithoutEnd | unclosedElement _ => true
  | _ => false

end Problem

/-- A token of the file that may be said to have no end: if it opens a section, then no `>` is the
last of its characters, as `openTagProblem` has it. -/
structure Token.Endless (source : String) (t : Token) : Prop where
  mem : t ∈ significantTokens source
  text : (Document.sectionOpenedBy? t.kind).isSome = true →
    endsWith ['>'] (t.text source).toList = false

namespace Diagnostic

/-- What says that a tag has no end, `missingTagClose`, starts with the token that starts the
tag. -/
def OnTag (source : String) (d : Diagnostic) : Prop :=
  d.kind = .missingTagClose → ∃ t : Token, t.Endless source ∧ d.span.start = t.span.start

/-- The diagnostic stands where it can be shown, and it speaks of something inside of a section or
of a tag that starts there (`OnTag`). -/
structure Local (source : String) (d : Diagnostic) : Prop where
  fits : d.span.Fits source
  kind : d.kind ≠ .unterminatedSection ∧ d.kind ≠ .duplicateSection
  tag : d.OnTag source

end Diagnostic

section Local

variable {source : String} {p : Problem} {span : Span}

/-- A problem that `isOfDelimiter` excludes, on a span that fits, is `Local`. -/
theorem Problem.local (hp : p.isOfDelimiter = false) (hspan : span.Fits source) :
    (p.on span).Local source := by
  refine ⟨hspan, ⟨fun h => ?_, fun h => ?_⟩, fun h => ?_⟩
  all_goals cases p <;> first | (cases h; done) | cases hp

/-- That a tag has no end is `Local` too, on a span from the token that opens it. -/
theorem Problem.local_tag {t : Token} (hp : p.kind = .missingTagClose) (hspan : span.Fits source)
    (ht : t.Endless source) (hstart : span.start = t.span.start) : (p.on span).Local source := by
  refine ⟨hspan, ⟨?_, ?_⟩, fun _ => ⟨t, ht, hstart⟩⟩
  all_goals
    show p.kind ≠ _
    rw [hp]
    decide

/-- A problem on a whole run, by `Span.ofRun?`, is `Local`; an empty run reports nothing. -/
theorem Problem.onRun?_local (hp : p.isOfDelimiter = false) {run : List Token}
    (hrun : TokensInRow source run) : ∀ d ∈ p.onRun? run, d.Local source := by
  intro d hd
  obtain ⟨s, hs, rfl⟩ := Option.map_eq_some_iff.mp (Option.mem_toList.mp hd)
  exact Problem.local hp (hrun.ofRun? hs).1

/-- What is reported under a condition has a property if both of the lists have. -/
theorem forall_mem_ite {α : Type} {P : α → Prop} {c : Prop} [Decidable c] {xs ys : List α}
    (hx : ∀ x ∈ xs, P x) (hy : ∀ y ∈ ys, P y) : ∀ x ∈ if c then xs else ys, P x := by
  split
  · exact hx
  · exact hy

/-- What `lexicalProblem?` finds is no problem of a section or a tag. -/
theorem lexicalProblem?_isOfDelimiter {kind : TokenKind} {text : String}
    (h : lexicalProblem? kind text = some p) : p.isOfDelimiter = false := by
  unfold lexicalProblem? at h
  dsimp only at h
  repeat' split at h
  all_goals
    cases h
    try rfl

/-- So the anomaly of a token is `Local`, on the token itself. -/
theorem Token.anomaly?_local {t : Token} {d : Diagnostic} (ht : t.span.Fits source)
    (h : t.anomaly? source = some d) : d.Local source := by
  obtain ⟨p, hp, rfl⟩ := Option.map_eq_some_iff.mp h
  exact Problem.local (lexicalProblem?_isOfDelimiter hp) ht

/-- The same for all tokens of a row. -/
theorem anomalies_local {ts : List Token} (h : TokensInRow source ts) :
    ∀ d ∈ ts.filterMap (·.anomaly? source), d.Local source := by
  intro d hd
  obtain ⟨t, ht, hd⟩ := List.mem_filterMap.mp hd
  exact Token.anomaly?_local (h.fits t ht) hd

end Local

/-! ### Well made

What is said here of an expression, a value, a head, a node and a frame is what a file is checked
for. `ds` are the diagnostics so far, all of them or those of a prefix. -/

/-- Something on the list `ds` is reported where the span is, inside or around it. -/
def Span.Noted (ds : List Diagnostic) (s : Span) : Prop := ∃ d ∈ ds, d.span.Touches s

/-- The bad characters among the tokens are on the list `ds`, each on its own span. -/
def BadNoted (ds : List Diagnostic) (ts : List Token) : Prop :=
  ∀ t ∈ ts, t.kind = .badCharacter → ∃ d ∈ ds, d.span = t.span

/-- If trees are wanted and the expression has none, then something is reported where it is
(`Span.Noted`); only in an attribute value it may be that the tag that closes the template stands in
it, of which nothing is said. -/
def Expression.Explained (r : Reading) (ds : List Diagnostic) (inValue : Bool) (e : Expression) :
    Prop :=
  r.withTrees = true → e.tree = none →
    e.span.Noted ds ∨ inValue = true ∧ ∃ t ∈ e.tokens, t.kind = .templateClose

/-- The value is the text of a token, and an expression without a tree in it is explained, as one in
a value. -/
structure AttributeValue.Made (r : Reading) (ds : List Diagnostic) (v : AttributeValue) : Prop where
  copied : ∃ t ∈ significantTokens r.source, t.kind = .attrValue ∧ v.raw = r.textOf t
  explained : ∀ e ∈ v.expression, e.Explained r ds true

/-- The own spans of a node fit the source, its own expressions without trees are explained, and its
attribute values are read from tokens. Its children are not looked at: `Node.subtreeAll` goes over
these. -/
structure Node.Made (r : Reading) (ds : List Diagnostic) (n : Node) : Prop where
  fits : Span.AllFit r.source n.ownSpans
  explained : ∀ e ∈ n.expressions, e.Explained r ds false
  values : ∀ v ∈ n.attributeValues, v.Made r ds

/-- The same for the head of a branch: its spans and the expression in it. -/
structure BranchHead.Made (r : Reading) (ds : List Diagnostic) (h : BranchHead) : Prop where
  fits : Span.AllFit r.source h.spans
  explained : ∀ e ∈ h.expression, e.Explained r ds false

/-- The same for the attributes of a tag. -/
structure AttributesMade (r : Reading) (ds : List Diagnostic) (as : List Attribute) : Prop where
  fits : Span.AllFit r.source (as.flatMap Attribute.spans)
  values : ∀ a ∈ as, ∀ v ∈ a.value, v.Made r ds

/-- What becomes of a frame that is closed at the offset `here` or later will be such a node. The
start tag of an element starts with a token that may be said to have no end (`Token.Endless`), since
that is what is said of the element if it is never closed. -/
def Frame.Made (r : Reading) (ds : List Diagnostic) (here : Nat) : Frame → Prop
  | .element e _ =>
    (e.span.Fits r.source ∧ e.startTag.Fits r.source ∧ AttributesMade r ds e.attributes ∧
        ∃ t : Token, t.Endless r.source ∧ e.startTag.start = t.span.start) ∧
      e.span.start ≤ here
  | .block b =>
    (b.head.Made r ds ∧ ∀ x ∈ b.done.toList, x.head.Made r ds) ∧
      b.firstHead.start ≤ here

/-! ### Expressions

An expression is read from a run of tokens. Either the run has a tree, or `Expr.parse` refuses it,
or it has a token that is no part of an expression. -/

/-- The tokens are in a row, and what is no part of an expression among them is a bad character that
is on the list; only in a value (`inValue`) it may be that the tag that closes the template is one
of them. -/
structure Legible (r : Reading) (ds : List Diagnostic) (inValue : Bool) (run : List Token) :
    Prop where
  row : TokensInRow r.source run
  kinds : (∀ t ∈ run, t.kind.isExpression = true ∨ t.kind = .badCharacter) ∨
    inValue = true ∧ ∃ t ∈ run, t.kind = .templateClose
  bad : BadNoted ds run

namespace Expression

variable {r : Reading} {ds : List Diagnostic} {inValue : Bool} {run : List Token} {wanted : Bool}

/-- The tree of a run stands in it, and so does the report of `Expr.parse` if there is no tree: the
offending token is one of the run, and the end of input is the end of the last token. -/
theorem parse_made {source : String} (h : TokensInRow source run) {s : Span}
    (hs : Span.ofRun? run = some s) :
    match Expr.parse source run with
    | .ok e => Span.AllFit source e.spans
    | .error d => d.span.Touches s ∧ d.Local source := by
  obtain ⟨-, hwithin⟩ := h.ofRun? hs
  have htokens : ∀ t ∈ run, t.span.Fits source ∧ t.span.Touches s := fun t ht =>
    ⟨h.fits t ht, .of_within (h.fits t ht).le (hwithin t ht).1 (hwithin t ht).2⟩
  have hclosed : (Expr.Passage.of source run).Closed fun x => x.Fits source ∧ x.Touches s := by
    refine ⟨?_, fun x y hx hy => ⟨hx.1.cover hy.1, hx.2.cover y⟩⟩
    -- the end of the run is that of its last token
    cases hlast : run.getLast? with
    | none =>
      rw [List.getLast?_eq_none_iff.mp hlast] at hs
      cases hs
    | some last =>
      have hmem := List.mem_of_getLast? hlast
      have hend : (Expr.Passage.of source run).endSpan = Span.point last.span.stop := by
        rw [Expr.Passage.endSpan, Expr.Passage.of, hlast]
        rfl
      rw [hend]
      exact ⟨.point (h.fits last hmem).stop, (hwithin last hmem).2, (htokens last hmem).2.2⟩
  have hspans := Expr.spans_of_parse hclosed htokens
  cases hparse : Expr.parse source run with
  | ok e =>
    rw [hparse] at hspans
    exact fun x hx => (hspans x hx).1
  | error d =>
    rw [hparse] at hspans
    obtain ⟨⟨hfits, htouches⟩, hkind⟩ := hspans
    exact ⟨htouches, hfits, ⟨by rw [hkind]; decide, by rw [hkind]; decide⟩,
      fun htag => absurd (hkind.symm.trans htag) (by decide)⟩

/-- What is reported of the expression of a run is `Local`. -/
theorem ofRun?_local (h : TokensInRow r.source run) (wanted : Bool) :
    ∀ d ∈ (ofRun? r run wanted).2, d.Local r.source := by
  have hnil : ∀ d ∈ ([] : List Diagnostic), d.Local r.source := fun d hd => (nomatch hd)
  unfold ofRun?
  cases hs : Span.ofRun? run with
  | none => exact hnil
  | some s =>
    have hparse := parse_made h hs
    dsimp only
    split
    · split
      · exact hnil
      · rename_i d herror
        rw [herror] at hparse
        exact List.forall_mem_singleton.mpr hparse.2
    · exact hnil

/-- The expression of a run is the run, where it stands (`Span.ofRun?`). It has the tree of the run,
or there is a reason why not: it was refused and that is reported, it has a foreign token, or no
tree was wanted. -/
theorem ofRun?_cases {e : Expression} (he : e ∈ (ofRun? r run wanted).1) :
    e.tokens = run ∧ Span.ofRun? run = some e.span ∧
      ((∃ tree, e.tree = some tree ∧ Expr.parse r.source run = .ok tree) ∨
        (∃ d, e.tree = none ∧ Expr.parse r.source run = .error d ∧ d ∈ (ofRun? r run wanted).2) ∨
        e.tree = none ∧ ¬ (wanted && r.withTrees && run.all (·.kind.isExpression)) = true) := by
  unfold ofRun? at he ⊢
  -- no run, a tree, a refused run, or a run that is not parsed
  cases hs : Span.ofRun? run with
  | none =>
    rw [hs] at he
    cases he
  | some s =>
    rw [hs] at he
    dsimp only at he ⊢
    split at he
    · rename_i hwanted
      rw [if_pos hwanted]
      split at he
      · rename_i tree hparse
        exact Option.some.inj he ▸ ⟨rfl, rfl, .inl ⟨tree, rfl, hparse⟩⟩
      · rename_i d hparse
        refine Option.some.inj he ▸ ⟨rfl, rfl, .inr (.inl ⟨d, rfl, hparse, ?_⟩)⟩
        exact List.mem_singleton_self d
    · rename_i hwanted
      exact Option.some.inj he ▸ ⟨rfl, rfl, .inr (.inr ⟨rfl, hwanted⟩)⟩

/-- The spans of what `ofRun?` gives, those of the expression and of its tree, fit the source. -/
theorem ofRun?_fits (h : TokensInRow r.source run) {e : Expression}
    (he : e ∈ (ofRun? r run wanted).1) : Span.AllFit r.source e.spans := by
  obtain ⟨htokens, hs, hcases⟩ := ofRun?_cases he
  have hparse := parse_made h hs
  refine .cons (h.ofRun? hs).1 (.append ?_ (.flatMap fun tree htree => ?_))
  · rw [htokens]
    intro s hs
    obtain ⟨t, ht, rfl⟩ := List.mem_map.mp hs
    exact h.fits t ht
  · rw [Option.mem_toList] at htree
    rcases hcases with ⟨tree', htree', hok⟩ | ⟨d, hnone, -⟩ | ⟨hnone, -⟩
    · obtain rfl := Option.some.inj (htree'.symm.trans htree)
      rw [hok] at hparse
      exact hparse
    · cases hnone.symm.trans htree
    · cases hnone.symm.trans htree

/-- **Expressions without trees** are `Explained`: the tokens are no expression, or one of them is
no part of any, or no tree was asked for, and then `hunwanted` has the reason. -/
theorem ofRun?_explained (h : Legible r ds inValue run)
    (hds : ∀ d ∈ (ofRun? r run wanted).2, d ∈ ds)
    (hunwanted : wanted = false → ∀ s, Span.ofRun? run = some s → s.Noted ds) {e : Expression}
    (he : e ∈ (ofRun? r run wanted).1) : e.Explained r ds inValue := by
  intro htrees hnone
  obtain ⟨htokens, hs, hcases⟩ := ofRun?_cases he
  have hparse := parse_made h.row hs
  rcases hcases with ⟨tree, htree, -⟩ | ⟨d, -, herror, hd⟩ | ⟨-, hwanted⟩
  · cases hnone.symm.trans htree
  · -- the grammar says why there is no tree
    rw [herror] at hparse
    exact .inl ⟨d, hds d hd, hparse.1⟩
  · cases wanted with
    | false => exact .inl (hunwanted rfl e.span hs)
    | true =>
      rcases h.kinds with hkinds | hclose
      · -- a token that is no part of an expression is a bad character
        obtain ⟨t, ht, hkind⟩ : ∃ t ∈ run, ¬ t.kind.isExpression = true := by
          by_contra hnot
          have hall : run.all (·.kind.isExpression) = true := by
            refine List.all_eq_true.mpr fun t ht => ?_
            by_contra hkind
            exact hnot ⟨t, ht, hkind⟩
          exact hwanted (by rw [htrees, hall]; rfl)
        obtain ⟨d, hd, hspan⟩ := h.bad t ht ((hkinds t ht).resolve_left hkind)
        obtain ⟨hstart, hstop⟩ := (h.row.ofRun? hs).2 t ht
        exact .inl ⟨d, hd, hspan ▸ .of_within (h.row.fits t ht).le hstart hstop⟩
      · rw [htokens]
        exact .inr hclose

/-- In particular if a tree was asked for, where the last of these cases is none. -/
theorem ofRun?_wanted (h : Legible r ds inValue run)
    (hds : ∀ d ∈ (ofRun? r run true).2, d ∈ ds) :
    ∀ e ∈ (ofRun? r run true).1, e.Explained r ds inValue :=
  fun _ he => ofRun?_explained h hds nofun he

end Expression

/-! ### Tags

The tokens between the braces of a value are read by themselves (`valueTokens`), in their
places. -/

section Tags

variable {r : Reading} {ds : List Diagnostic} {t : Token} {us : List Token}

/-- The tokens between the braces of a value are `Legible`: bad characters are reported by
`AttributeValue.ofToken`, and a tag that is none of an expression is the one that closes the
template. -/
theorem valueTokens_legible (ht : t ∈ significantTokens r.source) (hkind : t.kind = .attrValue)
    (hbraces : Delimiter.openBraces.isPrefixOf (r.textOf t).toList = true)
    (hds : ∀ d ∈ (valueTokens r t).2, d ∈ ds) : Legible r ds true (valueTokens r t).1 := by
  obtain ⟨done, inner, beyond, hinner⟩ := exists_inner (fits_significantTokens r.source t ht) hbraces
  refine ⟨hinner.tokensInRow, ?_, fun u hu hbad => ?_⟩
  · exact (valueTokens_cases ht hkind hbraces).imp_right fun h => ⟨rfl, h⟩
  · have hanomaly : u.anomaly? r.source
        = some ((Problem.badCharacter (u.text r.source)).on u.span) := by
      rw [Token.anomaly?, hbad]
      rfl
    exact ⟨_, hds _ (List.mem_filterMap.mpr ⟨u, hu, hanomaly⟩), rfl⟩

/-- What is reported of an attribute value is `Local`. -/
theorem AttributeValue.ofToken_local (ht : t ∈ significantTokens r.source) :
    ∀ d ∈ (AttributeValue.ofToken r t).2, d.Local r.source := by
  have hfits := fits_significantTokens r.source t ht
  unfold AttributeValue.ofToken
  dsimp only
  split
  · rename_i hbraces
    obtain ⟨done, inner, beyond, hinner⟩ := exists_inner hfits hbraces
    refine List.forall_mem_append.mpr ⟨List.forall_mem_append.mpr
      ⟨anomalies_local hinner.tokensInRow, Expression.ofRun?_local hinner.tokensInRow true⟩, ?_⟩
    exact forall_mem_ite (List.forall_mem_singleton.mpr (Problem.local rfl hfits))
      (List.forall_mem_nil _)
  · exact List.forall_mem_nil _

/-- The value that `AttributeValue.ofToken` gives is the text of the token, and its expression, if
it has one, is explained as one in a value. -/
theorem AttributeValue.ofToken_made (ht : t ∈ significantTokens r.source)
    (hkind : t.kind = .attrValue) (hds : ∀ d ∈ (AttributeValue.ofToken r t).2, d ∈ ds) :
    Span.AllFit r.source (AttributeValue.ofToken r t).1.spans ∧
      (AttributeValue.ofToken r t).1.Made r ds := by
  have hfits := fits_significantTokens r.source t ht
  revert hds
  unfold AttributeValue.ofToken
  dsimp only
  split
  · rename_i hbraces
    intro hds
    have hlegible := valueTokens_legible ht hkind hbraces fun d hd =>
      hds d (List.mem_append_left _ (List.mem_append_left _ hd))
    refine ⟨.cons hfits (.flatMap fun e he => ?_), ⟨t, ht, hkind, rfl⟩, fun e he => ?_⟩
    · exact Expression.ofRun?_fits hlegible.row (Option.mem_toList.mp he)
    · exact Expression.ofRun?_wanted hlegible
        (fun d hd => hds d (List.mem_append_left _ (List.mem_append_right _ hd))) e he
  · exact fun _ => ⟨.single hfits, ⟨t, ht, hkind, rfl⟩, nofun⟩

/-- An attribute covers the tokens that it is read from (`AttributeTokens`): its name, and its value
behind `=`. -/
theorem AttributeTokens.made {a : Attribute} {es : List Diagnostic}
    (h : AttributeTokens r us a es) (ds : List Diagnostic)
    (hus : ∀ u ∈ us, u ∈ significantTokens r.source) :
    (∀ d ∈ es, d.Local r.source) ∧ ((∀ d ∈ es, d ∈ ds) → AttributesMade r ds [a]) := by
  have hfits : ∀ u ∈ us, u.span.Fits r.source := fun u hu =>
    fits_significantTokens r.source u (hus u hu)
  -- a value that is missing has no expression
  have hbare : ∀ {name : String} {span : Span}, span.Fits r.source →
      AttributesMade r ds [⟨name, none, span⟩] := by
    intro name span hspan
    refine ⟨.single hspan, fun a ha v hv => ?_⟩
    rw [List.mem_singleton.mp ha] at hv
    cases hv
  cases h with
  | bare => exact ⟨List.forall_mem_nil _, fun _ => hbare (hfits _ (List.mem_cons_self ..))⟩
  | @unvalued t equals =>
    have hequals : equals.span.Fits r.source := hfits _ (by simp)
    exact ⟨List.forall_mem_singleton.mpr (Problem.local rfl hequals),
      fun _ => hbare ((hfits t (by simp)).cover hequals)⟩
  | @valued t equals v _ _ hkind =>
    have hv : v ∈ significantTokens r.source := hus v (by simp)
    refine ⟨AttributeValue.ofToken_local hv, fun hds => ?_⟩
    obtain ⟨hvalue, hmade⟩ := AttributeValue.ofToken_made hv hkind hds
    refine ⟨?_, fun a ha w hw => ?_⟩
    · have hspan := ((hfits t (by simp)).cover (hfits equals (by simp))).cover (hfits v (by simp))
      refine .flatMap fun a ha => ?_
      rw [List.mem_singleton.mp ha]
      refine .cons hspan (.flatMap fun w hw => ?_)
      rw [← Option.some.inj (Option.mem_toList.mp hw)]
      exact hvalue
    · rw [List.mem_singleton.mp ha] at hw
      exact Option.some.inj hw ▸ hmade

/-- Attributes in front of others: `AttributesMade` of both lists. -/
theorem AttributesMade.append {as bs : List Attribute} (ha : AttributesMade r ds as)
    (hb : AttributesMade r ds bs) : AttributesMade r ds (as ++ bs) := by
  refine ⟨?_, fun a h => (List.mem_append.mp h).elim (ha.values a) (hb.values a)⟩
  rw [List.flatMap_append]
  exact ha.fits.append hb.fits

/-- No attributes at all. -/
theorem AttributesMade.nil : AttributesMade r ds [] := ⟨.nil, fun _ ha => (nomatch ha)⟩

/-- A token that is not expected is reported on itself. -/
theorem Reading.unexpected_local (t : Token) (place : Place) (ht : t.span.Fits r.source) :
    (r.unexpected t place).Local r.source := Problem.local rfl ht

/-- The attributes of a start tag are read from its tokens, one after the other, by induction on
`TagTokens`. -/
theorem TagTokens.made {as : List Attribute} {last : Option TokenKind} {es : List Diagnostic}
    (h : TagTokens r us as last es) (ds : List Diagnostic)
    (hus : ∀ u ∈ us, u ∈ significantTokens r.source) :
    (∀ d ∈ es, d.Local r.source) ∧ ((∀ d ∈ es, d ∈ ds) → AttributesMade r ds as) := by
  induction h with
  | unended => exact ⟨List.forall_mem_nil _, fun _ => .nil⟩
  | ended => exact ⟨List.forall_mem_nil _, fun _ => .nil⟩
  | attr ha more ih =>
    obtain ⟨hlocal, hmade⟩ := ha.made ds fun u hu => hus u (List.mem_append_left _ hu)
    obtain ⟨hlocals, hmades⟩ := ih fun u hu => hus u (List.mem_append_right _ hu)
    refine ⟨List.forall_mem_append.mpr ⟨hlocal, hlocals⟩, fun hds => ?_⟩
    exact (hmade fun d hd => hds d (List.mem_append_left _ hd)).append
      (hmades fun d hd => hds d (List.mem_append_right _ hd))
  | bad ht more ih => exact ih fun u hu => hus u (List.mem_cons_of_mem _ hu)
  | stray htag hself hclose more ih =>
    obtain ⟨hlocals, hmades⟩ := ih fun u hu => hus u (List.mem_cons_of_mem _ hu)
    refine ⟨List.forall_mem_cons.mpr ⟨?_, hlocals⟩, fun hds => hmades fun d hd =>
      hds d (List.mem_cons_of_mem _ hd)⟩
    exact r.unexpected_local _ _ (fits_significantTokens _ _ (hus _ (List.mem_cons_self ..)))

end Tags

/-! ### Nodes and frames

What is well made stays so when more is reported, and what is built from parts is well made if they
are. -/

section Nodes

variable {r : Reading} {ds ds' : List Diagnostic} {span : Span}

/-- An expression that a list explains stays `Explained` by a longer one. -/
theorem Expression.Explained.mono {e : Expression} {inValue : Bool} (h : e.Explained r ds inValue)
    (hds : ∀ d ∈ ds, d ∈ ds') : e.Explained r ds' inValue := fun htrees hnone =>
  (h htrees hnone).imp_left fun ⟨d, hd, htouches⟩ => ⟨d, hds d hd, htouches⟩

/-- A value stays `Made` for a longer list. -/
theorem AttributeValue.Made.mono {v : AttributeValue} (h : v.Made r ds) (hds : ∀ d ∈ ds, d ∈ ds') :
    v.Made r ds' := ⟨h.copied, fun e he => (h.explained e he).mono hds⟩

/-- So do attributes, as `AttributesMade` says it. -/
theorem AttributesMade.mono {as : List Attribute} (h : AttributesMade r ds as)
    (hds : ∀ d ∈ ds, d ∈ ds') : AttributesMade r ds' as :=
  ⟨h.fits, fun a ha v hv => (h.values a ha v hv).mono hds⟩

/-- So does the head of a branch, as `BranchHead.Made` says it. -/
theorem BranchHead.Made.mono {head : BranchHead} (h : head.Made r ds) (hds : ∀ d ∈ ds, d ∈ ds') :
    head.Made r ds' := ⟨h.fits, fun e he => (h.explained e he).mono hds⟩

namespace Node

/-- So does a node, as `Node.Made` says it. -/
theorem Made.mono {n : Node} (h : n.Made r ds) (hds : ∀ d ∈ ds, d ∈ ds') : n.Made r ds' :=
  ⟨h.fits, fun e he => (h.explained e he).mono hds, fun v hv => (h.values v hv).mono hds⟩

/-- The expressions of attribute values are `Explained` as such, so the tag that closes the template
may stand in them. -/
theorem Made.explained_values {n : Node} (h : n.Made r ds) :
    ∀ e ∈ n.valueExpressions, e.Explained r ds true := by
  intro e he
  cases n with
  | element element children =>
    obtain ⟨a, ha, he⟩ := List.mem_flatMap.mp he
    obtain ⟨v, hv, he⟩ := List.mem_flatMap.mp he
    exact (h.values v (List.mem_flatMap.mpr ⟨a, ha, hv⟩)).explained e (Option.mem_toList.mp he)
  | _ => cases he

/-- An error node is its span. -/
theorem made_error (h : span.Fits r.source) : (Node.error span).Made r ds :=
  ⟨.single h, nofun, nofun⟩

/-- An element is its span, its tags and its attributes. -/
theorem made_element {e : Element} {children : List Node} (hspan : e.span.Fits r.source)
    (htag : e.startTag.Fits r.source) (hend : ∀ s ∈ e.endTag, s.Fits r.source)
    (h : AttributesMade r ds e.attributes) : (Node.element e children).Made r ds := by
  refine ⟨.cons hspan (.cons htag (.append (.toList hend) h.fits)), nofun, fun v hv => ?_⟩
  obtain ⟨a, ha, hv⟩ := List.mem_flatMap.mp hv
  exact h.values a ha v (Option.mem_toList.mp hv)

/-- A block is its span, its closing delimiter and the heads of its branches. -/
theorem made_directive {d : Directive} {branches : List Branch} (hspan : d.span.Fits r.source)
    (hclosing : ∀ s ∈ d.closing, s.Fits r.source) (h : ∀ b ∈ branches, b.head.Made r ds) :
    (Node.directive d branches).Made r ds := by
  refine ⟨.cons hspan (.append (.toList hclosing) (.flatMap fun b hb => (h b hb).fits)),
    fun x hx => ?_, nofun⟩
  obtain ⟨b, hb, hx⟩ := List.mem_flatMap.mp hx
  exact (h b hb).explained x (Option.mem_toList.mp hx)

end Node

end Nodes

namespace Frame.Made

variable {r : Reading} {ds ds' : List Diagnostic} {a b : Nat} {frame : Frame}

/-- A node that `push` adds to a frame does not change what the frame itself will be. -/
theorem push (h : frame.Made r ds a) (n : Node) : (frame.push n).Made r ds a := by
  cases frame <;> exact h

/-- A frame stays `Made` for a longer list and a later offset. -/
theorem mono (h : frame.Made r ds a) (hds : ∀ d ∈ ds, d ∈ ds') (hle : a ≤ b) :
    frame.Made r ds' b := by
  cases frame with
  | element e children =>
    obtain ⟨⟨hspan, htag, hattributes, htoken⟩, hstart⟩ := h
    exact ⟨⟨hspan, htag, hattributes.mono hds, htoken⟩, Nat.le_trans hstart hle⟩
  | block block =>
    obtain ⟨⟨hhead, hdone⟩, hstart⟩ := h
    exact ⟨⟨hhead.mono hds, fun x hx => (hdone x hx).mono hds⟩, Nat.le_trans hstart hle⟩

/-- What opens a frame stands where it can be shown, since the frame could be closed right there. -/
theorem opening (h : frame.Made r ds a) : frame.opening.Fits r.source := by
  cases frame with
  | element e children => exact h.1.2.1
  | block block =>
    obtain ⟨⟨hhead, hdone⟩, -⟩ := h
    show block.firstHead.Fits r.source
    unfold OpenBlock.firstHead
    cases hfirst : block.done[0]? with
    | none => exact hhead.fits _ (List.mem_cons_self ..)
    | some x =>
      have hx : x ∈ block.done.toList := Array.mem_toList_iff.mpr (Array.mem_of_getElem? hfirst)
      exact (hdone x hx).fits _ (List.mem_cons_self ..)

/-- What `Frame.close` makes of a frame, at a boundary behind all it holds, is `Made`. -/
theorem close (h : frame.Made r ds a) {stop : Nat} {closing : Option Span}
    (hstop : IsBoundary r.source stop) (hle : a ≤ stop) (hclosing : ∀ s ∈ closing, s.Fits r.source) :
    (frame.close stop closing).Made r ds := by
  have hopening := h.opening
  cases frame with
  | element e children =>
    obtain ⟨⟨hspan, htag, hattributes, -⟩, hstart⟩ := h
    exact Node.made_element (.of_boundaries hspan.start hstop (Nat.le_trans hstart hle)) htag
      hclosing hattributes
  | block block =>
    obtain ⟨⟨hhead, hdone⟩, hstart⟩ := h
    refine Node.made_directive
      (.of_boundaries hopening.start hstop (Nat.le_trans hstart hle)) hclosing fun x hx => ?_
    rw [Array.toList_push] at hx
    rcases List.mem_append.mp hx with hx | hx
    · exact hdone x hx
    · rw [List.mem_singleton.mp hx]
      exact hhead

end Frame.Made

end RsxInspect
