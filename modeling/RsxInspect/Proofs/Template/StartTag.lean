import RsxInspect.Proofs.Template.Extent

/-!
# What a start tag is read from

`TagTokens` derives the attributes of a start tag, the kind of the token that ends it and its
diagnostics from the tokens behind its name: each attribute takes one, two or three of them
(`AttributeTokens`), and all others are skipped, with a report unless they are bad characters.

The reader of start tags follows it: `readAttribute_tokens` for one attribute,
`TagBody.readFrom_tokens` for the rest of a tag, `readStartTag_cases` for all of it. So what holds
of attributes and of the end of a tag is shown by induction on the derivation, without the rest of
the file behind it.
-/

namespace RsxInspect

/-- The tokens of an attribute, what becomes of them, and its diagnostics: a name alone, a name with
an equals sign, or a name with an equals sign and a value (`AttributeValue.ofToken`). -/
inductive AttributeTokens (r : Reading) : List Token → Attribute → List Diagnostic → Prop where
  | bare {t : Token} (ht : t.kind = .attrName) :
      AttributeTokens r [t] ⟨r.textOf t, none, t.span⟩ []
  | unvalued {t equals : Token} (ht : t.kind = .attrName) (hequals : equals.kind = .equals) :
      AttributeTokens r [t, equals] ⟨r.textOf t, none, t.span.cover equals.span⟩
        [Problem.attributeWithoutValue.on equals.span]
  | valued {t equals v : Token} (ht : t.kind = .attrName) (hequals : equals.kind = .equals)
      (hv : v.kind = .attrValue) :
      AttributeTokens r [t, equals, v]
        ⟨r.textOf t, some (AttributeValue.ofToken r v).1,
          (t.span.cover equals.span).cover v.span⟩
        (AttributeValue.ofToken r v).2

/-- The tokens of a start tag behind its name, its attributes, the kind of its last token if that
ends it (`tagClose` or `selfClose`), and its diagnostics. -/
inductive TagTokens (r : Reading) :
    List Token → List Attribute → Option TokenKind → List Diagnostic → Prop where
  | unended : TagTokens r [] [] none []
  | ended {t : Token} (ht : t.kind = .tagClose ∨ t.kind = .selfClose) :
      TagTokens r [t] [] (some t.kind) []
  | attr {us ts : List Token} {a : Attribute} {as : List Attribute} {last : Option TokenKind}
      {ds es : List Diagnostic} (ha : AttributeTokens r us a ds) (rest : TagTokens r ts as last es) :
      TagTokens r (us ++ ts) (a :: as) last (ds ++ es)
  | bad {t : Token} {ts : List Token} {as : List Attribute} {last : Option TokenKind}
      {es : List Diagnostic} (ht : t.kind = .badCharacter) (rest : TagTokens r ts as last es) :
      TagTokens r (t :: ts) as last es
  | stray {t : Token} {ts : List Token} {as : List Attribute} {last : Option TokenKind}
      {es : List Diagnostic} (htag : t.kind ≠ .tagClose) (hself : t.kind ≠ .selfClose)
      (hclose : t.kind ≠ .templateClose) (rest : TagTokens r ts as last es) :
      TagTokens r (t :: ts) as last (r.unexpected t .startTag :: es)

/-- An attribute takes the tokens that it is read from, and these are `AttributeTokens`. -/
theorem readAttribute_tokens (r : Reading) {t : Token} (ht : t.kind = .attrName) (ts : List Token) :
    (readAttribute r t ts).taken ≤ ts.length ∧
      AttributeTokens r (t :: ts.take (readAttribute r t ts).taken) (readAttribute r t ts).content
        (readAttribute r t ts).diagnostics := by
  unfold readAttribute
  -- as `readAttribute` matches: a name alone, one with `=`, and one with `=` and a value
  cases ts with
  | nil => exact ⟨Nat.le_refl _, .bare ht⟩
  | cons equals ts =>
    dsimp only
    split
    · rename_i hequals
      rw [beq_iff_eq] at hequals
      split
      · rename_i v hv
        obtain ⟨hhead, hkind⟩ := Option.filter_eq_some_iff.mp hv
        obtain ⟨rest, rfl⟩ := List.head?_eq_some_iff.mp hhead
        rw [beq_iff_eq] at hkind
        exact ⟨Nat.le_add_left 2 rest.length, .valued ht hequals hkind⟩
      · exact ⟨Nat.le_add_left 1 ts.length, .unvalued ht hequals⟩
    · exact ⟨Nat.zero_le _, .bare ht⟩

/-- The rest of a start tag is read from the tokens that it takes, a front of those that are there.
The induction is on the recursion of `TagBody.readFrom`, which has one case for each constructor of
`TagTokens`. -/
theorem TagBody.readFrom_tokens (r : Reading) (done : TagBody) (ts : List Token)
    (hdone : done.terminator = none) :
    ∃ k as ds, k ≤ ts.length ∧ (TagBody.readFrom r done ts).taken = done.taken + k ∧
      (TagBody.readFrom r done ts).attributes.toList = done.attributes.toList ++ as ∧
      (TagBody.readFrom r done ts).diagnostics.toList = done.diagnostics.toList ++ ds ∧
      TagTokens r (ts.take k) as (TagBody.readFrom r done ts).terminator ds := by
  induction done, ts using TagBody.readFrom.induct r with
  | case1 done =>
    rw [TagBody.readFrom]
    exact ⟨0, [], [], Nat.le_refl _, rfl, (List.append_nil _).symm, (List.append_nil _).symm,
      hdone ▸ .unended⟩
  -- an attribute takes its tokens, and the body goes on behind them
  | case2 done t ts hkind a ih =>
    obtain ⟨hle, hattribute⟩ : a.taken ≤ ts.length ∧ _ := readAttribute_tokens r hkind ts
    obtain ⟨k, as, ds, hk, htaken, hattributes, hdiagnostics, hrest⟩ := ih hdone
    dsimp only at htaken hattributes hdiagnostics
    rw [Array.toList_push, List.append_assoc] at hattributes
    have happend : (done.diagnostics.appendList a.diagnostics).toList
        = done.diagnostics.toList ++ a.diagnostics := Array.toList_appendList
    rw [happend, List.append_assoc] at hdiagnostics
    rw [List.length_drop] at hk
    rw [TagBody.readFrom, hkind]
    refine ⟨1 + a.taken + k, a.content :: as, a.diagnostics ++ ds, ?_, ?_, hattributes,
      hdiagnostics, ?_⟩
    · rw [List.length_cons]
      omega
    · rw [← Nat.add_assoc, ← Nat.add_assoc]
      exact htaken
    · have htake : (t :: ts).take (1 + a.taken + k)
          = (t :: ts.take a.taken) ++ (ts.drop a.taken).take k := by
        rw [Nat.add_assoc, Nat.add_comm 1, List.take_succ_cons, List.take_add, List.cons_append]
      rw [htake]
      exact .attr hattribute hrest
  -- the two marks that end a tag, and a closing tag that is left for the template
  | case3 done t ts hkind =>
    have hended : TagTokens r [t] [] (some t.kind) [] := .ended (.inl hkind)
    rw [TagBody.readFrom]
    rw [hkind] at hended ⊢
    exact ⟨1, [], [], Nat.le_add_left 1 ts.length, rfl, (List.append_nil _).symm,
      (List.append_nil _).symm, hended⟩
  | case4 done t ts hkind =>
    have hended : TagTokens r [t] [] (some t.kind) [] := .ended (.inr hkind)
    rw [TagBody.readFrom]
    rw [hkind] at hended ⊢
    exact ⟨1, [], [], Nat.le_add_left 1 ts.length, rfl, (List.append_nil _).symm,
      (List.append_nil _).symm, hended⟩
  | case5 done t ts hkind =>
    rw [TagBody.readFrom, hkind]
    exact ⟨0, [], [], Nat.zero_le _, rfl, (List.append_nil _).symm, (List.append_nil _).symm,
      hdone ▸ .unended⟩
  -- a bad character is passed over in silence, any other token with a report
  | case6 done t ts hkind ih =>
    obtain ⟨k, as, ds, hk, htaken, hattributes, hdiagnostics, hrest⟩ := ih hdone
    rw [TagBody.readFrom, hkind]
    refine ⟨k + 1, as, ds, Nat.succ_le_succ hk, ?_, hattributes, hdiagnostics, .bad hkind hrest⟩
    rw [Nat.add_comm k, ← Nat.add_assoc]
    exact htaken
  | case7 done t ts hattr htag hself hclose hbad ih =>
    obtain ⟨k, as, ds, hk, htaken, hattributes, hdiagnostics, hrest⟩ := ih hdone
    rw [TagBody.readFrom.eq_def]
    simp only
    dsimp only at hdiagnostics
    rw [Array.toList_push, List.append_assoc] at hdiagnostics
    refine ⟨k + 1, as, r.unexpected t .startTag :: ds, Nat.succ_le_succ hk, ?_, hattributes,
      hdiagnostics, .stray htag hself hclose hrest⟩
    rw [Nat.add_comm k, ← Nat.add_assoc]
    exact htaken

/-- `AttributeTokens` are those of an attribute: its name, an equals sign and its value. -/
theorem AttributeTokens.kinds {r : Reading} {us : List Token} {a : Attribute} {ds : List Diagnostic}
    (h : AttributeTokens r us a ds) :
    ∀ t ∈ us, t.kind = .attrName ∨ t.kind = .equals ∨ t.kind = .attrValue := by
  intro t ht
  -- each token of an attribute is its name, its `=` or its value
  cases h with
  | bare hname =>
    obtain rfl := List.mem_singleton.mp ht
    exact .inl hname
  | unvalued hname hequals =>
    rcases List.mem_cons.mp ht with rfl | ht
    · exact .inl hname
    · obtain rfl := List.mem_singleton.mp ht
      exact .inr (.inl hequals)
  | valued hname hequals hv =>
    rcases List.mem_cons.mp ht with rfl | ht
    · exact .inl hname
    · rcases List.mem_cons.mp ht with rfl | ht
      · exact .inr (.inl hequals)
      · obtain rfl := List.mem_singleton.mp ht
        exact .inr (.inr hv)

/-- The last token of a start tag ends it, or none of its tokens does: nothing of the tag stands
behind `>` or `/>`. -/
theorem TagTokens.last_cases {r : Reading} {us : List Token} {as : List Attribute}
    {last : Option TokenKind} {ds : List Diagnostic} (h : TagTokens r us as last ds) :
    (last = none ∧ ∀ t ∈ us, t.kind ≠ .tagClose) ∨
      ∃ front t, us = front ++ [t] ∧ last = some t.kind ∧
        (t.kind = .tagClose ∨ t.kind = .selfClose) := by
  induction h with
  | unended => exact .inl ⟨rfl, fun t ht => (nomatch ht)⟩
  | ended ht => exact .inr ⟨[], _, rfl, rfl, ht⟩
  -- what is read at the front keeps the end, and none of it is a closing mark
  | @attr us ts a as last ds es ha more ih =>
    rcases ih with ⟨hlast, hnone⟩ | ⟨front, t, rfl, hlast, ht⟩
    · refine .inl ⟨hlast, fun t ht => ?_⟩
      rcases List.mem_append.mp ht with ht | ht
      · rcases ha.kinds t ht with hkind | hkind | hkind <;> rw [hkind] <;> decide
      · exact hnone t ht
    · exact .inr ⟨us ++ front, t, (List.append_assoc ..).symm, hlast, ht⟩
  | @bad t ts as last es hbad more ih =>
    rcases ih with ⟨hlast, hnone⟩ | ⟨front, u, rfl, hlast, hu⟩
    · refine .inl ⟨hlast, fun u hu => ?_⟩
      rcases List.mem_cons.mp hu with rfl | hu
      · rw [hbad]
        decide
      · exact hnone u hu
    · exact .inr ⟨t :: front, u, rfl, hlast, hu⟩
  | @stray t ts as last es htag hself hclose more ih =>
    rcases ih with ⟨hlast, hnone⟩ | ⟨front, u, rfl, hlast, hu⟩
    · refine .inl ⟨hlast, fun u hu => ?_⟩
      rcases List.mem_cons.mp hu with rfl | hu
      · exact htag
      · exact hnone u hu
    · exact .inr ⟨t :: front, u, rfl, hlast, hu⟩

/-- **Start tags.** `readStartTag` makes a start tag without a name an error node with a report. One
with a name becomes an element of what its tokens say, complete or open. -/
theorem readStartTag_cases (r : Reading) (first : Token) (ts : List Token) :
    let read := readStartTag r first ts
    let span := spanOf first ts read.taken
    (read.piece = .node (.error span) ∧ read.diagnostics ≠ []) ∨
      ∃ name us as last ds, ts.take read.taken = name :: us ∧ read.taken = us.length + 1 ∧
        name.kind = .tagName ∧ TagTokens r us as last ds ∧
        (let e : Element := ⟨r.textOf name, as, span, none, last == some .selfClose, span⟩
        read.piece = (if e.selfClosing || last.isNone || Vocabulary.isVoidElement e.name then
            .node (.element e [])
          else .startTag e)) ∧
        read.diagnostics = ds ++ (if last.isNone then
          [(Problem.startTagWithoutEnd (trimEnd (span.text r.source))).on span] else []) := by
  intro read span
  rcases name_cases ts with ⟨hname, -⟩ | ⟨name, us, rfl, hname, hkind⟩
  · left
    refine ⟨?_, ?_⟩
    · unfold span read readStartTag
      rw [hname]
    · unfold read readStartTag
      rw [hname]
      simp
  · right
    obtain ⟨k, as, ds, hk, htaken, hattributes, hdiagnostics, htokens⟩ :=
      TagBody.readFrom_tokens r ⟨#[], none, 1, #[]⟩ us rfl
    -- the name comes first
    have hread : read.taken = k + 1 := by
      show (readStartTag r first (name :: us)).taken = _
      unfold readStartTag
      rw [hname]
      exact htaken.trans (Nat.add_comm 1 k)
    refine ⟨name, us.take k, as, _, ds, ?_, ?_, hkind, htokens, ?_, ?_⟩
    · rw [hread]
      rfl
    · rw [hread, List.length_take_of_le hk]
    · have has : (TagBody.readFrom r ⟨#[], none, 1, #[]⟩ us).attributes.toList = as := hattributes
      subst has
      unfold span read readStartTag
      rw [hname]
      rfl
    · have hds : (TagBody.readFrom r ⟨#[], none, 1, #[]⟩ us).diagnostics.toList = ds := hdiagnostics
      subst hds
      unfold span read readStartTag
      rw [hname]
      rfl

end RsxInspect
