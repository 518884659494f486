import RsxInspect.Proofs.Scan.Tiling
import RsxInspect.Proofs.Template.Inside
import RsxInspect.Proofs.Template.Loops

/-!
# The values that are scanned again

`Document.parse?` looks among the tokens of a file for values whose scans stand still
(`Document.valuesEnd`, by `attributeValues`). These are the values that the readers come to, no more
and no less, so a file is not read exactly if some scan on the way has no end:

* `readAttribute_value`: an attribute has the value that is made of the token that `valueBehind?` finds.
* `TagBody.valuesRead`, `Piece.valuesRead`, `Builder.valuesRead` and `Document.valuesReadFrom` list the
  tokens that values are made of, each by the recursion of its reader; `TagBody.values_readFrom` says
  that this is what the attributes of a start tag have.
* `TagBody.attributeValues_eq`: a start tag takes no token of an attribute that it does not read.
* `Piece.attributeValues_eq`: no other piece takes the name of an attribute; this needs the `Trace` of
  the scan, since the run between braces takes whatever stands there.
* `Document.valuesReadFrom_eq`, by induction over the loops: on the tokens of a file both lists agree.

`Document.isSome_parse?_iff` puts this together. The scan of a value can stand still only behind the
tag that closes the template (`AttributeValue.scanEnds_of_inside`).
-/

namespace RsxInspect

open String (utf8Len)

/-! ### The lists

The lists follow the readers, one by one: each is the recursion of its reader with nothing kept but
the values. -/

/-- The values that the rest of a start tag is read with. -/
def TagBody.valuesRead (r : Reading) : List Token → List Token
  | [] => []
  | t :: ts =>
    match t.kind with
    | .attrName =>
      (valueBehind? ts).toList ++ TagBody.valuesRead r (ts.drop (readAttribute r t ts).taken)
    | .tagClose | .selfClose | .templateClose => []
    | _ => TagBody.valuesRead r ts
termination_by ts => ts.length
decreasing_by all_goals simp only [List.length_drop, List.length_cons]; omega

/-- The values that a piece is read with: those of a start tag, behind its name. -/
def Piece.valuesRead (r : Reading) (first : Token) (ts : List Token) : List Token :=
  match first.kind with
  | .tagOpen =>
    TagBody.valuesRead r
      (ts.drop (if (ts.head?.filter (·.kind == .tagName)).isNone then 0 else 1))
  | _ => []

/-- The values that the pieces up to the end of a template are read with. -/
def Builder.valuesRead (r : Reading) : List Token → List Token
  | [] => []
  | t :: ts =>
    if t.kind = .templateClose then []
    else Piece.valuesRead r t ts ++ Builder.valuesRead r (ts.drop (Piece.read r t ts).taken)
termination_by ts => ts.length
decreasing_by simp only [List.length_drop, List.length_cons]; omega

namespace Document

/-- The values that a section is read with, where `ts` are the tokens behind its first one. -/
def sectionValuesRead (r : Reading) (ts : List Token) : SectionKind → List Token
  | .template => Builder.valuesRead r ts
  | _ => []

/-- The values that the sections that come next are read with, behind those that are `done`. -/
def valuesReadFrom (r : Reading) (done : Array Section) (notes : Notes) : List Token → List Token
  | [] => []
  | t :: ts =>
    match sectionOpenedBy? t.kind with
    | some kind =>
      let s := readSection r (notesAt r done notes kind t) kind t ts
      sectionValuesRead r ts kind
        ++ valuesReadFrom r (done.push s.content) s.notes (ts.drop s.taken)
    | none =>
      let notes :=
        if t.kind = .badCharacter then notes
        else notes.report r.source (r.unexpected t .outsideSections)
      valuesReadFrom r done notes ts
termination_by ts => ts.length
decreasing_by all_goals simp only [List.length_drop, List.length_cons]; omega

end Document

/-! ### Tokens without attributes -/

section Tokens

variable {t : Token} {ts : List Token} {k : Nat}

/-- A value stands behind a name, so in front of `attributeValues` tokens that are no names can be
left out. -/
theorem attributeValues_cons (h : t.kind ≠ .attrName) :
    attributeValues (t :: ts) = attributeValues ts := by
  rw [attributeValues, if_neg]
  rwa [beq_iff_eq]

theorem AllKinds.attributeValues_drop (h : AllKinds (· ≠ .attrName) (ts.take k)) :
    attributeValues ts = attributeValues (ts.drop k) := by
  induction k generalizing ts with
  | zero => rfl
  | succ k ih =>
    cases ts with
    | nil => rfl
    | cons t ts =>
      obtain ⟨ht, hrest⟩ := List.forall_mem_cons.mp h
      rw [attributeValues_cons ht, List.drop_succ_cons]
      exact ih hrest

end Tokens

/-! ### Start tags

An attribute takes its value along, so an attribute and a value are taken in one step of the
induction. -/

section Tags

variable {r : Reading} {t : Token} {ts : List Token}

/-- `readAttribute` gives the value that is made of the token behind the name and an equals sign. -/
theorem readAttribute_value (r : Reading) (t : Token) (ts : List Token) :
    (readAttribute r t ts).content.value
      = (valueBehind? ts).map fun v => (AttributeValue.ofToken r v).1 := by
  unfold readAttribute valueBehind?
  cases ts with
  | nil => rfl
  | cons equals ts =>
    cases ts with
    | nil => cases hequals : equals.kind == .equals <;> simp [hequals]
    | cons v ts =>
      dsimp only
      rw [List.head?_cons, Option.filter_some]
      cases equals.kind == .equals <;> cases v.kind == .attrValue <;> rfl

/-- Behind its name an attribute takes no other one. -/
theorem AttributeTokens.tail_kinds {us : List Token} {a : Attribute} {ds : List Diagnostic}
    (h : AttributeTokens r us a ds) : AllKinds (· ≠ .attrName) us.tail := by
  cases h with
  | bare => exact .nil
  | unvalued _ hequals => exact .cons (by rw [hequals]; decide) .nil
  | valued _ hequals hv =>
    exact .cons (by rw [hequals]; decide) (.cons (by rw [hv]; decide) .nil)

/-- The values of the attributes of a start tag are those of `TagBody.valuesRead`. -/
theorem TagBody.values_readFrom (r : Reading) (done : TagBody) (ts : List Token) :
    (TagBody.readFrom r done ts).attributes.toList.filterMap Attribute.value
      = done.attributes.toList.filterMap Attribute.value
        ++ (TagBody.valuesRead r ts).map fun v => (AttributeValue.ofToken r v).1 := by
  induction done, ts using TagBody.readFrom.induct r with
  | case1 done =>
    rw [TagBody.readFrom, TagBody.valuesRead]
    exact (List.append_nil _).symm
  -- an attribute gives the value behind its `=`, if there is one; no other token gives any
  | case2 done t ts hkind a ih =>
    have hvalue : a.content.value = _ := readAttribute_value r t ts
    rw [TagBody.readFrom, TagBody.valuesRead, hkind]
    dsimp only
    rw [ih, Array.toList_push, List.filterMap_append, List.map_append, List.append_assoc]
    congr 2
    rw [List.filterMap_cons, hvalue]
    cases valueBehind? ts <;> rfl
  | case3 done t ts hkind | case4 done t ts hkind | case5 done t ts hkind =>
    rw [TagBody.readFrom, TagBody.valuesRead, hkind]
    exact (List.append_nil _).symm
  | case6 done t ts hkind ih =>
    rw [TagBody.readFrom, TagBody.valuesRead, hkind]
    exact ih
  | case7 done t ts hattr htag hself hclose hbad ih =>
    rw [TagBody.readFrom.eq_def, TagBody.valuesRead.eq_def]
    simp only
    exact ih

/-- A start tag reads all values of the tokens that it takes. -/
theorem TagBody.attributeValues_eq (r : Reading) (done : TagBody) (ts : List Token) :
    ∃ k, (TagBody.readFrom r done ts).taken = done.taken + k ∧
      attributeValues ts = TagBody.valuesRead r ts ++ attributeValues (ts.drop k) := by
  induction done, ts using TagBody.readFrom.induct r with
  | case1 done =>
    rw [TagBody.readFrom, TagBody.valuesRead]
    exact ⟨0, rfl, rfl⟩
  -- the tokens of an attribute hold no other name, so its value is the only one among them
  | case2 done t ts hkind a ih =>
    obtain ⟨k, htaken, hvalues⟩ := ih
    have hnames : AllKinds (· ≠ .attrName) (ts.take a.taken) :=
      (readAttribute_tokens r hkind ts).2.tail_kinds
    rw [TagBody.readFrom, TagBody.valuesRead, hkind]
    refine ⟨1 + a.taken + k, ?_, ?_⟩
    · rw [← Nat.add_assoc, ← Nat.add_assoc]
      exact htaken
    · have hdrop : (t :: ts).drop (1 + a.taken + k) = (ts.drop a.taken).drop k := by
        rw [Nat.add_assoc, Nat.add_comm 1, List.drop_succ_cons, List.drop_drop]
      rw [attributeValues, if_pos (beq_iff_eq.mpr hkind), hnames.attributeValues_drop, hvalues, hdrop]
      exact (List.append_assoc ..).symm
  | case3 done t ts hkind | case4 done t ts hkind =>
    rw [TagBody.readFrom, TagBody.valuesRead, hkind]
    exact ⟨1, rfl, attributeValues_cons (by rw [hkind]; decide)⟩
  | case5 done t ts hkind =>
    rw [TagBody.readFrom, TagBody.valuesRead, hkind]
    exact ⟨0, rfl, rfl⟩
  | case6 done t ts hkind ih =>
    obtain ⟨k, htaken, hvalues⟩ := ih
    rw [TagBody.readFrom, TagBody.valuesRead, hkind, attributeValues_cons (by rw [hkind]; decide)]
    refine ⟨k + 1, ?_, hvalues⟩
    rw [Nat.add_comm k, ← Nat.add_assoc]
    exact htaken
  | case7 done t ts hattr htag hself hclose hbad ih =>
    obtain ⟨k, htaken, hvalues⟩ := ih
    rw [TagBody.readFrom.eq_def, TagBody.valuesRead.eq_def, attributeValues_cons hattr]
    simp only
    refine ⟨k + 1, ?_, hvalues⟩
    rw [Nat.add_comm k, ← Nat.add_assoc]
    exact htaken

/-- `readStartTag` reads all values up to the end of the tag, and the name of the tag is none. -/
theorem readStartTag_attributeValues (r : Reading) (first : Token) (ts : List Token) :
    let skip := if (ts.head?.filter (·.kind == .tagName)).isNone then 0 else 1
    attributeValues ts = TagBody.valuesRead r (ts.drop skip)
      ++ attributeValues (ts.drop (readStartTag r first ts).taken) := by
  intro skip
  obtain ⟨k, htaken, hvalues⟩ :=
    TagBody.attributeValues_eq r ⟨#[], none, skip, #[]⟩ (ts.drop skip)
  have htaken : (readStartTag r first ts).taken = skip + k := htaken
  have hname : AllKinds (· ≠ .attrName) (ts.take skip) := name_kinds (by decide)
  rw [htaken, hname.attributeValues_drop, hvalues, List.drop_drop]

end Tags

/-! ### Pieces and templates

Only start tags have values, so a piece of another sort has none among its tokens. -/

section Pieces

variable {r : Reading} {first : Token} {ts : List Token} {m : Mode}

/-- Between braces no attribute has its name. -/
theorem Trace.noAttributes_run (h : Trace m ts) (hm : m.InBraces) :
    AllKinds (· ≠ .attrName) (ts.takeWhile (!·.kind.endsRun)) := by
  induction ts generalizing m with
  | nil => exact .nil
  | cons t ts ih =>
    rw [List.takeWhile_cons]
    split
    · rename_i hruns
      obtain ⟨n, hn, hrest⟩ := h.inBraces hm (Bool.not_eq_true' _ ▸ hruns)
      refine .cons (fun hname => ?_) (ih hrest hn)
      -- names of attributes are read in tags only
      obtain ⟨n', hstep, -⟩ := h.of_cons
      rw [hname] at hstep
      rcases hm with rfl | rfl
      · cases hstep with
        | plainExpression hk | keyword hk => exact absurd hk (by decide)
      · cases hstep with
        | expression hk => exact absurd hk (by decide)
    · exact .nil

/-- **The values of a piece.** `Piece.read` reads all `attributeValues` of the tokens that it
takes. -/
theorem Piece.attributeValues_eq (r : Reading) (h : Trace .template (first :: ts))
    (hfirst : first.kind ≠ .templateClose) :
    attributeValues ts = Piece.valuesRead r first ts
      ++ attributeValues (ts.drop (Piece.read r first ts).taken) := by
  rcases h.piece_cases hfirst with
    ⟨hkind, -⟩ | ⟨hkind, -⟩ | ⟨hkind, -⟩ | ⟨hkind, -⟩ | ⟨hkind, m, hm, hrest⟩
  all_goals rw [Piece.read, Piece.valuesRead, hkind]
  · rfl
  · exact (readText_kinds (by decide)).attributeValues_drop
  · exact readStartTag_attributeValues r first ts
  · exact (readEndTag_kinds (by decide) (by decide) (by decide)).attributeValues_drop
  · exact (readBraces_kinds (hrest.noAttributes_run hm) (by decide)).attributeValues_drop

/-- No piece starts with the name of an attribute. -/
theorem Trace.head_noAttribute (h : Trace .template (first :: ts)) : first.kind ≠ .attrName := by
  intro hname
  obtain ⟨n, hstep, -⟩ := h.of_cons
  rw [hname] at hstep
  cases hstep

/-- `Builder.readFrom` reads all `attributeValues` of the tokens that it takes. -/
theorem Builder.attributeValues_eq (r : Reading) (p : Builder.Progress) {ts : List Token}
    (h : Trace .template ts) :
    ∃ k, (Builder.readFrom r p ts).taken = p.taken + k ∧
      attributeValues ts = Builder.valuesRead r ts ++ attributeValues (ts.drop k) := by
  induction p, ts using Builder.readFrom.induct r with
  | case1 p =>
    rw [Builder.readFrom, Builder.valuesRead]
    exact ⟨0, rfl, rfl⟩
  | case2 p t ts hclose =>
    rw [Builder.readFrom, Builder.valuesRead, if_pos hclose, if_pos hclose]
    exact ⟨0, rfl, rfl⟩
  -- the values of a piece are those in its tokens, and the loop goes on behind it
  | case3 p t ts hclose piece ih =>
    obtain ⟨k, htaken, hvalues⟩ := ih (Piece.read_stops r h hclose).2
    rw [Builder.readFrom, Builder.valuesRead, if_neg hclose, if_neg hclose]
    refine ⟨1 + piece.taken + k, ?_, ?_⟩
    · rw [← Nat.add_assoc, ← Nat.add_assoc]
      exact htaken
    · have hdrop : (t :: ts).drop (1 + piece.taken + k) = (ts.drop piece.taken).drop k := by
        rw [Nat.add_assoc, Nat.add_comm 1, List.drop_succ_cons, List.drop_drop]
      rw [attributeValues_cons h.head_noAttribute, Piece.attributeValues_eq r h hclose, hvalues,
        hdrop]
      exact (List.append_assoc ..).symm

end Pieces

/-! ### Sections

Code has no values, and the loop over sections takes all tokens, so no value is left out.
`isSome_parse?_iff` replaces the list of all values by the list of those that are read. -/

namespace Document

variable {r : Reading} {notes : Notes} {opening : Token} {ts : List Token} {source : String}

/-- `readSection` reads all `attributeValues` of the tokens that it takes. Only templates have
any. -/
theorem readSection_attributeValues {kind : SectionKind} (h : Trace kind.mode ts) :
    attributeValues ts = sectionValuesRead r ts kind
      ++ attributeValues (ts.drop (readSection r notes kind opening ts).taken) := by
  have hcode : (codeKinds kind).1 ≠ .attrName ∧ (codeKinds kind).2 ≠ .attrName := by
    cases kind <;> decide
  cases kind with
  | frontMatter | script | style =>
    exact (readCode_kinds r notes opening ts hcode.1 hcode.2).attributeValues_drop
  | template =>
    let p₀ : Builder.Progress :=
      ⟨⟨.empty, notes.reportAll r.source (openTagProblem r opening)⟩, 0, opening.span.stop⟩
    obtain ⟨k, htaken, hvalues⟩ := Builder.attributeValues_eq r p₀ h
    rw [Nat.zero_add] at htaken
    -- behind the pieces stands the closing tag, if there is one
    have hall : (readTemplate r notes opening ts).taken
        = k + if (ts.drop k).head?.any (·.kind == .templateClose) then 1 else 0 := by
      rw [← htaken]
      unfold readTemplate
      simp only [Option.isSome_map, Option.isSome_filter]
      rfl
    have hclosing : AllKinds (· ≠ .attrName) ((ts.drop k).take
        (if (ts.drop k).head?.any (·.kind == .templateClose) then 1 else 0)) :=
      .take_if (by decide) _
    show _ = Builder.valuesRead r ts
      ++ attributeValues (ts.drop (readTemplate r notes opening ts).taken)
    rw [hvalues, hclosing.attributeValues_drop, List.drop_drop, hall]

/-- **The values of a file.** `valuesReadFrom` lists all `attributeValues` of the tokens in front of
the loop. -/
theorem valuesReadFrom_eq (r : Reading) (done : Array Section) {notes : Notes} {ts : List Token}
    (h : Between source notes ts) : valuesReadFrom r done notes ts = attributeValues ts := by
  induction done, notes, ts using Document.readFrom.induct r with
  | case1 done notes => rw [valuesReadFrom, attributeValues]
  | case2 done notes t ts kind hkind notes' s ih =>
    have hname : t.kind ≠ .attrName := by
      intro hname
      rw [hname] at hkind
      cases hkind
    rw [valuesReadFrom, hkind, attributeValues_cons hname,
      readSection_attributeValues (h.mode hkind)]
    exact congrArg _ (ih (h.opened hkind rfl))
  | case3 done notes t ts hkind notes' ih =>
    have hbad := h.bad hkind
    rw [valuesReadFrom, hkind, attributeValues_cons (by rw [hbad]; decide)]
    exact ih (h.skipped hkind)

/-- **Which files are read.** `parse?` reads a file exactly if the scan of the file reaches the end,
and that of every value that the readers come to does. -/
theorem isSome_parse?_iff {withTrees : Bool} :
    (parse? source withTrees).isSome = true ↔
      (Scanner.ofSource source).toEnd?.isSome = true ∧
        ∀ v ∈ valuesReadFrom ⟨source, withTrees⟩ #[] .empty (significantTokens source),
          AttributeValue.scanEnds source v = true := by
  have hstart : Reaches ⟨source, withTrees⟩ #[] .empty (significantTokens source) #[] .empty
    (significantTokens source) := .start
  rw [valuesReadFrom_eq _ _ hstart.between, ← List.all_eq_true]
  constructor
  · intro h
    obtain ⟨parsed, hparsed⟩ := Option.isSome_iff_exists.mp h
    obtain ⟨hend, -⟩ := eq_of_parse? hparsed
    exact ⟨hend, (isSome_parse? withTrees hend).symm.trans h⟩
  · rintro ⟨hend, hvalues⟩
    exact (isSome_parse? withTrees hend).trans hvalues

end Document

/-! ### Values whose scans stand still

The scan of a value starts as an expression. It leaves that mode with the closing braces, which do not
stand in a value, or with the tag that closes the template; only then can it come into a tag. -/

/-- An expression that is not ended goes on. -/
theorem Scanner.Reads.mode_interpolation {s s' : Scanner} {ts : List Token} (h : Reads s ts s')
    (hmode : s.state.mode = .interpolation)
    (hts : AllKinds (fun k => k ≠ .interpolationClose ∧ k ≠ .templateClose) ts) :
    s'.state.mode = .interpolation := by
  induction h with
  | done s => exact hmode
  | @step s s' ts hmove _ ih =>
    obtain ⟨⟨hbraces, htag⟩, hts⟩ := List.forall_mem_cons.mp hts
    refine ih ?_ hts
    have hstep := transition_next hmove
    rw [hmode] at hstep
    generalize s.next.1.kind = k at hstep hbraces htag
    generalize s.next.2.state.mode = n at hstep ⊢
    cases hstep with
    | expressionResync => exact absurd rfl htag
    | expressionEnd => exact absurd rfl hbraces
    | _ => rfl

/-- **Where a value stands still.** The scan of a value reaches its end, in the sense of `scanEnds`,
unless the tag that closes the template stands in the value. -/
theorem AttributeValue.scanEnds_of_inside {r : Reading} {v : Token}
    (hv : v ∈ significantTokens r.source) (hkind : v.kind = .attrValue)
    (hinside : AllInside (valueTokens r v).1) : AttributeValue.scanEnds r.source v = true := by
  by_cases hbraces : Delimiter.openBraces.isPrefixOf (r.textOf v).toList = true
  · obtain ⟨done, inner, beyond, hinner⟩ := exists_inner (fits_significantTokens _ v hv) hbraces
    let s := Scanner.behind done inner .interpolation
    have hend : (valueScanner r.source v).toEnd?.isSome = s.toEnd?.isSome := hinner.along.toEnd.2
    have hreads : Scanner.Reads s s.toEnd.1.toList s.toEnd.2 := s.reads_toEnd
    -- all along the scan stays in the expression
    have hmode : s.toEnd.2.state.mode = .interpolation := by
      refine hreads.mode_interpolation rfl fun u hu => ?_
      by_cases hblank : u.kind.isTrivia = true
      · rw [TokenKind.isTrivia, beq_iff_eq] at hblank
        rw [hblank]
        exact ⟨by decide, by decide⟩
      · have hmem : u ∈ (valueTokens r v).1 := by
          rw [hinner.tokens]
          exact List.mem_filter.mpr ⟨hu, by rw [Bool.eq_false_iff.mpr hblank]; rfl⟩
        exact ⟨hinner.kind_ne_close hv hkind u hmem, hinside u hmem⟩
    -- so where it stops is no `$` in a tag
    obtain ⟨mid, rest, hsplit, hs'⟩ := hreads.exists_behind
    have hwindow : s.toEnd.2.InWindow r.source (utf8Len (done ++ inner)) := by
      refine ⟨done ++ mid, rest, beyond, ?_, ?_, hs'⟩
      · rw [hinner.source, hsplit]
        simp only [List.append_assoc]
      · rw [← String.utf8Len_append, hsplit, List.append_assoc]
    have hrest : s.toEnd.2.cursor.rest = [] := by
      refine (hwindow.rest_eq_nil_or_atDollar s.toEnd_stays).resolve_right fun hdollar => ?_
      have htag := hdollar.1
      rw [hmode] at htag
      rcases htag with htag | htag <;> cases htag
    rw [AttributeValue.scanEnds, hend, Scanner.isSome_toEnd?, Cursor.atEnd, hrest]
    exact Bool.or_true _
  · rw [AttributeValue.scanEnds]
    rw [Reading.textOf] at hbraces
    rw [Bool.eq_false_iff.mpr hbraces]
    rfl

end RsxInspect
