import RsxInspect.Proofs.Diagnostic.Silenced
import RsxInspect.Proofs.Template.Erasing
import RsxInspect.Proofs.Template.Making
import RsxInspect.Proofs.Template.Runs
import RsxInspect.Proofs.Template.StartTag

/-!
# Pieces without trees

Every reader of pieces does the same whether trees are wanted or not: it takes the same tokens, and
what it brings along is the same but for the trees of expressions. Its diagnostics are the same but
for what the grammar says against the runs of the piece (`Piece.read_erased`).

All of it comes from one reader, `Expression.ofRun?`: `problems_ofRun?` says what is reported of a
run with trees, and `ofRun?_off` what is left without. The readers of attributes, tags and braces
hand this on. The bad characters among the diagnostics are those of attribute values, so they stand
where their tokens stand.
-/

namespace RsxInspect

variable {source : String} {a b : Nat}

/-! ### Reports without bad characters

Bad characters are the only reports that are folded, so all others can be left out without a change
in what stays. -/

namespace Problem

variable {p : Problem}

theorem quiet_if (hp : p.kind ≠ .badCharacter) {c : Prop} [Decidable c] {s : Span} :
    ∀ d ∈ if c then [p.on s] else [], d.kind ≠ .badCharacter :=
  forall_mem_ite (List.forall_mem_singleton.mpr hp) (List.forall_mem_nil _)

theorem quiet_unless (hp : p.kind ≠ .badCharacter) {c : Prop} [Decidable c] {s : Span} :
    ∀ d ∈ if c then [] else [p.on s], d.kind ≠ .badCharacter :=
  forall_mem_ite (List.forall_mem_nil _) (List.forall_mem_singleton.mpr hp)

theorem quiet_onRun? (hp : p.kind ≠ .badCharacter) (run : List Token) :
    ∀ d ∈ p.onRun? run, d.kind ≠ .badCharacter := by
  intro d hd
  obtain ⟨s, -, rfl⟩ := Option.map_eq_some_iff.mp (Option.mem_toList.mp hd)
  exact hp

end Problem

/-! ### Expressions

`refusal?` is all that a tree adds to the reports on a run; without one the tokens of the run are
still looked at. -/

namespace Expr

/-- What the grammar says (`refusal?`) is no bad character. -/
theorem kind_of_refusal? {run : List Token} {d : Diagnostic} (h : refusal? source run = some d) :
    d.kind = .unexpectedToken := by
  have hclosed : (Passage.of source run).Closed fun _ => True :=
    ⟨trivial, fun _ _ _ _ => trivial⟩
  have hspans := Expr.spans_of_parse hclosed fun _ _ => trivial
  unfold refusal? at h
  split at h
  · cases h
  · cases hparse : Expr.parse source run with
    | ok e =>
      rw [hparse] at h
      cases h
    | error e =>
      rw [hparse] at h hspans
      exact Option.some.inj h ▸ hspans.2

end Expr

theorem refusals_append (source : String) (xs ys : List (List Token)) :
    refusals source (xs ++ ys) = refusals source xs ++ refusals source ys :=
  List.filterMap_append

namespace Expression

/-- Without trees `Expression.ofRun?` gives none, and nothing is wrong with it: the run and its span
are all that is kept. -/
theorem ofRun?_off (source : String) (run : List Token) (wanted : Bool) :
    ofRun? ⟨source, false⟩ run wanted
      = ((ofRun? ⟨source, true⟩ run wanted).1.map withoutTree, []) := by
  unfold ofRun?
  cases Span.ofRun? run with
  | none => rfl
  | some span =>
    dsimp only
    rw [Bool.and_false, Bool.false_and, if_neg Bool.false_ne_true]
    split
    · split <;> rfl
    · rfl

/-- What is wrong with a run that a tree is wanted of is what the grammar says, `refusals`. -/
theorem problems_ofRun? (source : String) (run : List Token) :
    (ofRun? ⟨source, true⟩ run true).2 = refusals source [run] := by
  have hrefusals : refusals source [run] = (Expr.refusal? source run).toList := by
    rw [refusals, List.filterMap_cons]
    cases Expr.refusal? source run <;> rfl
  rw [hrefusals, Expr.refusal?]
  unfold ofRun? Span.ofRun?
  cases run with
  | nil => rfl
  | cons t ts =>
    rw [List.getLast?_cons, List.head?_cons]
    dsimp only
    rw [List.isEmpty_cons, Bool.false_or, Bool.and_self, Bool.true_and]
    cases (t :: ts).all (·.kind.isExpression) with
    | false => rfl
    | true => cases Expr.parse source (t :: ts) <;> rfl

theorem problems_unwanted (r : Reading) (run : List Token) : (ofRun? r run false).2 = [] := by
  unfold ofRun?
  cases Span.ofRun? run <;> rfl

end Expression

/-- Of a run that a tree is wanted of, what the grammar says is `Silenced`. -/
theorem Expression.silenced_ofRun? (source : String) (a : Nat) (run : List Token) :
    Silenced a (refusals source [run]) (ofRun? ⟨source, true⟩ run true).2 [] a := by
  rw [problems_ofRun?]
  refine .all a fun d hd => ?_
  obtain ⟨run, -, hrefusal⟩ := List.mem_filterMap.mp hd
  rw [Expr.kind_of_refusal? hrefusal]
  decide

/-! ### Attributes

A value in braces is scanned again, and its bad characters are reported with it. So these have a
place of their own in the groups of `Silenced`. -/

/-- What is wrong with a token in itself (`Token.anomaly?`) stands on it. -/
theorem Token.span_of_anomaly? {t : Token} {d : Diagnostic} (h : t.anomaly? source = some d) :
    d.span = t.span := by
  obtain ⟨p, -, rfl⟩ := Option.map_eq_some_iff.mp h
  rfl

/-- The value of an attribute. Its bad characters stand behind its braces, so behind `a`, and its
refusal, if there is one, is missing. -/
theorem AttributeValue.ofToken_erased {v : Token} (hv : v.span.Fits source) (ha : a ≤ v.span.start) :
    (AttributeValue.ofToken ⟨source, false⟩ v).1
        = (AttributeValue.ofToken ⟨source, true⟩ v).1.withoutTree ∧
      Silenced a (refusals source (AttributeValue.runs ⟨source, true⟩ v))
        (AttributeValue.ofToken ⟨source, true⟩ v).2 (AttributeValue.ofToken ⟨source, false⟩ v).2
        v.span.stop := by
  have hstop : a ≤ v.span.stop := Nat.le_trans ha hv.le
  unfold AttributeValue.ofToken AttributeValue.runs Reading.textOf
  dsimp only
  -- the tokens of a value do not depend on trees, only the parse of its run does
  by_cases hbraces : Delimiter.openBraces.isPrefixOf (v.text source).toList = true
  · simp only [if_pos hbraces]
    obtain ⟨done, inner, beyond, hinner⟩ := exists_inner (r := ⟨source, true⟩) hv hbraces
    have hordered := hinner.ordered
    have hsame : valueTokens ⟨source, false⟩ v = valueTokens ⟨source, true⟩ v := rfl
    have hanomalies : ∀ d ∈ (valueTokens ⟨source, true⟩ v).2,
        a < d.span.start ∧ d.span.stop ≤ v.span.stop := by
      intro d hd
      obtain ⟨t, ht, hd⟩ := List.mem_filterMap.mp hd
      obtain ⟨hstart, -, hstop⟩ := hordered.mem (List.mem_map_of_mem ht)
      rw [Token.span_of_anomaly? hd]
      omega
    have hproblems := Expression.silenced_ofRun? source v.span.stop
      (valueTokens ⟨source, true⟩ v).1
    rw [hsame, Expression.ofRun?_off]
    refine ⟨rfl, ?_⟩
    dsimp only
    rw [Option.isNone_map, List.append_assoc, List.append_assoc]
    exact .group hstop (fun d hd _ => hanomalies d hd)
      (hproblems.behind (Problem.quiet_if DiagnosticKind.noConfusion))
  · simp only [if_neg hbraces]
    exact ⟨rfl, .group hstop (List.forall_mem_nil _) (.none _)⟩

/-- Whatever the reading, an attribute is a name alone, a name with an equals sign, or one with a
value. Only the last one has a run. -/
theorem readAttribute_cases (t : Token) (ts : List Token) :
    (∀ r : Reading, readAttribute r t ts = ⟨⟨r.textOf t, none, t.span⟩, 0, []⟩ ∧
        Attribute.runs r ts = []) ∨
      (∃ equals rest, ts = equals :: rest ∧ equals.kind = .equals ∧
        ∀ r : Reading, readAttribute r t ts = ⟨⟨r.textOf t, none, t.span.cover equals.span⟩, 1,
            [Problem.attributeWithoutValue.on equals.span]⟩ ∧
          Attribute.runs r ts = []) ∨
      ∃ equals v rest, ts = equals :: v :: rest ∧ equals.kind = .equals ∧ v.kind = .attrValue ∧
        ∀ r : Reading, readAttribute r t ts = ⟨⟨r.textOf t, some (AttributeValue.ofToken r v).1,
            (t.span.cover equals.span).cover v.span⟩, 2, (AttributeValue.ofToken r v).2⟩ ∧
          Attribute.runs r ts = AttributeValue.runs r v := by
  -- a name alone, a name with `=`, a name with `=` and a value
  cases ts with
  | nil => exact .inl fun r => ⟨rfl, rfl⟩
  | cons equals ts =>
    by_cases hequals : equals.kind = .equals
    · right
      cases ts with
      | nil => exact .inl ⟨equals, [], rfl, hequals, fun r => ⟨by simp [readAttribute, hequals], rfl⟩⟩
      | cons v rest =>
        by_cases hv : v.kind = .attrValue
        · exact .inr ⟨equals, v, rest, rfl, hequals, hv, fun r =>
            ⟨by simp [readAttribute, Option.filter_some, hequals, hv], if_pos ⟨hequals, hv⟩⟩⟩
        · exact .inl ⟨equals, v :: rest, rfl, hequals, fun r =>
            ⟨by simp [readAttribute, Option.filter_some, hequals, hv], if_neg fun h => hv h.2⟩⟩
    · refine .inl fun r => ⟨by simp [readAttribute, hequals], ?_⟩
      cases ts with
      | nil => rfl
      | cons v rest => exact if_neg fun h => hequals h.1

/-- Some of the first tokens can be left out. -/
theorem Span.Ordered.drop {ts : List Token} (h : Span.Ordered a (ts.map Token.span) b) (k : Nat) :
    Span.Ordered a ((ts.drop k).map Token.span) b :=
  h.sublist ((List.drop_sublist k ts).map Token.span)

/-- An attribute with the tokens `ts` behind its name, by the cases of `readAttribute_cases`. -/
theorem readAttribute_erased (t : Token) {ts : List Token}
    (hordered : Span.Ordered a (ts.map Token.span) b) (hfits : ∀ u ∈ ts, u.span.Fits source) :
    let on := readAttribute ⟨source, true⟩ t ts
    let off := readAttribute ⟨source, false⟩ t ts
    off.content = on.content.withoutTree ∧ off.taken = on.taken ∧
      ∃ c, Silenced a (refusals source (Attribute.runs ⟨source, true⟩ ts)) on.diagnostics
          off.diagnostics c ∧
        Span.Ordered c ((ts.drop on.taken).map Token.span) b := by
  rcases readAttribute_cases t ts with hread | ⟨equals, rest, -, -, hread⟩ |
    ⟨equals, v, rest, rfl, -, -, hread⟩
  · dsimp only
    rw [(hread _).1, (hread _).1, (hread _).2]
    exact ⟨rfl, rfl, a, .none a, hordered.drop 0⟩
  · dsimp only
    rw [(hread _).1, (hread _).1, (hread _).2]
    refine ⟨rfl, rfl, a, .same a ?_, hordered.drop 1⟩
    exact List.forall_mem_singleton.mpr DiagnosticKind.noConfusion
  · obtain ⟨hstart, hnonempty, hvalue, -, hrest⟩ := hordered
    -- the tokens up to the value were taken, so the row goes on behind it
    have hle : a ≤ v.span.start := by omega
    obtain ⟨hsame, hsilenced⟩ := AttributeValue.ofToken_erased (hfits v (by simp)) hle
    dsimp only
    rw [(hread _).1, (hread _).1, (hread _).2, hsame]
    exact ⟨rfl, rfl, v.span.stop, hsilenced, hrest⟩

/-- What an attribute takes behind its name has no runs of its own: `TagBody.runs` looks at names
only. -/
theorem TagBody.runs_drop (r : Reading) (t : Token) (ts : List Token) :
    TagBody.runs r (ts.drop (readAttribute r t ts).taken) = TagBody.runs r ts := by
  rcases readAttribute_cases t ts with hread | ⟨equals, rest, rfl, hequals, hread⟩ |
    ⟨equals, v, rest, rfl, hequals, hv, hread⟩
  · rw [(hread r).1]
    rfl
  · rw [(hread r).1]
    conv => rhs; rw [TagBody.runs, hequals]
    rfl
  · rw [(hread r).1]
    conv => rhs; rw [TagBody.runs, hequals]
    conv => rhs; dsimp only; rw [TagBody.runs, hv]
    rfl

/-! ### Tags

The attributes of a tag are read in the order of their tokens, so the groups of bad characters stand
behind each other. -/

/-- Of two readings of a start tag the one is the other without trees, and what both have reported
ends at `b` or before. -/
structure TagBody.Erased (a : Nat) (lost : List Diagnostic) (on off : TagBody) (b : Nat) :
    Prop where
  attributes : off.attributes = on.attributes.map Attribute.withoutTree
  terminator : off.terminator = on.terminator
  taken : off.taken = on.taken
  diagnostics : Silenced a lost on.diagnostics.toList off.diagnostics.toList b

namespace TagBody.Erased

variable {on off : TagBody} {lost more : List Diagnostic} {c : Nat}

/-- The tag goes on behind an attribute that both sides have read, the second one without trees. -/
theorem pushAttribute (h : on.Erased a lost off b) {x y : AttributeRead}
    (hcontent : y.content = x.content.withoutTree) (htaken : y.taken = x.taken)
    (hreports : Silenced b more x.diagnostics y.diagnostics c) :
    TagBody.Erased a (lost ++ more)
      { on with
        attributes := on.attributes.push x.content
        taken := on.taken + 1 + x.taken
        diagnostics := on.diagnostics.appendList x.diagnostics }
      { off with
        attributes := off.attributes.push y.content
        taken := off.taken + 1 + y.taken
        diagnostics := off.diagnostics.appendList y.diagnostics } c := by
  refine ⟨?_, h.terminator, ?_, ?_⟩
  · rw [h.attributes, hcontent, Array.map_push]
  · rw [h.taken, htaken]
  · have happend : ∀ (xs : Array Diagnostic) (ds : List Diagnostic),
        (xs.appendList ds).toList = xs.toList ++ ds := fun _ _ => Array.toList_appendList
    dsimp only
    rw [happend, happend]
    exact h.diagnostics.append hreports

/-- A token is passed on both sides. -/
theorem pass (h : on.Erased a lost off b) : TagBody.Erased a lost
    { on with taken := on.taken + 1 } { off with taken := off.taken + 1 } b :=
  ⟨h.attributes, h.terminator, congrArg (· + 1) h.taken, h.diagnostics⟩

/-- Both sides report the same, as long as it is no bad character, which could be folded. -/
theorem report (h : on.Erased a lost off b) {d : Diagnostic} (hd : d.kind ≠ .badCharacter) :
    TagBody.Erased a lost { on with diagnostics := on.diagnostics.push d }
      { off with diagnostics := off.diagnostics.push d } b := by
  refine ⟨h.attributes, h.terminator, h.taken, ?_⟩
  dsimp only
  rw [Array.toList_push, Array.toList_push]
  exact h.diagnostics.behind (List.forall_mem_singleton.mpr hd)

/-- The end of the tag is the same on both sides. -/
theorem close (h : on.Erased a lost off b) (kind : TokenKind) : TagBody.Erased a lost
    { on with terminator := some kind, taken := on.taken + 1 }
    { off with terminator := some kind, taken := off.taken + 1 } b :=
  ⟨h.attributes, rfl, congrArg (· + 1) h.taken, h.diagnostics⟩

end TagBody.Erased

/-- The rest of a start tag, by the recursion of `TagBody.readFrom` on the first side. The second
side makes the same turns, since the kind of the next token decides. -/
theorem TagBody.readFrom_erased {on off : TagBody} {ts : List Token} {lost : List Diagnostic}
    {c : Nat} (h : on.Erased a lost off b) (hordered : Span.Ordered b (ts.map Token.span) c)
    (hfits : ∀ u ∈ ts, u.span.Fits source) :
    ∃ d k, (readFrom ⟨source, true⟩ on ts).Erased a
        (lost ++ refusals source (runs ⟨source, true⟩ ts)) (readFrom ⟨source, false⟩ off ts) d ∧
      (readFrom ⟨source, true⟩ on ts).taken = on.taken + k ∧
      Span.Ordered d ((ts.drop k).map Token.span) c := by
  have hnil : ∀ lost, lost ++ refusals source [] = lost := List.append_nil
  induction on, ts using TagBody.readFrom.induct ⟨source, true⟩ generalizing off lost b with
  | case1 on =>
    rw [readFrom, readFrom, runs, hnil]
    exact ⟨b, 0, h, rfl, hordered⟩
  | case2 on t ts hkind x =>
    rename_i ih
    obtain ⟨hstart, hnonempty, hordered⟩ := hordered
    obtain ⟨-, hfits⟩ := List.forall_mem_cons.mp hfits
    have hbehind := hordered.mono_left (Nat.le_trans hstart (Nat.le_of_lt hnonempty))
    obtain ⟨hcontent, htaken, d, hsilenced, hrest⟩ := readAttribute_erased t hbehind hfits
    have hruns : refusals source (runs ⟨source, true⟩ (t :: ts))
        = refusals source (Attribute.runs ⟨source, true⟩ ts) ++ refusals source
          (runs ⟨source, true⟩ (ts.drop (readAttribute ⟨source, true⟩ t ts).taken)) := by
      rw [runs_drop, ← refusals_append, runs, hkind]
    have hnext := h.pushAttribute hcontent htaken hsilenced
    obtain ⟨e, k, herased, hall, hbehind⟩ := ih hnext hrest fun u hu =>
      hfits u (List.mem_of_mem_drop hu)
    rw [List.append_assoc, ← hruns] at herased
    rw [readFrom, readFrom, hkind]
    dsimp only
    rw [htaken] at herased ⊢
    refine ⟨e, x.taken + k + 1, herased, hall.trans ?_, ?_⟩
    · show on.taken + 1 + x.taken + k = _
      omega
    · rw [List.drop_succ_cons, ← List.drop_drop]
      exact hbehind
  | case3 on t ts hkind =>
    rw [readFrom, readFrom, runs, hkind]
    dsimp only
    rw [hnil]
    exact ⟨b, 1, h.close _, rfl, hordered.drop 1⟩
  | case4 on t ts hkind =>
    rw [readFrom, readFrom, runs, hkind]
    dsimp only
    rw [hnil]
    exact ⟨b, 1, h.close _, rfl, hordered.drop 1⟩
  | case5 on t ts hkind =>
    rw [readFrom, readFrom, runs, hkind]
    dsimp only
    rw [hnil]
    exact ⟨b, 0, h, rfl, hordered⟩
  | case6 on t ts hkind ih =>
    rw [readFrom, readFrom, runs, hkind]
    obtain ⟨d, k, herased, htaken, hbehind⟩ := ih h.pass (hordered.drop 1)
      (List.forall_mem_cons.mp hfits).2
    exact ⟨d, k + 1, herased, htaken.trans (Nat.add_right_comm ..), hbehind⟩
  | case7 on t ts hattr htag hself hclose hbad ih =>
    have hunexpected : ∀ r : Reading, (r.unexpected t .startTag).kind ≠ .badCharacter :=
      fun _ => DiagnosticKind.noConfusion
    rw [readFrom.eq_def, readFrom.eq_def ⟨source, false⟩, runs.eq_def]
    simp only
    have hnext := h.pass.report (hunexpected ⟨source, true⟩)
    obtain ⟨d, k, herased, htaken, hbehind⟩ := ih hnext (hordered.drop 1)
      (List.forall_mem_cons.mp hfits).2
    exact ⟨d, k + 1, herased, htaken.trans (Nat.add_right_comm ..), hbehind⟩

/-- Of two readings of a piece the one is the other without trees, where `runs` are the runs that a
tree is wanted of. -/
structure PieceRead.Erased (source : String) (a : Nat) (runs : List (List Token))
    (on off : PieceRead) (b : Nat) : Prop where
  piece : off.piece = on.piece.withoutTrees
  taken : off.taken = on.taken
  events : off.events = on.events
  diagnostics : Silenced a (refusals source runs) on.diagnostics off.diagnostics b

section Pieces

variable {first : Token} {ts : List Token}

theorem Reading.unexpectedNext_quiet (r : Reading) (ts : List Token) (place : Place) :
    (r.unexpectedNext ts place).kind ≠ .badCharacter := by
  cases ts <;> exact DiagnosticKind.noConfusion

theorem readStartTag_erased (hordered : Span.Ordered a (ts.map Token.span) b)
    (hfits : ∀ u ∈ ts, u.span.Fits source) :
    ∃ c, (readStartTag ⟨source, true⟩ first ts).Erased source a (TagBody.runs ⟨source, true⟩ ts)
        (readStartTag ⟨source, false⟩ first ts) c ∧
      Span.Ordered c ((ts.drop (readStartTag ⟨source, true⟩ first ts).taken).map Token.span) b := by
  have hstart : ∀ k, TagBody.Erased a [] ⟨#[], none, k, #[]⟩ ⟨#[], none, k, #[]⟩ a := fun k =>
    ⟨Array.map_empty.symm, rfl, rfl, .none a⟩
  have hunended : ∀ text, (Problem.startTagWithoutEnd text).kind ≠ .badCharacter :=
    fun _ => DiagnosticKind.noConfusion
  unfold readStartTag
  -- with and without a name, the body is read by `TagBody.readFrom_erased`; the rest is bookkeeping
  rcases name_cases ts with ⟨hname, -⟩ | ⟨name, us, rfl, hname, hkind⟩
  · obtain ⟨c, k, herased, htaken, hbehind⟩ := TagBody.readFrom_erased (hstart 0) hordered hfits
    simp only [hname, Option.isNone_none, if_true, List.drop_zero]
    generalize TagBody.readFrom ⟨source, true⟩ ⟨#[], none, 0, #[]⟩ ts = on at herased htaken ⊢
    generalize TagBody.readFrom ⟨source, false⟩ ⟨#[], none, 0, #[]⟩ ts = off at herased ⊢
    rw [Nat.zero_add] at htaken
    rw [herased.taken, herased.terminator]
    refine ⟨c, ⟨rfl, rfl, rfl, ?_⟩, htaken ▸ hbehind⟩
    refine (herased.diagnostics.before ?_).behind (Problem.quiet_if (hunended _))
    exact List.forall_mem_singleton.mpr (Reading.unexpectedNext_quiet _ ts _)
  · obtain ⟨c, k, herased, htaken, hbehind⟩ := TagBody.readFrom_erased (hstart 1) (hordered.drop 1)
      (List.forall_mem_cons.mp hfits).2
    have hruns : TagBody.runs ⟨source, true⟩ (name :: us) = TagBody.runs ⟨source, true⟩ us := by
      rw [TagBody.runs, hkind]
    simp only [hname, Option.isNone_some, Bool.false_eq_true, if_false, List.drop_succ_cons,
      List.drop_zero, List.nil_append, hruns] at herased htaken hbehind ⊢
    generalize TagBody.readFrom ⟨source, true⟩ ⟨#[], none, 1, #[]⟩ us = on at herased htaken ⊢
    generalize TagBody.readFrom ⟨source, false⟩ ⟨#[], none, 1, #[]⟩ us = off at herased ⊢
    rw [herased.taken, herased.terminator, herased.attributes, Array.toList_map, htaken, Nat.add_comm]
    refine ⟨c, ⟨?_, rfl, rfl, herased.diagnostics.behind (Problem.quiet_if (hunended _))⟩,
      hbehind⟩
    dsimp only
    rw [apply_ite Piece.withoutTrees]
    rfl

/-- What `strayInEndTag` finds does not depend on the reading, which is only asked for the
source. -/
theorem strayInEndTag_off (source : String) (ts : List Token) :
    strayInEndTag ⟨source, false⟩ ts = strayInEndTag ⟨source, true⟩ ts := by
  induction ts with
  | nil => rfl
  | cons t ts ih =>
    rw [strayInEndTag, strayInEndTag, ih]
    rfl

theorem strayInEndTag_quiet (r : Reading) (ts : List Token) :
    ∀ d ∈ (strayInEndTag r ts).2, d.kind ≠ .badCharacter := by
  induction ts with
  | nil => exact List.forall_mem_nil _
  | cons t ts ih =>
    rw [strayInEndTag]
    split
    · exact ih
    · exact List.forall_mem_cons.mpr ⟨DiagnosticKind.noConfusion, ih⟩
    · exact List.forall_mem_nil _

theorem readEndTag_erased (source : String) (a : Nat) (first : Token) (ts : List Token) :
    (readEndTag ⟨source, true⟩ first ts).Erased source a []
      (readEndTag ⟨source, false⟩ first ts) a := by
  have hunended : Problem.endTagWithoutEnd.kind ≠ .badCharacter := DiagnosticKind.noConfusion
  have hstray := strayInEndTag_quiet ⟨source, true⟩
  unfold readEndTag
  dsimp only
  rw [strayInEndTag_off]
  split
  · refine ⟨rfl, rfl, rfl, .same a (List.forall_mem_append.mpr ⟨?_, ?_⟩)⟩
    · exact List.forall_mem_append.mpr ⟨hstray _, Problem.quiet_unless hunended⟩
    · exact List.forall_mem_singleton.mpr DiagnosticKind.noConfusion
  · refine ⟨rfl, rfl, rfl, .same a ?_⟩
    exact List.forall_mem_append.mpr ⟨hstray _, Problem.quiet_unless hunended⟩

/-! ### Braces

The head of a further branch is no part of this: its expression is read when the piece is added,
with the run that the piece keeps. -/

theorem Braces.unclosed_quiet (b : Braces) : ∀ d ∈ b.unclosed, d.kind ≠ .badCharacter :=
  Problem.quiet_unless DiagnosticKind.noConfusion

theorem readInterpolation_erased (source : String) (a : Nat) (first : Token) (ts : List Token)
    (skip : Nat) (raw : Bool) :
    (readInterpolation ⟨source, true⟩ first ts skip raw).Erased source a
      [(Braces.read first ts skip).run] (readInterpolation ⟨source, false⟩ first ts skip raw) a := by
  have hproblems := Expression.silenced_ofRun? source a (Braces.read first ts skip).run
  unfold readInterpolation
  dsimp only
  rw [Expression.ofRun?_off]
  refine ⟨rfl, rfl, rfl, ?_⟩
  dsimp only
  rw [Option.isNone_map]
  exact (hproblems.before (Braces.unclosed_quiet _)).behind
    (Problem.quiet_if DiagnosticKind.noConfusion)

/-- The names that `LoopBinding.ofRun?` reads do not depend on the reading. -/
theorem LoopBinding.ofRun?_off (source : String) (run : List Token) :
    LoopBinding.ofRun? ⟨source, false⟩ run = LoopBinding.ofRun? ⟨source, true⟩ run := rfl

/-- A head that is `unbound`: no tree is wanted, so the grammar says nothing and both readings
agree. -/
theorem unbound_erased (source : String) (a : Nat) (run : List Token) :
    let on := readLoopHead.unbound ⟨source, true⟩ run
    let off := readLoopHead.unbound ⟨source, false⟩ run
    off.1 = (on.1.1.map Expression.withoutTree, on.1.2) ∧ off.2.2 = on.2.2 ∧
      Silenced a [] on.2.1 off.2.1 a := by
  unfold readLoopHead.unbound
  dsimp only
  rw [Expression.ofRun?_off, Expression.problems_unwanted]
  refine ⟨rfl, rfl, .same a ?_⟩
  rw [List.append_nil]
  exact Problem.quiet_onRun? DiagnosticKind.noConfusion run

/-- The head of a loop. What is wanted a tree of is the run in front of `as`, if there is a binding
behind it. -/
theorem readLoopHead_erased (source : String) (a : Nat) (run : List Token) :
    let on := readLoopHead ⟨source, true⟩ run
    let off := readLoopHead ⟨source, false⟩ run
    off.1 = (on.1.1.map Expression.withoutTree, on.1.2) ∧ off.2.2 = on.2.2 ∧
      Silenced a (refusals source (LoopBinding.runs ⟨source, true⟩ run)) on.2.1 off.2.1 a := by
  have hunbound := unbound_erased source a run
  unfold readLoopHead LoopBinding.runs
  dsimp only
  rw [LoopBinding.ofRun?_off]
  cases LoopBinding.ofRun? ⟨source, true⟩ (run.drop (run.takeWhile (·.kind != .asWord)).length) with
  | none => exact hunbound
  | some binding =>
    cases hempty : (run.takeWhile (·.kind != .asWord)).isEmpty with
    | true => exact hunbound
    | false =>
      rw [Expression.ofRun?_off]
      exact ⟨rfl, rfl, Expression.silenced_ofRun? source a (run.takeWhile (·.kind != .asWord))⟩

theorem readOpener_erased (source : String) (a : Nat) (first : Token) (ts : List Token)
    (keyword : TokenKind) (kind : DirectiveKind) :
    (readOpener ⟨source, true⟩ first ts keyword kind).Erased source a
      (match kind with
      | .choice => [(Braces.read first ts 1).run]
      | .loop => LoopBinding.runs ⟨source, true⟩ (Braces.read first ts 1).run)
      (readOpener ⟨source, false⟩ first ts keyword kind) a := by
  have hmissing : (Problem.directiveWithoutExpression kind).kind ≠ .badCharacter :=
    DiagnosticKind.noConfusion
  have hunclosed := (Braces.read first ts 1).unclosed_quiet
  unfold readOpener
  dsimp only
  -- a choice reads one expression; a loop reads its head, with at most one in it
  cases kind with
  | choice =>
    have hproblems := Expression.silenced_ofRun? source a (Braces.read first ts 1).run
    dsimp only
    rw [Expression.ofRun?_off]
    refine ⟨rfl, rfl, rfl, ?_⟩
    dsimp only
    rw [Option.isNone_map]
    exact (hproblems.behind hunclosed).behind (Problem.quiet_if hmissing)
  | loop =>
    let run := (Braces.read first ts 1).run
    obtain ⟨hhead, hevents, hproblems⟩ := readLoopHead_erased source a run
    dsimp only
    generalize readLoopHead ⟨source, true⟩ run = on at hhead hevents hproblems ⊢
    generalize readLoopHead ⟨source, false⟩ run = off at hhead hevents hproblems ⊢
    obtain ⟨⟨expression, binding⟩, ds, events⟩ := on
    obtain ⟨offHead, offDs, offEvents⟩ := off
    dsimp only at hhead hevents hproblems
    subst hhead hevents
    refine ⟨rfl, rfl, rfl, ?_⟩
    dsimp only
    rw [Option.isNone_map]
    exact (hproblems.behind hunclosed).behind (Problem.quiet_if hmissing)

theorem readBranch_erased (source : String) (a : Nat) (first : Token) (ts : List Token)
    (word : BranchWord) :
    (readBranch first ts word).Erased source a [] (readBranch first ts word) a :=
  ⟨rfl, rfl, rfl, .same a (Braces.read first ts 1).unclosed_quiet⟩

theorem readCloser_erased (source : String) (a : Nat) (first : Token) (ts : List Token)
    (kind : DirectiveKind) :
    (readCloser first ts kind).Erased source a [] (readCloser first ts kind) a :=
  ⟨rfl, rfl, rfl, .same a (List.forall_mem_append.mpr ⟨(Braces.read first ts 1).unclosed_quiet,
    Problem.quiet_onRun? DiagnosticKind.noConfusion _⟩)⟩

theorem readBraces_erased (source : String) (a : Nat) (first : Token) (ts : List Token) :
    (readBraces ⟨source, true⟩ first ts).Erased source a (Braces.runs ⟨source, true⟩ first ts)
      (readBraces ⟨source, false⟩ first ts) a := by
  unfold readBraces Braces.runs
  generalize ts.head?.map Token.kind = head
  cases head with
  | none => exact readInterpolation_erased source a first ts 0 false
  | some kind =>
    cases kind with
    | ifBlock => exact readOpener_erased source a first ts .ifBlock .choice
    | eachBlock => exact readOpener_erased source a first ts .eachBlock .loop
    | elseIf => exact readBranch_erased source a first ts .elseIf
    | elseBranch => exact readBranch_erased source a first ts .elseBranch
    | endIf => exact readCloser_erased source a first ts .choice
    | endEach => exact readCloser_erased source a first ts .loop
    | html => exact readInterpolation_erased source a first ts 1 true
    | _ => exact readInterpolation_erased source a first ts 0 false

/-- **Pieces without trees.** A piece whose tokens stand behind `a` is read without trees as with
them, save that the diagnostics of the grammar on `Piece.runs` are missing; and what comes next
stands behind its bad characters. -/
theorem Piece.read_erased (hordered : Span.Ordered a ((first :: ts).map Token.span) b)
    (hfits : ∀ t ∈ ts, t.span.Fits source) :
    ∃ c, (Piece.read ⟨source, true⟩ first ts).Erased source a (Piece.runs ⟨source, true⟩ first ts)
        (Piece.read ⟨source, false⟩ first ts) c ∧
      Span.Ordered c ((ts.drop (Piece.read ⟨source, true⟩ first ts).taken).map Token.span) b := by
  obtain ⟨hstart, hnonempty, hrest⟩ := hordered
  have hbehind : Span.Ordered a (ts.map Token.span) b :=
    hrest.mono_left (Nat.le_trans hstart (Nat.le_of_lt hnonempty))
  unfold Piece.read Piece.runs
  generalize first.kind = kind
  -- only a start tag moves the place behind which bad characters may stand; the others leave it at
  -- `a`
  cases kind with
  | tagOpen => exact readStartTag_erased hbehind hfits
  | tagEndOpen => exact ⟨a, readEndTag_erased source a first ts, hbehind.drop _⟩
  | text => exact ⟨a, ⟨rfl, rfl, rfl, .none a⟩, hbehind.drop _⟩
  | comment => exact ⟨a, ⟨rfl, rfl, rfl, .none a⟩, hbehind.drop _⟩
  | interpolationOpen => exact ⟨a, readBraces_erased source a first ts, hbehind.drop _⟩
  | badCharacter => exact ⟨a, ⟨rfl, rfl, rfl, .none a⟩, hbehind.drop _⟩
  | _ =>
    refine ⟨a, ⟨rfl, rfl, rfl, .same a ?_⟩, hbehind.drop _⟩
    exact List.forall_mem_singleton.mpr DiagnosticKind.noConfusion

end Pieces

end RsxInspect
