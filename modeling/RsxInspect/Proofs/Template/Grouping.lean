import RsxInspect.Proofs.Template.Extent
import RsxInspect.Proofs.Template.Parts

/-!
# Tokens and parts

Each part of a tree is read from a group of tokens in a row: it stands where they stand, and if it
has an expression, that holds exactly the tokens between the braces (`Part.ReadFrom`). The bricks:

* `place_spanOf`: the span of a piece goes from its first token to its last one.
* `Braces.tokens` and `Braces.holds`: what is taken between braces are the keywords, the run and the
  closing braces, and the expression holds the run.
* `readText_standsFor` to `readBraces_standsFor`: one lemma for each sort of piece, and
  `Piece.read_standsFor` for all of them: the part that a piece becomes is read from exactly the
  tokens that the piece takes.
* `Builder.Gathered`: what reading pieces up to the end of a template comes to.

Reading the pieces of a template cuts its tokens into such groups, one for each part, in order and
with nothing left over (`Builder.readFrom_gathered`).
-/

namespace RsxInspect

/-- The tokens `ts` are opening braces, keywords of the given kinds, a run of tokens, and closing
braces unless they are missing. The expression holds the run, and there is none just for an empty
run. -/
def HoldsExpression (ts : List Token) (keywords : List TokenKind) (e : Option Expression) : Prop :=
  ∃ front run back, ts = front ++ run ++ back ∧
    front.map Token.kind = .interpolationOpen :: keywords ∧
    (∀ t ∈ run, t.kind ≠ .interpolationClose) ∧
    (back.map Token.kind = [] ∨ back.map Token.kind = [.interpolationClose]) ∧
    (e.map Expression.tokens).getD [] = run ∧ (e = none ↔ run = [])

/-- The keywords in front of the expression of an interpolation: one if it is raw. -/
def Interpolation.keywords (i : Interpolation) : List TokenKind :=
  if i.raw then [.html] else []

/-- The heads of a choice that have a condition: the first one and those of further branches, but
not that of the last branch. -/
def BranchHead.HasCondition (h : BranchHead) : Prop := h.keyword = .ifBlock ∨ h.keyword = .elseIf

/-- The part stands from the first to the last one of the tokens (`place`), and its expression holds
those of them that are meant for it: that of an interpolation, or the condition of a head. -/
structure Part.ReadFrom (p : Part) (ts : List Token) : Prop where
  place : ∃ first last, ts.head? = some first ∧ ts.getLast? = some last ∧
    p.span = ⟨first.span.start, last.span.stop⟩
  interpolation : ∀ i, p = .interpolation i → HoldsExpression ts i.keywords i.expression
  condition : ∀ h, p = .head h → h.HasCondition → HoldsExpression ts [h.keyword] h.expression

/-- Whatever part becomes of the piece (`Piece.Becomes`), it is read from the tokens. -/
structure Piece.StandsFor (r : Reading) (piece : Piece) (ts : List Token) : Prop where
  becomes : ∃ p, piece.Becomes r p
  readFrom : ∀ p, piece.Becomes r p → p.ReadFrom ts

/-! ### Places -/

/-- The span of some tokens behind `first` goes from the first to the last one taken. -/
theorem place_spanOf (first : Token) {ts : List Token} {n : Nat} (hn : n ≤ ts.length) :
    ∃ a b, (first :: ts.take n).head? = some a ∧ (first :: ts.take n).getLast? = some b ∧
      spanOf first ts n = ⟨a.span.start, b.span.stop⟩ := by
  have hlt : n < (first :: ts).length := Nat.lt_succ_of_le hn
  refine ⟨first, (first :: ts)[n], rfl, ?_, ?_⟩
  · show ((first :: ts).take (n + 1)).getLast? = _
    rw [List.getLast?_take, if_neg (Nat.succ_ne_zero n), Nat.add_sub_cancel,
      List.getElem?_eq_getElem hlt]
    rfl
  · rw [spanOf, endOf, List.getElem?_eq_getElem hlt]
    rfl

/-- A part without an expression is read from the tokens if it stands in their place. -/
theorem Part.readFrom_mark {span : Span} {ts : List Token}
    (h : ∃ a b, ts.head? = some a ∧ ts.getLast? = some b ∧ span = ⟨a.span.start, b.span.stop⟩) :
    (Part.mark span).ReadFrom ts :=
  ⟨h, fun _ hi => (nomatch hi), fun _ hh => (nomatch hh)⟩

/-- A node with one part becomes that part. -/
theorem Piece.becomes_node {r : Reading} {n : Node} {q : Part} (h : n.parts = [q]) (p : Part) :
    (Piece.node n).Becomes r p ↔ p = q := by
  show n.parts = [p] ↔ p = q
  rw [h, List.singleton_inj]
  exact eq_comm

/-- A piece without an expression stands for the tokens if it stands in their place. -/
theorem Piece.standsFor_mark {r : Reading} {piece : Piece} {span : Span} {ts : List Token}
    (hbecomes : ∀ p, piece.Becomes r p ↔ p = .mark span)
    (h : ∃ a b, ts.head? = some a ∧ ts.getLast? = some b ∧ span = ⟨a.span.start, b.span.stop⟩) :
    piece.StandsFor r ts := by
  refine ⟨⟨_, (hbecomes _).mpr rfl⟩, fun p hp => ?_⟩
  rw [(hbecomes p).mp hp]
  exact Part.readFrom_mark h

/-! ### Text and tags

These pieces have no expression, so all that is asked of their parts is the place. -/

/-- The `cover` of spans in a row goes from the first to the last one. -/
theorem foldl_cover {source : String} {a b : Nat} {first : Span} {more : List Token}
    {spans : List Span}
    (h : Spaced source a (first :: more.map Token.span ++ spans) b) :
    more.foldl (fun s t => s.cover t.span) first
      = ⟨first.start, ((more.getLast?.map Token.span).getD first).stop⟩ := by
  induction more generalizing first with
  | nil => rfl
  | cons t more ih =>
    -- the next token starts behind the first, so covering both moves the end only
    have hnext : first.cover t.span = ⟨first.start, t.span.stop⟩ := by
      cases h with
      | span _ hfirst rest =>
        cases rest with
        | span gap ht _ =>
          have := gap.le
          simp only [Span.cover, Span.mk.injEq]
          omega
    have hpair : Spaced source a (first :: [] ++ t.span :: (more.map Token.span ++ spans)) b := h
    have hmerged : Spaced source a (⟨first.start, t.span.stop⟩ :: more.map Token.span ++ spans) b :=
      hpair.merge
    show more.foldl (fun s t => s.cover t.span) (first.cover t.span) = _
    rw [hnext, ih hmerged, List.getLast?_cons]
    cases more.getLast? <;> rfl

/-- What `readText` gives stands for its tokens. -/
theorem readText_standsFor (r : Reading) (first : Token) {ts : List Token} {source : String}
    {a b : Nat} (h : Spaced source a ((first :: ts).map Token.span) b) :
    (readText r first ts).piece.StandsFor r (first :: ts.take (readText r first ts).taken) := by
  have htake : ts.take (readText r first ts).taken = ts.takeWhile (·.kind == .text) :=
    List.prefix_iff_eq_take.mp (List.takeWhile_prefix _) |>.symm
  rw [htake]
  have hsplit : ts.takeWhile (·.kind == .text) ++ ts.dropWhile (·.kind == .text) = ts :=
    List.takeWhile_append_dropWhile
  generalize hmore : ts.takeWhile (·.kind == .text) = more at hsplit ⊢
  have hspan : more.foldl (fun s t => s.cover t.span) first.span
      = ⟨first.span.start, ((more.getLast?.map Token.span).getD first.span).stop⟩ := by
    rw [← hsplit, List.map_cons, List.map_append] at h
    exact foldl_cover h
  refine Piece.standsFor_mark (Piece.becomes_node rfl) ?_
  · rw [hmore]
    refine ⟨first, more.getLast?.getD first, rfl, List.getLast?_cons, ?_⟩
    rw [hspan]
    cases more.getLast? <;> rfl

/-- A complete element has no children, so its start tag is its only part as well. -/
theorem Piece.becomes_tag {r : Reading} {e : Element} (he : e.endTag = none) (complete : Bool)
    (p : Part) :
    (if complete then Piece.node (.element e []) else .startTag e).Becomes r p
      ↔ p = .mark e.startTag := by
  cases complete with
  | false => exact Iff.rfl
  | true =>
    refine Piece.becomes_node ?_ p
    show Part.mark e.startTag :: ([] ++ Part.closing e.endTag) = _
    rw [he]
    rfl

/-- What `readStartTag` gives stands for its tokens, whether it is complete or opens a frame. -/
theorem readStartTag_standsFor (r : Reading) (first : Token) {ts : List Token}
    (h : (readStartTag r first ts).taken ≤ ts.length) :
    (readStartTag r first ts).piece.StandsFor r
      (first :: ts.take (readStartTag r first ts).taken) := by
  refine Piece.standsFor_mark ?_ (place_spanOf first h)
  unfold readStartTag
  cases ts.head?.filter (·.kind == .tagName) with
  | none => exact Piece.becomes_node rfl
  | some name => exact Piece.becomes_tag rfl _

/-- What `readEndTag` gives stands for its tokens, and so does the error node that it is without a
name. -/
theorem readEndTag_standsFor (r : Reading) (first : Token) {ts : List Token}
    (h : (readEndTag r first ts).taken ≤ ts.length) :
    (readEndTag r first ts).piece.StandsFor r
      (first :: ts.take (readEndTag r first ts).taken) := by
  refine Piece.standsFor_mark ?_ (place_spanOf first h)
  unfold readEndTag
  cases ts.head?.filter (·.kind == .tagName) with
  | none => exact Piece.becomes_node rfl
  | some name => exact fun p => Iff.rfl

/-! ### Braces

Here the tokens are read off as well: which keywords stand in front of the run depends on the piece.
-/

/-- The expression of a run (`Expression.ofRun?`) holds the run, whether a tree is wanted or not. -/
theorem Expression.ofRun?_tokens (r : Reading) (run : List Token) (wanted : Bool) :
    (((ofRun? r run wanted).1.map Expression.tokens).getD [] = run)
      ∧ ((ofRun? r run wanted).1 = none ↔ run = []) := by
  cases run with
  | nil => exact ⟨rfl, by simp [ofRun?, Span.ofRun?]⟩
  | cons t ts =>
    have hspan : Span.ofRun? (t :: ts)
        = some (t.span.cover ((t :: ts).getLast (List.cons_ne_nil t ts)).span) := by
      rw [Span.ofRun?, List.head?_cons, List.getLast?_eq_some_getLast (List.cons_ne_nil t ts)]
    unfold ofRun?
    rw [hspan]
    simp only
    split
    · split <;> simp
    · simp

namespace Braces

/-- What is taken between braces (`Braces.read`) is what is skipped, the run, and the closing braces
if there are any. -/
theorem tokens (first : Token) {ts : List Token} {skip : Nat} (hskip : skip ≤ ts.length) :
    ∃ back, ts.take (Braces.read first ts skip).taken
        = ts.take skip ++ (Braces.read first ts skip).run ++ back
      ∧ (back.map Token.kind = [] ∨ back.map Token.kind = [.interpolationClose]) := by
  let run := (Braces.read first ts skip).run
  have hfront : (ts.take skip ++ run).length = skip + run.length := by
    rw [List.length_append, List.length_take_of_le hskip]
  have hsplit : ts = (ts.take skip ++ run) ++ ts.drop (skip + run.length) := by
    have hrun : run ++ (ts.drop skip).dropWhile (!·.kind.endsRun) = ts.drop skip :=
      List.takeWhile_append_dropWhile
    rw [List.append_assoc, drop_run first ts skip, hrun, List.take_append_drop]
  generalize hrest : ts.drop (skip + run.length) = rest at hsplit
  show ∃ back, ts.take (if (ts.drop (skip + run.length)).head?.any (·.kind == .interpolationClose)
      then skip + run.length + 1 else skip + run.length) = ts.take skip ++ run ++ back ∧ _
  rw [hrest]
  generalize hbefore : ts.take skip ++ run = before at hfront hsplit ⊢
  -- nothing left, closing braces, or another token that ends the run
  cases rest with
  | nil =>
    refine ⟨[], ?_, .inl rfl⟩
    rw [List.append_nil] at hsplit ⊢
    rw [hsplit, ← hfront]
    exact List.take_length
  | cons t rest =>
    rw [List.head?_cons, Option.any_some]
    split
    · rename_i hclose
      refine ⟨[t], ?_, .inr (by simpa using hclose)⟩
      rw [hsplit, ← hfront, List.take_length_add_append]
      rfl
    · refine ⟨[], ?_, .inl rfl⟩
      rw [hsplit, ← hfront, List.take_left, List.append_nil]

/-- The expression of the run between braces holds the run behind keywords (`HoldsExpression`). -/
theorem holds (r : Reading) {first : Token} (hfirst : first.kind = .interpolationOpen)
    {ts : List Token} {skip : Nat} (hskip : skip ≤ ts.length) (wanted : Bool) :
    HoldsExpression (first :: ts.take (Braces.read first ts skip).taken)
      ((ts.take skip).map Token.kind)
      (Expression.ofRun? r (Braces.read first ts skip).run wanted).1 := by
  obtain ⟨back, htokens, hback⟩ := tokens first hskip
  refine ⟨first :: ts.take skip, (Braces.read first ts skip).run, back, ?_, ?_, ?_, hback,
    Expression.ofRun?_tokens r _ wanted⟩
  · rw [htokens]
    rfl
  · rw [List.map_cons, hfirst]
  · intro t ht hkind
    have hrun : (!t.kind.endsRun) = true := List.all_eq_true.mp List.all_takeWhile t ht
    rw [hkind] at hrun
    cases hrun

end Braces

section Braces

variable (r : Reading) {first : Token} {ts : List Token}

/-- What `readInterpolation` gives stands for its tokens, with its keyword if it is raw. -/
theorem readInterpolation_standsFor (hfirst : first.kind = .interpolationOpen) {skip : Nat}
    {raw : Bool} (hskip : skip ≤ ts.length)
    (hraw : (ts.take skip).map Token.kind = if raw then [.html] else [])
    (h : (readInterpolation r first ts skip raw).taken ≤ ts.length) :
    (readInterpolation r first ts skip raw).piece.StandsFor r
      (first :: ts.take (readInterpolation r first ts skip raw).taken) := by
  let i : Interpolation := ⟨raw, (Expression.ofRun? r (Braces.read first ts skip).run true).1,
    (Braces.read first ts skip).span, (Braces.read first ts skip).terminated⟩
  have hbecomes : ∀ p, (readInterpolation r first ts skip raw).piece.Becomes r p
      ↔ p = .interpolation i := Piece.becomes_node rfl
  refine ⟨⟨_, (hbecomes _).mpr rfl⟩, fun p hp => ?_⟩
  rw [(hbecomes p).mp hp]
  refine ⟨place_spanOf first h, ?_, fun _ hh => (nomatch hh)⟩
  intro j hj
  cases hj
  show HoldsExpression _ (if raw then [.html] else []) _
  rw [← hraw]
  exact Braces.holds r hfirst hskip true

/-- What `readOpener` gives, the head of a block, stands for its tokens. That of a loop has no
condition, so nothing is asked of its expression. -/
theorem readOpener_standsFor (hfirst : first.kind = .interpolationOpen) {t : Token}
    {us : List Token} (hts : ts = t :: us) {keyword : TokenKind} {kind : DirectiveKind}
    (ht : t.kind = keyword)
    (hkind : kind = .choice ∨ (kind = .loop ∧ keyword = .eachBlock))
    (h : (readOpener r first ts keyword kind).taken ≤ ts.length) :
    (readOpener r first ts keyword kind).piece.StandsFor r
      (first :: ts.take (readOpener r first ts keyword kind).taken) := by
  subst hts
  -- a choice holds its expression; a loop has no condition, so nothing is asked of its run
  rcases hkind with rfl | ⟨rfl, rfl⟩
  · refine ⟨⟨_, rfl⟩, fun p hp => ?_⟩
    rw [hp]
    refine ⟨place_spanOf first h, fun _ hi => (nomatch hi), ?_⟩
    intro head hhead _
    cases hhead
    have hholds := Braces.holds r hfirst (show 1 ≤ (t :: us).length from Nat.le_add_left 1 us.length) true
    rw [List.take_succ_cons, List.take_zero, List.map_cons, ht] at hholds
    exact hholds
  · refine ⟨⟨_, rfl⟩, fun p hp => ?_⟩
    rw [hp]
    refine ⟨place_spanOf first h, fun _ hi => (nomatch hi), ?_⟩
    intro head hhead hcondition
    cases hhead
    rcases hcondition with hkey | hkey <;> cases hkey

/-- What `readBranch` gives, the head of a further branch, stands for its tokens. That of the last
branch has no condition. -/
theorem readBranch_standsFor (hfirst : first.kind = .interpolationOpen) {t : Token}
    {us : List Token} (hts : ts = t :: us) {word : BranchWord}
    (hkind : t.kind = Builder.keywordOf word) (h : (readBranch first ts word).taken ≤ ts.length) :
    (readBranch first ts word).piece.StandsFor r
      (first :: ts.take (readBranch first ts word).taken) := by
  subst hts
  refine ⟨⟨_, .inl rfl⟩, fun p hp => ?_⟩
  rcases hp with rfl | rfl
  · exact Part.readFrom_mark (place_spanOf first h)
  · refine ⟨place_spanOf first h, fun _ hi => (nomatch hi), ?_⟩
    intro head hhead hcondition
    cases hhead
    cases word with
    | elseIf =>
      have hholds := Braces.holds r hfirst (show 1 ≤ (t :: us).length from Nat.le_add_left 1 us.length) true
      rw [List.take_succ_cons, List.take_zero, List.map_cons, hkind] at hholds
      exact hholds
    | elseBranch =>
      rcases hcondition with hkey | hkey <;> cases hkey

/-- What `readCloser` gives stands for its tokens and has no expression. -/
theorem readCloser_standsFor {kind : DirectiveKind}
    (h : (readCloser first ts kind).taken ≤ ts.length) :
    (readCloser first ts kind).piece.StandsFor r
      (first :: ts.take (readCloser first ts kind).taken) :=
  Piece.standsFor_mark (fun _ => Iff.rfl) (place_spanOf first h)

/-- What `readBraces` gives stands for its tokens: one case for each keyword, and one without. -/
theorem readBraces_standsFor (hfirst : first.kind = .interpolationOpen)
    (h : (readBraces r first ts).taken ≤ ts.length) :
    (readBraces r first ts).piece.StandsFor r
      (first :: ts.take (readBraces r first ts).taken) := by
  revert h
  unfold readBraces
  cases ts with
  | nil =>
    exact readInterpolation_standsFor r hfirst (Nat.zero_le _) rfl
  | cons t us =>
    rw [List.head?_cons, Option.map_some]
    generalize hkind : t.kind = kind
    -- a keyword decides which of the four readers takes the braces
    cases kind with
    | ifBlock => exact readOpener_standsFor r hfirst rfl hkind (.inl rfl)
    | eachBlock => exact readOpener_standsFor r hfirst rfl hkind (.inr ⟨rfl, rfl⟩)
    | elseIf => exact readBranch_standsFor r hfirst rfl hkind
    | elseBranch => exact readBranch_standsFor r hfirst rfl hkind
    | endIf => exact readCloser_standsFor r
    | endEach => exact readCloser_standsFor r
    | html =>
      refine readInterpolation_standsFor r hfirst (Nat.le_add_left 1 us.length) ?_
      show [t.kind] = [.html]
      rw [hkind]
    | _ => exact readInterpolation_standsFor r hfirst (Nat.zero_le _) rfl

end Braces

/-! ### Pieces -/

/-- **A piece stands for its tokens.** The part that a piece `Becomes` is read from exactly the
tokens that the piece takes. -/
theorem Piece.read_standsFor (r : Reading) {first : Token} {ts : List Token} {source : String}
    {a b : Nat} (htrace : Trace .template (first :: ts)) (hfirst : first.kind ≠ .templateClose)
    (hspaced : Spaced source a ((first :: ts).map Token.span) b) :
    (Piece.read r first ts).piece.StandsFor r
      (first :: ts.take (Piece.read r first ts).taken) := by
  have hle := (Piece.read_stops r htrace hfirst).1
  rcases htrace.piece_cases hfirst with
    ⟨hkind, -⟩ | ⟨hkind, -⟩ | ⟨hkind, -⟩ | ⟨hkind, -⟩ | ⟨hkind, -⟩
  · rw [Piece.read, hkind]
    exact Piece.standsFor_mark (Piece.becomes_node rfl) ⟨first, first, rfl, rfl, rfl⟩
  · rw [Piece.read, hkind]
    exact readText_standsFor r first hspaced
  · rw [Piece.read, hkind] at hle ⊢
    exact readStartTag_standsFor r first hle
  · rw [Piece.read, hkind] at hle ⊢
    exact readEndTag_standsFor r first hle
  · rw [Piece.read, hkind] at hle ⊢
    exact readBraces_standsFor r hkind hle

/-! ### Templates

The loop over pieces is followed by its own induction. Behind each piece a `Trace` of markup goes
on, which is what the lemma on the next piece asks for. -/

/-- The tokens fall into groups in a row, one for each of the parts, which is read from it
(`Part.ReadFrom`). No token is left out and none is in two groups. -/
inductive Grouped : List Token → List Part → Prop where
  | nil : Grouped [] []
  | cons {group ts : List Token} {p : Part} {parts : List Part} (h : p.ReadFrom group)
      (rest : Grouped ts parts) : Grouped (group ++ ts) (p :: parts)

/-- Reading the pieces of a template takes `k` of the tokens, which fall into groups for the parts
that come in, and stops where markup ends. The parts stand behind those that were in the forest
before. -/
structure Builder.Gathered (before behind : Builder.Progress) (ts : List Token) (k : Nat)
    (parts : List Part) : Prop where
  taken : behind.taken = before.taken + k
  stops : Stops k ts
  ended : ∀ t, (ts.drop k).head? = some t → t.kind = .templateClose
  forest : behind.builder.forest.parts = before.builder.forest.parts ++ parts
  grouped : Grouped (ts.take k) parts

/-- **The pieces of a template gather its tokens.** By induction on `Builder.readFrom`: a piece
makes one group, and the pieces behind it make the others. -/
theorem Builder.readFrom_gathered (r : Reading) (p : Builder.Progress) {ts : List Token}
    {source : String} {a b : Nat} (htrace : Trace .template ts)
    (hspaced : Spaced source a (ts.map Token.span) b) :
    ∃ k parts, Builder.Gathered p (Builder.readFrom r p ts) ts k parts := by
  -- one piece of the template after the other
  induction p, ts using Builder.readFrom.induct r generalizing a with
  | case1 p =>
    rw [Builder.readFrom]
    exact ⟨0, [], rfl, ⟨Nat.le_refl _, htrace⟩, fun t ht => (nomatch ht),
      (List.append_nil _).symm, .nil⟩
  | case2 p t ts hclose =>
    rw [Builder.readFrom, if_pos hclose]
    refine ⟨0, [], rfl, ⟨Nat.zero_le _, htrace⟩, ?_, (List.append_nil _).symm, .nil⟩
    intro u hu
    cases hu
    exact hclose
  | case3 p t ts hclose piece =>
    rename_i ih
    have hstops := Piece.read_stops r htrace hclose
    have hstands := Piece.read_standsFor r htrace hclose hspaced
    obtain ⟨hle, hrest⟩ : Stops piece.taken ts := hstops
    -- the tokens behind the piece are spaced as well
    have hbehind : ∃ c, Spaced source c ((ts.drop piece.taken).map Token.span) b := by
      have hsplit : (t :: ts).map Token.span
          = (t.span :: (ts.take piece.taken).map Token.span)
            ++ (ts.drop piece.taken).map Token.span := by
        rw [List.cons_append, ← List.map_append, List.take_append_drop, List.map_cons]
      rw [hsplit] at hspaced
      exact hspaced.behind
    obtain ⟨c, hbehind⟩ := hbehind
    obtain ⟨k, parts, htaken, ⟨hk, hmarkup⟩, hhead, hparts, hgrouped⟩ := ih hrest hbehind
    obtain ⟨q, hq, hadd⟩ := Builder.parts_add p.builder r hstands.becomes
    rw [List.length_drop] at hk
    rw [List.drop_drop] at hmarkup hhead
    rw [Builder.readFrom, if_neg hclose]
    refine ⟨piece.taken + k + 1, q :: parts, ?_, ⟨?_, hmarkup⟩, hhead, ?_, ?_⟩
    · rw [htaken]
      show p.taken + 1 + piece.taken + k = _
      omega
    · rw [List.length_cons]
      omega
    · rw [hparts]
      show (p.builder.add r piece).forest.parts ++ parts = _
      rw [hadd, List.append_assoc, List.singleton_append]
    · have htake : (t :: ts).take (piece.taken + k + 1)
          = (t :: ts.take piece.taken) ++ (ts.drop piece.taken).take k := by
        rw [List.take_succ_cons, List.take_add, List.cons_append]
      rw [htake]
      exact .cons (hstands.readFrom q hq) hgrouped

end RsxInspect
