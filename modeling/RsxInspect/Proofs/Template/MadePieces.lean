import RsxInspect.Proofs.Template.Making

/-!
# What pieces are made of

What is read at the front of a template's tokens is well made, as one piece (`PieceRead.Made`): what
is reported of it is `Local`, and the node, the frame or the closing delimiter that it brings along
is well made if what is reported is on the list. The bricks are one lemma for each reader:

* `readText_made`, `readStartTag_made`, `readEndTag_made` for text and tags;
* `readInterpolation_made`, `readOpener_made`, `readBranch_made`, `readCloser_made` for braces. They
  share what is known of the run between the braces, `Braces.Good`, so that `readBraces_made` has
  only to tell them apart by the keyword.

`Piece.read_made` puts them together, by the kind of the first token.
-/

namespace RsxInspect

/-! ### Text and tags as pieces

The tokens stand in a row, so spans from one of them to another fit the source. -/

/-- What is reported when the piece is added is `Local` where the piece stands. Only the head of a
branch is read so late, since its expression depends on the frame that is open. -/
def Piece.Placed (r : Reading) : Piece → Prop
  | .endTag _ span | .closer _ span => span.Fits r.source
  | .branch word run span => span.Fits r.source ∧
      ∀ d ∈ (Builder.branchExpression r word run span).2, d.Local r.source
  | _ => True

/-- What is reported of a piece is `Local`, and if it is on the list, then what the piece brings
along is made well (`brings`). -/
structure PieceRead.Made (r : Reading) (first : Token) (ts : List Token) (read : PieceRead) :
    Prop where
  diagnostics : ∀ d ∈ read.diagnostics, d.Local r.source
  placed : read.piece.Placed r
  brings : ∀ ds es, BadNoted ds ts → (∀ d ∈ read.diagnostics ++ es, d ∈ ds) →
    read.piece.Brings r (Node.Made r ds) (Frame.Made r ds first.span.start) es

section Pieces

variable {r : Reading} {first : Token} {ts : List Token} {ds : List Diagnostic} {span : Span}

/-- An end tag, a branch or a closer at the piece brings along an error node, if it is stray, and
the frames that it closes. -/
theorem Piece.brings_closing {here : Nat} {p : Frame → Prop} (hspan : span.Fits r.source)
    (hstart : span.start = here) :
    (Node.error span).Made r ds ∧ ∀ frame : Frame, frame.Made r ds here →
      (frame.close span.start none).Made r ds ∧
        (p frame → (frame.close span.stop (some span)).Made r ds) := by
  refine ⟨Node.made_error hspan, fun frame hframe => ⟨?_, fun _ => ?_⟩⟩
  · exact hframe.close hspan.start (Nat.le_of_eq hstart.symm) nofun
  · refine hframe.close hspan.stop (hstart ▸ hspan.le) fun s hs => ?_
    rw [← Option.some.inj hs]
    exact hspan

/-- A span that is extended over tokens that fit the source `Fits` it too. -/
theorem foldl_cover_fits {source : String} {s : Span} (hs : s.Fits source)
    (hts : ∀ t ∈ ts, t.span.Fits source) :
    (ts.foldl (fun s t => s.cover t.span) s).Fits source := by
  induction ts generalizing s with
  | nil => exact hs
  | cons t ts ih =>
    exact ih (hs.cover (hts t (List.mem_cons_self ..))) fun u hu =>
      hts u (List.mem_cons_of_mem _ hu)

/-- What `readText` gives is one node from its first to its last token, and nothing is reported of
it. -/
theorem readText_made (h : TokensInRow r.source (first :: ts)) :
    (readText r first ts).Made r first ts := by
  refine ⟨List.forall_mem_nil _, trivial, fun ds es hbad hds => ⟨⟨?_, nofun, nofun⟩, rfl⟩⟩
  refine .single (foldl_cover_fits (h.fits first (List.mem_cons_self ..)) fun t ht => ?_)
  exact h.fits t (List.mem_cons_of_mem _ ((List.takeWhile_prefix _).subset ht))

/-- What `unexpectedNext` says is reported on the next token, or where the tokens end. -/
theorem Reading.unexpectedNext_local (h : TokensInRow r.source ts) (place : Place) :
    (r.unexpectedNext ts place).Local r.source := by
  cases ts with
  | nil => exact Problem.local rfl (.point (.size r.source))
  | cons t ts => exact r.unexpected_local t place (h.fits t (List.mem_cons_self ..))

/-- What is reported of a start tag stands on its tokens. That it has no end is said of its first
token, which must not be the opening tag of a section that ends in `>` (`Token.Endless`). -/
theorem readStartTag_local (h : TokensInRow r.source (first :: ts)) (hfirst : first.Endless r.source)
    (hts : ∀ t ∈ ts, t ∈ significantTokens r.source) :
    ∀ d ∈ (readStartTag r first ts).diagnostics, d.Local r.source := by
  -- the rest of the tag reports on its tokens
  have hbody : ∀ k (us : List Token), us <:+ ts →
      ∀ d ∈ (TagBody.readFrom r ⟨#[], none, k, #[]⟩ us).diagnostics.toList, d.Local r.source := by
    intro k us hsub
    obtain ⟨n, as, es, -, -, -, hdiagnostics, htokens⟩ :=
      TagBody.readFrom_tokens r ⟨#[], none, k, #[]⟩ us rfl
    rw [hdiagnostics]
    exact (htokens.made [] fun u hu => hts u (hsub.subset (List.mem_of_mem_take hu))).1
  unfold readStartTag
  refine List.forall_mem_append.mpr ⟨List.forall_mem_append.mpr
    ⟨?_, hbody _ _ (List.drop_suffix _ ts)⟩, ?_⟩
  · exact forall_mem_ite (List.forall_mem_singleton.mpr (r.unexpectedNext_local h.tail _))
      (List.forall_mem_nil _)
  · exact forall_mem_ite
      (List.forall_mem_singleton.mpr (Problem.local_tag rfl (h.spanOf _) hfirst rfl))
      (List.forall_mem_nil _)

/-- A start tag brings along an element or the frame of one, made of the attributes that
`TagBody.readFrom` found. -/
theorem readStartTag_made (h : TokensInRow r.source (first :: ts)) (hfirst : first.Endless r.source)
    (hts : ∀ t ∈ ts, t ∈ significantTokens r.source) :
    (readStartTag r first ts).Made r first ts := by
  have hlocal := readStartTag_local h hfirst hts
  rcases readStartTag_cases r first ts with
    ⟨hpiece, -⟩ | ⟨name, us, as, last, es, htake, -, -, htokens, hpiece, hdiagnostics⟩
  -- without a name the tag is an error; with one, its attributes have what was reported of them
  · refine ⟨hlocal, ?_, fun ds es hbad hds => ?_⟩
    · rw [hpiece]
      trivial
    · rw [hpiece]
      exact ⟨Node.made_error (h.spanOf _), rfl⟩
  · refine ⟨hlocal, ?_, fun ds ds' hbad hds => ?_⟩
    · rw [hpiece]
      dsimp only
      split <;> trivial
    · have hus : ∀ u ∈ us, u ∈ significantTokens r.source := fun u hu =>
        hts u (List.mem_of_mem_take (htake ▸ List.mem_cons_of_mem _ hu))
      have hattributes : AttributesMade r ds as := by
        refine (htokens.made ds hus).2 fun d hd => hds d (List.mem_append_left _ ?_)
        rw [hdiagnostics]
        exact List.mem_append_left _ hd
      have hspan := h.spanOf (readStartTag r first ts).taken
      rw [hpiece]
      dsimp only
      split
      · exact ⟨Node.made_element hspan hspan nofun hattributes, rfl⟩
      · exact ⟨⟨hspan, hspan, hattributes, first, hfirst, rfl⟩, Nat.le_refl _⟩

/-- What `strayInEndTag` finds is reported token by token. -/
theorem strayInEndTag_local (h : ∀ t ∈ ts, t.span.Fits r.source) :
    ∀ d ∈ (strayInEndTag r ts).2, d.Local r.source := by
  induction ts with
  | nil => exact List.forall_mem_nil _
  | cons t ts ih =>
    have hmore := ih fun u hu => h u (List.mem_cons_of_mem _ hu)
    rw [strayInEndTag]
    split
    · exact hmore
    · exact List.forall_mem_cons.mpr
        ⟨r.unexpected_local t .endTag (h t (List.mem_cons_self ..)), hmore⟩
    · exact List.forall_mem_nil _

/-- What `readEndTag` gives brings along no more than its name and its span. -/
theorem readEndTag_made (h : TokensInRow r.source (first :: ts)) (hfirst : first.Endless r.source) :
    (readEndTag r first ts).Made r first ts := by
  have hstray : ∀ k, ∀ d ∈ (strayInEndTag r (ts.drop k)).2, d.Local r.source := fun k =>
    strayInEndTag_local fun t ht => h.fits t (List.mem_cons_of_mem _ (List.mem_of_mem_drop ht))
  have hunended : ∀ (c : Bool) n, ∀ d ∈ (if c then []
      else [Problem.endTagWithoutEnd.on (spanOf first ts n)]), d.Local r.source := fun c n =>
    forall_mem_ite (List.forall_mem_nil _)
      (List.forall_mem_singleton.mpr (Problem.local_tag rfl (h.spanOf n) hfirst rfl))
  unfold readEndTag
  dsimp only
  split
  · refine ⟨List.forall_mem_append.mpr ⟨List.forall_mem_append.mpr ⟨hstray _, hunended _ _⟩, ?_⟩,
      trivial, fun ds es hbad hds => ⟨Node.made_error (h.spanOf _), rfl⟩⟩
    exact List.forall_mem_singleton.mpr (Problem.local rfl (h.spanOf _))
  · exact ⟨List.forall_mem_append.mpr ⟨hstray _, hunended _ _⟩, h.spanOf _,
      fun ds es hbad hds => Piece.brings_closing (h.spanOf _) rfl⟩

end Pieces

/-! ### Braces as pieces

A run between braces holds no piece of markup: by the trace of its modes, each of its tokens is part
of an expression or a bad character. -/

/-- Between braces stand parts of an expression and bad characters, by induction on the tokens: a
step in the mode of braces gives one of these and stays in it, until something ends the run. -/
theorem Trace.kinds_run {m : Mode} {us : List Token} (h : Trace m us) (hm : m.InBraces)
    (hhead : ∀ u, us.head? = some u → u.kind.isDirective = false) :
    ∀ t ∈ us.takeWhile (!·.kind.endsRun), t.kind.isExpression = true ∨ t.kind = .badCharacter := by
  induction us generalizing m with
  | nil => exact List.forall_mem_nil _
  | cons u us ih =>
    rw [List.takeWhile_cons]
    split
    · rename_i hruns
      obtain ⟨n, hstep, hrest⟩ := h.of_cons
      have hblank := h.kind_ne_whitespace
      have hword := hhead u rfl
      -- the table of both modes in braces, less blanks, keywords and the tokens that end a run
      have hhere : n = .interpolation ∧ (u.kind.isExpression = true ∨ u.kind = .badCharacter) := by
        generalize u.kind = k at hstep hruns hblank hword
        rcases hm with rfl | rfl
        · cases hstep with
          | plainExpression hk => exact ⟨rfl, .inl hk⟩
          | badDirective => exact ⟨rfl, .inr rfl⟩
          | keyword hk => exact absurd hk (by rw [hword]; decide)
          | blankDirective => exact absurd rfl hblank
          | _ => cases hruns
        · cases hstep with
          | expression hk => exact ⟨rfl, .inl hk⟩
          | badExpression => exact ⟨rfl, .inr rfl⟩
          | blankExpression => exact absurd rfl hblank
          | _ => cases hruns
      obtain ⟨rfl, hkind⟩ := hhere
      exact List.forall_mem_cons.mpr
        ⟨hkind, ih hrest (.inr rfl) (hrest.not_directive (by decide))⟩
    · exact List.forall_mem_nil _

/-- The braces start with the given token, and what stands between them can be told: `kinds` is what
`Trace.kinds_run` gives for the run. -/
structure Braces.Good (r : Reading) (first : Token) (ts : List Token) (b : Braces) : Prop where
  run : b.run.Sublist ts
  kinds : ∀ t ∈ b.run, t.kind.isExpression = true ∨ t.kind = .badCharacter
  fits : b.span.Fits r.source
  start : b.span.start = first.span.start

namespace Braces.Good

variable {r : Reading} {first : Token} {ts : List Token} {b : Braces} {ds : List Diagnostic}

/-- Braces that `Braces.read` takes from tokens in a row, from the mode behind their keyword, are
`Good`. -/
theorem read {m : Mode} {skip : Nat} (h : TokensInRow r.source (first :: ts))
    (htrace : Trace m (ts.drop skip)) (hm : m.InBraces)
    (hhead : ∀ u, (ts.drop skip).head? = some u → u.kind.isDirective = false) :
    (Braces.read first ts skip).Good r first ts :=
  ⟨(List.takeWhile_sublist _).trans (List.drop_sublist skip ts), htrace.kinds_run hm hhead,
    h.spanOf _, rfl⟩

variable (hb : b.Good r first ts) (h : TokensInRow r.source (first :: ts))
include hb h

/-- The tokens of the run stand in a row, as a part of the row that they come from. -/
theorem row : TokensInRow r.source b.run := h.tail.sublist hb.run

/-- Any part of the run is `Legible` if the bad characters of the file are on the list. -/
theorem legible (hbad : BadNoted ds ts) {us : List Token} (hus : us.Sublist b.run) :
    Legible r ds false us :=
  ⟨(hb.row h).sublist hus, .inl fun t ht => hb.kinds t (hus.subset ht),
    fun t ht => hbad t (hb.run.subset (hus.subset ht))⟩

end Braces.Good

section Braces

variable {r : Reading} {first : Token} {ts : List Token} {ds : List Diagnostic} {skip : Nat}

/-- What `unclosed` reports stands on the braces. -/
theorem Braces.unclosed_local {b : Braces} (hb : b.span.Fits r.source) :
    ∀ d ∈ b.unclosed, d.Local r.source :=
  forall_mem_ite (List.forall_mem_nil _) (List.forall_mem_singleton.mpr (Problem.local rfl hb))

/-- What `readInterpolation` gives is one node with the expression of its run, raw or not. -/
theorem readInterpolation_made {raw : Bool} (hb : (Braces.read first ts skip).Good r first ts)
    (h : TokensInRow r.source (first :: ts)) :
    (readInterpolation r first ts skip raw).Made r first ts := by
  have hmissing : ∀ c : Bool, ∀ d ∈ (if c then
      [Problem.emptyBraces.on (Braces.read first ts skip).span] else []), d.Local r.source :=
    fun c => forall_mem_ite (List.forall_mem_singleton.mpr (Problem.local rfl hb.fits))
      (List.forall_mem_nil _)
  refine ⟨List.forall_mem_append.mpr ⟨List.forall_mem_append.mpr ⟨Braces.unclosed_local hb.fits,
    Expression.ofRun?_local (hb.row h) true⟩, hmissing _⟩, trivial, fun ds es hbad hds => ?_⟩
  refine ⟨⟨.cons hb.fits (.flatMap fun e he => ?_), fun e he => ?_, nofun⟩, rfl⟩
  · exact Expression.ofRun?_fits (hb.row h) (Option.mem_toList.mp he)
  · refine Expression.ofRun?_wanted (hb.legible h hbad (List.Sublist.refl _)) (fun d hd => ?_) e
      (Option.mem_toList.mp he)
    exact hds d (List.mem_append_left _ (List.mem_append_left _ (List.mem_append_right _ hd)))

/-- The names that `LoopBinding.ofRun?` reads stand in a row, so the span over them fits. -/
theorem LoopBinding.ofRun?_fits {run : List Token} (h : TokensInRow r.source run)
    {binding : LoopBinding} (hb : LoopBinding.ofRun? r run = some binding) :
    binding.span.Fits r.source := by
  unfold LoopBinding.ofRun? at hb
  split at hb
  · rename_i word item
    split at hb
    · rw [← Option.some.inj hb]
      exact (h.fits word (by simp)).upTo (h.fits item (by simp)) (h.start_le (by simp)).2
    · cases hb
  · rename_i word item comma index
    split at hb
    · rw [← Option.some.inj hb]
      exact (h.fits word (by simp)).upTo (h.fits index (by simp)) (h.start_le (by simp)).2
    · cases hb
  · cases hb

/-- The head of a loop, with the list before `as` and the binding behind it. Without a binding
(`readLoopHead.unbound`) that is said of the whole run, and the expression is explained by what is
said. -/
theorem readLoopHead_made (ds : List Diagnostic) {b : Braces} (hb : b.Good r first ts)
    (h : TokensInRow r.source (first :: ts)) :
    (∀ d ∈ (readLoopHead r b.run).2.1, d.Local r.source) ∧
      (∀ e ∈ (readLoopHead r b.run).1.1, Span.AllFit r.source e.spans) ∧
      (∀ binding ∈ (readLoopHead r b.run).1.2, binding.span.Fits r.source) ∧
      (BadNoted ds ts → (∀ d ∈ (readLoopHead r b.run).2.1, d ∈ ds) →
        ∀ e ∈ (readLoopHead r b.run).1.1, e.Explained r ds false) := by
  have hrow := hb.row h
  have hlist : TokensInRow r.source (b.run.takeWhile (·.kind != .asWord)) :=
    hrow.sublist (List.takeWhile_sublist _)
  -- the head without a binding, which the two other outcomes come down to
  have hunbound : (∀ d ∈ (readLoopHead.unbound r b.run).2.1, d.Local r.source) ∧
      (∀ e ∈ (readLoopHead.unbound r b.run).1.1, Span.AllFit r.source e.spans) ∧
      (∀ binding ∈ (readLoopHead.unbound r b.run).1.2, binding.span.Fits r.source) ∧
      (BadNoted ds ts → (∀ d ∈ (readLoopHead.unbound r b.run).2.1, d ∈ ds) →
        ∀ e ∈ (readLoopHead.unbound r b.run).1.1, e.Explained r ds false) := by
    refine ⟨List.forall_mem_append.mpr ⟨Problem.onRun?_local rfl hrow,
      Expression.ofRun?_local hrow false⟩, fun e he => Expression.ofRun?_fits hrow he, nofun,
      fun hbad hds e he => ?_⟩
    refine Expression.ofRun?_explained (hb.legible h hbad (List.Sublist.refl _))
      (fun d hd => hds d (List.mem_append_right _ hd)) (fun _ s hs => ?_) he
    have hreport : Problem.loopWithoutBinding.on s ∈ Problem.loopWithoutBinding.onRun? b.run := by
      rw [Problem.onRun?, hs]
      exact List.mem_singleton_self _
    exact ⟨_, hds _ (List.mem_append_left _ hreport),
      .of_within (hrow.ofRun? hs).1.le (Nat.le_refl _) (Nat.le_refl _)⟩
  unfold readLoopHead
  dsimp only
  split
  · rename_i binding hbinding
    split
    · exact hunbound
    · refine ⟨Expression.ofRun?_local hlist true, fun e he => Expression.ofRun?_fits hlist he,
        fun x hx => ?_, fun hbad hds e he => ?_⟩
      · rw [← Option.some.inj hx]
        exact LoopBinding.ofRun?_fits (hrow.sublist (List.drop_sublist _ _)) hbinding
      · exact Expression.ofRun?_wanted (hb.legible h hbad (List.takeWhile_sublist _)) hds e he
  · exact hunbound

/-- What opens a block brings along a frame with one open branch, whose head is `readLoopHead` or
the expression of the run. -/
theorem readOpener_made {keyword : TokenKind} {kind : DirectiveKind}
    (hb : (Braces.read first ts 1).Good r first ts) (h : TokensInRow r.source (first :: ts)) :
    (readOpener r first ts keyword kind).Made r first ts := by
  have hmissing : ∀ c : Bool, ∀ d ∈ (if c then [(Problem.directiveWithoutExpression kind).on
      (Braces.read first ts 1).span] else []), d.Local r.source := fun c =>
    forall_mem_ite (List.forall_mem_singleton.mpr (Problem.local rfl hb.fits))
      (List.forall_mem_nil _)
  have hunclosed := Braces.unclosed_local hb.fits
  -- in both cases the reports of the reader are among `ds`, some places further in
  cases kind with
  | choice =>
    refine ⟨List.forall_mem_append.mpr ⟨List.forall_mem_append.mpr
      ⟨Expression.ofRun?_local (hb.row h) true, hunclosed⟩, hmissing _⟩, trivial,
      fun ds es hbad hds => ⟨⟨⟨.cons hb.fits (.append (.flatMap fun e he => ?_) .nil),
        fun e he => ?_⟩, fun x hx => (nomatch hx)⟩, Nat.le_refl _⟩⟩
    · exact Expression.ofRun?_fits (hb.row h) (Option.mem_toList.mp he)
    · refine Expression.ofRun?_wanted (hb.legible h hbad (List.Sublist.refl _)) (fun d hd => ?_) e he
      exact hds d (List.mem_append_left _ (List.mem_append_left _ (List.mem_append_left _ hd)))
  | loop =>
    have hhead := fun ds => readLoopHead_made ds hb h
    refine ⟨List.forall_mem_append.mpr ⟨List.forall_mem_append.mpr
      ⟨(hhead []).1, hunclosed⟩, hmissing _⟩, trivial,
      fun ds es hbad hds => ⟨⟨⟨.cons hb.fits (.append (.flatMap fun e he => ?_) ?_),
        fun e he => ?_⟩, fun x hx => (nomatch hx)⟩, Nat.le_refl _⟩⟩
    · exact (hhead []).2.1 e (Option.mem_toList.mp he)
    · intro s hs
      obtain ⟨binding, hbinding, rfl⟩ := List.mem_map.mp hs
      exact (hhead []).2.2.1 binding (Option.mem_toList.mp hbinding)
    · refine (hhead ds).2.2.2 hbad (fun d hd => ?_) e he
      exact hds d (List.mem_append_left _ (List.mem_append_left _ (List.mem_append_left _ hd)))

/-- What `branchExpression` reports of the head of a branch stands in its braces: an expression that
is missing, or one too many. -/
theorem branchExpression_local {word : BranchWord} {run : List Token} {span : Span}
    (hrun : TokensInRow r.source run) (hspan : span.Fits r.source) :
    ∀ d ∈ (Builder.branchExpression r word run span).2, d.Local r.source := by
  cases word with
  | elseBranch => exact Problem.onRun?_local rfl hrun
  | elseIf =>
    refine List.forall_mem_append.mpr ⟨Expression.ofRun?_local hrun true, ?_⟩
    exact forall_mem_ite (List.forall_mem_singleton.mpr (Problem.local rfl hspan))
      (List.forall_mem_nil _)

/-- The head of a further branch is made when it is added, from the run that the piece keeps. -/
theorem branchHead_made {word : BranchWord} {b : Braces} (hb : b.Good r first ts)
    (h : TokensInRow r.source (first :: ts)) (hbad : BadNoted ds ts)
    (hds : ∀ d ∈ (Builder.branchExpression r word b.run b.span).2, d ∈ ds) :
    (BranchHead.mk (Builder.keywordOf word) (Builder.branchExpression r word b.run b.span).1 none
      b.span).Made r ds := by
  cases word with
  | elseBranch => exact ⟨.single hb.fits, nofun⟩
  | elseIf =>
    refine ⟨.cons hb.fits (.append (.flatMap fun e he => ?_) .nil), fun e he => ?_⟩
    · exact Expression.ofRun?_fits (hb.row h) (Option.mem_toList.mp he)
    · exact Expression.ofRun?_wanted (hb.legible h hbad (List.Sublist.refl _))
        (fun d hd => hds d (List.mem_append_left _ hd)) e he

/-- What `readBranch` gives brings along its run, for the frame that it finds. -/
theorem readBranch_made {word : BranchWord} (hb : (Braces.read first ts 1).Good r first ts)
    (h : TokensInRow r.source (first :: ts)) : (readBranch first ts word).Made r first ts := by
  refine ⟨Braces.unclosed_local hb.fits, ⟨hb.fits, branchExpression_local (hb.row h) hb.fits⟩,
    fun ds es hbad hds => ⟨Node.made_error hb.fits, ?_⟩⟩
  rintro rfl block - - ⟨⟨hhead, hdone⟩, hstart⟩
  refine ⟨⟨branchHead_made hb h hbad fun d hd => hds d (List.mem_append_right _ hd),
    fun x hx => ?_⟩, ?_⟩
  · rcases List.mem_append.mp (Array.toList_push ▸ hx) with hx | hx
    · exact hdone x hx
    · rw [List.mem_singleton.mp hx]
      exact hhead
  · show (block.startBranch _).firstHead.start ≤ _
    rw [OpenBlock.firstHead_startBranch]
    exact hstart

/-- What `readCloser` gives brings along its kind and its span. -/
theorem readCloser_made {kind : DirectiveKind} (hb : (Braces.read first ts 1).Good r first ts)
    (h : TokensInRow r.source (first :: ts)) : (readCloser first ts kind).Made r first ts :=
  ⟨List.forall_mem_append.mpr ⟨Braces.unclosed_local hb.fits,
    Problem.onRun?_local rfl (hb.row h)⟩, hb.fits,
    fun _ _ _ _ => Piece.brings_closing hb.fits hb.start⟩

/-- Braces are one of the four, by the token behind `{{`. -/
theorem readBraces_made {m : Mode} (h : TokensInRow r.source (first :: ts)) (htrace : Trace m ts)
    (hm : m.InBraces) : (readBraces r first ts).Made r first ts := by
  by_cases hhead : ∀ t, ts.head? = some t → t.kind.isDirective = false
  · rw [readBraces_plain_head hhead]
    exact readInterpolation_made (.read h htrace hm hhead) h
  · cases ts with
    | nil => exact absurd (fun t ht => nomatch ht) hhead
    | cons word us =>
      have hword : word.kind.isDirective = true := by
        by_contra hnot
        refine hhead fun t ht => ?_
        rw [← Option.some.inj ht]
        exact Bool.eq_false_iff.mpr hnot
      obtain ⟨n, hstep, hrest⟩ := htrace.of_cons
      obtain rfl := hstep.interpolation_of_directive hword
      -- behind the keyword there is no other one
      have hrest : Trace .interpolation ((word :: us).drop 1) := hrest
      have hgood : (Braces.read first (word :: us) 1).Good r first (word :: us) :=
        .read h hrest (.inr rfl) (hrest.not_directive (by decide))
      unfold readBraces
      rw [List.head?_cons, Option.map_some]
      generalize word.kind = kind at hword
      cases kind with
      | ifBlock | eachBlock => exact readOpener_made hgood h
      | elseIf | elseBranch => exact readBranch_made hgood h
      | endIf | endEach => exact readCloser_made hgood h
      | html => exact readInterpolation_made hgood h
      | _ => cases hword

end Braces

/-- **What a piece is made of.** Its spans can be cut out of the source, and its expressions have
trees or something is reported where they are. The cases are those of `Piece.read`. -/
theorem Piece.read_made {r : Reading} {first : Token} {ts : List Token}
    (htrace : Trace .template (first :: ts)) (hfirst : first.kind ≠ .templateClose)
    (hts : ∀ t ∈ first :: ts, t ∈ significantTokens r.source)
    (h : TokensInRow r.source (first :: ts)) : (Piece.read r first ts).Made r first ts := by
  have hspan := h.fits first (List.mem_cons_self ..)
  -- tags of elements open no section
  have hendless : first.kind = .tagOpen ∨ first.kind = .tagEndOpen → first.Endless r.source := by
    intro hkind
    refine ⟨hts first (List.mem_cons_self ..), fun hopens => ?_⟩
    rcases hkind with hkind | hkind <;> rw [hkind] at hopens <;> cases hopens
  rcases htrace.piece_cases hfirst with
    ⟨hkind, -⟩ | ⟨hkind, -⟩ | ⟨hkind, -⟩ | ⟨hkind, -⟩ | ⟨hkind, m, hm, hrest⟩
  · rw [Piece.read, hkind]
    exact ⟨List.forall_mem_nil _, trivial, fun _ _ _ _ =>
      ⟨⟨.single hspan, List.forall_mem_nil _, List.forall_mem_nil _⟩, rfl⟩⟩
  · rw [Piece.read, hkind]
    exact readText_made h
  · rw [Piece.read, hkind]
    exact readStartTag_made h (hendless (.inl hkind)) fun t ht => hts t (List.mem_cons_of_mem _ ht)
  · rw [Piece.read, hkind]
    exact readEndTag_made h (hendless (.inr hkind))
  · rw [Piece.read, hkind]
    exact readBraces_made h hrest hm

end RsxInspect
