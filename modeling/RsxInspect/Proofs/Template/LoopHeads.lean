import RsxInspect.Proofs.Stream.LoopHead
import RsxInspect.Proofs.Template.ErasedPieces
import RsxInspect.Proofs.Template.Directives

/-!
# The heads of loops in a file

Behind the word of a loop stands a run of tokens, up to the end of the braces or of the template
(`runOf`). If it ends with the names of a binding, and a list that has no word `as` stands in front
of them (`LoopBinding.Behind`), then the head has both. Otherwise it has no binding, and the one
report on the run says so. The bricks:

* `readLoopHead_of_behind` and `readLoopHead_of_not_behind`: what is read of a run is decided by
  that.
* `Document.LoopAt`: where a loop stands in a file. `LoopAt.kinds` says what its run can be made of,
  and `LoopAt.exists_reports` that its block is a node and that no other report speaks of its run.
* `LoopAt.reported_once` and `LoopAt.unbound_once`: what is wrong with a token of the run, and with
  the run as a whole, is reported once.
* `LoopAt.ofRun` and `LoopAt.askedAt`: so the file and a stream over it tell the same of the head.

`loopHeads_parse?` is all of this for each loop of a file: the stream that is asked for the head
goes as far as the run, tries the names, and goes back if they are none.
-/

namespace RsxInspect

/-! ### Lists and names

What a run has to look like to be a list and names: in its tokens there is the word `as`, behind it
a name, maybe a comma and another name, and nothing else. -/

/-- The run at the front of some tokens, up to closing braces or the end of the template
(`TokenKind.endsRun`). -/
def runOf (ts : List Token) : List Token := ts.takeWhile (!·.kind.endsRun)

/-- In front of a token that `endsRun`, something ends the `runOf` the tokens. -/
theorem exists_append_runOf {t : Token} (ht : t.kind.endsRun = true) (ts : List Token) :
    ∃ u us, u.kind.endsRun = true ∧ ts ++ [t] = runOf ts ++ u :: us := by
  induction ts with
  | nil => exact ⟨t, [], ht, rfl⟩
  | cons v ts ih =>
    rw [runOf, List.takeWhile_cons]
    cases hv : v.kind.endsRun with
    | true => exact ⟨v, ts ++ [t], hv, rfl⟩
    | false =>
      obtain ⟨u, us, hu, hts⟩ := ih
      exact ⟨u, us, hu, congrArg (v :: ·) hts⟩

/-- In the run itself nothing does. -/
theorem not_endsRun_of_mem {ts : List Token} : ∀ t ∈ runOf ts, t.kind.endsRun = false := by
  intro t ht
  have hpass := List.mem_takeWhile_imp ht
  exact Bool.not_eq_eq_eq_not.mp hpass

/-- The run is a list that has no `as` in it, and the names of a binding: an item, or an item and an
index behind a comma. -/
inductive LoopBinding.Behind (source : String) (run list : List Token) : LoopBinding → Prop where
  | item {word item : Token} (hrun : run = list ++ [word, item]) (hlist : list ≠ [])
      (hnone : ∀ t ∈ list, t.kind ≠ .asWord) (hword : word.kind = .asWord)
      (hitem : item.kind = .identifier) :
      Behind source run list ⟨item.text source, none, ⟨word.span.start, item.span.stop⟩⟩
  | indexed {word item comma index : Token} (hrun : run = list ++ [word, item, comma, index])
      (hlist : list ≠ []) (hnone : ∀ t ∈ list, t.kind ≠ .asWord) (hword : word.kind = .asWord)
      (hitem : item.kind = .identifier) (hcomma : comma.kind = .comma)
      (hindex : index.kind = .identifier) :
      Behind source run list
        ⟨item.text source, some (index.text source), ⟨word.span.start, index.span.stop⟩⟩

section Runs

variable {r : Reading} {run list : List Token} {binding : LoopBinding}

/-- Names that are read as a binding behind a list that has no `as` in it are found there. -/
theorem LoopBinding.behindList?_append (hlist : list ≠ []) (hnone : ∀ t ∈ list, t.kind ≠ .asWord)
    {word : Token} (hword : word.kind = .asWord) {names : List Token}
    (hnames : LoopBinding.ofRun? r (word :: names) = some binding) :
    (list ++ word :: names).takeWhile (·.kind != .asWord) = list ∧
      LoopBinding.behindList? r (list ++ word :: names) = some binding := by
  have hpass : ∀ t ∈ list, (t.kind != .asWord) = true := fun t ht => bne_iff_ne.mpr (hnone t ht)
  have htake : (list ++ word :: names).takeWhile (·.kind != .asWord) = list := by
    rw [List.takeWhile_append_of_pos hpass, List.takeWhile_cons]
    simp [hword]
  have hdrop : (list ++ word :: names).dropWhile (·.kind != .asWord) = word :: names := by
    rw [List.dropWhile_append_of_pos hpass, List.dropWhile_cons]
    simp [hword]
  refine ⟨htake, ?_⟩
  rw [LoopBinding.behindList?, htake, hdrop, hnames, if_neg (by simpa using hlist)]

/-- The list goes up to the first `as`, and the names are read behind it
(`LoopBinding.behindList?`). -/
theorem LoopBinding.Behind.behindList? (h : LoopBinding.Behind r.source run list binding) :
    run.takeWhile (·.kind != .asWord) = list ∧ LoopBinding.behindList? r run = some binding := by
  cases h with
  | item hrun hlist hnone hword hitem =>
    rw [hrun]
    apply LoopBinding.behindList?_append hlist hnone hword
    simp [LoopBinding.ofRun?, hword, hitem, Reading.textOf]
  | indexed hrun hlist hnone hword hitem hcomma hindex =>
    rw [hrun]
    apply LoopBinding.behindList?_append hlist hnone hword
    simp [LoopBinding.ofRun?, hword, hitem, hcomma, hindex, Reading.textOf]

/-- Where `behindList?` reads a binding, it stands `Behind` a list, and nothing stands behind the
names. -/
theorem LoopBinding.behind_of_behindList? (h : LoopBinding.behindList? r run = some binding) :
    LoopBinding.Behind r.source run (run.takeWhile (·.kind != .asWord)) binding := by
  have hnone : ∀ t ∈ run.takeWhile (·.kind != .asWord), t.kind ≠ .asWord := by
    intro t ht
    have hpass := List.mem_takeWhile_imp ht
    exact bne_iff_ne.mp hpass
  have hrun : run = run.takeWhile (·.kind != .asWord) ++ run.dropWhile (·.kind != .asWord) :=
    List.takeWhile_append_dropWhile.symm
  rw [LoopBinding.behindList?] at h
  split at h
  · cases h
  rename_i hempty
  have hlist : run.takeWhile (·.kind != .asWord) ≠ [] := by simpa using hempty
  -- the two shapes that `ofRun?` accepts are the two constructors
  unfold LoopBinding.ofRun? at h
  split at h
  · rename_i word item hnames
    rw [hnames] at hrun
    split at h
    · rename_i hkinds
      rw [Bool.and_eq_true, beq_iff_eq, beq_iff_eq] at hkinds
      rw [← Option.some.inj h]
      exact .item hrun hlist hnone hkinds.1 hkinds.2
    · cases h
  · rename_i word item comma index hnames
    rw [hnames] at hrun
    split at h
    · rename_i hkinds
      simp only [Bool.and_eq_true, beq_iff_eq] at hkinds
      obtain ⟨⟨⟨hword, hitem⟩, hcomma⟩, hindex⟩ := hkinds
      rw [← Option.some.inj h]
      exact .indexed hrun hlist hnone hword hitem hcomma hindex
    · cases h
  · cases h

/-- `readLoopHead` reads a list and names as they stand: the list as an expression, and nothing is
reported of the names. -/
theorem readLoopHead_of_behind (h : LoopBinding.Behind r.source run list binding) :
    readLoopHead r run = (((Expression.ofRun? r list true).1, some binding),
      (Expression.ofRun? r list true).2, []) := by
  obtain ⟨hlist, hbinding⟩ := h.behindList?
  rw [readLoopHead_of_some hbinding, hlist]

/-- Anything else is read as a whole: the loop is `unbound`. -/
theorem readLoopHead_of_not_behind
    (h : ∀ list binding, ¬ LoopBinding.Behind r.source run list binding) :
    readLoopHead r run = readLoopHead.unbound r run := by
  apply readLoopHead_of_none
  cases hbinding : LoopBinding.behindList? r run with
  | none => rfl
  | some binding => exact absurd (LoopBinding.behind_of_behindList? hbinding) (h _ _)

end Runs

/-! ### Reports on the run

What is reported of a file comes from its tokens or from the loop over sections. The lexical
problems of the run are in the first part, and what the head says of it is in the second; so each
has to be kept out of the other one. -/

/-- Tokens by themselves may be wrong (`Token.anomaly?`), but not in the wrong place. -/
theorem Token.kind_anomaly?_ne {source : String} {t : Token} {d : Diagnostic}
    (h : t.anomaly? source = some d) : (d.kind == .unexpectedToken) = false := by
  obtain ⟨p, hp, rfl⟩ := Option.map_eq_some_iff.mp h
  unfold lexicalProblem? at hp
  dsimp only at hp
  repeat' split at hp
  all_goals
    cases hp
    try rfl

/-- Braces that are not closed are reported as such and not as tokens in the wrong place. -/
theorem Braces.kind_unclosed (b : Braces) : ∀ d ∈ b.unclosed, d.kind = .unterminatedInterpolation :=
  forall_mem_ite (List.forall_mem_nil _) (List.forall_mem_singleton.mpr rfl)

/-- The word of a loop stands behind opening braces, among the tokens of the file. -/
structure Document.LoopAt (source : String) (opening word : Token) (behind : List Token) : Prop where
  suffix : opening :: word :: behind <:+ significantTokens source
  opening : opening.kind = .interpolationOpen
  word : word.kind = .eachBlock

namespace Document.LoopAt

variable {r : Reading} {source : String} {opening word t : Token} {behind : List Token}
  {d : Diagnostic} {s : Span}

/-- The word of a loop is a keyword. -/
theorem isDirective (h : LoopAt source opening word behind) : word.kind.isDirective = true := by
  rw [h.word]
  rfl

/-- In front of the braces of a loop the scan is in markup, and behind its word in an expression. -/
theorem trace (h : LoopAt source opening word behind) :
    Trace .template (opening :: word :: behind) ∧ Trace .interpolation behind := by
  obtain ⟨m, hall⟩ := (trace_significantTokens source).of_suffix h.suffix
  obtain ⟨n, hbraces, hrest⟩ := hall.of_cons
  obtain ⟨n', hword, hbehind⟩ := hrest.of_cons
  rw [h.opening] at hbraces
  rw [hword.interpolation_of_directive h.isDirective] at hbehind
  refine ⟨?_, hbehind⟩
  cases hbraces with
  | directiveBraces | expressionBraces => exact hall
  | expression hkind | keyword hkind | plainExpression hkind => cases hkind

/-- There is nothing in the run but tokens of expressions and bad characters: a `Trace` between
braces reads nothing else (`Trace.kinds_run`). -/
theorem kinds (h : LoopAt source opening word behind) :
    ∀ t ∈ runOf behind, t.kind.isExpression = true ∨ t.kind = .badCharacter :=
  h.trace.2.kinds_run (.inr rfl) (h.trace.2.not_directive (by decide))

/-- The tokens of the run are tokens of the file. -/
theorem mem_run (h : LoopAt source opening word behind)
    (ht : t ∈ runOf behind) : t ∈ significantTokens source :=
  h.suffix.subset (List.mem_cons_of_mem _ (List.mem_cons_of_mem _
    ((List.takeWhile_sublist _).subset ht)))

/-- The piece there is the head of a loop. -/
theorem piece (h : LoopAt source opening word behind) (r : Reading) :
    Piece.read r opening (word :: behind)
      = readOpener r opening (word :: behind) .eachBlock .loop := by
  rw [Piece.read, h.opening]
  dsimp only
  rw [readBraces, List.head?_cons, Option.map_some, h.word]

/-- The span of the braces is around the run. -/
theorem around (h : LoopAt r.source opening word behind) :
    (Braces.read opening (word :: behind) 1).Around r := by
  have hle := (Piece.read_stops r h.trace.1 (by rw [h.opening]; exact nofun)).1
  rw [h.piece r] at hle
  exact Braces.around_read ((tokensInRow_significantTokens r.source).suffix h.suffix)
    (Nat.le_add_left 1 behind.length) hle

/-- **The loop is read where it stands.** The block with its head, as `readOpener` gives it, is a
node of the file. What the head reports is in the log, and all else there that speaks of tokens
meets none of the run. -/
theorem exists_reports (h : LoopAt r.source opening word behind) :
    let b := Braces.read opening (word :: behind) 1
    let read := readLoopHead r b.run
    (∃ n ∈ (ofTokens r (significantTokens r.source)).document.allNodes,
      n.Opens .loop ⟨.eachBlock, read.1.1, read.1.2, b.span⟩) ∧
    ∃ before after, (readFrom r #[] .empty (significantTokens r.source)).2.findings
        = Findings.recordAll r.source [] (before ++
          ((readOpener r opening (word :: behind) .eachBlock .loop).diagnostics ++ after)) ∧
      ∀ d ∈ before ++ after, d.isOfTokens = true →
        d.span.start ≤ d.span.stop ∧ ∀ t ∈ b.run, d.span.meets t.span = false := by
  intro b read
  obtain ⟨before, after, adds, findings, front, back, kept⟩ :=
    exists_directive r h.suffix h.opening h.isDirective
  rw [h.piece r] at adds findings back
  cases adds with
  | opener =>
    rw [List.append_nil] at findings
    refine ⟨kept _ _ (.inr ⟨_, List.mem_cons_self .., rfl, rfl⟩), before, after, findings, ?_⟩
    -- what stands in front of the braces or behind them is not between them
    have hapart : ∀ t ∈ b.run, ∀ {s : Span} {d : Diagnostic}, d.StandsIn r.source s →
        (s.stop ≤ b.span.start ∨ b.span.stop ≤ s.start) → d.span.meets t.span = false := by
      intro t ht s d hd hs
      refine Bool.eq_false_iff.mpr fun hmeets => ?_
      have hmem := h.mem_run ht
      have hclose : t.kind ≠ .templateClose := by
        rcases h.kinds t ht with hkind | hkind
        · intro heq
          rw [heq] at hkind
          cases hkind
        · rw [hkind]
          exact nofun
      obtain ⟨hstart, hstop⟩ := hd.meets t hmem hclose hmeets
      obtain ⟨hstart', hstop'⟩ : b.span.start ≤ t.span.start ∧ t.span.stop ≤ b.span.stop :=
        h.around.run t ht
      have hnonempty := ((spaced_significantTokens r.source).ordered.mem
        (List.mem_map_of_mem hmem)).2.1
      omega
    intro d hd hkind
    rcases List.mem_append.mp hd with hd | hd
    · have hstands := front d hd hkind
      exact ⟨hstands.le, fun t ht => hapart t ht hstands (.inl (Nat.le_refl _))⟩
    · have hstands := back d hd hkind
      exact ⟨hstands.le, fun t ht => hapart t ht hstands (.inr (Nat.le_refl _))⟩

/-- What is wrong with a token of the run is a bad character, or a string that is not closed:
nothing else is among the kinds of the run. -/
theorem kind_anomaly (h : LoopAt source opening word behind)
    (ht : t ∈ runOf behind) (hd : t.anomaly? source = some d) :
    d.kind = .badCharacter ∨ d.kind = .unterminatedString := by
  obtain ⟨p, hp, rfl⟩ := Option.map_eq_some_iff.mp hd
  rcases h.kinds t ht with hkind | hkind
  · revert hp hkind
    unfold lexicalProblem?
    generalize t.kind = k
    cases k <;> simp [TokenKind.isExpression]
    rintro - rfl
    exact .inr rfl
  · rw [hkind] at hp
    rw [← Option.some.inj hp]
    exact .inl rfl

/-- What the head reports is that tokens are not expected, or that the braces are not closed; so it
never says what tokens say of themselves. -/
theorem kind_reported {d : Diagnostic} (h : LoopAt r.source opening word behind)
    (hd : d ∈ (readOpener r opening (word :: behind) .eachBlock .loop).diagnostics) :
    d.kind = .unexpectedToken ∨ d.kind = .unterminatedInterpolation := by
  rcases List.mem_append.mp hd with hd | hd
  · rcases List.mem_append.mp hd with hd | hd
    · exact .inl (readLoopHead_encloses h.around.row h.around.run d hd).2
    · exact .inr (Braces.kind_unclosed _ d hd)
  · have hmissing : ∀ (c : Bool) s, ∀ d ∈ (if c then
        [(Problem.directiveWithoutExpression .loop).on s] else []), d.kind = .unexpectedToken :=
      fun c s => forall_mem_ite (List.forall_mem_singleton.mpr rfl) (List.forall_mem_nil _)
    exact .inl (hmissing _ _ d hd)

/-- **What is wrong with a token of the run is reported once**, maybe folded with what is wrong
beside it (`Findings.Covers`). -/
theorem reported_once (h : LoopAt r.source opening word behind)
    (ht : t ∈ runOf behind) (hd : t.anomaly? r.source = some d) :
    ∃ e, (ofTokens r (significantTokens r.source)).diagnostics.filter
        (fun x => x.kind == d.kind && x.span.meets t.span) = [e] ∧ Findings.Covers e d := by
  have hordered := (spaced_significantTokens r.source).ordered
  have hmem := h.mem_run ht
  have hnonempty := (hordered.mem (List.mem_map_of_mem hmem)).2.1
  obtain ⟨e, honly, hcovers⟩ := Findings.exists_only hordered hmem hd
  obtain ⟨-, before, after, hfindings, hothers⟩ := h.exists_reports
  -- the log of the loop over sections has nothing of that kind there
  have hnone : ∀ x ∈ (readFrom r #[] .empty (significantTokens r.source)).2.findings,
      x.kind = d.kind → x.span.meets t.span = false := by
    rw [hfindings]
    refine Findings.not_meets_recordAll hnonempty fun x hx hkind => ?_
    have hlexical := h.kind_anomaly ht hd
    have hother : ∀ y ∈ before ++ after, y.kind = d.kind →
        y.span.start ≤ y.span.stop ∧ y.span.meets t.span = false := by
      intro y hy hkind
      have htokens : y.isOfTokens = true := by
        rcases hlexical with hd | hd <;> simp [Diagnostic.isOfTokens, hkind, hd]
      exact ⟨(hothers y hy htokens).1, (hothers y hy htokens).2 t ht⟩
    rcases List.mem_append.mp hx with hx | hx
    · exact hother x (List.mem_append_left _ hx) hkind
    · rcases List.mem_append.mp hx with hx | hx
      · have hreported := h.kind_reported hx
        rw [hkind] at hreported
        rcases hlexical with hd | hd <;> rw [hd] at hreported <;> simp at hreported
      · exact hother x (List.mem_append_right _ hx) hkind
  have hlog : (readFrom r #[] .empty (significantTokens r.source)).2.findings.filter
      (fun x => x.kind == d.kind && x.span.meets t.span) = [] := by
    refine List.filter_eq_nil_iff.mpr fun x hx hboth => ?_
    rw [Bool.and_eq_true, beq_iff_eq] at hboth
    rw [hnone x hx hboth.1] at hboth
    cases hboth.2
  have hperm := (perm_diagnostics r (significantTokens r.source)).filter
    (fun x => x.kind == d.kind && x.span.meets t.span)
  rw [List.filter_append, honly, hlog, List.append_nil] at hperm
  exact ⟨e, List.perm_singleton.mp hperm, hcovers⟩

/-- The span of the run has the tokens of the run in it. -/
theorem any_meets (h : LoopAt r.source opening word behind)
    (hs : Span.ofRun? (runOf behind) = some s) : (runOf behind).any (s.meets ·.span) = true := by
  obtain ⟨first, hfirst⟩ : ∃ first, first ∈ runOf behind := by
    refine List.exists_mem_of_ne_nil _ fun hnil => ?_
    rw [hnil] at hs
    cases hs
  have hin := (h.around.row.ofRun? hs).2 first hfirst
  have hnonempty := ((spaced_significantTokens r.source).ordered.mem
    (List.mem_map_of_mem (h.mem_run hfirst))).2.1
  exact List.any_eq_true.mpr ⟨first, hfirst, Span.meets_iff.mpr ⟨by omega, by omega⟩⟩

/-- Without a binding the head reports on the run, and on braces that are not closed. -/
theorem diagnostics_unbound
    (hunbound : readLoopHead r (runOf behind) = readLoopHead.unbound r (runOf behind))
    (hs : Span.ofRun? (runOf behind) = some s) :
    (readOpener r opening (word :: behind) .eachBlock .loop).diagnostics
      = Problem.loopWithoutBinding.on s :: (Braces.read opening (word :: behind) 1).unclosed := by
  have hexpression : (Expression.ofRun? r (runOf behind) false).1.isNone = false := by
    rw [Expression.ofRun?, hs]
    rfl
  show (readLoopHead r (runOf behind)).2.1 ++ (Braces.read opening (word :: behind) 1).unclosed
    ++ (if (readLoopHead r (runOf behind)).1.1.isNone then _ else []) = _
  rw [hunbound]
  show (Problem.loopWithoutBinding.onRun? (runOf behind)
      ++ (Expression.ofRun? r (runOf behind) false).2)
    ++ (Braces.read opening (word :: behind) 1).unclosed
    ++ (if (Expression.ofRun? r (runOf behind) false).1.isNone then _ else []) = _
  rw [hexpression, Expression.problems_unwanted, Problem.onRun?, hs]
  simp

/-- **A run that `readLoopHead` leaves unbound is reported once**, as a whole, and nothing else that
is unexpected is reported of its tokens. -/
theorem unbound_once (h : LoopAt r.source opening word behind)
    (hunbound : readLoopHead r (runOf behind) = readLoopHead.unbound r (runOf behind))
    (hs : Span.ofRun? (runOf behind) = some s) :
    (ofTokens r (significantTokens r.source)).diagnostics.filter (fun d =>
        d.kind == .unexpectedToken && (runOf behind).any (d.span.meets ·.span))
      = [Problem.loopWithoutBinding.on s] := by
  -- what counts as speaking of the run: an unexpected token whose span meets one of its tokens
  let p : Diagnostic → Bool := fun d =>
    d.kind == .unexpectedToken && (runOf behind).any (d.span.meets ·.span)
  have hother : ∀ {ds : List Diagnostic}, (∀ d ∈ ds, (d.kind == .unexpectedToken) = false) →
      ds.filter p = [] := fun hds =>
    List.filter_eq_nil_iff.mpr fun d hd hpass => by simp [p, hds d hd] at hpass
  have hbad : ∀ d : Diagnostic, d.kind = .badCharacter → p d = false := fun d hd => by simp [p, hd]
  -- the reports of all other pieces speak of tokens in front of the braces or behind them
  obtain ⟨-, before, after, hfindings, hothers⟩ := h.exists_reports
  have hnone : ∀ d ∈ before ++ after, ¬ p d = true := by
    intro d hd hpass
    obtain ⟨hkind, hany⟩ := Bool.and_eq_true_iff.mp hpass
    obtain ⟨t, ht, hmeets⟩ := List.any_eq_true.mp hany
    have htokens : d.isOfTokens = true := by simp [Diagnostic.isOfTokens, beq_iff_eq.mp hkind]
    rw [(hothers d hd htokens).2 t ht] at hmeets
    cases hmeets
  obtain ⟨hbefore, hafter⟩ := List.forall_mem_append.mp hnone
  have hpass : p (Problem.loopWithoutBinding.on s) = true :=
    Bool.and_eq_true_iff.mpr ⟨rfl, h.any_meets hs⟩
  have hunclosed : (Braces.read opening (word :: behind) 1).unclosed.filter p = [] :=
    hother fun d hd => by rw [Braces.kind_unclosed _ d hd]; rfl
  have hlog : (readFrom r #[] .empty (significantTokens r.source)).2.findings.filter p
      = [Problem.loopWithoutBinding.on s] := by
    rw [hfindings, Findings.filter_recordAll hbad, diagnostics_unbound hunbound hs,
      List.filter_append, List.filter_append, List.filter_cons_of_pos hpass, hunclosed,
      List.filter_eq_nil_iff.mpr hbefore, List.filter_eq_nil_iff.mpr hafter]
    rfl
  -- the lexical problems are none of that kind
  have hlexical : (Findings.ofTokens r.source (significantTokens r.source)).filter p = [] := by
    rw [Findings.ofTokens, Findings.filter_recordAll hbad, hother fun d hd => ?_]
    · rfl
    · obtain ⟨t, -, ht⟩ := List.mem_filterMap.mp hd
      exact Token.kind_anomaly?_ne ht
  have hperm := (perm_diagnostics r (significantTokens r.source)).filter p
  rw [List.filter_append, hlexical, hlog, List.nil_append] at hperm
  exact List.perm_singleton.mp hperm

end Document.LoopAt

/-! ### The head in the file and on a stream

The head in the file is decided by its run (`BranchHead.OfRun`), and so is what a stream reads that
has come there (`BranchHead.AskedAt`); the theorem on files puts both together. -/

/-- What the file says of the head of a loop with the given run, where `ds` is all that is reported:
what is in the head with a binding (`bound`) and without one (`unbound`), and that lexical problems
are reported once (`anomalies`). -/
structure BranchHead.OfRun (source : String) (run : List Token) (ds : List Diagnostic)
    (head : BranchHead) : Prop where
  keyword : head.keyword = .eachBlock
  bound : ∀ list binding, LoopBinding.Behind source run list binding →
    head.binding = some binding ∧ head.expression.map Expression.tokens = some list
  unbound : (∀ list binding, ¬ LoopBinding.Behind source run list binding) →
    head.binding = none ∧ (run = [] → head.expression = none) ∧
      (run ≠ [] → ∃ s, Span.ofRun? run = some s ∧ (∀ t ∈ run, s.Encloses t.span) ∧
        head.expression = some ⟨run, none, s⟩ ∧
        ds.filter (fun d => d.kind == .unexpectedToken && run.any (d.span.meets ·.span))
          = [Problem.loopWithoutBinding.on s])
  /-- What is wrong with a token is covered by a diagnostic of its kind, the only one there. -/
  anomalies : ∀ t ∈ run, ∀ d, t.anomaly? source = some d → ∃ e,
    ds.filter (fun x => x.kind == d.kind && x.span.meets t.span) = [e] ∧ Findings.Covers e d

/-- Whatever was asked of the stream over a source before, if `place` tokens are passed then it can
be asked for the head of a loop (`TokenStream.ReadsLoopHead`). This is the outcome, the stream has
passed the run and no more, and it has looked once at each of the tokens that it has read so far. -/
def BranchHead.AskedAt (r : Reading) (place : Nat) (run : List Token) (head : BranchHead) : Prop :=
  ∀ requests : List StreamRequest,
    let s := (StreamSession.run TokenStream.serve requests ⟨.ofSource r.source, []⟩).2.reader
    s.index = place →
      (∃ read s', s.ReadsLoopHead r read s') ∧
      ∀ read s', s.ReadsLoopHead r read s' →
        read = readLoopHead r run ∧ read.1 = (head.expression, head.binding) ∧
        s'.index = place + run.length ∧ s'.peek.1.kind.endsRun = true ∧
        s'.findings = Findings.ofTokens r.source s'.buffer.toList ∧
        ∃ eof : Token, eof.kind = .eof ∧ s'.buffer.toList <+: significantTokens r.source ++ [eof]

section Heads

variable {r : Reading} {opening word : Token} {front behind : List Token}

/-- The head of the loop in the file is the one `OfRun` describes: its run decides it. -/
theorem Document.LoopAt.ofRun (h : LoopAt r.source opening word behind) :
    BranchHead.OfRun r.source (runOf behind)
      (ofTokens r (significantTokens r.source)).diagnostics
      ⟨.eachBlock, (readLoopHead r (runOf behind)).1.1, (readLoopHead r (runOf behind)).1.2,
        (Braces.read opening (word :: behind) 1).span⟩ where
  keyword := rfl
  bound list binding hbehind := by
    have hlist : list ≠ [] := by cases hbehind <;> assumption
    obtain ⟨htokens, hnone⟩ := Expression.ofRun?_tokens r list true
    rw [readLoopHead_of_behind hbehind]
    refine ⟨rfl, ?_⟩
    dsimp only
    cases hexpression : (Expression.ofRun? r list true).1 with
    | none => exact absurd (hnone.mp hexpression) hlist
    | some e =>
      rw [hexpression] at htokens
      exact congrArg some htokens
  -- without a binding the whole run is the list, and what is said of the loop is said of its span
  unbound hnot := by
    have hread := readLoopHead_of_not_behind hnot
    have hexpression : (readLoopHead r (runOf behind)).1.1
        = (Expression.ofRun? r (runOf behind) false).1 := by
      rw [hread]
      rfl
    refine ⟨by rw [hread]; rfl, fun hnil => ?_, fun hne => ?_⟩
    · exact hexpression.trans ((Expression.ofRun?_tokens r _ false).2.mpr hnil)
    · obtain ⟨s, hs⟩ : ∃ s, Span.ofRun? (runOf behind) = some s := by
        cases hs : Span.ofRun? (runOf behind) with
        | some s => exact ⟨s, rfl⟩
        | none =>
          have hnone : (Expression.ofRun? r (runOf behind) false).1 = none := by
            rw [Expression.ofRun?, hs]
          exact absurd ((Expression.ofRun?_tokens r _ false).2.mp hnone) hne
      refine ⟨s, hs, (h.around.row.ofRun? hs).2, ?_, h.unbound_once hread hs⟩
      rw [hexpression, Expression.ofRun?, hs]
      rfl
  anomalies t ht d hd := h.reported_once ht hd

/-- The tokens of a file, and `eof`, are what a stream over it gives away (`Scanner.listing?`). -/
theorem Scanner.listing?_ofSource {source : String}
    (h : (Scanner.ofSource source).toEnd?.isSome = true) :
    ∃ eof : Token, eof.kind = .eof ∧
      (Scanner.ofSource source).listing? = some (significantTokens source ++ [eof]) := by
  obtain ⟨⟨tokens, s⟩, htoEnd⟩ := Option.isSome_iff_exists.mp h
  obtain ⟨hreads, hend⟩ := Scanner.toEnd?_eq_some_iff.mp htoEnd
  have htokens : (Scanner.ofSource source).toEnd.1.toList = tokens.toList := by
    rw [Scanner.toEnd, hreads.toEndFrom hend]
    simp
  refine ⟨⟨.eof, Span.point s.offset⟩, rfl, ?_⟩
  rw [Scanner.listing?_eq_some_iff, significantTokens, htokens]
  exact ⟨tokens.toList, s, hreads, hend, rfl⟩

/-- A stream that has come to the run reads the head as it is read of the run as a whole, whatever
it was asked before. -/
theorem Document.LoopAt.askedAt (hend : (Scanner.ofSource r.source).toEnd?.isSome = true)
    (htokens : significantTokens r.source = front ++ opening :: word :: behind) {head : BranchHead}
    (hexpression : head.expression = (readLoopHead r (runOf behind)).1.1)
    (hbinding : head.binding = (readLoopHead r (runOf behind)).1.2) :
    head.AskedAt r (front.length + 2) (runOf behind) := by
  -- with the end behind it, the run is followed by a token that ends it
  obtain ⟨eof, heof, hlisting⟩ := Scanner.listing?_ofSource hend
  intro requests s hplace
  have hstands : s.StandsAt r.source (significantTokens r.source ++ [eof])
      ((significantTokens r.source ++ [eof]).drop s.index) := .of_session hlisting requests
  obtain ⟨t, tail, ht, hahead⟩ := exists_append_runOf (t := eof) (by rw [heof]; rfl) behind
  have hdrop : (significantTokens r.source ++ [eof]).drop s.index = runOf behind ++ t :: tail := by
    rw [hplace, htokens, ← hahead, List.append_assoc, List.drop_length_add_append]
    rfl
  rw [hdrop] at hstands
  obtain ⟨hexists, hall⟩ := hstands.readsLoopHead ht not_endsRun_of_mem
  refine ⟨hexists, fun read s' hreads => ?_⟩
  obtain ⟨rfl, hbehind⟩ := hall read s' hreads
  have hbefore := hstands.length
  have hafter := hbehind.length
  rw [List.length_append] at hbefore
  refine ⟨rfl, by rw [hexpression, hbinding], by omega, ?_, ?_, eof, heof, ?_⟩
  · rw [hbehind.peek.1]
    exact ht
  · rw [hbehind.buffers.buffer, hbehind.buffers.findings, hbehind.source]
  · rw [hbehind.buffers.buffer]
    exact List.take_prefix _ _

end Heads

/-- **Heads of loops, tried and read again.** Let the scan of a file reach the end. The file is read
exactly if the scans of its values do (`Document.valuesEnd`). Then each keyword of a loop behind opening
braces has a node whose head takes the braces for its span (`Node.Opens`). The run behind the keyword
(`runOf`) decides what else is in the head, and what is reported of it (`BranchHead.OfRun`): an
expression and the names behind `as` if they make up the run, else the whole run without a tree, with
one report that a binding is missing; and each lexical problem of a token in the run is reported once.
A stream in front of the run that tries the head, and goes back if that fails, reads this head and
stands right behind the run, whatever was asked of it before (`BranchHead.AskedAt`). -/
theorem loopHeads_parse? (source : String) (withTrees : Bool)
    (h : (Scanner.ofSource source).toEnd?.isSome = true) :
    (Document.parse? source withTrees).isSome
        = Document.valuesEnd source (significantTokens source) ∧
      ∀ parsed, Document.parse? source withTrees = some parsed → ∀ front opening word behind,
        significantTokens source = front ++ opening :: word :: behind →
        opening.kind = .interpolationOpen → word.kind = .eachBlock →
        ∃ head, (∃ n ∈ parsed.document.allNodes, n.Opens .loop head) ∧
          head.span = (Braces.read opening (word :: behind) 1).span ∧
          head.OfRun source (runOf behind) parsed.diagnostics ∧
          head.AskedAt ⟨source, withTrees⟩ (front.length + 2) (runOf behind) := by
  refine Document.forall_parse? withTrees h ?_
  intro front opening word behind htokens hopening hword
  have hloop : Document.LoopAt (Reading.mk source withTrees).source opening word behind :=
    ⟨⟨front, htokens.symm⟩, hopening, hword⟩
  obtain ⟨hnode, -⟩ := hloop.exists_reports
  refine ⟨_, hnode, rfl, ?_, ?_⟩
  · exact hloop.ofRun
  · exact Document.LoopAt.askedAt (r := ⟨source, withTrees⟩) h htokens rfl rfl

/-- A loop with an item and an index, and one in it where bad characters stand in place of the
index. -/
theorem loopHeads_parse?_tried :
    let source := String.ofList
      "<template>\x7b\x7b@each xs as x, i\x7d\x7d\x7b\x7b@each ys as y,##\x7d\x7d".toList
    let s := (StreamSession.run TokenStream.serve (List.replicate 11 .bump)
      ⟨.ofSource source, []⟩).2.reader
    (Scanner.ofSource source).toEnd?.isSome = true ∧
      ∃ parsed, Document.parse? source false = some parsed ∧
        (∃ head, (∃ n ∈ parsed.document.allNodes, n.Opens .loop head) ∧
          head.binding = some ⟨"x", some "i", ⟨21, 28⟩⟩ ∧
          head.expression.map Expression.tokens = some [⟨.identifier, ⟨18, 20⟩⟩]) ∧
        ∃ head, (∃ n ∈ parsed.document.allNodes, n.Opens .loop head) ∧ head.span = ⟨30, 50⟩ ∧
          head.binding = none ∧ head.expression.map Expression.span = some ⟨38, 48⟩ ∧
          (∃ e, parsed.diagnostics.filter (fun d => d.kind == .badCharacter && d.span.meets ⟨47, 48⟩)
            = [e]) ∧
          (∃ read s', s.ReadsLoopHead ⟨source, false⟩ read s') ∧
          ∀ read s', s.ReadsLoopHead ⟨source, false⟩ read s' → s'.index = 17 := by
  intro source s
  have hend : (Scanner.ofSource source).toEnd?.isSome = true := by decide +kernel
  obtain ⟨hread, hheads⟩ := loopHeads_parse? source false hend
  have hvalues : Document.valuesEnd source (significantTokens source) = true := by decide +kernel
  obtain ⟨parsed, hparsed⟩ := Option.isSome_iff_exists.mp (hread.trans hvalues)
  let outer : List Token := [⟨.identifier, ⟨18, 20⟩⟩, ⟨.asWord, ⟨21, 23⟩⟩, ⟨.identifier, ⟨24, 25⟩⟩,
    ⟨.comma, ⟨25, 26⟩⟩, ⟨.identifier, ⟨27, 28⟩⟩]
  let inner : List Token := [⟨.identifier, ⟨38, 40⟩⟩, ⟨.asWord, ⟨41, 43⟩⟩, ⟨.identifier, ⟨44, 45⟩⟩,
    ⟨.comma, ⟨45, 46⟩⟩, ⟨.badCharacter, ⟨46, 47⟩⟩, ⟨.badCharacter, ⟨47, 48⟩⟩]
  let close : Token := ⟨.interpolationClose, ⟨48, 50⟩⟩
  let behind : List Token := outer ++ [⟨.interpolationClose, ⟨28, 30⟩⟩]
  have htokens : significantTokens source = ([⟨.templateOpen, ⟨0, 10⟩⟩, ⟨.interpolationOpen, ⟨10, 12⟩⟩,
      ⟨.eachBlock, ⟨12, 17⟩⟩] ++ behind) ++ ⟨.interpolationOpen, ⟨30, 32⟩⟩ :: ⟨.eachBlock, ⟨32, 37⟩⟩
        :: (inner ++ [close]) := by decide +kernel
  -- the outer loop
  obtain ⟨head, hnode, -, hhead, -⟩ :=
    hheads parsed hparsed [⟨.templateOpen, ⟨0, 10⟩⟩] _ _ _ htokens rfl rfl
  have hbehind : LoopBinding.Behind source outer [⟨.identifier, ⟨18, 20⟩⟩]
      ⟨"x", some "i", ⟨21, 28⟩⟩ := by
    have hitem : Token.text ⟨.identifier, ⟨24, 25⟩⟩ source = "x" := by decide +kernel
    have hindex : Token.text ⟨.identifier, ⟨27, 28⟩⟩ source = "i" := by decide +kernel
    rw [← hitem, ← hindex]
    have hrun : outer = [⟨.identifier, ⟨18, 20⟩⟩] ++ [⟨.asWord, ⟨21, 23⟩⟩, ⟨.identifier, ⟨24, 25⟩⟩,
        ⟨.comma, ⟨25, 26⟩⟩, ⟨.identifier, ⟨27, 28⟩⟩] := rfl
    exact .indexed hrun (by decide) (by decide) rfl rfl rfl rfl
  obtain ⟨hbinding, hexpression⟩ := hhead.bound _ _ hbehind
  -- the one in it
  obtain ⟨head', hnode', hspan', hhead', hasked⟩ := hheads parsed hparsed _ _ _ _ htokens rfl rfl
  have hnone : ∀ list binding, ¬ LoopBinding.Behind source inner list binding := by
    intro list binding h
    have hread := readLoopHead_of_behind (r := ⟨source, false⟩) h
    have hcomputed : (readLoopHead ⟨source, false⟩ inner).1.2 = none := by decide +kernel
    rw [hread] at hcomputed
    cases hcomputed
  obtain ⟨hbinding', -, hunbound⟩ := hhead'.unbound hnone
  obtain ⟨span, hrun, -, hexpression', -⟩ := hunbound (by decide)
  have hplace : span = ⟨38, 48⟩ := Option.some.inj (hrun.symm.trans (by decide))
  obtain ⟨e, honce, -⟩ := hhead'.anomalies ⟨.badCharacter, ⟨47, 48⟩⟩ (by decide)
    ((Problem.badCharacter "#").on ⟨47, 48⟩) (by decide +kernel)
  have hstream := hasked (List.replicate 11 .bump)
  dsimp only at hstream
  obtain ⟨hexists, hall⟩ := hstream (by decide +kernel)
  refine ⟨hend, parsed, hparsed, ⟨head, hnode, hbinding, hexpression⟩, head', hnode', ?_, hbinding', ?_,
    ⟨e, honce⟩, hexists, fun read s' hreads => (hall read s' hreads).2.2.1⟩
  · rw [hspan']
    rfl
  · rw [hexpression', hplace]
    rfl

end RsxInspect
