import Mathlib.Data.List.SplitBy
import RsxInspect.Proofs.Diagnostic.Silenced
import RsxInspect.Proofs.Stream.TokenList
import RsxInspect.Proofs.Template.Value

/-!
# Runs of bad characters

The log looks at its last entry only when it folds a bad character into a run. Tokens follow each other
and none of them is empty, so that is enough: what is left in the log are the runs that cannot be made
longer, and all else as it was found (`Findings.ofTokens_eq_runs`). A run ends where the next token is no
bad character or does not touch it, and neither is folded later (`Findings.ofTokens_append`).

So a token stream that has come to the end of its input has collected one diagnostic for each run
(`TokenStream.runs_reported`).
-/

namespace RsxInspect

/-- Two bad characters, one right behind the other. -/
def Token.joins (t u : Token) : Bool :=
  t.kind == .badCharacter && u.kind == .badCharacter && t.span.stop == u.span.start

theorem Token.joins_iff {t u : Token} : t.joins u = true ↔
    t.kind = .badCharacter ∧ u.kind = .badCharacter ∧ t.span.stop = u.span.start := by
  rw [joins, Bool.and_eq_true, Bool.and_eq_true, beq_iff_eq, beq_iff_eq, beq_iff_eq, and_assoc]

/-- What bad characters go on with, in a chain of `Token.joins`, is bad characters. -/
theorem Token.bad_of_joins {t : Token} {more : List Token} (ht : t.kind = .badCharacter)
    (h : (t :: more).IsChain (fun t u => t.joins u)) : ∀ u ∈ t :: more, u.kind = .badCharacter := by
  induction more generalizing t with
  | nil => exact List.forall_mem_singleton.mpr ht
  | cons u more ih =>
    rw [List.isChain_cons_cons, joins_iff] at h
    exact List.forall_mem_cons.mpr ⟨ht, ih h.1.2.1 h.2⟩

/-- A run of tokens that join (`Token.joins`) has bad characters only, or one token. -/
theorem Token.bad_or_alone {run : List Token} (h : run.IsChain (fun t u => t.joins u)) :
    (∀ t ∈ run, t.kind = .badCharacter) ∨ ∃ t, run = [t] := by
  match run, h with
  | [], _ => exact .inl (List.forall_mem_nil _)
  | [t], _ => exact .inr ⟨t, rfl⟩
  | t :: u :: more, h =>
    obtain ⟨hjoins, -⟩ := List.isChain_cons_cons.mp h
    exact .inl (bad_of_joins (joins_iff.mp hjoins).1 h)

/-- The lexical problem of a token stands where the token stands, and only a bad character is reported
as one. -/
theorem Token.span_and_kind_of_anomaly? {source : String} {t : Token} {d : Diagnostic}
    (h : t.anomaly? source = some d) :
    d.span = t.span ∧ (d.kind = .badCharacter ↔ t.kind = .badCharacter) := by
  obtain ⟨p, hp, rfl⟩ := Option.map_eq_some_iff.mp h
  refine ⟨rfl, ?_⟩
  show p.kind = _ ↔ _
  unfold lexicalProblem? at hp
  dsimp only at hp
  repeat' split at hp
  all_goals cases hp <;> simp_all [Problem.kind]

namespace Findings

/-- What is reported of a run: bad characters together, from the first to the last one, and any
other token, which is alone in its run, for itself (`Token.anomaly?`). -/
def ofRun? (source : String) : List Token → Option Diagnostic
  | [] => none
  | first :: more =>
    if first.kind = .badCharacter then
      let span : Span := ⟨first.span.start, (more.getLastD first).span.stop⟩
      let text := span.text source
      some ⟨.badCharacter, span,
        if more.isEmpty then s!"unexpected character `{text}`"
        else s!"unexpected characters `{text}`"⟩
    else first.anomaly? source

variable {source : String} {a b : Nat} {t u : Token} {ts us more : List Token}

/-! ### One run

Bad characters that touch are recorded in one diagnostic: each further one is folded into it
(`recordAll_joined`), so a run leaves one entry in the log. -/

theorem anomalies_cons_of_bad (h : t.kind = .badCharacter) :
    (t :: ts).filterMap (·.anomaly? source)
      = (Problem.badCharacter (t.text source)).on t.span :: ts.filterMap (·.anomaly? source) := by
  have hanomaly : t.anomaly? source = some ((Problem.badCharacter (t.text source)).on t.span) := by
    rw [Token.anomaly?, h]
    rfl
  exact List.filterMap_cons_some hanomaly

/-- The report of several bad characters. -/
def joined (source : String) (span : Span) : Diagnostic :=
  (Problem.badCharacters (span.text source)).on span

/-- A bad character that touches the last diagnostic, itself one of bad characters, is folded into
it by `Findings.record`. -/
theorem record_joined {d : Diagnostic} {log : Findings} (hd : d.kind = .badCharacter)
    (htouch : d.span.stop = t.span.start) (hd' : d.span.start ≤ d.span.stop)
    (ht : t.span.start ≤ t.span.stop) :
    record source (d :: log) ((Problem.badCharacter (t.text source)).on t.span)
      = joined source ⟨d.span.start, t.span.stop⟩ :: log := by
  have hcover : d.span.cover t.span = ⟨d.span.start, t.span.stop⟩ :=
    Span.cover_eq (by omega) (by omega)
  rw [record, if_pos (by simp [Problem.on, Problem.kind, hd, htouch])]
  show joined source (d.span.cover t.span) :: log = _
  rw [hcover]

/-- So are all of a run that touches it. -/
theorem recordAll_joined {d : Diagnostic} {log : Findings} (hd : d.kind = .badCharacter)
    (htouch : d.span.stop = t.span.start) (hd' : d.span.start ≤ d.span.stop)
    (ht : t.kind = .badCharacter) (hchain : (t :: more).IsChain (fun t u => t.joins u))
    (hspans : ∀ u ∈ t :: more, u.span.start ≤ u.span.stop) :
    recordAll source (d :: log) ((t :: more).filterMap (·.anomaly? source))
      = joined source ⟨d.span.start, (more.getLastD t).span.stop⟩ :: log := by
  induction more generalizing d t with
  | nil =>
    rw [anomalies_cons_of_bad ht]
    exact record_joined hd htouch hd' (hspans t (List.mem_cons_self ..))
  | cons u more ih =>
    obtain ⟨hle, hspans⟩ := List.forall_mem_cons.mp hspans
    rw [List.isChain_cons_cons, Token.joins_iff] at hchain
    obtain ⟨⟨-, hu, htouch'⟩, hchain⟩ := hchain
    rw [anomalies_cons_of_bad ht]
    show recordAll source (record source (d :: log) _) _ = _
    rw [record_joined hd htouch hd' hle, List.getLastD_cons]
    exact ih (d := joined source ⟨d.span.start, t.span.stop⟩) rfl htouch'
      (show d.span.start ≤ t.span.stop by omega) hu hchain hspans

/-- The log of a run (`ofTokens`) is its report (`ofRun?`): the first bad character starts it, and
the others are folded into that. -/
theorem ofTokens_run (hchain : ts.IsChain (fun t u => t.joins u))
    (hspans : ∀ u ∈ ts, u.span.start ≤ u.span.stop) :
    ofTokens source ts = (ofRun? source ts).toList := by
  match ts, hchain, hspans with
  | [], _, _ => rfl
  | [t], _, _ =>
    by_cases ht : t.kind = .badCharacter
    · rw [ofTokens, anomalies_cons_of_bad ht, ofRun?, if_pos ht]
      rfl
    · rw [ofTokens, ofRun?, if_neg ht, List.filterMap_cons]
      cases t.anomaly? source <;> rfl
  | t :: u :: more, hchain, hspans =>
    rw [List.isChain_cons_cons, Token.joins_iff] at hchain
    obtain ⟨⟨ht, hu, htouch⟩, hchain⟩ := hchain
    obtain ⟨hle, hspans⟩ := List.forall_mem_cons.mp hspans
    rw [ofTokens, anomalies_cons_of_bad ht, ofRun?, if_pos ht, List.getLastD_cons]
    show recordAll source [(Problem.badCharacter (t.text source)).on t.span] _ = _
    exact recordAll_joined rfl htouch hle hu hchain hspans

/-! ### One run behind the other

Between two runs there is a token that is not bad, or a gap, so the first character of the next run
starts a diagnostic of its own. `ofTokens_eq_runs` is the induction over the runs. -/

/-- Where bad characters in the log (`ofTokens`) end, one of the tokens ends. -/
theorem exists_stop_of_bad (hspans : ∀ t ∈ ts, t.span.start ≤ t.span.stop) :
    ∀ e ∈ ofTokens source ts, e.kind = .badCharacter →
      e.span.start ≤ e.span.stop ∧ ∃ t ∈ ts, t.kind = .badCharacter ∧ e.span.stop = t.span.stop := by
  refine forall_recordAll (fun x y hx hy htouch hxs hys message _ => ?_)
    (List.forall_mem_nil _) fun d hd hbad => ?_
  · obtain ⟨hle, -⟩ := hxs hx
    obtain ⟨hle', t, ht, htbad, hstop⟩ := hys hy
    have hmax : max x.span.stop y.span.stop = y.span.stop := Nat.max_eq_right (by omega)
    refine ⟨?_, t, ht, htbad, hmax.trans hstop⟩
    show min x.span.start y.span.start ≤ max x.span.stop y.span.stop
    omega
  · obtain ⟨t, ht, hanomaly⟩ := List.mem_filterMap.mp hd
    obtain ⟨hspan, hkind⟩ := Token.span_and_kind_of_anomaly? hanomaly
    rw [hspan]
    exact ⟨hspans t ht, t, ht, hkind.mp hbad, rfl⟩

/-- What stands behind tokens is not folded into their log, if the last of them does not join
(`Token.joins`) the first one behind them. -/
theorem ofTokens_append (hspans : Span.Ordered a ((ts ++ us).map Token.span) b)
    (hapart : ∀ t ∈ ts.getLast?, ∀ u ∈ us.head?, t.joins u = false) :
    ofTokens source (ts ++ us) = ofTokens source us ++ ofTokens source ts := by
  have hnonempty : ∀ t ∈ ts, t.span.start ≤ t.span.stop := fun t ht =>
    Nat.le_of_lt (hspans.mem (List.mem_map_of_mem (List.mem_append_left us ht))).2.1
  rw [ofTokens, List.filterMap_append, recordAll, List.foldl_append]
  refine recordAll_append fun d hd hbad e he hbad' htouch => ?_
  obtain ⟨u, hu, hanomaly⟩ := List.mem_filterMap.mp hd
  obtain ⟨hspan, hkind⟩ := Token.span_and_kind_of_anomaly? hanomaly
  obtain ⟨-, t, ht, htbad, hstop⟩ := exists_stop_of_bad hnonempty e he hbad'
  rw [hspan, hstop] at htouch
  -- nothing has room between two tokens that touch
  obtain ⟨before, inner, rfl⟩ := List.append_of_mem ht
  obtain ⟨inner', behind, rfl⟩ := List.append_of_mem hu
  have hsplit : before ++ t :: inner ++ (inner' ++ u :: behind)
      = before ++ t :: ((inner ++ inner') ++ u :: behind) := by simp
  rw [hsplit] at hspans
  obtain ⟨-, -, -, -, hspans⟩ := Span.Ordered.tokens_append_iff.mp hspans
  obtain ⟨c, hinner, hc, -⟩ := Span.Ordered.tokens_append_iff.mp hspans
  have hnone : inner ++ inner' = [] := by
    refine List.eq_nil_iff_forall_not_mem.mpr fun v hv => ?_
    have := hinner.mem (List.mem_map_of_mem hv)
    omega
  obtain ⟨rfl, rfl⟩ := List.append_eq_nil_iff.mp hnone
  have hjoins : t.joins u = true := Token.joins_iff.mpr ⟨htbad, hkind.mp hbad, htouch⟩
  rw [hapart t (by simp) u (by simp)] at hjoins
  cases hjoins

/-- **Runs** (`Token.joins`). The log of tokens that follow each other holds the reports of the runs
of bad characters that cannot be made longer, and of the other tokens between them, in the order of
the tokens. -/
theorem ofTokens_eq_runs (hspans : Span.Ordered a (ts.map Token.span) b) :
    (ofTokens source ts).reverse = (ts.splitBy Token.joins).filterMap (ofRun? source) := by
  obtain ⟨hflatten, hnil, hchains, hapart⟩ := List.splitBy_eq_iff.mp (rfl : ts.splitBy Token.joins = _)
  generalize ts.splitBy Token.joins = runs at *
  subst hflatten
  -- run by run: what `splitBy` cuts apart does not touch, so no finding is folded over a cut
  induction runs generalizing a with
  | nil => rfl
  | cons run runs ih =>
    rw [List.mem_cons, not_or] at hnil
    obtain ⟨hrun, hchains⟩ := List.forall_mem_cons.mp hchains
    rw [List.isChain_cons] at hapart
    rw [List.flatten_cons] at hspans ⊢
    -- the cut between `run` and the next run, as a fact about the rest of the tokens
    have hends : ∀ t ∈ run.getLast?, ∀ u ∈ runs.flatten.head?, t.joins u = false := by
      intro t ht u hu
      cases runs with
      | nil => cases hu
      | cons run' runs =>
        obtain ⟨hne, hne', hjoins⟩ := hapart.1 run' rfl
        rw [List.flatten_cons, List.head?_append_of_ne_nil _ hne', List.head?_eq_some_head hne'] at hu
        rw [List.getLast?_eq_some_getLast hne] at ht
        cases hu
        cases ht
        exact hjoins
    obtain ⟨c, hfirst, hmore⟩ := Span.Ordered.tokens_append_iff.mp hspans
    have hnonempty : ∀ t ∈ run, t.span.start ≤ t.span.stop := fun t ht =>
      Nat.le_of_lt (hfirst.mem (List.mem_map_of_mem ht)).2.1
    rw [ofTokens_append hspans hends, List.reverse_append, ofTokens_run hrun hnonempty,
      ih hnil.2 hchains hapart.2 hmore, List.filterMap_cons]
    cases ofRun? source run <;> rfl

end Findings

/-! ### The stream

The stream looks at each token once, in order, so at the end its log is that of all tokens
(`Buffers`), whatever it was asked before. -/

namespace Scanner

/-- The tokens ahead follow each other in front of `eof`. -/
theorem ordered_of_listing? {s : Scanner} {tokens : List Token} (h : s.listing? = some tokens) :
    ∃ ts eof b, tokens = ts ++ [eof] ∧ eof.kind = .eof ∧
      Span.Ordered s.offset (ts.map Token.span) b := by
  obtain ⟨us, s', hreads, -, rfl⟩ := listing?_eq_some_iff.mp h
  exact ⟨significant us, _, s'.offset, rfl, rfl,
    hreads.ordered.sublist ((List.filter_sublist ..).map _)⟩

end Scanner

/-- `eof` joins no run, and nothing is reported of it. -/
theorem Findings.runs_eof {source : String} {ts : List Token} {eof : Token} (h : eof.kind = .eof) :
    ((ts ++ [eof]).splitBy Token.joins).filterMap (ofRun? source)
      = (ts.splitBy Token.joins).filterMap (ofRun? source) := by
  have hapart : ∀ t ∈ ts.getLast?, t.joins eof = false := by
    intro t _
    refine Bool.eq_false_iff.mpr fun hjoins => ?_
    rw [Token.joins_iff, h] at hjoins
    exact nomatch hjoins.2.1
  have hnone : ofRun? source [eof] = none := by
    rw [ofRun?, if_neg (by rw [h]; decide), Token.anomaly?, h]
    rfl
  rw [List.splitBy_append_cons [] hapart, List.filterMap_append]
  show _ ++ [[eof]].filterMap (ofRun? source) = _
  rw [List.filterMap_cons_none hnone, List.filterMap_nil, List.append_nil]

namespace TokenStream

/-- A client that sees `eof` has brought all tokens into the buffer, so all were looked at. -/
theorem Buffers.of_kind_peekAt {s : TokenStream} {tokens : List Token} {n : Nat}
    (h : s.Buffers tokens) (heof : (s.peekAt n).1.kind = .eof) :
    (s.peekAt n).2.Buffers tokens ∧ (s.peekAt n).2.listed tokens = s.listed tokens ∧
      (s.peekAt n).2.buffer.size = tokens.length := by
  obtain ⟨htoken, -, hlisted, hbuffers, -, henough⟩ := h.peekAt n
  have hindex := h.index_lt
  have hplace : min (s.index + n) (tokens.length - 1) < tokens.length := by omega
  rw [htoken] at heof
  change ((tokens[min (s.index + n) (tokens.length - 1)]?).getD default).kind = .eof at heof
  rw [List.getElem?_eq_getElem hplace, Option.getD_some, h.eof _ hplace] at heof
  have hle := hbuffers.size_le
  exact ⟨hbuffers, hlisted, by omega⟩

/-- **Runs are reported once.** Let a scan reach the end, and let a client of a stream over it, whatever
it asked for, see `eof` when it looks ahead. Then what the stream has collected are the reports of the
runs of its tokens, in their order: one for each run of bad characters that touch, which cannot be made
longer, and between them those of the other tokens, each of which is a run for itself. -/
theorem runs_reported {source : String} {scanner : Scanner} {tokens : List Token}
    (h : scanner.listing? = some tokens) (requests : List StreamRequest) (n : Nat) :
    let stream := (StreamSession.run TokenStream.serve requests ⟨.ofScanner source scanner, []⟩).2.reader
    let runs := tokens.splitBy Token.joins
    (stream.peekAt n).1.kind = .eof →
      (stream.peekAt n).2.takeFindings.1 = runs.filterMap (Findings.ofRun? source) ∧
      ∀ run ∈ runs, (∀ t ∈ run, t.kind = .badCharacter) ∨ ∃ t, run = [t] := by
  intro stream runs heof
  have hstart : InOrder ⟨.ofScanner source scanner, []⟩ tokens := ⟨.ofScanner h source, nofun⟩
  obtain ⟨-, hlisted, -, hend, -⟩ := hstart.run requests
  have hsource : stream.source = source :=
    (congrArg (·.reader.source) hlisted).trans (TokenList.run_source requests _)
  refine ⟨?_, fun run hrun => Token.bad_or_alone (List.isChain_of_mem_splitBy hrun)⟩
  -- with the end peeked at, everything is in the buffer, the end itself included
  obtain ⟨hbuffers, hlisted, hall⟩ := hend.reader.of_kind_peekAt heof
  obtain ⟨ts, eof, b, rfl, heof, hspans⟩ := Scanner.ordered_of_listing? h
  show (stream.peekAt n).2.findings.reverse = _
  have hsource' : (stream.peekAt n).2.source = source := (congrArg TokenList.source hlisted).trans hsource
  have hnone : eof.anomaly? source = none := by
    rw [Token.anomaly?, heof]
    rfl
  rw [hbuffers.findings, hall, hsource', List.take_length, Findings.ofTokens_concat, hnone,
    Findings.runs_eof heof]
  exact Findings.ofTokens_eq_runs hspans

/-- Two bad characters that touch, a lone one in another mode and one behind a section, told by a client
that has read two of them only and then looks far ahead. -/
theorem runs_reported_apart :
    let source := String.ofList "ab <template>\x7b\x7b # \x7d\x7d</template> z".toList
    let scanner := Scanner.behind [] source.toList .initial
    let stream := (StreamSession.run serve [.bump, .bump] ⟨.ofScanner source scanner, []⟩).2.reader
    (stream.peekAt 9).1.kind = .eof ∧
      (stream.peekAt 9).2.takeFindings.1
        = [⟨.badCharacter, ⟨0, 2⟩, "unexpected characters `ab`"⟩,
          ⟨.badCharacter, ⟨16, 17⟩, "unexpected character `#`"⟩,
          ⟨.badCharacter, ⟨32, 33⟩, "unexpected character `z`"⟩] := by
  intro source scanner stream
  let bad (start stop : Nat) : Token := ⟨.badCharacter, ⟨start, stop⟩⟩
  let tokens : List Token :=
    [bad 0 1, bad 1 2, ⟨.templateOpen, ⟨3, 13⟩⟩, ⟨.interpolationOpen, ⟨13, 15⟩⟩, bad 16 17,
      ⟨.interpolationClose, ⟨18, 20⟩⟩, ⟨.templateClose, ⟨20, 31⟩⟩, bad 32 33, ⟨.eof, ⟨33, 33⟩⟩]
  have htokens : scanner.listing? = some tokens := by
    simp only [scanner, source, String.toList_ofList]
    decide +kernel
  -- the two letters are a run; every other token is one of its own
  have hruns : tokens.splitBy Token.joins = [bad 0 1, bad 1 2] :: (tokens.drop 2).map ([·]) := by
    decide +kernel
  have heof : (stream.peekAt 9).1.kind = .eof := by
    simp only [stream, scanner, source, String.toList_ofList]
    decide +kernel
  obtain ⟨hfindings, -⟩ := runs_reported htokens [.bump, .bump] 9 heof
  refine ⟨heof, hfindings.trans ?_⟩
  rw [hruns]
  decide +kernel

end TokenStream

end RsxInspect
