import RsxInspect.Proofs.Scan.Trace
import RsxInspect.TokenStream

/-!
# Token streams as lists

A token stream scans its tokens when they are asked for and can be taken back. To its client it
looks like the list of all significant tokens, `eof` last, with the index of the next one
(`TokenList`). `TokenStream.Buffers` relates the two: what is buffered is the front of the list, and
the scanner is about to read the rest.

Reading one more token keeps it (`Buffers.pull`), so reading ahead does (`Buffers.fill`), and so
does every operation (`InOrder.serve`). What a client asks for is a list of `StreamRequest`; both
sides serve it, and whatever comes before a request, the answers agree (`TokenStream.run_eq`).

`eof` is never passed: not when the next token is taken, and not when `eof` is what is asked for
(`TokenStream.eat?_eof_stays`).
-/

namespace RsxInspect

/-- The significant tokens ahead, `eof` last; nothing if the scan stands still in front of the
end. -/
def Scanner.listing? (s : Scanner) : Option (List Token) :=
  s.toEnd?.map fun (tokens, s') => significant tokens.toList ++ [s'.next.1]

/-! ### The list

What a token stream stands for, with its operations on a list that is there from the start. -/

/-- Tokens, and the index of the next one. -/
structure TokenList where
  source : String
  tokens : List Token
  index : Nat

namespace TokenList

/-- The token `n` places behind the next one, or the last one, which is `eof`. -/
def peekAt (l : TokenList) (n : Nat) : Token :=
  (l.tokens[min (l.index + n) (l.tokens.length - 1)]?).getD default

/-- Goes on behind the next token, unless that is `eof`. -/
def bump (l : TokenList) : TokenList :=
  if (l.peekAt 0).kind = .eof then l else { l with index := l.index + 1 }

/-- The next token if it is of the given kind, and the list behind it. An `eof` is given away and
stays. -/
def eat? (l : TokenList) (kind : TokenKind) : Option Token × TokenList :=
  if (l.peekAt 0).kind = kind then (some (l.peekAt 0), l.bump) else (none, l)

/-- The end of the token in front of the next one. -/
def previousEnd (l : TokenList) : Nat :=
  if l.index = 0 then 0 else ((l.tokens[l.index - 1]?).getD default).span.stop

end TokenList

/-! ### Clients -/

/-- What a client can ask for. A marker is told by its number among those that were set, so a client
can only go back to where it was. -/
inductive StreamRequest where
  | peek
  | peekAt (n : Nat)
  | nextIs (kind : TokenKind)
  | bump
  | eat (kind : TokenKind)
  | text (t : Token)
  | previousEnd
  | marker
  | rollback (number : Nat)

inductive StreamAnswer where
  | token (t : Token)
  | decision (b : Bool)
  | eaten (t : Option Token)
  | text (s : String)
  | offset (n : Nat)
  | marker (index : Nat)
  | done
  deriving DecidableEq

/-- The tokens that an answer gives away. -/
def StreamAnswer.tokens : StreamAnswer → List Token
  | token t => [t]
  | eaten t => t.toList
  | _ => []

/-- A reader of tokens, and the markers that were set on it, first the oldest one. -/
structure StreamSession (α : Type) where
  reader : α
  markers : List Nat

/-- The answers to some requests, one after the other, and the session behind them. `serve` is what
the reader of the session does. -/
def StreamSession.run {α : Type}
    (serve : StreamSession α → StreamRequest → StreamAnswer × StreamSession α) :
    List StreamRequest → StreamSession α → List StreamAnswer × StreamSession α
  | [], s => ([], s)
  | request :: requests, s =>
    let (answer, s) := serve s request
    let (answers, s) := run serve requests s
    (answer :: answers, s)

/-- How a stream serves its client. -/
def TokenStream.serve (s : StreamSession TokenStream) :
    StreamRequest → StreamAnswer × StreamSession TokenStream
  | .peek => let (t, reader) := s.reader.peek; (.token t, { s with reader })
  | .peekAt n => let (t, reader) := s.reader.peekAt n; (.token t, { s with reader })
  | .nextIs kind => let (b, reader) := s.reader.at? kind; (.decision b, { s with reader })
  | .bump => let (t, reader) := s.reader.bump; (.token t, { s with reader })
  | .eat kind => let (t, reader) := s.reader.eat? kind; (.eaten t, { s with reader })
  | .text t => (.text (t.text s.reader.source), s)
  | .previousEnd => (.offset s.reader.previousEnd, s)
  | .marker => (.marker s.reader.index, { s with markers := s.markers ++ [s.reader.index] })
  | .rollback number =>
    match s.markers[number]? with
    | some index => (.done, { s with reader := s.reader.rollback index })
    | none => (.done, s)

/-- How a list serves it. -/
def TokenList.serve (s : StreamSession TokenList) :
    StreamRequest → StreamAnswer × StreamSession TokenList
  | .peek => (.token (s.reader.peekAt 0), s)
  | .peekAt n => (.token (s.reader.peekAt n), s)
  | .nextIs kind => (.decision ((s.reader.peekAt 0).kind == kind), s)
  | .bump => (.token (s.reader.peekAt 0), { s with reader := s.reader.bump })
  | .eat kind => let (t, reader) := s.reader.eat? kind; (.eaten t, { s with reader })
  | .text t => (.text (t.text s.reader.source), s)
  | .previousEnd => (.offset s.reader.previousEnd, s)
  | .marker => (.marker s.reader.index, { s with markers := s.markers ++ [s.reader.index] })
  | .rollback number =>
    match s.markers[number]? with
    | some index => (.done, { s with reader := { s.reader with index } })
    | none => (.done, s)

namespace TokenList

theorem serve_source (s : StreamSession TokenList) (request : StreamRequest) :
    (serve s request).2.reader.source = s.reader.source := by
  have hbump : s.reader.bump.source = s.reader.source := by
    unfold bump
    split <;> rfl
  cases request with
  | bump => exact hbump
  | eat kind =>
    show (s.reader.eat? kind).2.source = _
    unfold eat?
    split
    · exact hbump
    · rfl
  | rollback number =>
    unfold serve
    dsimp only
    split <;> rfl
  | _ => rfl

theorem run_source (requests : List StreamRequest) (s : StreamSession TokenList) :
    (StreamSession.run serve requests s).2.reader.source = s.reader.source := by
  induction requests generalizing s with
  | nil => rfl
  | cons request requests ih => exact (ih _).trans (serve_source s request)

end TokenList

/-! ### The tokens ahead

The list holds all significant tokens that are ahead of the scanner and the `eof` behind them; a
scan that never comes to its end has none. -/

namespace Scanner

variable {s : Scanner} {t : Token} {ts : List Token}

theorem listing?_eq_some_iff :
    s.listing? = some ts ↔ ∃ us s', Reads s us s' ∧ s'.cursor.rest = [] ∧
      ts = significant us ++ [⟨.eof, Span.point s'.offset⟩] := by
  rw [listing?, Option.map_eq_some_iff]
  constructor
  · rintro ⟨⟨tokens, s'⟩, hrun, rfl⟩
    obtain ⟨hreads, hend⟩ := toEnd?_eq_some_iff.mp hrun
    refine ⟨tokens.toList, s', hreads, hend, ?_⟩
    simp only [next_of_end hend]
  · rintro ⟨us, s', hreads, hend, rfl⟩
    refine ⟨(us.toArray, s'), toEnd?_eq_some_iff.mpr ⟨by simpa using hreads, hend⟩, ?_⟩
    simp only [next_of_end hend]

/-- The next significant token is the first of those ahead (`listing?`), and the others are ahead of
the scanner behind it. -/
theorem nextSignificant_of_listing? (h : s.listing? = some (t :: ts)) :
    s.nextSignificant.1 = t ∧ (ts ≠ [] → s.nextSignificant.2.listing? = some ts) := by
  obtain ⟨us, s', hreads, hend, hts⟩ := listing?_eq_some_iff.mp h
  clear h
  induction hreads with
  | done s =>
    obtain ⟨rfl, rfl⟩ := List.cons.inj hts
    have heof : s.next.1 = ⟨.eof, Span.point s.offset⟩ := by rw [next_of_end hend]
    rw [nextSignificant, dif_neg (by rw [heof]; exact nofun)]
    exact ⟨heof, fun hne => absurd rfl hne⟩
  | @step s s' us hmove rest ih =>
    rw [nextSignificant]
    -- a blank is skipped and the scanner asked again; any other token is the head of the listing
    by_cases hblank : s.next.1.kind = .whitespace
    · rw [dif_pos hblank]
      rw [significant_cons_of_blank hblank] at hts
      exact ih hend hts
    · rw [dif_neg hblank]
      rw [significant_cons hblank, List.cons_append] at hts
      obtain ⟨rfl, rfl⟩ := List.cons.inj hts
      exact ⟨rfl, fun _ => listing?_eq_some_iff.mpr ⟨us, s', rest, hend, rfl⟩⟩

/-- No token but the last one is `eof`. -/
theorem kind_eq_eof_iff_of_listing? (h : s.listing? = some ts) {i : Nat} (hi : i < ts.length) :
    ts[i].kind = .eof ↔ i + 1 = ts.length := by
  obtain ⟨us, s', hreads, -, rfl⟩ := listing?_eq_some_iff.mp h
  rw [List.length_append, List.length_singleton] at hi ⊢
  by_cases hlast : i < (significant us).length
  · have hkind : (significant us)[i].kind ≠ .eof := by
      obtain ⟨k, -, hstep⟩ := hreads.exists_tokenAt
        (List.mem_of_mem_filter (List.getElem_mem hlast))
      exact hstep.kind_ne_eof
    rw [List.getElem_append_left hlast]
    exact ⟨fun heof => absurd heof hkind, fun heq => by omega⟩
  · obtain rfl : i = (significant us).length := by omega
    rw [List.getElem_append_right (Nat.le_refl _)]
    simp

end Scanner

/-! ### Reading ahead

`Buffers` is the invariant: it fixes the buffer, the scanner and the log in terms of the list, and
reading further ahead keeps it (`pull`, `fill`). -/

/-- The last token is looked at last (`Token.anomaly?`), so its finding is recorded behind the
others. -/
theorem Findings.ofTokens_concat (source : String) (ts : List Token) (t : Token) :
    ofTokens source (ts ++ [t])
      = (ofTokens source ts).recordAll source (t.anomaly? source).toList := by
  rw [ofTokens, ofTokens, List.filterMap_append, recordAll, List.foldl_append]
  cases h : t.anomaly? source <;> simp [recordAll, h]

namespace TokenStream

/-- What the stream looks like if these are its tokens. -/
def listed (s : TokenStream) (tokens : List Token) : TokenList :=
  ⟨s.source, tokens, s.index⟩

/-- The buffer of the stream is the front of the tokens, its scanner is about to read the rest, and
each token in the buffer was looked at once for what is wrong with it. -/
structure Buffers (s : TokenStream) (tokens : List Token) : Prop where
  index_le : s.index ≤ s.buffer.size
  index_lt : s.index < tokens.length
  size_le : s.buffer.size ≤ tokens.length
  buffer : s.buffer.toList = tokens.take s.buffer.size
  ahead : s.buffer.size < tokens.length → s.scanner.listing? = some (tokens.drop s.buffer.size)
  findings : s.findings = Findings.ofTokens s.source (tokens.take s.buffer.size)
  eof : ∀ (i : Nat) (h : i < tokens.length), tokens[i].kind = .eof ↔ i + 1 = tokens.length

namespace Buffers

variable {s : TokenStream} {tokens : List Token}

theorem ofScanner {scanner : Scanner} (h : scanner.listing? = some tokens) (source : String) :
    (ofScanner source scanner).Buffers tokens := by
  have hpos : 0 < tokens.length := by
    obtain ⟨us, s', -, -, rfl⟩ := Scanner.listing?_eq_some_iff.mp h
    simp
  exact ⟨Nat.le_refl _, hpos, Nat.zero_le _, rfl, fun _ => h, rfl,
    fun _ hi => Scanner.kind_eq_eof_iff_of_listing? h hi⟩

theorem getElem?_buffer (h : s.Buffers tokens) {i : Nat} (hi : i < s.buffer.size) :
    s.buffer[i]? = tokens[i]? := by
  rw [← Array.getElem?_toList, h.buffer, List.getElem?_take, if_pos hi]

/-- The buffer is complete (`isComplete`) when all tokens are in it. -/
theorem isComplete_iff (h : s.Buffers tokens) :
    s.isComplete = true ↔ s.buffer.size = tokens.length := by
  have hlt := h.index_lt
  have hle := h.size_le
  unfold isComplete
  rw [Array.back?_eq_getElem?]
  by_cases hempty : s.buffer.size = 0
  · rw [Array.getElem?_eq_none (by omega)]
    constructor
    · exact fun hfalse => nomatch hfalse
    · exact fun heq => by omega
  · have hi : s.buffer.size - 1 < tokens.length := by omega
    rw [h.getElem?_buffer (by omega), List.getElem?_eq_getElem hi, Option.any_some, beq_iff_eq,
      h.eof _ hi]
    constructor <;> intro <;> omega

/-- One more token is read and looked at (`TokenStream.pull`), so the buffer is one longer. -/
theorem pull (h : s.Buffers tokens) (hsize : s.buffer.size < tokens.length) :
    s.pull.Buffers tokens ∧ s.pull.buffer.size = s.buffer.size + 1 := by
  have hahead := h.ahead hsize
  rw [List.drop_eq_getElem_cons hsize] at hahead
  obtain ⟨htoken, hrest⟩ := Scanner.nextSignificant_of_listing? hahead
  -- one token more in the buffer, and its finding, if any, in the log
  have hpushed : s.pull.buffer = s.buffer.push tokens[s.buffer.size] := by
    rw [← htoken]
    rfl
  have hgrown : s.pull.buffer.size = s.buffer.size + 1 := by
    rw [hpushed, Array.size_push]
  have htake : tokens.take (s.buffer.size + 1)
      = tokens.take s.buffer.size ++ [tokens[s.buffer.size]] :=
    List.take_succ_eq_append_getElem hsize
  refine ⟨⟨?_, h.index_lt, ?_, ?_, fun hmore => ?_, ?_, h.eof⟩, hgrown⟩
  · rw [hgrown]
    exact Nat.le_succ_of_le h.index_le
  · rw [hgrown]
    exact hsize
  · rw [hgrown, htake, hpushed, Array.toList_push, h.buffer]
  · rw [hgrown] at hmore ⊢
    refine hrest fun hnil => ?_
    have := List.drop_eq_nil_iff.mp hnil
    omega
  · rw [hgrown, htake]
    show s.findings.recordAll s.source (s.scanner.nextSignificant.1.anomaly? s.source).toList
      = Findings.ofTokens s.source _
    rw [htoken, h.findings, Findings.ofTokens_concat]

/-- Reading ahead brings the buffer up to a token, or to the last one, and nobody can tell: `listed`
is the same. The induction is on how many are missing. -/
theorem fill (h : s.Buffers tokens) (i : Nat) :
    (s.fill i).Buffers tokens ∧ (s.fill i).listed tokens = s.listed tokens ∧
      s.buffer.size ≤ (s.fill i).buffer.size ∧
      min (i + 1) tokens.length ≤ (s.fill i).buffer.size := by
  -- as long as the buffer is short and not complete, a pull brings the next token of the listing
  induction s using TokenStream.fill.induct i with
  | case1 s hmore ih =>
    rw [TokenStream.fill, if_pos hmore]
    rw [Bool.and_eq_true, decide_eq_true_iff, Bool.not_eq_true'] at hmore
    have hsize : s.buffer.size < tokens.length := by
      refine Nat.lt_of_le_of_ne h.size_le fun heq => ?_
      rw [h.isComplete_iff.mpr heq] at hmore
      exact nomatch hmore.2
    obtain ⟨hpull, hgrown⟩ := h.pull hsize
    obtain ⟨hfill, hlisted, hle, henough⟩ := ih hpull
    exact ⟨hfill, hlisted, by omega, henough⟩
  | case2 s hdone =>
    rw [TokenStream.fill, if_neg hdone]
    refine ⟨h, rfl, Nat.le_refl _, ?_⟩
    by_cases hsize : s.buffer.size ≤ i
    · have hcomplete : s.isComplete = true := by
        simpa [hsize] using hdone
      rw [h.isComplete_iff.mp hcomplete]
      exact Nat.min_le_right _ _
    · omega

/-! ### One operation

Each operation keeps `Buffers` and gives the answer that the list gives, one lemma for each. -/

/-- Looking ahead (`peekAt`) finds the token of the list, and only the buffer may have grown. -/
theorem peekAt (h : s.Buffers tokens) (n : Nat) :
    (s.peekAt n).1 = (s.listed tokens).peekAt n ∧ (s.peekAt n).1 ∈ (s.peekAt n).2.buffer.toList ∧
      (s.peekAt n).2.listed tokens = s.listed tokens ∧ (s.peekAt n).2.Buffers tokens ∧
      s.buffer.size ≤ (s.peekAt n).2.buffer.size ∧
      min (s.index + n + 1) tokens.length ≤ (s.peekAt n).2.buffer.size := by
  obtain ⟨hfill, hlisted, hle, henough⟩ := h.fill (s.index + n)
  have hindex : (s.fill (s.index + n)).index = s.index := congrArg TokenList.index hlisted
  have hpos := h.index_lt
  have hsize := hfill.size_le
  unfold TokenStream.peekAt
  dsimp only
  rw [hindex]
  generalize s.fill (s.index + n) = filled at *
  -- the index is the same in the buffer as in the list
  have hplace : min (s.index + n) (filled.buffer.size - 1)
      = min (s.index + n) (tokens.length - 1) := by omega
  have hlt : min (s.index + n) (tokens.length - 1) < filled.buffer.size := by omega
  rw [hplace]
  refine ⟨?_, ?_, hlisted, hfill, hle, henough⟩
  · rw [hfill.getElem?_buffer hlt]
    rfl
  · rw [Array.getElem?_eq_getElem hlt, Option.getD_some]
    exact Array.getElem_mem_toList hlt

/-- The next token is `eof` at the end of the list only. -/
theorem kind_peek (h : s.Buffers tokens) :
    ((s.listed tokens).peekAt 0).kind = .eof ↔ s.index + 1 = tokens.length := by
  have hlt := h.index_lt
  have hplace : min (s.index + 0) (tokens.length - 1) = s.index := by omega
  show ((tokens[min (s.index + 0) (tokens.length - 1)]?).getD default).kind = .eof ↔ _
  rw [hplace, List.getElem?_eq_getElem hlt, Option.getD_some, h.eof _ hlt]

/-- Passing the next token moves the index of the list on, unless it is `eof`. -/
theorem bump (h : s.Buffers tokens) :
    s.bump.1 = (s.listed tokens).peekAt 0 ∧ s.bump.1 ∈ s.bump.2.buffer.toList ∧
      s.bump.2.listed tokens = (s.listed tokens).bump ∧ s.bump.2.Buffers tokens ∧
      s.buffer.size ≤ s.bump.2.buffer.size := by
  obtain ⟨htoken, hmem, hlisted, hpeek, hle, henough⟩ := h.peekAt 0
  have hindex : (s.peekAt 0).2.index = s.index := congrArg TokenList.index hlisted
  have hkind := h.kind_peek
  have hlt := h.index_lt
  unfold TokenStream.bump TokenStream.peek TokenList.bump
  dsimp only
  rw [← htoken] at hkind ⊢
  -- at the end the stream stays, and so does the list; before it both move on by one
  by_cases heof : (s.peekAt 0).1.kind = .eof
  · rw [if_pos (beq_iff_eq.mpr heof), if_pos heof]
    exact ⟨rfl, hmem, hlisted, hpeek, hle⟩
  · rw [if_neg (mt beq_iff_eq.mp heof), if_neg heof]
    rw [hkind] at heof
    refine ⟨rfl, hmem, ?_, ⟨?_, ?_, hpeek.size_le, hpeek.buffer, hpeek.ahead, hpeek.findings,
      hpeek.eof⟩, hle⟩
    · rw [← hlisted]
      rfl
    · show (s.peekAt 0).2.index + 1 ≤ (s.peekAt 0).2.buffer.size
      omega
    · show (s.peekAt 0).2.index + 1 < tokens.length
      omega

/-- A token of another kind than is asked for (`eat?`) is not passed. -/
theorem eat? (h : s.Buffers tokens) (kind : TokenKind) :
    (s.eat? kind).1 = ((s.listed tokens).eat? kind).1 ∧
      (∀ t ∈ (s.eat? kind).1.toList, t ∈ (s.eat? kind).2.buffer.toList) ∧
      (s.eat? kind).2.listed tokens = ((s.listed tokens).eat? kind).2 ∧
      (s.eat? kind).2.Buffers tokens ∧ s.buffer.size ≤ (s.eat? kind).2.buffer.size := by
  obtain ⟨htoken, hmem, hlisted, hpeek, hle, -⟩ := h.peekAt 0
  obtain ⟨htoken', hmem', hlisted', hbump, hle'⟩ := hpeek.bump
  rw [hlisted] at htoken' hlisted'
  unfold TokenStream.eat? TokenStream.peek TokenList.eat?
  dsimp only
  rw [htoken]
  by_cases hkind : ((s.listed tokens).peekAt 0).kind = kind
  · rw [if_pos (beq_iff_eq.mpr hkind), if_pos hkind]
    exact ⟨congrArg some htoken', List.forall_mem_singleton.mpr hmem', hlisted', hbump,
      Nat.le_trans hle hle'⟩
  · rw [if_neg (mt beq_iff_eq.mp hkind), if_neg hkind]
    exact ⟨rfl, List.forall_mem_nil _, hlisted, hpeek, hle⟩

theorem previousEnd (h : s.Buffers tokens) : s.previousEnd = (s.listed tokens).previousEnd := by
  have hle := h.index_le
  unfold TokenStream.previousEnd TokenList.previousEnd
  by_cases hstart : s.index = 0
  · rw [if_pos hstart]
    exact (if_pos hstart).symm
  · have hbefore : s.index - 1 < s.buffer.size := by omega
    rw [if_neg hstart, h.getElem?_buffer hbefore]
    exact (if_neg hstart).symm

theorem rollback (h : s.Buffers tokens) {index : Nat} (hle : index ≤ s.buffer.size)
    (hlt : index < tokens.length) : (s.rollback index).Buffers tokens :=
  ⟨hle, hlt, h.size_le, h.buffer, h.ahead, h.findings, h.eof⟩

end Buffers

/-! ### Sessions

A session is a run of requests, and the answers are compared as a whole, by induction on the
requests. It goes back to markers that it was given, and these are places in the buffer (`InOrder`).
-/

/-- What the session looks like if these are the tokens of its stream. -/
def listedSession (s : StreamSession TokenStream) (tokens : List Token) :
    StreamSession TokenList :=
  ⟨s.reader.listed tokens, s.markers⟩

/-- The stream of the session `Buffers` its tokens, and its markers are places that it has been
at. -/
structure InOrder (s : StreamSession TokenStream) (tokens : List Token) : Prop where
  reader : s.reader.Buffers tokens
  markers : ∀ index ∈ s.markers, index ≤ s.reader.buffer.size ∧ index < tokens.length

variable {s : StreamSession TokenStream} {tokens : List Token}

/-- A session stays `InOrder` with a stream that has buffered at least as much. -/
theorem InOrder.goOn (h : InOrder s tokens) {reader : TokenStream} (hreader : reader.Buffers tokens)
    (hle : s.reader.buffer.size ≤ reader.buffer.size) : InOrder { s with reader } tokens :=
  ⟨hreader, fun index hindex =>
    ⟨Nat.le_trans (h.markers index hindex).1 hle, (h.markers index hindex).2⟩⟩

/-- **One request.** The stream answers as the list does and looks like it afterwards
(`listedSession`). What it gives away is in its buffer, which never shrinks. -/
theorem InOrder.serve (h : InOrder s tokens) (request : StreamRequest) :
    (serve s request).1 = (TokenList.serve (listedSession s tokens) request).1 ∧
      listedSession (serve s request).2 tokens
        = (TokenList.serve (listedSession s tokens) request).2 ∧
      (∀ t ∈ (serve s request).1.tokens, t ∈ (serve s request).2.reader.buffer.toList) ∧
      InOrder (serve s request).2 tokens ∧
      s.reader.buffer.size ≤ (serve s request).2.reader.buffer.size := by
  -- requests that only look keep the index; `bump` and `eat` move it; markers hold indices that
  -- stay good
  cases request with
  | peek | peekAt n =>
    obtain ⟨htoken, hmem, hlisted, hbuffers, hle, -⟩ := h.reader.peekAt _
    refine ⟨congrArg StreamAnswer.token htoken, ?_, List.forall_mem_singleton.mpr hmem,
      h.goOn hbuffers hle, hle⟩
    exact congrArg (StreamSession.mk · s.markers) hlisted
  | nextIs kind =>
    obtain ⟨htoken, -, hlisted, hbuffers, hle, -⟩ := h.reader.peekAt 0
    refine ⟨congrArg (fun t : Token => StreamAnswer.decision (t.kind == kind)) htoken, ?_, nofun,
      h.goOn hbuffers hle, hle⟩
    exact congrArg (StreamSession.mk · s.markers) hlisted
  | bump =>
    obtain ⟨htoken, hmem, hlisted, hbuffers, hle⟩ := h.reader.bump
    refine ⟨congrArg StreamAnswer.token htoken, ?_, List.forall_mem_singleton.mpr hmem,
      h.goOn hbuffers hle, hle⟩
    exact congrArg (StreamSession.mk · s.markers) hlisted
  | eat kind =>
    obtain ⟨htoken, hmem, hlisted, hbuffers, hle⟩ := h.reader.eat? kind
    refine ⟨congrArg StreamAnswer.eaten htoken, ?_, hmem, h.goOn hbuffers hle, hle⟩
    exact congrArg (StreamSession.mk · s.markers) hlisted
  | text t => exact ⟨rfl, rfl, nofun, h, Nat.le_refl _⟩
  | previousEnd =>
    exact ⟨congrArg StreamAnswer.offset h.reader.previousEnd, rfl, nofun, h, Nat.le_refl _⟩
  | marker =>
    refine ⟨rfl, rfl, nofun, ⟨h.reader, fun index hindex => ?_⟩, Nat.le_refl _⟩
    rcases List.mem_append.mp hindex with hindex | hindex
    · exact h.markers index hindex
    · rw [List.mem_singleton.mp hindex]
      exact ⟨h.reader.index_le, h.reader.index_lt⟩
  | rollback number =>
    unfold TokenStream.serve TokenList.serve listedSession
    dsimp only
    cases hmarker : s.markers[number]? with
    | none => exact ⟨rfl, rfl, nofun, h, Nat.le_refl _⟩
    | some index =>
      obtain ⟨hle, hlt⟩ := h.markers index (List.mem_of_getElem? hmarker)
      exact ⟨rfl, rfl, nofun, h.goOn (h.reader.rollback hle hlt) (Nat.le_refl _), Nat.le_refl _⟩

/-- **All requests** (`StreamRequest`). Whatever is asked for, the answers are those of the list.
The induction is on the requests. -/
theorem InOrder.run (h : InOrder s tokens) (requests : List StreamRequest) :
    let stream := StreamSession.run TokenStream.serve requests s
    let list := StreamSession.run TokenList.serve requests (listedSession s tokens)
    stream.1 = list.1 ∧ listedSession stream.2 tokens = list.2 ∧
      (∀ answer ∈ stream.1, ∀ t ∈ answer.tokens, t ∈ stream.2.reader.buffer.toList) ∧
      InOrder stream.2 tokens ∧ s.reader.buffer.size ≤ stream.2.reader.buffer.size := by
  induction requests generalizing s with
  | nil => exact ⟨rfl, rfl, nofun, h, Nat.le_refl _⟩
  | cons request requests ih =>
    obtain ⟨hanswer, hlisted, hmem, hnext, hle⟩ := h.serve request
    obtain ⟨hanswers, hlisted', hmem', hend, hle'⟩ := ih hnext
    rw [hlisted] at hanswers hlisted'
    refine ⟨congrArg₂ List.cons hanswer hanswers, hlisted', ?_, hend, Nat.le_trans hle hle'⟩
    refine List.forall_mem_cons.mpr ⟨fun t ht => ?_, hmem'⟩
    have hbefore := hmem t ht
    rw [hnext.reader.buffer] at hbefore
    -- what is in the buffer stays there
    have hkept : t ∈ (StreamSession.run TokenStream.serve requests
        (TokenStream.serve s request).2).2.reader.buffer.toList := by
      rw [hend.reader.buffer]
      exact (List.take_sublist_take_left hle').subset hbefore
    exact hkept

/-- **Streams are lists.** Let a scan reach the end. Whatever a client asks of a stream over it, the
answers are those of the list of its significant tokens, `eof` last. The diagnostics that are pending
afterwards are those of the tokens in front of some place, each looked at once, and all tokens that
were given away stand in front of it. -/
theorem run_eq {source : String} {scanner : Scanner} {tokens : List Token}
    (h : scanner.listing? = some tokens) (requests : List StreamRequest) :
    let stream := StreamSession.run TokenStream.serve requests ⟨.ofScanner source scanner, []⟩
    let list := StreamSession.run TokenList.serve requests ⟨⟨source, tokens, 0⟩, []⟩
    stream.1 = list.1 ∧ stream.2.markers = list.2.markers ∧
      stream.2.reader.index = list.2.reader.index ∧
      stream.2.reader.previousEnd = list.2.reader.previousEnd ∧
      ∃ k ≤ tokens.length, (∀ answer ∈ stream.1, ∀ t ∈ answer.tokens, t ∈ tokens.take k) ∧
        stream.2.reader.takeFindings.1 = (Findings.ofTokens source (tokens.take k)).reverse := by
  intro stream list
  have hstart : InOrder ⟨.ofScanner source scanner, []⟩ tokens := ⟨.ofScanner h source, nofun⟩
  obtain ⟨hanswers, hlisted, hmem, hend, -⟩ := hstart.run requests
  have hreader : stream.2.reader.listed tokens = list.2.reader := congrArg StreamSession.reader hlisted
  have hsource : stream.2.reader.source = source :=
    (congrArg TokenList.source hreader).trans (TokenList.run_source requests _)
  -- each part is what `InOrder` says of the stream at the end of the run
  refine ⟨hanswers, congrArg StreamSession.markers hlisted, congrArg TokenList.index hreader, ?_,
    stream.2.reader.buffer.size, hend.reader.size_le, ?_, ?_⟩
  · rw [hend.reader.previousEnd, hreader]
  · rw [← hend.reader.buffer]
    exact hmem
  · show stream.2.reader.findings.reverse = _
    rw [hend.reader.findings, hsource]

/-- Reading ahead past the end, going back and asking for `eof` twice, in a part of a file that has a
bad character. -/
theorem run_eq_back_and_forth :
    let source := String.ofList "x\x7b\x7b a # b \x7d\x7d".toList
    let scanner := Scanner.ofRange source 3 9 .interpolation
    let a : Token := ⟨.identifier, ⟨4, 5⟩⟩
    let bad : Token := ⟨.badCharacter, ⟨6, 7⟩⟩
    let b : Token := ⟨.identifier, ⟨8, 9⟩⟩
    let eof : Token := ⟨.eof, ⟨9, 9⟩⟩
    scanner.listing? = some [a, bad, b, eof] ∧
      (StreamSession.run TokenStream.serve
        [.marker, .bump, .peekAt 7, .rollback 0, .eat .identifier, .bump, .eat .eof, .bump, .eat .eof,
          .eat .eof, .previousEnd] ⟨.ofScanner source scanner, []⟩).1
        = [.marker 0, .token a, .token eof, .done, .eaten (some a), .token bad, .eaten none, .token b,
          .eaten (some eof), .eaten (some eof), .offset 9] := by
  intro source scanner a bad b eof
  have htokens : scanner.listing? = some [a, bad, b, eof] := by
    simp only [scanner, source, Scanner.ofRange, Cursor.ofRange, String.toList_ofList]
    decide +kernel
  exact ⟨htokens, (run_eq htokens _).1.trans (by decide +kernel)⟩

/-- The end of the input can be asked for and is given away, but it is never passed, so the request is
answered without moving on. The last token passed stays the same too: were `eof` passed, that would end
behind the blank. -/
theorem eat?_eof_stays :
    let s := ofSource (String.ofList [' '])
    (s.eat? .eof).1 = some ⟨.eof, ⟨1, 1⟩⟩ ∧
      ¬ (∀ kind, (s.eat? kind).2.index = s.index + if s.peek.1.kind = kind then 1 else 0) ∧
      (s.eat? .eof).2.previousEnd ≠ 1 := by
  intro s
  have hs : s = ofScanner (String.ofList [' ']) (.behind [] [' '] .initial) := by
    rw [← String.toList_ofList (l := [' ']), ← Scanner.ofSource_eq_behind, String.toList_ofList]
    rfl
  rw [hs]
  refine ⟨by decide +kernel, fun hall => ?_, by decide +kernel⟩
  have heof := hall .eof
  revert heof
  decide +kernel

end TokenStream

end RsxInspect
