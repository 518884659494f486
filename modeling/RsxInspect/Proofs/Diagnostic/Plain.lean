import RsxInspect.Proofs.Diagnostic.Wording

/-!
# Plain diagnostics

Most problems can be seen at the piece or the section that has them. The others are that a token has
no place at all, and that an element or a block and what closes it do not fit together
(`Problem.isImbalance`). A diagnostic of any problem but these is `Plain`. Readers of pieces report
plain diagnostics only, so they take part neither in what is said of tokens without a place
(`Diagnostic.Plain.placed`) nor in the counts of what is left open (`Diagnostic.Plain.balanced`).
-/

namespace RsxInspect

namespace Diagnostic

/-- A block is left open, which is its own kind of diagnostic. -/
def isUnterminatedDirective (d : Diagnostic) : Bool := d.kind == .unterminatedDirective

/-- A closer does not fit what is open, which is its own kind as well. -/
def isMismatchedClose (d : Diagnostic) : Bool := d.kind == .mismatchedDirectiveClose

/-- A tag is missing (`missingTagClose`), and the message says that something is never closed. The
kind alone would not tell. -/
def isNeverClosed (d : Diagnostic) : Bool :=
  d.kind == .missingTagClose && endsWith "is never closed".toList d.message.toList

end Diagnostic

/-- Bad characters do not count for what is left open. -/
theorem Diagnostic.balanced_of_bad {d : Diagnostic} (h : d.kind = .badCharacter) :
    d.isUnterminatedDirective = false ∧ d.isMismatchedClose = false ∧ d.isNeverClosed = false := by
  simp [isUnterminatedDirective, isMismatchedClose, isNeverClosed, h]

namespace Problem

/-- Whether a problem is that an element or a block does not fit what closes it: left open, closed
over something, or closed without being open. -/
def isImbalance : Problem → Bool
  | closerOver _ _ | closerAlone _ | unclosedElement _ | unclosedDirective _ => true
  | _ => false

/-- Whether a problem is neither that of a token without a place (`isUnplaced`) nor that of an
imbalance. -/
def isPlain (p : Problem) : Bool := !p.isUnplaced && !p.isImbalance

variable {p : Problem}

/-- A closer that does not fit (`.mismatchedDirectiveClose`) is reported as such, where it stands,
and counts for nothing that is left open. -/
theorem counts_mismatched (h : p.kind = .mismatchedDirectiveClose) (span : Span) :
    [p.on span].countP (·.isUnterminatedDirective) = 0 ∧
      [p.on span].countP (·.isNeverClosed) = 0 ∧
      ([p.on span].filter (·.isMismatchedClose)).map Diagnostic.span = [span] := by
  simp [Diagnostic.isUnterminatedDirective, Diagnostic.isNeverClosed, Diagnostic.isMismatchedClose,
    on, h]

theorem isNeverClosed_unclosedElement (name : String) (span : Span) :
    ((unclosedElement name).on span).isNeverClosed = true := by
  have hends : "is never closed".toList <:+ (unclosedElement name).message.toList := by
    refine ⟨("`<" ++ name ++ ">` ").toList, ?_⟩
    unfold message
    simp [toString_self]
  have hmark : endsWith "is never closed".toList (unclosedElement name).message.toList = true :=
    List.isPrefixOf_iff_prefix.mpr (List.reverse_prefix.mpr hends)
  unfold Diagnostic.isNeverClosed
  rw [Bool.and_eq_true]
  exact ⟨rfl, hmark⟩

/-- The other messages on missing tags end in something else, so only these are `isNeverClosed`. -/
theorem not_isNeverClosed (h : p.isImbalance = false) (span : Span) :
    (p.on span).isNeverClosed = false := by
  refine Bool.eq_false_iff.mpr fun hnot => ?_
  rw [Diagnostic.isNeverClosed, Bool.and_eq_true] at hnot
  obtain ⟨hkind, hmark⟩ := hnot
  have hends : "is never closed".toList <:+ p.message.toList :=
    List.reverse_prefix.mp (List.isPrefixOf_iff_prefix.mp hmark)
  have hback : ['o', 's', 'e', 'd'] <:+ p.message.toList :=
    .trans ⟨"is never cl".toList, by simp⟩ hends
  cases p with
  | openTagWithoutEnd text | startTagWithoutEnd text | endTagWithoutEnd =>
    unfold message at hback
    simp [toString_self, ← List.reverse_prefix] at hback
  | unclosedElement name => cases h
  | _ => cases hkind

end Problem

namespace Diagnostic

/-- A diagnostic of a plain problem (`Problem.isPlain`). -/
def Plain (d : Diagnostic) : Prop := ∃ p span, p.isPlain = true ∧ d = Problem.on p span

variable {d : Diagnostic}

theorem Plain.placed (h : d.Plain) : d.Placed := by
  obtain ⟨p, span, hp, rfl⟩ := h
  have hplaced := (Bool.and_eq_true_iff.mp hp).1
  exact Problem.placed (by simpa using hplaced) span

/-- What is `Plain` does not count for what is left open. -/
theorem Plain.balanced (h : d.Plain) : d.isUnterminatedDirective = false ∧
    d.isMismatchedClose = false ∧ d.isNeverClosed = false := by
  obtain ⟨p, span, hp, rfl⟩ := h
  have hbalanced : p.isImbalance = false := by
    simpa using (Bool.and_eq_true_iff.mp hp).2
  refine ⟨?_, ?_, Problem.not_isNeverClosed hbalanced span⟩
  all_goals cases p <;> first | rfl | cases hbalanced

end Diagnostic

theorem Problem.plain {p : Problem} (h : p.isPlain = true) (span : Span) : (p.on span).Plain :=
  ⟨p, span, h, rfl⟩

/-- All of the diagnostics are `Plain`. -/
def AllPlain (ds : List Diagnostic) : Prop := ∀ d ∈ ds, d.Plain

namespace AllPlain

variable {ds es : List Diagnostic} {d : Diagnostic} {p : Problem}

theorem nil : AllPlain [] := fun _ hd => (nomatch hd)

theorem cons (hd : d.Plain) (h : AllPlain ds) : AllPlain (d :: ds) := by
  intro e he
  rcases List.mem_cons.mp he with rfl | he
  · exact hd
  · exact h e he

theorem single (hd : d.Plain) : AllPlain [d] := cons hd nil

theorem append (hd : AllPlain ds) (he : AllPlain es) : AllPlain (ds ++ es) := by
  intro e hmem
  exact (List.mem_append.mp hmem).elim (hd e) (he e)

/-- A problem that may be there or not. -/
theorem ite {c : Prop} [Decidable c] (hd : AllPlain ds) (he : AllPlain es) :
    AllPlain (if c then ds else es) := by
  split
  · exact hd
  · exact he

theorem onRun? (h : p.isPlain = true) (run : List Token) : AllPlain (p.onRun? run) := by
  unfold Problem.onRun?
  cases Span.ofRun? run with
  | none => exact nil
  | some span => exact single (Problem.plain h span)

theorem placed (h : AllPlain ds) : AllPlaced ds := fun d hd => (h d hd).placed

/-- Diagnostics that are `AllPlain` do not count for what is left open, so the counts and filters of
a list of them are empty. -/
theorem balanced (h : AllPlain ds) : ds.filter (·.isUnterminatedDirective) = [] ∧
    ds.filter (·.isMismatchedClose) = [] ∧ ds.filter (·.isNeverClosed) = [] := by
  have hnone : ∀ p : Diagnostic → Bool, (∀ d, d.Plain → p d = false) → ds.filter p = [] := by
    intro p hp
    refine List.filter_eq_nil_iff.mpr fun d hd => ?_
    rw [hp d (h d hd)]
    decide
  exact ⟨hnone _ fun d hd => hd.balanced.1, hnone _ fun d hd => hd.balanced.2.1,
    hnone _ fun d hd => hd.balanced.2.2⟩

end AllPlain

/-! ### Lexical problems -/

theorem lexicalProblem?_plain {kind : TokenKind} {text : String} {p : Problem}
    (h : lexicalProblem? kind text = some p) : p.isPlain = true := by
  unfold lexicalProblem? at h
  dsimp only at h
  -- all of them are problems of literals, comments or bad characters
  repeat' split at h
  all_goals
    cases h
    try rfl

theorem Token.anomaly?_plain {t : Token} {source : String} {d : Diagnostic}
    (h : t.anomaly? source = some d) : d.Plain := by
  obtain ⟨p, hp, rfl⟩ := Option.map_eq_some_iff.mp h
  exact Problem.plain (lexicalProblem?_plain hp) t.span

theorem allPlain_anomalies (source : String) (ts : List Token) :
    AllPlain (ts.filterMap (·.anomaly? source)) := by
  intro d hd
  obtain ⟨t, -, ht⟩ := List.mem_filterMap.mp hd
  exact Token.anomaly?_plain ht

end RsxInspect
