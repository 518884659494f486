import RsxInspect.Proofs.Scan.Spacing

/-!
# Traces of tokens

`Trace m ts` says that the tokens `ts` can be the significant ones that a scan in mode `m` reads, as
far as their kinds go: there is a `Transition` for each of them. Blanks leave the mode as it is, so
a reader that sees only the other tokens still knows which kinds can come next.

The tokens of a file are a trace (`trace_significantTokens`), since those of any run are
(`Reads.trace`).
-/

namespace RsxInspect

/-- The closing tag of a template leads out of it, to `.initial`. -/
theorem Transition.eq_initial {m n : Mode} (h : Transition m .templateClose n) : n = .initial := by
  cases h with
  | expression h => exact absurd h (by decide)
  | keyword h => exact absurd h (by decide)
  | plainExpression h => exact absurd h (by decide)
  | _ => rfl

/-- None of the tokens is blank, and a scan in the given mode can read their kinds one after the
other, by a `Transition` for each. -/
inductive Trace : Mode → List Token → Prop where
  | nil (m : Mode) : Trace m []
  | cons {m n : Mode} {t : Token} {ts : List Token} (significant : t.kind ≠ .whitespace)
      (h : Transition m t.kind n) (rest : Trace n ts) : Trace m (t :: ts)

namespace Trace

variable {m : Mode} {t : Token} {ts us : List Token}

theorem of_cons (h : Trace m (t :: ts)) : ∃ n, Transition m t.kind n ∧ Trace n ts := by
  cases h with
  | cons _ h rest => exact ⟨_, h, rest⟩

/-- What is left of a `Trace` is one, in the mode that the tokens before lead to. -/
theorem of_suffix (h : Trace m ts) (hus : us <:+ ts) : ∃ n, Trace n us := by
  induction h with
  | nil m =>
    rw [List.suffix_nil.mp hus]
    exact ⟨m, .nil m⟩
  | cons significant h rest ih =>
    rcases List.suffix_cons_iff.mp hus with rfl | hus
    · exact ⟨_, .cons significant h rest⟩
    · exact ih hus

theorem kind_ne_whitespace (h : Trace m (t :: ts)) : t.kind ≠ .whitespace := by
  cases h with
  | cons significant => exact significant

theorem kind_ne_eof (h : Trace m (t :: ts)) : t.kind ≠ .eof := by
  obtain ⟨n, hstep, -⟩ := h.of_cons
  exact hstep.kind_ne_eof

/-- Wherever the closing tag of a template counts, it may stand in markup as well: it always leads
to `initial`. -/
theorem template_of_close (h : Trace m (t :: ts)) (ht : t.kind = .templateClose) :
    Trace .template (t :: ts) := by
  obtain ⟨n, hstep, hrest⟩ := h.of_cons
  rw [ht] at hstep
  rw [hstep.eq_initial] at hrest
  exact .cons h.kind_ne_whitespace (by rw [ht]; exact .templateEnd) hrest

end Trace

namespace Scanner

/-- What a scanner reads is a `Transition` of its mode, up to the end of its window. -/
theorem transition_of_rest {s : Scanner} (hrest : s.cursor.rest ≠ []) :
    Transition s.state.mode s.next.1.kind s.next.2.state.mode := by
  have htransition := lex_transition s.state s.cursor.before hrest
  obtain ⟨c, cs, hcs⟩ := List.exists_cons_of_ne_nil hrest
  rw [hcs] at htransition
  unfold next
  rw [hcs]
  exact htransition

/-- What a scanner that gets on reads is a `Transition` of its mode. -/
theorem transition_next {s : Scanner} (hmove : s.offset < s.next.2.offset) :
    Transition s.state.mode s.next.1.kind s.next.2.state.mode :=
  transition_of_rest (rest_ne_nil_of_moves hmove)

/-- The significant tokens of a run are a trace from its mode, by induction on `Reads`. -/
theorem Reads.trace {s s' : Scanner} {ts : List Token} (h : Reads s ts s') :
    Trace s.state.mode (significant ts) := by
  induction h with
  | done s => exact .nil _
  | step hmove _ ih =>
    rename_i s _ _ _
    have hstep := transition_next hmove
    by_cases hkind : s.next.1.kind = .whitespace
    · rw [significant_cons_of_blank hkind]
      rw [hkind] at hstep
      rw [hstep.eq_of_whitespace]
      exact ih
    · rw [significant_cons hkind]
      exact .cons hkind hstep ih

/-- Every token of a run is read at some call, in a mode in which its kind can stand: the call is
its index. -/
theorem Reads.exists_tokenAt {s s' : Scanner} {ts : List Token} (h : Reads s ts s') {t : Token}
    (ht : t ∈ ts) : ∃ k, s.tokenAt k = t ∧
      Transition (s.after k).state.mode t.kind (s.after (k + 1)).state.mode := by
  induction h with
  | done s => cases ht
  | step hmove _ ih =>
    rename_i s _ _ _
    rcases List.mem_cons.mp ht with rfl | ht
    · exact ⟨0, rfl, transition_next hmove⟩
    · obtain ⟨k, htoken, hstep⟩ := ih ht
      rw [tokenAt, after_next] at htoken
      rw [after_next, after_next] at hstep
      exact ⟨k + 1, htoken, hstep⟩

end Scanner

/-- The `significantTokens` of a file are a `Trace` from its start. -/
theorem trace_significantTokens (source : String) :
    Trace .initial (significantTokens source) :=
  (Scanner.ofSource source).reads_toEnd.trace

end RsxInspect
