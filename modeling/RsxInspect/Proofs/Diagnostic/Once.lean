import RsxInspect.Proofs.Diagnostic.Log
import RsxInspect.Proofs.Template.Ordered

/-!
# Reported once

Tokens follow each other, and so do the lexical problems that are recorded of them, folded or not. So
the log holds one diagnostic on a token that has a problem, and no other one of its kind meets the
token (`Findings.exists_only`). Folding does not bring diagnostics to places where there are none of
their kind (`Findings.not_meets_recordAll`).
-/

namespace RsxInspect

/-- The spans have a byte in common, or one of them is an empty one inside of the other. -/
def Span.meets (s t : Span) : Bool := s.start < t.stop && t.start < s.stop

theorem Span.meets_iff {s t : Span} : s.meets t = true ↔ s.start < t.stop ∧ t.start < s.stop := by
  rw [meets, Bool.and_eq_true, decide_eq_true_iff, decide_eq_true_iff]

/-- Of things whose spans follow each other (`Span.Ordered`), one that passes is the only one if
nothing passes in front of it and behind it. -/
theorem Span.Ordered.filter_eq_singleton {α : Type} {f : α → Span} {p : α → Bool} {xs : List α} {x : α}
    {a b : Nat} (h : Span.Ordered a (xs.map f) b) (hx : x ∈ xs) (hp : p x = true)
    (hmeets : ∀ y, p y = true → (f y).meets (f x) = true) : xs.filter p = [x] := by
  obtain ⟨before, behind, rfl⟩ := List.append_of_mem hx
  rw [List.map_append, List.map_cons] at h
  obtain ⟨c, hbefore, hstart, -, hbehind⟩ := append_iff.mp h
  have hnone : before.filter p = [] ∧ behind.filter p = [] := by
    refine ⟨List.filter_eq_nil_iff.mpr fun y hy hpass => ?_,
      List.filter_eq_nil_iff.mpr fun y hy hpass => ?_⟩
    · have := (hbefore.mem (List.mem_map_of_mem hy)).2.2
      have := (Span.meets_iff.mp (hmeets y hpass)).2
      omega
    · have := (hbehind.mem (List.mem_map_of_mem hy)).1
      have := (Span.meets_iff.mp (hmeets y hpass)).1
      omega
  rw [List.filter_append, List.filter_cons_of_pos hp, hnone.1, hnone.2, List.nil_append]

namespace Findings

variable {source : String} {log : Findings} {d : Diagnostic} {ds : List Diagnostic} {a b c : Nat}

/-- A diagnostic behind all that is in the log keeps the log in order (`Span.Ordered`), folded into
its last entry or not. -/
theorem ordered_record (hlog : Span.Ordered a (log.reverse.map Diagnostic.span) b)
    (hstart : b ≤ d.span.start) (hnonempty : d.span.start < d.span.stop) :
    Span.Ordered a ((log.record source d).reverse.map Diagnostic.span) d.span.stop := by
  unfold record
  cases log with
  | nil => exact ⟨Nat.le_trans hlog hstart, hnonempty, Nat.le_refl _⟩
  | cons last older =>
    dsimp only
    split
    · -- what is folded starts with the last one and ends with the new one
      rw [List.reverse_cons, List.map_append] at hlog ⊢
      obtain ⟨m, holder, hlast, hnonempty', hstop⟩ := Span.Ordered.append_iff.mp hlog
      have hstop : last.span.stop ≤ b := hstop
      refine Span.Ordered.append_iff.mpr ⟨m, holder, ?_, ?_, ?_⟩
      · show m ≤ min last.span.start d.span.start
        omega
      · show min last.span.start d.span.start < max last.span.stop d.span.stop
        omega
      · show max last.span.stop d.span.stop ≤ d.span.stop
        omega
    · rw [List.reverse_cons, List.map_append]
      exact (hlog.mono hstart).push hnonempty

theorem ordered_recordAll (hlog : Span.Ordered a (log.reverse.map Diagnostic.span) b)
    (hds : Span.Ordered b (ds.map Diagnostic.span) c) :
    Span.Ordered a ((log.recordAll source ds).reverse.map Diagnostic.span) c := by
  induction ds generalizing log b with
  | nil => exact hlog.mono hds
  | cons d ds ih =>
    obtain ⟨hstart, hnonempty, hrest⟩ := hds
    exact ih (ordered_record hlog hstart hnonempty) hrest

/-- What is wrong with tokens (`Token.anomaly?`) stands where they stand, so the spans of their
anomalies are some of theirs. -/
theorem map_span_anomalies (source : String) (ts : List Token) :
    ((ts.filterMap (·.anomaly? source)).map Diagnostic.span).Sublist (ts.map Token.span) := by
  induction ts with
  | nil => exact .slnil
  | cons t ts ih =>
    rw [List.filterMap_cons]
    cases hanomaly : t.anomaly? source with
    | none => exact ih.cons _
    | some d =>
      obtain ⟨p, -, rfl⟩ := Option.map_eq_some_iff.mp hanomaly
      exact ih.cons_cons _

/-- **One report on each token.** Of tokens that follow each other, let one have a problem. It is
covered by a diagnostic of its kind (`Covers`), and no other one of that kind `meets` the token. -/
theorem exists_only {ts : List Token} (hts : Span.Ordered a (ts.map Token.span) b) {t : Token}
    (ht : t ∈ ts) (hd : t.anomaly? source = some d) :
    ∃ e, (ofTokens source ts).filter (fun x => x.kind == d.kind && x.span.meets t.span) = [e] ∧
      Covers e d := by
  have hmem : d ∈ ts.filterMap (·.anomaly? source) := List.mem_filterMap.mpr ⟨t, ht, hd⟩
  have hspan : d.span = t.span := by
    obtain ⟨p, -, rfl⟩ := Option.map_eq_some_iff.mp hd
    rfl
  obtain ⟨e, he, hcovers⟩ : ∃ e ∈ ofTokens source ts, Covers e d := exists_covering (.inl hmem)
  have hnonempty := (hts.mem (List.mem_map_of_mem ht)).2.1
  have hover : e.span.start ≤ t.span.start ∧ t.span.stop ≤ e.span.stop := hspan ▸ hcovers.2
  have hordered : Span.Ordered a ((ofTokens source ts).reverse.map Diagnostic.span) b :=
    ordered_recordAll (Nat.le_refl a) (hts.sublist (map_span_anomalies source ts))
  have honly : (ofTokens source ts).reverse.filter
      (fun x => x.kind == d.kind && x.span.meets t.span) = [e] := by
    -- two entries that both meet `t` overlap, and the entries of a log are ordered
    refine hordered.filter_eq_singleton (List.mem_reverse.mpr he) ?_ fun x hx => ?_
    · rw [Bool.and_eq_true, beq_iff_eq, Span.meets_iff]
      exact ⟨hcovers.1, by omega, by omega⟩
    · rw [Bool.and_eq_true, Span.meets_iff] at hx
      rw [Span.meets_iff]
      omega
  rw [List.filter_reverse] at honly
  exact ⟨e, List.reverse_inj.mp (honly.trans List.reverse_singleton.symm), hcovers⟩

/-- Where nothing of a kind is reported, nothing of that kind is in what `recordAll` makes of it:
folding covers only what was bad on both sides of a seam. -/
theorem not_meets_recordAll {s : Span} {kind : DiagnosticKind} (hs : s.start < s.stop)
    (hds : ∀ d ∈ ds, d.kind = kind → d.span.start ≤ d.span.stop ∧ d.span.meets s = false) :
    ∀ d ∈ recordAll source [] ds, d.kind = kind → d.span.meets s = false := by
  -- meeting is not preserved by folding, standing apart on one side is; hence the disjunction
  have hall : ∀ d ∈ recordAll source [] ds, d.kind = kind →
      d.span.start ≤ d.span.stop ∧ (d.span.stop ≤ s.start ∨ s.stop ≤ d.span.start) := by
    refine forall_recordAll (fun x y hx hy htouch hxs hys message hkind => ?_)
      (List.forall_mem_nil _) fun d hd hkind => ?_
    · obtain ⟨hle, hapart⟩ := hxs (hx.trans hkind)
      obtain ⟨hle', hapart'⟩ := hys (hy.trans hkind)
      show min x.span.start y.span.start ≤ max x.span.stop y.span.stop ∧
        (max x.span.stop y.span.stop ≤ s.start ∨ s.stop ≤ min x.span.start y.span.start)
      omega
    · obtain ⟨hle, hmeets⟩ := hds d hd hkind
      have hapart := mt Span.meets_iff.mpr (Bool.eq_false_iff.mp hmeets)
      omega
  intro d hd hkind
  obtain ⟨-, hapart⟩ := hall d hd hkind
  refine Bool.eq_false_iff.mpr fun hmeets => ?_
  have := Span.meets_iff.mp hmeets
  omega

end Findings

end RsxInspect
