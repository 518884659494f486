import RsxInspect.Document
import RsxInspect.Proofs.Diagnostic.Log

/-!
# Logs of which one is silent about something

Two readers of a file report the same, save that the second one is silent about some problems. What
they report becomes a log each, and a log folds bad characters that touch; so what the second one is
silent about must not have kept two bad characters apart. Bad characters are reported in groups, and
every group stands behind those before it without touching them, so this cannot happen: the second
log is the first one without the problems in question (`Findings.Silenced.recordAll`).

The relation `Silenced` is put together as reports are: `Silenced.append`, `Silenced.same`,
`Silenced.all`. What holds of the logs is then true of them in the order of their start offsets
(`Document.inOrder_sublist`).
-/

namespace RsxInspect

/-- The diagnostics `off` are `on` without those of `lost`, none of which is a bad character. The bad
characters among them come in groups, each of which stands strictly behind the one before it; the
first one stands behind `a`, and the last one ends at `b` or before. -/
inductive Silenced : Nat → List Diagnostic → List Diagnostic → List Diagnostic → Nat → Prop where
  | none (a : Nat) : Silenced a [] [] [] a
  | kept {a b : Nat} {d : Diagnostic} {lost on off : List Diagnostic} (hd : d.kind ≠ .badCharacter)
      (rest : Silenced a lost on off b) : Silenced a lost (d :: on) (d :: off) b
  | lost {a b : Nat} {d : Diagnostic} {lost on off : List Diagnostic} (hd : d.kind ≠ .badCharacter)
      (rest : Silenced a lost on off b) : Silenced a (d :: lost) (d :: on) off b
  | group {a b c : Nat} {ds lost on off : List Diagnostic} (hac : a ≤ c)
      (hds : ∀ d ∈ ds, d.kind = .badCharacter → a < d.span.start ∧ d.span.stop ≤ c)
      (rest : Silenced c lost on off b) : Silenced a lost (ds ++ on) (ds ++ off) b

namespace Silenced

variable {a b c : Nat} {lost more ds on off on' off' : List Diagnostic}

theorem append (h : Silenced a lost on off b) (h' : Silenced b more on' off' c) :
    Silenced a (lost ++ more) (on ++ on') (off ++ off') c := by
  induction h with
  | none => exact h'
  | kept hd _ ih => exact .kept hd (ih h')
  | lost hd _ ih => exact .lost hd (ih h')
  | group hac hds _ ih =>
    rw [List.append_assoc, List.append_assoc]
    exact .group hac hds (ih h')

/-- Both report the same, and no bad characters, so nothing is lost and the place `a` stays. -/
theorem same (a : Nat) (h : ∀ d ∈ ds, d.kind ≠ .badCharacter) : Silenced a [] ds ds a := by
  induction ds with
  | nil => exact .none a
  | cons d ds ih =>
    obtain ⟨hd, hds⟩ := List.forall_mem_cons.mp h
    exact .kept hd (ih hds)

/-- The second one reports nothing, and what is lost has no bad character in it. -/
theorem all (a : Nat) (h : ∀ d ∈ ds, d.kind ≠ .badCharacter) : Silenced a ds ds [] a := by
  induction ds with
  | nil => exact .none a
  | cons d ds ih =>
    obtain ⟨hd, hds⟩ := List.forall_mem_cons.mp h
    exact .lost hd (ih hds)

/-- The first one reports something first that both report. -/
theorem before (h : Silenced a lost on off b) (hds : ∀ d ∈ ds, d.kind ≠ .badCharacter) :
    Silenced a lost (ds ++ on) (ds ++ off) b := (same a hds).append h

theorem behind (h : Silenced a lost on off b) (hds : ∀ d ∈ ds, d.kind ≠ .badCharacter) :
    Silenced a lost (on ++ ds) (off ++ ds) b := by
  have happend := h.append (same b hds)
  rwa [List.append_nil] at happend

end Silenced

/-! ### Logs

A log may fold bad characters that touch, so the runs of both logs have to fold in the same way.
`Silenced` says that they do, as long as no bad character is left out. -/

namespace Findings

variable {source : String} {log on off : Findings} {a b : Nat} {lost more ds es : List Diagnostic}

/-- What is recorded does not change what is in the log, if bad characters do not touch: `recordAll`
folds nothing into it. -/
theorem recordAll_append (h : ∀ d ∈ ds, d.kind = .badCharacter →
      ∀ e ∈ log, e.kind = .badCharacter → e.span.stop ≠ d.span.start) :
    log.recordAll source ds = recordAll source [] ds ++ log := by
  -- the same, with what was recorded of the group in front of the log
  suffices hfront : ∀ front : Findings,
      recordAll source (front ++ log) ds = recordAll source front ds ++ log from hfront []
  induction ds with
  | nil => exact fun front => rfl
  | cons d ds ih =>
    obtain ⟨hd, hds⟩ := List.forall_mem_cons.mp h
    intro front
    have hrecord : record source (front ++ log) d = record source front d ++ log := by
      cases front with
      | nil =>
        cases log with
        | nil => rfl
        | cons last older =>
          refine if_neg fun hfold => ?_
          rw [Bool.and_eq_true, Bool.and_eq_true, beq_iff_eq, beq_iff_eq, beq_iff_eq] at hfold
          obtain ⟨⟨hbad, hlast⟩, htouch⟩ := hfold
          exact hd hbad last (List.mem_cons_self ..) hlast htouch
      | cons last older =>
        show record source (last :: (older ++ log)) d = record source (last :: older) d ++ log
        unfold record
        dsimp only
        split <;> rfl
    show recordAll source (record source (front ++ log) d) ds = _
    rw [hrecord]
    exact ih hds _

/-- The log `off` is `on` without the diagnostics of `lost`, and bad characters end at `a` or
before, so what starts behind `a` touches none. -/
structure Silenced (a : Nat) (lost : List Diagnostic) (on off : Findings) : Prop where
  kept : off.Sublist on
  perm : on.Perm (lost ++ off)
  stop : ∀ d ∈ on, d.kind = .badCharacter → d.span.stop ≤ a

theorem silenced_empty : Silenced 0 [] [] [] :=
  ⟨List.Sublist.refl _, .refl _, fun _ hd => (nomatch hd)⟩

namespace Silenced

/-- **Recording** (`recordAll`). What the second one of two readers is silent about does not get
into its log, and nothing else is lost of it. -/
theorem recordAll (h : Silenced a lost on off) (hds : RsxInspect.Silenced a more ds es b) :
    Silenced b (lost ++ more) (on.recordAll source ds) (off.recordAll source es) := by
  induction hds generalizing lost on off with
  | none => rwa [List.append_nil]
  | @kept a b d more ds es hd _ ih =>
    show Silenced b _ (Findings.recordAll source (on.record source d) ds)
      (Findings.recordAll source (off.record source d) es)
    rw [record_of_not_bad hd, record_of_not_bad hd]
    refine ih ⟨h.kept.cons_cons d, (h.perm.cons d).trans List.perm_middle.symm, ?_⟩
    exact List.forall_mem_cons.mpr ⟨fun hbad => absurd hbad hd, h.stop⟩
  | @lost a b d more ds es hd _ ih =>
    show Silenced b _ (Findings.recordAll source (on.record source d) ds) _
    rw [record_of_not_bad hd, List.append_cons]
    refine ih ⟨h.kept.cons d, ?_, List.forall_mem_cons.mpr ⟨fun hbad => absurd hbad hd, h.stop⟩⟩
    rw [← List.append_cons]
    exact (h.perm.cons d).trans List.perm_middle.symm
  | @group a b c group more ds es hac hgroup _ ih =>
    -- the group is folded on its own
    have hapart : ∀ log : Findings, (∀ e ∈ log, e ∈ on) →
        Findings.recordAll source log group = Findings.recordAll source [] group ++ log := by
      intro log hlog
      refine recordAll_append fun d hd hbad e he hebad => Nat.ne_of_lt ?_
      exact Nat.lt_of_le_of_lt (h.stop e (hlog e he) hebad) (hgroup d hd hbad).1
    show Silenced b _ ((group ++ ds).foldl (record source) on)
      ((group ++ es).foldl (record source) off)
    rw [List.foldl_append, List.foldl_append]
    show Silenced b _ (Findings.recordAll source (on.recordAll source group) ds)
      (Findings.recordAll source (off.recordAll source group) es)
    rw [hapart on fun e he => he, hapart off fun e he => h.kept.subset he]
    refine ih ⟨h.kept.append_left _, ?_, List.forall_mem_append.mpr ⟨?_, fun d hd hbad => ?_⟩⟩
    · exact (h.perm.append_left _).trans (List.perm_append_comm_assoc ..)
    · exact stop_recordAll (fun _ hd => (nomatch hd)) fun d hd hbad => (hgroup d hd hbad).2
    · exact Nat.le_trans (h.stop d hd hbad) hac

end Silenced

end Findings

/-! ### Diagnostics in order

Sorting is stable, so leaving out diagnostics and then sorting gives a sublist of what is sorted
(`inOrder_sublist`). -/

namespace Document

/-- A diagnostic is put behind those that start before it and in front of all others, which is what
`inOrder` does with one more. -/
theorem inOrder_cons (d : Diagnostic) (ds : List Diagnostic) :
    let before := (inOrder ds).filter fun e => !decide (d.span.start ≤ e.span.start)
    let behind := (inOrder ds).filter fun e => decide (d.span.start ≤ e.span.start)
    inOrder ds = before ++ behind ∧ inOrder (d :: ds) = before ++ d :: behind := by
  have htrans : ∀ x y z : Diagnostic, decide (x.span.start ≤ y.span.start) = true →
      decide (y.span.start ≤ z.span.start) = true → decide (x.span.start ≤ z.span.start) = true :=
    fun x y z hxy hyz => decide_eq_true (Nat.le_trans (of_decide_eq_true hxy) (of_decide_eq_true hyz))
  have htotal : ∀ x y : Diagnostic, (decide (x.span.start ≤ y.span.start)
      || decide (y.span.start ≤ x.span.start)) = true := by
    intro x y
    rw [Bool.or_eq_true, decide_eq_true_iff, decide_eq_true_iff]
    exact Nat.le_total _ _
  obtain ⟨before, behind, hsorted, hrest, hbefore⟩ := List.mergeSort_cons htrans htotal d ds
  have hrest : inOrder ds = before ++ behind := hrest
  have hbehind : ∀ e ∈ behind, decide (d.span.start ≤ e.span.start) = true := by
    have hpairwise := List.pairwise_mergeSort htrans htotal (d :: ds)
    rw [hsorted] at hpairwise
    exact (List.pairwise_cons.mp (List.pairwise_append.mp hpairwise).2.1).1
  -- the two parts can be told apart
  have hfront : (inOrder ds).filter (fun e => !decide (d.span.start ≤ e.span.start)) = before := by
    rw [hrest, List.filter_append, List.filter_eq_self.mpr hbefore,
      List.filter_eq_nil_iff.mpr fun e he => by simp [of_decide_eq_true (hbehind e he)],
      List.append_nil]
  have hback : (inOrder ds).filter (fun e => decide (d.span.start ≤ e.span.start)) = behind := by
    rw [hrest, List.filter_append, List.filter_eq_self.mpr hbehind,
      List.filter_eq_nil_iff.mpr fun e he => by simpa using hbefore e he, List.nil_append]
  rw [hfront, hback]
  exact ⟨hrest, hsorted⟩

/-- Fewer diagnostics are in the same order (`inOrder` is a stable sort), by induction on the
sublist. -/
theorem inOrder_sublist {ds es : List Diagnostic} (h : ds.Sublist es) :
    (inOrder ds).Sublist (inOrder es) := by
  induction h with
  | slnil => exact List.Sublist.refl _
  | @cons ds es d _ ih =>
    obtain ⟨hrest, hall⟩ := inOrder_cons d es
    rw [hall]
    rw [hrest] at ih
    exact ih.trans ((List.sublist_cons_self d _).append_left _)
  | @cons_cons ds es d _ ih =>
    rw [(inOrder_cons d ds).2, (inOrder_cons d es).2]
    exact (ih.filter _).append ((ih.filter _).cons_cons d)

end Document

end RsxInspect
