import RsxInspect.Diagnostic.Findings
import RsxInspect.Proofs.Text.Slice

/-!
# What a log keeps

The log folds bad characters that touch, and keeps all other diagnostics as they are: recording never
empties it (`Findings.recordAll_eq_nil_iff`), and the diagnostics that are no bad characters stand in
it one for one, newest first (`Findings.filter_recordAll`). What is folded is still covered by a
diagnostic of its kind (`Findings.exists_covering`), and its span fits as those that it is folded of
(`Findings.recordAll_fits`).
-/

namespace RsxInspect.Findings

variable {source : String} {log : Findings} {d : Diagnostic} {ds : List Diagnostic}
  {p : Diagnostic → Bool}

theorem record_ne_nil : log.record source d ≠ [] := by
  unfold record
  split
  · exact List.cons_ne_nil _ _
  · split <;> exact List.cons_ne_nil _ _

/-- A log is empty only if nothing was recorded: `recordAll` never takes anything out. -/
theorem recordAll_eq_nil_iff : log.recordAll source ds = [] ↔ log = [] ∧ ds = [] := by
  cases ds with
  | nil => exact (and_iff_left rfl).symm
  | cons d ds =>
    constructor
    · intro h
      have hnever : ∀ (ds : List Diagnostic) (log : Findings), log ≠ [] →
          log.recordAll source ds ≠ [] := by
        intro ds
        induction ds with
        | nil => exact fun log hlog => hlog
        | cons d ds ih => exact fun log _ => ih _ record_ne_nil
      exact absurd h (hnever ds _ record_ne_nil)
    · exact fun h => nomatch h.2

/-- A diagnostic that is no bad character is recorded (`Findings.record`) as it is. -/
theorem record_of_not_bad (h : d.kind ≠ .badCharacter) (log : Findings) :
    log.record source d = d :: log := by
  unfold record
  cases log with
  | nil => rfl
  | cons last older =>
    refine if_neg fun hfold => h ?_
    rw [Bool.and_eq_true, Bool.and_eq_true, beq_iff_eq] at hfold
    exact hfold.1.1

theorem recordAll_of_not_bad (h : ∀ d ∈ ds, d.kind ≠ .badCharacter) (log : Findings) :
    log.recordAll source ds = ds.reverse ++ log := by
  induction ds generalizing log with
  | nil => rfl
  | cons d ds ih =>
    obtain ⟨hd, hds⟩ := List.forall_mem_cons.mp h
    show Findings.recordAll source (log.record source d) ds = _
    rw [ih hds, record_of_not_bad hd, List.reverse_cons, List.append_assoc]
    rfl

/-- What is no bad character is kept as it is, so a filter that passes none of these sees no
folding. -/
theorem filter_record (hp : ∀ d, d.kind = .badCharacter → p d = false) :
    (log.record source d).filter p = [d].filter p ++ log.filter p := by
  unfold record
  cases log with
  | nil => exact (List.append_nil _).symm
  | cons last older =>
    dsimp only
    split
    · rename_i hbad
      rw [Bool.and_eq_true, Bool.and_eq_true, beq_iff_eq, beq_iff_eq] at hbad
      obtain ⟨⟨hd, hlast⟩, -⟩ := hbad
      rw [List.filter_cons_of_neg (by rw [hp _ rfl]; decide),
        List.filter_cons_of_neg (by rw [hp _ hd]; decide),
        List.filter_cons_of_neg (by rw [hp _ hlast]; decide)]
      rfl
    · rw [← List.filter_append]
      rfl

theorem filter_recordAll (hp : ∀ d, d.kind = .badCharacter → p d = false) :
    (log.recordAll source ds).filter p = (ds.filter p).reverse ++ log.filter p := by
  induction ds generalizing log with
  | nil => rfl
  | cons d ds ih =>
    have hfirst : (d :: ds).filter p = [d].filter p ++ ds.filter p :=
      List.filter_append [d] ds
    show ((log.record source d).recordAll source ds).filter p = _
    rw [ih, filter_record hp, hfirst, List.reverse_append, List.append_assoc]
    congr 2
    -- a single diagnostic has one order only
    by_cases hd : p d = true
    · rw [List.filter_cons_of_pos hd]
      rfl
    · rw [List.filter_cons_of_neg hd]
      rfl

/-- Of two logs put together, as `Parsed` does, those are left that pass, if none of what was
recorded in the first one does. -/
theorem filter_logs {es all : List Diagnostic} (hp : ∀ d, d.kind = .badCharacter → p d = false)
    (hes : es.filter p = [])
    (hperm : ds.Perm (recordAll source [] es ++ recordAll source [] all)) :
    (ds.filter p).Perm (all.filter p) := by
  have hfiltered := hperm.filter p
  rw [List.filter_append, filter_recordAll hp, filter_recordAll hp, hes] at hfiltered
  simp only [List.reverse_nil, List.filter_nil, List.nil_append, List.append_nil] at hfiltered
  exact hfiltered.trans (List.reverse_perm _)

/-- A diagnostic of the same kind covers what the given one stands on: it starts no later and stops
no sooner. -/
def Covers (e d : Diagnostic) : Prop :=
  e.kind = d.kind ∧ e.span.start ≤ d.span.start ∧ d.span.stop ≤ e.span.stop

theorem Covers.refl (d : Diagnostic) : Covers d d := ⟨rfl, Nat.le_refl _, Nat.le_refl _⟩

theorem Covers.trans {x y z : Diagnostic} (h : Covers x y) (h' : Covers y z) : Covers x z :=
  ⟨h.1.trans h'.1, Nat.le_trans h.2.1 h'.2.1, Nat.le_trans h'.2.2 h.2.2⟩

theorem Covers.contains {x y : Diagnostic} {i : Nat} (h : Covers x y)
    (hi : y.span.contains i = true) : x.span.contains i = true := by
  obtain ⟨-, hstart, hstop⟩ := h
  rw [Span.contains, Bool.and_eq_true, decide_eq_true_iff, decide_eq_true_iff] at hi ⊢
  omega

/-- What is recorded is in the log, or folded into something that covers it (`Covers`). -/
theorem covers_record {e : Diagnostic} (h : e = d ∨ e ∈ log) :
    ∃ x ∈ log.record source d, Covers x e := by
  unfold record
  cases log with
  | nil => exact ⟨d, List.mem_singleton_self d, (h.resolve_right List.not_mem_nil) ▸ .refl e⟩
  | cons last older =>
    dsimp only
    split
    · rename_i hbad
      rw [Bool.and_eq_true, Bool.and_eq_true, beq_iff_eq, beq_iff_eq] at hbad
      obtain ⟨⟨hd, hlast⟩, -⟩ := hbad
      rcases h with rfl | h
      · exact ⟨_, List.mem_cons_self .., hd.symm, Nat.min_le_right _ _, Nat.le_max_right _ _⟩
      · rcases List.mem_cons.mp h with rfl | h
        · exact ⟨_, List.mem_cons_self .., hlast.symm, Nat.min_le_left _ _, Nat.le_max_left _ _⟩
        · exact ⟨e, List.mem_cons_of_mem _ h, .refl e⟩
    · rcases h with rfl | h
      · exact ⟨e, List.mem_cons_self .., .refl e⟩
      · exact ⟨e, List.mem_cons_of_mem _ h, .refl e⟩

/-- **Folding covers.** Whatever is recorded (`recordAll`) is covered by a diagnostic of its kind
(`Covers`). -/
theorem exists_covering {e : Diagnostic} (h : e ∈ ds ∨ e ∈ log) :
    ∃ x ∈ log.recordAll source ds, Covers x e := by
  induction ds generalizing log e with
  | nil => exact ⟨e, h.resolve_left List.not_mem_nil, .refl e⟩
  | cons d ds ih =>
    -- once it is in the log, the others can only cover it further
    have hlater : e = d ∨ e ∈ log → ∃ x ∈ log.recordAll source (d :: ds), Covers x e := by
      intro he
      obtain ⟨x, hx, hcovers⟩ : ∃ x ∈ log.record source d, Covers x e := covers_record he
      obtain ⟨y, hy, hcovers'⟩ := ih (.inr hx)
      exact ⟨y, hy, hcovers'.trans hcovers⟩
    rcases h with h | h
    · rcases List.mem_cons.mp h with heq | h
      · exact hlater (.inl heq)
      · exact ih (.inl h)
    · exact hlater (.inr h)

/-- What holds of all diagnostics that `recordAll` takes, and of what is folded of two such that are
bad characters and touch, holds of all that are in the log. The induction is on what is recorded. -/
theorem forall_recordAll {q : Diagnostic → Prop}
    (hfold : ∀ x y, x.kind = .badCharacter → y.kind = .badCharacter →
      x.span.stop = y.span.start → q x → q y →
      ∀ message, q ⟨.badCharacter, x.span.cover y.span, message⟩)
    (hlog : ∀ d ∈ log, q d) (hds : ∀ d ∈ ds, q d) : ∀ d ∈ log.recordAll source ds, q d := by
  induction ds generalizing log with
  | nil => exact hlog
  | cons d ds ih =>
    obtain ⟨hd, hds⟩ := List.forall_mem_cons.mp hds
    refine ih ?_ hds
    unfold record
    -- only the newest entry can be folded with the one that arrives
    cases log with
    | nil => exact List.forall_mem_singleton.mpr hd
    | cons last older =>
      obtain ⟨hlast, holder⟩ := List.forall_mem_cons.mp hlog
      dsimp only
      split
      · rename_i hbad
        rw [Bool.and_eq_true, Bool.and_eq_true, beq_iff_eq, beq_iff_eq, beq_iff_eq] at hbad
        obtain ⟨⟨hbad, hlastbad⟩, htouch⟩ := hbad
        exact List.forall_mem_cons.mpr ⟨hfold last d hlastbad hbad htouch hlast hd _, holder⟩
      · exact List.forall_mem_cons.mpr ⟨hd, hlog⟩

/-- What is folded of spans that fit (`Span.Fits`) fits as well. -/
theorem recordAll_fits (hlog : ∀ d ∈ log, d.span.Fits source) (hds : ∀ d ∈ ds, d.span.Fits source) :
    ∀ d ∈ log.recordAll source ds, d.span.Fits source :=
  forall_recordAll (fun _ _ _ _ _ hx hy _ => hx.cover hy) hlog hds

/-- Bad characters that end at `b` or before are folded into such, so nothing grows beyond `b`. -/
theorem stop_recordAll {b : Nat} (hlog : ∀ d ∈ log, d.kind = .badCharacter → d.span.stop ≤ b)
    (hds : ∀ d ∈ ds, d.kind = .badCharacter → d.span.stop ≤ b) :
    ∀ d ∈ log.recordAll source ds, d.kind = .badCharacter → d.span.stop ≤ b :=
  forall_recordAll (fun _ _ hxbad hybad _ hx hy _ _ => Nat.max_le.mpr ⟨hx hxbad, hy hybad⟩) hlog hds

end RsxInspect.Findings
