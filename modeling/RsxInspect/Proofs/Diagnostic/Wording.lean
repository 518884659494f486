import RsxInspect.Document

/-!
# Messages of tokens that stand nowhere

The readers of files and of templates have an arm for tokens that they have no place for, and report
them as standing outside of any section or in the template (`SaysUnplaced`). No other problem has
such a message (`Problem.isUnplaced_of_message`): most messages start in another way, and the few
that start with the same word end in something else.

So a diagnostic of any other problem is `Placed`, and the log keeps it so when it folds runs of bad
characters (`recordAll_placed`).
-/

namespace RsxInspect

/-- The message says that something unexpected stands outside of any section, or in the template. -/
def SaysUnplaced (message : String) : Prop :=
  ∃ what : String, message = "unexpected " ++ what ++ " outside of any section" ∨
    message = "unexpected " ++ what ++ " in template"

/-- Whether a problem is that of a token or an end outside of any section, or in the template. -/
def Problem.isUnplaced : Problem → Bool
  | unexpectedToken _ place | unexpectedEnd place => place == .outsideSections || place == .template
  | _ => false

section Wording

theorem toString_self (s : String) : toString s = s := rfl

variable {message : String}

theorem SaysUnplaced.front (h : SaysUnplaced message) :
    message.toList.take 4 = ['u', 'n', 'e', 'x'] := by
  obtain ⟨what, rfl | rfl⟩ := h <;> simp

theorem SaysUnplaced.back (h : SaysUnplaced message) :
    ['t', 'i', 'o', 'n'] <:+ message.toList ∨ ['l', 'a', 't', 'e'] <:+ message.toList := by
  obtain ⟨what, rfl | rfl⟩ := h
  · exact .inl ⟨("unexpected " ++ what ++ " outside of any sec").toList, by simp⟩
  · exact .inr ⟨("unexpected " ++ what ++ " in temp").toList, by simp⟩

/-- **No other problem says so.** The few other messages that start with `unexpected` end in
something else. -/
theorem Problem.isUnplaced_of_message {p : Problem} (h : SaysUnplaced p.message) :
    p.isUnplaced = true := by
  have hfront := h.front
  have hback := h.back
  -- every other message differs from the two phrases at its front or at its back
  cases p with
  | unexpectedToken text place =>
    unfold Problem.message at hback
    cases place with
    | outsideSections => rfl
    | template => rfl
    | _ => simp [toString_self, Place.phrase, ← List.reverse_prefix] at hback
  | unexpectedEnd place =>
    unfold Problem.message at hback
    cases place with
    | outsideSections => rfl
    | template => rfl
    | _ => simp [toString_self, Place.phrase, ← List.reverse_prefix] at hback
  | badCharacter text | badCharacters text =>
    unfold Problem.message at hback
    simp [toString_self, ← List.reverse_prefix] at hback
  | noExpression =>
    unfold Problem.message at hback
    simp [← List.reverse_prefix] at hback
  | duplicateSection kind | unclosedSection kind =>
    unfold Problem.message at hfront
    cases kind <;> simp [toString_self, SectionKind.title] at hfront
  | found expected text | ended expected =>
    unfold Problem.message at hfront
    cases expected <;> simp [toString_self, Expectation.phrase] at hfront
  | _ =>
    unfold Problem.message at hfront
    simp [toString_self] at hfront

end Wording

/-! ### Placed diagnostics -/

/-- A diagnostic of something that has its place, whatever is wrong with it: its message does not
say `SaysUnplaced`. -/
def Diagnostic.Placed (d : Diagnostic) : Prop := ¬ SaysUnplaced d.message

/-- All of the diagnostics are `Placed`. -/
def AllPlaced (ds : List Diagnostic) : Prop := ∀ d ∈ ds, d.Placed

theorem Problem.placed {p : Problem} (h : p.isUnplaced = false) (span : Span) : (p.on span).Placed := by
  intro hsays
  have htrue := Problem.isUnplaced_of_message hsays
  rw [h] at htrue
  cases htrue

namespace Findings

variable {source : String} {log : Findings} {ds : List Diagnostic} {d : Diagnostic}

theorem record_placed (h : AllPlaced log) (hd : d.Placed) : AllPlaced (log.record source d) := by
  intro e he
  unfold record at he
  cases log with
  | nil =>
    rw [List.mem_singleton.mp he]
    exact hd
  | cons last older =>
    dsimp only at he
    split at he
    · -- the run of bad characters has a message of its own
      rcases List.mem_cons.mp he with rfl | he
      · exact Problem.placed rfl _
      · exact h e (List.mem_cons_of_mem _ he)
    · rcases List.mem_cons.mp he with rfl | he
      · exact hd
      · exact h e he

theorem recordAll_placed (h : AllPlaced log) (hds : AllPlaced ds) :
    AllPlaced (log.recordAll source ds) := by
  induction ds generalizing log with
  | nil => exact h
  | cons d ds ih =>
    have hd : d.Placed := hds d (List.mem_cons_self ..)
    exact ih (record_placed h hd) fun e he => hds e (List.mem_cons_of_mem _ he)

end Findings

end RsxInspect
