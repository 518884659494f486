import RsxInspect.Proofs.Scan.Trace

/-!
# The stack of open modes

A scan keeps its mode only, and the open modes are read off it (`Mode.stack`). Kept as a stack of
its own, next to the scan, they would be the same (`Scanner.keepsStack_iff`): a step opens one mode
inside the one on top, closes some of the innermost, or puts an expression in the place of a
directive (`StackMove`), and a stack that changes in no other way is told by its top
(`StackMove.eq_stack`).

The turns from mode to mode come from the list of transitions (`Transition.turn`); what they do to
the stack follows from the modes around each mode alone (`Mode.Turn.stackMove`).
-/

namespace RsxInspect

namespace Mode

/-! ### Modes around a mode

`Mode.enclosing` gives the mode in which a mode is opened, so that the stack of a mode ends with it.
-/

@[simp]
theorem stack_initial : stack initial = [initial] := by
  rw [stack, outward]
  rfl

theorem stack_of_enclosing {m outer : Mode} (h : m.enclosing = some outer) :
    m.stack = outer.stack ++ [m] := by
  have houtward : m.outward = m :: outer.outward := by
    rw [outward]
    split
    · rename_i hnone
      rw [h] at hnone
      cases hnone
    · rename_i hsome
      rw [h] at hsome
      cases hsome
      rfl
  rw [stack, houtward, List.reverse_cons]
  rfl

/-- The modes from the outermost one inwards: what holds of `initial` and is handed from a mode to
those in it holds of all. -/
theorem induction_enclosing {P : Mode → Prop} (hinitial : P initial)
    (hinner : ∀ m outer, m.enclosing = some outer → P outer → P m) (m : Mode) : P m := by
  induction m using Mode.outward.induct with
  | case1 m hnone =>
    cases m with
    | initial => exact hinitial
    | _ => cases hnone
  | case2 m outer hsome _ ih => exact hinner m outer hsome ih

/-- A mode is on top of its stack (`Mode.stack`), whatever is around it. -/
theorem exists_stack_eq (m : Mode) : ∃ around, m.stack = around ++ [m] := by
  induction m using induction_enclosing with
  | hinitial => exact ⟨[], stack_initial⟩
  | hinner m outer h _ => exact ⟨outer.stack, stack_of_enclosing h⟩

theorem getLast?_stack (m : Mode) : m.stack.getLast? = some m := by
  obtain ⟨around, hstack⟩ := m.exists_stack_eq
  rw [hstack, List.getLast?_concat]

theorem eq_of_stack_eq {m top : Mode} {below : List Mode} (h : m.stack = below ++ [top]) :
    top = m := by
  have hlast := m.getLast?_stack
  rw [h, List.getLast?_concat] at hlast
  exact Option.some.inj hlast

/-- What is left of a stack when its innermost modes are closed is the stack of the mode on top, by
induction on `induction_enclosing`. -/
theorem stack_of_closed {m top : Mode} {below closed : List Mode}
    (h : m.stack = below ++ top :: closed) : top.stack = below ++ [top] := by
  induction m using induction_enclosing generalizing closed with
  | hinitial =>
    rw [stack_initial] at h
    have hlength := congrArg List.length h
    simp only [List.length_append, List.length_cons, List.length_nil] at hlength
    obtain rfl : below = [] := List.eq_nil_of_length_eq_zero (by omega)
    obtain ⟨rfl, -⟩ := List.cons.inj h
    exact stack_initial
  | hinner m outer henclosing ih =>
    rcases List.eq_nil_or_concat closed with rfl | ⟨closed, last, rfl⟩
    · rw [← eq_of_stack_eq h] at h
      exact h
    · rw [stack_of_enclosing henclosing, List.concat_eq_append, ← List.cons_append,
        ← List.append_assoc] at h
      exact ih (List.append_inj_left' h rfl)

/-- The first mode is open inside the second one: the latter is around it, or around one that is. -/
inductive Inside : Mode → Mode → Prop where
  | directly {m outer : Mode} (h : m.enclosing = some outer) : Inside m outer
  | further {m mid outer : Mode} (h : m.enclosing = some mid) (rest : Inside mid outer) :
      Inside m outer

theorem Inside.exists_closed {m outer : Mode} (h : Inside m outer) :
    ∃ closed, closed ≠ [] ∧ m.stack = outer.stack ++ closed := by
  induction h with
  | directly h => exact ⟨_, List.cons_ne_nil _ _, stack_of_enclosing h⟩
  | @further m _ _ h _ ih =>
    obtain ⟨closed, -, hstack⟩ := ih
    refine ⟨closed ++ [m], by simp, ?_⟩
    rw [stack_of_enclosing h, hstack, List.append_assoc]

/-! ### Turns

There are a few ways only in which a lexeme can change the mode (`Turn`), read off `Transition`
once. -/

/-- How a scan gets from mode to mode: it stays, enters a mode from the one around it, leaves
towards a mode around, or reads an expression where a directive might have stood. -/
inductive Turn : Mode → Mode → Prop where
  | stay (m : Mode) : Turn m m
  | enter {m n : Mode} (h : n.enclosing = some m) : Turn m n
  | leave {m n : Mode} (h : Inside m n) : Turn m n
  | express : Turn directive interpolation

end Mode

theorem Transition.turn {m n : Mode} {k : TokenKind} (h : Transition m k n) : m.Turn n := by
  -- out of a template there are one or two modes to leave, out of a value three
  have hsection {m : Mode} (h : m.enclosing = some .initial) : m.Turn .initial :=
    .leave (.directly h)
  have hresync {m : Mode} (h : m.enclosing = some .template) : m.Turn .initial :=
    .leave (.further h (.directly rfl))
  have hmarkup {m : Mode} (h : m.enclosing = some .template) : m.Turn .template :=
    .leave (.directly h)
  cases h with
  | fenceOpen | scriptOpen | templateOpen | styleOpen => exact .enter rfl
  | endTagOpen | startTagOpen | directiveBraces | expressionBraces | equals => exact .enter rfl
  | fenceClose | scriptClose | styleClose | templateEnd => exact hsection rfl
  | startTagResync | endTagResync | expressionResync | directiveResync => exact hresync rfl
  | valueResync => exact .leave (.further rfl (.further rfl (.directly rfl)))
  | selfClose | startTagClose | endTagClose | expressionEnd | directiveEnd => exact hmarkup rfl
  | valueSelfClose | valueTagClose => exact .leave (.further rfl (.directly rfl))
  | value => exact .leave (.directly rfl)
  | keyword | plainExpression | badDirective => exact .express
  | _ => exact .stay _

/-! ### Moves of a stack

On a stack each turn is a push, a pop, or nothing. The mode alone says which stack there is, so the
moves can be followed without keeping one. -/

/-- What a step does to a stack of open modes, outermost first: it keeps it, pushes one, pops some,
or puts `interpolation` in the place of `directive`. -/
inductive StackMove : List Mode → List Mode → Prop where
  | stay (stack : List Mode) : StackMove stack stack
  /-- A mode is opened inside the one on top. -/
  | push {below : List Mode} {top m : Mode} (h : m.enclosing = some top) :
      StackMove (below ++ [top]) (below ++ [top, m])
  /-- The innermost modes are closed, down to one that is around them. -/
  | pop {below closed : List Mode} {top : Mode} (h : closed ≠ []) :
      StackMove (below ++ top :: closed) (below ++ [top])
  /-- An expression takes the place of a directive. -/
  | replace {below : List Mode} : StackMove (below ++ [.directive]) (below ++ [.interpolation])

theorem Mode.Turn.stackMove {m n : Mode} (h : m.Turn n) : StackMove m.stack n.stack := by
  cases h with
  | stay => exact .stay _
  | enter h =>
    obtain ⟨around, hstack⟩ := m.exists_stack_eq
    rw [stack_of_enclosing h, hstack, List.append_assoc]
    exact .push h
  | leave h =>
    obtain ⟨closed, hclosed, hstack⟩ := h.exists_closed
    obtain ⟨around, htop⟩ := n.exists_stack_eq
    rw [hstack, htop, List.append_assoc]
    exact .pop hclosed
  | express =>
    rw [stack_of_enclosing (m := .directive) rfl, stack_of_enclosing (m := .interpolation) rfl]
    exact .replace

/-- Moves (`StackMove`) keep a stack the one of the mode on top: of two stacks that a move can lead
to, the top tells which one it is. -/
theorem StackMove.eq_stack {m n : Mode} {stack : List Mode} (h : StackMove m.stack stack)
    (htop : stack.getLast? = some n) : stack = n.stack := by
  generalize hbefore : m.stack = before at h
  cases h with
  | stay =>
    rw [← hbefore, Mode.getLast?_stack, Option.some.injEq] at htop
    rw [← hbefore, htop]
  | @push below top opened h =>
    obtain rfl := Mode.eq_of_stack_eq hbefore
    have hsplit : below ++ [top, opened] = below ++ [top] ++ [opened] := by simp
    rw [hsplit, List.getLast?_concat, Option.some.injEq] at htop
    rw [← htop, Mode.stack_of_enclosing h, hbefore, hsplit]
  | pop h =>
    rw [List.getLast?_concat, Option.some.injEq] at htop
    rw [← htop, Mode.stack_of_closed hbefore]
  | replace =>
    obtain rfl := Mode.eq_of_stack_eq hbefore
    -- both modes stand in a template
    have hdirective : Mode.directive.stack = Mode.template.stack ++ [.directive] :=
      Mode.stack_of_enclosing rfl
    have hinterpolation : Mode.interpolation.stack = Mode.template.stack ++ [.interpolation] :=
      Mode.stack_of_enclosing rfl
    rw [List.getLast?_concat, Option.some.injEq] at htop
    rw [hdirective] at hbefore
    rw [← htop, hinterpolation, List.append_inj_left' hbefore rfl]

/-! ### Closing a section -/

/-- A token of this kind, read in the given mode, closes the section that is open: each section has
its own. -/
def Mode.isClosedBy : Mode → TokenKind → Bool
  | frontMatter, .frontMatterDelimiter => true
  | _, .scriptClose | _, .styleClose | _, .templateClose => true
  | _, _ => false

/-- Only behind a section no mode is open any more: a `Transition` to `initial` from another mode is
that of a closing token. -/
theorem Transition.isClosedBy_iff {m n : Mode} {k : TokenKind} (h : Transition m k n) :
    m.isClosedBy k = true ↔ m ≠ .initial ∧ n = .initial := by
  cases h with
  | expression h => cases k <;> simp_all [Mode.isClosedBy, TokenKind.isExpression]
  | keyword h => cases k <;> simp_all [Mode.isClosedBy, TokenKind.isDirective]
  | plainExpression h => cases k <;> simp_all [Mode.isClosedBy, TokenKind.isExpression]
  | _ => decide

theorem Mode.stack_eq_initial_iff {m : Mode} : m.stack = [.initial] ↔ m = .initial := by
  constructor
  · intro h
    have hsplit : m.stack = [] ++ [.initial] := h
    exact (eq_of_stack_eq hsplit).symm
  · rintro rfl
    exact stack_initial

/-! ### The scan -/

namespace Scanner

/-- What a step does to the mode: it makes a `Transition`, or the input has ended and nothing
changes. -/
theorem next_cases (s : Scanner) :
    Transition s.state.mode s.next.1.kind s.next.2.state.mode ∨
      s.next.1.kind = .eof ∧ s.next.2 = s := by
  by_cases hend : s.cursor.rest = []
  · rw [next_of_end hend]
    exact .inr ⟨rfl, rfl⟩
  · exact .inl (transition_of_rest hend)

/-- A stack that is kept next to a scan: it starts with the mode between sections alone, and each
step makes a `StackMove`, so that the mode of the scan is on top. -/
structure KeepsStack (s : Scanner) (kept : Nat → List Mode) : Prop where
  start : kept 0 = [.initial]
  move : ∀ k, StackMove (kept k) (kept (k + 1))
  top : ∀ k, (kept k).getLast? = some (s.after k).state.mode

/-- **Stacks need not be kept.** Each step of the scan of a file makes a move (`StackMove`) of the
stack that is read off the mode, and closes all of it down to the outermost mode exactly if a
section is closed. A stack that is kept next to the scan is always the one that is read off. -/
theorem keepsStack_iff (source : String) :
    (∀ k, StackMove ((ofSource source).after k).state.modeStack
        ((ofSource source).after (k + 1)).state.modeStack ∧
      (((ofSource source).after k).state.mode.isClosedBy ((ofSource source).tokenAt k).kind = true ↔
        ((ofSource source).after k).state.modeStack ≠ [.initial] ∧
          ((ofSource source).after (k + 1)).state.modeStack = [.initial])) ∧
    ∀ kept, (ofSource source).KeepsStack kept ↔
      ∀ k, kept k = ((ofSource source).after k).state.modeStack := by
  let s := ofSource source
  have hstep : ∀ k, StackMove (s.after k).state.modeStack (s.after (k + 1)).state.modeStack := by
    intro k
    rcases (s.after k).next_cases with hturn | ⟨-, hstays⟩
    · exact hturn.turn.stackMove
    · rw [after_succ, hstays]
      exact .stay _
  refine ⟨fun k => ⟨hstep k, ?_⟩, fun kept => ⟨fun hkeeps k => ?_, fun hkept => ?_⟩⟩
  · show _ ↔ (s.after k).state.mode.stack ≠ _ ∧ (s.after (k + 1)).state.mode.stack = _
    rw [Ne, Mode.stack_eq_initial_iff, Mode.stack_eq_initial_iff, after_succ]
    rcases (s.after k).next_cases with hturn | ⟨hkind, hstays⟩
    · exact hturn.isClosedBy_iff
    · rw [hstays]
      show (s.after k).state.mode.isClosedBy (s.after k).next.1.kind = true ↔ _
      rw [hkind]
      constructor
      · intro hclosed
        revert hclosed
        cases (s.after k).state.mode <;> decide
      · exact fun h => absurd h.2 h.1
  · -- the top tells the whole stack, so the next move leads to the next stack that is read off
    induction k with
    | zero => exact hkeeps.start.trans Mode.stack_initial.symm
    | succ k ih =>
      have hmove := hkeeps.move k
      rw [ih] at hmove
      exact hmove.eq_stack (hkeeps.top (k + 1))
  · refine ⟨?_, fun k => ?_, fun k => ?_⟩
    · rw [hkept]
      exact Mode.stack_initial
    · rw [hkept, hkept]
      exact hstep k
    · rw [hkept]
      exact Mode.getLast?_stack _

end Scanner

end RsxInspect
