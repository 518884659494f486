import RsxInspect.Template.Builder
import RsxInspect.Proofs.Scan.Trace

/-!
# How far pieces reach

A piece that starts in markup ends where markup goes on: every reader takes exactly the tokens that
the scanner read in the modes of its tag or its braces, whatever is wrong with them
(`Piece.read_stops`). Hence nothing but pieces stands between the tags of a template.

What the scanner read is known by the `Trace` of its modes. For each construct there is a set of
modes that it is read in (`Mode.InTag`, `Mode.InBraces`), lemmas that say which tokens stay in the
set and which leave it (`Transition.inTag`, `Trace.inBraces`), and lemmas on its reader, which stops
at a token that leaves (`readStartTag_stops`, `readEndTag_stops`, `readBraces_stops`).
-/

namespace RsxInspect

/-- Behind the first `n` of the tokens, which are there, markup goes on: the trace of what is left
starts in the mode `template`. -/
def Stops (n : Nat) (ts : List Token) : Prop :=
  n ≤ ts.length ∧ Trace .template (ts.drop n)

/-- Behind the tokens in front that satisfy `p` stands the rest, so that what is taken by count is
taken by kind. -/
theorem drop_length_takeWhile (p : Token → Bool) (ts : List Token) :
    ts.drop (ts.takeWhile p).length = ts.dropWhile p := by
  have hsplit : ts.takeWhile p ++ ts.dropWhile p = ts := List.takeWhile_append_dropWhile
  calc ts.drop (ts.takeWhile p).length
      = (ts.takeWhile p ++ ts.dropWhile p).drop (ts.takeWhile p).length := by rw [hsplit]
    _ = ts.dropWhile p := List.drop_left

/-! ### Text -/

theorem Trace.template_of_text {t : Token} {ts : List Token} (h : Trace .template (t :: ts))
    (ht : t.kind = .text) : Trace .template ts := by
  obtain ⟨n, hstep, hrest⟩ := h.of_cons
  rw [ht] at hstep
  cases hstep
  exact hrest

/-- The text tokens of a text end at `Stops`, where markup goes on, by induction on the tokens: text
leaves the mode as it is. -/
theorem stops_text {ts : List Token} (h : Trace .template ts) :
    Stops (ts.takeWhile (·.kind == .text)).length ts := by
  induction ts with
  | nil => exact ⟨Nat.le_refl _, h⟩
  | cons t ts ih =>
    by_cases ht : t.kind = .text
    · obtain ⟨hle, hrest⟩ := ih (h.template_of_text ht)
      rw [List.takeWhile_cons_of_pos (by simpa using ht)]
      exact ⟨Nat.succ_le_succ hle, hrest⟩
    · rw [List.takeWhile_cons_of_neg (by simpa using ht)]
      exact ⟨Nat.zero_le _, h⟩

/-! ### Tags

The rest of a tag is attributes and bad characters up to its end, and each of these leaves the scan
in the tag (`Mode.InTag`), by induction on the tokens. -/

/-- The modes inside a start tag: before its name, between attributes, and behind an equals sign. -/
def Mode.InTag (m : Mode) : Prop := m = .tagOpen ∨ m = .tagAttributeValue

/-- In a start tag only its end leads back to markup. All other tokens stay in it, but for the
closing tag of the template, which leads out of both. -/
theorem Transition.inTag {m n : Mode} {k : TokenKind} (h : Transition m k n) (hm : m.InTag) :
    (k = .templateClose) ∨ ((k = .tagClose ∨ k = .selfClose) ∧ n = .template)
      ∨ (k ≠ .tagClose ∧ k ≠ .selfClose ∧ n.InTag) := by
  rcases hm with rfl | rfl
  · cases h <;> simp [Mode.InTag]
  · cases h <;> simp [Mode.InTag]

theorem Trace.inTag {m : Mode} {t : Token} {ts : List Token} (h : Trace m (t :: ts))
    (hm : m.InTag) (hend : t.kind ≠ .tagClose ∧ t.kind ≠ .selfClose ∧ t.kind ≠ .templateClose) :
    ∃ n : Mode, n.InTag ∧ Trace n ts := by
  obtain ⟨n, hstep, hrest⟩ := h.of_cons
  rcases hstep.inTag hm with hclose | ⟨hclose, -⟩ | ⟨-, -, hn⟩
  · exact absurd hclose hend.2.2
  · rcases hclose with hclose | hclose
    · exact absurd hclose hend.1
    · exact absurd hclose hend.2.1
  · exact ⟨n, hn, hrest⟩

theorem Trace.template_of_tagEnd {m : Mode} {t : Token} {ts : List Token} (h : Trace m (t :: ts))
    (hm : m.InTag) (hend : t.kind = .tagClose ∨ t.kind = .selfClose) : Trace .template ts := by
  obtain ⟨n, hstep, hrest⟩ := h.of_cons
  rcases hstep.inTag hm with hclose | ⟨-, hn⟩ | ⟨htag, hself, -⟩
  · rcases hend with hend | hend <;> exact absurd (hclose.symm.trans hend) (by decide)
  · rw [← hn]
    exact hrest
  · exact (hend.elim htag hself).elim

/-- Behind `readAttribute` the tag goes on, since its tokens are a name, an equals sign and a
value. -/
theorem readAttribute_stops (r : Reading) (t : Token) {m : Mode} {ts : List Token}
    (h : Trace m ts) (hm : m.InTag) :
    (readAttribute r t ts).taken ≤ ts.length
      ∧ ∃ n : Mode, n.InTag ∧ Trace n (ts.drop (readAttribute r t ts).taken) := by
  unfold readAttribute
  -- as many tokens as are there: the name alone, `=` behind it, or `=` and a value
  cases ts with
  | nil => exact ⟨Nat.le_refl _, m, hm, h⟩
  | cons equals ts =>
    simp only
    split
    · rename_i hequals
      rw [beq_iff_eq] at hequals
      obtain ⟨n, hn, hrest⟩ := h.inTag hm (by rw [hequals]; decide)
      split
      · rename_i v hv
        obtain ⟨hhead, hkind⟩ := Option.filter_eq_some_iff.mp hv
        cases ts with
        | nil => cases hhead
        | cons w ts =>
          cases hhead
          rw [beq_iff_eq] at hkind
          exact ⟨Nat.le_add_left 2 ts.length, hrest.inTag hn (by rw [hkind]; decide)⟩
      · exact ⟨Nat.le_add_left 1 ts.length, n, hn, hrest⟩
    · exact ⟨Nat.zero_le _, m, hm, h⟩

/-- The rest of a start tag ends where markup goes on, by the recursion of `TagBody.readFrom`. -/
theorem TagBody.readFrom_stops (r : Reading) (done : TagBody) {m : Mode} {ts : List Token}
    (h : Trace m ts) (hm : m.InTag) :
    ∃ k, (TagBody.readFrom r done ts).taken = done.taken + k ∧ Stops k ts := by
  -- a token with `n` more of them, and what is taken behind these
  have hmore : ∀ {t : Token} {ts : List Token} {n k a b : Nat}, a = b + 1 + n + k → n ≤ ts.length →
      Stops k (ts.drop n) → ∃ j, a = b + j ∧ Stops j (t :: ts) := by
    intro t ts n k a b ha hn hstops
    obtain ⟨hle, hrest⟩ := hstops
    rw [List.length_drop] at hle
    refine ⟨n + k + 1, by omega, by rw [List.length_cons]; omega, ?_⟩
    rw [List.drop_succ_cons, ← List.drop_drop]
    exact hrest
  -- the cases of the recursion: no token left, an attribute, `>`, `/>`, the closing tag of the
  -- template, a bad character, and whatever else
  induction done, ts using TagBody.readFrom.induct r generalizing m with
  | case1 done => exact ⟨0, by rw [TagBody.readFrom]; rfl, Nat.le_refl _, .nil _⟩
  | case2 done t ts hkind a =>
    rename_i ih
    obtain ⟨n, hn, hrest⟩ := h.inTag hm (by rw [hkind]; decide)
    obtain ⟨hle, n', hn', hbehind⟩ := readAttribute_stops r t hrest hn
    obtain ⟨k, hk, hstops⟩ := ih hbehind hn'
    rw [TagBody.readFrom, hkind]
    exact hmore hk hle hstops
  | case3 done t ts hkind =>
    rw [TagBody.readFrom, hkind]
    exact ⟨1, rfl, Nat.le_add_left 1 ts.length, h.template_of_tagEnd hm (.inl hkind)⟩
  | case4 done t ts hkind =>
    rw [TagBody.readFrom, hkind]
    exact ⟨1, rfl, Nat.le_add_left 1 ts.length, h.template_of_tagEnd hm (.inr hkind)⟩
  | case5 done t ts hkind =>
    rw [TagBody.readFrom, hkind]
    exact ⟨0, rfl, Nat.zero_le _, h.template_of_close hkind⟩
  | case6 done t ts hkind ih =>
    obtain ⟨n, hn, hrest⟩ := h.inTag hm (by rw [hkind]; decide)
    obtain ⟨k, hk, hstops⟩ := ih hrest hn
    rw [TagBody.readFrom, hkind]
    exact hmore (n := 0) hk (Nat.zero_le _) hstops
  | case7 done t ts hattr htag hself hclose hbad ih =>
    obtain ⟨n, hn, hrest⟩ := h.inTag hm ⟨htag, hself, hclose⟩
    obtain ⟨k, hk, hstops⟩ := ih hrest hn
    rw [TagBody.readFrom.eq_def]
    simp only
    exact hmore (n := 0) hk (Nat.zero_le _) hstops

/-- The name of a tag, if there is one, is the first token. -/
theorem name_cases (ts : List Token) :
    (ts.head?.filter (·.kind == .tagName) = none ∧ ∀ t, ts.head? = some t → t.kind ≠ .tagName)
      ∨ ∃ t us, ts = t :: us ∧ ts.head?.filter (·.kind == .tagName) = some t
        ∧ t.kind = .tagName := by
  cases ts with
  | nil => exact .inl ⟨rfl, fun t ht => by cases ht⟩
  | cons t ts =>
    by_cases hkind : t.kind = .tagName
    · exact .inr ⟨t, ts, rfl, by simp [hkind], hkind⟩
    · refine .inl ⟨by simp [hkind], fun u hu => ?_⟩
      cases hu
      exact hkind

theorem readStartTag_stops (r : Reading) (t : Token) {ts : List Token} (h : Trace .tagOpen ts) :
    Stops (readStartTag r t ts).taken ts := by
  show Stops (TagBody.readFrom r ⟨#[], none, _, #[]⟩ (ts.drop _)).taken ts
  rcases name_cases ts with ⟨hname, -⟩ | ⟨u, us, rfl, hname, hkind⟩
  · rw [hname]
    obtain ⟨k, hk, hstops⟩ := TagBody.readFrom_stops r ⟨#[], none, 0, #[]⟩ h (.inl rfl)
    show Stops (TagBody.readFrom r ⟨#[], none, 0, #[]⟩ ts).taken ts
    rw [hk, Nat.zero_add]
    exact hstops
  · rw [hname]
    obtain ⟨n, hn, hrest⟩ := h.inTag (.inl rfl) (by rw [hkind]; decide)
    obtain ⟨k, hk, hle, hbehind⟩ := TagBody.readFrom_stops r ⟨#[], none, 1, #[]⟩ hrest hn
    show Stops (TagBody.readFrom r ⟨#[], none, 1, #[]⟩ us).taken (u :: us)
    rw [hk, Nat.add_comm]
    exact ⟨Nat.succ_le_succ hle, hbehind⟩

/-- Names and bad characters leave the scan inside the end tag. -/
theorem Trace.inEndTag {t : Token} {ts : List Token} (h : Trace .tagClose (t :: ts))
    (ht : t.kind = .tagName ∨ t.kind = .badCharacter) : Trace .tagClose ts := by
  obtain ⟨n, hstep, hrest⟩ := h.of_cons
  rcases ht with ht | ht
  · rw [ht] at hstep
    cases hstep
    exact hrest
  · rw [ht] at hstep
    cases hstep
    exact hrest

/-- What `strayInEndTag` takes is followed by the end of the tag, or by the end of the template,
where nothing more is taken. -/
theorem strayInEndTag_stops (r : Reading) {ts : List Token} (h : Trace .tagClose ts) :
    (strayInEndTag r ts).1 ≤ ts.length ∧ Trace .tagClose (ts.drop (strayInEndTag r ts).1)
      ∧ ∀ t, (ts.drop (strayInEndTag r ts).1).head? = some t →
        t.kind = .tagClose ∨ t.kind = .templateClose := by
  induction ts with
  | nil => exact ⟨Nat.le_refl _, h, fun t ht => by cases ht⟩
  | cons t ts ih =>
    have hmore := fun hkind => ih (h.inEndTag hkind)
    rw [strayInEndTag]
    split
    · rename_i hkind
      obtain ⟨hle, hrest, hhead⟩ := hmore (.inr hkind)
      exact ⟨Nat.succ_le_succ hle, hrest, hhead⟩
    · rename_i hkind
      obtain ⟨hle, hrest, hhead⟩ := hmore (.inl hkind)
      exact ⟨Nat.succ_le_succ hle, hrest, hhead⟩
    -- neither a name nor a bad character: by the table, the mark of an end
    · rename_i hbad hname
      refine ⟨Nat.zero_le _, h, fun u hu => ?_⟩
      cases hu
      obtain ⟨n, hstep, -⟩ := h.of_cons
      generalize hk : t.kind = k at hstep
      cases hstep with
      | endTagResync => exact .inr rfl
      | endTagClose => exact .inl rfl
      | blankInEndTag => exact absurd hk h.kind_ne_whitespace
      | endTagName => exact absurd hk hname
      | badInEndTag => exact absurd hk hbad

theorem readEndTag_stops (r : Reading) (t : Token) {ts : List Token} (h : Trace .tagClose ts) :
    Stops (readEndTag r t ts).taken ts := by
  -- what is taken is the name, what does not belong there, and the end of the tag
  have hend : ∀ {us : List Token}, Trace .tagClose us →
      Stops ((strayInEndTag r us).1
        + if (us.drop (strayInEndTag r us).1).head?.any (·.kind == .tagClose) then 1 else 0) us := by
    intro us hus
    obtain ⟨hle, hrest, hhead⟩ := strayInEndTag_stops r hus
    generalize (strayInEndTag r us).1 = k at hle hrest hhead ⊢
    cases hbehind : us.drop k with
    | nil => exact ⟨hle, by rw [List.head?_nil]; exact hbehind ▸ .nil _⟩
    | cons u vs =>
      rw [hbehind] at hrest hhead
      have hlt : k < us.length := by
        have := congrArg List.length hbehind
        rw [List.length_drop, List.length_cons] at this
        omega
      rcases hhead u rfl with hclose | hclose
      · have hmarkup : Trace .template vs := by
          obtain ⟨n, hstep, hvs⟩ := hrest.of_cons
          rw [hclose] at hstep
          cases hstep
          exact hvs
        have hdrop : us.drop (k + 1) = vs := by
          rw [← List.drop_drop, hbehind]
          rfl
        rw [List.head?_cons, Option.any_some, if_pos (by rw [hclose]; rfl)]
        exact ⟨hlt, by rw [hdrop]; exact hmarkup⟩
      · rw [List.head?_cons, Option.any_some, if_neg (by rw [hclose]; decide)]
        refine ⟨hle, ?_⟩
        show Trace .template (us.drop k)
        rw [hbehind]
        exact hrest.template_of_close hclose
  have htaken : (readEndTag r t ts).taken
      = (if (ts.head?.filter (·.kind == .tagName)).isNone then 0 else 1)
        + (strayInEndTag r (ts.drop
            (if (ts.head?.filter (·.kind == .tagName)).isNone then 0 else 1))).1
        + if (ts.drop ((if (ts.head?.filter (·.kind == .tagName)).isNone then 0 else 1)
            + (strayInEndTag r (ts.drop
              (if (ts.head?.filter (·.kind == .tagName)).isNone then 0 else 1))).1)).head?.any
                (·.kind == .tagClose) then 1 else 0 := by
    unfold readEndTag
    simp only
    split <;> rfl
  rw [htaken]
  rcases name_cases ts with ⟨hname, -⟩ | ⟨u, us, rfl, hname, hkind⟩
  · rw [hname]
    have hstops := hend h
    simpa using hstops
  · rw [hname]
    obtain ⟨hle, hrest⟩ := hend (h.inEndTag (.inl hkind))
    generalize hk : (strayInEndTag r us).1 = k at hle hrest
    have hskip : (u :: us).drop (1 + k) = us.drop k := by
      rw [Nat.add_comm]
      rfl
    show Stops (1 + (strayInEndTag r us).1
      + if ((u :: us).drop (1 + (strayInEndTag r us).1)).head?.any (·.kind == .tagClose) then 1
        else 0) (u :: us)
    rw [hk, hskip]
    generalize (if (us.drop k).head?.any (·.kind == .tagClose) then 1 else 0) = more at hle hrest ⊢
    rw [Nat.add_assoc, Nat.add_comm 1]
    exact ⟨Nat.succ_le_succ hle, hrest⟩

/-! ### Braces

What stands between braces is no look at the grammar: the run goes up to the first token that
`endsRun`, and in the modes of braces that is a token which leads out of them. -/

/-- The modes between braces: in front of a directive's keyword, and in an expression. -/
def Mode.InBraces (m : Mode) : Prop := m = .directive ∨ m = .interpolation

/-- What does not end a run (`TokenKind.endsRun`) leaves the scan between the braces. -/
theorem Trace.inBraces {m : Mode} {t : Token} {ts : List Token} (h : Trace m (t :: ts))
    (hm : m.InBraces) (ht : t.kind.endsRun = false) : ∃ n : Mode, n.InBraces ∧ Trace n ts := by
  obtain ⟨n, hstep, hrest⟩ := h.of_cons
  refine ⟨n, ?_, hrest⟩
  generalize t.kind = k at hstep ht
  rcases hm with rfl | rfl
  · cases hstep with
    | directiveResync => cases ht
    | directiveEnd => cases ht
    | _ => simp [Mode.InBraces]
  · cases hstep with
    | expressionResync => cases ht
    | expressionEnd => cases ht
    | _ => simp [Mode.InBraces]

theorem Trace.drop_run {m : Mode} {ts : List Token} (h : Trace m ts) (hm : m.InBraces) :
    ∃ n : Mode, n.InBraces ∧ Trace n (ts.dropWhile (!·.kind.endsRun)) := by
  induction ts generalizing m with
  | nil => exact ⟨m, hm, h⟩
  | cons t ts ih =>
    by_cases ht : t.kind.endsRun = true
    · rw [List.dropWhile_cons_of_neg (by simp [ht])]
      exact ⟨m, hm, h⟩
    · rw [List.dropWhile_cons_of_pos (by simp [ht])]
      obtain ⟨n, hn, hrest⟩ := h.inBraces hm (by simpa using ht)
      exact ih hrest hn

/-- A token that `endsRun` is followed by markup, and so are the closing braces: either they stand
there and are taken, or what ended the run starts markup. -/
theorem Trace.behind_run {m : Mode} {ts : List Token} (h : Trace m ts) (hm : m.InBraces)
    (hhead : ts.head?.all (·.kind.endsRun) = true) :
    if ts.head?.any (·.kind == .interpolationClose) then Trace .template ts.tail
    else Trace .template ts := by
  cases ts with
  | nil => exact .nil _
  | cons t ts =>
    rw [List.head?_cons, Option.any_some]
    -- with the closing braces the template goes on behind them, without them a closing tag stands
    -- there
    split
    · rename_i hclose
      rw [beq_iff_eq] at hclose
      obtain ⟨n, hstep, hrest⟩ := h.of_cons
      rw [hclose] at hstep
      have hn : n = .template := by
        rcases hm with rfl | rfl
        · cases hstep with
          | directiveEnd => rfl
          | keyword h => exact absurd h (by decide)
          | plainExpression h => exact absurd h (by decide)
        · cases hstep with
          | expressionEnd => rfl
          | expression h => exact absurd h (by decide)
      rw [List.tail_cons, ← hn]
      exact hrest
    · rename_i hclose
      refine h.template_of_close ?_
      have heof := h.kind_ne_eof
      rw [List.head?_cons, Option.all_some] at hhead
      revert hhead hclose heof
      cases t.kind <;> decide

namespace Braces

/-- The run between braces ends at the first token that ends a run. -/
theorem drop_run (first : Token) (ts : List Token) (skip : Nat) :
    ts.drop (skip + (Braces.read first ts skip).run.length)
      = (ts.drop skip).dropWhile (!·.kind.endsRun) := by
  rw [← List.drop_drop]
  exact drop_length_takeWhile _ (ts.drop skip)

theorem head_endsRun (us : List Token) :
    (us.dropWhile (!·.kind.endsRun)).head?.all (·.kind.endsRun) = true := by
  have hhead := List.head?_dropWhile_not (fun t : Token => !t.kind.endsRun) us
  revert hhead
  cases (us.dropWhile (fun t : Token => !t.kind.endsRun)).head? with
  | none => exact fun _ => rfl
  | some t => simp

/-- Braces with `skip` tokens in front of their run, the keyword if there is one, end where markup
goes on. -/
theorem stops (first : Token) {m : Mode} {ts : List Token} {skip : Nat} (hskip : skip ≤ ts.length)
    (h : Trace m (ts.drop skip)) (hm : m.InBraces) :
    Stops (Braces.read first ts skip).taken ts := by
  have hdrop := drop_run first ts skip
  have hle : skip + (Braces.read first ts skip).run.length ≤ ts.length := by
    have hrun : (Braces.read first ts skip).run.length ≤ (ts.drop skip).length :=
      (List.takeWhile_prefix _).length_le
    rw [List.length_drop] at hrun
    omega
  obtain ⟨n, hn, hrest⟩ := h.drop_run hm
  have hbehind := hrest.behind_run hn (head_endsRun _)
  rw [← hdrop] at hbehind
  show Stops (if (ts.drop (skip + (Braces.read first ts skip).run.length)).head?.any
    (·.kind == .interpolationClose) then skip + (Braces.read first ts skip).run.length + 1
    else skip + (Braces.read first ts skip).run.length) ts
  -- from here on, the place behind the run is all that matters
  generalize skip + (Braces.read first ts skip).run.length = k at hle hbehind ⊢
  split
  · rename_i hclose
    rw [if_pos hclose, List.tail_drop] at hbehind
    refine ⟨?_, hbehind⟩
    have hne : ts.drop k ≠ [] := by
      intro hnil
      rw [hnil] at hclose
      cases hclose
    have := List.length_pos_of_ne_nil hne
    rw [List.length_drop] at this
    omega
  · rename_i hclose
    rw [if_neg hclose] at hbehind
    exact ⟨hle, hbehind⟩

end Braces

/-- Braces end where markup goes on, whatever they mean, since all readers of braces take what
`Braces.read` takes. -/
theorem readBraces_stops (r : Reading) (t : Token) {m : Mode} {ts : List Token} (h : Trace m ts)
    (hm : m.InBraces) : Stops (readBraces r t ts).taken ts := by
  have hplain : Stops (Braces.read t ts 0).taken ts := Braces.stops t (Nat.zero_le _) h hm
  unfold readBraces
  cases ts with
  | nil => exact hplain
  | cons u us =>
    -- behind a keyword the braces go on
    have hkeyword : u.kind.endsRun = false → Stops (Braces.read t (u :: us) 1).taken (u :: us) := by
      intro hu
      obtain ⟨n, hn, hrest⟩ := h.inBraces hm hu
      exact Braces.stops t (Nat.le_add_left 1 us.length) hrest hn
    rw [List.head?_cons, Option.map_some]
    split
    all_goals first
      | exact hkeyword (by simp_all [TokenKind.endsRun])
      | exact hplain

/-! ### Pieces

The first token of a piece decides on its reader, and on the mode behind it. -/

/-- The kinds of the tokens that can start a piece, each with the mode behind it. -/
theorem Trace.piece_cases {t : Token} {ts : List Token} (h : Trace .template (t :: ts))
    (ht : t.kind ≠ .templateClose) :
    (t.kind = .comment ∧ Trace .template ts) ∨ (t.kind = .text ∧ Trace .template ts)
      ∨ (t.kind = .tagOpen ∧ Trace .tagOpen ts) ∨ (t.kind = .tagEndOpen ∧ Trace .tagClose ts)
      ∨ (t.kind = .interpolationOpen ∧ ∃ m : Mode, m.InBraces ∧ Trace m ts) := by
  obtain ⟨n, hstep, hrest⟩ := h.of_cons
  have hblank := h.kind_ne_whitespace
  generalize t.kind = k at hstep ht hblank
  cases hstep with
  | templateEnd => exact absurd rfl ht
  | blankMarkup => exact absurd rfl hblank
  | comment => exact .inl ⟨rfl, hrest⟩
  | text => exact .inr (.inl ⟨rfl, hrest⟩)
  | startTagOpen => exact .inr (.inr (.inl ⟨rfl, hrest⟩))
  | endTagOpen => exact .inr (.inr (.inr (.inl ⟨rfl, hrest⟩)))
  | directiveBraces => exact .inr (.inr (.inr (.inr ⟨rfl, .directive, .inl rfl, hrest⟩)))
  | expressionBraces => exact .inr (.inr (.inr (.inr ⟨rfl, .interpolation, .inr rfl, hrest⟩)))

/-- **A piece ends where markup goes on.** Each of the kinds of `Trace.piece_cases` has its
reader. -/
theorem Piece.read_stops (r : Reading) {t : Token} {ts : List Token}
    (h : Trace .template (t :: ts)) (ht : t.kind ≠ .templateClose) :
    Stops (Piece.read r t ts).taken ts := by
  rcases h.piece_cases ht with
    ⟨hkind, hrest⟩ | ⟨hkind, hrest⟩ | ⟨hkind, hrest⟩ | ⟨hkind, hrest⟩ | ⟨hkind, m, hm, hrest⟩
  · rw [Piece.read, hkind]
    exact ⟨Nat.zero_le _, hrest⟩
  · rw [Piece.read, hkind]
    exact stops_text hrest
  · rw [Piece.read, hkind]
    exact readStartTag_stops r t hrest
  · rw [Piece.read, hkind]
    exact readEndTag_stops r t hrest
  · rw [Piece.read, hkind]
    exact readBraces_stops r t hrest hm

end RsxInspect
