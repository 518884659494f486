import RsxInspect.Proofs.Scan.Grammar
import RsxInspect.Proofs.Template.Lossless
import RsxInspect.Proofs.Template.Value

/-!
# Code and its delimiters

Readers see the significant tokens of a file only. `Ahead` says where the scan stood in front of
those that are next: what is behind it, what it sees, and its mode. The bricks:

* `lex_closing` and `lex_codeText`: in the mode of a section of code the scanner reads its closing
  delimiter where that stands, and else all up to it, as one lexeme. What can stand in code is said
  by `SectionKind.endMark`.
* `Ahead.start`, `Ahead.next` and `Ahead.of_cons`: how one gets from the start of a file to the
  place in front of each of its tokens.
* `Ahead.code`: in a section of code there is at most one token of code, and behind it the closing
  delimiter or the end.
* `Document.readCode_closed` and `Document.readCode_unclosed`: what `readCode` makes of these
  tokens.

So a section of code has no gaps, it ends with its first closing delimiter or with the source, and
no closing delimiter stands in its code (`Document.readCode_contiguous`).
-/

namespace RsxInspect

open String (utf8Len)

/-! ### Lexemes of code

The modes of code have two rules, one for the closing delimiter and one for everything else. -/

/-- What cannot stand in the code of a section. A fence in front matter counts at the start of a
line, so there a line break belongs to it. -/
def SectionKind.endMark : SectionKind → List Char
  | .frontMatter => '\n' :: Delimiter.fence
  | .script => Delimiter.scriptClose
  | .template => Delimiter.templateClose
  | .style => Delimiter.styleClose

/-- A fence at the start of a line is no part of front-matter code (`FrontMatter.codeLength`),
whatever items the code is made of. -/
theorem FrontMatter.endMark_not_infix_code (before : Option Char) (cs : List Char) :
    ¬ SectionKind.frontMatter.endMark <:+: cs.take (codeLength before cs) := by
  have hmark : SectionKind.frontMatter.endMark ≠ [] := List.cons_ne_nil _ _
  have hle : codeLength before cs ≤ (reach cs).length := itemsFrom_le before (reach cs)
  unfold reach at hle
  cases hindex : Text.indexOf? ('\n' :: Delimiter.fence) cs with
  | none =>
    intro h
    exact Text.not_infix_of_none hmark hindex (h.trans (List.take_prefix _ cs).isInfix)
  | some k =>
    rw [hindex] at hle
    refine Text.not_infix_take hmark hindex (Nat.lt_of_le_of_lt hle ?_)
    have hlength : (cs.take (k + 1)).length ≤ k + 1 := List.length_take_le _ _
    have : SectionKind.frontMatter.endMark.length = 4 := rfl
    show (cs.take (k + 1)).length < _
    omega

/-- The closing tag of a script or style is no part of its code, which goes up to the first one
(`Text.upTo`). -/
theorem Text.not_infix_upTo {mark : List Char} (hmark : mark ≠ []) (cs : List Char) :
    ¬ mark <:+: cs.take (upTo mark cs).length := by
  unfold upTo
  cases hindex : indexOf? mark cs with
  | none =>
    rw [List.take_length]
    exact not_infix_of_none hmark hindex
  | some k =>
    exact not_infix_take hmark hindex (Nat.lt_add_of_pos_right (List.length_pos_iff.mpr hmark))

section Code

variable {kind : SectionKind} {state : LexState} {before : Option Char} {cs : List Char}

/-- The closing delimiter of code is read where it stands, and takes the scanner between
sections. -/
theorem lex_closing (hkind : kind ≠ .template) (hmode : state.mode = kind.mode)
    (h : kind.mode.closing <+: cs) :
    lex state before cs = ⟨(Document.codeKinds kind).2, kind.mode.closing.length, .initial⟩ := by
  obtain ⟨mode, last⟩ := state
  subst hmode
  have hleads := List.isPrefixOf_iff_prefix.mpr h
  cases kind with
  | template => exact absurd rfl hkind
  | _ => exact if_pos hleads

/-- Elsewhere code is read up to the closing delimiter or the end, and stays in its mode. The
delimiter, `Mode.closing`, does not stand in it. -/
theorem lex_codeText (before : Option Char) (hkind : kind ≠ .template) (hmode : state.mode = kind.mode)
    (h : ¬ kind.mode.closing <+: cs) :
    let x := lex state before cs
    x.kind = (Document.codeKinds kind).1 ∧ x.mode = kind.mode ∧
      (cs.drop x.length = [] ∨ kind.mode.closing <+: cs.drop x.length) ∧
      ¬ kind.endMark <:+: cs.take x.length := by
  intro x
  have hsection : state.mode.section? = some kind := by
    rw [hmode]
    cases kind <;> rfl
  have hcode := lex_code before cs hkind hsection
  obtain ⟨mode, last⟩ := state
  subst hmode
  have hno : ¬ kind.mode.closing.isPrefixOf cs = true := mt List.isPrefixOf_iff_prefix.mp h
  dsimp only at hcode
  rw [if_neg hno, List.isPrefixOf_iff_prefix] at hcode
  obtain ⟨hcode, hbehind⟩ := hcode
  refine ⟨hcode, ?_, hbehind, ?_⟩
  · cases kind with
    | template => exact absurd rfl hkind
    | _ => exact congrArg Lexeme.mode (if_neg hno)
  · -- how far the code runs is said by the rule of its mode
    have hcs : cs.take x.length = cs.take (match kind with
        | .frontMatter => FrontMatter.codeLength before cs
        | _ => (Text.upTo kind.mode.closing cs).length) := by
      cases kind with
      | template => exact absurd rfl hkind
      | _ => exact congrArg (fun y : Lexeme => cs.take y.length) (if_neg hno)
    rw [hcs]
    cases kind with
    | template => exact absurd rfl hkind
    | frontMatter => exact FrontMatter.endMark_not_infix_code before cs
    | script => exact Text.not_infix_upTo (List.cons_ne_nil _ _) cs
    | style => exact Text.not_infix_upTo (List.cons_ne_nil _ _) cs

end Code

/-! ### Where the next tokens stand

The tokens that are left are the significant ones of a run to the end, so the scan can be taken on
from any of them. The state of the scanner is not unique here: only its mode is kept. -/

/-- Behind `done` the scan is in the mode `m` and sees `rest`. What it reads from there up to the
end are the tokens `ts`, blanks left out (`significant`). -/
structure Ahead (source : String) (m : Mode) (done rest : List Char) (ts : List Token) : Prop where
  split : source.toList = done ++ rest
  reads : ∃ state us s', state.mode = m ∧ Scanner.Reads (.behind done rest state) us s' ∧
    s'.cursor.rest = [] ∧ significant us = ts

namespace Ahead

variable {source : String} {m : Mode} {done rest : List Char} {t : Token} {ts : List Token}
  {kind : SectionKind}

/-- A file whose scan reaches the end, seen from its start. -/
theorem start (h : (Scanner.ofSource source).toEnd?.isSome = true) :
    Ahead source .initial [] source.toList (significantTokens source) := by
  obtain ⟨⟨tokens, s⟩, htoEnd⟩ := Option.isSome_iff_exists.mp h
  obtain ⟨hreads, hend⟩ := Scanner.toEnd?_eq_some_iff.mp htoEnd
  have htokens : (Scanner.ofSource source).toEnd.1.toList = tokens.toList := by
    rw [Scanner.toEnd, hreads.toEndFrom hend, Array.empty_append]
  rw [Scanner.ofSource_eq_behind] at hreads
  exact ⟨rfl, .initial, tokens.toList, s, rfl, hreads, hend, by rw [significantTokens, htokens]⟩

/-- Where nothing is `Ahead` there are no tokens. -/
theorem nil (h : Ahead source m done [] ts) : ts = [] := by
  obtain ⟨state, us, s', -, hreads, -, rfl⟩ := h.reads
  cases us with
  | nil => rfl
  | cons u us =>
    obtain ⟨-, hmove, -⟩ := hreads.of_cons
    exact absurd rfl (Scanner.rest_ne_nil_of_moves hmove)

/-- Where something is `Ahead`, the scan gets on by a lexeme: there is one token of it, unless it is
blank, and the other tokens are ahead behind it. -/
theorem next (h : Ahead source m done rest ts) (hrest : rest ≠ []) :
    ∃ state ts', state.mode = m ∧
      let x := lex state done.getLast? rest
      let text := rest.take x.length
      text ≠ [] ∧ Ahead source x.mode (done ++ text) (rest.drop x.length) ts' ∧
        ts = significant [⟨x.kind, ⟨utf8Len done, utf8Len (done ++ text)⟩⟩] ++ ts' := by
  obtain ⟨hsource, state, us, s', hmode, hreads, hend, rfl⟩ := h
  cases us with
  | nil =>
    rw [hreads.eq_of_nil] at hend
    exact absurd hend hrest
  -- text left means that the run has a first token, the lexeme at its front
  | cons u us =>
    obtain ⟨hu, hmove, hbehind⟩ := hreads.of_cons
    rw [Scanner.next_behind hrest] at hu hmove hbehind
    refine ⟨state, significant us, hmode, ?_, ⟨?_, _, us, s', rfl, hbehind, hend, rfl⟩, ?_⟩
    · intro hnone
      refine Nat.lt_irrefl (utf8Len done) ?_
      have hmove : utf8Len done < utf8Len (done ++ rest.take (lex state done.getLast? rest).length) :=
        hmove
      rwa [hnone, List.append_nil] at hmove
    · rw [List.append_assoc, List.take_append_drop, hsource]
    · rw [hu]
      exact significant_append [_] us

/-- The first of the tokens is read in the mode, maybe behind blanks, which keep the mode. Behind it
the others are ahead. -/
theorem of_cons (h : Ahead source m done rest (t :: ts)) :
    ∃ n done' rest', Transition m t.kind n ∧ utf8Len done' = t.span.stop ∧
      Ahead source n done' rest' ts := by
  -- on the length of what is ahead, since blanks may be read first
  generalize hsize : rest.length = size
  induction size using Nat.strong_induction_on generalizing done rest with
  | h size ih =>
    have hrest : rest ≠ [] := fun hnil => nomatch (hnil ▸ h).nil
    obtain ⟨state, ts', hmode, htext, hbehind, hts⟩ := h.next hrest
    have hstep := lex_transition state done.getLast? hrest
    rw [hmode] at hstep
    generalize lex state done.getLast? rest = x at htext hbehind hts hstep
    by_cases hblank : x.kind = .whitespace
    · rw [significant_cons_of_blank hblank] at hts
      obtain rfl : t :: ts = ts' := hts
      rw [hblank] at hstep
      obtain rfl : m = x.mode := hstep.eq_of_whitespace
      refine ih _ ?_ hbehind rfl
      have hpos := List.length_pos_iff.mpr htext
      rw [List.length_take] at hpos
      rw [List.length_drop]
      omega
    · rw [significant_cons hblank] at hts
      obtain ⟨rfl, rfl⟩ := List.cons.inj hts
      exact ⟨x.mode, _, _, hstep, rfl, hbehind⟩

/-- Behind some of the tokens the others are ahead. -/
theorem drop (h : Ahead source m done rest ts) (k : Nat) :
    ∃ n done' rest', Ahead source n done' rest' (ts.drop k) := by
  induction k generalizing m done rest ts with
  | zero => exact ⟨m, done, rest, h⟩
  | succ k ih =>
    cases ts with
    | nil => exact ⟨m, done, rest, h⟩
    | cons t ts =>
      obtain ⟨n, done', rest', -, -, hbehind⟩ := h.of_cons
      exact ih hbehind

/-! ### Code

Code stands in one token, which is missing if there is none. Blanks would be no token on their own,
but in the modes of code nothing is read as blanks. -/

/-- The tokens of the code `code` behind `done`: one, unless there is no code. -/
def codeTokens (kind : SectionKind) (done code : List Char) : List Token :=
  if code = [] then []
  else [⟨(Document.codeKinds kind).1, ⟨utf8Len done, utf8Len (done ++ code)⟩⟩]

/-- The closing delimiter that stands behind `done`. -/
def closer (kind : SectionKind) (done : List Char) : Token :=
  ⟨(Document.codeKinds kind).2, ⟨utf8Len done, utf8Len (done ++ kind.mode.closing)⟩⟩

/-- What stands behind `done`, where a section of code is open: the code `code`, and its closing
delimiter or nothing. The last two arguments are what is left to see behind the code, and all tokens
from `done` on. -/
inductive Code (source : String) (kind : SectionKind) (done code : List Char) :
    List Char → List Token → Prop where
  | closed {rest : List Char} {ts : List Token}
      (behind : Ahead source .initial (done ++ code ++ kind.mode.closing) rest ts) :
      Code source kind done code (kind.mode.closing ++ rest)
        (codeTokens kind done code ++ closer kind (done ++ code) :: ts)
  | unclosed : Code source kind done code [] (codeTokens kind done code)

/-- A closing delimiter, `Mode.closing`, that stands ahead is the next token, and behind it the scan
is between sections. -/
theorem close (h : Ahead source kind.mode done rest ts) (hkind : kind ≠ .template)
    (hclose : kind.mode.closing <+: rest) : ∃ rest' ts', rest = kind.mode.closing ++ rest' ∧
      ts = closer kind done :: ts' ∧ Ahead source .initial (done ++ kind.mode.closing) rest' ts' := by
  obtain ⟨rest', rfl⟩ := hclose
  have hrest : kind.mode.closing ++ rest' ≠ [] := by
    cases kind <;> exact List.cons_ne_nil _ _
  obtain ⟨state, ts', hmode, -, hbehind, hts⟩ := h.next hrest
  rw [lex_closing hkind hmode (List.prefix_append _ _)] at hbehind hts
  dsimp only at hbehind hts
  rw [List.take_left, List.drop_left] at hbehind
  have hkept : (Document.codeKinds kind).2 ≠ .whitespace := by cases kind <;> decide
  rw [List.take_left, significant_cons hkept] at hts
  exact ⟨rest', ts', rfl, hts, hbehind⟩

/-- **Code stops at its closing delimiter.** In a section of code stands code without a closing
delimiter (`SectionKind.endMark`), and behind it the closing delimiter or nothing (`Ahead.Code`). -/
theorem code (h : Ahead source kind.mode done rest ts) (hkind : kind ≠ .template) :
    ∃ code behind, rest = code ++ behind ∧ ¬ kind.endMark <:+: code ∧
      Code source kind done code behind ts := by
  have hempty : ¬ kind.endMark <:+: [] := by
    rw [List.infix_nil]
    cases kind <;> exact List.cons_ne_nil _ _
  -- a closing delimiter at once: the section is empty
  by_cases hclose : kind.mode.closing <+: rest
  · obtain ⟨rest', ts', rfl, rfl, hbehind⟩ := h.close hkind hclose
    refine ⟨[], _, rfl, hempty, ?_⟩
    have hcode : Code source kind done [] _ (_ ++ closer kind (done ++ []) :: ts') :=
      .closed (by rwa [List.append_nil])
    rw [List.append_nil] at hcode
    exact hcode
  · cases hrest : rest with
    | nil =>
      subst hrest
      rw [h.nil]
      exact ⟨[], [], rfl, hempty, .unclosed⟩
    | cons c cs =>
      rw [← hrest]
      -- else the next lexeme is all of the code, and what stops it is the delimiter or the end
      obtain ⟨state, ts', hmode, htext, hbehind, hts⟩ := h.next (hrest ▸ List.cons_ne_nil c cs)
      obtain ⟨hkindx, hmodex, hstop, hno⟩ := lex_codeText done.getLast? hkind hmode hclose
      generalize lex state done.getLast? rest = x at htext hbehind hts hkindx hmodex hstop hno
      rw [hmodex] at hbehind
      have hkept : (Document.codeKinds kind).1 ≠ .whitespace := by cases kind <;> decide
      have htokens : significant [⟨x.kind, ⟨utf8Len done, utf8Len (done ++ rest.take x.length)⟩⟩]
          = codeTokens kind done (rest.take x.length) := by
        rw [hkindx, significant_cons hkept, codeTokens, if_neg htext]
        rfl
      rw [htokens] at hts
      refine ⟨rest.take x.length, rest.drop x.length, (List.take_append_drop _ _).symm, hno, ?_⟩
      rcases hstop with hend | hclose
      · rw [hend] at hbehind ⊢
        rw [hts, hbehind.nil, List.append_nil]
        exact .unclosed
      · obtain ⟨rest', ts'', hrest', rfl, hclosed⟩ := hbehind.close hkind hclose
        rw [hts, hrest']
        exact .closed hclosed

end Ahead

/-! ### Sections of code

The code and its closing delimiter are all that such a section takes (`readCode_closed`,
`readCode_unclosed`), so its parts touch by what the scan ahead says of the two tokens. -/

/-- The parts of a section of code touch, up to the end of the source if it is not closed, and the
mark does not stand in the code. -/
structure CodeSection.Contiguous (source : String) (mark : List Char) (c : CodeSection) : Prop where
  start : c.span.start = c.opening.start
  content : c.content.start = c.opening.stop
  closing : c.content.stop = (c.closing.map Span.start).getD source.utf8ByteSize
  stop : c.span.stop = (c.closing.map Span.stop).getD source.utf8ByteSize
  code : ¬ mark <:+: (c.content.text source).toList

namespace Document

variable {source : String} {kind : SectionKind} {r : Reading} {notes : Notes} {opening : Token}
  {done code behind : List Char} {ts : List Token}

/-- Code that touches what is open has one end: the span that `readCode` puts together is that of
the code. -/
theorem cover_codeTokens (kind : SectionKind) (done code : List Char) :
    (Ahead.codeTokens kind done code).foldl (fun s t => s.cover t.span) (Span.point (utf8Len done))
      = ⟨utf8Len done, utf8Len (done ++ code)⟩ := by
  unfold Ahead.codeTokens
  split
  · rename_i hnone
    rw [hnone, List.append_nil]
    rfl
  · have hle : utf8Len done ≤ utf8Len (done ++ code) := by
      rw [String.utf8Len_append]
      exact Nat.le_add_right _ _
    show Span.mk (min (utf8Len done) (utf8Len done)) (max (utf8Len done) (utf8Len (done ++ code))) = _
    rw [Nat.min_self, Nat.max_eq_right hle]

/-- Where code ends that touches its opening delimiter, as `endOf` finds it. -/
theorem endOf_codeTokens (kind : SectionKind) (hopening : utf8Len done = opening.span.stop)
    (code : List Char) (more : List Token) :
    endOf opening (Ahead.codeTokens kind done code ++ more) (Ahead.codeTokens kind done code).length
      = utf8Len (done ++ code) := by
  unfold Ahead.codeTokens
  split
  · rename_i hnone
    rw [hnone, List.append_nil, hopening]
    rfl
  · rfl

/-- All tokens of the code are taken, and none behind it. -/
theorem takeWhile_codeTokens (kind : SectionKind) (done code : List Char) {more : List Token}
    (hmore : more.takeWhile (·.kind == (codeKinds kind).1) = []) :
    (Ahead.codeTokens kind done code ++ more).takeWhile (·.kind == (codeKinds kind).1)
      = Ahead.codeTokens kind done code := by
  have hall : ∀ t ∈ Ahead.codeTokens kind done code, (t.kind == (codeKinds kind).1) = true := by
    unfold Ahead.codeTokens
    split
    · exact List.forall_mem_nil _
    · exact List.forall_mem_singleton.mpr (beq_self_eq_true (codeKinds kind).1)
  rw [List.takeWhile_append_of_pos hall, hmore, List.append_nil]

/-- What `readCode` gives is read off its code and what is behind that, which is its closing
delimiter if it is of that kind. -/
theorem readCode_eq (r : Reading) (notes : Notes) (kind : SectionKind)
    (hopening : utf8Len done = opening.span.stop) (code : List Char) {more : List Token}
    (hmore : more.takeWhile (·.kind == (codeKinds kind).1) = []) :
    let codes := Ahead.codeTokens kind done code
    let s := readCode r notes kind opening (codes ++ more)
    let closing := (more.head?.filter (·.kind == (codeKinds kind).2)).map Token.span
    let taken := codes.length + if closing.isSome then 1 else 0
    s.content = ⟨opening.span, ⟨utf8Len done, utf8Len (done ++ code)⟩, closing,
        spanOf opening (codes ++ more) taken⟩ ∧ s.taken = taken := by
  intro codes s closing taken
  have hcodes : (codes ++ more).takeWhile (·.kind == (codeKinds kind).1) = codes :=
    takeWhile_codeTokens kind done code hmore
  -- the content as `readCode` builds it, before the code tokens are summed up
  have hread : s.content = ⟨opening.span,
      ((codes ++ more).takeWhile (·.kind == (codeKinds kind).1)).foldl (fun s t => s.cover t.span)
        (Span.point opening.span.stop),
      (((codes ++ more).drop ((codes ++ more).takeWhile (·.kind == (codeKinds kind).1)).length).head?.filter
        (·.kind == (codeKinds kind).2)).map Token.span, spanOf opening (codes ++ more) s.taken⟩ := rfl
  have htaken : s.taken = ((codes ++ more).takeWhile (·.kind == (codeKinds kind).1)).length
      + if s.content.closing.isSome then 1 else 0 := rfl
  rw [hcodes, List.drop_left, ← hopening, cover_codeTokens] at hread
  rw [hcodes, hread] at htaken
  exact ⟨by rw [hread, htaken], htaken⟩

/-- A section of code with its closing delimiter: it takes the code and the delimiter. -/
theorem readCode_closed (r : Reading) (notes : Notes) (kind : SectionKind)
    (hopening : utf8Len done = opening.span.stop) (code : List Char) (ts : List Token) :
    let closing := Ahead.closer kind (done ++ code)
    let s := readCode r notes kind opening (Ahead.codeTokens kind done code ++ closing :: ts)
    s.content = ⟨opening.span, ⟨utf8Len done, utf8Len (done ++ code)⟩, some closing.span,
        ⟨opening.span.start, closing.span.stop⟩⟩ ∧
      s.taken = (Ahead.codeTokens kind done code).length + 1 := by
  intro closing
  have hdiffer : ¬ ((codeKinds kind).2 == (codeKinds kind).1) = true := by cases kind <;> decide
  have hmore : (closing :: ts).takeWhile (·.kind == (codeKinds kind).1) = [] :=
    List.takeWhile_cons_of_neg hdiffer
  have hclosing : (closing :: ts).head?.filter (·.kind == (codeKinds kind).2) = some closing := by
    rw [List.head?_cons, Option.filter_some]
    exact if_pos (beq_self_eq_true (codeKinds kind).2)
  have hread := readCode_eq r notes kind hopening code hmore
  rw [hclosing] at hread
  refine ⟨hread.1.trans ?_, hread.2⟩
  -- the closing delimiter is the last token of the section
  have hend : endOf opening (Ahead.codeTokens kind done code ++ closing :: ts)
      ((Ahead.codeTokens kind done code).length + 1) = closing.span.stop := by
    unfold endOf
    rw [List.getElem?_cons_succ, List.getElem?_append_right (Nat.le_refl _), Nat.sub_self]
    rfl
  exact congrArg (fun stop => CodeSection.mk _ _ _ ⟨opening.span.start, stop⟩) hend

/-- A section of code without one: it takes the code and goes up to the end of the source. -/
theorem readCode_unclosed (r : Reading) (notes : Notes) (kind : SectionKind)
    (hopening : utf8Len done = opening.span.stop) (code : List Char) :
    let s := readCode r notes kind opening (Ahead.codeTokens kind done code)
    s.content = ⟨opening.span, ⟨utf8Len done, utf8Len (done ++ code)⟩, none,
        ⟨opening.span.start, utf8Len (done ++ code)⟩⟩ ∧
      s.taken = (Ahead.codeTokens kind done code).length := by
  have hnone : ([] : List Token).takeWhile (·.kind == (codeKinds kind).1) = [] := rfl
  have hread := readCode_eq r notes kind hopening code hnone
  have hend := endOf_codeTokens kind hopening code []
  simp only [List.append_nil] at hread hend
  refine ⟨hread.1.trans ?_, hread.2⟩
  exact congrArg (fun stop => CodeSection.mk _ _ _ ⟨opening.span.start, stop⟩) hend

/-- **A section of code has no gaps.** It ends with its closing delimiter, and the scan is between
sections behind it; or it ends with the source, and no tokens are left
(`CodeSection.Contiguous`). -/
theorem readCode_contiguous (r : Reading) (notes : Notes) (hkind : kind ≠ .template)
    (hopening : utf8Len done = opening.span.stop) (hahead : Ahead source kind.mode done behind ts) :
    let s := readCode r notes kind opening ts
    s.content.Contiguous source kind.endMark ∧
      (s.content.closing = none → ts.drop s.taken = []) ∧
      (s.content.closing ≠ none →
        ∃ done' rest, Ahead source .initial done' rest (ts.drop s.taken)) := by
  intro s
  have hsource := hahead.split
  obtain ⟨code, more, rfl, hcode, hahead⟩ := hahead.code hkind
  rw [← List.append_assoc] at hsource
  have htext : ((Span.mk (utf8Len done) (utf8Len (done ++ code))).text source).toList = code := by
    have htext := Span.text_of_split done code more hsource
    rwa [← String.utf8Len_append, ← String.toList_inj, String.toList_ofList] at htext
  -- the code ends at its closing mark, or at the end of the file
  cases hahead with
  | @closed rest ts behind =>
    obtain ⟨hcontent, htaken⟩ := readCode_closed r notes kind hopening code ts
    refine ⟨?_, ?_, fun _ => ⟨done ++ code ++ kind.mode.closing, rest, ?_⟩⟩
    · rw [hcontent]
      exact ⟨rfl, hopening, rfl, rfl, htext.symm ▸ hcode⟩
    · rw [hcontent]
      nofun
    · rw [htaken, ← List.drop_drop, List.drop_left]
      exact behind
  | unclosed =>
    obtain ⟨hcontent, htaken⟩ := readCode_unclosed r notes kind hopening code
    have hsize : utf8Len (done ++ code) = source.utf8ByteSize := by
      rw [← String.utf8Len_toList, hsource, List.append_nil]
    refine ⟨?_, fun _ => ?_, ?_⟩
    · rw [hcontent]
      exact ⟨rfl, hopening, hsize, hsize, htext.symm ▸ hcode⟩
    · rw [htaken, List.drop_length]
    · rw [hcontent]
      exact fun hclosed => absurd rfl hclosed

end Document

end RsxInspect
