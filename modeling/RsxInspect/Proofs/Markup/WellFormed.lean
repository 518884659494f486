import RsxInspect.Document
import RsxInspect.Proofs.Markup.Clean
import RsxInspect.Proofs.Markup.MarkupRead
import RsxInspect.Proofs.Markup.MarkupScan
import RsxInspect.Proofs.Template.Readable

/-!
# Well-formed templates parse to themselves

A template with well-formed markup in it is scanned into the words of the markup (`Lexes.file`),
which are read as nodes that show it (`Markup.builds_wordsAll`), and no word and no piece has
anything wrong with it (`Markup.writtenAll_fileWords`). No value is scanned again, so the file is
read (`Markup.parse?_eq`); it has one template with a closing tag, no diagnostics, and the markup
that was written out for its children (`Markup.parse?_file`).

The steps from the words of any file to what is read of it are stated for words in general:
`parse?_of_lexes` for the scan, `ofTokens_of_clean` for the log of the tokens, `ofTokens_template`
for a file of one template.
-/

namespace RsxInspect

open String (utf8Len)

namespace Markup

/-! ### The tokens of a file

The words of the file are its tokens, none of them has a lexical problem, and no value in them has
braces, so the file is read. -/

/-- The characters of words stand (`Stands`) in the file that has nothing else. -/
theorem stands_text (ws : List Word) :
    Stands (String.ofList (Word.text ws)) 0 (Word.text ws) := by
  refine ⟨[], [], ?_, rfl⟩
  rw [String.toList_ofList, List.nil_append, List.append_nil]

/-- The scan of a file that is scanned into words (`Lexes`) reaches the end, and the file is read
from the significant ones, unless the scan of a value among them stands still. -/
theorem parse?_of_lexes {ws : List Word} {m : Mode} (h : Lexes .initial none ws [] m)
    (hvalues : Document.valuesEnd (String.ofList (Word.text ws)) (Word.significantFrom 0 ws) = true)
    (withTrees : Bool) :
    Document.parse? (String.ofList (Word.text ws)) withTrees
      = some (Document.ofTokens ⟨String.ofList (Word.text ws), withTrees⟩
          (Word.significantFrom 0 ws)) := by
  obtain ⟨last, hreads⟩ := h.reads []
  let s := Scanner.behind ([] ++ Word.text ws) [] ⟨m, last⟩
  have hsource : Scanner.ofSource (String.ofList (Word.text ws))
      = .behind [] (Word.text ws ++ []) .initial := by
    rw [Scanner.ofSource_eq_behind, String.toList_ofList, List.append_nil]
  have hend : (Scanner.ofSource (String.ofList (Word.text ws))).toEnd?
      = some ((Word.tokensFrom 0 ws).toArray, s) := by
    rw [hsource]
    exact Scanner.toEnd?_eq_some_iff.mpr ⟨hreads, rfl⟩
  rw [Document.parse?, hend]
  exact if_pos hvalues

/-- Words without lexical problems (`CleanAll`) are tokens without them, so the log of the tokens is
empty. -/
theorem ofTokens_of_clean {ws : List Word} (h : CleanAll ws) :
    Findings.ofTokens (String.ofList (Word.text ws)) (Word.significantFrom 0 ws) = [] := by
  have hnone : (Word.significantFrom 0 ws).filterMap
      (·.anomaly? (String.ofList (Word.text ws))) = [] := by
    rw [List.filterMap_eq_nil_iff]
    exact fun t ht => (stands_text ws).anomaly h t (Word.mem_tokensFrom ht)
  rw [Findings.ofTokens, hnone]
  rfl

/-- The words of a file are those of its trees and the tags of the template. -/
theorem writtenAll_fileWords (ms : List Markup) : WrittenAll (fileWords ms) :=
  .plain (.append (writtenAll_wordsAll ms) (.plain writtenAll_nil (by decide))) (by decide)

/-- The whole file stands in the file. -/
theorem stands_file (ms : List Markup) : Stands (file ms) 0 (Word.text (fileWords ms)) := by
  rw [← text_fileWords]
  exact stands_text (fileWords ms)

/-- All values are written in quotes, so none is scanned again and `valuesEnd` holds. -/
theorem valuesEnd_file (ms : List Markup) :
    Document.valuesEnd (file ms) (Word.significantFrom 0 (fileWords ms)) = true := by
  refine Document.valuesEnd_of_not_braced fun t ht hkind => ?_
  obtain ⟨w, hw, hword, htext⟩ := (stands_file ms).exists_word (Word.mem_tokensFrom ht)
  rw [htext, String.toList_ofList]
  exact (writtenAll_fileWords ms w hw).not_braced (hword ▸ hkind)

theorem parse?_eq (ms : List Markup) (hms : SeparatedAll ms) (withTrees : Bool) :
    Document.parse? (file ms) withTrees
      = some (Document.ofTokens ⟨file ms, withTrees⟩ (Word.significantFrom 0 (fileWords ms))) := by
  have hvalues := valuesEnd_file ms
  rw [← text_fileWords] at hvalues ⊢
  exact parse?_of_lexes (Lexes.file ms hms) hvalues withTrees

/-- No token of a file with well-formed markup (`fileWords`) has a lexical problem. -/
theorem ofTokens_file (ms : List Markup) :
    Findings.ofTokens (file ms) (Word.significantFrom 0 (fileWords ms)) = [] := by
  rw [← text_fileWords]
  exact ofTokens_of_clean (writtenAll_fileWords ms).clean

/-! ### The template

The words of the trees in it make up the nodes of the template, one run for all of them
(`builds_wordsAll`), and behind them stands the closing tag. -/

/-- A template with its closing tag, whose pieces are nodes (`Builds`), is read with these for its
children. -/
theorem readTemplate_nodes {r : Reading} {notes : Notes} {opening closing : Token} {ts : List Token}
    {ns : List Node} (hopening : endsWith ['>'] (r.textOf opening).toList = true)
    (hclosing : closing.kind = .templateClose)
    (h : Builder.Builds r ts [closing] ⟨.empty, notes⟩ ((⟨.empty, notes⟩ : Builder).pushAll ns)) :
    ∃ span, Document.readTemplate r notes opening (ts ++ [closing])
      = ⟨⟨opening.span, ns, some closing.span, span⟩, ts.length + 1, notes⟩ := by
  obtain ⟨stop, hread⟩ := h 0 opening.span.stop
  -- neither tag is at fault: the opening one ends with `>`, and the closing one is there
  have hproblem : Document.openTagProblem r opening = [] := by
    unfold Document.openTagProblem
    dsimp only
    rw [if_pos hopening]
  have hpieces : Builder.readFrom r ⟨⟨.empty, notes⟩, 0, opening.span.stop⟩ (ts ++ [closing])
      = ⟨⟨⟨ns.toArray, []⟩, notes⟩, ts.length, stop⟩ := by
    have hroots : (⟨.empty, notes⟩ : Builder).pushAll ns = ⟨⟨ns.toArray, []⟩, notes⟩ :=
      Builder.pushAll_roots #[] notes ns
    rw [hread, Builder.readFrom, if_pos hclosing, hroots, Nat.zero_add]
  have hclosed : ((ts ++ [closing]).drop ts.length).head?.filter (·.kind == .templateClose)
      = some closing := by
    rw [List.drop_left, List.head?_cons, Option.filter_some, hclosing]
    rfl
  refine ⟨spanOf opening (ts ++ [closing]) (ts.length + 1), ?_⟩
  unfold Document.readTemplate
  dsimp only
  rw [hproblem, Notes.reportAll_nil, hpieces]
  dsimp only
  rw [hclosed]
  rfl

/-- A file that is one template without anything wrong in it: one section with the nodes that the
tokens `Builds`, and an empty log. -/
theorem ofTokens_template {r : Reading} {notes : Notes} {opening closing : Token}
    {ts : List Token} {ns : List Node}
    (hnotes : notes = Notes.empty.log (.enterSection .template opening.span.start))
    (hopen : opening.kind = .templateOpen)
    (hopening : endsWith ['>'] (r.textOf opening).toList = true)
    (hclosing : closing.kind = .templateClose)
    (hlexical : Findings.ofTokens r.source (opening :: (ts ++ [closing])) = [])
    (h : Builder.Builds r ts [closing] ⟨.empty, notes⟩ ((⟨.empty, notes⟩ : Builder).pushAll ns)) :
    ∃ t, (Document.ofTokens r (opening :: (ts ++ [closing]))).document.sections = [.template t] ∧
      (Document.ofTokens r (opening :: (ts ++ [closing]))).diagnostics = [] ∧
      t.closing = some closing.span ∧ t.children = ns := by
  obtain ⟨span, htemplate⟩ := readTemplate_nodes hopening hclosing h
  have hsections : Document.readFrom r #[] .empty (opening :: (ts ++ [closing]))
      = (#[.template ⟨opening.span, ns, some closing.span, span⟩], notes) := by
    -- one section, read to its end, with no section before it that it could repeat
    have hsection : Document.readSection r notes .template opening (ts ++ [closing])
        = ⟨.template ⟨opening.span, ns, some closing.span, span⟩, ts.length + 1, notes⟩ := by
      unfold Document.readSection
      dsimp only
      rw [htemplate]
    have hdrop : (ts ++ [closing]).drop (ts.length + 1) = [] := by
      rw [List.drop_eq_nil_of_le]
      simp
    have hfirst : Document.duplicateProblem #[] .template opening = [] := by
      simp [Document.duplicateProblem]
    rw [Document.readFrom, hopen]
    dsimp only [Document.sectionOpenedBy?]
    rw [hfirst, Notes.reportAll_nil, ← hnotes, hsection]
    dsimp only
    rw [hdrop, Document.readFrom]
    rfl
  refine ⟨⟨opening.span, ns, some closing.span, span⟩, ?_, ?_, rfl, rfl⟩
  · unfold Document.ofTokens
    rw [hsections]
  · unfold Document.ofTokens
    rw [hsections]
    dsimp only
    rw [hlexical, hnotes]
    exact List.mergeSort_nil

/-- **Well-formed templates parse to themselves.** The file of any markup without texts side by side
(`SeparatedAll`) has a parse without diagnostics, whose one template is closed and has the nodes of
the markup, one for one (`DepictsAll`). -/
theorem parse?_file (ms : List Markup) (hms : SeparatedAll ms) :
    ∃ parsed t, Document.parse? (file ms) true = some parsed ∧ parsed.diagnostics = [] ∧
      parsed.document.sections = [.template t] ∧ t.closing.isSome = true ∧
      DepictsAll (file ms) ms t.children := by
  let r : Reading := ⟨file ms, true⟩
  let opening : Token := ⟨.templateOpen, ⟨0, 10⟩⟩
  let ts := Word.significantFrom 10 (wordsAll ms)
  let q := 10 + utf8Len (Word.text (wordsAll ms))
  let closing : Token := ⟨.templateClose, ⟨q, q + 11⟩⟩
  have htokens : Word.significantFrom 0 (fileWords ms) = opening :: (ts ++ [closing]) := by
    rw [fileWords, Word.significantFrom_cons _ _ (by decide), Word.significantFrom_append]
    rfl
  have hstands := stands_file ms
  have hopening : endsWith ['>'] (r.textOf opening).toList = true := by
    have htext : r.textOf opening = String.ofList (Delimiter.templateTag ++ ['>']) :=
      hstands.head.text
    rw [htext, String.toList_ofList]
    rfl
  have hinner : Stands r.source 10 (Word.text (wordsAll ms)) := by
    have hbehind := hstands.tail
    rw [Word.text_append] at hbehind
    exact hbehind.left
  let notes := Notes.empty.log (.enterSection .template opening.span.start)
  have hends : [closing].head?.all (·.kind != .text) = true := rfl
  obtain ⟨ns, hns, hbuilds⟩ := builds_wordsAll ms hms (r := r) rfl hinner hends ⟨.empty, notes⟩
  have hlexical : Findings.ofTokens r.source (opening :: (ts ++ [closing])) = [] := by
    rw [← htokens]
    exact ofTokens_file ms
  obtain ⟨t, hsections, hdiagnostics, hclosing, hchildren⟩ :=
    ofTokens_template rfl rfl hopening rfl hlexical hbuilds
  refine ⟨_, t, parse?_eq ms hms true, ?_, ?_, ?_, ?_⟩
  · rw [htokens]
    exact hdiagnostics
  · rw [htokens]
    exact hsections
  · rw [hclosing]
    rfl
  · rw [hchildren]
    exact hns

/-! ### A list -/

/-- A name alone as an expression. -/
def phraseOfName (b : Binder) : Phrase where
  words := [⟨.identifier, b.chars⟩]
  areExpression := by
    obtain ⟨chars, start, parts, notKeyword⟩ := b
    intro w hw
    rw [List.mem_singleton.mp hw]
    cases chars with
    | nil => cases start
    | cons c cs =>
      have hname := Word.IsExpression.name start fun d hd => parts d (List.mem_cons_of_mem c hd)
      rw [notKeyword] at hname
      exact hname
  tree := .identifier (String.ofList b.chars) ⟨0, utf8Len b.chars⟩
  accepted := by
    let w : Word := ⟨.identifier, b.chars⟩
    have hstands : Stands (String.ofList (Word.text [w])) 0 (Word.text [w]) :=
      ⟨[], [], by simp, rfl⟩
    have htokens : Word.significantFrom 0 [w] = [⟨.identifier, ⟨0, 0 + utf8Len b.chars⟩⟩] :=
      Word.significantFrom_cons 0 [] (show TokenKind.identifier ≠ .whitespace by decide)
    have hparse := Expr.parse_identifier (t := ⟨.identifier, ⟨0, 0 + utf8Len b.chars⟩⟩)
      (s := String.ofList (Word.text [w])) rfl
    rw [← htokens, Token.text, hstands.head.text, Nat.zero_add] at hparse
    exact hparse

def items : Binder :=
  ⟨['x', 's'], rfl, List.all_eq_true.mp (by decide), rfl⟩

def item : Binder :=
  ⟨['x'], rfl, List.all_eq_true.mp (by decide), rfl⟩

def listName : ContainerName :=
  ⟨⟨['u', 'l'], rfl, List.all_eq_true.mp (by decide)⟩, by decide, by decide⟩

def itemName : ContainerName :=
  ⟨⟨['l', 'i'], rfl, List.all_eq_true.mp (by decide)⟩, by decide, by decide⟩

/-- An element with an attribute, and in it a loop over elements with an interpolation. -/
def listing : List Markup :=
  [.element listName [⟨⟨['i', 'd'], rfl, List.all_eq_true.mp (by decide)⟩,
      some ⟨'"', ['a'], rfl, by decide⟩⟩]
    [.loop (phraseOfName items) item none
      [.element itemName [] [.interpolation false (phraseOfName item)]]]]

theorem parse?_file_listing :
    SeparatedAll listing ∧ ∃ parsed t, Document.parse? (file listing) true = some parsed ∧
      parsed.diagnostics = [] ∧ parsed.document.sections = [.template t] ∧
      t.closing.isSome = true ∧ DepictsAll (file listing) listing t.children := by
  have hlisting : SeparatedAll listing := by
    simp [listing, SeparatedAll, Separated]
  exact ⟨hlisting, parse?_file listing hlisting⟩

end Markup

end RsxInspect
