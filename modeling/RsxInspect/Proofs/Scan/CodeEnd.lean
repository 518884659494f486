import RsxInspect.Proofs.Scan.Tiling
import RsxInspect.Proofs.Text.Items

/-!
# Where a token of front-matter code ends

A scanner in front matter that does not face a fence reads one token of code. The token ends where
the items of the text ahead say (`FrontMatter.CodeEnd`), and the scanner behind it sees all that is
left of its window: the line that bounds the code bounds the scan of this token only.
-/

namespace RsxInspect.Scanner

open String (utf8Len)

/-- The token of code ahead takes the characters up to the end of the code, `codeLength` of what is
ahead. -/
theorem next_frontMatterCode {done rest : List Char} {state : LexState}
    (hmode : state.mode = .frontMatter) (hrest : rest ≠ []) (hfence : ¬ Delimiter.fence <+: rest) :
    let k := FrontMatter.codeLength done.getLast? rest
    (behind done rest state).next =
      (⟨.frontMatterCode, ⟨utf8Len done, utf8Len (done ++ rest.take k)⟩⟩,
        behind (done ++ rest.take k) (rest.drop k) ⟨.frontMatter, some .frontMatterCode⟩) := by
  have hlex : lex state done.getLast? rest
      = ⟨.frontMatterCode, FrontMatter.codeLength done.getLast? rest, .frontMatter⟩ := by
    have hno : ¬ Delimiter.fence.isPrefixOf rest = true := by
      rwa [List.isPrefixOf_iff_prefix]
    simp [lex, hmode, Lexeme.inFrontMatter, hno]
  rw [next_behind hrest, hlex]
  simp [stateAfter, TokenKind.isTrivia]

/-- **Front-matter code ends at the right fence.** The characters `rest` lie ahead of the scanner up
to the end of its range, behind `done`. The token takes the first `k` of them, where `k` is the
first place at which a fence starts a line or stands where an item starts, or the number of all if
there is no such place. The scanner behind it stands in front of the others, up to the end of the
range. -/
theorem frontMatterCode_ends (source : String) (start stop : Nat) (state : LexState) (n : Nat) :
    let s := (ofRange source start stop state).after n
    s.state.mode = .frontMatter → s.cursor.rest ≠ [] → ¬ Delimiter.fence <+: s.cursor.rest →
    ∃ done rest beyond k, source.toList = done ++ rest ++ beyond ∧
      utf8Len (done ++ rest) = Cursor.windowEnd source stop ∧
      s = behind done rest s.state ∧
      FrontMatter.CodeEnd done.getLast? rest k ∧
      s.next = (⟨.frontMatterCode, ⟨utf8Len done, utf8Len (done ++ rest.take k)⟩⟩,
        behind (done ++ rest.take k) (rest.drop k) ⟨.frontMatter, some .frontMatterCode⟩) := by
  intro s hmode hrest hfence
  obtain ⟨done, rest, beyond, hsource, hstop, hs⟩ :=
    (inWindow_ofRange source start stop state).after n
  -- in the window the scanner is given by what is behind it and what it has left
  change s = behind done rest s.state at hs
  rw [hs, behind_cursor, Cursor.behind_rest] at hrest hfence
  refine ⟨done, rest, beyond, FrontMatter.codeLength done.getLast? rest, hsource, ?_, hs, ?_, ?_⟩
  · rw [String.utf8Len_append]
    exact hstop
  · exact FrontMatter.codeEnd_codeLength hrest hfence
  · rw [hs]
    exact next_frontMatterCode hmode hrest hfence

/-- Behind an opening fence, where a fence stands in a raw string and another one starts a line
inside of a string that is left open. -/
theorem frontMatterCode_ends_openString :
    let source := String.ofList "---r\"---\"\n\"a\n---".toList
    let s := (ofRange source 0 17 .initial).after 1
    s.state.mode = .frontMatter ∧ s.cursor.rest ≠ [] ∧ ¬ Delimiter.fence <+: s.cursor.rest ∧
    ∃ done rest beyond k, source.toList = done ++ rest ++ beyond ∧
      utf8Len (done ++ rest) = Cursor.windowEnd source 17 ∧
      s = behind done rest s.state ∧
      FrontMatter.CodeEnd done.getLast? rest k ∧
      s.next = (⟨.frontMatterCode, ⟨utf8Len done, utf8Len (done ++ rest.take k)⟩⟩,
        behind (done ++ rest.take k) (rest.drop k) ⟨.frontMatter, some .frontMatterCode⟩) ∧
      s.next.1 = ⟨.frontMatterCode, ⟨3, 13⟩⟩ := by
  intro source s
  have hmode : s.state.mode = .frontMatter := by decide +kernel
  have hrest : s.cursor.rest ≠ [] := by decide +kernel
  have hfence : ¬ Delimiter.fence <+: s.cursor.rest := by decide +kernel
  have htoken : s.next.1 = ⟨.frontMatterCode, ⟨3, 13⟩⟩ := by decide +kernel
  obtain ⟨done, rest, beyond, k, hsource, hstop, hs, hend, hnext⟩ :=
    frontMatterCode_ends source 0 17 .initial 1 hmode hrest hfence
  exact ⟨hmode, hrest, hfence, done, rest, beyond, k, hsource, hstop, hs, hend, hnext, htoken⟩

end RsxInspect.Scanner
