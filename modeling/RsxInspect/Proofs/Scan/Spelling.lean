import RsxInspect.Diagnostic.Findings
import RsxInspect.Proofs.Scan.Spacing

/-!
# Words in a row

A word is a kind with the characters of a token of it. Words in a row are text that scans into them:
`Lexes m last ws rest n` says that a scan in mode `m` reads exactly the words `ws` off their
characters in front of `rest` and is then in mode `n`. Runs of words are put together with
`Lexes.append`.

The relation does not speak of places. `Lexes.reads` puts it at any place of a source, where the
words become the tokens `Word.tokensFrom offset ws`, and `Stands` finds the characters of each token
there again (`Stands.exists_word`). So what is checked of words, such as their lexical problems,
holds of tokens (`Stands.anomaly`).
-/

namespace RsxInspect

open String (utf8Len)

/-- What a token is, and its characters, without a place. -/
structure Word where
  kind : TokenKind
  chars : List Char
  deriving DecidableEq, Repr

namespace Word

/-- The characters of words in a row. -/
def text (ws : List Word) : List Char := ws.flatMap chars

@[simp] theorem text_nil : text [] = [] := rfl

@[simp] theorem text_cons (w : Word) (ws : List Word) : text (w :: ws) = w.chars ++ text ws := rfl

@[simp] theorem text_append (ws vs : List Word) : text (ws ++ vs) = text ws ++ text vs :=
  List.flatMap_append

/-- The tokens of words in a row from an offset on: each one starts where the one before it ends. -/
def tokensFrom (offset : Nat) : List Word → List Token
  | [] => []
  | w :: ws =>
    ⟨w.kind, ⟨offset, offset + utf8Len w.chars⟩⟩ :: tokensFrom (offset + utf8Len w.chars) ws

theorem tokensFrom_append (offset : Nat) (ws vs : List Word) :
    tokensFrom offset (ws ++ vs)
      = tokensFrom offset ws ++ tokensFrom (offset + utf8Len (text ws)) vs := by
  induction ws generalizing offset with
  | nil => rfl
  | cons w ws ih =>
    rw [List.cons_append, tokensFrom, ih, text_cons, String.utf8Len_append, ← Nat.add_assoc]
    rfl

/-- The `significant` ones of the tokens of words in a row: blanks count for the offsets of the
others only. -/
def significantFrom (offset : Nat) (ws : List Word) : List Token :=
  significant (tokensFrom offset ws)

theorem significantFrom_nil (offset : Nat) : significantFrom offset [] = [] := rfl

theorem significantFrom_cons (offset : Nat) {w : Word} (ws : List Word)
    (h : w.kind ≠ .whitespace) :
    significantFrom offset (w :: ws)
      = ⟨w.kind, ⟨offset, offset + utf8Len w.chars⟩⟩
        :: significantFrom (offset + utf8Len w.chars) ws :=
  significant_cons h

theorem significantFrom_blank (offset : Nat) {w : Word} (ws : List Word)
    (h : w.kind = .whitespace) :
    significantFrom offset (w :: ws) = significantFrom (offset + utf8Len w.chars) ws :=
  significant_cons_of_blank h

theorem significantFrom_append (offset : Nat) (ws vs : List Word) :
    significantFrom offset (ws ++ vs)
      = significantFrom offset ws ++ significantFrom (offset + utf8Len (text ws)) vs := by
  rw [significantFrom, tokensFrom_append, significant_append]
  rfl

theorem mem_tokensFrom {offset : Nat} {ws : List Word} {t : Token}
    (h : t ∈ significantFrom offset ws) : t ∈ tokensFrom offset ws := List.mem_of_mem_filter h

/-- Every token of words in a row is one of the words, with what stands in front of it. -/
theorem exists_of_mem_tokensFrom {offset : Nat} {ws : List Word} {t : Token}
    (h : t ∈ tokensFrom offset ws) : ∃ w ∈ ws, t.kind = w.kind := by
  induction ws generalizing offset with
  | nil => cases h
  | cons w ws ih =>
    rcases List.mem_cons.mp h with rfl | h'
    · exact ⟨w, List.mem_cons_self .., rfl⟩
    · obtain ⟨v, hv, hkind⟩ := ih h'
      exact ⟨v, List.mem_cons_of_mem w hv, hkind⟩

end Word

/-! ### Scanning words -/

/-- In mode `m`, where the last significant token was `last`, a scan of the characters of the words
in front of `rest` reads the words and then is in the other mode. One word is one call of `lex`. -/
inductive Lexes : Mode → Option TokenKind → List Word → List Char → Mode → Prop where
  | nil (m : Mode) (last : Option TokenKind) (rest : List Char) : Lexes m last [] rest m
  | cons {m n k : Mode} {last : Option TokenKind} {w : Word} {ws : List Word} {rest : List Char}
      (nonempty : w.chars ≠ [])
      (here : ∀ before, lex ⟨m, last⟩ before (w.chars ++ (Word.text ws ++ rest))
        = ⟨w.kind, w.chars.length, n⟩)
      (more : Lexes n (if w.kind.isTrivia then last else some w.kind) ws rest k) :
      Lexes m last (w :: ws) rest k

namespace Lexes

/-- Words that are scanned one after the other (`Lexes`): the first ones in front of the others,
whose last word is what the second scan starts behind. -/
theorem append {m n k : Mode} {last : Option TokenKind} {ws vs : List Word} {rest : List Char}
    (h : Lexes m last ws (Word.text vs ++ rest) n) (h' : ∀ last, Lexes n last vs rest k) :
    Lexes m last (ws ++ vs) rest k := by
  generalize hrest : Word.text vs ++ rest = behind at h
  induction h with
  | nil => exact h' _
  | @cons m n j last w ws behind nonempty here more ih =>
    subst hrest
    rw [List.cons_append]
    refine .cons nonempty (fun before => ?_) (ih h' rfl)
    rw [Word.text_append, List.append_assoc]
    exact here before

theorem singleton {m n : Mode} {last : Option TokenKind} {w : Word} {rest : List Char}
    (nonempty : w.chars ≠ [])
    (here : ∀ before, lex ⟨m, last⟩ before (w.chars ++ rest) = ⟨w.kind, w.chars.length, n⟩) :
    Lexes m last [w] rest n :=
  .cons nonempty here (.nil ..)

/-- At any place of a source the words become the tokens from there on (`Scanner.Reads`,
`Word.tokensFrom`), by induction on the words. -/
theorem reads {m n : Mode} {last : Option TokenKind} {ws : List Word} {rest : List Char}
    (h : Lexes m last ws rest n) (done : List Char) :
    ∃ last', Scanner.Reads (.behind done (Word.text ws ++ rest) ⟨m, last⟩)
      (Word.tokensFrom (utf8Len done) ws) (.behind (done ++ Word.text ws) rest ⟨n, last'⟩) := by
  induction h generalizing done with
  | nil m last rest => exact ⟨last, by rw [Word.text_nil, List.append_nil]; exact .done _⟩
  | @cons m n k last w ws rest nonempty here more ih =>
    obtain ⟨last', hmore⟩ := ih (done ++ w.chars)
    -- a word has characters, so the scanner reads it and moves
    have hall : w.chars ++ (Word.text ws ++ rest) ≠ [] := by
      simp [nonempty]
    have hnext : (Scanner.behind done (w.chars ++ (Word.text ws ++ rest)) ⟨m, last⟩).next
        = (⟨w.kind, ⟨utf8Len done, utf8Len done + utf8Len w.chars⟩⟩,
          .behind (done ++ w.chars) (Word.text ws ++ rest)
            ⟨n, if w.kind.isTrivia then last else some w.kind⟩) := by
      rw [Scanner.next_behind hall, here]
      simp only [List.take_left, List.drop_left, String.utf8Len_append]
      rfl
    let s := Scanner.behind done (w.chars ++ (Word.text ws ++ rest)) ⟨m, last⟩
    have hmove : s.offset < s.next.2.offset := by
      have hpos := utf8Len_pos nonempty
      show utf8Len done < s.next.2.offset
      rw [hnext]
      show utf8Len done < utf8Len (done ++ w.chars)
      rw [String.utf8Len_append]
      omega
    have hrun : Scanner.Reads s
        (s.next.1 :: Word.tokensFrom (utf8Len (done ++ w.chars)) ws)
        (.behind (done ++ w.chars ++ Word.text ws) rest ⟨k, last'⟩) := by
      refine .step hmove ?_
      rw [hnext]
      exact hmore
    rw [hnext, String.utf8Len_append] at hrun
    refine ⟨last', ?_⟩
    rw [Word.text_cons, List.append_assoc, ← List.append_assoc done]
    exact hrun

end Lexes

/-! ### Finding the characters again -/

/-- The characters stand in the source from the offset on, which is that of a boundary. -/
def Stands (source : String) (offset : Nat) (cs : List Char) : Prop :=
  ∃ done rest, source.toList = done ++ cs ++ rest ∧ offset = utf8Len done

namespace Stands

variable {source : String} {offset : Nat} {cs ds : List Char}

theorem left (h : Stands source offset (cs ++ ds)) : Stands source offset cs := by
  obtain ⟨done, rest, hsource, rfl⟩ := h
  exact ⟨done, ds ++ rest, by rw [hsource]; simp only [List.append_assoc], rfl⟩

theorem right (h : Stands source offset (cs ++ ds)) : Stands source (offset + utf8Len cs) ds := by
  obtain ⟨done, rest, hsource, rfl⟩ := h
  exact ⟨done ++ cs, rest, by rw [hsource]; simp only [List.append_assoc],
    (String.utf8Len_append ..).symm⟩

theorem text (h : Stands source offset cs) :
    (Span.mk offset (offset + utf8Len cs)).text source = String.ofList cs := by
  obtain ⟨done, rest, hsource, rfl⟩ := h
  exact Span.text_of_split done cs rest hsource

theorem head {w : Word} {ws : List Word} (h : Stands source offset (Word.text (w :: ws))) :
    Stands source offset w.chars := by
  have hsplit : Stands source offset (w.chars ++ Word.text ws) := h
  exact hsplit.left

theorem tail {w : Word} {ws : List Word} (h : Stands source offset (Word.text (w :: ws))) :
    Stands source (offset + utf8Len w.chars) (Word.text ws) := by
  have hsplit : Stands source offset (w.chars ++ Word.text ws) := h
  exact hsplit.right

/-- Every token of words in a row has the kind and the characters of one of them, where these stand
in the source (`Stands`), and its span is where these stand. -/
theorem exists_word {ws : List Word} (h : Stands source offset (Word.text ws)) {t : Token}
    (ht : t ∈ Word.tokensFrom offset ws) :
    ∃ w ∈ ws, t.kind = w.kind ∧ t.text source = String.ofList w.chars := by
  induction ws generalizing offset with
  | nil => nomatch ht
  | cons w ws ih =>
    rcases List.mem_cons.mp ht with rfl | ht'
    · exact ⟨w, List.mem_cons_self .., rfl, h.head.text⟩
    · obtain ⟨v, hv, hword⟩ := ih h.tail ht'
      exact ⟨v, List.mem_cons_of_mem w hv, hword⟩

/-- Tokens have the lexical problems of their words, so words without any (`lexicalProblem?`) become
tokens without an `anomaly?`. -/
theorem anomaly {ws : List Word} (h : Stands source offset (Word.text ws))
    (hws : ∀ w ∈ ws, lexicalProblem? w.kind (String.ofList w.chars) = none) :
    ∀ t ∈ Word.tokensFrom offset ws, t.anomaly? source = none := by
  intro t ht
  obtain ⟨w, hw, hkind, htext⟩ := h.exists_word ht
  rw [Token.anomaly?, hkind, htext, hws w hw]
  rfl

end Stands

end RsxInspect
