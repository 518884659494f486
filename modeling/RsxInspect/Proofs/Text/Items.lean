import RsxInspect.Proofs.Text.Append

/-!
# The items of front-matter code

What front-matter code is split into is said here without a scan. A literal or a comment runs up to
the first place where its text is closed, or over all that is left if there is none (`Extends`);
what closes it is a property of its text (`Literal`, `Nested`). An `Item` is one of these where its
opening mark stands, and a single character elsewhere, and the items stand one behind the other
(`ItemStart`).

The bricks: `extends_literal`, `extends_block` and `extends_past` say that the measures of the
scanner find those places, `item_iff` that one step of the scan takes one item, and
`ItemStart.scanned` that the scan comes by every place where an item starts. The main result is
`codeEnd_codeLength`: the code ends at the first fence that starts a line or stands where an item
starts.
-/

namespace RsxInspect.FrontMatter

/-! ### Where a construct ends

Where a text is closed is said by a property of texts; the construct `Extends` to the shortest
beginning that has it, so this place is determined (`Extends.unique`). -/

/-- The first `n` characters of `cs` are the first beginning of `cs` that is `Closed`, or all of
`cs` if it has none. -/
inductive Extends (Closed : List Char → Prop) (cs : List Char) : Nat → Prop where
  | closed {n : Nat} (hn : n ≤ cs.length) (hclosed : Closed (cs.take n))
      (hfirst : ∀ m < n, ¬ Closed (cs.take m)) : Extends Closed cs n
  | unclosed (hopen : ∀ m, ¬ Closed (cs.take m)) : Extends Closed cs cs.length

namespace Extends

variable {Closed Closed' : List Char → Prop} {c : Char} {cs : List Char} {m n : Nat}

theorem unique (hm : Extends Closed cs m) (hn : Extends Closed cs n) : m = n := by
  cases hm with
  | closed _ hclosed hfirst =>
    cases hn with
    | closed _ hclosed' hfirst' =>
      rcases Nat.lt_trichotomy m n with hlt | heq | hgt
      · exact absurd hclosed (hfirst' m hlt)
      · exact heq
      · exact absurd hclosed' (hfirst n hgt)
    | unclosed hopen => exact absurd hclosed (hopen m)
  | unclosed hopen =>
    cases hn with
    | closed _ hclosed => exact absurd hclosed (hopen n)
    | unclosed => rfl

/-- One more character in front of what `Extends`, where no construct is closed before it. -/
theorem cons (hnil : ¬ Closed []) (hcons : ∀ m, Closed (c :: cs.take m) ↔ Closed' (cs.take m))
    (h : Extends Closed' cs n) : Extends Closed (c :: cs) (n + 1) := by
  -- one character in front: `hcons` moves every window by one, and the empty one is `hnil`
  cases h with
  | closed hn hclosed hfirst =>
    refine .closed (by simpa using hn) ?_ ?_
    · rw [List.take_succ_cons, hcons]
      exact hclosed
    · intro m hm
      cases m with
      | zero => simpa using hnil
      | succ m =>
        rw [List.take_succ_cons, hcons]
        exact hfirst m (by omega)
  | unclosed hopen =>
    refine .unclosed fun m => ?_
    cases m with
    | zero => simpa using hnil
    | succ m =>
      rw [List.take_succ_cons, hcons]
      exact hopen m

end Extends

/-- A construct that ends with its first `mark`. -/
theorem extends_past {mark : List Char} (hmark : mark ≠ []) (cs : List Char) :
    Extends (mark <:+ ·) cs (Text.past mark cs).length := by
  -- a mark at the end of a beginning of `cs` stands somewhere in `cs`
  have hstands : ∀ m, mark <:+ cs.take m →
      ∃ j, j + mark.length ≤ m ∧ mark <+: cs.drop j := by
    rintro m ⟨inside, hinside⟩
    refine ⟨inside.length, ?_, ?_⟩
    · have hlength := congrArg List.length hinside
      rw [List.length_append, List.length_take] at hlength
      omega
    · have hsplit : cs = inside ++ (mark ++ cs.drop m) := by
        rw [← List.append_assoc, hinside, List.take_append_drop]
      rw [hsplit, List.drop_left]
      exact List.prefix_append _ _
  unfold Text.past
  cases hindex : Text.indexOf? mark cs with
  | some k =>
    obtain ⟨hhere, hfirst⟩ := (Text.indexOf?_eq_some_iff hmark).mp hindex
    have hmarkAt : mark = (cs.drop k).take mark.length := List.prefix_iff_eq_take.mp hhere
    have hroom := hhere.length_le
    rw [List.length_drop] at hroom
    have hpos := List.length_pos_iff.mpr hmark
    have htake : cs.take (k + mark.length) = cs.take k ++ mark := by
      rw [List.take_add, ← hmarkAt]
    refine .closed ?_ ?_ ?_
    · show k + mark.length ≤ cs.length
      omega
    · show mark <:+ cs.take (k + mark.length)
      rw [htake]
      exact List.suffix_append _ _
    · intro m hm hclosed
      change m < k + mark.length at hm
      obtain ⟨j, hj, hleads⟩ := hstands m hclosed
      exact hfirst j (by omega) hleads
  | none =>
    refine .unclosed fun m hclosed => ?_
    obtain ⟨j, -, hleads⟩ := hstands m hclosed
    exact (Text.indexOf?_eq_none_iff hmark).mp hindex j hleads

/-! ### Literals

A `Literal` goes up to its quote, passing escapes two characters at a time, so the equations of the
measure are those of the property. -/

/-- What stands behind an opening `quote` up to the closing one. A backslash protects the character
behind it. -/
inductive Literal (quote : Char) : List Char → Prop where
  | close : Literal quote [quote]
  | escape (c : Char) {cs : List Char} (rest : Literal quote cs) : Literal quote ('\\' :: c :: cs)
  | char {c : Char} {cs : List Char} (hquote : c ≠ quote) (hescape : c ≠ '\\')
      (rest : Literal quote cs) : Literal quote (c :: cs)

section Literal

variable {quote c : Char} {cs : List Char}

theorem not_literal_nil : ¬ Literal quote [] := fun h => nomatch h

theorem literal_escape_iff (hquote : quote ≠ '\\') :
    Literal quote ('\\' :: c :: cs) ↔ Literal quote cs := by
  constructor
  · intro h
    cases h with
    | escape _ rest => exact rest
    | char _ hescape => exact absurd rfl hescape
  · exact .escape c

theorem not_literal_backslash (hquote : quote ≠ '\\') : ¬ Literal quote ['\\'] := by
  intro h
  cases h with
  | close => exact hquote rfl
  | char _ hescape => exact hescape rfl

theorem literal_char_iff (hquote : c ≠ quote) (hescape : c ≠ '\\') :
    Literal quote (c :: cs) ↔ Literal quote cs := by
  constructor
  · intro h
    cases h with
    | close => exact absurd rfl hquote
    | escape => exact absurd rfl hescape
    | char _ _ rest => exact rest
  · exact .char hquote hescape

end Literal

/-- The scan of a literal, `Quoted.body`, stops where the literal is closed, by induction on the
characters. -/
theorem extends_literal {quote : Char} (hquote : quote ≠ '\\') :
    ∀ cs, Extends (Literal quote) cs (Quoted.body true quote cs).length
  | [] => .unclosed fun m => by simpa using not_literal_nil
  | c :: cs => by
    -- the closing quote, an escape with the character behind it, or a plain character
    rw [Quoted.body_cons]
    split
    · rename_i hc
      obtain rfl := beq_iff_eq.mp hc
      refine .closed (by simp) ?_ ?_
      · simpa using Literal.close
      · intro m hm
        obtain rfl : m = 0 := by simpa using hm
        exact not_literal_nil
    · rename_i hc
      have hne : c ≠ quote := fun heq => hc (beq_iff_eq.mpr heq)
      split
      · rename_i hescape
        obtain rfl : c = '\\' := by simpa using hescape
        match cs with
        | [] =>
          refine .unclosed fun m => ?_
          cases m with
          | zero => exact not_literal_nil
          | succ m => simpa using not_literal_backslash hquote
        | d :: cs =>
          have hbehind : Extends (fun cs => Literal quote ('\\' :: cs)) (d :: cs) _ :=
            (extends_literal hquote cs).cons (not_literal_backslash hquote)
              fun m => literal_escape_iff hquote
          have hwhole := hbehind.cons not_literal_nil fun m => Iff.rfl
          rwa [Nat.add_assoc, Nat.add_comm] at hwhole
      · rename_i hescape
        have hplain : c ≠ '\\' := by simpa using hescape
        have hwhole := (extends_literal hquote cs).cons (c := c) not_literal_nil
          fun m => literal_char_iff hne hplain
        rwa [Nat.add_comm] at hwhole

/-- Characters that are neither quotes nor backslashes, and a quote behind them. -/
theorem Literal.of_plain {quote : Char} {cs : List Char} (h : ∀ c ∈ cs, c ≠ quote ∧ c ≠ '\\') :
    Literal quote (cs ++ [quote]) := by
  induction cs with
  | nil => exact .close
  | cons c cs ih =>
    have hc := h c (List.mem_cons_self ..)
    exact .char hc.1 hc.2 (ih fun d hd => h d (List.mem_cons_of_mem c hd))

/-- A literal that is closed (`Literal`) is scanned as a whole (`Quoted.body`). -/
theorem Literal.body_eq {quote : Char} {cs : List Char} (hquote : quote ≠ '\\')
    (h : Literal quote cs) : Quoted.body true quote cs = ⟨cs.length, true⟩ := by
  induction h with
  | close => simp [Quoted.body_cons]
  | @escape c cs _ ih =>
    have hne : ('\\' == quote) = false := beq_eq_false_iff_ne.mpr (Ne.symm hquote)
    rw [Quoted.body_cons, hne]
    simp [ih]
    omega
  | @char c cs hc hescape _ ih =>
    have hne : (c == quote) = false := beq_eq_false_iff_ne.mpr hc
    have hplain : (c == '\\') = false := beq_eq_false_iff_ne.mpr hescape
    rw [Quoted.body_cons, hne, hplain]
    simp [ih, Nat.add_comm]

/-! ### Block comments

Comments nest, so the property counts: each opening mark has to be answered by a closing one. -/

/-- What closes the innermost of `depth + 1` open comments and those around it, up to the closing
mark of the outermost. Each mark stands for itself, read from left to right. -/
inductive Nested : Nat → List Char → Prop where
  | close : Nested 0 ['*', '/']
  | leave {depth : Nat} {cs : List Char} (rest : Nested depth cs) :
      Nested (depth + 1) ('*' :: '/' :: cs)
  | enter {depth : Nat} {cs : List Char} (rest : Nested (depth + 1) cs) :
      Nested depth ('/' :: '*' :: cs)
  | char {depth : Nat} {c : Char} {cs : List Char} (hclose : ¬ ['*', '/'] <+: c :: cs)
      (hopen : ¬ ['/', '*'] <+: c :: cs) (rest : Nested depth cs) : Nested depth (c :: cs)

section Nested

variable {depth : Nat} {c : Char} {cs : List Char}

theorem not_nested_nil : ¬ Nested depth [] := fun h => nomatch h

theorem not_nested_single : ¬ Nested depth [c] := by
  intro h
  cases h with
  | char _ _ rest => exact not_nested_nil rest

theorem nested_leave_iff : Nested (depth + 1) ('*' :: '/' :: cs) ↔ Nested depth cs := by
  constructor
  · intro h
    cases h with
    | leave rest => exact rest
    | char hclose => simp at hclose
  · exact .leave

theorem nested_enter_iff : Nested depth ('/' :: '*' :: cs) ↔ Nested (depth + 1) cs := by
  constructor
  · intro h
    cases h with
    | enter rest => exact rest
    | char _ hopen => simp at hopen
  · exact .enter

theorem nested_char_iff (hclose : ¬ ['*', '/'] <+: c :: cs) (hopen : ¬ ['/', '*'] <+: c :: cs) :
    Nested depth (c :: cs) ↔ Nested depth cs := by
  constructor
  · intro h
    cases h with
    | close => simp at hclose
    | leave => simp at hclose
    | enter => simp at hopen
    | char _ _ rest => exact rest
  · exact .char hclose hopen

end Nested

/-- The scan of a block comment stops where the comment is closed, by induction on the characters,
for any `depth`. -/
theorem extends_blockFrom (depth n : Nat) (cs : List Char) :
    ∃ k, (Comment.blockFrom depth n cs).length = n + k ∧ Extends (Nested depth) cs k := by
  -- the cases of `blockFrom`: end of text, outermost close, inner close, open, and any other
  -- character
  fun_induction Comment.blockFrom depth n cs with
  | case1 depth n => exact ⟨0, rfl, .unclosed fun m => by simpa using not_nested_nil⟩
  | case2 n cs =>
    refine ⟨2, rfl, .closed (by simp) (by simpa using Nested.close) ?_⟩
    intro m hm
    obtain rfl | rfl : m = 0 ∨ m = 1 := by omega
    · exact not_nested_nil
    · exact not_nested_single
  | case3 n cs depth ih =>
    obtain ⟨k, hk, hrest⟩ := ih
    have hbehind : Extends (fun cs => Nested (depth + 1) ('*' :: cs)) ('/' :: cs) (k + 1) :=
      hrest.cons not_nested_single fun m => nested_leave_iff
    exact ⟨k + 2, by omega, hbehind.cons not_nested_nil fun m => Iff.rfl⟩
  | case4 depth n cs ih =>
    obtain ⟨k, hk, hrest⟩ := ih
    have hbehind : Extends (fun cs => Nested depth ('/' :: cs)) ('*' :: cs) (k + 1) :=
      hrest.cons not_nested_single fun m => nested_enter_iff
    exact ⟨k + 2, by omega, hbehind.cons not_nested_nil fun m => Iff.rfl⟩
  | case5 depth n c cs hclose hopen ih =>
    obtain ⟨k, hk, hrest⟩ := ih
    refine ⟨k + 1, by omega, hrest.cons not_nested_nil fun m => nested_char_iff ?_ ?_⟩
    · intro hmark
      obtain ⟨rest, hrest⟩ := hmark.trans (List.cons_prefix_cons.mpr ⟨rfl, List.take_prefix m cs⟩)
      obtain ⟨hc, hcs⟩ := List.cons.inj hrest
      exact hclose rest hc.symm hcs.symm
    · intro hmark
      obtain ⟨rest, hrest⟩ := hmark.trans (List.cons_prefix_cons.mpr ⟨rfl, List.take_prefix m cs⟩)
      obtain ⟨hc, hcs⟩ := List.cons.inj hrest
      exact hopen rest hc.symm hcs.symm

theorem extends_block (cs : List Char) : Extends (Nested 0) cs (Comment.block cs).length := by
  obtain ⟨k, hk, hextends⟩ := extends_blockFrom 0 0 cs
  rwa [Comment.block, hk, Nat.zero_add]

/-! ### Items -/

/-- `cs` starts with an item of `n` characters that has an opening mark, where `before` is the
character in front of it. Each constructor is a sort of item with what closes it. -/
inductive Marked (before : Option Char) : List Char → Nat → Prop where
  | string {cs : List Char} {n : Nat} (rest : Extends (Literal '"') cs n) :
      Marked before ('"' :: cs) (n + 1)
  | raw {cs : List Char} {n : Nat} (hashes : Nat) (hname : ∀ c ∈ before, isNamePart c = false)
      (rest : Extends (('"' :: List.replicate hashes '#') <:+ ·) cs n) :
      Marked before ('r' :: (List.replicate hashes '#' ++ '"' :: cs)) (hashes + n + 2)
  | char {cs : List Char} {n : Nat} (hopens : cs.head? = some '\\' ∨ cs[1]? = some '\'')
      (rest : Extends (Literal '\'') cs n) : Marked before ('\'' :: cs) (n + 1)
  | line {cs : List Char} {n : Nat} (hn : n ≤ cs.length) (hline : '\n' ∉ cs.take n)
      (hend : n = cs.length ∨ cs[n]? = some '\n') : Marked before ('/' :: '/' :: cs) (n + 2)
  | block {cs : List Char} {n : Nat} (rest : Extends (Nested 0) cs n) :
      Marked before ('/' :: '*' :: cs) (n + 2)

/-- `cs` starts with an item of `n` characters. Where no item with an opening mark stands
(`Marked`), it is a single character. -/
inductive Item (before : Option Char) : List Char → Nat → Prop where
  | marked {cs : List Char} {n : Nat} (h : Marked before cs n) : Item before cs n
  | single {c : Char} {cs : List Char} (h : ∀ n, ¬ Marked before (c :: cs) n) :
      Item before (c :: cs) 1

section Items

variable {before : Option Char} {c : Char} {cs : List Char} {n : Nat}

theorem isCharLiteral_iff :
    isCharLiteral cs = true ↔ cs.head? = some '\\' ∨ cs[1]? = some '\'' := by
  constructor
  · intro h
    unfold isCharLiteral at h
    split at h
    · exact .inl rfl
    · exact .inr rfl
    · cases h
  · intro h
    unfold isCharLiteral
    match cs, h with
    | [c], h => simp_all
    | c :: d :: cs, h => split <;> simp_all

/-- A line comment (`Comment.lineLength`) ends at the line break. -/
theorem lineLength_eq (hn : n ≤ cs.length) (hline : '\n' ∉ cs.take n)
    (hend : n = cs.length ∨ cs[n]? = some '\n') : Comment.lineLength cs = n := by
  have hall : ∀ d ∈ cs.take n, (d != '\n') = true := by
    intro d hd
    simp only [bne_iff_ne, ne_eq]
    rintro rfl
    exact hline hd
  have hstop : (cs.drop n).head?.all (! · != '\n') = true := by
    rw [List.head?_drop]
    rcases hend with rfl | hbreak
    · simp
    · simp [hbreak]
  have hcount := Text.countWhile_append hall hstop
  rw [List.take_append_drop, List.length_take, Nat.min_eq_left hn] at hcount
  exact hcount

theorem lineLength_ends (cs : List Char) : Comment.lineLength cs ≤ cs.length ∧
    '\n' ∉ cs.take (Comment.lineLength cs) ∧
    (Comment.lineLength cs = cs.length ∨ cs[Comment.lineLength cs]? = some '\n') := by
  refine ⟨Text.countWhile_le _ cs, ?_, ?_⟩
  · intro hmem
    rw [Comment.lineLength, Text.take_countWhile] at hmem
    simpa using List.mem_takeWhile_imp hmem
  · cases hnext : cs[Comment.lineLength cs]? with
    | none =>
      left
      have hle := List.getElem?_eq_none_iff.mp hnext
      exact Nat.le_antisymm (Text.countWhile_le _ cs) hle
    | some d =>
      right
      rw [← List.head?_drop, Comment.lineLength, Text.drop_countWhile] at hnext
      have hd := List.head?_dropWhile_not (· != '\n') cs
      rw [hnext] at hd
      simpa using hd

theorem rawStringHashes?_replicate (hashes : Nat) (cs : List Char) :
    rawStringHashes? (List.replicate hashes '#' ++ '"' :: cs) = some hashes := by
  have hcount : Text.countWhile (· == '#') (List.replicate hashes '#' ++ '"' :: cs) = _ :=
    Text.countWhile_append (by simp) (by simp)
  rw [List.length_replicate] at hcount
  rw [rawStringHashes?_eq_some_iff, hcount]
  exact ⟨rfl, by simp⟩

/-- What makes a raw string stands behind its `r`. -/
theorem exists_raw {hashes : Nat} (h : rawStringHashes? cs = some hashes) :
    cs = List.replicate hashes '#' ++ '"' :: cs.drop (hashes + 1) := by
  obtain ⟨-, hquote⟩ := rawStringHashes?_eq_some_iff.mp h
  obtain ⟨rest, hrest⟩ := List.head?_eq_some_iff.mp hquote
  have hhashes := take_hashes h (Nat.le_refl hashes)
  rw [← List.drop_drop, hrest, List.drop_one, List.tail_cons, ← hrest, ← hhashes,
    List.take_append_drop]

/-! What the scan takes behind the opening mark of each item. -/

theorem itemTail_string : itemTail before '"' cs = (Quoted.body true '"' cs).length := by
  simp [itemTail]

theorem itemTail_raw {hashes : Nat} (hname : ∀ c ∈ before, isNamePart c = false)
    (h : rawStringHashes? cs = some hashes) :
    itemTail before 'r' cs = hashes + 1
      + (Text.past ('"' :: List.replicate hashes '#') (cs.drop (hashes + 1))).length := by
  have hraw : before.any isNamePart = false := by
    cases before <;> simp_all
  simp [itemTail, hraw, h]

theorem itemTail_line : itemTail before '/' ('/' :: cs) = 1 + Comment.lineLength cs := by
  simp [itemTail]

theorem itemTail_block : itemTail before '/' ('*' :: cs) = 1 + (Comment.block cs).length := by
  simp [itemTail]

/-- The scan takes an item with an opening mark as a whole: `itemTail` is the rest of it. -/
theorem Marked.length_eq (h : Marked before (c :: cs) n) : n = itemTail before c cs + 1 := by
  -- the tail of each shape is computed, and what the shape says of it allows one length only
  cases h with
  | string rest =>
    rw [itemTail_string, rest.unique (extends_literal (by decide) cs)]
  | @raw cs n hashes hname rest =>
    have hdrop : (List.replicate hashes '#' ++ '"' :: cs).drop (hashes + 1) = cs := by
      rw [← List.drop_drop, List.drop_left' (by simp)]
      simp
    rw [itemTail_raw hname (rawStringHashes?_replicate hashes cs), hdrop,
      ← rest.unique (extends_past (by simp) cs)]
    omega
  | char hopens rest =>
    rw [itemTail_of_charLiteral (isCharLiteral_iff.mpr hopens),
      rest.unique (extends_literal (by decide) cs)]
  | line hn hline hend =>
    rw [itemTail_line, lineLength_eq hn hline hend]
    omega
  | block rest =>
    rw [itemTail_block, ← rest.unique (extends_block _)]
    omega

/-- Where the scan takes more than one character, an item with an opening mark stands, by the
branches of `itemTail`. -/
theorem exists_marked (h : itemTail before c cs ≠ 0) : ∃ n, Marked before (c :: cs) n := by
  -- the rules of `itemTail`, each of which names the shape it takes
  unfold itemTail at h
  split at h
  · rename_i hc
    rw [beq_iff_eq.mp hc]
    exact ⟨_, .string (extends_literal (by decide) cs)⟩
  split at h
  · rename_i hr
    cases hhashes : rawStringHashes? cs with
    | none =>
      rw [hhashes] at h
      exact absurd rfl h
    | some hashes =>
      have hname : ∀ c ∈ before, isNamePart c = false := by
        cases before <;> simp_all
      rw [eq_r_of_raw hr, exists_raw hhashes]
      exact ⟨_, .raw hashes hname (extends_past (by simp) _)⟩
  split at h
  · rename_i hchar
    rw [Bool.and_eq_true, beq_iff_eq, isCharLiteral_iff] at hchar
    obtain ⟨rfl, hopens⟩ := hchar
    exact ⟨_, .char hopens (extends_literal (by decide) cs)⟩
  split at h
  · rename_i hslash
    rw [beq_iff_eq.mp hslash]
    split at h
    · obtain ⟨hn, hline, hend⟩ := lineLength_ends _
      exact ⟨_, .line hn hline hend⟩
    · exact ⟨_, .block (extends_block _)⟩
    · exact absurd rfl h
  · exact absurd rfl h

/-- An item is what the scan takes in one step: `itemTail` and the character in front. -/
theorem item_iff : Item before (c :: cs) n ↔ n = itemTail before c cs + 1 := by
  constructor
  · intro h
    cases h with
    | marked h => exact h.length_eq
    | single hnone =>
      by_contra hne
      obtain ⟨m, hm⟩ := exists_marked (show itemTail before c cs ≠ 0 by omega)
      exact hnone m hm
  · rintro rfl
    by_cases hmarked : ∃ m, Marked before (c :: cs) m
    · obtain ⟨m, hm⟩ := hmarked
      rw [← hm.length_eq]
      exact .marked hm
    · have htail : itemTail before c cs = 0 := by
        by_contra hne
        exact hmarked (exists_marked hne)
      rw [htail]
      exact .single fun m hm => hmarked ⟨m, hm⟩

theorem Item.ne_nil (h : Item before cs n) : cs ≠ [] := by
  cases h with
  | marked h => cases h <;> simp
  | single => simp

theorem Item.unique {m : Nat} (hm : Item before cs m) (hn : Item before cs n) : m = n := by
  cases cs with
  | nil => exact absurd rfl hm.ne_nil
  | cons c cs => rw [item_iff.mp hm, item_iff.mp hn]

end Items

/-! ### Where items start

The items stand in a row from the start of the code, and the scan comes by the start of each of them
(`ItemStart.scanned`), by induction on the row. -/

/-- The character in front of position `k` of `text`, which stands behind `before`. -/
def charBefore (before : Option Char) (text : List Char) : Nat → Option Char
  | 0 => before
  | k + 1 => text[k]?

/-- Position `k` of `text` is where an item starts when `text` is split into items from its start
on, one `Item` behind the other. -/
inductive ItemStart (before : Option Char) (text : List Char) : Nat → Prop where
  | first : ItemStart before text 0
  | next {k n : Nat} (h : ItemStart before text k)
      (item : Item (charBefore before text k) (text.drop k) n) : ItemStart before text (k + n)

/-- The code in front of position `k` of `text` may end there: a fence stands at the start of a line
or where an item starts (`ItemStart`). -/
structure EndsAt (before : Option Char) (text : List Char) (k : Nat) : Prop where
  pos : 0 < k
  fence : Delimiter.fence <+: text.drop k
  place : text[k - 1]? = some '\n' ∨ ItemStart before text k

/-- The first `n` characters of `text` are the code at its start: it ends at the first place where
it `EndsAt`, or with `text`. -/
inductive CodeEnd (before : Option Char) (text : List Char) : Nat → Prop where
  | fence {n : Nat} (hends : EndsAt before text n) (hfirst : ∀ k < n, ¬ EndsAt before text k) :
      CodeEnd before text n
  | window (hnone : ∀ k, ¬ EndsAt before text k) : CodeEnd before text text.length

section Code

variable {before : Option Char} {text : List Char}

/-- What the scan of the items still takes at position `k`. -/
def itemsAt (before : Option Char) (text : List Char) (k : Nat) : Nat :=
  itemsFrom 0 (charBefore before text k) (text.drop k)

theorem itemsAt_zero : itemsAt before text 0 = itemsFrom 0 before text := rfl

theorem itemsAt_fence {k : Nat} (h : Delimiter.fence <+: text.drop k) :
    itemsAt before text k = 0 := by
  have hleads := List.isPrefixOf_iff_prefix.mpr h
  unfold itemsAt
  cases hdrop : text.drop k with
  | nil => rw [itemsFrom_nil]
  | cons c cs =>
    rw [hdrop] at hleads
    rw [itemsFrom_cons, if_pos hleads]

/-- Where no fence stands, the scan (`itemsAt`) goes on over one `Item`. -/
theorem exists_item (before : Option Char) {k : Nat} (hk : k < text.length)
    (hfence : ¬ Delimiter.fence <+: text.drop k) :
    ∃ n, Item (charBefore before text k) (text.drop k) n ∧ 0 < n ∧ k + n ≤ text.length ∧
      itemsAt before text k = n + itemsAt before text (k + n) := by
  obtain ⟨c, cs, hdrop⟩ := List.exists_cons_of_ne_nil
    (show text.drop k ≠ [] by simpa [List.drop_eq_nil_iff] using hk)
  have htail := itemTail_le (charBefore before text k) c cs
  have hlength : text.length - k = cs.length + 1 := by
    rw [← List.length_drop, hdrop, List.length_cons]
  generalize hn : itemTail (charBefore before text k) c cs = tail at htail
  refine ⟨tail + 1, ?_, by omega, by omega, ?_⟩
  · rw [hdrop, item_iff, hn]
  -- behind the item, the scan goes on as it does from there in the whole text
  · have hno : ¬ Delimiter.fence.isPrefixOf (c :: cs) = true := by
      rwa [← hdrop, List.isPrefixOf_iff_prefix]
    have hbehind : (c :: cs)[tail]? = charBefore before text (k + (tail + 1)) := by
      rw [← hdrop, List.getElem?_drop]
      rfl
    have hrest : cs.drop tail = text.drop (k + (tail + 1)) := by
      rw [← List.drop_drop, hdrop, List.drop_succ_cons]
    rw [itemsAt, hdrop, itemsFrom_cons, if_neg hno, hn, hbehind, hrest, itemsAt]
    omega

/-- The scan of the items comes by each place where an item starts, up to where it stops. The
induction is on `ItemStart`. -/
theorem ItemStart.scanned {k : Nat} (h : ItemStart before text k) :
    k + itemsAt before text k = itemsFrom 0 before text ∨ itemsFrom 0 before text < k := by
  induction h with
  | first => simp [itemsAt_zero]
  | @next k n _ item ih =>
    rcases ih with hscanned | hbehind
    · have hk : k < text.length := by
        simpa [List.drop_eq_nil_iff] using item.ne_nil
      -- a fence ends the scan at `k`, so an item that starts behind it is not scanned any more
      by_cases hfence : Delimiter.fence <+: text.drop k
      · right
        obtain ⟨c, cs, hdrop⟩ := List.exists_cons_of_ne_nil item.ne_nil
        have hn : 0 < n := by
          rw [hdrop] at item
          rw [item_iff.mp item]
          omega
        rw [itemsAt_fence hfence] at hscanned
        omega
      · left
        obtain ⟨m, hitem, -, -, hmore⟩ := exists_item before hk hfence
        rw [item.unique hitem]
        omega
    · right
      omega

/-- Where the scan of the items stops (`itemsFrom`), an item starts (`ItemStart`). -/
theorem itemStart_itemsFrom (hstop : itemsFrom 0 before text < text.length) :
    ItemStart before text (itemsFrom 0 before text) := by
  -- from one start of an item to the next, by the number of characters left
  have key : ∀ (size k : Nat), text.length - k ≤ size → ItemStart before text k →
      k + itemsAt before text k < text.length →
      ItemStart before text (k + itemsAt before text k) := by
    intro size
    induction size with
    | zero =>
      intro k hsize _ hlt
      omega
    | succ size ih =>
      intro k hsize hstart hlt
      by_cases hfence : Delimiter.fence <+: text.drop k
      · rw [itemsAt_fence hfence]
        exact hstart
      · obtain ⟨n, hitem, hn, -, hmore⟩ := exists_item before (by omega) hfence
        rw [hmore, ← Nat.add_assoc] at hlt ⊢
        exact ih (k + n) (by omega) (hstart.next hitem) hlt
  have h := key text.length 0 (by omega) .first (by rw [Nat.zero_add]; exact hstop)
  rwa [Nat.zero_add] at h

/-! ### The first line that starts with a fence -/

theorem fenceLine_iff {j : Nat} : '\n' :: Delimiter.fence <+: text.drop j ↔
    text[j]? = some '\n' ∧ Delimiter.fence <+: text.drop (j + 1) := by
  rw [← List.drop_drop, ← List.head?_drop]
  cases text.drop j with
  | nil => simp
  | cons c cs => simp [List.cons_prefix_cons, eq_comm]

/-- No line inside of what may belong to the code (`reach`) starts with a fence. -/
theorem reach_le_of_fenceLine {k : Nat} (hk : 0 < k) (hbreak : text[k - 1]? = some '\n')
    (hfence : Delimiter.fence <+: text.drop k) : (reach text).length ≤ k := by
  have hline : '\n' :: Delimiter.fence <+: text.drop (k - 1) := by
    rw [fenceLine_iff, Nat.sub_add_cancel hk]
    exact ⟨hbreak, hfence⟩
  unfold reach
  cases hindex : Text.indexOf? ('\n' :: Delimiter.fence) text with
  | none => exact absurd hline ((Text.indexOf?_eq_none_iff (by simp)).mp hindex (k - 1))
  | some j =>
    obtain ⟨-, hfirst⟩ := (Text.indexOf?_eq_some_iff (by simp)).mp hindex
    have hj : j ≤ k - 1 := by
      by_contra hlt
      exact hfirst (k - 1) (by omega) hline
    show (text.take (j + 1)).length ≤ k
    rw [List.length_take]
    omega

/-- A fence that stands in front of a line break ends in front of it. -/
theorem fence_le_lineBreak {k j : Nat} (hfence : Delimiter.fence <+: text.drop k)
    (hbreak : text[j]? = some '\n') (hle : k ≤ j) : k + 3 ≤ j := by
  obtain ⟨behind, hbehind⟩ := hfence
  rw [← Nat.add_sub_cancel' hle, ← List.getElem?_drop, ← hbehind] at hbreak
  by_contra hlt
  obtain h | h | h : j - k = 0 ∨ j - k = 1 ∨ j - k = 2 := by omega
  all_goals simp [h, Delimiter.fence] at hbreak

/-! ### The end of the code

Two things end the code, a fence that starts a line and one at the start of an item, and
`codeLength` is the smaller of the two places. -/

/-- The code (`codeLength`) ends where the scan of all items would stop, or in front of the first
line that starts with a fence. The cut at that line changes no item in front of it that matters,
since an item that it cuts runs over the cut anyway. -/
theorem codeLength_eq_min (before : Option Char) (text : List Char) :
    codeLength before text = min (itemsFrom 0 before text) (reach text).length := by
  have hreach := reach_eq_take text
  have hle := (reach_leads text).length_le
  have hitems := itemsFrom_le before text
  rcases Nat.lt_or_ge (reach text).length text.length with hcut | hwhole
  · obtain ⟨j, hj, hbreak⟩ := lineBreak_of_reach hcut
    have hsame : min (itemsFrom 0 before text) (itemsFrom 0 before (reach text)) + 3
        ≤ (reach text).length →
        itemsFrom 0 before (reach text) = itemsFrom 0 before text := by
      intro hroom
      rw [hreach] at hroom ⊢
      exact itemsFrom_take (by omega) (by rw [← hreach] at hroom ⊢; exact hroom)
    have hinside := itemsFrom_le before (reach text)
    unfold codeLength
    rcases itemsFrom_cases before (reach text) with hall | ⟨hroom, -⟩
    · -- an item that starts at a fence in front of the line would be seen in front of it
      have hbeyond : (reach text).length ≤ itemsFrom 0 before text := by
        by_contra hlt
        rcases itemsFrom_cases before text with hend | ⟨-, hfence⟩
        · omega
        · have := fence_le_lineBreak hfence hbreak (by omega)
          have := hsame (by omega)
          omega
      omega
    · have := hsame (by omega)
      omega
  · have hall : reach text = text := by
      rw [hreach, List.take_of_length_le hwhole]
    rw [codeLength, hall]
    omega

/-- Front-matter code ends (`CodeEnd`) at the first fence that starts a line or stands where an item
starts. -/
theorem codeEnd_codeLength (htext : text ≠ []) (hfence : ¬ Delimiter.fence <+: text) :
    CodeEnd before text (codeLength before text) := by
  have hpos : 0 < codeLength before text :=
    codeLength_pos htext (by rwa [List.isPrefixOf_iff_prefix])
  have hmin := codeLength_eq_min before text
  -- nothing ends the code before its length: a fence line would shorten its reach, a fence at an
  -- item the items
  have hfirst : ∀ k < codeLength before text, ¬ EndsAt before text k := by
    rintro k hk ⟨hkpos, hleads, hbreak | hstart⟩
    · have := reach_le_of_fenceLine hkpos hbreak hleads
      omega
    · have hstop : itemsAt before text k = 0 := itemsAt_fence hleads
      have := hstart.scanned
      omega
  rcases Nat.lt_or_ge (codeLength before text) text.length with hlt | hge
  · refine .fence ⟨hpos, fence_behind_code hlt, ?_⟩ hfirst
    -- the shorter of the two ends is the one the code stops at
    rcases Nat.lt_or_ge (itemsFrom 0 before text) (reach text).length with hitems | hline
    · right
      have heq : codeLength before text = itemsFrom 0 before text := by omega
      rw [heq] at hlt ⊢
      exact itemStart_itemsFrom hlt
    · left
      have heq : codeLength before text = (reach text).length := by omega
      rw [heq] at hlt ⊢
      obtain ⟨j, hj, hbreak⟩ := lineBreak_of_reach hlt
      rwa [hj, Nat.add_sub_cancel]
  · have hall : codeLength before text = text.length := by
      have := itemsFrom_le before text
      omega
    rw [hall] at hfirst ⊢
    refine .window fun k hends => ?_
    rcases Nat.lt_or_ge k text.length with hk | hk
    · exact hfirst k hk hends
    · have hleads := hends.fence
      rw [List.drop_eq_nil_of_le hk] at hleads
      simp [Delimiter.fence] at hleads

end Code

end RsxInspect.FrontMatter
