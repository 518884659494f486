import RsxInspect.Proofs.Stream.TokenList
import RsxInspect.Proofs.Template.Extent

/-!
# The head of a loop, asked of a stream

A reader of streams does not see the run of a loop as a whole. It passes tokens up to the word `as`,
tries to pass the names of a binding, and where one of them is missing or something stands behind
them it goes back and passes the run once more (`TokenStream.ReadsLoopHead`).

`StandsAt` says what is ahead of a stream, and there is a lemma for each operation (`StandsAt.peek`,
`StandsAt.bump`, `StandsAt.eat`, `StandsAt.rollback`), for passing tokens (`StandsAt.takes`), and
for the binding (`Passed`). Wherever the attempt fails, the outcome is that of `readLoopHead`, which
has all of the run before its eyes; the stream stands right behind the run; and no token was looked
at twice for what is wrong with it (`StandsAt.readsLoopHead`).
-/

namespace RsxInspect

/-! ### The head of a whole run

The attempt and what follows if it fails, on a run that is given as a whole:
`LoopBinding.behindList?` finds the binding, or the head has none. -/

section Runs

variable {r : Reading} {run : List Token}

/-- The binding that stands behind the list at the front of a run, if that is not empty: what is
behind the first `as`, read by `LoopBinding.ofRun?`. -/
def LoopBinding.behindList? (r : Reading) (run : List Token) : Option LoopBinding :=
  if (run.takeWhile (·.kind != .asWord)).isEmpty then none
  else LoopBinding.ofRun? r (run.dropWhile (·.kind != .asWord))

/-- A list with a binding behind it (`LoopBinding.behindList?`) is read as an expression of its
own. -/
theorem readLoopHead_of_some {binding : LoopBinding}
    (h : LoopBinding.behindList? r run = some binding) :
    readLoopHead r run
      = (((Expression.ofRun? r (run.takeWhile (·.kind != .asWord)) true).1, some binding),
        (Expression.ofRun? r (run.takeWhile (·.kind != .asWord)) true).2, []) := by
  rw [LoopBinding.behindList?] at h
  split at h
  · cases h
  · rename_i hlist
    unfold readLoopHead
    dsimp only
    rw [drop_length_takeWhile, h]
    dsimp only
    rw [if_neg hlist]

/-- Everything else is read as a whole, by `readLoopHead.unbound`. -/
theorem readLoopHead_of_none (h : LoopBinding.behindList? r run = none) :
    readLoopHead r run = readLoopHead.unbound r run := by
  rw [LoopBinding.behindList?] at h
  unfold readLoopHead
  dsimp only
  rw [drop_length_takeWhile]
  cases hbinding : LoopBinding.ofRun? r (run.dropWhile (·.kind != .asWord)) with
  | none => rfl
  | some binding =>
    rw [hbinding] at h
    split at h
    · rename_i hlist
      exact if_pos hlist
    · cases h

end Runs

namespace TokenStream

/-! ### The head on a stream

The same on a stream, which does not know where the run ends before it is there. A step that fails
leaves the stream where it has come to, and only `rollback` takes it back. -/

/-- Passes tokens up to one of a kind that stops it, which stays ahead. -/
inductive Takes (stops : TokenKind → Bool) : TokenStream → List Token → TokenStream → Prop where
  | done {s : TokenStream} (h : stops s.peek.1.kind = true) : Takes stops s [] s.peek.2
  | pass {s s' : TokenStream} {ts : List Token} (h : stops s.peek.1.kind = false)
      (rest : Takes stops s.peek.2.bump.2 ts s') : Takes stops s (s.peek.2.bump.1 :: ts) s'

/-- Passes a comma and the name of an index behind the name of an item. -/
def eatIndex? (s : TokenStream) (word item : Token) : Option LoopBinding × TokenStream :=
  match s.eat? .comma with
  | (none, s) => (some ⟨item.text s.source, none, ⟨word.span.start, item.span.stop⟩⟩, s)
  | (some _, s) =>
    match s.eat? .identifier with
    | (none, s) => (none, s)
    | (some index, s) =>
      (some ⟨item.text s.source, some (index.text s.source), ⟨word.span.start, index.span.stop⟩⟩, s)

/-- Passes the names of a binding, and gives up at the first token that is another one. -/
def eatBinding? (s : TokenStream) : Option LoopBinding × TokenStream :=
  match s.eat? .asWord with
  | (none, s) => (none, s)
  | (some word, s) =>
    match s.eat? .identifier with
    | (none, s) => (none, s)
    | (some item, s) => s.eatIndex? word item

/-- The binding behind the tokens of a list, if that is not empty and the run ends behind the
names. -/
def bindingBehind? (s : TokenStream) (list : List Token) : Option LoopBinding × TokenStream :=
  match s.eatBinding? with
  | (none, s) => (none, s)
  | (some binding, s) =>
    if list.isEmpty then (none, s)
    else (if s.peek.1.kind.endsRun then some binding else none, s.peek.2)

/-- Reads the head of a loop, as the requests `bump`, `eat?` and `rollback` do it: the list and the
binding, or, back at the start, all of the run. One constructor is the attempt that comes off, the
other the one that is taken back. -/
inductive ReadsLoopHead (r : Reading) (s : TokenStream) :
    (Option Expression × Option LoopBinding) × List Diagnostic × List Event → TokenStream → Prop where
  | bound {list : List Token} {binding : LoopBinding} {s₁ s₂ : TokenStream}
      (hlist : s.Takes (fun k => k.endsRun || k == .asWord) list s₁)
      (hbinding : s₁.bindingBehind? list = (some binding, s₂)) :
      ReadsLoopHead r s (((Expression.ofRun? r list true).1, some binding),
        (Expression.ofRun? r list true).2, []) s₂
  | unbound {list run : List Token} {s₁ s₂ s₃ : TokenStream}
      (hlist : s.Takes (fun k => k.endsRun || k == .asWord) list s₁)
      (hnone : s₁.bindingBehind? list = (none, s₂))
      (hrun : (s₂.rollback s.index).Takes TokenKind.endsRun run s₃) :
      ReadsLoopHead r s (readLoopHead.unbound r run) s₃

/-! ### Where a stream stands

`StandsAt` speaks of the tokens ahead and says nothing of the buffer, so a `rollback` leads to the
same statement with the tokens that were ahead before. -/

/-- The stream over the tokens of a source is about to read those ahead: it `Buffers` the tokens,
and `ahead` is what its index leaves of them. -/
structure StandsAt (source : String) (tokens : List Token) (s : TokenStream) (ahead : List Token) :
    Prop where
  buffers : s.Buffers tokens
  source : s.source = source
  ahead : tokens.drop s.index = ahead

namespace StandsAt

variable {source : String} {tokens ahead ts us : List Token} {s s' : TokenStream} {t : Token}

/-- Whatever is asked of it, a stream stands somewhere in the tokens of its scan, by
`InOrder.run`. -/
theorem of_session {scanner : Scanner} (h : scanner.listing? = some tokens)
    (requests : List StreamRequest) :
    let s := (StreamSession.run TokenStream.serve requests ⟨.ofScanner source scanner, []⟩).2.reader
    s.StandsAt source tokens (tokens.drop s.index) := by
  intro s
  have hstart : InOrder ⟨.ofScanner source scanner, []⟩ tokens := ⟨.ofScanner h source, nofun⟩
  obtain ⟨-, hlisted, -, hend, -⟩ := hstart.run requests
  have hreader := congrArg (fun session => session.reader.source) hlisted
  exact ⟨hend.reader, hreader.trans (TokenList.run_source requests _), rfl⟩

theorem length (h : s.StandsAt source tokens ahead) :
    s.index + ahead.length = tokens.length := by
  have hlt := h.buffers.index_lt
  rw [← h.ahead, List.length_drop]
  omega

/-- Something is always ahead, at least `eof`. -/
theorem exists_cons (h : s.StandsAt source tokens ahead) : ∃ t ts, ahead = t :: ts := by
  rw [← h.ahead]
  exact ⟨_, _, List.drop_eq_getElem_cons h.buffers.index_lt⟩

theorem peekAt_zero (h : s.StandsAt source tokens (t :: ts)) : (s.listed tokens).peekAt 0 = t := by
  have hlt := h.buffers.index_lt
  have hplace : min (s.index + 0) (tokens.length - 1) = s.index := by omega
  show (tokens[min (s.index + 0) (tokens.length - 1)]?).getD default = t
  rw [hplace, ← List.head?_drop, h.ahead]
  rfl

/-- Looking at the next token leaves the stream where it is (`StandsAt`). -/
theorem peek (h : s.StandsAt source tokens (t :: ts)) :
    s.peek.1 = t ∧ s.peek.2.StandsAt source tokens (t :: ts) := by
  obtain ⟨htoken, -, hlisted, hbuffers, -⟩ := h.buffers.peekAt 0
  refine ⟨htoken.trans h.peekAt_zero, hbuffers, ?_, ?_⟩
  · exact (congrArg TokenList.source hlisted).trans h.source
  · have hindex : s.peek.2.index = s.index := congrArg TokenList.index hlisted
    rw [hindex]
    exact h.ahead

/-- A token that is not `eof` can be passed. -/
theorem bump (h : s.StandsAt source tokens (t :: ts)) (ht : t.kind ≠ .eof) :
    s.bump.1 = t ∧ s.bump.2.StandsAt source tokens ts := by
  obtain ⟨htoken, -, hlisted, hbuffers, -⟩ := h.buffers.bump
  rw [TokenList.bump, h.peekAt_zero, if_neg ht] at hlisted
  refine ⟨htoken.trans h.peekAt_zero, hbuffers, ?_, ?_⟩
  · exact (congrArg TokenList.source hlisted).trans h.source
  · have hindex : s.bump.2.index = s.index + 1 := congrArg TokenList.index hlisted
    rw [hindex, ← List.drop_drop, h.ahead]
    rfl

/-- The next token is passed if it is of the kind that is asked for. -/
theorem eat (h : s.StandsAt source tokens (t :: ts)) (kind : TokenKind) (hkind : kind ≠ .eof) :
    (t.kind = kind ∧ ∃ s', s.eat? kind = (some t, s') ∧ s'.StandsAt source tokens ts) ∨
      (t.kind ≠ kind ∧ ∃ s', s.eat? kind = (none, s') ∧ s'.StandsAt source tokens (t :: ts)) := by
  obtain ⟨htoken, hpeek⟩ := h.peek
  unfold TokenStream.eat?
  dsimp only
  rw [htoken]
  by_cases ht : t.kind = kind
  · obtain ⟨hbumped, hbump⟩ := hpeek.bump (ht ▸ hkind)
    rw [if_pos (beq_iff_eq.mpr ht), hbumped]
    exact .inl ⟨ht, _, rfl, hbump⟩
  · rw [if_neg (mt beq_iff_eq.mp ht)]
    exact .inr ⟨ht, _, rfl, hpeek⟩

/-- Going back to where the stream stood before (`TokenStream.rollback`): the tokens passed since
are ahead again. -/
theorem rollback (h : s.StandsAt source tokens ahead) (h' : s'.StandsAt source tokens ts)
    (hle : ts.length ≤ ahead.length) : (s'.rollback s.index).StandsAt source tokens ahead := by
  have hhere := h.length
  have hthere := h'.length
  have hbuffered := h'.buffers.index_le
  exact ⟨h'.buffers.rollback (by omega) h.buffers.index_lt, h'.source, h.ahead⟩

/-! ### Passing tokens

The tokens that are passed are those of the run in front of the first one that stops, so a stream
takes what `takeWhile` takes. `Passed` follows the attempt step by step. -/

/-- In a run with something behind it that does not pass, only the run counts. -/
theorem takeWhile_run {α : Type} {p q : α → Bool} {run : List α} {x : α} (hx : p x = false)
    (hrun : ∀ y ∈ run, p y = q y) (tail : List α) :
    (run ++ x :: tail).takeWhile p = run.takeWhile q ∧
      (run ++ x :: tail).dropWhile p = run.dropWhile q ++ x :: tail := by
  induction run with
  | nil => simp [hx]
  | cons y run ih =>
    obtain ⟨hy, hrun⟩ := List.forall_mem_cons.mp hrun
    obtain ⟨htake, hdrop⟩ := ih hrun
    rw [List.cons_append]
    cases hpass : q y with
    | true => simp [hy, hpass, htake, hdrop]
    | false => simp [hy, hpass]

/-- What is taken are the tokens up to the first one that stops (`takeWhile`), and the stream stands
in front of that one. -/
theorem takes {stops : TokenKind → Bool} (h : s.StandsAt source tokens ahead)
    (heof : stops .eof = true) (htakes : s.Takes stops us s') :
    us = ahead.takeWhile (!stops ·.kind) ∧
      s'.StandsAt source tokens (ahead.dropWhile (!stops ·.kind)) := by
  -- the stream passes tokens up to the first that stops, which is the `takeWhile`; `eof` stops in
  -- any case
  induction htakes generalizing ahead with
  | done hstop =>
    obtain ⟨t, ts, rfl⟩ := h.exists_cons
    obtain ⟨htoken, hpeek⟩ := h.peek
    rw [htoken] at hstop
    rw [List.takeWhile_cons_of_neg (by simp [hstop]), List.dropWhile_cons_of_neg (by simp [hstop])]
    exact ⟨rfl, hpeek⟩
  | pass hgo _ ih =>
    obtain ⟨t, ts, rfl⟩ := h.exists_cons
    obtain ⟨htoken, hpeek⟩ := h.peek
    rw [htoken] at hgo
    have ht : t.kind ≠ .eof := fun hkind => by simp [hkind, heof] at hgo
    obtain ⟨hbumped, hbump⟩ := hpeek.bump ht
    obtain ⟨hmore, hbehind⟩ := ih hbump
    rw [List.takeWhile_cons_of_pos (by simp [hgo]), List.dropWhile_cons_of_pos (by simp [hgo]),
      hbumped, hmore]
    exact ⟨rfl, hbehind⟩

/-- The stream comes to a token that stops, if `eof` is one. -/
theorem exists_takes (h : s.StandsAt source tokens ahead) (stops : TokenKind → Bool)
    (heof : stops .eof = true) : ∃ us s', s.Takes stops us s' := by
  induction ahead generalizing s with
  | nil =>
    obtain ⟨t, ts, hnil⟩ := h.exists_cons
    cases hnil
  | cons t ts ih =>
    obtain ⟨htoken, hpeek⟩ := h.peek
    cases hstop : stops t.kind with
    | true => exact ⟨[], _, .done (htoken ▸ hstop)⟩
    | false =>
      have ht : t.kind ≠ .eof := fun hkind => by simp [hkind, heof] at hstop
      obtain ⟨us, s', hmore⟩ := ih (hpeek.bump ht).2
      exact ⟨_, s', .pass (htoken ▸ hstop) hmore⟩

/-- The stream has passed names of a binding as far as they are there, and `left` is what it left of
the run. If that is nothing, then the binding is that of all the names (`LoopBinding.ofRun?`);
otherwise these are none. -/
structure Passed (r : Reading) (tokens names run tail : List Token)
    (outcome : Option LoopBinding × TokenStream) (left : List Token) : Prop where
  suffix : left <:+ run
  stands : outcome.2.StandsAt r.source tokens (left ++ tail)
  all : left = [] → outcome.1 = LoopBinding.ofRun? r names
  more : left ≠ [] → LoopBinding.ofRun? r names = none

variable {r : Reading} {run tail : List Token} {word item : Token}

theorem eatIndex (h : s.StandsAt r.source tokens (run ++ t :: tail)) (ht : t.kind.endsRun = true)
    (hword : word.kind = .asWord) (hitem : item.kind = .identifier) :
    ∃ left, Passed r tokens (word :: item :: run) run (t :: tail) (s.eatIndex? word item) left := by
  have hcomma : t.kind ≠ .comma := fun hkind => by rw [hkind] at ht; cases ht
  have hname : t.kind ≠ .identifier := fun hkind => by rw [hkind] at ht; cases ht
  unfold eatIndex?
  -- by what stands behind the name: nothing, a comma, a comma and a name, or something else
  match run with
  | [] =>
    obtain ⟨hkind, -⟩ | ⟨-, s₁, heat, h₁⟩ := h.eat .comma nofun
    · exact absurd hkind hcomma
    · rw [heat]
      refine ⟨[], List.suffix_refl _, h₁, fun _ => ?_, fun hne => absurd rfl hne⟩
      simp [LoopBinding.ofRun?, hword, hitem, Reading.textOf, h₁.source]
  | comma :: run =>
    obtain ⟨hkind, s₁, heat, h₁⟩ | ⟨hkind, s₁, heat, h₁⟩ := h.eat .comma nofun
    · rw [heat]
      dsimp only
      match run with
      | [] =>
        obtain ⟨hindex, -⟩ | ⟨-, s₂, heat₂, h₂⟩ := h₁.eat .identifier nofun
        · exact absurd hindex hname
        · rw [heat₂]
          exact ⟨[], List.nil_suffix, h₂, fun _ => rfl, fun hne => absurd rfl hne⟩
      | index :: run =>
        obtain ⟨hindex, s₂, heat₂, h₂⟩ | ⟨hindex, s₂, heat₂, h₂⟩ :=
          h₁.eat .identifier nofun
        · rw [heat₂]
          refine ⟨run, ⟨[comma, index], rfl⟩, h₂, ?_, ?_⟩
          · rintro rfl
            simp [LoopBinding.ofRun?, hword, hitem, hkind, hindex, Reading.textOf, h₂.source]
          · intro hne
            cases run with
            | nil => exact absurd rfl hne
            | cons => rfl
        · rw [heat₂]
          refine ⟨index :: run, ⟨[comma], rfl⟩, h₂, nofun, fun _ => ?_⟩
          cases run <;> simp [LoopBinding.ofRun?, hindex]
    · rw [heat]
      refine ⟨comma :: run, List.suffix_refl _, h₁, nofun, fun _ => ?_⟩
      -- `ofRun?` is a match on the whole run, so it evaluates only once its length is known
      match run with
      | [] => rfl
      | [index] => simp [LoopBinding.ofRun?, hkind]
      | _ :: _ :: _ => rfl

theorem eatBinding (h : s.StandsAt r.source tokens (run ++ t :: tail)) (ht : t.kind.endsRun = true) :
    ∃ left, Passed r tokens run run (t :: tail) s.eatBinding? left := by
  have has : t.kind ≠ .asWord := fun hkind => by rw [hkind] at ht; cases ht
  have hname : t.kind ≠ .identifier := fun hkind => by rw [hkind] at ht; cases ht
  unfold eatBinding?
  -- by what stands behind the list: nothing, `as`, `as` and a name, or something else
  match run with
  | [] =>
    obtain ⟨hkind, -⟩ | ⟨-, s₁, heat, h₁⟩ := h.eat .asWord nofun
    · exact absurd hkind has
    · rw [heat]
      exact ⟨[], List.suffix_refl _, h₁, fun _ => rfl, fun hne => absurd rfl hne⟩
  | word :: run =>
    obtain ⟨hword, s₁, heat, h₁⟩ | ⟨hword, s₁, heat, h₁⟩ := h.eat .asWord nofun
    · rw [heat]
      dsimp only
      match run with
      | [] =>
        obtain ⟨hkind, -⟩ | ⟨-, s₂, heat₂, h₂⟩ := h₁.eat .identifier nofun
        · exact absurd hkind hname
        · rw [heat₂]
          exact ⟨[], List.nil_suffix, h₂, fun _ => rfl, fun hne => absurd rfl hne⟩
      | item :: run =>
        obtain ⟨hitem, s₂, heat₂, h₂⟩ | ⟨hitem, s₂, heat₂, h₂⟩ := h₁.eat .identifier nofun
        · rw [heat₂]
          obtain ⟨left, hleft⟩ := eatIndex h₂ ht hword hitem
          exact ⟨left, hleft.suffix.trans ⟨[word, item], rfl⟩, hleft.stands, hleft.all, hleft.more⟩
        · rw [heat₂]
          refine ⟨item :: run, ⟨[word], rfl⟩, h₂, nofun, fun _ => ?_⟩
          match run with
          | [] => simp [LoopBinding.ofRun?, hitem]
          | [_] => rfl
          | [_, _] => simp [LoopBinding.ofRun?, hitem]
          | _ :: _ :: _ :: _ => rfl
    · rw [heat]
      refine ⟨word :: run, List.suffix_refl _, h₁, nofun, fun _ => ?_⟩
      match run with
      | [] => rfl
      | [_] => simp [LoopBinding.ofRun?, hword]
      | [_, _] => rfl
      | [_, _, _] => simp [LoopBinding.ofRun?, hword]
      | _ :: _ :: _ :: _ :: _ => rfl

/-- The binding behind a list is that of all that is left of the run (`LoopBinding.behindList?`), if
the list is not empty. -/
theorem bindingBehind (list : List Token) (h : s.StandsAt r.source tokens (run ++ t :: tail))
    (ht : t.kind.endsRun = true) (hrun : ∀ u ∈ run, u.kind.endsRun = false) :
    (s.bindingBehind? list).1 = (if list.isEmpty then none else LoopBinding.ofRun? r run) ∧
      ∃ left, left <:+ run ∧
        (s.bindingBehind? list).2.StandsAt r.source tokens (left ++ t :: tail) ∧
        ((s.bindingBehind? list).1.isSome = true → left = []) := by
  obtain ⟨left, hsuffix, hstands, hall, hmore⟩ := eatBinding h ht
  -- where names are left, something stands behind them that ends no run
  have hnext : ∀ u us, left ++ t :: tail = u :: us → (u.kind.endsRun = true ↔ left = []) := by
    intro u us heq
    cases left with
    | nil =>
      obtain ⟨rfl, -⟩ := List.cons.inj heq
      exact ⟨fun _ => rfl, fun _ => ht⟩
    | cons v vs =>
      obtain ⟨rfl, -⟩ := List.cons.inj heq
      rw [hrun v (hsuffix.subset (List.mem_cons_self ..))]
      exact ⟨nofun, nofun⟩
  have hnone : left ≠ [] → (if list.isEmpty then none else LoopBinding.ofRun? r run) = none := by
    intro hne
    rw [hmore hne, ite_self]
  unfold bindingBehind?
  generalize s.eatBinding? = outcome at hstands hall
  obtain ⟨binding?, s₁⟩ := outcome
  cases binding? with
  | none =>
    refine ⟨?_, left, hsuffix, hstands, nofun⟩
    by_cases hleft : left = []
    · rw [← hall hleft, ite_self]
    · exact (hnone hleft).symm
  | some binding =>
    dsimp only at hstands hall ⊢
    by_cases hlist : list.isEmpty = true
    · rw [if_pos hlist, if_pos hlist]
      exact ⟨rfl, left, hsuffix, hstands, nofun⟩
    · obtain ⟨u, us, hahead⟩ := hstands.exists_cons
      have hends := hnext u us hahead
      rw [hahead] at hstands
      obtain ⟨htoken, hpeek⟩ := hstands.peek
      rw [← hahead] at hpeek
      rw [if_neg hlist, if_neg hlist, htoken]
      by_cases hleft : left = []
      · rw [if_pos (hends.mpr hleft)]
        exact ⟨hall hleft, left, hsuffix, hpeek, fun _ => hleft⟩
      · rw [if_neg (mt hends.mp hleft)]
        exact ⟨(hmore hleft).symm, left, hsuffix, hpeek, nofun⟩

/-- **Trying and going back.** Let a run and what ends it be ahead of a stream. The stream can be
asked for the head of a loop, and whatever comes of the attempt, the head is the one that is read of
the run as a whole (`readLoopHead`), and the stream stands right behind the run. -/
theorem readsLoopHead (h : s.StandsAt r.source tokens (run ++ t :: tail))
    (ht : t.kind.endsRun = true) (hrun : ∀ u ∈ run, u.kind.endsRun = false) :
    (∃ head s', s.ReadsLoopHead r head s') ∧
      ∀ head s', s.ReadsLoopHead r head s' →
        head = readLoopHead r run ∧ s'.StandsAt r.source tokens (t :: tail) := by
  let list := run.takeWhile (·.kind != .asWord)
  let names := run.dropWhile (·.kind != .asWord)
  have hsub : names <:+ run := List.dropWhile_suffix _
  have hnames : ∀ u ∈ names, u.kind.endsRun = false := fun u hu => hrun u (hsub.subset hu)
  -- the list ends at the first `as` of the run, or with the run
  obtain ⟨htake, hdrop⟩ : _ = list ∧ _ = names ++ t :: tail :=
    takeWhile_run (p := fun u : Token => !(u.kind.endsRun || u.kind == .asWord)) (by simp [ht])
      (fun u hu => by simp [hrun u hu, bne]) tail
  obtain ⟨hall, hend⟩ : (run ++ t :: tail).takeWhile (!·.kind.endsRun) = run ∧
      (run ++ t :: tail).dropWhile (!·.kind.endsRun) = t :: tail := by
    have hpass : ∀ u ∈ run, (!u.kind.endsRun) = true := fun u hu => by simp [hrun u hu]
    rw [List.takeWhile_append_of_pos hpass, List.dropWhile_append_of_pos hpass]
    simp [ht]
  -- the list is passed, and then the names are tried
  have hbehind : ∀ us s₁, s.Takes (fun k => k.endsRun || k == .asWord) us s₁ → us = list ∧
      (s₁.bindingBehind? us).1 = LoopBinding.behindList? r run ∧
      ∃ left, left <:+ names ∧
        (s₁.bindingBehind? us).2.StandsAt r.source tokens (left ++ t :: tail) ∧
        ((s₁.bindingBehind? us).1.isSome = true → left = []) := by
    intro us s₁ htakes
    obtain ⟨rfl, h₁⟩ := h.takes rfl htakes
    rw [htake]
    rw [hdrop] at h₁
    exact ⟨rfl, h₁.bindingBehind list ht hnames⟩
  -- where that fails the stream goes back to where it was
  have hback : ∀ {s₂ : TokenStream} {left : List Token},
      s₂.StandsAt r.source tokens (left ++ t :: tail) → left <:+ names →
      (s₂.rollback s.index).StandsAt r.source tokens (run ++ t :: tail) := by
    intro s₂ left h₂ hleft
    refine h.rollback h₂ ?_
    have hle := (hleft.trans hsub).length_le
    rw [List.length_append, List.length_append]
    omega
  refine ⟨?_, fun head s' hhead => ?_⟩
  · obtain ⟨us, s₁, htakes⟩ :=
      h.exists_takes (fun k => k.endsRun || k == .asWord) rfl
    obtain ⟨-, -, left, hleft, h₂, -⟩ := hbehind us s₁ htakes
    cases hoffered : s₁.bindingBehind? us with
    | mk binding? s₂ =>
      cases binding? with
      | some binding => exact ⟨_, s₂, .bound htakes hoffered⟩
      | none =>
        rw [hoffered] at h₂
        obtain ⟨vs, s₃, hagain⟩ := (hback h₂ hleft).exists_takes TokenKind.endsRun rfl
        exact ⟨_, s₃, .unbound htakes hoffered hagain⟩
  · cases hhead with
    | bound htakes hbinding =>
      obtain ⟨rfl, hsome, left, -, h₂, hnothing⟩ := hbehind _ _ htakes
      rw [hbinding] at hsome h₂ hnothing
      obtain rfl := hnothing rfl
      rw [readLoopHead_of_some hsome.symm]
      exact ⟨rfl, h₂⟩
    | unbound htakes hnone hagain =>
      obtain ⟨rfl, hsome, left, hleft, h₂, -⟩ := hbehind _ _ htakes
      rw [hnone] at hsome h₂
      obtain ⟨rfl, h₃⟩ := (hback h₂ hleft).takes rfl hagain
      rw [readLoopHead_of_none hsome.symm, hall]
      rw [hend] at h₃
      exact ⟨rfl, h₃⟩

end StandsAt

end TokenStream

end RsxInspect
