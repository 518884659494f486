import RsxInspect.Command.Invocation
import RsxInspect.Proofs.Template.Nodes

/-!
# How deep trees are written

Nodes and expressions count as levels when they are encoded, and the number of open levels is the state
of the encoder. What a value takes of the limit is its height: the most nodes and expressions in it that
stand inside each other. The encoder `Takes` so many levels: with fewer to go it fails, and either way
it closes the levels that it has opened. Encoders that are put together follow from their parts, so the
trees are an induction that only compares heights (`TreeValue.takes_encode`).

As no value leaves a level open, values that are encoded one after the other know nothing of each other
(`TreeValue.runAll_encode`).
-/

namespace RsxInspect

/-! ### Heights -/

namespace Expr

mutual

/-- The most expressions that stand inside each other. It recurs with `heightAll` over arguments. -/
def height : Expr → Nat
  | number _ _ | string _ _ | boolean _ _ | identifier _ _ => 1
  | binary _ left right _ => max (height left) (height right) + 1
  | unary _ operand _ => height operand + 1
  | member object property _ _ => max (height object) (height property) + 1
  | call callee arguments _ => max (height callee) (heightAll arguments) + 1
  | ternary condition consequent alternate _ =>
    max (height condition) (max (height consequent) (height alternate)) + 1

def heightAll : List Expr → Nat
  | [] => 0
  | e :: es => max (height e) (heightAll es)

end

end Expr

/-- The height of a part that may be missing. -/
def heightOption {α : Type} (f : α → Nat) : Option α → Nat
  | none => 0
  | some a => f a

/-- The largest height in a list, 0 if it is empty. -/
def heightList {α : Type} (f : α → Nat) : List α → Nat
  | [] => 0
  | a :: as => max (f a) (heightList f as)

def Expression.height (e : Expression) : Nat := heightOption Expr.height e.tree

def AttributeValue.height (v : AttributeValue) : Nat := heightOption Expression.height v.expression

def Attribute.height (a : Attribute) : Nat := heightOption AttributeValue.height a.value

def BranchHead.height (h : BranchHead) : Nat := heightOption Expression.height h.expression

def Interpolation.height (i : Interpolation) : Nat := heightOption Expression.height i.expression

namespace Node

mutual

/-- The most nodes and expressions that stand inside each other, those in attributes and heads
included. -/
def height : Node → Nat
  | element e children => max (heightList Attribute.height e.attributes) (heightAll children) + 1
  | text _ | comment _ | error _ => 1
  | interpolation i => i.height + 1
  | directive _ branches => heightBranches branches + 1

def heightAll : List Node → Nat
  | [] => 0
  | n :: ns => max (height n) (heightAll ns)

def heightBranches : List Branch → Nat
  | [] => 0
  | .mk head children :: branches =>
    max head.height (max (heightAll children) (heightBranches branches))

end

end Node

def Section.height (s : Section) : Nat := Node.heightAll s.roots

def Document.height (d : Document) : Nat := heightList Section.height d.sections

/-! ### Encoders -/

namespace Encoder

variable {α β : Type} {body x : Encoder α} {f : α → Encoder β} {c h k : Nat}

/-- The encoder makes a value if there are so many levels to go up to `maxLevels`, and fails
otherwise. The levels that were open are open afterwards, whatever came of it. -/
def Takes (body : Encoder α) (levels : Nat) : Prop :=
  ∃ a, ∀ c ≤ maxLevels,
    body.run c = (if c + levels ≤ maxLevels then .ok a else .error .tooDeep, c)

/-- Encoders in a row: the second one goes on with the levels that the first one leaves open. -/
theorem run_bind (x : Encoder α) (f : α → Encoder β) (c : Nat) :
    (x >>= f).run c =
      match x.run c with
      | (.ok a, c) => (f a).run c
      | (.error e, c) => (.error e, c) := by
  show (x.run >>= ExceptT.bindCont f) c = _
  show ExceptT.bindCont f (x.run c).1 (x.run c).2 = _
  rcases x.run c with ⟨_ | _, _⟩ <;> rfl

theorem takes_pure (a : α) : (pure a : Encoder α).Takes 0 :=
  ⟨a, fun c hc => by rw [Nat.add_zero, if_pos hc]; rfl⟩

theorem Takes.bind (hx : x.Takes h) (hf : ∀ a, (f a).Takes k) : (x >>= f).Takes (max h k) := by
  obtain ⟨a, hx⟩ := hx
  obtain ⟨b, hf⟩ := hf a
  refine ⟨b, fun c hc => ?_⟩
  rw [run_bind, hx c hc]
  by_cases hh : c + h ≤ maxLevels
  · have hmax : c + max h k ≤ maxLevels ↔ c + k ≤ maxLevels := by omega
    rw [if_pos hh]
    simp only [hmax]
    exact hf c hc
  · rw [if_neg hh, if_neg (by omega)]

/-- What is made of a value takes nothing more. -/
theorem Takes.map (hx : x.Takes h) (g : α → β) : (x >>= fun a => pure (g a)).Takes h := by
  have hbind := hx.bind fun a => takes_pure (g a)
  rwa [Nat.max_zero] at hbind

/-- One level further in, `level` opens one and closes it behind a value and behind a failure. -/
theorem Takes.level (hbody : body.Takes h) : (level body).Takes (h + 1) := by
  obtain ⟨a, hbody⟩ := hbody
  refine ⟨a, fun c hc => ?_⟩
  show (if maxLevels ≤ c then (.error .tooDeep, c)
    else ((body.run (c + 1)).1, (body.run (c + 1)).2 - 1)) = _
  by_cases hfull : maxLevels ≤ c
  · rw [if_pos hfull, if_neg (by omega)]
  · rw [if_neg hfull, hbody (c + 1) (by omega), Nat.add_right_comm c 1 h, Nat.add_assoc c h 1]
    rfl

theorem takes_option {f : α → Encoder Json} {g : α → Nat} (hf : ∀ a, (f a).Takes (g a)) :
    ∀ o, (encodeOption f o).Takes (heightOption g o)
  | none => takes_pure Json.null
  | some a => hf a

theorem takes_list {f : α → Encoder Json} {g : α → Nat} (hf : ∀ a, (f a).Takes (g a))
    (as : List α) : (as.mapM f).Takes (heightList g as) := by
  induction as with
  | nil => exact takes_pure []
  | cons a as ih =>
    rw [List.mapM_cons]
    exact (hf a).bind fun j => ih.map (j :: ·)

end Encoder

/-! ### Trees -/

namespace Expr

open Encoder

mutual

theorem takes_encode : ∀ e : Expr, e.encode.Takes e.height
  | number .. | string .. | boolean .. | identifier .. => (takes_pure _).level
  | binary _ left right _ =>
    ((takes_encode left).bind fun _ => (takes_encode right).map _).level
  | unary _ operand _ => ((takes_encode operand).map _).level
  | member object property _ _ =>
    ((takes_encode object).bind fun _ => (takes_encode property).map _).level
  | call callee arguments _ =>
    ((takes_encode callee).bind fun _ => (takes_encodeAll arguments).map _).level
  | ternary condition consequent alternate _ =>
    ((takes_encode condition).bind fun _ =>
      (takes_encode consequent).bind fun _ => (takes_encode alternate).map _).level

theorem takes_encodeAll : ∀ es : List Expr, (encodeAll es).Takes (heightAll es)
  | [] => takes_pure []
  | e :: es => (takes_encode e).bind fun j => (takes_encodeAll es).map (j :: ·)

end

end Expr

open Encoder

theorem Expression.takes_encode (e : Expression) : e.encode.Takes e.height :=
  (takes_option Expr.takes_encode e.tree).map _

theorem AttributeValue.takes_encode (v : AttributeValue) : v.encode.Takes v.height :=
  (takes_option Expression.takes_encode v.expression).map _

theorem Attribute.takes_encode (a : Attribute) : a.encode.Takes a.height :=
  (takes_option AttributeValue.takes_encode a.value).map _

theorem BranchHead.takes_encode (h : BranchHead) : h.encode.Takes h.height :=
  (takes_option Expression.takes_encode h.expression).map _

theorem Interpolation.takes_encode (i : Interpolation) : i.encode.Takes i.height :=
  (takes_option Expression.takes_encode i.expression).map _

namespace Node

mutual

theorem takes_encode : ∀ n : Node, n.encode.Takes n.height
  | element e children =>
    ((takes_list Attribute.takes_encode e.attributes).bind fun _ =>
      (takes_encodeAll children).map _).level
  | text _ | comment _ | error _ => (takes_pure _).level
  | interpolation i => (i.takes_encode.map _).level
  | directive _ branches => ((takes_encodeBranches branches).map _).level

theorem takes_encodeAll : ∀ ns : List Node, (encodeAll ns).Takes (heightAll ns)
  | [] => takes_pure []
  | n :: ns => (takes_encode n).bind fun j => (takes_encodeAll ns).map (j :: ·)

theorem takes_encodeBranches :
    ∀ branches : List Branch, (encodeBranches branches).Takes (heightBranches branches)
  | [] => takes_pure []
  | .mk head children :: branches =>
    head.takes_encode.bind fun _ =>
      (takes_encodeAll children).bind fun _ => (takes_encodeBranches branches).map _

end

end Node

theorem Section.takes_encode : ∀ s : Section, s.encode.Takes s.height
  | frontMatter _ | script _ | style _ => takes_pure _
  | template t => (Node.takes_encodeAll t.children).map _

theorem Document.takes_encode (d : Document) : d.encode.Takes d.height :=
  (takes_list Section.takes_encode d.sections).map _

/-! ### Values in a row -/

/-- What can be encoded by itself: a file with its diagnostics, a node, or a tree of an expression.
-/
inductive TreeValue where
  | parsed (p : Parsed)
  | node (n : Node)
  | expr (e : Expr)

namespace TreeValue

def encode : TreeValue → Encoder Json
  | parsed p => p.encode
  | node n => n.encode
  | expr e => e.encode

/-- The most nodes and expressions that stand inside each other. -/
def height : TreeValue → Nat
  | parsed p => p.document.height
  | node n => n.height
  | expr e => e.height

theorem takes_encode : ∀ v : TreeValue, v.encode.Takes v.height
  | parsed p => p.document.takes_encode.map _
  | node n => n.takes_encode
  | expr e => e.takes_encode

end TreeValue

/-- Encodes one value after the other, whether they fail or not, and goes on with the levels that
are left open: those that a failed value has left, too. -/
def Encoder.runAll {α : Type} : List (Encoder α) → Nat → List (Except EncodingError α) × Nat
  | [], c => ([], c)
  | body :: bodies, c =>
    let (result, c) := body.run c
    let (results, c) := runAll bodies c
    (result :: results, c)

/-- **The limit of levels.** With `c` levels open, not more than there may be, a value is encoded if its
height still fits, always in the same way, and is refused otherwise. No level is left open or closed too
much. So of values that are encoded one after the other, refused ones among them, each has the result
that it has alone. -/
theorem TreeValue.runAll_encode (values : List TreeValue) {c : Nat} (hc : c ≤ maxLevels) :
    (∀ v : TreeValue, ∃ json, ∀ c ≤ maxLevels,
      v.encode.run c = (if c + v.height ≤ maxLevels then .ok json else .error .tooDeep, c)) ∧
    EncodingError.tooDeep.message = "tree nests deeper than 256 levels" ∧
    Encoder.runAll (values.map encode) c = (values.map fun v => (v.encode.run c).1, c) := by
  refine ⟨takes_encode, by decide +kernel, ?_⟩
  induction values with
  | nil => rfl
  | cons v values ih =>
    obtain ⟨json, hv⟩ := v.takes_encode
    have hleft : (v.encode.run c).2 = c := congrArg Prod.snd (hv c hc)
    show ((v.encode.run c).1 :: (Encoder.runAll (values.map encode) (v.encode.run c).2).1,
      (Encoder.runAll (values.map encode) (v.encode.run c).2).2) = _
    rw [hleft, ih]
    rfl

/-- With 254 levels open there is room for two: a name that is negated is encoded between two names that
are negated twice. -/
theorem TreeValue.runAll_encode_254 :
    let name := Expr.identifier "a" ⟨2, 3⟩
    let once := Expr.unary .not name ⟨1, 3⟩
    let twice := TreeValue.expr (.unary .not once ⟨0, 3⟩)
    ∃ json, Encoder.runAll ([twice, .expr once, twice].map encode) 254
      = ([.error .tooDeep, .ok json, .error .tooDeep], 254) := by
  intro name once twice
  obtain ⟨hlimit, -, hall⟩ := runAll_encode [twice, .expr once, twice] (by decide : 254 ≤ maxLevels)
  obtain ⟨_, htwice⟩ := hlimit twice
  obtain ⟨json, honce⟩ := hlimit (.expr once)
  refine ⟨json, hall.trans ?_⟩
  simp only [List.map_cons, List.map_nil]
  rw [htwice 254 (by decide), honce 254 (by decide)]
  rfl

end RsxInspect
