import RsxInspect.Token

/-!
# Modes and the state of a scan

A scan is in one of ten modes. Each nested mode has exactly one mode around it, so the stack of open
modes can be read off the innermost one. The mode and the kind of the last significant token are all
that a scan has to remember at a token boundary.
-/

namespace RsxInspect

/-- The part of the grammar that the next token belongs to. -/
inductive Mode where
  /-- Between sections. -/
  | initial
  /-- Between two fences. -/
  | frontMatter
  /-- Inside `<script>`. -/
  | script
  /-- The markup of `<template>`. -/
  | template
  /-- Inside `<style>`. -/
  | style
  /-- After `<`, reading a tag name and attributes. -/
  | tagOpen
  /-- After `=` inside a start tag. -/
  | tagAttributeValue
  /-- After `</`. -/
  | tagClose
  /-- Inside a pair of braces. -/
  | interpolation
  /-- Right after opening braces, where a directive keyword may follow. -/
  | directive
  deriving DecidableEq, Repr, Inhabited

namespace Mode

/-- All modes, in the order of their declaration. -/
def all : List Mode :=
  [initial, frontMatter, script, template, style, tagOpen, tagAttributeValue, tagClose,
   interpolation, directive]

/-- The name of a mode in written output. -/
def name : Mode → String
  | initial => "Initial"
  | frontMatter => "FrontMatter"
  | script => "Script"
  | template => "Template"
  | style => "Style"
  | tagOpen => "TagOpen"
  | tagAttributeValue => "TagAttributeValue"
  | tagClose => "TagClose"
  | interpolation => "Interpolation"
  | directive => "Directive"

/-- The mode with the given name. -/
def ofName? (s : String) : Option Mode :=
  all.find? (·.name == s)

/-- The mode that this one returns to when its construct closes. -/
def enclosing : Mode → Option Mode
  | initial => none
  | frontMatter | script | template | style => some initial
  | tagOpen | tagClose | interpolation | directive => some template
  | tagAttributeValue => some tagOpen

/-- How many modes are open around a mode. -/
def depth : Mode → Nat
  | initial => 0
  | frontMatter | script | template | style => 1
  | tagOpen | tagClose | interpolation | directive => 2
  | tagAttributeValue => 3

theorem depth_of_enclosing {m outer : Mode} (h : m.enclosing = some outer) :
    outer.depth < m.depth := by
  cases m <;> simp [enclosing] at h <;> subst h <;> decide

/-- The mode and those around it, innermost first. -/
def outward (m : Mode) : List Mode :=
  match h : m.enclosing with
  | none => [m]
  | some outer =>
    have := depth_of_enclosing h
    m :: outer.outward
termination_by m.depth

/-- The open modes, outermost first. -/
def stack (m : Mode) : List Mode :=
  m.outward.reverse

end Mode

/-- All that a scan remembers at a token boundary. -/
structure LexState where
  mode : Mode
  /-- The kind of the last significant token, if there was one. -/
  last : Option TokenKind
  deriving DecidableEq, Repr

namespace LexState

/-- The state at the start of a file. -/
def initial : LexState := ⟨.initial, none⟩

/-- The state behind opening braces that are not followed by a directive. -/
def interpolation : LexState := ⟨.interpolation, some .interpolationOpen⟩

/-- The open modes, outermost first. -/
def modeStack (s : LexState) : List Mode :=
  s.mode.stack

instance : Inhabited LexState := ⟨initial⟩

end LexState

end RsxInspect
