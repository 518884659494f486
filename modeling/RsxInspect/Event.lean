import RsxInspect.Diagnostic
import RsxInspect.Tree.Kind

/-!
# Events

What is worth a line in the log while a file is read: decisions that the tree alone does not show.
-/

namespace RsxInspect

inductive Event where
  /-- A file was read. -/
  | readSource (path : String) (bytes : Nat)
  /-- A section starts. -/
  | enterSection (kind : SectionKind) (offset : Nat)
  /-- An end tag has no element to close. -/
  | endTagWithoutStart (name : String) (offset : Nat)
  /-- The head of a loop names no item. -/
  | loopWithoutBinding (offset : Nat)
  /-- The head of a branch stands outside of a choice or behind its last branch. -/
  | strayBranch (offset : Nat)
  /-- A closer does not close what is innermost; `found` says whether its block is open at all. -/
  | mismatchedClose (kind : DirectiveKind) (offset : Nat) (found : Bool)
  /-- An element or a block is closed because something around it ends. -/
  | implicitClose (kind : DiagnosticKind) (offset stop : Nat)
  deriving DecidableEq, Repr

end RsxInspect
