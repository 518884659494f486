/-!
# Kinds of sections and directives
-/

namespace RsxInspect

/-- The kinds of top-level regions of a file. -/
inductive SectionKind where
  | frontMatter
  | script
  | template
  | style
  deriving DecidableEq, Repr

namespace SectionKind

def all : List SectionKind := [frontMatter, script, template, style]

/-- What a section is called in messages. -/
def title : SectionKind → String
  | frontMatter => "front matter"
  | script => "script"
  | template => "template"
  | style => "style"

/-- The name of a kind in written output. -/
def name : SectionKind → String
  | frontMatter => "FrontMatter"
  | script => "Script"
  | template => "Template"
  | style => "Style"

end SectionKind

/-- The block directives. -/
inductive DirectiveKind where
  /-- A choice between branches. -/
  | choice
  /-- A loop over the items of a list. -/
  | loop
  deriving DecidableEq, Repr

namespace DirectiveKind

/-- The keyword that opens the block. -/
def keyword : DirectiveKind → String
  | choice => "@if"
  | loop => "@each"

/-- The keyword that closes the block. -/
def closer : DirectiveKind → String
  | choice => "/if"
  | loop => "/each"

/-- The name of a kind in written output. -/
def name : DirectiveKind → String
  | choice => "If"
  | loop => "Each"

end DirectiveKind

end RsxInspect
