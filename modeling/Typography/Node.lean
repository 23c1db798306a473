/-!
# Kinds of nodes

A stylesheet is a tree of at-rules, rules, declarations and comments below a
root.
-/

namespace Typography

/-- What a node of a stylesheet is. -/
inductive NodeKind where
  /-- The root of a stylesheet. -/
  | root
  /-- An at-rule such as `@media (--s) { ... }` or `@import url(a.css);`. The
  parameters are the trimmed text behind the name. -/
  | atRule (name params : String) (hasBlock : Bool)
  /-- A selector with its block. -/
  | rule (selector : String)
  /-- A property and its value, without the flag `!important`. -/
  | declaration (property value : String) (important : Bool)
  /-- A comment, without its delimiters. -/
  | comment (text : String)
  deriving DecidableEq, Repr

namespace NodeKind

/-- The root, at-rules and rules may own children. -/
def isContainer : NodeKind → Bool
  | root | atRule .. | rule _ => true
  | declaration .. | comment _ => false

/-- An at-rule of the given name. -/
def isAtRuleNamed (wanted : String) : NodeKind → Bool
  | atRule name _ _ => name == wanted
  | _ => false

/-- A declaration of the given property. -/
def isDeclarationOf (wanted : String) : NodeKind → Bool
  | declaration property _ _ => property == wanted
  | _ => false

/-- The same kind with a block, if it is an at-rule. -/
def withBlock : NodeKind → NodeKind
  | atRule name params _ => atRule name params true
  | kind => kind

/-- Declarations and at-rules without a block end with a semicolon. -/
def needsSemicolon : NodeKind → Bool
  | declaration .. => true
  | atRule _ _ hasBlock => !hasBlock
  | _ => false

@[simp] theorem isContainer_withBlock (kind : NodeKind) :
    kind.withBlock.isContainer = kind.isContainer := by
  cases kind <;> rfl

end NodeKind

end Typography
