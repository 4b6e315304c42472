import KlarAudit.Rule.Basic

/-!
# The rule on documentation

## Main definitions

* `missingDocRule`: public declarations are documented
-/

namespace KlarAudit

/-- The remark on a public declaration without documentation. -/
def missingDocRemark (d : Declaration) : Remark :=
  .at d.pos ("public " ++ d.shape.label ++ " '" ++ d.name ++ "' has no doc comment")
    (some ("/// Describe what '" ++ d.name ++ "' does."))

/-- **Public declarations are documented.** -/
def missingDocRule : Rule where
  id := "docs.missing-doc"
  family := "docs"
  severity := .low
  description := "Public declarations have a /// doc comment."
  check s := .all ((s.arena.publicDeclarations.filter (·.doc.isNone)).map missingDocRemark)

end KlarAudit
