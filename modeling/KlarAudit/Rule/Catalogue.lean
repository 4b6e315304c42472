import KlarAudit.Rule.Documentation
import KlarAudit.Rule.Fallibility
import KlarAudit.Rule.Identifier
import KlarAudit.Rule.Interface
import KlarAudit.Rule.Logging
import KlarAudit.Rule.Ownership
import KlarAudit.Rule.UnsafeBlock

/-!
# The built-in rules

## Main definitions

* `builtinRules`: all rules, in the order in which they run
* `builtinRule?`: the rule of an identifier
-/

namespace KlarAudit

/-- **The built-in rules**, in the order in which they run. -/
def builtinRules : List Rule :=
  [caseRule, boolPrefixRule, storedReferenceRule, sharedOwnershipRule, parameterCountRule,
   traitCohesionRule, unstructuredErrorRule, discardedErrorRule, safetyCommentRule,
   uncheckedIndexRule, loggedSecretRule, missingDocRule]

/-- The built-in rule of the given identifier. -/
def builtinRule? (id : String) : Option Rule :=
  builtinRules.find? (·.id == id)

/-- No two built-in rules have the same identifier. -/
theorem nodup_builtinRules_ids : (builtinRules.map (·.id)).Nodup := by
  decide

end KlarAudit
