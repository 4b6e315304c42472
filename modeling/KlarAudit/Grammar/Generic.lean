import KlarAudit.Grammar.Parser
import KlarAudit.Grammar.Run

/-!
# Generic parameters, bounds and types

The parts that declarations of several kinds share: a list of generic parameters after the name, a
`where` clause with further bounds, and a type after a symbol.

## Main definitions

* `Parser.generics`: generic parameters in angle or square brackets
* `Parser.whereBounds`: the bounds of a `where` clause
* `Parser.typeAfter`: the type after a symbol
-/

namespace KlarAudit.Parser

/-- The generic parameters that a run of tokens lists. -/
def genericsOfRun (run : List Token) : Generics :=
  let parts := (Run.splitCommas run).filter (!·.isEmpty)
  { names := parts.filterMap (·.head?.map (·.text))
    bounds := (parts.filter (Run.colon? · |>.isSome)).map Run.render }

/-- The generic parameters between the brackets `opener` and `closer`, when they follow. -/
def genericsIn (opener closer : String) : Parser (Option Generics) := do
  match ← accept opener with
  | none => pure none
  | some _ => do
    let run ← collect [closer] true
    let _ ← expect closer
    pure (some (genericsOfRun run))

/-- **Generic parameters**, in angle or square brackets; there may be none. -/
def generics : Parser Generics := do
  match ← genericsIn "<" ">" with
  | some g => pure g
  | none => do
    let g ← genericsIn "[" "]"
    pure (g.getD {})

/-- The bounds of a `where` clause; there may be none. -/
def whereBounds : Parser (List String) := do
  match ← accept "where" with
  | none => pure []
  | some _ => do
    let run ← collect [";", "\x7b"] true
    pure (((Run.splitCommas run).filter (!·.isEmpty)).map Run.render)

/-- The type after the symbol `s`, up to a terminator; none when `s` does not follow. -/
def typeAfter (s : String) (terminators : List String) : Parser (Option String) := do
  match ← accept s with
  | none => pure none
  | some _ => do
    let run ← collect terminators true
    pure (some (Run.render run))

theorem shortens_genericsIn (opener closer : String) : Shortens (genericsIn opener closer) := by
  refine (shortens_accept _).bind fun t => ?_
  cases t with
  | none => exact shortens_pure _
  | some _ =>
    exact (shortens_collect _ _).bind fun _ => (advances_expect _).shortens.bind fun _ =>
      shortens_pure _

theorem shortens_generics : Shortens generics := by
  refine (shortens_genericsIn _ _).bind fun g => ?_
  cases g with
  | some _ => exact shortens_pure _
  | none => exact (shortens_genericsIn _ _).bind fun _ => shortens_pure _

theorem shortens_whereBounds : Shortens whereBounds := by
  refine (shortens_accept _).bind fun t => ?_
  cases t with
  | none => exact shortens_pure _
  | some _ => exact (shortens_collect _ _).bind fun _ => shortens_pure _

theorem shortens_typeAfter (s : String) (terminators : List String) :
    Shortens (typeAfter s terminators) := by
  refine (shortens_accept _).bind fun t => ?_
  cases t with
  | none => exact shortens_pure _
  | some _ => exact (shortens_collect _ _).bind fun _ => shortens_pure _

end KlarAudit.Parser
