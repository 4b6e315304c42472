import KlarAudit.Text.Affix
import KlarAudit.Text.Divided

/-!
# Paths

A path is a sequence of names, perhaps from the root. Slashes in a row and single points say
nothing, so they are dropped when a path is read; two points are a name like any other.

## Main definitions

* `Path`, `Path.ofText`, `Path.render`: a path, read and written
* `Path.name`, `Path.suffix`: its last name, and the last name's extension
* `Path.join`: a path from another path on
-/

namespace KlarAudit

/-- **A path.** -/
structure Path where
  /-- The slashes in front: none, one, or two, which is a root of its own. -/
  slashes : Nat
  /-- The names, outermost first. -/
  names : List String
deriving DecidableEq, Repr, Inhabited

namespace Path

/-- A piece between slashes that says nothing. -/
def isIdle (name : String) : Bool :=
  name == "" || name == "."

/-- **The path that a text writes.** -/
def ofText (text : String) : Path :=
  let front := (text.toList.takeWhile (· == '/')).length
  { slashes := if front ≤ 2 then front else 1
    names := (Text.divide '/' text).filter (!isIdle ·) }

/-- **The text of a path**; the path of no names is a point. -/
def render (p : Path) : String :=
  if p.slashes = 0 ∧ p.names = [] then "."
  else String.ofList (List.replicate p.slashes '/') ++ Text.joinWith "/" p.names

/-- The last name, empty if there is none. -/
def name (p : Path) : String :=
  p.names.getLast?.getD ""

/-- The extension of a name: what follows its last point, with the point. A point at either end of
the name starts no extension. -/
def extension (name : String) : String :=
  let tail := name.toList.reverse.takeWhile (· != '.')
  if tail.isEmpty || name.toList.length ≤ tail.length + 1 then ""
  else String.ofList ('.' :: tail.reverse)

/-- The extension of the last name. -/
def suffix (p : Path) : String :=
  extension p.name

/-- **The path `q` from `p` on**; a path from the root stays as it is. -/
def join (p q : Path) : Path :=
  if q.slashes = 0 then { p with names := p.names ++ q.names } else q

@[simp] theorem join_names (p : Path) (names : List String) :
    (p.join ⟨0, names⟩).names = p.names ++ names := rfl

end Path

end KlarAudit
