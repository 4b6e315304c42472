import KlarAudit.Rule.Basic
import KlarAudit.Text.Bracketed
import KlarAudit.Token.Scan

/-!
# Rules on ownership

A structure owns what it holds: it stores no references, and shares ownership only where the file
shows several owners.

## Main definitions

* `storedReferenceRule`: fields store no references
* `sharingSites`: the places at which a value becomes shared
* `sharedOwnershipRule`: shared fields have several owners
-/

namespace KlarAudit

/-- The fields of the structures of a file, each with the name of its structure. -/
def Subject.fields (s : Subject) : List (String × Field) :=
  s.arena.declarations.flatMap fun d =>
    match d.shape with
    | .struct _ fields => fields.map (d.name, ·)
    | _ => []

/-- The type behind a reference: without reference marks, and without the mark of an exclusive
reference. -/
def ownedType (type : String) : String :=
  let bare := type.toList.dropWhile (· == '&')
  let mark := "mut ".toList
  String.ofList (Text.trimChars (if mark.isPrefixOf bare then bare.drop mark.length else bare))

/-- The remark on a field that stores a reference. -/
def storedReferenceRemark? (owner : String) (f : Field) : Option Remark :=
  if Text.startsWith "&" f.type then
    some <| .at f.pos
      ("field '" ++ owner ++ "." ++ f.name ++ "' stores a reference ('" ++ f.type ++
        "'); stored references are forbidden, the struct must own its data")
      (some (f.name ++ ": " ++ ownedType f.type))
  else none

/-- **Fields store no references.** -/
def storedReferenceRule : Rule where
  id := "ownership.stored-reference"
  family := "ownership"
  severity := .critical
  description := "Struct fields never store bare references."
  security := true
  check s := .all (s.fields.filterMap fun (owner, f) => storedReferenceRemark? owner f)

/-- The words of a type, after skipping `n` characters. -/
def typeWordsFrom (n : Nat) : List Char → List String
  | [] => []
  | c :: cs =>
    match n with
    | n + 1 => typeWordsFrom n cs
    | 0 =>
      if Munch.isWordStart c then
        let n := Munch.runLength Munch.isWordBody cs
        String.ofList (c :: cs.take n) :: typeWordsFrom n cs
      else typeWordsFrom 0 cs

/-- The types that only wrap what is shared. -/
def wrapperTypes : List String :=
  ["RefCell", "Cell", "Mutex", "RwLock", "Box"]

/-- The names of what a shared type holds, wrappers left out. -/
def sharedNames (inner : List Char) : List String :=
  (typeWordsFrom 0 inner).filter (!wrapperTypes.contains ·)

/-- **A site at which a value becomes shared**: the wrapper is cloned, or built from something that
mentions one of the names. -/
def isSharingSite (wrapper : String) (names : List String) (c : Context) : Bool :=
  match c.after with
  | sep :: method :: paren :: rest =>
    c.token.kind == .identifier && c.token.text == wrapper && (sep.is "::" || sep.is ".") &&
      paren.is "(" &&
      (method.text == "clone" ||
        ((method.text == "new" || method.text == "from") &&
          (argumentTokens rest).any (names.contains ·.text)))
  | _ => false

/-- The number of sites in the tokens `ts` at which a value becomes shared. -/
def sharingSites (ts : List Token) (wrapper : String) (names : List String) : Nat :=
  (Context.all ts).countP (isSharingSite wrapper names)

/-- The wrapper of a type of shared values, and what it holds. -/
def sharedType? (type : String) : Option (String × List Char) :=
  ["Rc", "Arc"].findSome? fun wrapper =>
    (Text.applied? wrapper type).bind fun a =>
      if a.arguments.isEmpty then none else some (wrapper, a.arguments)

/-- The remark on a field of a shared type. -/
def sharedOwnershipRemark? (tokens : List Token) (owner : String) (f : Field) : Option Remark :=
  (sharedType? f.type).map fun (wrapper, inner) =>
    let sites := sharingSites tokens wrapper (sharedNames inner)
    let subject :=
      "field '" ++ owner ++ "." ++ f.name ++ "' uses shared ownership ('" ++ f.type ++ "')"
    if 2 ≤ sites then .at f.pos (subject ++ "; confirm that multiple owners are required")
    else
      .at f.pos
        (subject ++ " without evidence of multiple owners (" ++ toString sites ++
          " construction site(s) in this file)")
        (some (f.name ++ ": " ++ String.ofList inner)) (some .medium)

/-- **Shared fields have several owners.** -/
def sharedOwnershipRule : Rule where
  id := "ownership.shared-ownership"
  family := "ownership"
  severity := .suggestion
  description := "Rc/Arc fields are backed by evidence of multiple owners."
  check s := .all (s.fields.filterMap fun (owner, f) =>
    sharedOwnershipRemark? s.stream.significant owner f)

end KlarAudit
