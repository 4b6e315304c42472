import KlarAudit.Source.Position
import KlarAudit.Source.Span
import KlarAudit.Text.Affix

/-!
# Declarations

What the audit knows of a declaration: where it stands, whether it is public, the documentation
paired with it, and what its kind adds. Function bodies are kept as spans; a check that needs their
detail looks at the tokens inside.

## Main definitions

* `PassingMode.ofType`: how a parameter of a type is passed
* `Shape`: what the kind of a declaration adds
* `Heading`: a declaration without its extent
* `Declaration`: a heading and its span
-/

namespace KlarAudit

/-- **How a parameter is passed**, by the leading mark of its type. -/
inductive PassingMode where
  /-- By value. -/
  | owned
  /-- By shared reference. -/
  | borrowed
  /-- By exclusive reference. -/
  | borrowedMut
deriving DecidableEq, Repr, Inhabited

namespace PassingMode

/-- The mode of a parameter of the given type, which is written with single blanks. -/
def ofType (type : String) : PassingMode :=
  if Text.startsWith "&mut " type then .borrowedMut
  else if Text.startsWith "&" type then .borrowed
  else .owned

/-- The name of a mode. -/
def label : PassingMode → String
  | owned => "owned"
  | borrowed => "borrowed"
  | borrowedMut => "borrowed-mut"

end PassingMode

/-- **A documentation block**: consecutive documentation comments above a declaration. -/
structure DocComment where
  /-- The texts of the comments, one a line. -/
  text : String
  /-- The line on which the first comment starts. -/
  line : Nat
  /-- The line on which the last comment ends. -/
  endLine : Nat
deriving DecidableEq, Repr, Inhabited

/-- A parameter of a function. -/
structure Parameter where
  /-- The name. -/
  name : String
  /-- The type, written with single blanks. -/
  type : String
  /-- The position of the name. -/
  pos : Position
deriving DecidableEq, Repr, Inhabited

/-- How the parameter is passed. -/
def Parameter.mode (p : Parameter) : PassingMode :=
  .ofType p.type

/-- A field of a structure; a field without a name has its index for one. -/
structure Field where
  /-- The name. -/
  name : String
  /-- The type, written with single blanks. -/
  type : String
  /-- The field itself is marked public. -/
  isPublic : Bool
  /-- The position of the name, or of the type where there is no name. -/
  pos : Position
  /-- The offsets of name and type. -/
  span : Span
deriving DecidableEq, Repr, Inhabited

/-- A variant of an enumeration. -/
structure Variant where
  /-- The name. -/
  name : String
  /-- The position of the name. -/
  pos : Position
  /-- The offsets of the name, the payload and the value. -/
  span : Span
deriving DecidableEq, Repr, Inhabited

/-- **Generic parameters**: their names, and the bounds on them. -/
structure Generics where
  /-- The first word of each parameter. -/
  names : List String := []
  /-- The parameters that carry a bound, and the further bounds of the declaration. -/
  bounds : List String := []
deriving DecidableEq, Repr, Inhabited

/-- The generics with further bounds. -/
def Generics.bounding (g : Generics) (bounds : List String) : Generics :=
  { g with bounds := g.bounds ++ bounds }

/-- What a function declares beside its name. -/
structure Signature where
  /-- The generic parameters. -/
  generics : Generics
  /-- The parameters, the receiver left out. -/
  params : List Parameter
  /-- The receiver, as written. -/
  receiver : Option String
  /-- The type after the arrow. -/
  returnType : Option String
  /-- The offsets of the body with its braces; a function may have none. -/
  body : Option Span
  /-- The function is marked unsafe. -/
  isUnsafe : Bool
deriving DecidableEq, Repr, Inhabited

/-- **What the kind of a declaration adds.** -/
inductive Shape where
  /-- A module with a body. -/
  | module
  /-- A structure. -/
  | struct (generics : Generics) (fields : List Field)
  /-- An enumeration. -/
  | enum (generics : Generics) (variants : List Variant)
  /-- A trait. -/
  | trait (generics : Generics)
  /-- An implementation, of a trait or of the target's own methods. -/
  | impl (generics : Generics) (target : String) (trait? : Option String)
  /-- A function. -/
  | function (signature : Signature)
  /-- A constant, or a static variable. -/
  | const (type : String) (isStatic : Bool)
deriving DecidableEq, Repr, Inhabited

namespace Shape

/-- The name of a kind of declaration. -/
def label : Shape → String
  | module => "module"
  | struct .. => "struct"
  | enum .. => "enum"
  | trait .. => "trait"
  | impl .. => "impl"
  | function .. => "function"
  | const .. => "const"

/-- The declaration is a function. -/
def isFunction : Shape → Bool
  | function .. => true
  | _ => false

/-- The declaration has a body of declarations. -/
def isContainer : Shape → Bool
  | module | trait .. | impl .. => true
  | _ => false

end Shape

/-- **A declaration without its extent.** -/
structure Heading where
  /-- What the kind of the declaration adds. -/
  shape : Shape
  /-- The name; of an implementation, its trait and target. -/
  name : String
  /-- The position of the name; of an implementation, of its keyword. -/
  pos : Position
  /-- The declaration is public. -/
  isPublic : Bool
  /-- The documentation paired with the declaration. -/
  doc : Option DocComment
deriving DecidableEq, Repr, Inhabited

/-- **A declaration**: a heading and the offsets from its first token, attributes included, to its
last. -/
structure Declaration extends Heading where
  /-- The offsets of the whole declaration. -/
  span : Span
deriving DecidableEq, Repr, Inhabited

/-- The signature of a function. -/
def Declaration.signature? (d : Declaration) : Option Signature :=
  match d.shape with
  | .function s => some s
  | _ => none

/-- The span of a function's body. -/
def Declaration.body? (d : Declaration) : Option Span :=
  d.signature?.bind (·.body)

end KlarAudit
