import KlarAudit.Proofs.Grammar.Counterpart
import KlarAudit.Proofs.Grammar.Phrase

/-!
# Declarations as they are written

The declaration grammar as data. What is written is a word sequence for every declaration, and lines
of words for a list of declarations with members; what it means is a tree of declarations without
places. Types are phrases without a separator outside groups, and bodies, payloads and initial
values are any balanced words.

## Main definitions

* `Surface.Item`: a declaration as it is written, with its members
* `Item.lines`, `Surface.print`: the lines of words, and the text
* `Item.tree`, `Item.forest`: the declarations that are meant
-/

namespace KlarAudit.Surface

/-! ## Names, types and code -/

/-- A name. -/
abbrev Name := {w : Word // w.kind = .identifier}

/-- The characters of a name. -/
def Name.text (n : Name) : String :=
  n.1.text

/-- The words that do not stand in a type outside groups. -/
def separators : List String :=
  [",", ";", ":", "=", "\x7b", "\x7d", ")", "]", ">", "where", "for", "pub"]

/-- **A type**: at least one word, balanced and without separators outside groups. -/
structure TypeRun where
  /-- The words of the type. -/
  words : List Word
  /-- There is a word. -/
  ne_nil : words ≠ []
  /-- Brackets are balanced, and separators stand in groups only. -/
  phrase : Phrase separators (words.map Word.token)

/-- The words as a run is rendered. -/
def render (ws : List Word) : String :=
  Run.render (ws.map Word.token)

/-- The type as it is rendered. -/
def TypeRun.text (t : TypeRun) : String :=
  render t.words

/-- **Code**: balanced words, none of which is a terminator outside brackets. -/
structure Code (terminators : List String) where
  /-- The words of the code. -/
  words : List Word
  /-- Brackets are balanced. -/
  wellNested : WellNested (words.map Word.token)
  /-- No terminator stands where all brackets before it are closed. -/
  clear : ∀ us t vs, words.map Word.token = us ++ t :: vs → WellNested us →
    t.stops terminators = false

/-- The mark, if it is there. -/
def marked (isThere : Bool) (m : Mark) : List Word :=
  if isThere then [m.word] else []

/-- The mark and the type behind it, if there is one. -/
def typed (m : Mark) : Option TypeRun → List Word
  | none => []
  | some t => m.word :: t.words

/-- The parts with commas between them. -/
def commas (parts : List (List Word)) : List Word :=
  [Mark.comma.word].intercalate parts

@[simp] theorem commas_singleton (ws : List Word) : commas [ws] = ws :=
  List.intercalate_singleton

@[simp] theorem commas_cons_cons (ws vs : List Word) (parts : List (List Word)) :
    commas (ws :: vs :: parts) = ws ++ Mark.comma.word :: commas (vs :: parts) := by
  rw [commas, commas, List.intercalate_cons_cons, List.append_assoc, List.singleton_append]

/-! ## Functions -/

/-- A generic parameter, perhaps with a bound. -/
structure GenericParam where
  /-- The name of the parameter. -/
  name : Name
  /-- The bound behind a colon. -/
  bound : Option TypeRun

/-- The name, then the colon and the bound. -/
def GenericParam.words (p : GenericParam) : List Word :=
  p.name.1 :: typed .colon p.bound

/-- Generic parameters, in angle brackets or in square ones. -/
structure GenericList where
  /-- The brackets are square. -/
  isSquare : Bool
  /-- The parameters, in order. -/
  params : List GenericParam

namespace GenericList

/-- The bracket in front. -/
def opener (g : GenericList) : Mark :=
  if g.isSquare then .openBracket else .openAngle

/-- The bracket behind. -/
def closer (g : GenericList) : Mark :=
  if g.isSquare then .closeBracket else .closeAngle

/-- The parameters in brackets, with commas between them. -/
def words (g : GenericList) : List Word :=
  g.opener.word :: (commas (g.params.map GenericParam.words) ++ [g.closer.word])

/-- What is meant: the names in order, and those parameters as texts that have a bound. -/
def generics (g : GenericList) : Generics where
  names := g.params.map (·.name.text)
  bounds := (g.params.filter (·.bound.isSome)).map (render ·.words)

end GenericList

/-- A receiver. -/
structure Receiver where
  /-- It is marked as a reference. -/
  isRef : Bool
  /-- It is marked as mutable. -/
  isMut : Bool
  /-- The type behind a colon. -/
  type : Option TypeRun

/-- The marks, the word `self`, then the colon and the type. -/
def Receiver.words (r : Receiver) : List Word :=
  marked r.isRef .amp ++ (marked r.isMut .kwMut ++ Mark.kwSelf.word :: typed .colon r.type)

/-- A parameter. -/
structure Param where
  /-- It is marked as mutable. -/
  isMut : Bool
  /-- The name of the parameter. -/
  name : Name
  /-- Its type. -/
  type : TypeRun

/-- The mark, the name, the colon and the type. -/
def Param.words (p : Param) : List Word :=
  marked p.isMut .kwMut ++ p.name.1 :: Mark.colon.word :: p.type.words

/-- What stands between two commas of a parameter list. -/
inductive Slot where
  /-- A receiver. -/
  | receiver (r : Receiver)
  /-- A parameter. -/
  | param (p : Param)

namespace Slot

/-- The words between the commas. -/
def words : Slot → List Word
  | receiver r => r.words
  | param p => p.words

theorem words_ne_nil (s : Slot) : s.words ≠ [] := by
  cases s <;> simp [words, Receiver.words, Param.words]

/-- What is meant: a receiver as it is rendered, or a parameter without its place. -/
def slot : Slot → Parser.Slot
  | receiver r => .receiver (render r.words)
  | param p => .param ⟨p.name.text, p.type.text, .start⟩

end Slot

/-- The body of a function, or the semicolon in its place. -/
def bodyWords : Option (Code []) → List Word
  | none => [Mark.semicolon.word]
  | some code => Mark.openBrace.word :: (code.words ++ [Mark.closeBrace.word])

/-- **A function**, from its name on. -/
structure Function where
  /-- It is marked as unsafe, in front of the keyword. -/
  isUnsafe : Bool
  /-- The generic parameters. -/
  generics : Option GenericList
  /-- The receiver, in front of the parameters. -/
  receiver : Option Receiver
  /-- The parameters, in order. -/
  params : List Param
  /-- The type behind the arrow. -/
  returns : Option TypeRun
  /-- The body in braces. -/
  body : Option (Code [])

namespace Function

/-- The receiver and the parameters, in order. -/
def slots (f : Function) : List Slot :=
  f.receiver.toList.map .receiver ++ f.params.map .param

/-- The generic parameters, the parameter list, the arrow with its type, and the body. -/
def words (f : Function) : List Word :=
  (f.generics.map GenericList.words).getD [] ++ Mark.openParen.word ::
    ((commas (f.slots.map Slot.words) ++ [Mark.closeParen.word]) ++
      (typed .arrow f.returns ++ bodyWords f.body))

/-- What is meant: the same without places. -/
def signature (f : Function) : Signature where
  generics := (f.generics.map GenericList.generics).getD {}
  params := f.params.map fun p => ⟨p.name.text, p.type.text, .start⟩
  receiver := f.receiver.map fun r => render r.words
  returnType := f.returns.map TypeRun.text
  body := f.body.map fun _ => .nowhere
  isUnsafe := f.isUnsafe

end Function

/-! ## Structures and enumerations -/

/-- A field with a name. -/
structure NamedField where
  /-- It is marked as public. -/
  isPublic : Bool
  /-- The name of the field. -/
  name : Name
  /-- Its type. -/
  type : TypeRun

/-- The mark, the name, the colon and the type. -/
def NamedField.words (f : NamedField) : List Word :=
  marked f.isPublic .kwPub ++ f.name.1 :: Mark.colon.word :: f.type.words

/-- What is meant, without places. -/
def NamedField.field (f : NamedField) : Field :=
  ⟨f.name.text, f.type.text, f.isPublic, .start, .nowhere⟩

/-- A field without a name. -/
structure BareField where
  /-- It is marked as public. -/
  isPublic : Bool
  /-- The type of the field. -/
  type : TypeRun

/-- The mark and the type. -/
def BareField.words (f : BareField) : List Word :=
  marked f.isPublic .kwPub ++ f.type.words

/-- **A structure**, from its name on. -/
inductive Struct where
  /-- Fields with names, in braces. -/
  | named (fields : List NamedField)
  /-- Fields without names, in round brackets. -/
  | tuple (fields : List BareField)
  /-- No fields. -/
  | unit

namespace Struct

/-- The fields in their brackets, with commas between them, and the semicolon behind those that
stand in no braces. -/
def words : Struct → List Word
  | named fields =>
    Mark.openBrace.word :: (commas (fields.map NamedField.words) ++ [Mark.closeBrace.word])
  | tuple fields =>
    Mark.openParen.word ::
      (commas (fields.map BareField.words) ++ [Mark.closeParen.word, Mark.semicolon.word])
  | unit => [Mark.semicolon.word]

/-- The fields that are meant, without places; a field without a name is called by its number. -/
def fields : Struct → List Field
  | named fields => fields.map NamedField.field
  | tuple fields =>
    fields.zipIdx.map fun (f, i) => ⟨toString i, f.type.text, f.isPublic, .start, .nowhere⟩
  | unit => []

end Struct

/-- What a variant holds. -/
inductive Payload where
  /-- Nothing. -/
  | none
  /-- Something in round brackets. -/
  | tuple (code : Code [])
  /-- Something in braces. -/
  | struct (code : Code [])

/-- What a variant holds, in its brackets. -/
def Payload.words : Payload → List Word
  | none => []
  | tuple code => Mark.openParen.word :: (code.words ++ [Mark.closeParen.word])
  | struct code => Mark.openBrace.word :: (code.words ++ [Mark.closeBrace.word])

/-- A variant of an enumeration, perhaps with a value. -/
structure EnumVariant where
  /-- The name of the variant. -/
  name : Name
  /-- What it holds. -/
  payload : Payload
  /-- The value behind an equals sign, up to a comma or the end of the variants. -/
  value : Option (Code [",", "\x7d"])

/-- The equals sign and the value behind it, if there is one. -/
def valued {terminators : List String} : Option (Code terminators) → List Word
  | none => []
  | some code => Mark.equals.word :: code.words

/-- The name, what the variant holds, then the equals sign and the value. -/
def EnumVariant.words (v : EnumVariant) : List Word :=
  v.name.1 :: (v.payload.words ++ valued v.value)

/-- What is meant, without places. -/
def EnumVariant.variant (v : EnumVariant) : Variant :=
  ⟨v.name.text, .start, .nowhere⟩

/-! ## Declarations -/

/-- What a declaration without members declares. -/
inductive Kind where
  /-- A function. -/
  | function (f : Function)
  /-- A structure. -/
  | struct (s : Struct)
  /-- An enumeration. -/
  | enum (variants : List EnumVariant)
  /-- A constant or a static variable. -/
  | const (isStatic : Bool) (type : TypeRun) (init : Code [";"])

namespace Kind

/-- It is a function marked as unsafe. -/
def isUnsafe : Kind → Bool
  | function f => f.isUnsafe
  | _ => false

/-- The keyword that introduces it. -/
def keyword : Kind → Mark
  | function _ => .kwFn
  | struct _ => .kwStruct
  | enum _ => .kwEnum
  | const isStatic .. => if isStatic then .kwStatic else .kwConst

/-- The words behind the keyword and the name. -/
def words : Kind → List Word
  | function f => f.words
  | struct s => s.words
  | enum variants =>
    Mark.openBrace.word :: (commas (variants.map EnumVariant.words) ++ [Mark.closeBrace.word])
  | const _ type init =>
    Mark.colon.word :: (type.words ++ Mark.equals.word :: (init.words ++ [Mark.semicolon.word]))

/-- What is meant, without places. -/
def shape : Kind → Shape
  | function f => .function f.signature
  | struct s => .struct {} s.fields
  | enum variants => .enum {} (variants.map EnumVariant.variant)
  | const isStatic type _ => .const type.text isStatic

end Kind

/-- **A declaration without members.** -/
structure Whole where
  /-- It is marked as public. -/
  isPublic : Bool
  /-- The name of the declaration. -/
  name : Name
  /-- What is declared. -/
  kind : Kind

/-- A declaration without places and documentation. -/
def declaration (shape : Shape) (name : String) (isPublic : Bool) : Declaration :=
  ⟨⟨shape, name, .start, isPublic, none⟩, .nowhere⟩

namespace Whole

/-- The marks, the keyword, the name and what stands behind it. -/
def words (w : Whole) : List Word :=
  (marked w.isPublic .kwPub ++ marked w.kind.isUnsafe .kwUnsafe) ++
    w.kind.keyword.word :: w.name.1 :: w.kind.words

/-- What is meant; `byPlace` is the visibility of a declaration that is not marked. -/
def declaration (byPlace : Bool) (w : Whole) : Declaration :=
  Surface.declaration w.kind.shape w.name.text (w.isPublic || byPlace)

end Whole

/-- **What stands before the members** of a declaration. -/
inductive Head where
  /-- Of a module. -/
  | module (isPublic : Bool) (name : Name)
  /-- Of a trait. -/
  | trait (isPublic : Bool) (name : Name)
  /-- Of an implementation, perhaps of a trait. -/
  | impl (trait? : Option TypeRun) (target : TypeRun)

/-- The target of an implementation, perhaps with its trait in front. -/
def implWords : Option TypeRun → TypeRun → List Word
  | none, target => target.words
  | some subject, target => subject.words ++ typed .kwFor (some target)

namespace Head

/-- The words up to the brace that opens the members. -/
def words : Head → List Word
  | module isPublic name =>
    marked isPublic .kwPub ++ [Mark.kwMod.word, name.1, Mark.openBrace.word]
  | trait isPublic name =>
    marked isPublic .kwPub ++ [Mark.kwTrait.word, name.1, Mark.openBrace.word]
  | impl trait? target =>
    Mark.kwImpl.word :: (implWords trait? target ++ [Mark.openBrace.word])

/-- The visibility of a member that is not marked. -/
def publicMembers (byPlace : Bool) : Head → Bool
  | trait isPublic _ => isPublic || byPlace
  | _ => false

/-- What is meant; `byPlace` is the visibility of a declaration that is not marked. -/
def declaration (byPlace : Bool) : Head → Declaration
  | module isPublic name => Surface.declaration .module name.text (isPublic || byPlace)
  | trait isPublic name => Surface.declaration (.trait {}) name.text (isPublic || byPlace)
  | impl trait? target =>
    Surface.declaration (.impl {} target.text (trait?.map TypeRun.text))
      (Parser.implName (trait?.map TypeRun.text) target.text) false

end Head

/-- **A declaration as it is written.** -/
inductive Item where
  /-- A declaration without members. -/
  | whole (w : Whole)
  /-- A declaration with its members. -/
  | block (h : Head) (members : List Item)

namespace Item

mutual

/-- The lines of a declaration: members start on lines of their own. -/
def lines : Item → List (List Word)
  | whole w => [w.words]
  | block h members => h.words :: (allLines members ++ [[Mark.closeBrace.word]])

/-- The lines of declarations, one after the other. -/
def allLines : List Item → List (List Word)
  | [] => []
  | i :: is => i.lines ++ allLines is

end

mutual

/-- **The declaration that is meant**, with its members; `byPlace` is the visibility of a
declaration that is not marked. -/
def tree (byPlace : Bool) : Item → DeclTree
  | whole w => .node (w.declaration byPlace) []
  | block h members => .node (h.declaration byPlace) (forest (h.publicMembers byPlace) members)

/-- The declarations that are meant, in order. -/
def forest (byPlace : Bool) : List Item → List DeclTree
  | [] => []
  | i :: is => i.tree byPlace :: forest byPlace is

end

end Item

/-- **The text of a list of declarations**: words stand between blanks, and every declaration starts
on a line of its own. -/
def print (items : List Item) : String :=
  Word.print (Item.allLines items)

end KlarAudit.Surface
