import KlarAudit.Grammar.Opening

/-!
# Declaration trees

Modules, traits and implementations hold declarations, so the declarations of a file form a forest.
A declaration that cannot be read is dropped on its own: at the top level reading goes on at the
next declaration keyword in the first column, inside a body at the next one that starts a line, or
at the brace that closes the body. An error inside a body that runs into the end of the input makes
the enclosing declaration unreadable.

Members may be read more than once, since recovery steps back to the start of a failed declaration;
still every step leaves less input than it found, which is why reading ends.

## Main definitions

* `DeclTree`: a declaration and its members
* `resync`, `resyncInBody`: where reading goes on after an error
* `item`, `members`: a declaration with its members, the members of a body
* `topLevel`: the declarations of a file

## Main results

* `length_resync_le`, `length_resyncInBody_le`: recovery never moves back beyond the start
-/

namespace KlarAudit

/-- **A declaration and its members**, in order. -/
inductive DeclTree where
  /-- The declaration `decl` with its members. -/
  | node (decl : Declaration) (members : List DeclTree)
deriving Repr, Inhabited

namespace DeclTree

/-- The declaration at the root. -/
def decl : DeclTree → Declaration
  | node d _ => d

/-- The trees below the root. -/
def members : DeclTree → List DeclTree
  | node _ ts => ts

end DeclTree

/-! ## Recovery -/

/-- The keywords at which reading goes on after an error. -/
def resyncKeywords : List String :=
  ["fn", "pub", "struct", "enum", "trait", "impl", "const", "static", "mod", "module", "use",
   "import", "type", "unsafe"]

/-- **Recovery at the top level**: the input from the next declaration keyword in the first column
on. -/
def resync (ls : List Lexeme) : List Lexeme :=
  ls.dropWhile fun l => !(l.token.column == 1 && l.token.isKeywordIn resyncKeywords)

/-- **Recovery in a body**: the input from the next declaration keyword that starts a line or from
the brace that closes the body on, whichever comes first; `none` at the end of the input. Keywords
inside braces do not count; `depth` braces are open, and `before` is the token before the input. -/
def resyncInBody (before : Token) (depth : Nat) : List Lexeme → Option (List Lexeme)
  | [] => none
  | l :: ls =>
    if l.token.isOperator "\x7b" then resyncInBody l.token (depth + 1) ls
    else if l.token.isOperator "\x7d" then
      match depth with
      | 0 => some (l :: ls)
      | depth + 1 => resyncInBody l.token depth ls
    else if depth == 0 && l.token.isKeywordIn resyncKeywords && before.line != l.token.line then
      some (l :: ls)
    else resyncInBody l.token depth ls

theorem length_resync_le (ls : List Lexeme) : (resync ls).length ≤ ls.length :=
  (List.dropWhile_suffix _).length_le

theorem length_resyncInBody_le {before : Token} {depth : Nat} {ls rest : List Lexeme}
    (h : resyncInBody before depth ls = some rest) : rest.length ≤ ls.length := by
  fun_induction resyncInBody before depth ls <;> grind

/-! ## Declarations with their members -/

/-- What reading a declaration gives: its tree, unless the declaration leaves none, and what is left
of the input `ls`, which is shorter. -/
structure ItemResult (ls : List Lexeme) where
  /-- The declaration read. -/
  tree : Option DeclTree
  /-- What is left of the input. -/
  rest : List Lexeme
  /-- A declaration takes at least one lexeme. -/
  shorter : rest.length < ls.length

/-- What reading the members of a body gives: their trees, the closing brace, and what is left of
the input `ls`, which is shorter. -/
structure BodyResult (ls : List Lexeme) where
  /-- The members read. -/
  trees : List DeclTree
  /-- The brace that closes the body. -/
  close : Token
  /-- What is left of the input. -/
  rest : List Lexeme
  /-- A body takes at least its closing brace. -/
  shorter : rest.length < ls.length

/-- The declaration of a block whose body the given brace closes. -/
def Block.declaration (b : Block) (close : Token) : Declaration :=
  { b.heading with span := ⟨b.first.start, close.stop⟩ }

mutual

/-- **A declaration with its members**; `byPlace` is the visibility of a declaration that is not
marked. -/
def item (byPlace : Bool) (ls : List Lexeme) : Attempt (ItemResult ls) :=
  match h : (opening byPlace ls).outcome with
  | .error e => ⟨(opening byPlace ls).issues, .error e⟩
  | .ok (.complete d, rest) =>
    ⟨(opening byPlace ls).issues, .ok ⟨d.map (.node · []), rest, opening_shorter h⟩⟩
  | .ok (.block b, rest) =>
    let body := members b.first b.publicMembers rest
    ⟨(opening byPlace ls).issues ++ body.issues,
      match body.outcome with
      | .error e => .error e
      | .ok r =>
        .ok ⟨some (.node (b.declaration r.close) r.trees), r.rest,
          Nat.lt_trans r.shorter (opening_shorter h)⟩⟩
termination_by 2 * ls.length
decreasing_by
  have := opening_shorter h
  omega

/-- **The members of a body**, after the opening brace of a declaration whose first token is
`first`; `byPlace` is the visibility of a member that is not marked. -/
def members (first : Token) (byPlace : Bool) (ls : List Lexeme) : Attempt (BodyResult ls) :=
  match ls with
  | [] => .fail (.at .unterminated first)
  | l :: tail =>
    if l.token.is "\x7d" then pure ⟨[], l.token, tail, by simp⟩
    else
      let here := item byPlace (l :: tail)
      match here.outcome with
      | .ok r =>
        let more := members first byPlace r.rest
        ⟨here.issues ++ more.issues,
          match more.outcome with
          | .error e => .error e
          | .ok m =>
            .ok ⟨r.tree.toList ++ m.trees, m.close, m.rest, Nat.lt_trans m.shorter r.shorter⟩⟩
      | .error e =>
        -- the member is dropped, and its error becomes an issue if the body goes on behind it
        match h : resyncInBody l.token 0 tail with
        | none => ⟨here.issues, .error e⟩
        | some rest =>
          have hr : rest.length < (l :: tail).length :=
            Nat.lt_succ_of_le (length_resyncInBody_le h)
          let more := members first byPlace rest
          ⟨here.issues ++ ⟨e, rest.head?.map (·.token)⟩ :: more.issues,
            match more.outcome with
            | .error e => .error e
            | .ok m => .ok ⟨m.trees, m.close, m.rest, Nat.lt_trans m.shorter hr⟩⟩
termination_by 2 * ls.length + 1
decreasing_by
  · omega
  · have := r.shorter; omega
  · omega

end

/-- **The declarations of a file**, with the issues recorded. -/
def topLevel (ls : List Lexeme) : List Issue × List DeclTree :=
  match ls with
  | [] => ([], [])
  | l :: tail =>
    let here := item false (l :: tail)
    match here.outcome with
    | .ok r =>
      let (issues, trees) := topLevel r.rest
      (here.issues ++ issues, r.tree.toList ++ trees)
    | .error e =>
      let rest := resync tail
      let (issues, trees) := topLevel rest
      (here.issues ++ ⟨e, rest.head?.map (·.token)⟩ :: issues, trees)
termination_by ls.length
decreasing_by
  · exact r.shorter
  · exact Nat.lt_succ_of_le (length_resync_le tail)

end KlarAudit
