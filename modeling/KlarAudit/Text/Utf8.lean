/-!
# Texts as bytes

Bytes are read as UTF-8. What is ill-formed is cut into pieces, each the longest start of a
well-formed sequence, or a single byte where there is none; a lenient reader takes each piece as one
replacement character, a strict reader refuses.

## Main definitions

* `Lead`, `lead?`: what the first byte of a character announces
* `pieces`: the characters and the ill-formed pieces of a byte sequence
* `decodeLossy`, `decode?`: the lenient and the strict reader
* `encode`: the bytes of a text
* `unifyBreaks`: a text whose lines end with line feeds only
-/

namespace KlarAudit.Utf8

/-- **What the first byte of a character announces**: how many bytes follow, the bits that it
contributes, and the least and the greatest byte that may come next. -/
structure Lead where
  /-- The number of bytes that follow. -/
  following : Nat
  /-- The bits of the first byte. -/
  bits : Nat
  /-- The least second byte. -/
  low : Nat := 0x80
  /-- The greatest second byte. -/
  high : Nat := 0xbf
deriving DecidableEq, Repr

/-- What the byte announces, `none` if no character starts with it. The bounds on the second byte
exclude longer forms than needed, surrogates, and what is beyond all code points. -/
def lead? (b : UInt8) : Option Lead :=
  let n := b.toNat
  if n < 0x80 then some { following := 0, bits := n }
  else if n < 0xc2 then none
  else if n < 0xe0 then some { following := 1, bits := n - 0xc0 }
  else if n = 0xe0 then some { following := 2, bits := 0, low := 0xa0 }
  else if n = 0xed then some { following := 2, bits := 13, high := 0x9f }
  else if n < 0xf0 then some { following := 2, bits := n - 0xe0 }
  else if n = 0xf0 then some { following := 3, bits := 0, low := 0x90 }
  else if n < 0xf4 then some { following := 3, bits := n - 0xf0 }
  else if n = 0xf4 then some { following := 3, bits := 4, high := 0x8f }
  else none

/-- The code point that `k` more bytes complete, `none` if they do not, and the bytes after the last
one that fits. -/
def complete (bits low high : Nat) : Nat → List UInt8 → Option Nat × List UInt8
  | 0, bs => (some bits, bs)
  | _ + 1, [] => (none, [])
  | k + 1, b :: bs =>
    if low ≤ b.toNat ∧ b.toNat ≤ high then complete (64 * bits + b.toNat % 64) 0x80 0xbf k bs
    else (none, b :: bs)

theorem complete_length_le (bits low high k : Nat) (bs : List UInt8) :
    (complete bits low high k bs).2.length ≤ bs.length := by
  induction k generalizing bits low high bs with
  | zero => simp [complete]
  | succ k ih =>
    match bs with
    | [] => simp [complete]
    | b :: bs =>
      simp only [complete]
      split
      · exact Nat.le_succ_of_le (ih ..)
      · exact Nat.le_refl _

/-- **The pieces of a byte sequence**: its characters, and `none` for each ill-formed piece. -/
def pieces : List UInt8 → List (Option Char)
  | [] => []
  | b :: bs =>
    match lead? b with
    | none => none :: pieces bs
    | some l =>
      (complete l.bits l.low l.high l.following bs).1.map Char.ofNat ::
        pieces (complete l.bits l.low l.high l.following bs).2
termination_by bs => bs.length
decreasing_by
  · simp
  · simpa using Nat.lt_succ_of_le (complete_length_le ..)

/-- **The lenient reader**: an ill-formed piece is a replacement character. -/
def decodeLossy (bs : List UInt8) : String :=
  String.ofList ((pieces bs).map (·.getD '\ufffd'))

/-- **The strict reader**: `none` if anything is ill-formed. -/
def decode? (bs : List UInt8) : Option String :=
  ((pieces bs).mapM id).map String.ofList

/-- The bytes of a text. -/
def encode (s : String) : List UInt8 :=
  s.toUTF8.toList

/-- A text whose lines end with line feeds only: a carriage return is one, with the line feed after
it if there is one. -/
def unifyBreaks : List Char → List Char
  | '\r' :: '\n' :: cs => '\n' :: unifyBreaks cs
  | '\r' :: cs => '\n' :: unifyBreaks cs
  | c :: cs => c :: unifyBreaks cs
  | [] => []

end KlarAudit.Utf8
