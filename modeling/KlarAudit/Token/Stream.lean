import KlarAudit.Search.PartitionPoint
import KlarAudit.Search.SignedIndex
import KlarAudit.Token.Scan

/-!
# Token streams

The tokens of a text, with look-up by offset. Tokens start in increasing order, so a look-up
bisects their starts.

## Main definitions

* `TokenStream.ofText s`: the tokens of `s`
* `TokenStream.indexAt`: the first token that starts at or after an offset
* `TokenStream.within`: the tokens that lie inside a span
* `TokenStream.rescan`: scanning again from an offset
-/

namespace KlarAudit

/-- **A text with its tokens.** -/
structure TokenStream where
  /-- The text that was scanned. -/
  text : String
  /-- Its tokens, in order. -/
  tokens : List Token
deriving DecidableEq, Repr

namespace TokenStream

/-- The stream of a text. -/
def ofText (s : String) : TokenStream :=
  ⟨s, scan s⟩

/-- The offsets at which the tokens start. -/
def starts (ts : TokenStream) : Array Nat :=
  (ts.tokens.map Token.start).toArray

/-- The index of the first token that starts at or after `offset`. -/
def indexAt (ts : TokenStream) (offset : Int) : Nat :=
  Search.lowerBound ts.starts offset

/-- **The tokens inside a span**, those cut by its ends left out. -/
def within (ts : TokenStream) (s : Span) : List Token :=
  let lo := Search.lowerBound ts.starts s.start
  let hi := Search.lowerBound ts.starts s.stop
  ((ts.tokens.take hi).drop lo).filter fun t => decide ((t.stop : Int) ≤ s.stop)

/-- The tokens that the grammar sees. -/
def significant (ts : TokenStream) : List Token :=
  KlarAudit.significant ts.tokens

/-- Scanning again from an offset. -/
def rescan (ts : TokenStream) (offset : Nat) : List Token :=
  scanAt ts.text offset

end TokenStream

end KlarAudit
