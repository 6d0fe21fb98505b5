import Plexdb.RespPrefix

/-! The parser against the grammar of RESP arrays. The parser frames an array by the numbers that it reads, without a
look at the line end of an element, and stops with an error where a number or a `$` is missing. -/

namespace Plexdb.Resp

open Kv

/-! ### What the parser frames -/

/-- The text is a number that is not negative, as the parser reads it. -/
def ReadsAs (text : Bytes) (n : Nat) : Prop := parseDecimal text = some (n : Int)

/-- An element that the parser takes: a line that reads as the length of its body, and any two bytes after the body. -/
structure LooseElement where
  lengthText : Bytes
  body : Bytes
  terminator : Bytes
  noCrlf : ¬ crlf <:+: lengthText
  reads : ReadsAs lengthText body.length
  twoBytes : terminator.length = 2

def LooseElement.bytes (b : LooseElement) : Bytes := 36 :: (b.lengthText ++ crlf ++ (b.body ++ b.terminator))

end Plexdb.Resp
