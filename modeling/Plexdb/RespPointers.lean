import Plexdb.RespGrammar

/-! The array parser over pointers into the received bytes (`find_crlf`, `parse_decimal` and `parse_resp_array` of
`keyvalue/parsers/parsers.cpp`): it reads no byte past the given length, and agrees with the parser over suffixes. -/

namespace Plexdb.Resp

open Kv

/-! ### Reads -/

inductive Framed where
  | done (args : List Bytes) (p : Nat)
  | incomplete
  | error

end Plexdb.Resp
