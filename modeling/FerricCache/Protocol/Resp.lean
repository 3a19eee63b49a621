import FerricCache.Server.Dispatch

/-!
# `FerricCache.Protocol.Resp` — RESP values and the bytes of a reply

`RespValue` and `serialize_resp`, and how a `Response` is put on the wire.
-/

namespace FerricCache

open Reply

/-- `RespValue`; a null bulk string is `bulkString none`. -/
inductive RespValue
  | simpleString (text : Bytes)
  | error (text : Bytes)
  | integer (n : Int)
  | bulkString (b : Option Bytes)
  | array (items : List RespValue)

mutual

/-- `write_resp`, as the bytes it appends. -/
def writeResp : RespValue → Bytes
  | .simpleString text => 43 :: (text ++ crlf)
  | .error text => 45 :: (text ++ crlf)
  | .integer n => 58 :: (intText n ++ crlf)
  | .bulkString (some b) => bulk b
  | .bulkString none => utf8 "$-1\r\n"
  | .array items => header items.length ++ writeItems items

/-- The loop of `write_resp` over the items of an array. -/
def writeItems : List RespValue → Bytes
  | [] => []
  | item :: items => writeResp item ++ writeItems items

end

/-- `serialize_resp`. -/
def serializeResp (v : RespValue) : Bytes := writeResp v

/-- `to_resp`. -/
def Response.toResp : Response → RespValue
  | .value b => .bulkString (some b)
  | .ok => .simpleString (utf8 "OK")
  | .notFound => .bulkString none
  | .error text => .error text
  | .integer n => .integer n
  | .array items => .array (items.map fun b => .bulkString (some b))
  | .null => .bulkString none
  | .raw frame => .bulkString (some frame)

/-- `serialize_response`: pre-serialized frames go out verbatim. -/
def serializeResponse : Response → Bytes
  | .raw frame => frame
  | r => serializeResp r.toResp

end FerricCache
