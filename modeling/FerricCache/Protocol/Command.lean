import FerricCache.Data.Value

/-!
# `FerricCache.Protocol.Command` — the commands and replies of the server

`Command` has the variants of the source in their order (the variant number is the tag of the encoded
command), with `i64`, `u32` and `usize` arguments at their own widths and text as UTF-8 bytes.
-/

namespace FerricCache

/-- `protocol::Command`. -/
inductive Command
  -- Strings
  | get (key : Bytes)
  | set (key value : Bytes) (ttlSecs : Option UInt32)
  | delete (key : Bytes)
  | incr (key : Bytes)
  | decr (key : Bytes)
  | append (key value : Bytes)
  | strlen (key : Bytes)
  -- Hashes
  | hget (key field : Bytes)
  | hset (key field value : Bytes)
  | hdel (key : Bytes) (fields : List Bytes)
  | hgetall (key : Bytes)
  | hkeys (key : Bytes)
  | hvals (key : Bytes)
  | hlen (key : Bytes)
  | hexists (key field : Bytes)
  -- Lists
  | lpush (key : Bytes) (values : List Bytes)
  | rpush (key : Bytes) (values : List Bytes)
  | lpop (key : Bytes)
  | rpop (key : Bytes)
  | lrange (key : Bytes) (start stop : Int64)
  | llen (key : Bytes)
  | lindex (key : Bytes) (index : Int64)
  -- Sets
  | sadd (key : Bytes) (members : List Bytes)
  | srem (key : Bytes) (members : List Bytes)
  | smembers (key : Bytes)
  | sismember (key member : Bytes)
  | scard (key : Bytes)
  | sinter (keys : List Bytes)
  | sunion (keys : List Bytes)
  | sdiff (keys : List Bytes)
  -- Sorted sets
  | zadd (key : Bytes) (members : List (F64 × Bytes))
  | zrem (key : Bytes) (members : List Bytes)
  | zrange (key : Bytes) (start stop : Int64) (withScores : Bool)
  | zrank (key member : Bytes)
  | zscore (key member : Bytes)
  | zcard (key : Bytes)
  | zcount (key : Bytes) (min max : F64)
  -- Server
  | ping
  | echo (message : Bytes)
  | existsKeys (keys : List Bytes)
  | keys (pattern : Bytes)
  | flushAll
  | dbSize
  -- Deadlines
  | expire (key : Bytes) (seconds : Int64)
  | pexpire (key : Bytes) (millis : Int64)
  | expireAt (key : Bytes) (unixSecs : Int64)
  | ttl (key : Bytes)
  | pttl (key : Bytes)
  | persist (key : Bytes)
  | auth (username : Option Bytes) (password : Bytes)
  -- Redis-parity strings
  | setNx (key value : Bytes)
  | setEx (key : Bytes) (seconds : UInt32) (value : Bytes)
  | getSet (key value : Bytes)
  | mget (keys : List Bytes)
  | mset (pairs : List (Bytes × Bytes))
  | getRange (key : Bytes) (start stop : Int64)
  | incrBy (key : Bytes) (delta : Int64)
  | decrBy (key : Bytes) (delta : Int64)
  | incrByFloat (key : Bytes) (delta : F64)
  -- Redis-parity hashes
  | hmget (key : Bytes) (fields : List Bytes)
  | hmset (key : Bytes) (pairs : List (Bytes × Bytes))
  | hsetNx (key field value : Bytes)
  | hincrBy (key field : Bytes) (delta : Int64)
  -- Redis-parity lists
  | lset (key : Bytes) (index : Int64) (value : Bytes)
  | lrem (key : Bytes) (count : Int64) (value : Bytes)
  | ltrim (key : Bytes) (start stop : Int64)
  | rpoplpush (source destination : Bytes)
  -- Redis-parity sets
  | spop (key : Bytes) (count : Option UInt64)
  | srandMember (key : Bytes) (count : Option Int64)
  | smove (source destination member : Bytes)
  -- Redis-parity sorted sets
  | zincrBy (key : Bytes) (delta : F64) (member : Bytes)
  | zrangeByScore (key : Bytes) (min max : F64) (withScores : Bool)
  | zrevrange (key : Bytes) (start stop : Int64) (withScores : Bool)
  | zpopMin (key : Bytes) (count : UInt64)
  | zpopMax (key : Bytes) (count : UInt64)
  -- Key administration
  | type (key : Bytes)
  | rename (key newKey : Bytes)
  | randomKey
  -- Pub/Sub
  | publish (channel payload : Bytes)
  | subscribe (channels : List Bytes)
  | unsubscribe (channels : List Bytes)
  -- Transactions
  | multi
  | exec
  | discard
  | watch (keys : List Bytes)
  | unwatch
  -- Streams, with textual ids; `none` is `*`
  | xadd (key : Bytes) (id : Option Bytes) (fields : List (Bytes × Bytes))
  | xlen (key : Bytes)
  | xrange (key start stop : Bytes) (count : Option UInt64)
  | xread (count : Option UInt64) (keys ids : List Bytes)
  -- Scripts
  | luaEval (script : Bytes) (keys argv : List Bytes)
  | luaEvalSha (sha1 : Bytes) (keys argv : List Bytes)

/-- `protocol::Response`. -/
inductive Response
  | value (b : Bytes)
  | ok
  | notFound
  | error (text : Bytes)
  | integer (n : Int)
  | array (items : List Bytes)
  | null
  | raw (frame : Bytes)
  deriving DecidableEq

end FerricCache
