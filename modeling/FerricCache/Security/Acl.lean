import FerricCache.Protocol.Command

/-!
# `FerricCache.Security.Acl` — users, rules and permissions

`ACLRule`, `User` and `AuthManager`, as far as a connection consults them. Password verification is the
hash library's and enters as a predicate of each user. The session table of `AuthManager` is left out: the
server writes it on a successful `AUTH` and never reads it.

Rules look at a command through two texts only, its name (`commandName`) and its primary key.
-/

namespace FerricCache

/-- `command_name`. -/
def commandName : Command → Bytes
  | .get _ => utf8 "GET"
  | .set _ _ _ => utf8 "SET"
  | .delete _ => utf8 "DEL"
  | .incr _ => utf8 "INCR"
  | .decr _ => utf8 "DECR"
  | .append _ _ => utf8 "APPEND"
  | .strlen _ => utf8 "STRLEN"
  | .hget _ _ => utf8 "HGET"
  | .hset _ _ _ => utf8 "HSET"
  | .hdel _ _ => utf8 "HDEL"
  | .hgetall _ => utf8 "HGETALL"
  | .hkeys _ => utf8 "HKEYS"
  | .hvals _ => utf8 "HVALS"
  | .hlen _ => utf8 "HLEN"
  | .hexists _ _ => utf8 "HEXISTS"
  | .lpush _ _ => utf8 "LPUSH"
  | .rpush _ _ => utf8 "RPUSH"
  | .lpop _ => utf8 "LPOP"
  | .rpop _ => utf8 "RPOP"
  | .lrange _ _ _ => utf8 "LRANGE"
  | .llen _ => utf8 "LLEN"
  | .lindex _ _ => utf8 "LINDEX"
  | .sadd _ _ => utf8 "SADD"
  | .srem _ _ => utf8 "SREM"
  | .smembers _ => utf8 "SMEMBERS"
  | .sismember _ _ => utf8 "SISMEMBER"
  | .scard _ => utf8 "SCARD"
  | .sinter _ => utf8 "SINTER"
  | .sunion _ => utf8 "SUNION"
  | .sdiff _ => utf8 "SDIFF"
  | .zadd _ _ => utf8 "ZADD"
  | .zrem _ _ => utf8 "ZREM"
  | .zrange _ _ _ _ => utf8 "ZRANGE"
  | .zrank _ _ => utf8 "ZRANK"
  | .zscore _ _ => utf8 "ZSCORE"
  | .zcard _ => utf8 "ZCARD"
  | .zcount _ _ _ => utf8 "ZCOUNT"
  | .ping => utf8 "PING"
  | .echo _ => utf8 "ECHO"
  | .existsKeys _ => utf8 "EXISTS"
  | .keys _ => utf8 "KEYS"
  | .flushAll => utf8 "FLUSHALL"
  | .dbSize => utf8 "DBSIZE"
  | .expire _ _ => utf8 "EXPIRE"
  | .pexpire _ _ => utf8 "PEXPIRE"
  | .expireAt _ _ => utf8 "EXPIREAT"
  | .ttl _ => utf8 "TTL"
  | .pttl _ => utf8 "PTTL"
  | .persist _ => utf8 "PERSIST"
  | .auth _ _ => utf8 "AUTH"
  | .setNx _ _ => utf8 "SETNX"
  | .setEx _ _ _ => utf8 "SETEX"
  | .getSet _ _ => utf8 "GETSET"
  | .mget _ => utf8 "MGET"
  | .mset _ => utf8 "MSET"
  | .getRange _ _ _ => utf8 "GETRANGE"
  | .incrBy _ _ => utf8 "INCRBY"
  | .decrBy _ _ => utf8 "DECRBY"
  | .incrByFloat _ _ => utf8 "INCRBYFLOAT"
  | .hmget _ _ => utf8 "HMGET"
  | .hmset _ _ => utf8 "HMSET"
  | .hsetNx _ _ _ => utf8 "HSETNX"
  | .hincrBy _ _ _ => utf8 "HINCRBY"
  | .lset _ _ _ => utf8 "LSET"
  | .lrem _ _ _ => utf8 "LREM"
  | .ltrim _ _ _ => utf8 "LTRIM"
  | .rpoplpush _ _ => utf8 "RPOPLPUSH"
  | .spop _ _ => utf8 "SPOP"
  | .srandMember _ _ => utf8 "SRANDMEMBER"
  | .smove _ _ _ => utf8 "SMOVE"
  | .zincrBy _ _ _ => utf8 "ZINCRBY"
  | .zrangeByScore _ _ _ _ => utf8 "ZRANGEBYSCORE"
  | .zrevrange _ _ _ _ => utf8 "ZREVRANGE"
  | .zpopMin _ _ => utf8 "ZPOPMIN"
  | .zpopMax _ _ => utf8 "ZPOPMAX"
  | .type _ => utf8 "TYPE"
  | .rename _ _ => utf8 "RENAME"
  | .randomKey => utf8 "RANDOMKEY"
  | .publish _ _ => utf8 "PUBLISH"
  | .subscribe _ => utf8 "SUBSCRIBE"
  | .unsubscribe _ => utf8 "UNSUBSCRIBE"
  | .multi => utf8 "MULTI"
  | .exec => utf8 "EXEC"
  | .discard => utf8 "DISCARD"
  | .watch _ => utf8 "WATCH"
  | .unwatch => utf8 "UNWATCH"
  | .xadd _ _ _ => utf8 "XADD"
  | .xlen _ => utf8 "XLEN"
  | .xrange _ _ _ _ => utf8 "XRANGE"
  | .xread _ _ _ => utf8 "XREAD"
  | .luaEval _ _ _ => utf8 "EVAL"
  | .luaEvalSha _ _ _ => utf8 "EVALSHA"

/-! ## Text -/

/-- `str::to_uppercase`, where it can meet the ASCII name of a command: besides the ASCII letters, the
    characters `ı`, `ſ`, `ß` and the Latin ligatures have an ASCII uppercase. Every other character has an
    uppercase outside ASCII and is left alone. -/
def toUppercase : Bytes → Bytes
  | 0xC4 :: 0xB1 :: rest => 73 :: toUppercase rest
  | 0xC5 :: 0xBF :: rest => 83 :: toUppercase rest
  | 0xC3 :: 0x9F :: rest => 83 :: 83 :: toUppercase rest
  | 0xEF :: 0xAC :: 0x80 :: rest => 70 :: 70 :: toUppercase rest
  | 0xEF :: 0xAC :: 0x81 :: rest => 70 :: 73 :: toUppercase rest
  | 0xEF :: 0xAC :: 0x82 :: rest => 70 :: 76 :: toUppercase rest
  | 0xEF :: 0xAC :: 0x83 :: rest => 70 :: 70 :: 73 :: toUppercase rest
  | 0xEF :: 0xAC :: 0x84 :: rest => 70 :: 70 :: 76 :: toUppercase rest
  | 0xEF :: 0xAC :: 0x85 :: rest => 83 :: 84 :: toUppercase rest
  | 0xEF :: 0xAC :: 0x86 :: rest => 83 :: 84 :: toUppercase rest
  | b :: rest => asciiUpper b :: toUppercase rest
  | [] => []

/-! ## Rules -/

/-- `ACLPermission`. -/
inductive ACLPermission
  | allCommands
  | readCommands
  | writeCommands
  | specificCommand (cmd : Bytes)
  | deny
  deriving DecidableEq

/-- `ACLRule`. -/
structure ACLRule where
  permissions : List ACLPermission
  keyPatterns : List Bytes

namespace ACLRule

/-- `is_read_command`. -/
def isReadCommand (command : Bytes) : Bool :=
  [utf8 "GET", utf8 "MGET", utf8 "EXISTS", utf8 "TTL", utf8 "PTTL", utf8 "TYPE", utf8 "HGET",
    utf8 "HMGET", utf8 "HGETALL", utf8 "HLEN", utf8 "HEXISTS", utf8 "LLEN", utf8 "LINDEX",
    utf8 "LRANGE", utf8 "SCARD", utf8 "SISMEMBER", utf8 "SMEMBERS", utf8 "ZCARD", utf8 "ZCOUNT",
    utf8 "ZRANGE", utf8 "ZRANK", utf8 "ZSCORE"].contains command

/-- `is_write_command` of the rules, a list of names of its own. -/
def isWriteName (command : Bytes) : Bool :=
  [utf8 "SET", utf8 "SETEX", utf8 "SETNX", utf8 "DEL", utf8 "EXPIRE", utf8 "PERSIST", utf8 "HSET",
    utf8 "HDEL", utf8 "HINCRBY", utf8 "LPUSH", utf8 "RPUSH", utf8 "LPOP", utf8 "RPOP", utf8 "LREM",
    utf8 "SADD", utf8 "SREM", utf8 "SPOP", utf8 "ZADD", utf8 "ZREM", utf8 "ZINCRBY"].contains command

/-- The loop of `check_command_permission`: the first permission that speaks about the command decides. -/
def permits (commandUpper : Bytes) : List ACLPermission → Bool
  | [] => false
  | .allCommands :: _ => true
  | .deny :: _ => false
  | .readCommands :: rest => if isReadCommand commandUpper then true else permits commandUpper rest
  | .writeCommands :: rest => if isWriteName commandUpper then true else permits commandUpper rest
  | .specificCommand cmd :: rest =>
      if cmd.head? = some 43 ∧ toUppercase cmd.tail = commandUpper then true
      else if cmd.head? = some 45 ∧ toUppercase cmd.tail = commandUpper then false
      else permits commandUpper rest

/-- `check_command_permission`. -/
def checkCommandPermission (rule : ACLRule) (command : Bytes) : Bool :=
  permits (toUppercase command) rule.permissions

/-- `pattern_matches`: `*`, a prefix followed by `*`, or the key itself. -/
def patternMatches (pattern key : Bytes) : Bool :=
  if pattern = utf8 "*" then true
  else if pattern.getLast? = some 42 then pattern.dropLast.isPrefixOf key
  else pattern = key

/-- `check_key_pattern`. -/
def checkKeyPattern (rule : ACLRule) (key : Bytes) : Bool :=
  rule.keyPatterns.any fun pattern => patternMatches pattern key

/-- `allows_command`. -/
def allowsCommand (rule : ACLRule) (command : Bytes) (key : Option Bytes) : Bool :=
  if rule.checkCommandPermission command then
    match key with
    | some key => rule.checkKeyPattern key
    | none => true
  else false

end ACLRule

/-! ## Users -/

/-- `User`; `verifyPassword` stands for the comparison with `password_hash`. -/
structure User where
  verifyPassword : Bytes → Bool
  aclRules : List ACLRule
  isAdmin : Bool

/-- `can_execute_command`. -/
def User.canExecuteCommand (user : User) (command : Bytes) (key : Option Bytes) : Bool :=
  if user.isAdmin then true else user.aclRules.any fun rule => rule.allowsCommand command key

/-- `AuthManager`. -/
structure AuthManager where
  users : Bytes → Option User
  requireAuth : Bool

namespace AuthManager

/-- `authenticate`: whether it returns a session. -/
def authenticate (am : AuthManager) (username password : Bytes) : Bool :=
  match am.users username with
  | some user => user.verifyPassword password
  | none => false

/-- `check_permission`. -/
def checkPermission (am : AuthManager) (username command : Bytes) (key : Option Bytes) : Bool :=
  if !am.requireAuth then true
  else
    match am.users username with
    | some user => user.canExecuteCommand command key
    | none => false

end AuthManager

/-! ## What a rule can let through -/

/-- No pattern of the user's rules matches the key's text. -/
def User.Barred (user : User) (key : Bytes) : Prop :=
  ∀ rule ∈ user.aclRules, rule.checkKeyPattern key = false

/-- **A barred key is never allowed**, whatever the command. -/
theorem User.Barred.denied {user : User} {key : Bytes} (hbarred : user.Barred key)
    (hadmin : user.isAdmin = false) (command : Bytes) :
    user.canExecuteCommand command (some key) = false := by
  unfold User.canExecuteCommand
  rw [hadmin, if_neg Bool.false_ne_true, List.any_eq_false]
  intro rule hrule
  unfold ACLRule.allowsCommand
  split
  · show ¬ rule.checkKeyPattern key = true
    rw [hbarred rule hrule]
    exact Bool.false_ne_true
  · exact Bool.false_ne_true

/-- Every permission of every rule of the user is `ReadCommands`. -/
def User.ReadOnly (user : User) : Prop :=
  user.isAdmin = false ∧ ∀ rule ∈ user.aclRules, ∀ p ∈ rule.permissions, p = .readCommands

theorem permits_readOnly {commandUpper : Bytes} {permissions : List ACLPermission}
    (h : ∀ p ∈ permissions, p = .readCommands) (hp : ACLRule.permits commandUpper permissions = true) :
    ACLRule.isReadCommand commandUpper = true := by
  induction permissions with
  | nil => cases hp
  | cons p rest ih =>
      obtain rfl := h p (List.mem_cons_self ..)
      rw [ACLRule.permits] at hp
      split at hp
      · assumption
      · exact ih (fun q hq => h q (List.mem_cons_of_mem _ hq)) hp

/-- **A read-only user runs commands of the read list only.** -/
theorem User.ReadOnly.isReadCommand {user : User} (h : user.ReadOnly) {command : Bytes}
    {key : Option Bytes} (hcan : user.canExecuteCommand command key = true) :
    ACLRule.isReadCommand (toUppercase command) = true := by
  unfold User.canExecuteCommand at hcan
  rw [h.1, if_neg Bool.false_ne_true, List.any_eq_true] at hcan
  obtain ⟨rule, hrule, hallows⟩ := hcan
  unfold ACLRule.allowsCommand at hallows
  split at hallows
  · rename_i hpermits
    exact permits_readOnly (h.2 rule hrule) hpermits
  · cases hallows

end FerricCache
