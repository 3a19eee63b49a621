import FerricCache.Server.Keys

/-!
# `FerricCache.Transactions` — shard versions and the transaction state of a connection

`ShardVersions` counts the writes of each shard, modulo `2^64`. `TxState` is the queue of `MULTI` and the
versions `WATCH` observed. Only commands that are not transaction control are queued, which the type of the
queue says: `EXEC` never runs another `EXEC`.
-/

namespace FerricCache

/-- `ShardVersions`. -/
abbrev ShardVersions := Fin 64 → UInt64

namespace ShardVersions

/-- `new`. -/
def new : ShardVersions := fun _ => 0

/-- `bump`: `fetch_add(1)`, which wraps. -/
def bump (v : ShardVersions) (i : Fin 64) : ShardVersions := Function.update v i (v i + 1)

end ShardVersions

/-- The commands that run at once even inside `MULTI`. -/
inductive TxControl
  | multi
  | exec
  | discard
  | watch (keys : List Bytes)
  | unwatch
  deriving DecidableEq

/-- `is_tx_control`, with what it found. -/
def txControl : Command → Option TxControl
  | .multi => some .multi
  | .exec => some .exec
  | .discard => some .discard
  | .watch keys => some (.watch keys)
  | .unwatch => some .unwatch
  | _ => none

/-- A command that `MULTI` queues. -/
abbrev QueuedCommand := { c : Command // txControl c = none }

/-- `TxState`; `watched` maps a shard to the version first observed. -/
structure TxState where
  queue : Option (List QueuedCommand)
  queueDirty : Bool
  watched : Fin 64 → Option UInt64

namespace TxState

/-- `new`. -/
def new : TxState := ⟨none, false, fun _ => none⟩

/-- `in_multi`. -/
def inMulti (tx : TxState) : Bool := tx.queue.isSome

/-- `start`. -/
def start (tx : TxState) : TxState := { tx with queue := some [], queueDirty := false }

/-- `enqueue`. -/
def enqueue (tx : TxState) (c : QueuedCommand) : TxState :=
  { tx with queue := tx.queue.map fun q => q ++ [c] }

/-- `unwatch`. -/
def unwatch (tx : TxState) : TxState := { tx with watched := fun _ => none }

/-- `discard`. -/
def discard (_ : TxState) : TxState := new

/-- `watch`: the first version observed for a shard stays. -/
def watch (tx : TxState) (i : Fin 64) (version : UInt64) : TxState :=
  { tx with watched := Function.update tx.watched i ((tx.watched i).or (some version)) }

/-- `any_watched_changed`. -/
def anyWatchedChanged (tx : TxState) (versions : ShardVersions) : Bool :=
  (List.finRange 64).any fun i =>
    match tx.watched i with
    | some v => versions i != v
    | none => false

end TxState

variable [KeyHash]

/-- `shard_index_for`: the shard of a key, computed without the map. -/
def shardIndexFor (key : Bytes) (shardCount : UInt64) : Nat := (KeyHash.xxh3_64 key &&& (shardCount - 1)).toNat

/-- It names the shard that `ShardedMap::shard` selects. -/
theorem shardIndexFor_eq (key : Bytes) : shardIndexFor key 64 = (shardIndex key).val := rfl

/-- `bump_versions_for`. -/
def bumpVersionsFor (c : Command) (versions : ShardVersions) : ShardVersions :=
  match c with
  | .mset pairs => pairs.foldl (fun v p => v.bump (shardIndex p.1)) versions
  | .rpoplpush source destination => (versions.bump (shardIndex source)).bump (shardIndex destination)
  | .smove source destination _ => (versions.bump (shardIndex source)).bump (shardIndex destination)
  | .rename key newKey => (versions.bump (shardIndex key)).bump (shardIndex newKey)
  | .flushAll => (List.finRange 64).foldl ShardVersions.bump versions
  | c =>
      match commandKey c with
      | some k => versions.bump (shardIndex k)
      | none => versions

end FerricCache
