import FerricCache.Server.Dispatch

/-!
# `FerricCache.Pubsub` — the Pub/Sub registry and a connection's subscriptions

A subscriber's `UnboundedSender` is the number of its mailbox. A mailbox is closed once the connection that
holds its receiver is gone; sending to a closed one fails.
-/

namespace FerricCache

open Reply

/-- `PubSubMessage`. -/
structure PubSubMessage where
  channel : Bytes
  payload : Bytes
  deriving DecidableEq

/-- An unbounded channel: what its receiver has not taken yet, and whether the receiver was dropped. -/
structure Mailbox where
  messages : List PubSubMessage
  closed : Bool
  deriving DecidableEq

/-- `PubSub`, with the mailboxes its senders lead to. -/
structure PubSub where
  channels : Std.ExtTreeMap Bytes (List Nat)
  mailboxes : List Mailbox

namespace PubSub

/-- `new`. -/
def new : PubSub := ⟨∅, []⟩

/-- `tx.is_closed()`. -/
def isClosed (ps : PubSub) (tx : Nat) : Bool := (ps.mailboxes[tx]?.map Mailbox.closed).getD true

/-- `subscribe`. -/
def subscribe (ps : PubSub) (channel : Bytes) (tx : Nat) : PubSub :=
  { ps with channels := ps.channels.insert channel ((ps.channels[channel]?).getD [] ++ [tx]) }

/-- `prune_closed`. -/
def pruneClosed (ps : PubSub) (channel : Bytes) : PubSub :=
  match ps.channels[channel]? with
  | some list =>
      let live := list.filter fun tx => !ps.isClosed tx
      { ps with
        channels := if live.isEmpty then ps.channels.erase channel else ps.channels.insert channel live }
  | none => ps

/-- `tx.send(msg)`; a closed mailbox takes nothing. -/
def send (ps : PubSub) (msg : PubSubMessage) (tx : Nat) : PubSub :=
  { ps with
    mailboxes := ps.mailboxes.modify tx fun m => if m.closed then m else { m with messages := m.messages ++ [msg] } }

/-- `publish`: the number of senders that took the message. -/
def publish (ps : PubSub) (channel payload : Bytes) : Nat × PubSub :=
  match ps.channels[channel]? with
  | some list =>
      ((list.filter fun tx => !ps.isClosed tx).length, list.foldl (fun ps tx => ps.send ⟨channel, payload⟩ tx) ps)
  | none => (0, ps)

end PubSub

/-- `SubscriberState`; its receiver is the mailbox `tx` names. -/
structure SubscriberState where
  tx : Option Nat
  channels : List Bytes
  deriving DecidableEq

namespace SubscriberState

/-- `new`. -/
def new : SubscriberState := ⟨none, []⟩

/-- `ensure_sender`: the first call opens a mailbox. -/
def ensureSender (sub : SubscriberState) (ps : PubSub) : Nat × SubscriberState × PubSub :=
  match sub.tx with
  | some tx => (tx, sub, ps)
  | none =>
      let tx := ps.mailboxes.length
      (tx, { sub with tx := some tx }, { ps with mailboxes := ps.mailboxes ++ [⟨[], false⟩] })

end SubscriberState

/-- The frame that confirms a subscription change: `kind`, the channel, how many channels are left. -/
def subscriptionFrame (kind channel : Bytes) (left : Nat) : Bytes :=
  header 3 ++ bulk kind ++ bulk channel ++ 58 :: (natText left ++ crlf)

/-- The `SUBSCRIBE` loop. -/
def subscribeLoop : List Bytes → SubscriberState × PubSub → Bytes × SubscriberState × PubSub
  | [], st => ([], st)
  | ch :: rest, (sub, ps) =>
      let r := sub.ensureSender ps
      let ps' := r.2.2.subscribe ch r.1
      let sub' : SubscriberState :=
        if r.2.1.channels.contains ch then r.2.1 else { r.2.1 with channels := r.2.1.channels ++ [ch] }
      let out := subscribeLoop rest (sub', ps')
      (subscriptionFrame (utf8 "subscribe") ch sub'.channels.length ++ out.1, out.2)

/-- The `UNSUBSCRIBE` loop. -/
def unsubscribeLoop : List Bytes → SubscriberState × PubSub → Bytes × SubscriberState × PubSub
  | [], st => ([], st)
  | ch :: rest, (sub, ps) =>
      let sub' := { sub with channels := sub.channels.filter fun c => c != ch }
      let out := unsubscribeLoop rest (sub', ps.pruneClosed ch)
      (subscriptionFrame (utf8 "unsubscribe") ch sub'.channels.length ++ out.1, out.2)

end FerricCache
