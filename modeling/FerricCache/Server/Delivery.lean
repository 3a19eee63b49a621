import FerricCache.Server.Execute
import FerricCache.Lib.Run

/-!
# `FerricCache.Server.Delivery` — who gets a published message

Many connections share one `PubSub`. The registry knows senders only: a `SUBSCRIBE` puts the connection's sender
on the channel's list once more, and an `UNSUBSCRIBE` takes nothing off it, since the connection's mailbox stays
open. So a message reaches a connected client as often as it ever subscribed to the channel
(`Registered.counts`), and that is what it should be exactly when no client subscribed twice or gave its
subscription up (`publish_delivers_once_iff`).
-/

namespace FerricCache

open Lib.Run

namespace PubSub

/-- The senders registered for a channel. -/
def senders (ps : PubSub) (channel : Bytes) : List Nat := (ps.channels[channel]?).getD []

/-- The receiver of a mailbox is dropped. -/
def close (ps : PubSub) (tx : Nat) : PubSub :=
  { ps with mailboxes := ps.mailboxes.modify tx fun m => { m with closed := true } }

/-- The receiver takes the first message. -/
def takeMessage (ps : PubSub) (tx : Nat) : PubSub :=
  { ps with mailboxes := ps.mailboxes.modify tx fun m => { m with messages := m.messages.tail } }

end PubSub

section Hub

variable [KeyHash]

/-- A server with the connections it has had. -/
structure Hub where
  server : Server
  conn : Nat → ConnState
  connected : Nat → Bool

/-- What a client does, or its connection for it: `receive` is the arm of the connection's loop that takes a
    message out of the mailbox. -/
inductive ClientEvent
  | subscribe (client : Nat) (channels : List Bytes)
  | unsubscribe (client : Nat) (channels : List Bytes)
  | publish (client : Nat) (channel payload : Bytes)
  | disconnect (client : Nat)
  | receive (client : Nat)

namespace Hub

/-- No client has sent anything. -/
def start (srv : Server) : Hub := ⟨{ srv with pubsub := PubSub.new }, fun _ => ConnState.new, fun _ => true⟩

/-- The mailbox of a client. -/
def mailbox (h : Hub) (client : Nat) : Option Nat := (h.conn client).sub.tx

/-- What a change to the mailbox of a client makes of the hub. -/
def onMailbox (h : Hub) (client : Nat) (f : PubSub → Nat → PubSub) : Hub :=
  match h.mailbox client with
  | some tx => { h with server := { h.server with pubsub := f h.server.pubsub tx } }
  | none => h

variable [Lua] [Codec] (cfg : ServerConfig) (rd : Readings)

/-- A dispatched command of one client. -/
def serve (h : Hub) (client : Nat) (c : Command) : Option Response × Hub :=
  let r := perform cfg rd c h.server (h.conn client)
  (r.1, { h with server := r.2.1, conn := Function.update h.conn client r.2.2 })

/-- One event; a client that is gone does nothing. -/
def step (h : Hub) : ClientEvent → Option Hub
  | .subscribe client channels =>
      if h.connected client then some (h.serve cfg rd client (.subscribe channels)).2 else none
  | .unsubscribe client channels =>
      if h.connected client then some (h.serve cfg rd client (.unsubscribe channels)).2 else none
  | .publish client channel payload =>
      if h.connected client then some (h.serve cfg rd client (.publish channel payload)).2 else none
  | .disconnect client =>
      if h.connected client then
        some { h.onMailbox client PubSub.close with connected := Function.update h.connected client false }
      else none
  | .receive client => if h.connected client then some (h.onMailbox client PubSub.takeMessage) else none

end Hub

/-! ## What the clients asked for -/

/-- How often the event subscribes the client to the channel. -/
def ClientEvent.subscriptions (client : Nat) (channel : Bytes) : ClientEvent → Nat
  | .subscribe i channels => if i = client then channels.count channel else 0
  | _ => 0

/-- How often the client has subscribed to the channel. -/
def subscriptions (client : Nat) (channel : Bytes) (events : List ClientEvent) : Nat :=
  (events.map (ClientEvent.subscriptions client channel)).sum

/-- Whether the client is subscribed after the event, given whether it was before. An `UNSUBSCRIBE` without
    arguments concerns every channel. -/
def ClientEvent.subscribed (client : Nat) (channel : Bytes) (before : Bool) : ClientEvent → Bool
  | .subscribe i channels => if i = client ∧ channel ∈ channels then true else before
  | .unsubscribe i channels => if i = client ∧ (channels = [] ∨ channel ∈ channels) then false else before
  | _ => before

/-- The client's latest command concerning the channel was a `SUBSCRIBE`. -/
def subscribed (client : Nat) (channel : Bytes) (events : List ClientEvent) : Bool :=
  events.foldl (fun before e => e.subscribed client channel before) false

omit [KeyHash] in
theorem subscriptions_snoc (client : Nat) (channel : Bytes) (events : List ClientEvent) (e : ClientEvent) :
    subscriptions client channel (events ++ [e])
      = subscriptions client channel events + e.subscriptions client channel := by
  simp [subscriptions]

omit [KeyHash] in
/-- Who is subscribed has subscribed. -/
theorem subscriptions_pos {client : Nat} {channel : Bytes} {events : List ClientEvent}
    (h : subscribed client channel events = true) : 0 < subscriptions client channel events := by
  induction events using List.reverseRecOn with
  | nil => cases h
  | append_singleton events e ih =>
      rw [subscriptions_snoc]
      rw [subscribed, List.foldl_append, List.foldl_cons, List.foldl_nil] at h
      cases e with
      | subscribe i channels =>
          simp only [ClientEvent.subscribed] at h
          split at h
          · rename_i hc
            simp only [ClientEvent.subscriptions, hc.1, if_true]
            exact Nat.add_pos_right _ (List.count_pos_iff.mpr hc.2)
          · exact Nat.add_pos_left (ih h) _
      | unsubscribe i channels =>
          simp only [ClientEvent.subscribed] at h
          split at h
          · cases h
          · exact Nat.add_pos_left (ih h) _
      | publish i ch payload => exact Nat.add_pos_left (ih h) _
      | disconnect i => exact Nat.add_pos_left (ih h) _
      | receive i => exact Nat.add_pos_left (ih h) _

end Hub

/-! ## The registry follows the subscriptions -/

/-- The registry lists a connected client's mailbox as often as the client subscribed; each open mailbox is one
    connected client's. -/
structure Registered (n : Nat → Bytes → Nat) (connected : Nat → Bool) (tx : Nat → Option Nat) (ps : PubSub) :
    Prop where
  counts : ∀ i, connected i = true → ∀ channel,
    n i channel = (tx i).elim 0 fun m => (ps.senders channel).count m
  opens : ∀ i m, connected i = true → tx i = some m → ps.isClosed m = false
  owner : ∀ m, ps.isClosed m = false → ∃ i, connected i = true ∧ tx i = some m
  inj : ∀ i j m, connected i = true → connected j = true → tx i = some m → tx j = some m → i = j
  bound : ∀ channel, ∀ m ∈ ps.senders channel, m < ps.mailboxes.length

namespace PubSub

theorem isClosed_of_le {ps : PubSub} {m : Nat} (h : ps.mailboxes.length ≤ m) : ps.isClosed m = true := by
  unfold isClosed
  rw [List.getElem?_eq_none h]
  rfl

theorem senders_subscribe (ps : PubSub) (channel channel' : Bytes) (tx : Nat) :
    (ps.subscribe channel tx).senders channel'
      = if channel' = channel then ps.senders channel ++ [tx] else ps.senders channel' := by
  unfold senders subscribe
  rw [Std.ExtTreeMap.getElem?_insert]
  by_cases he : channel' = channel
  · rw [if_pos (Std.LawfulEqCmp.compare_eq_iff_eq.mpr he.symm), if_pos he]
    rfl
  · rw [if_neg (fun h => he (Std.LawfulEqCmp.eq_of_compare h).symm), if_neg he]

/-- Pruning drops the senders of closed mailboxes. -/
theorem senders_pruneClosed (ps : PubSub) (channel channel' : Bytes) :
    (ps.pruneClosed channel).senders channel'
      = if channel' = channel then (ps.senders channel).filter fun tx => !ps.isClosed tx
        else ps.senders channel' := by
  unfold pruneClosed
  by_cases he : channel' = channel
  · subst he
    rw [if_pos rfl]
    cases hlist : ps.channels[channel']? with
    | none => simp [senders, hlist]
    | some list =>
        simp only [senders, hlist, Option.getD_some]
        split
        · rename_i hempty
          rw [Std.ExtTreeMap.getElem?_erase_self, List.isEmpty_iff.mp hempty]
          rfl
        · rw [Std.ExtTreeMap.getElem?_insert_self]
          rfl
  · rw [if_neg he]
    cases hlist : ps.channels[channel]? with
    | none => rfl
    | some list =>
        have hne : ¬ compare channel channel' = .eq := fun h => he (Std.LawfulEqCmp.eq_of_compare h).symm
        simp only [senders]
        split
        · rw [Std.ExtTreeMap.getElem?_erase, if_neg hne]
        · rw [Std.ExtTreeMap.getElem?_insert, if_neg hne]

theorem mailboxes_pruneClosed (ps : PubSub) (channel : Bytes) :
    (ps.pruneClosed channel).mailboxes = ps.mailboxes := by
  unfold pruneClosed
  split
  · rfl
  · rfl

/-- A change of one mailbox that leaves it open or closed as it was. -/
theorem isClosed_modify {ps ps' : PubSub} {tx : Nat} {f : Mailbox → Mailbox}
    (h : ps'.mailboxes = ps.mailboxes.modify tx f) (hf : ∀ box, (f box).closed = box.closed) (m : Nat) :
    ps'.isClosed m = ps.isClosed m := by
  unfold isClosed
  rw [h, List.getElem?_modify]
  cases ps.mailboxes[m]? with
  | none => rfl
  | some box =>
      by_cases he : tx = m
      · simp [he, hf]
      · simp [he]

theorem isClosed_send (ps : PubSub) (msg : PubSubMessage) (tx m : Nat) :
    (ps.send msg tx).isClosed m = ps.isClosed m := by
  refine isClosed_modify rfl (fun box => ?_) m
  split
  · rfl
  · rfl

/-- A mailbox after the message went to a list of senders: one copy for each time it is listed. -/
theorem mailboxes_send (ps : PubSub) (msg : PubSubMessage) (list : List Nat) (m : Nat) :
    (list.foldl (fun ps tx => ps.send msg tx) ps).mailboxes[m]?
      = ps.mailboxes[m]?.map fun box =>
          if box.closed then box
          else { box with messages := box.messages ++ List.replicate (list.count m) msg } := by
  induction list generalizing ps with
  | nil => cases h : ps.mailboxes[m]? <;> simp [h]
  | cons tx list ih =>
      rw [List.foldl_cons, ih, send, List.getElem?_modify, List.count_cons]
      cases ps.mailboxes[m]? with
      | none => rfl
      | some box =>
          by_cases hclosed : box.closed = true
          · by_cases he : tx = m
            · simp [he, hclosed]
            · simp [he, hclosed]
          · by_cases he : tx = m
            · simp [he, hclosed, List.replicate_succ]
            · simp [he, hclosed]

theorem send_keeps (ps : PubSub) (msg : PubSubMessage) (list : List Nat) :
    (∀ channel, (list.foldl (fun ps tx => ps.send msg tx) ps).senders channel = ps.senders channel) ∧
      (∀ m, (list.foldl (fun ps tx => ps.send msg tx) ps).isClosed m = ps.isClosed m) ∧
      (list.foldl (fun ps tx => ps.send msg tx) ps).mailboxes.length = ps.mailboxes.length := by
  induction list generalizing ps with
  | nil => exact ⟨fun _ => rfl, fun _ => rfl, rfl⟩
  | cons tx list ih =>
      obtain ⟨hsenders, hclosed, hlength⟩ := ih (ps.send msg tx)
      refine ⟨hsenders, fun m => (hclosed m).trans (isClosed_send ps msg tx m), hlength.trans ?_⟩
      exact List.length_modify ..

/-- `publish` sends to the channel's list. -/
theorem publish_eq (ps : PubSub) (channel payload : Bytes) :
    ps.publish channel payload
      = (((ps.senders channel).filter fun tx => !ps.isClosed tx).length,
        (ps.senders channel).foldl (fun ps tx => ps.send ⟨channel, payload⟩ tx) ps) := by
  unfold publish senders
  cases ps.channels[channel]? with
  | none => rfl
  | some list => rfl

end PubSub

namespace Registered

variable {n : Nat → Bytes → Nat} {connected : Nat → Bool} {tx : Nat → Option Nat} {ps ps' : PubSub}

/-- A change that keeps who is open and how often the open ones are listed. -/
theorem congr (h : Registered n connected tx ps) (hclosed : ∀ m, ps'.isClosed m = ps.isClosed m)
    (hcount : ∀ channel m, ps.isClosed m = false → (ps'.senders channel).count m = (ps.senders channel).count m)
    (hbound : ∀ channel, ∀ m ∈ ps'.senders channel, m < ps'.mailboxes.length) :
    Registered n connected tx ps' where
  counts i hi channel := by
    rw [h.counts i hi channel]
    cases htx : tx i with
    | none => rfl
    | some m => exact (hcount channel m (h.opens i m hi htx)).symm
  opens i m hi htx := (hclosed m).trans (h.opens i m hi htx)
  owner m hm := h.owner m ((hclosed m).symm.trans hm)
  inj := h.inj
  bound := hbound

theorem pruneClosed (h : Registered n connected tx ps) (channel : Bytes) :
    Registered n connected tx (ps.pruneClosed channel) := by
  have hclosed : ∀ m, (ps.pruneClosed channel).isClosed m = ps.isClosed m := by
    intro m
    unfold PubSub.isClosed
    rw [PubSub.mailboxes_pruneClosed]
  refine h.congr hclosed ?_ ?_
  · intro channel' m hm
    rw [PubSub.senders_pruneClosed]
    split
    · rename_i he
      rw [he, List.count_filter (by rw [hm]; rfl)]
    · rfl
  · intro channel' m hm
    rw [PubSub.senders_pruneClosed] at hm
    rw [PubSub.mailboxes_pruneClosed]
    split at hm
    · exact h.bound channel m (List.mem_of_mem_filter hm)
    · exact h.bound channel' m hm

theorem publish (h : Registered n connected tx ps) (channel payload : Bytes) :
    Registered n connected tx (ps.publish channel payload).2 := by
  obtain ⟨hsenders, hclosed, hlength⟩ := ps.send_keeps ⟨channel, payload⟩ (ps.senders channel)
  rw [PubSub.publish_eq]
  refine h.congr hclosed (fun channel' m _ => by rw [hsenders]) (fun channel' m hm => ?_)
  rw [hsenders] at hm
  rw [hlength]
  exact h.bound channel' m hm

theorem takeMessage (h : Registered n connected tx ps) (m : Nat) :
    Registered n connected tx (ps.takeMessage m) := by
  refine h.congr (PubSub.isClosed_modify rfl fun _ => rfl) (fun _ _ _ => rfl) (fun channel m' hm' => ?_)
  rw [show (ps.takeMessage m).mailboxes.length = ps.mailboxes.length from List.length_modify ..]
  exact h.bound channel m' hm'

/-- A client that goes closes its mailbox, which was nobody else's. -/
theorem close (h : Registered n connected tx ps) {i m : Nat} (hi : connected i = true) (hm : tx i = some m) :
    Registered n (Function.update connected i false) tx (ps.close m) := by
  have hstays : ∀ j, Function.update connected i false j = true → j ≠ i ∧ connected j = true := by
    intro j hj
    by_cases he : j = i
    · rw [he, Function.update_self] at hj
      cases hj
    · rw [Function.update_of_ne he] at hj
      exact ⟨he, hj⟩
  have hopen : ∀ m', (ps.close m).isClosed m' = if m' = m then true else ps.isClosed m' := by
    intro m'
    unfold PubSub.isClosed PubSub.close
    simp only [List.getElem?_modify]
    cases ps.mailboxes[m']? with
    | none => simp
    | some box =>
        by_cases he : m' = m
        · simp [he]
        · simp [he, Ne.symm he]
  refine ⟨fun j hj channel => h.counts j (hstays j hj).2 channel, fun j m' hj hm' => ?_, fun m' hm' => ?_,
    fun j k m' hj hk => h.inj j k m' (hstays j hj).2 (hstays k hk).2, fun channel m' hm' => ?_⟩
  · obtain ⟨hne, hj'⟩ := hstays j hj
    rw [hopen m', if_neg]
    · exact h.opens j m' hj' hm'
    · rintro rfl
      exact hne (h.inj j i m' hj' hi hm' hm)
  · rw [hopen m'] at hm'
    split at hm'
    · cases hm'
    · rename_i hne
      obtain ⟨j, hj, htx⟩ := h.owner m' hm'
      refine ⟨j, ?_, htx⟩
      rw [Function.update_of_ne, hj]
      rintro rfl
      rw [hm] at htx
      exact hne (Option.some.inj htx).symm
  · rw [show (ps.close m).mailboxes.length = ps.mailboxes.length from List.length_modify ..]
    exact h.bound channel m' hm'

/-- A client without a mailbox goes. -/
theorem leave (h : Registered n connected tx ps) {i : Nat} (hm : tx i = none) :
    Registered n (Function.update connected i false) tx ps := by
  have hstays : ∀ j, Function.update connected i false j = true → connected j = true := by
    intro j hj
    by_cases he : j = i
    · rw [he, Function.update_self] at hj
      cases hj
    · rw [Function.update_of_ne he] at hj
      exact hj
  refine ⟨fun j hj => h.counts j (hstays j hj), fun j m hj => h.opens j m (hstays j hj), fun m hm' => ?_,
    fun j k m hj hk => h.inj j k m (hstays j hj) (hstays k hk), h.bound⟩
  obtain ⟨j, hj, htx⟩ := h.owner m hm'
  refine ⟨j, ?_, htx⟩
  rw [Function.update_of_ne, hj]
  rintro rfl
  rw [hm] at htx
  cases htx

/-- A new mailbox is on no list yet. -/
theorem ensureSender (h : Registered n connected tx ps) {i : Nat} (hi : connected i = true)
    {sub : SubscriberState} (hsub : sub.tx = tx i) :
    (sub.ensureSender ps).2.1.tx = some (sub.ensureSender ps).1 ∧
      Registered n connected (Function.update tx i (some (sub.ensureSender ps).1)) (sub.ensureSender ps).2.2 := by
  unfold SubscriberState.ensureSender
  cases htx : sub.tx with
  | some m =>
      -- it has a mailbox already
      refine ⟨htx, ?_⟩
      show Registered n connected (Function.update tx i (some m)) ps
      rw [← htx, hsub, Function.update_eq_self]
      exact h
  | none =>
      -- the new mailbox has the next number, which nobody holds
      refine ⟨rfl, ?_⟩
      rw [hsub] at htx
      have hopen : ∀ m, ({ ps with mailboxes := ps.mailboxes ++ [⟨[], false⟩] } : PubSub).isClosed m
          = if m = ps.mailboxes.length then false else ps.isClosed m := by
        intro m
        unfold PubSub.isClosed
        by_cases he : m = ps.mailboxes.length
        · simp [he]
        · rw [if_neg he]
          rcases Nat.lt_or_gt_of_ne he with hlt | hgt
          · rw [List.getElem?_append_left hlt]
          · rw [List.getElem?_eq_none (by simp; omega), List.getElem?_eq_none (by omega)]
      have hfresh : ∀ j m, connected j = true → tx j = some m → m ≠ ps.mailboxes.length := by
        rintro j m hj hm rfl
        have := h.opens j _ hj hm
        rw [PubSub.isClosed_of_le (Nat.le_refl _)] at this
        cases this
      have hother : ∀ j m, Function.update tx i (some ps.mailboxes.length) j = some m →
          (j = i ∧ m = ps.mailboxes.length) ∨ (j ≠ i ∧ tx j = some m) := by
        intro j m hm
        by_cases he : j = i
        · rw [he, Function.update_self] at hm
          exact Or.inl ⟨he, (Option.some.inj hm).symm⟩
        · rw [Function.update_of_ne he] at hm
          exact Or.inr ⟨he, hm⟩
      refine ⟨fun j hj channel => ?_, fun j m hj hm => ?_, fun m hm => ?_, fun j k m hj hk hjm hkm => ?_,
        fun channel m hm => ?_⟩
      · rw [h.counts j hj channel]
        by_cases he : j = i
        · rw [he, htx, Function.update_self]
          symm
          apply List.count_eq_zero_of_not_mem
          intro hmem
          exact absurd (h.bound channel _ hmem) (Nat.lt_irrefl _)
        · rw [Function.update_of_ne he]
          rfl
      · rw [hopen m]
        rcases hother j m hm with ⟨-, rfl⟩ | ⟨-, hm'⟩
        · exact if_pos rfl
        · rw [if_neg (hfresh j m hj hm')]
          exact h.opens j m hj hm'
      · rw [hopen m] at hm
        split at hm
        · rename_i he
          exact ⟨i, hi, by rw [Function.update_self, he]⟩
        · obtain ⟨j, hj, hjm⟩ := h.owner m hm
          refine ⟨j, hj, ?_⟩
          rw [Function.update_of_ne, hjm]
          rintro rfl
          rw [htx] at hjm
          cases hjm
      · rcases hother j m hjm with ⟨rfl, rfl⟩ | ⟨hne, hjm'⟩
        · rcases hother k _ hkm with ⟨rfl, -⟩ | ⟨-, hkm'⟩
          · rfl
          · exact absurd rfl (hfresh k _ hk hkm')
        · rcases hother k m hkm with ⟨rfl, rfl⟩ | ⟨-, hkm'⟩
          · exact absurd rfl (hfresh j _ hj hjm')
          · exact h.inj j k m hj hk hjm' hkm'
      · have := h.bound channel m hm
        simp only [List.length_append, List.length_singleton]
        omega

/-- One more subscription. -/
theorem subscribe (h : Registered n connected tx ps) {i m : Nat} (hi : connected i = true) (hm : tx i = some m)
    (channel : Bytes) :
    Registered (fun j channel' => n j channel' + if j = i ∧ channel' = channel then 1 else 0) connected tx
      (ps.subscribe channel m) where
  counts j hj channel' := by
    rw [h.counts j hj channel']
    cases hjm : tx j with
    | none =>
        have hne : j ≠ i := by
          rintro rfl
          rw [hm] at hjm
          cases hjm
        simp [hne]
    | some m' =>
        simp only [Option.elim_some, PubSub.senders_subscribe]
        by_cases hc : channel' = channel
        · rw [if_pos hc, List.count_append, List.count_singleton, hc]
          by_cases he : j = i
          · subst he
            rw [hm] at hjm
            cases hjm
            simp
          · have hne : m ≠ m' := by
              rintro rfl
              exact he (h.inj j i m hj hi hjm hm)
            simp [he, hne]
        · simp [hc]
  opens := h.opens
  owner := h.owner
  inj := h.inj
  bound channel' m' hm' := by
    rw [PubSub.senders_subscribe] at hm'
    split at hm'
    · rcases List.mem_append.mp hm' with hold | hnew
      · exact h.bound channel m' hold
      · rw [List.mem_singleton.mp hnew]
        by_contra hge
        have hle : ps.mailboxes.length ≤ m := Nat.le_of_not_lt hge
        have hopen := h.opens i m hi hm
        rw [PubSub.isClosed_of_le hle] at hopen
        cases hopen
    · exact h.bound channel' m' hm'

/-- The loop of `SUBSCRIBE` counts every channel it is given. -/
theorem subscribeLoop (channels : List Bytes) {i : Nat} (hi : connected i = true) :
    ∀ {n : Nat → Bytes → Nat} {tx : Nat → Option Nat} {ps : PubSub} {sub : SubscriberState},
      Registered n connected tx ps → sub.tx = tx i →
      Registered (fun j channel => n j channel + if i = j then channels.count channel else 0) connected
        (Function.update tx i (subscribeLoop channels (sub, ps)).2.1.tx)
        (subscribeLoop channels (sub, ps)).2.2 := by
  induction channels with
  | nil =>
      intro n tx ps sub h hsub
      simp only [FerricCache.subscribeLoop, hsub, Function.update_eq_self, List.count_nil, ite_self, Nat.add_zero]
      exact h
  | cons ch channels ih =>
      intro n tx ps sub h hsub
      obtain ⟨htx, hens⟩ := h.ensureSender hi hsub
      have hone := hens.subscribe hi (Function.update_self ..) ch
      simp only [FerricCache.subscribeLoop]
      generalize hr : sub.ensureSender ps = r at htx hone ⊢
      have hsub' : (if r.2.1.channels.contains ch then r.2.1
          else { r.2.1 with channels := r.2.1.channels ++ [ch] }).tx = Function.update tx i (some r.1) i := by
        rw [Function.update_self]
        split
        · exact htx
        · exact htx
      have hnext := ih hone hsub'
      rw [Function.update_idem] at hnext
      convert hnext using 3 with j channel
      rw [List.count_cons]
      by_cases he : i = j
      · by_cases hc : ch = channel
        · simp only [he, hc, and_self, if_true, beq_self_eq_true]
          omega
        · simp [he, hc, Ne.symm hc]
      · simp [he, Ne.symm he]

/-- The loop of `UNSUBSCRIBE` takes no open mailbox off a list, and leaves the connection its own. -/
theorem unsubscribeLoop (channels : List Bytes) (sub : SubscriberState) (h : Registered n connected tx ps) :
    (unsubscribeLoop channels (sub, ps)).2.1.tx = sub.tx ∧
      Registered n connected tx (unsubscribeLoop channels (sub, ps)).2.2 := by
  induction channels generalizing sub ps with
  | nil => exact ⟨rfl, h⟩
  | cons ch channels ih => exact ih { sub with channels := sub.channels.filter fun c => c != ch } (h.pruneClosed ch)

end Registered

/-! ## Runs -/

section Runs

variable [KeyHash] [Lua] [Codec] {cfg : ServerConfig} {rd : Readings}

/-- The registry of the hub follows the subscriptions of the events so far. -/
def Hub.Follows (h : Hub) (events : List ClientEvent) : Prop :=
  Registered (fun i channel => subscriptions i channel events) h.connected h.mailbox h.server.pubsub

theorem Hub.mailbox_serve (h : Hub) (client : Nat) (c : Command) :
    (h.serve cfg rd client c).2.mailbox
      = Function.update h.mailbox client (perform cfg rd c h.server (h.conn client)).2.2.sub.tx := by
  funext j
  by_cases he : j = client
  · simp [Hub.mailbox, Hub.serve, he]
  · simp [Hub.mailbox, Hub.serve, he]

theorem Hub.mailbox_serve_same (h : Hub) (client : Nat) {c : Command}
    (hc : (perform cfg rd c h.server (h.conn client)).2.2.sub.tx = h.mailbox client) :
    (h.serve cfg rd client c).2.mailbox = h.mailbox := by
  rw [Hub.mailbox_serve, hc, Function.update_eq_self]

/-- **One event.** -/
theorem Hub.follows_step {h h' : Hub} {events : List ClientEvent} {e : ClientEvent} (hf : h.Follows events)
    (hstep : h.step cfg rd e = some h') : h'.Follows (events ++ [e]) := by
  have hsame : ∀ {e : ClientEvent}, (∀ i channel, e.subscriptions i channel = 0) →
      (fun i channel => subscriptions i channel (events ++ [e]))
        = fun i channel => subscriptions i channel events := by
    intro e he
    funext i channel
    rw [subscriptions_snoc, he, Nat.add_zero]
  unfold Hub.Follows at hf ⊢
  -- only a subscription changes how often a client is subscribed
  cases e with
  | subscribe client channels =>
      simp only [Hub.step] at hstep
      split at hstep
      · rename_i hc
        cases hstep
        have hloop := Registered.subscribeLoop channels hc hf rfl
        rw [Hub.mailbox_serve]
        simp only [subscriptions_snoc, ClientEvent.subscriptions]
        exact hloop
      · cases hstep
  | unsubscribe client channels =>
      simp only [Hub.step] at hstep
      split at hstep
      · cases hstep
        obtain ⟨htx, hloop⟩ := Registered.unsubscribeLoop
          (if channels.isEmpty then (h.conn client).sub.channels else channels) (h.conn client).sub hf
        rw [hsame fun _ _ => rfl, Hub.mailbox_serve_same h client (c := .unsubscribe channels) htx]
        exact hloop
      · cases hstep
  | publish client channel payload =>
      simp only [Hub.step] at hstep
      split at hstep
      · cases hstep
        rw [hsame fun _ _ => rfl, Hub.mailbox_serve_same h client rfl]
        exact hf.publish channel payload
      · cases hstep
  | disconnect client =>
      simp only [Hub.step] at hstep
      split at hstep
      · rename_i hc
        cases hstep
        rw [hsame fun _ _ => rfl]
        unfold Hub.onMailbox
        split
        · rename_i m hm
          exact hf.close hc hm
        · rename_i hm
          exact hf.leave hm
      · cases hstep
  | receive client =>
      simp only [Hub.step] at hstep
      split at hstep
      · cases hstep
        rw [hsame fun _ _ => rfl]
        unfold Hub.onMailbox
        split
        · rename_i m hm
          exact hf.takeMessage m
        · exact hf
      · cases hstep

theorem Hub.follows_run (srv : Server) (events : List ClientEvent) (h : Hub)
    (hrun : run (Hub.step cfg rd) (Hub.start srv) events = some h) : h.Follows events := by
  induction events using List.reverseRecOn generalizing h with
  | nil =>
      cases hrun
      refine ⟨fun i _ channel => rfl, fun i m _ hm => ?_, fun m hm => ?_, fun i j m _ _ hm => ?_,
        fun channel m hm => ?_⟩
      · cases hm
      · cases hm
      · cases hm
      · simp [Hub.start, PubSub.senders, PubSub.new] at hm
  | append_singleton events e ih =>
      obtain ⟨mid, hmid, hlast⟩ := run_append.mp hrun
      obtain ⟨h', hstep, hend⟩ := run_cons.mp hlast
      cases hend
      exact Hub.follows_step (ih mid hmid) hstep

/-- The connected clients whose latest command concerning the channel was a `SUBSCRIBE`. -/
def Hub.subscribers (h : Hub) (events : List ClientEvent) (channel : Bytes) : Set Nat :=
  { i | h.connected i = true ∧ subscribed i channel events = true }

/-- A `PUBLISH` puts one copy into the mailbox of each subscriber and none into any other, and replies with
    how many there are. -/
def DeliversOnce (cfg : ServerConfig) (rd : Readings) (h : Hub) (events : List ClientEvent) (client : Nat)
    (channel payload : Bytes) : Prop :=
  let r := h.serve cfg rd client (.publish channel payload)
  (h.subscribers events channel).Finite ∧
    r.1 = some (Reply.count (h.subscribers events channel).ncard) ∧
    (∀ i ∈ h.subscribers events channel, ∃ m box, h.mailbox i = some m ∧
      h.server.pubsub.mailboxes[m]? = some box ∧
      r.2.server.pubsub.mailboxes[m]? = some { box with messages := box.messages ++ [⟨channel, payload⟩] }) ∧
    ∀ m, (∀ i ∈ h.subscribers events channel, h.mailbox i ≠ some m) →
      r.2.server.pubsub.mailboxes[m]? = h.server.pubsub.mailboxes[m]?

omit [KeyHash] [Lua] [Codec] in
theorem append_replicate_eq {α : Type} {l : List α} {a : α} {n : Nat} (k : Nat) :
    l ++ List.replicate n a = l ++ List.replicate k a ↔ n = k := by
  rw [List.append_cancel_left_eq]
  constructor
  · intro h
    have := congrArg List.length h
    simpa using this
  · rintro rfl
    rfl

/-- What a `PUBLISH` does to a mailbox. -/
theorem mailboxes_publish (h : Hub) (client : Nat) (channel payload : Bytes) (m : Nat) :
    (h.serve cfg rd client (.publish channel payload)).2.server.pubsub.mailboxes[m]?
      = h.server.pubsub.mailboxes[m]?.map fun box =>
          if box.closed then box
          else { box with messages := box.messages ++
            List.replicate ((h.server.pubsub.senders channel).count m) ⟨channel, payload⟩ } := by
  rw [← PubSub.mailboxes_send]
  show (h.server.pubsub.publish channel payload).2.mailboxes[m]? = _
  rw [PubSub.publish_eq]

theorem serve_publish_reply (h : Hub) (client : Nat) (channel payload : Bytes) :
    (h.serve cfg rd client (.publish channel payload)).1
      = some (Reply.count ((h.server.pubsub.senders channel).filter fun m =>
          !h.server.pubsub.isClosed m).length) := by
  show some (Reply.count (h.server.pubsub.publish channel payload).1) = _
  rw [PubSub.publish_eq]

omit [KeyHash] [Lua] [Codec] in
/-- An open mailbox. -/
theorem exists_open_box {ps : PubSub} {m : Nat} (h : ps.isClosed m = false) :
    ∃ box, ps.mailboxes[m]? = some box ∧ box.closed = false := by
  unfold PubSub.isClosed at h
  cases hbox : ps.mailboxes[m]? with
  | none =>
      rw [hbox] at h
      cases h
  | some box =>
      rw [hbox] at h
      exact ⟨box, rfl, h⟩

variable {h : Hub} {events : List ClientEvent} {channel : Bytes}

omit [Lua] [Codec] in
/-- A subscriber has a mailbox, which is open and listed. -/
theorem subscriber_mailbox (hf : h.Follows events) {i : Nat} (hi : i ∈ h.subscribers events channel) :
    ∃ m, h.mailbox i = some m ∧ m ∈ h.server.pubsub.senders channel ∧ h.server.pubsub.isClosed m = false := by
  have hpos := subscriptions_pos hi.2
  rw [hf.counts i hi.1 channel] at hpos
  cases hm : h.mailbox i with
  | none =>
      rw [hm] at hpos
      exact absurd hpos (Nat.lt_irrefl 0)
  | some m =>
      rw [hm] at hpos
      exact ⟨m, rfl, List.count_pos_iff.mp hpos, hf.opens i m hi.1 hm⟩

/-- No connected client has subscribed to the channel more often than once, nor given a subscription to it
    up. -/
def SubscribedOnce (h : Hub) (events : List ClientEvent) (channel : Bytes) : Prop :=
  ∀ i, h.connected i = true →
    subscriptions i channel events = if subscribed i channel events then 1 else 0

omit [Lua] [Codec] in
theorem SubscribedOnce.count (hf : h.Follows events) (hcond : SubscribedOnce h events channel) {i m : Nat}
    (hi : h.connected i = true) (hm : h.mailbox i = some m) :
    (h.server.pubsub.senders channel).count m = if subscribed i channel events then 1 else 0 := by
  rw [← hcond i hi, hf.counts i hi channel, hm]
  rfl

omit [Lua] [Codec] in
/-- The open senders of the channel are the mailboxes of its subscribers, each once. -/
theorem open_senders (hf : h.Follows events) (hcond : SubscribedOnce h events channel) :
    (h.subscribers events channel).Finite ∧
      ((h.server.pubsub.senders channel).filter fun m => !h.server.pubsub.isClosed m).length
        = (h.subscribers events channel).ncard := by
  have hnodup : ((h.server.pubsub.senders channel).filter fun m => !h.server.pubsub.isClosed m).Nodup := by
    rw [List.nodup_iff_count_le_one]
    intro m
    by_cases hm : h.server.pubsub.isClosed m = true
    · rw [List.count_eq_zero_of_not_mem]
      · omega
      · intro hmem
        simp [hm] at hmem
    · rw [Bool.not_eq_true] at hm
      obtain ⟨i, hi, htx⟩ := hf.owner m hm
      rw [List.count_filter (by rw [hm]; rfl), hcond.count hf hi htx]
      split <;> omega
  have hinj : Set.InjOn (fun i => (h.mailbox i).getD 0) (h.subscribers events channel) := by
    intro i hi j hj he
    obtain ⟨m, hm, -⟩ := subscriber_mailbox hf hi
    obtain ⟨m', hm', -⟩ := subscriber_mailbox hf hj
    simp only [hm, hm', Option.getD_some] at he
    exact hf.inj i j m hi.1 hj.1 hm (he ▸ hm')
  have himage : (fun i => (h.mailbox i).getD 0) '' h.subscribers events channel
      = (((h.server.pubsub.senders channel).filter fun m => !h.server.pubsub.isClosed m).toFinset : Set Nat) := by
    ext m
    simp only [Set.mem_image, Finset.mem_coe, List.mem_toFinset, List.mem_filter, Bool.not_eq_true']
    constructor
    · rintro ⟨i, hi, rfl⟩
      obtain ⟨m, hm, hlisted, hopen⟩ := subscriber_mailbox hf hi
      rw [hm, Option.getD_some]
      exact ⟨hlisted, hopen⟩
    · rintro ⟨hlisted, hopen⟩
      obtain ⟨i, hi, htx⟩ := hf.owner m hopen
      refine ⟨i, ⟨hi, ?_⟩, by rw [htx, Option.getD_some]⟩
      -- the mailbox is listed, so its client is subscribed
      have hcount := hcond.count hf hi htx
      have hpos := List.count_pos_iff.mpr hlisted
      split at hcount
      · assumption
      · omega
  constructor
  · exact Set.Finite.of_finite_image (himage ▸ Finset.finite_toSet _) hinj
  · rw [← hinj.ncard_image, himage, Set.ncard_coe_finset, List.toFinset_card_of_nodup hnodup]

/-- **A message is delivered once to each subscriber and to nobody else exactly when no connected client
    subscribed to the channel twice or unsubscribed from it**, at every `PUBLISH` of every run. -/
theorem publish_delivers_once_iff (cfg : ServerConfig) (rd : Readings) (srv : Server)
    (events : List ClientEvent) (h : Hub) (hrun : run (Hub.step cfg rd) (Hub.start srv) events = some h)
    (client : Nat) (channel payload : Bytes) :
    DeliversOnce cfg rd h events client channel payload ↔ SubscribedOnce h events channel := by
  have hf := Hub.follows_run srv events h hrun
  constructor
  · rintro ⟨-, -, hgets, hothers⟩ i hi
    rw [hf.counts i hi channel]
    by_cases hsub : subscribed i channel events = true
    · obtain ⟨m, box, hm, hbox, hafter⟩ := hgets i ⟨hi, hsub⟩
      obtain ⟨box', hbox', hopen⟩ := exists_open_box (hf.opens i m hi hm)
      cases hbox.symm.trans hbox'
      rw [mailboxes_publish, hbox, Option.map_some, if_neg (by simp [hopen]), Option.some.injEq,
        Mailbox.mk.injEq] at hafter
      rw [hm, if_pos hsub]
      exact (append_replicate_eq 1).mp hafter.1
    · rw [if_neg hsub]
      cases hm : h.mailbox i with
      | none => rfl
      | some m =>
          -- the mailbox is the client's alone, so it gets nothing
          obtain ⟨box, hbox, hopen⟩ := exists_open_box (hf.opens i m hi hm)
          have hafter := hothers m fun j hj hjm => hsub (hf.inj j i m hj.1 hi hjm hm ▸ hj.2)
          rw [mailboxes_publish, hbox, Option.map_some, if_neg (by simp [hopen]), Option.some.injEq] at hafter
          have hmessages := congrArg Mailbox.messages hafter
          simpa using hmessages
  · intro hcond
    obtain ⟨hfinite, hlength⟩ := open_senders hf hcond
    refine ⟨hfinite, ?_, fun i hi => ?_, fun m hm => ?_⟩
    · rw [serve_publish_reply, hlength]
    · obtain ⟨m, hm, -, hopen⟩ := subscriber_mailbox hf hi
      obtain ⟨box, hbox, hclosed⟩ := exists_open_box hopen
      refine ⟨m, box, hm, hbox, ?_⟩
      rw [mailboxes_publish, hbox, Option.map_some, if_neg (by simp [hclosed]), hcond.count hf hi.1 hm,
        if_pos hi.2]
      rfl
    · rw [mailboxes_publish]
      cases hbox : h.server.pubsub.mailboxes[m]? with
      | none => rfl
      | some box =>
          rw [Option.map_some]
          split
          · rfl
          · rename_i hclosed
            have hopen : h.server.pubsub.isClosed m = false := by
              simpa [PubSub.isClosed, hbox] using hclosed
            obtain ⟨i, hi, htx⟩ := hf.owner m hopen
            rw [hcond.count hf hi htx, if_neg fun hsub => hm i ⟨hi, hsub⟩ htx]
            simp

end Runs

/-! ## Two clients -/

/-- Client `0` subscribes to `c`, client `2` too and goes. -/
def subscribeAndLeave : List ClientEvent :=
  [.subscribe 0 [utf8 "c"], .subscribe 2 [utf8 "c"], .publish 1 (utf8 "c") (utf8 "x"), .disconnect 2]

theorem publish_delivers_once_to_first :
    let _ := smallKeys
    let _ := noScripts
    let _ := incrCodec
    ∃ h, run (Hub.step ⟨none, none, none⟩ (Request.plain 0 .ping).readings) (Hub.start Server.fresh)
        subscribeAndLeave = some h ∧
      DeliversOnce ⟨none, none, none⟩ (Request.plain 0 .ping).readings h subscribeAndLeave 1 (utf8 "c")
        (utf8 "m") := by
  intro _ _ _
  refine ⟨_, rfl, (publish_delivers_once_iff _ _ _ subscribeAndLeave _ rfl 1 (utf8 "c") (utf8 "m")).mpr ?_⟩
  intro i hi
  have hne : i ≠ 2 := by
    rintro rfl
    revert hi
    decide
  by_cases h0 : i = 0
  · subst h0
    decide
  · simp [subscribeAndLeave, subscriptions, subscribed, ClientEvent.subscriptions, ClientEvent.subscribed,
      Ne.symm h0, Ne.symm hne]

/-- A client that unsubscribed still gets the message, and is counted. -/
theorem publish_reaches_unsubscribed :
    let _ := smallKeys
    let _ := noScripts
    let _ := incrCodec
    ∃ h, run (Hub.step ⟨none, none, none⟩ (Request.plain 0 .ping).readings) (Hub.start Server.fresh)
        [.subscribe 0 [utf8 "c"], .unsubscribe 0 [utf8 "c"]] = some h ∧
      ¬ DeliversOnce ⟨none, none, none⟩ (Request.plain 0 .ping).readings h
        [.subscribe 0 [utf8 "c"], .unsubscribe 0 [utf8 "c"]] 1 (utf8 "c") (utf8 "m") := by
  intro _ _ _
  refine ⟨_, rfl, ?_⟩
  rintro ⟨-, -, -, hothers⟩
  have hnone : ∀ i, subscribed i (utf8 "c") [.subscribe 0 [utf8 "c"], .unsubscribe 0 [utf8 "c"]] = false := by
    intro i
    by_cases h0 : i = 0
    · subst h0
      decide
    · simp [subscribed, ClientEvent.subscribed, Ne.symm h0]
  have hafter := hothers 0 fun i hi => absurd hi.2 (by rw [hnone i]; decide)
  revert hafter
  decide

end FerricCache
