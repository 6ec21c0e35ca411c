import TweakTool.Wire.Delivery
import Mathlib.Logic.Function.Iterate

/-! # A link that loses datagrams

The transport may lose datagrams, refuse to send them and let the receiver wait in vain. What the
receiver then puts together is still a message that was sent: a running id that it expects means
that nothing was lost since the chunk before, so the chunk either continues the message at hand or
begins another one, and chunk numbers tell which.

The running ids repeat after `2 ^ 32 - 1` datagrams, so fewer than that may be lost in a row. -/

namespace TweakTool.Wire.Rpmsg

open TweakTool.Lib

/-- What becomes of the datagrams `sent`, of which the link has lost `lost` in a row. -/
inductive Lossy : (lost : Nat) → (sent : List Bytes) → (events : List Event) → Prop
  | done {lost : Nat} : Lossy lost [] []
  | lose {lost : Nat} {d : Bytes} {sent : List Bytes} {events : List Event}
      (hlost : lost + 1 < 2 ^ 32 - 1) (h : Lossy (lost + 1) sent events) :
      Lossy lost (d :: sent) events
  | deliver {lost : Nat} {d : Bytes} {sent : List Bytes} {events : List Event}
      (h : Lossy 0 sent events) : Lossy lost (d :: sent) (.datagram d :: events)
  | fail {lost : Nat} {code : ErrorCode} {sent : List Bytes} {events : List Event}
      (hcode : code ≠ .success) (h : Lossy lost sent events) :
      Lossy lost sent (.failure code :: events)

/-- The messages of the calls of `receive_partitioned` that succeeded. -/
def successes (results : List (ErrorCode × Bytes)) : List Bytes :=
  results.filterMap fun (code, message) => if code = .success then some message else none

/-! ## The running id -/

/-- Ids go around without the zero. -/
theorem toNat_incGlobalId (id : UInt32) : (incGlobalId id).toNat = id.toNat % (2 ^ 32 - 1) + 1 := by
  have hid := id.toNat_lt
  have hnext : (id + 1).toNat = (id.toNat + 1) % 2 ^ 32 := by simp [UInt32.toNat_add]
  rw [incGlobalId]
  by_cases hzero : id + 1 = 0
  · rw [hzero] at hnext
    simp only [hzero, ne_eq, not_true_eq_false, if_false]
    replace hnext : 0 = (id.toNat + 1) % 2 ^ 32 := hnext
    show 1 = _
    omega
  · simp only [ne_eq, hzero, not_false_eq_true, if_true]
    have hne : (id + 1).toNat ≠ 0 := by
      intro heq
      exact hzero (UInt32.toNat_inj.mp heq)
    omega

private theorem toNat_iterate_incGlobalId (id : UInt32) (k : Nat) :
    (incGlobalId^[k + 1] id).toNat = (id.toNat + k) % (2 ^ 32 - 1) + 1 := by
  induction k with
  | zero => exact toNat_incGlobalId id
  | succ k ih =>
    rw [Function.iterate_succ_apply', toNat_incGlobalId, ih]
    omega

/-- A receiver that has missed datagrams does not expect the id of the next one. -/
theorem incGlobalId_ne_of_lost {id : UInt32} {lost : Nat} (hpos : 0 < lost)
    (hlost : lost < 2 ^ 32 - 1) : incGlobalId id ≠ incGlobalId (incGlobalId^[lost] id) := by
  intro heq
  rw [← Function.iterate_succ_apply' incGlobalId] at heq
  have hnat := congrArg UInt32.toNat heq
  rw [toNat_incGlobalId, toNat_iterate_incGlobalId] at hnat
  omega

/-! ## What a sender sends -/

/-- The datagrams that a sender is going to send: the chunks of the current message from the next
one on, as far as the transport accepts them, and then those of the following messages. -/
inductive Stream : (last : UInt32) → (current : Option (Bytes × Nat)) →
    (sent messages : List Bytes) → Prop
  | done {last : UInt32} {current : Option (Bytes × Nat)} : Stream last current [] []
  | chunk {last : UInt32} {m d : Bytes} {nChunks i : Nat} {sent messages : List Bytes}
      (h : Chunked m nChunks) (hi : i < nChunks) (hd : IsChunk d m nChunks i (incGlobalId last))
      (hrest : Stream (incGlobalId last) (some (m, i + 1)) sent messages) :
      Stream last (some (m, i)) (d :: sent) messages
  | next {last : UInt32} {current : Option (Bytes × Nat)} {m : Bytes} {sent messages : List Bytes}
      (h : Stream last (some (m, 0)) sent messages) : Stream last current sent (m :: messages)

/-- The messages of which no chunk has been sent. -/
def upcoming : Option (Bytes × Nat) → List Bytes → List Bytes
  | some (m, 0), messages => m :: messages
  | some (_, _ + 1), messages => messages
  | none, messages => messages

theorem sublist_upcoming (current : Option (Bytes × Nat)) (messages : List Bytes) :
    messages.Sublist (upcoming current messages) := by
  unfold upcoming
  split
  · exact List.sublist_cons_self _ _
  · exact List.Sublist.refl _
  · exact List.Sublist.refl _

/-- The next datagram is the next chunk of the current message or the first one of another. -/
theorem Stream.cons_cases {last : UInt32} {current : Option (Bytes × Nat)} {d : Bytes}
    {sent messages : List Bytes} (h : Stream last current (d :: sent) messages) :
    ∃ m nChunks i messages', Chunked m nChunks ∧ i < nChunks ∧
      IsChunk d m nChunks i (incGlobalId last) ∧
      Stream (incGlobalId last) (some (m, i + 1)) sent messages' ∧
      (current = some (m, i) ∨ i = 0) ∧
      (upcoming (some (m, i)) messages').Sublist (upcoming current messages) := by
  generalize hsent : d :: sent = all at h
  induction h with
  | done => cases hsent
  | chunk h hi hd hrest =>
    cases hsent
    exact ⟨_, _, _, _, h, hi, hd, hrest, .inl rfl, List.Sublist.refl _⟩
  | @next last current m' sent' messages' hstream ih =>
    obtain ⟨m, nChunks, i, rest, h, hi, hd, hrest, hcurrent, hsub⟩ := ih hsent
    refine ⟨m, nChunks, i, rest, h, hi, hd, hrest, ?_, hsub.trans (sublist_upcoming current _)⟩
    -- a message that has only begun to be sent is at its first chunk
    rcases hcurrent with hcurrent | hzero
    · cases hcurrent
      exact .inr rfl
    · exact .inr hzero

private theorem sendLoop_succ (transport : Nat → ErrorCode) (message : Bytes) (nChunks todo i : Nat)
    (c : Connection) :
    sendLoop transport message nChunks (todo + 1) i c =
      if transport i = .success then
        let result := sendLoop transport message nChunks todo (i + 1) (afterChunk c message nChunks i)
        (result.1, (fillChunk c message nChunks i).2 :: result.2.1, result.2.2)
      else (transport i, [], (fillChunk c message nChunks i).1) := by
  rw [sendLoop]
  cases transport i <;> rfl

private theorem sendMsgId_fillChunk (c : Connection) (message : Bytes) (nChunks i : Nat) :
    (fillChunk c message nChunks i).1.sendMsgId = c.sendMsgId := by
  rw [fillChunk]

/-- From any chunk on, `send_partitioned` sends a stream, whatever the transport refuses. -/
theorem stream_sendLoop {transport : Nat → ErrorCode} {message : Bytes} {nChunks : Nat}
    (h : Chunked message nChunks) {later messages : List Bytes} :
    ∀ (todo i : Nat) (c : Connection), i + todo = nChunks →
      (∀ current, Stream (sendLoop transport message nChunks todo i c).2.2.sendMsgId current later
        messages) →
      Stream c.sendMsgId (some (message, i))
        ((sendLoop transport message nChunks todo i c).2.1 ++ later) messages := by
  intro todo
  induction todo with
  | zero =>
    intro i c hi hlater
    exact hlater _
  | succ todo ih =>
    intro i c hi hlater
    rw [sendLoop_succ] at hlater ⊢
    by_cases hsent : transport i = .success
    · rw [if_pos hsent] at hlater ⊢
      have hrest := ih (i + 1) (afterChunk c message nChunks i) (by omega) hlater
      have hi : i < nChunks := by omega
      exact .chunk h hi (fillChunk_isChunk h hi) hrest
    -- the rest of the message is not sent
    · rw [if_neg hsent] at hlater ⊢
      dsimp only at hlater
      rw [sendMsgId_fillChunk] at hlater
      exact hlater _

/-- The messages can be sent: none is empty, and none needs too many chunks. -/
def Sendable (m : Bytes) : Prop :=
  1 ≤ m.length ∧ m.length < 2 ^ 32 ∧ chunkCount m.length < uint16Max

instance (m : Bytes) : Decidable (Sendable m) := inferInstanceAs (Decidable (_ ∧ _ ∧ _))

private theorem stream_sendAll {messages : List ((Nat → ErrorCode) × Bytes)}
    (hmessages : ∀ m ∈ messages, Sendable m.2) :
    ∀ (c : Connection) (current : Option (Bytes × Nat)),
      Stream c.sendMsgId current (sendAll c messages).2.1 (messages.map Prod.snd) := by
  induction messages with
  | nil =>
    intro c current
    exact .done
  | cons m messages ih =>
    intro c current
    obtain ⟨transport, m⟩ := m
    obtain ⟨hpos, hmax, hfew⟩ := hmessages (transport, m) List.mem_cons_self
    obtain ⟨hchunked, _⟩ := chunked_of_few hpos hmax hfew
    have hlater := ih fun m hm => hmessages m (List.mem_cons_of_mem _ hm)
    have hsend : sendPartitioned transport c m =
        sendLoop transport m (chunkCount m.length) (chunkCount m.length) 0 c := by
      rw [sendPartitioned, if_neg (Nat.not_le.mpr hfew)]
    rw [sendAll_cons, hsend]
    exact .next (stream_sendLoop hchunked _ 0 c (Nat.zero_add _) (hlater _))

/-! ## What a receiver makes of it -/

variable {len : Nat}

/-- The receiver is `lost` datagrams behind the sender, who is at `current` and has `messages` left,
and `events` are ahead of it. -/
structure Behind (r : Connection) (lost : Nat) (current : Option (Bytes × Nat)) (sent : List Bytes)
    (messages : List Bytes) (last : UInt32) : Prop where
  stream : Stream last current sent messages
  few : lost < 2 ^ 32 - 1
  follows : r.recvMsgId = 0 ∨ incGlobalId^[lost] r.recvMsgId = last

/-- What a call of `receive_partitioned` can still make of the chunks it has: nothing if it has none
or has missed a datagram, and the current message otherwise. -/
inductive Expects (r : Connection) (p : Partial len) (lost : Nat)
    (current : Option (Bytes × Nat)) : (live : List Bytes) → Prop
  | idle (hprev : p.nPrevChunk = 0) (hreceived : p.bytesReceived = 0) : Expects r p lost current []
  | stale (hlost : 0 < lost) (hr : r.recvMsgId ≠ 0) : Expects r p lost current []
  | live {m : Bytes} {i : Nat} (hlost : lost = 0) (hr : r.recvMsgId ≠ 0)
      (hcurrent : current = some (m, i)) (hi : 0 < i) (hp : Assembled p m i) :
      Expects r p lost current [m]

namespace Expects

variable {r : Connection} {p : Partial len} {lost : Nat} {current : Option (Bytes × Nat)}
  {live messages : List Bytes} {last : UInt32} {m : Bytes} {i : Nat}

/-- A chunk with an id and a number that the call expects continues what it has. -/
theorem assembled (h : Expects r p lost current live) (hfew : lost < 2 ^ 32 - 1)
    (hfollows : r.recvMsgId = 0 ∨ incGlobalId^[lost] r.recvMsgId = last)
    (hcurrent : current = some (m, i) ∨ i = 0)
    (hexpected : r.recvMsgId = 0 ∨ incGlobalId r.recvMsgId = incGlobalId last)
    (hnumber : p.nPrevChunk = i) :
    Assembled p m i ∧ (live = [] ∧ i = 0 ∨ live = [m] ∧ 0 < i) := by
  cases h with
  | idle hprev hreceived =>
    have hi : i = 0 := hnumber.symm.trans hprev
    subst hi
    refine ⟨⟨hprev, ?_, ?_⟩, .inl ⟨rfl, rfl⟩⟩
    · rw [hreceived, Nat.zero_mul, Nat.min_zero]
    · rw [hreceived, List.take_zero, List.take_zero]
  | stale hlost hr =>
    -- the id of the chunk is ahead of what the call expects
    have hlast := hfollows.resolve_left hr
    rw [← hlast] at hexpected
    exact absurd (hexpected.resolve_left hr) (incGlobalId_ne_of_lost hlost hfew)
  | @live m' i' hlost hr hcurrent' hi hp =>
    have hii : i' = i := hp.nPrevChunk.symm.trans hnumber
    subst hii
    have hm : current = some (m, i') := hcurrent.resolve_right (Nat.ne_of_gt hi)
    rw [hcurrent', Option.some.injEq, Prod.mk.injEq] at hm
    rw [← hm.1]
    exact ⟨hp, .inr ⟨rfl, hi⟩⟩

/-- After a loss the call can do nothing with what it has. -/
theorem lose (h : Expects r p lost current live) (current' : Option (Bytes × Nat)) :
    Expects r p (lost + 1) current' [] := by
  cases h with
  | idle hprev hreceived => exact .idle hprev hreceived
  | stale _ hr => exact .stale (Nat.succ_pos _) hr
  | live _ hr _ _ _ => exact .stale (Nat.succ_pos _) hr

end Expects

/-- What a call of `receive_partitioned` returns if it succeeds, and nothing otherwise. -/
def Received.successes (received : Received len) : List Bytes :=
  if received.code = .success then [received.message] else []

/-- One call: what it returns and what can be returned after it could be returned before. -/
theorem receiveLoop_lossy {lost : Nat} {sent : List Bytes} {events : List Event}
    (hlossy : Lossy lost sent events) :
    ∀ {r : Connection} {p : Partial len} {current : Option (Bytes × Nat)} {messages live : List Bytes}
      {last : UInt32} {received : Received len},
      Behind r lost current sent messages last → Expects r p lost current live →
      receiveLoop r p events = some received →
      ∃ lost' current' sent' messages' last', Lossy lost' sent' received.rest ∧
        Behind received.connection lost' current' sent' messages' last' ∧
        (received.successes ++ upcoming current' messages').Sublist
          (live ++ upcoming current messages) := by
  induction hlossy with
  | done =>
    intro r p current messages live last received hbehind hexpects hreceived
    cases hreceived
  | @fail lost code sent events hcode hlossy ih =>
    intro r p current messages live last received hbehind hexpects hreceived
    cases hreceived
    refine ⟨lost, current, sent, messages, last, hlossy, hbehind, ?_⟩
    rw [Received.successes, if_neg hcode]
    exact List.sublist_append_right _ _
  | @lose lost d sent events hlost hlossy ih => -- the receiver falls further behind
    intro r p current messages live last received hbehind hexpects hreceived
    obtain ⟨m, nChunks, i, messages', _, _, _, hrest, _, hsub⟩ := hbehind.stream.cons_cases
    have hbehind' : Behind r (lost + 1) (some (m, i + 1)) sent messages' (incGlobalId last) := by
      refine ⟨hrest, hlost, hbehind.follows.imp_right ?_⟩
      intro hlast
      rw [Function.iterate_succ_apply', hlast]
    obtain ⟨lost', current', sent', rest', last', hlossy', hbehind'', hsub'⟩ :=
      ih hbehind' (hexpects.lose _) hreceived
    refine ⟨lost', current', sent', rest', last', hlossy', hbehind'', ?_⟩
    calc received.successes ++ upcoming current' rest'
      List.Sublist _ (messages') := hsub'
      List.Sublist _ (upcoming (some (m, i)) messages') := sublist_upcoming _ _
      List.Sublist _ (upcoming current messages) := hsub
      List.Sublist _ (live ++ upcoming current messages) := List.sublist_append_right _ _
  | @deliver lost d sent events hlossy ih =>
    intro r p current messages live last received hbehind hexpects hreceived
    obtain ⟨m, nChunks, i, messages', hchunked, hi, hd, hrest, hcurrent, hsub⟩ :=
      hbehind.stream.cons_cases
    have hp := fun hexpected hnumber =>
      hexpects.assembled hbehind.few hbehind.follows hcurrent hexpected hnumber
    obtain ⟨r', p', hid, hassembled, hreceive⟩ := receiveChunk_eq (r := r) hd hchunked hi
      (fun hexpected hnumber => (hp hexpected hnumber).1)
    have hbehind' : Behind r' 0 (some (m, i + 1)) sent messages' (incGlobalId last) :=
      ⟨hrest, by omega, .inr hid⟩
    rw [receiveLoop, hreceive] at hreceived
    -- the chunk is the next one of the message, or not
    by_cases htakes : Takes r p m i (incGlobalId last)
    · rw [if_pos htakes] at hreceived
      have hp' := hassembled htakes
      have hwhole : (m :: messages').Sublist (live ++ upcoming current messages) := by
        rcases (hp htakes.1 htakes.2.1).2 with ⟨rfl, rfl⟩ | ⟨rfl, _⟩
        · exact hsub
        · exact List.Sublist.cons_cons m ((sublist_upcoming _ _).trans hsub)
      by_cases hlast : i + 1 = nChunks -- the message is complete
      · rw [if_pos hlast] at hreceived
        cases hreceived
        subst hlast
        refine ⟨0, some (m, i + 1), sent, messages', _, hlossy, hbehind', ?_⟩
        rw [Received.successes, if_pos rfl, hp'.message_eq hchunked]
        exact hwhole
      · rw [if_neg hlast] at hreceived
        have hr' : r'.recvMsgId ≠ 0 := by
          rw [hid]
          exact incGlobalId_ne_zero last
        obtain ⟨lost', current', sent', rest', last', hlossy', hbehind'', hsub'⟩ :=
          ih hbehind' (.live rfl hr' rfl (Nat.succ_pos i) hp') hreceived
        exact ⟨lost', current', sent', rest', last', hlossy', hbehind'', hsub'.trans hwhole⟩
    · rw [if_neg htakes] at hreceived -- the call fails, and begins with the next message
      cases hreceived
      refine ⟨0, some (m, i + 1), sent, messages', _, hlossy, hbehind', ?_⟩
      calc messages'
        List.Sublist _ (upcoming (some (m, i)) messages') := sublist_upcoming _ _
        List.Sublist _ (upcoming current messages) := hsub
        List.Sublist _ (live ++ upcoming current messages) := List.sublist_append_right _ _

private theorem successes_cons (received : Received len) (results : List (ErrorCode × Bytes)) :
    successes ((received.code, received.message) :: results) =
      received.successes ++ successes results := by
  rw [successes, List.filterMap_cons, Received.successes]
  by_cases hcode : received.code = .success
  · simp only [hcode, if_true]
    rfl
  · simp only [hcode, if_false]
    rfl

/-- Successive calls return messages that could be returned before the first of them. -/
theorem receiveAll_lossy : ∀ (calls : Nat) {r : Connection} {buffer : Block len} {lost : Nat}
    {sent : List Bytes} {events rest : List Event} {current : Option (Bytes × Nat)}
    {messages : List Bytes} {last : UInt32} {results : List (ErrorCode × Bytes)},
    Lossy lost sent events → Behind r lost current sent messages last →
    receiveAll r buffer calls events = some (results, rest) →
    (successes results).Sublist (upcoming current messages) := by
  intro calls
  induction calls with
  | zero =>
    intro r buffer lost sent events rest current messages last results _ _ hreceive
    cases hreceive
    exact List.nil_sublist _
  | succ calls ih =>
    intro r buffer lost sent events rest current messages last results hlossy hbehind hreceive
    rw [receiveAll] at hreceive
    split at hreceive
    · cases hreceive
    · next received hreceived =>
        obtain ⟨⟨results', rest'⟩, hlater, heq⟩ := Option.map_eq_some_iff.mp hreceive
        cases heq
        obtain ⟨lost', current', sent', messages', last', hlossy', hbehind', hsub⟩ :=
          receiveLoop_lossy hlossy hbehind (.idle rfl rfl) hreceived
        rw [successes_cons]
        exact ((ih hlossy' hbehind' hlater).append_left _).trans hsub

/-- **Nothing is mixed or invented**: whatever the transport refuses, loses and times out, the
messages that successful calls of `receive_partitioned` return are among those that were passed to
`send_partitioned`, in the same order and byte for byte. -/
theorem receivePartitioned_subsequence (s r : Connection) (buffer : Block len)
    (messages : List ((Nat → ErrorCode) × Bytes)) (events rest : List Event) (calls : Nat)
    (results : List (ErrorCode × Bytes)) (hr : r.recvMsgId = 0)
    (hmessages : ∀ m ∈ messages, Sendable m.2) (hlossy : Lossy 0 (sendAll s messages).2.1 events)
    (hreceive : receiveAll r buffer calls events = some (results, rest)) :
    (successes results).Sublist (messages.map Prod.snd) := by
  have hbehind : Behind r 0 none (sendAll s messages).2.1 (messages.map Prod.snd) s.sendMsgId :=
    ⟨stream_sendAll hmessages s none, by omega, .inl hr⟩
  exact receiveAll_lossy calls hlossy hbehind hreceive

/-- Five messages, the second of which is refused by the transport. -/
def troubled : List ((Nat → ErrorCode) × Bytes) :=
  [(reliable, [7]), (fun _ => .error, [5]), (reliable, [8, 9]), (reliable, [6]), (reliable, [4])]

/-- The first datagram arrives, then there is a timeout, and the next datagram is lost. -/
def troubledEvents : List Event :=
  match (sendAll (connectionAt 0) troubled).2.1 with
  | first :: _ :: rest => .datagram first :: .failure .timeout :: rest.map .datagram
  | _ => []

/-- The message after the lost one is not taken, since its id is not the one that is expected. -/
theorem receivePartitioned_subsequence_troubled :
    (receiveAll (connectionAt 0) (.zero 16) 4 troubledEvents).map Prod.fst =
        some [(.success, [7]), (.timeout, []), (.error, []), (.success, [4])] ∧
      (successes [(.success, [7]), (.timeout, []), (.error, []), (.success, [4])]).Sublist
        (troubled.map Prod.snd) := by
  have hlossy : Lossy 0 (sendAll (connectionAt 0) troubled).2.1 troubledEvents :=
    .deliver (.fail (by decide) (.lose (by decide) (.deliver (.deliver .done))))
  have hresults : (receiveAll (connectionAt 0) (.zero 16) 4 troubledEvents).map Prod.fst =
      some [(.success, [7]), (.timeout, []), (.error, []), (.success, [4])] := by decide +kernel
  obtain ⟨⟨results, rest⟩, hreceive, heq⟩ := Option.map_eq_some_iff.mp hresults
  refine ⟨hresults, ?_⟩
  rw [← heq]
  exact receivePartitioned_subsequence (connectionAt 0) (connectionAt 0) (.zero 16) troubled
    troubledEvents rest 4 results rfl (by decide) hlossy hreceive

end TweakTool.Wire.Rpmsg
