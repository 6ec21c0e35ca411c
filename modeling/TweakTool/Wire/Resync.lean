import TweakTool.Wire.Lossy

/-! # Finding the thread again

After a loss the receiver is out of step, and it notices when the next datagram arrives: that one
has an id ahead of what is expected. The call returns an error and the receiver follows the new id
from there on. But the datagram is gone, and if it was the first one of a message then the rest of
that message is of no use, although nothing of it was lost on the way. -/

namespace TweakTool.Wire.Rpmsg

open TweakTool.Lib

/-! ## What arrives -/

/-- The datagrams that arrive, of those that are sent. -/
def kept : (arrives : List Bool) → (sent : List Bytes) → List Bytes
  | true :: arrives, d :: sent => d :: kept arrives sent
  | false :: arrives, _ :: sent => kept arrives sent
  | _, _ => []

/-- Fewer than `2 ^ 32 - 1` datagrams are lost in a row, of which `lost` have been lost already. -/
def FewLost : (lost : Nat) → (arrives : List Bool) → Prop
  | _, [] => True
  | _, true :: arrives => FewLost 0 arrives
  | lost, false :: arrives => lost + 1 < 2 ^ 32 - 1 ∧ FewLost (lost + 1) arrives

/-- A message to be sent, with what becomes of each of its datagrams. -/
abbrev Plan := List (Bytes × List Bool)

namespace Plan

/-- The messages all of whose datagrams arrive. -/
def intact : Plan → List Bytes
  | [] => []
  | (m, arrives) :: plan => if arrives.all id then m :: intact plan else intact plan

def arrives (plan : Plan) : List Bool := plan.flatMap Prod.snd

/-- The datagrams of the messages that arrive, from a sender whose transport accepts everything. -/
def arriving (s : Connection) (plan : Plan) : List Bytes :=
  kept plan.arrives (sendAll s (plan.map fun (m, _) => (reliable, m))).2.1

end Plan

/-- How the receiver stands to the sender: it has heard nothing yet, it has heard the last datagram
that was sent, or it has missed that one. -/
inductive Link where
  | fresh | level | behind
  deriving DecidableEq

namespace Link

/-- Who has heard nothing misses nothing. -/
def next : Link → (arrives : Bool) → Link
  | _, true => level
  | fresh, false => fresh
  | level, false | behind, false => behind

def after (link : Link) (arrives : List Bool) : Link := arrives.foldl next link

end Link

/-- No message that arrives as a whole comes directly after a datagram that has been missed. -/
def Resynced : Link → Plan → Prop
  | _, [] => True
  | link, (_, arrives) :: plan =>
    (arrives.all id = true → link ≠ .behind) ∧ Resynced (link.after arrives) plan

/-- The messages that come through. -/
def throughput : Link → Plan → List Bytes
  | _, [] => []
  | link, (m, arrives) :: plan =>
    (if arrives.all id = true ∧ link ≠ .behind then [m] else []) ++
      throughput (link.after arrives) plan

/-- What comes through has arrived as a whole. -/
theorem throughput_sublist (plan : Plan) :
    ∀ link, (throughput link plan).Sublist plan.intact := by
  induction plan with
  | nil => exact fun _ => List.Sublist.slnil
  | cons entry plan ih =>
    intro link
    obtain ⟨m, arrives⟩ := entry
    have hrest := ih (link.after arrives)
    rw [throughput, Plan.intact]
    by_cases hall : arrives.all id = true
    · rw [if_pos hall]
      by_cases hlink : link = .behind
      · rw [if_neg (fun h => h.2 hlink)]
        exact hrest.cons m
      · rw [if_pos ⟨hall, hlink⟩]
        exact hrest.cons_cons m
    · rw [if_neg hall, if_neg (fun h => hall h.1)]
      exact hrest

/-- All of it comes through exactly if none comes directly after a loss. -/
theorem throughput_eq_iff (plan : Plan) :
    ∀ link, throughput link plan = plan.intact ↔ Resynced link plan := by
  induction plan with
  | nil => exact fun _ => iff_of_true rfl trivial
  | cons entry plan ih =>
    intro link
    obtain ⟨m, arrives⟩ := entry
    rw [throughput, Plan.intact, Resynced, ← ih]
    by_cases hall : arrives.all id = true
    · rw [if_pos hall]
      by_cases hlink : link = .behind
      · -- The message is missing, and nothing can make up for it.
        refine iff_of_false ?_ (fun h => h.1 hall hlink)
        rw [if_neg (fun h => h.2 hlink), List.nil_append]
        intro heq
        have hlength := (throughput_sublist plan (link.after arrives)).length_le
        rw [heq, List.length_cons] at hlength
        omega
      · rw [if_pos ⟨hall, hlink⟩, List.singleton_append, List.cons_inj_right]
        exact (and_iff_right fun _ => hlink).symm
    · rw [if_neg hall, if_neg (fun h => hall h.1), List.nil_append]
      exact (and_iff_right fun h => absurd h hall).symm

/-- All messages that arrive as a whole come through exactly if none of them is preceded by a
loss. -/
theorem intact_sublist_iff (link : Link) (plan : Plan) :
    plan.intact.Sublist (throughput link plan) ↔ Resynced link plan := by
  rw [← throughput_eq_iff]
  constructor
  · intro h
    exact (throughput_sublist plan link).antisymm h
  · intro h
    rw [h]

/-! ## The receiving thread -/

variable {len : Nat}

/-- `calls` rounds of `tweak_wire_rpmsg_receive_thread`, as far as they do not wait for more: the
messages that successful calls of `receive_partitioned` return. -/
def receiveThread (c : Connection) (buffer : Block len) : (calls : Nat) → List Event → List Bytes
  | 0, _ => []
  | calls + 1, events =>
    match receivePartitioned c buffer events with
    | none => []
    | some received =>
      received.successes ++ receiveThread received.connection received.buffer calls received.rest

/-- A call under way and the calls after it, one datagram at a time. -/
def deliveries (c : Connection) (p : Partial len) : List Bytes → List Bytes
  | [] => []
  | d :: datagrams =>
    match receiveChunk c p d with
    | (c, .fail) => deliveries c ⟨p.buffer, 0, 0⟩ datagrams
    | (c, .more p) => deliveries c p datagrams
    | (c, .last p) =>
      p.buffer.val.take p.bytesReceived :: deliveries c ⟨p.buffer, 0, 0⟩ datagrams

/-- A call that is under way, and `calls` more. -/
theorem deliveries_eq (datagrams : List Bytes) :
    ∀ (c : Connection) (p : Partial len) (calls : Nat), datagrams.length ≤ calls + 1 →
      (match receiveLoop c p (datagrams.map .datagram) with
        | none => []
        | some received => received.successes ++
          receiveThread received.connection received.buffer calls received.rest) =
        deliveries c p datagrams := by
  induction datagrams with
  | nil => intro c p calls _; rfl
  | cons d datagrams ih =>
    intro c p calls hcalls
    -- A call that is over is followed by another one.
    have hnext : ∀ (c : Connection) (buffer : Block len),
        receiveThread c buffer calls (datagrams.map .datagram) =
          deliveries c ⟨buffer, 0, 0⟩ datagrams := by
      intro c buffer
      rw [List.length_cons] at hcalls
      cases calls with
      | zero =>
        obtain rfl : datagrams = [] := List.length_eq_zero_iff.mp (by omega)
        rfl
      | succ calls => exact ih c ⟨buffer, 0, 0⟩ calls (by omega)
    rw [List.map_cons, receiveLoop, deliveries]
    rcases receiveChunk c p d with ⟨c, result⟩
    cases result with
    | fail =>
      simp only [Received.successes, hnext]
      rfl
    | more p => exact ih c p calls (by rw [List.length_cons] at hcalls; omega)
    | last p =>
      simp only [Received.successes, hnext]
      rfl

/-- Enough calls take all datagrams. -/
theorem receiveThread_eq (c : Connection) (buffer : Block len) {datagrams : List Bytes}
    {calls : Nat} (hcalls : datagrams.length ≤ calls) :
    receiveThread c buffer calls (datagrams.map .datagram) =
      deliveries c ⟨buffer, 0, 0⟩ datagrams := by
  cases calls with
  | zero =>
    obtain rfl : datagrams = [] := List.length_eq_zero_iff.mp (by omega)
    rfl
  | succ calls => exact deliveries_eq datagrams c ⟨buffer, 0, 0⟩ calls hcalls

/-! ## One datagram -/

/-- The receiver, which has missed the last `lost` datagrams, stands to a sender whose last id was
`last` as the link says. -/
inductive Hears (r : Connection) (last : UInt32) : (link : Link) → (lost : Nat) → Prop
  | fresh {lost : Nat} (hr : r.recvMsgId = 0) : Hears r last .fresh lost
  | level (hr : r.recvMsgId = last) (hne : last ≠ 0) : Hears r last .level 0
  | behind {lost : Nat} (hpos : 0 < lost) (hfew : lost < 2 ^ 32 - 1) (hr : r.recvMsgId ≠ 0)
      (hlast : incGlobalId^[lost] r.recvMsgId = last) : Hears r last .behind lost

/-- The call has nothing yet. -/
def Idle (p : Partial len) : Prop := p.nPrevChunk = 0 ∧ p.bytesReceived = 0

/-- Before chunk `i` of the message: either the call has all chunks before it and is in step with
the sender, or the message is spoiled. A spoiled message spoils no other one, since the call is over
as soon as the receiver is in step again. -/
inductive Progress (p : Partial len) (m : Bytes) (i : Nat) : (link : Link) → (good : Bool) → Prop
  | good {link : Link} (hlink : link ≠ .behind) (hfresh : link = .fresh → i = 0)
      (hp : Assembled p m i) : Progress p m i link true
  | missed : Progress p m i .behind false
  | spoiled {link : Link} (hlink : link ≠ .behind) (hi : 0 < i) (hp : Idle p) :
      Progress p m i link false

section Datagram

variable {r : Connection} {p : Partial len} {m : Bytes} {i nChunks lost : Nat} {last : UInt32}
  {link : Link} {good : Bool}

private theorem Hears.lose (h : Hears r last link lost) (hlost : lost + 1 < 2 ^ 32 - 1) :
    Hears r (incGlobalId last) (link.next false) (lost + 1) := by
  cases h with
  | fresh hr => exact .fresh hr
  | level hr hne =>
    refine .behind (Nat.succ_pos _) hlost (hr ▸ hne) ?_
    rw [hr]
    rfl
  | behind hpos hfew hr hlast =>
    refine .behind (Nat.succ_pos _) hlost hr ?_
    rw [Function.iterate_succ_apply', hlast]

/-- The id of the next datagram is expected unless one was missed. -/
theorem Hears.expects_iff (h : Hears r last link lost) :
    (r.recvMsgId = 0 ∨ incGlobalId r.recvMsgId = incGlobalId last) ↔ link ≠ .behind := by
  cases h with
  | fresh hr => exact iff_of_true (.inl hr) nofun
  | level hr _ => exact iff_of_true (.inr (congrArg incGlobalId hr)) nofun
  | behind hpos hfew hr hlast =>
    refine iff_of_false ?_ (fun h => h rfl)
    rintro (hzero | hexpected)
    · exact hr hzero
    · rw [← hlast] at hexpected
      exact incGlobalId_ne_of_lost hpos hfew hexpected

private theorem Progress.lose (h : Progress p m i link good) :
    Progress p m (i + 1) (link.next false) false := by
  cases h with
  | good hlink hfresh hp =>
    cases link with
    | fresh =>
      -- nothing has been heard, so nothing has been put together
      obtain rfl := hfresh rfl
      refine .spoiled nofun (Nat.succ_pos _) ⟨hp.nPrevChunk, ?_⟩
      rw [hp.bytesReceived, Nat.zero_mul, Nat.min_zero]
    | level => exact .missed
    | behind => exact absurd rfl hlink
  | missed => exact .missed
  | spoiled hlink hi hp =>
    cases link with
    | fresh => exact .spoiled nofun (Nat.succ_pos _) hp
    | level => exact .missed
    | behind => exact absurd rfl hlink

/-- A chunk that arrives is taken if the message is good so far. -/
theorem Progress.takes_iff (h : Progress p m i link good) (hears : Hears r last link lost)
    (hroom : i * maxChunkPayloadSize + payloadSize m i ≤ len) :
    Takes r p m i (incGlobalId last) ↔ good = true := by
  rw [Takes, hears.expects_iff]
  cases h with
  | good hlink hfresh hp => exact iff_of_true ⟨hlink, hp.nPrevChunk, hroom⟩ rfl
  | missed => exact iff_of_false (fun h => h.1 rfl) (by decide)
  | spoiled hlink hi hp =>
    refine iff_of_false ?_ (by decide)
    rintro ⟨-, hnumber, -⟩
    rw [hp.1] at hnumber
    omega

/-- A chunk that is expected, by its id and its number, continues what the call has. -/
theorem Progress.assembled (h : Progress p m i link good) (hears : Hears r last link lost)
    (hexpected : r.recvMsgId = 0 ∨ incGlobalId r.recvMsgId = incGlobalId last)
    (hnumber : p.nPrevChunk = i) : Assembled p m i := by
  cases h with
  | good _ _ hp => exact hp
  | missed => exact absurd rfl (hears.expects_iff.mp hexpected)
  | spoiled hlink hi hp =>
    rw [hp.1] at hnumber
    omega

end Datagram

/-! ## One message -/

/-- Between messages: a call is under way only if the receiver has missed something. -/
def Between (p : Partial len) (link : Link) : Prop := link ≠ .behind → Idle p

variable {p : Partial len} {link : Link}

private theorem Between.progress (h : Between p link) (m : Bytes) :
    Progress p m 0 link (decide (link ≠ .behind)) := by
  by_cases hlink : link = .behind
  · rw [decide_eq_false (not_not_intro hlink), hlink]
    exact .missed
  · rw [decide_eq_true hlink]
    obtain ⟨hprev, hreceived⟩ := h hlink
    refine .good hlink (fun _ => rfl) ⟨hprev, ?_, ?_⟩
    · rw [hreceived, Nat.zero_mul, Nat.min_zero]
    · rw [hreceived, List.take_zero, List.take_zero]

variable {m : Bytes}

private theorem Progress.between {i : Nat} (h : Progress p m i link false) : Between p link := by
  cases h with
  | missed => exact fun hlink => absurd rfl hlink
  | spoiled _ _ hp => exact fun _ => hp

/-- Before chunk `i` of the message, or after its last one. -/
def Stage (p : Partial len) (m : Bytes) (nChunks i : Nat) (link : Link) (good : Bool) : Prop :=
  if i = nChunks then Between p link else Progress p m i link good

/-- A chunk that arrives. The message is complete if this was the last chunk of a good one. -/
theorem deliveries_chunk {r : Connection} {d : Bytes} {nChunks i lost : Nat} {last : UInt32}
    {good : Bool} (hd : IsChunk d m nChunks i (incGlobalId last)) (h : Chunked m nChunks)
    (hi : i < nChunks) (hfits : m.length ≤ len) (hears : Hears r last link lost)
    (hprogress : Progress p m i link good) :
    ∃ (r' : Connection) (p' : Partial len), Hears r' (incGlobalId last) .level 0 ∧
      Stage p' m nChunks (i + 1) .level good ∧
      ∀ rest, deliveries r p (d :: rest) =
        (if good = true ∧ i + 1 = nChunks then [m] else []) ++ deliveries r' p' rest := by
  have hroom := Nat.le_trans (h.start_lt hi).1 hfits
  obtain ⟨r', p', hid, hassembled, hreceive⟩ :=
    receiveChunk_eq (r := r) hd h hi (hprogress.assembled hears)
  have hlevel : Hears r' (incGlobalId last) .level 0 := .level hid (incGlobalId_ne_zero last)
  have htakes := hprogress.takes_iff hears hroom
  cases good with
  | false => -- the message is spoiled, and the call fails
    rw [if_neg (mt htakes.mp nofun)] at hreceive
    refine ⟨r', ⟨p.buffer, 0, 0⟩, hlevel, ?_, ?_⟩
    · rw [Stage]
      split
      · exact fun _ => ⟨rfl, rfl⟩
      · exact .spoiled nofun (Nat.succ_pos i) ⟨rfl, rfl⟩
    · intro rest
      rw [deliveries, hreceive]
      rfl
  | true =>
    have htaken := htakes.mpr rfl
    rw [if_pos htaken] at hreceive
    have hp' := hassembled htaken
    by_cases hlast : i + 1 = nChunks -- the last chunk of the message
    · rw [if_pos hlast] at hreceive
      refine ⟨r', ⟨p'.buffer, 0, 0⟩, hlevel, ?_, ?_⟩
      · rw [Stage, if_pos hlast]
        exact fun _ => ⟨rfl, rfl⟩
      · intro rest
        rw [hlast] at hp'
        rw [deliveries, hreceive, if_pos ⟨rfl, hlast⟩]
        exact congrArg (· :: deliveries r' ⟨p'.buffer, 0, 0⟩ rest) (hp'.message_eq h)
    · rw [if_neg hlast] at hreceive
      refine ⟨r', p', hlevel, ?_, ?_⟩
      · rw [Stage, if_neg hlast]
        exact .good nofun nofun hp'
      · intro rest
        rw [deliveries, hreceive, if_neg (fun hboth => hlast hboth.2)]
        rfl

/-- From any chunk on: what arrives of the message completes it or not, and then the receiver is
between messages. -/
theorem deliveries_sendLoop {nChunks : Nat} (h : Chunked m nChunks) (hfits : m.length ≤ len)
    {later : List Bool} :
    ∀ (arrives : List Bool) {i lost : Nat} {s r : Connection} {p : Partial len} {link : Link}
      {good : Bool}, i + arrives.length = nChunks → FewLost lost (arrives ++ later) →
      Hears r s.sendMsgId link lost → Stage p m nChunks i link good →
      ∃ (r' : Connection) (p' : Partial len) (lost' : Nat),
        Hears r' (sendLoop reliable m nChunks arrives.length i s).2.2.sendMsgId
          (link.after arrives) lost' ∧
        Between p' (link.after arrives) ∧ FewLost lost' later ∧
        ∀ rest, deliveries r p
            (kept arrives (sendLoop reliable m nChunks arrives.length i s).2.1 ++ rest) =
          (if good = true ∧ arrives.all id = true ∧ i < nChunks then [m] else []) ++
            deliveries r' p' rest := by
  intro arrives
  induction arrives with
  | nil =>
    intro i lost s r p link good hi hfew hears hstage
    rw [List.length_nil, Nat.add_zero] at hi
    rw [Stage, if_pos hi] at hstage
    refine ⟨r, p, lost, hears, hstage, hfew, fun rest => ?_⟩
    rw [if_neg (by rintro ⟨-, -, hlt⟩; omega)]
    rfl
  | cons arrived arrives ih =>
    intro i lost s r p link good hi hfew hears hstage
    rw [List.length_cons] at hi
    have hlt : i < nChunks := by omega
    rw [Stage, if_neg (Nat.ne_of_lt hlt)] at hstage
    rw [List.length_cons, sendLoop_reliable_succ]
    have hd : IsChunk _ m nChunks i _ := fillChunk_isChunk (c := s) h hlt
    cases arrived with
    | false =>
      have hnext : Stage p m nChunks (i + 1) (link.next false) false := by
        rw [Stage]
        split
        · exact hstage.lose.between
        · exact hstage.lose
      obtain ⟨r', p', lost', hears', hbetween, hfew', hrest⟩ := ih
        (s := afterChunk s m nChunks i) (by omega) hfew.2 (hears.lose hfew.1) hnext
      refine ⟨r', p', lost', hears', hbetween, hfew', fun rest => ?_⟩
      rw [if_neg (by rintro ⟨-, ⟨⟩, -⟩)]
      exact (hrest rest).trans (by rw [if_neg (by rintro ⟨⟨⟩, -⟩)])
    | true =>
      obtain ⟨r₁, p₁, hears₁, hnext, hchunk⟩ := deliveries_chunk hd h hlt hfits hears hstage
      obtain ⟨r', p', lost', hears', hbetween, hfew', hrest⟩ := ih
        (s := afterChunk s m nChunks i) (by omega) hfew hears₁ hnext
      refine ⟨r', p', lost', hears', hbetween, hfew', fun rest => ?_⟩
      refine ((hchunk _).trans (congrArg _ (hrest rest))).trans ?_
      rw [← List.append_assoc]
      congr 1
      -- the message comes with its last chunk
      by_cases hlast : i + 1 = nChunks
      · obtain rfl : arrives = [] := List.length_eq_zero_iff.mp (by omega)
        simp [hlast, hlt]
      · have hmore : i + 1 < nChunks := by omega
        simp [hlast, hlt, hmore]

/-! ## All messages -/

private theorem kept_append {arrives arrives' : List Bool} {sent sent' : List Bytes}
    (h : arrives.length = sent.length) :
    kept (arrives ++ arrives') (sent ++ sent') = kept arrives sent ++ kept arrives' sent' := by
  induction arrives generalizing sent with
  | nil =>
    obtain rfl : sent = [] := List.length_eq_zero_iff.mp h.symm
    rfl
  | cons arrived arrives ih =>
    cases sent with
    | nil => cases h
    | cons d sent =>
      have hrest := ih (Nat.succ.inj h)
      cases arrived with
      | true => exact congrArg (d :: ·) hrest
      | false => exact hrest

private theorem length_sendLoop (m : Bytes) (nChunks : Nat) :
    ∀ (todo i : Nat) (s : Connection), (sendLoop reliable m nChunks todo i s).2.1.length = todo := by
  intro todo
  induction todo with
  | zero => exact fun _ _ => rfl
  | succ todo ih =>
    intro i s
    rw [sendLoop_reliable_succ]
    exact congrArg (· + 1) (ih (i + 1) (afterChunk s m nChunks i))

/-- The messages can be sent and received, and the plan says of each of their datagrams whether it
arrives. -/
def Plan.Valid (plan : Plan) : Prop :=
  ∀ entry ∈ plan, 1 ≤ entry.1.length ∧ entry.1.length ≤ maxPacketSize ∧
    entry.2.length = chunkCount entry.1.length

instance (plan : Plan) : Decidable plan.Valid :=
  inferInstanceAs (Decidable (∀ entry ∈ plan, _))

/-- The receiver delivers what comes through on the link. -/
theorem deliveries_arriving (plan : Plan) :
    ∀ {lost : Nat} {s r : Connection} {p : Partial maxPacketSize} {link : Link}, plan.Valid →
      FewLost lost plan.arrives → Hears r s.sendMsgId link lost → Between p link →
      deliveries r p (plan.arriving s) = throughput link plan := by
  induction plan with
  | nil => intros; rfl
  | cons entry plan ih =>
    intro lost s r p link hvalid hfew hears hbetween
    obtain ⟨m, arrives⟩ := entry
    obtain ⟨⟨hpos, hmax, hlength⟩, hvalid⟩ := List.forall_mem_cons.mp hvalid
    dsimp only at hpos hmax hlength
    obtain ⟨hchunked, hcount⟩ := chunked_chunkCount hpos hmax
    have hchunks := hchunked.few
    have hsend : sendPartitioned reliable s m =
        sendLoop reliable m (chunkCount m.length) arrives.length 0 s := by
      rw [sendPartitioned, if_neg (by omega), hlength]
    -- who is behind misses this message
    have hstage : Stage p m (chunkCount m.length) 0 link (decide (link ≠ .behind)) := by
      rw [Stage, if_neg (by omega)]
      exact hbetween.progress m
    have hfew : FewLost lost (arrives ++ Plan.arrives plan) := hfew
    obtain ⟨r', p', lost', hears', hbetween', hfew', hmessage⟩ :=
      deliveries_sendLoop hchunked hmax arrives (by omega) hfew hears hstage
    rw [← hsend] at hears' hmessage
    have hrest := ih hvalid hfew' hears' hbetween'
    have hsplit : Plan.arriving s ((m, arrives) :: plan) =
        kept arrives (sendPartitioned reliable s m).2.1 ++
          Plan.arriving (sendPartitioned reliable s m).2.2 plan := by
      rw [Plan.arriving, List.map_cons, sendAll_cons]
      refine kept_append ?_
      rw [hsend, length_sendLoop]
    rw [hsplit, hmessage, hrest, throughput]
    simp only [decide_eq_true_eq, hcount, and_true, and_comm (a := link ≠ .behind)]

/-- Every message all of whose datagrams arrive is delivered to a new receiver exactly if no such
message comes directly after a lost datagram, unless nothing has arrived before it. -/
theorem receivePartitioned_resynced_iff (s r : Connection) (buffer : Block maxPacketSize)
    (plan : Plan) (calls : Nat) (hr : r.recvMsgId = 0) (hvalid : plan.Valid)
    (hfew : FewLost 0 plan.arrives) (hcalls : (plan.arriving s).length ≤ calls) :
    plan.intact.Sublist (receiveThread r buffer calls ((plan.arriving s).map .datagram)) ↔
      Resynced .fresh plan := by
  rw [receiveThread_eq r buffer hcalls,
    deliveries_arriving plan hvalid hfew (.fresh hr) (fun _ => ⟨rfl, rfl⟩)]
  exact intact_sublist_iff .fresh plan

/-- Three messages, of which the second is lost. -/
def lostSecond : Plan := [([7], [true]), ([8], [false]), ([9], [true])]

/-- Of two messages, the first is lost. -/
theorem receivePartitioned_resynced_second :
    (Plan.intact [([7], [false]), ([8], [true])]).Sublist
      (receiveThread (connectionAt 0) (.zero maxPacketSize) 1
        ((Plan.arriving (connectionAt 0) [([7], [false]), ([8], [true])]).map .datagram)) :=
  (receivePartitioned_resynced_iff (connectionAt 0) (connectionAt 0) (.zero maxPacketSize)
    [([7], [false]), ([8], [true])] 1 rfl (by decide) ⟨by decide, trivial⟩ (by decide)).mpr
      ⟨nofun, fun _ => nofun, trivial⟩

/-- The third message arrives, but it is what shows the receiver that the second is missing. -/
theorem not_resynced_lostSecond :
    lostSecond.intact = [[7], [9]] ∧
      receiveThread (connectionAt 0) (.zero maxPacketSize) 2
        ((lostSecond.arriving (connectionAt 0)).map .datagram) = [[7]] := by
  refine ⟨by decide, ?_⟩
  have hdeliveries := deliveries_arriving lostSecond (s := connectionAt 0) (r := connectionAt 0)
    (p := ⟨.zero maxPacketSize, 0, 0⟩) (by decide)
    (show FewLost 0 [true, false, true] from ⟨by decide, trivial⟩) (.fresh rfl)
    (fun _ => ⟨rfl, rfl⟩)
  rw [receiveThread_eq _ _ (by decide), hdeliveries]
  decide

end TweakTool.Wire.Rpmsg
