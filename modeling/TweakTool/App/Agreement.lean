import TweakTool.App.Copy
import TweakTool.App.Service
import TweakTool.App.Worker

/-! # Server and client agree

However the threads of both processes interleave: when nothing is under way any more, the client has
the items of the server. Each step keeps the feed of the server in line with the copy of the client,
by what it guarantees to the other side. -/

namespace TweakTool.App

open TweakTool.Lib

namespace Session

section

variable (s : Session)

/-- The events on their way to the client. -/
def sent : List (Event TweakId Declaration Variant) := s.toClient.filterMap ServerMessage.event

/-- The client's value of an item is on its way to the server. -/
def Token (k : TweakId) : Prop := s.client.Token k ∨ ∃ m ∈ s.toServer, m.Tells k

end

structure Inv (known : TweakId → VariantType → Prop) (s : Session) : Prop where
  running : s.aborted = none
  owns : s.server.Owns known
  copies : s.client.Copies known
  toClient : ∀ m ∈ s.toClient, m.Known known
  toServer : ∀ k value, .changeItem k value ∈ s.toServer → known k value.type
  subscribed : s.subscribed = true → s.server.impl.connected = true
  once : s.client.subscriptions + s.toServer.countP ClientMessage.isSubscribe +
    s.server.subscriptions ≤ 1
  feeds : s.server.Feeds s.client.view s.sent s.Token
  /-- The client has what it is about to change, as long as the server has it. -/
  held : ∀ k, s.Token k → s.server.view k ≠ none → s.client.view k ≠ none

variable {known known' : TweakId → VariantType → Prop} {s s' : Session}

private theorem inv_init : Inv (fun _ _ => False) init where
  running := rfl
  owns := {
    types := ⟨fun h => h.elim, fun h => h.elim, fun h => h.elim⟩
    consistent := Server.consistent_init
    items := fun _ _ h => nomatch h
    adding := fun _ _ _ h => nomatch h
    sends := fun _ h => nomatch h
    named := fun _ h => nomatch h
    received := fun _ h => nomatch h
    quiet := fun _ => ⟨(fun _ h => nomatch h), rfl⟩ }
  copies := {
    tables := .empty
    items := fun _ _ h => nomatch h
    allowed := fun _ _ _ h => nomatch h
    replacing := fun _ _ _ h => nomatch h
    hand := fun _ _ h => nomatch h
    tokens := by
      rintro k (⟨_, h⟩ | h | ⟨_, h⟩) <;> cases h }
  toClient := fun _ h => nomatch h
  toServer := fun _ _ h => nomatch h
  subscribed := fun h => nomatch h
  once := Nat.le_refl _
  feeds := ⟨fun h => (nomatch h), fun _ => ⟨rfl, rfl⟩⟩
  held := fun _ _ h => absurd rfl h

variable {k : TweakId}

private theorem Inv.known_of_token (h : s.Inv known) (hk : s.Token k) : ∃ t, known k t := by
  rcases hk with hk | ⟨m, hm, value, rfl⟩
  · exact (h.copies.tokens k hk).1
  · exact ⟨_, h.toServer k value hm⟩

variable {action : Action}

/-- Only a step of the worker changes what it does. -/
theorem executes_step (h : s.server.Executes s.taken) (hstep : s.step action = some s') :
    s'.server.Executes s'.taken := by
  unfold Session.step at hstep
  split at hstep
  · cases hstep
  cases action with
  | addItem alloc new =>
    obtain ⟨p, hp, rfl⟩ := Option.map_eq_some_iff.mp hstep
    obtain ⟨_, rfl⟩ := ServerProcess.addItem_cases hp
    exact h
  | removeItem id =>
    obtain ⟨p, hp, rfl⟩ := Option.map_eq_some_iff.mp hstep
    obtain ⟨_, _, rfl⟩ := ServerProcess.removeItem_cases hp
    exact h
  | replaceCurrentValue id value =>
    obtain ⟨p, hp, rfl⟩ := Option.map_eq_some_iff.mp hstep
    obtain ⟨_, _, rfl⟩ := ServerProcess.replaceCurrentValue_cases hp
    exact h
  | application drop =>
    obtain ⟨p, hp, rfl⟩ := Option.map_eq_some_iff.mp hstep
    exact h.proceed hp
  | serverReceive =>
    dsimp only at hstep
    split at hstep
    · cases hstep
    · obtain ⟨p, hp, rfl⟩ := Option.map_eq_some_iff.mp hstep
      exact h.receive hp
  | serverReceiver drop =>
    obtain ⟨p, hp, rfl⟩ := Option.map_eq_some_iff.mp hstep
    obtain ⟨job, _, rfl⟩ := ServerProcess.receiverPush_cases hp
    exact h
  | serverWorker =>
    obtain ⟨⟨message, p⟩, hp, rfl⟩ := Option.map_eq_some_iff.mp hstep
    exact (h.work hp).1
  | clientReceive =>
    dsimp only at hstep
    split at hstep
    · cases hstep
    · split at hstep <;> cases hstep <;> exact h
  | serverConnected =>
    cases hstep
    exact h
  | clientConnection _ | clientWorker | clientReplace _ _ _ | clientCall _ _ =>
    obtain ⟨c, _, rfl⟩ := Option.map_eq_some_iff.mp hstep
    exact h

/-! ## Steps of the server -/

variable {p : ServerProcess Unit} {toServer : List ClientMessage}

variable {n : Nat} {toClient : List ServerMessage}

/-- The server takes a step, and may take a message from its channel and put one into the other. -/
theorem Inv.server {taken : Option ServerJob} {subscribed : Bool} (h : s.Inv known)
    (hfollows : ServerProcess.Follows known known' n s.server p)
    (hmem : ∀ m ∈ toServer, m ∈ s.toServer)
    (hcount : toServer.countP ClientMessage.isSubscribe + n ≤
      s.toServer.countP ClientMessage.isSubscribe)
    (hknown : ∀ m ∈ toClient, m ∈ s.toClient ∨ m.Known known')
    (hsubscribed : subscribed = true → p.impl.connected = true)
    (hfeeds : p.Feeds s.client.view (toClient.filterMap ServerMessage.event)
      (Token { s with toServer := toServer })) :
    Inv known' { s with
      server := p, toServer := toServer, toClient := toClient, taken := taken
      subscribed := subscribed } where
  running := h.running
  owns := hfollows.owns
  copies := h.copies.mono hfollows.types
  toClient := fun m hm => (hknown m hm).elim (fun hm => (h.toClient m hm).mono hfollows.types) id
  toServer := fun k value hm => hfollows.types _ _ (h.toServer k value (hmem _ hm))
  subscribed := hsubscribed
  once := by
    have honce := h.once
    have hsubscriptions := hfollows.subscriptions
    show s.client.subscriptions + toServer.countP ClientMessage.isSubscribe + p.subscriptions ≤ 1
    omega
  feeds := hfeeds
  held := by
    intro k hk hview
    have htoken : s.Token k := hk.imp_right fun ⟨m, hm, htells⟩ => ⟨m, hmem m hm, htells⟩
    obtain ⟨t, ht⟩ := h.known_of_token htoken
    exact h.held k htoken (hfollows.view k t ht hview)

/-- Steps that take no message. -/
theorem Inv.server_only (h : s.Inv known)
    (hstep : ServerProcess.Follows known known' 0 s.server p ∧
      (s.server.Feeds s.client.view s.sent s.Token → p.Feeds s.client.view s.sent s.Token)) :
    Inv known' { s with server := p } :=
  h.server hstep.1 (fun _ hm => hm) (Nat.le_refl _) (fun _ => .inl)
    (fun hs => hstep.1.connected (h.subscribed hs)) (hstep.2 h.feeds)

variable {m : ClientMessage}

/-- The server handles a message that carries no value. -/
theorem Inv.serverReceive_same (h : s.Inv known) (hs : s.toServer = m :: toServer)
    (hm : ∀ k, ¬ m.Tells k) (hcount : toServer.countP ClientMessage.isSubscribe + n ≤
      (m :: toServer).countP ClientMessage.isSubscribe)
    (hstep : ServerProcess.Follows known known n s.server p ∧
      (s.server.Feeds s.client.view s.sent s.Token → p.Feeds s.client.view s.sent s.Token)) :
    Inv known { s with server := p, toServer := toServer } := by
  have htoken : s.Token = Token { s with toServer := toServer } := by
    funext k
    simp only [Token, hs, List.mem_cons, exists_eq_or_imp, hm, false_or]
  have hfeeds := hstep.2 h.feeds
  rw [htoken] at hfeeds
  refine h.server hstep.1 ?_ (hs ▸ hcount) (fun _ => .inl)
    (fun hs => hstep.1.connected (h.subscribed hs)) hfeeds
  intro m' hm'
  rw [hs]
  exact List.mem_cons_of_mem _ hm'

private theorem Inv.serverReceive (h : s.Inv known) (hs : s.toServer = m :: toServer)
    (hstep : s.server.receive m = some p) :
    Inv known { s with server := p, toServer := toServer } := by
  cases m with
  | announceFeatures features =>
    refine h.serverReceive_same hs ?_ (Nat.le_refl _)
      (ServerProcess.follows_receive_announceFeatures h.owns hstep)
    rintro k ⟨value, hvalue⟩
    cases hvalue
  | subscribe =>
    refine h.serverReceive_same hs ?_ ?_ (ServerProcess.follows_receive_subscribe h.owns hstep)
    · rintro k ⟨value, hvalue⟩
      cases hvalue
    · exact Nat.le_of_eq (List.countP_cons_of_pos rfl).symm
  | changeItem id value =>
    have htold : s.Token id := .inr ⟨_, by rw [hs]; exact List.mem_cons_self, value, rfl⟩
    have hvalue : known id value.type := h.toServer id value (by rw [hs]; exact List.mem_cons_self)
    -- before the client was told of anything, it has no value to send
    have htracking (hview : s.server.view id ≠ none) : s.server.tracking = true := by
      rw [← Bool.not_eq_false]
      intro hp
      have hheld := h.held id htold hview
      rw [(h.feeds.quiet hp).1] at hheld
      exact hheld rfl
    obtain ⟨hfollows, hfeeds⟩ := ServerProcess.follows_receive_changeItem h.owns hvalue
      htracking hstep
    refine h.server hfollows ?_ ?_ (fun _ => .inl) (fun hs => hfollows.connected (h.subscribed hs))
      (hfeeds s.Token _ ?_ h.feeds)
    · intro m' hm'
      rw [hs]
      exact List.mem_cons_of_mem _ hm'
    · rw [hs]
      exact Nat.le_refl _
    · rintro k (hk | ⟨m', hm', htells⟩)
      · exact .inr (.inl hk)
      · rw [hs] at hm'
        rcases List.mem_cons.mp hm' with rfl | hm'
        · obtain ⟨value', hvalue'⟩ := htells
          cases hvalue'
          exact .inl rfl
        · exact .inr (.inr ⟨m', hm', htells⟩)

private theorem Inv.serverWorker (h : s.Inv known) (hexecutes : s.server.Executes s.taken)
    {message : Option ServerMessage} (hstep : s.server.work = some (message, p)) :
    Inv known { s with
      server := p
      toClient := s.toClient ++ message.toList
      taken := s.server.taking s.taken
      subscribed := s.subscribed || s.server.endsSubscribe p s.taken } := by
  have honce := h.once
  have hworks := ServerProcess.works h.owns (by omega) hstep
  refine h.server hworks.follows (fun _ hm => hm) (Nat.le_refl _) ?_ ?_ ?_
  · intro m hm
    exact (List.mem_append.mp hm).imp_right (hworks.knows m)
  · intro hs
    rcases Bool.or_eq_true_iff.mp hs with hs | hends
    · exact hworks.follows.connected (h.subscribed hs)
    · obtain ⟨hlocked, hfree⟩ := (hexecutes.work hstep).2 hends
      exact hworks.finished hlocked hfree
  · rw [List.filterMap_append]
    exact hworks.feeds _ _ _ h.feeds

/-- An item is added: no message or token is about its id. -/
theorem Inv.sent_known (h : s.Inv known) (hk : .remove k ∈ s.sent ++ s.server.hand) :
    ∃ t, known k t := by
  rcases List.mem_append.mp hk with hk | hk
  all_goals
    obtain ⟨m, hm, hevent⟩ := List.mem_filterMap.mp hk
    cases m <;> cases hevent
  · exact h.toClient _ hm
  · exact h.owns.sends _ hm

/-! ## Steps of the client -/

variable {c : ClientProcess Nat}

/-- A step of the client, with the message that it sends. -/
theorem Inv.client {message : Option ClientMessage} (h : s.Inv known)
    (hserves : ClientProcess.Serves known s.client message c) :
    Inv known { s with client := c, toServer := s.toServer ++ message.toList } where
  running := h.running
  owns := h.owns
  copies := hserves.copies
  toClient := h.toClient
  toServer := by
    intro k value hm
    rcases List.mem_append.mp hm with hm | hm
    · exact h.toServer k value hm
    · exact hserves.knows k value hm
  subscribed := h.subscribed
  once := by -- a subscription moves from the client to the channel
    have honce := h.once
    have hsubscriptions := hserves.subscriptions
    show c.subscriptions + (s.toServer ++ message.toList).countP ClientMessage.isSubscribe +
      s.server.subscriptions ≤ 1
    rw [List.countP_append]
    omega
  feeds := by
    constructor
    · intro hp -- tokens in the hand of the client or on their way
      have htracks := hserves.tracks s.server.view _ _
        (fun k => s.server.Token k ∨ ∃ m ∈ s.toServer, m.Tells k)
        (fun k hk => h.held k (.inl hk)) ((h.feeds.tracks hp).mono ?_)
      · refine htracks.mono ?_
        rintro k ((hk | ⟨m, hm, htells⟩) | hk | ⟨m, hm, htells⟩)
        · exact .inl hk
        · exact .inr (.inr ⟨m, List.mem_append_left _ hm, htells⟩)
        · exact .inr (.inl hk)
        · exact .inr (.inr ⟨m, List.mem_append_right _ hm, htells⟩)
      · rintro k (hk | hk | hk)
        · exact .inl (.inl hk)
        · exact .inr hk
        · exact .inl (.inr hk)
    · intro hp
      obtain ⟨hcopy, hsent⟩ := h.feeds.quiet hp
      exact ⟨funext fun k => (hserves.view k).mpr (congrFun hcopy k), hsent⟩
  held := by
    intro k hk hview
    rw [ne_eq, hserves.view]
    have hold : s.Token k ∨ s.client.view k ≠ none := by
      rcases hk with hk | ⟨m, hm, htells⟩
      · exact (hserves.token k (.inl hk)).imp_left .inl
      · rcases List.mem_append.mp hm with hm | hm
        · exact .inl (.inr ⟨m, hm, htells⟩)
        · exact (hserves.token k (.inr ⟨m, hm, htells⟩)).imp_left .inl
    exact hold.elim (fun hk => h.held k hk hview) id

/-- Steps that send no message. -/
theorem Inv.client_only (h : s.Inv known) (hserves : ClientProcess.Serves known s.client none c) :
    Inv known { s with client := c } := by
  have hclient := h.client hserves
  rw [Option.toList_none, List.append_nil] at hclient
  exact hclient

/-- Until the client has subscribed, it knows of no item. -/
theorem Inv.empty (h : s.Inv known) (hconnection : s.client.connection ≠ .done) :
    s.client.view = fun _ => none := by
  have honce := h.once
  have hpreparing : s.client.connection.preparing = 1 := by
    cases hc : s.client.connection <;> first | rfl | exact absurd hc hconnection
  apply (h.feeds.quiet _).1
  cases hp : s.server.tracking with
  | false => rfl
  | true =>
    rw [ClientProcess.subscriptions, hpreparing, ServerProcess.subscriptions, hp] at honce
    simp only [Bool.toNat_true] at honce
    omega

/-- A message arrives, and fits. -/
theorem Inv.clientReceive (h : s.Inv known) {m : ServerMessage} (hs : s.toClient = m :: toClient) :
    ∃ c, s.client.receive m = .ok c ∧ Inv known { s with client := c, toClient := toClient } := by
  have hsent : s.sent = m.event.toList ++ toClient.filterMap ServerMessage.event := by
    rw [sent, hs]
    cases hevent : m.event with
    | none => rw [List.filterMap_cons_none hevent]; rfl
    | some e => rw [List.filterMap_cons_some hevent]; rfl
  have htracking {e : Event TweakId Declaration Variant} (he : m.event = some e) :
      s.server.tracking = true := by
    rw [← Bool.not_eq_false]
    intro hp
    have hempty := (h.feeds.quiet hp).2
    rw [hsent, he] at hempty
    cases hempty
  -- the event at the head is the next one the client needs
  have htracks {e : Event TweakId Declaration Variant} (he : m.event = some e) := by
    have htracks := h.feeds.tracks (htracking he)
    rw [hsent, he] at htracks
    exact htracks
  obtain ⟨c, hc⟩ := ClientProcess.receives h.copies h.owns.types
    (h.toClient m (by rw [hs]; exact List.mem_cons_self)) (fun e he => (htracks he).fits_head)
  refine ⟨c, hc.received, ?_⟩
  have htoken : Token { s with client := c, toClient := toClient } = s.Token := by
    funext k
    simp only [Token, hc.token]
  have honce := h.once
  rw [← hc.subscriptions] at honce
  refine ⟨h.running, h.owns, hc.copies, ?_, h.toServer, h.subscribed, honce, ?_, ?_⟩
  · intro m' hm'
    apply h.toClient
    rw [hs]
    exact List.mem_cons_of_mem _ hm'
  · rw [htoken] -- the same tokens, with one event fewer on its way
    have hfeeds := h.feeds
    rw [hsent] at hfeeds
    show s.server.Feeds c.view (toClient.filterMap ServerMessage.event) s.Token
    rw [hc.view]
    cases he : m.event with
    | none =>
      rw [he] at hfeeds
      exact hfeeds
    | some e =>
      refine ⟨fun _ => (htracks he).deliver, fun hp => ?_⟩
      cases (htracking he).symm.trans hp
  · rw [htoken]
    intro k hk howner
    have hheld := h.held k hk howner
    show c.view k ≠ none
    rw [hc.view]
    cases he : m.event with
    | none => exact hheld
    | some e => exact (htracks he).deliver_ne_none howner hheld

/-! ## Runs -/

private theorem Inv.step (h : s.Inv known) (hexecutes : s.server.Executes s.taken)
    (hscalar : Scalar s action) (hnamed : Named action) (hstep : s.step action = some s') :
    ∃ known', Inv known' s' := by
  have hrunning : s.aborted.isSome = false := by -- the client has not ended
    rw [h.running]
    rfl
  simp only [Session.step, hrunning, Bool.false_eq_true, if_false] at hstep
  cases action with
  | addItem alloc new =>
    obtain ⟨p, hp, rfl⟩ := Option.map_eq_some_iff.mp hstep
    exact ⟨known, h.server_only (ServerProcess.follows_addItem h.owns hscalar hnamed hp)⟩
  | removeItem id =>
    obtain ⟨p, hp, rfl⟩ := Option.map_eq_some_iff.mp hstep
    exact ⟨known, h.server_only (ServerProcess.follows_removeItem h.owns hp)⟩
  | replaceCurrentValue id value =>
    obtain ⟨p, hp, rfl⟩ := Option.map_eq_some_iff.mp hstep
    exact ⟨known, h.server_only (ServerProcess.follows_replaceCurrentValue h.owns hscalar hp)⟩
  | application drop =>
    obtain ⟨p, hp, rfl⟩ := Option.map_eq_some_iff.mp hstep
    cases hcall : s.server.calls () with -- the only call of the application
    | idle =>
      simp only [ServerProcess.proceed, hcall] at hp
      cases hp
    | adding alloc new itemIsCompatible =>
      obtain ⟨known', hfollows⟩ :=
        ServerProcess.follows_add h.owns hcall (fun _ => h.sent_known) hp
      exact ⟨known', h.server_only hfollows⟩
    | pushing job => exact ⟨known, h.server_only (ServerProcess.follows_push h.owns hcall hp)⟩
  | serverConnected =>
    cases hstep
    exact ⟨known, h.server_only (ServerProcess.follows_connectionState h.owns)⟩
  | serverReceive =>
    simp only at hstep
    split at hstep
    · cases hstep
    · next m toServer hs =>
        obtain ⟨p, hp, rfl⟩ := Option.map_eq_some_iff.mp hstep
        exact ⟨known, h.serverReceive hs hp⟩
  | serverReceiver drop =>
    obtain ⟨p, hp, rfl⟩ := Option.map_eq_some_iff.mp hstep
    exact ⟨known, h.server_only (ServerProcess.follows_receiverPush h.owns hp)⟩
  | serverWorker =>
    obtain ⟨⟨message, p⟩, hp, rfl⟩ := Option.map_eq_some_iff.mp hstep
    exact ⟨known, h.serverWorker hexecutes hp⟩
  | clientConnection drop =>
    obtain ⟨c, hc, rfl⟩ := Option.map_eq_some_iff.mp hstep
    exact ⟨known, h.client_only (ClientProcess.serves_connect h.copies h.empty hc)⟩
  | clientReceive =>
    simp only at hstep
    split at hstep
    · cases hstep
    · next m toClient hs =>
        obtain ⟨c, hreceived, hinv⟩ := h.clientReceive hs
        rw [hreceived] at hstep
        cases hstep
        exact ⟨known, hinv⟩
  | clientWorker =>
    obtain ⟨⟨message, c⟩, hc, rfl⟩ := Option.map_eq_some_iff.mp hstep
    exact ⟨known, h.client (ClientProcess.serves_work h.copies h.owns.types hc)⟩
  | clientReplace thread id value =>
    obtain ⟨c, hc, rfl⟩ := Option.map_eq_some_iff.mp hstep
    exact ⟨known, h.client_only (ClientProcess.serves_replaceCurrentValue h.copies hc)⟩
  | clientCall thread drop =>
    obtain ⟨c, hc, rfl⟩ := Option.map_eq_some_iff.mp hstep
    exact ⟨known, h.client_only (ClientProcess.serves_proceed h.copies h.owns.types hc)⟩

/-- Nothing is under way, so the copy is the model of the server. -/
theorem Inv.agree (h : s.Inv known) (hquiescent : s.Quiescent) (hsubscribed : s.subscribed = true)
    (id : TweakId) : s.client.impl.find? id = s.server.impl.find? id := by
  have htracking : s.server.tracking = true := by
    rw [ServerProcess.tracking, h.subscribed hsubscribed]
    rfl
  have htracks := h.feeds.tracks htracking
  have hsent : s.sent ++ s.server.hand = [] := by
    rw [sent, hquiescent.toClient, ServerProcess.hand, hquiescent.serverWorker]
    rfl
  have hjobs : s.server.jobs = [] := by
    rw [ServerProcess.jobs_eq, hquiescent.serverWorker, hquiescent.serverQueue, hquiescent.serverCall]
    rfl
  rw [hsent, hjobs] at htracks
  have hview : s.client.view = s.server.view := by
    apply htracks.eq
    rintro k (hk | (⟨thread, hk⟩ | hk | ⟨value, hk⟩) | ⟨m, hm, _⟩)
    · rw [ServerProcess.Token, ServerProcess.mem_pending, hquiescent.serverWorker,
        hquiescent.serverQueue, hquiescent.serverCall, hquiescent.serverReceiver] at hk
      rcases hk with hk | hk | hk | hk <;> cases hk
    · rw [hquiescent.clientCalls] at hk
      cases hk
    · rw [ClientProcess.pending, hquiescent.clientWorker, hquiescent.clientQueue] at hk
      cases hk
    · rw [hquiescent.clientWorker] at hk
      cases hk
    · rw [hquiescent.toServer] at hm
      cases hm
  have hid := congrFun hview id
  replace hid : (s.client.impl.find? id).map (fun item => item.toAddItem.entry) =
    (s.server.impl.find? id).map fun item => item.toAddItem.entry := hid
  cases hclient : s.client.impl.find? id with
  | none =>
    rw [hclient] at hid
    exact (Option.map_eq_none_iff.mp hid.symm).symm
  | some item =>
    rw [hclient] at hid
    obtain ⟨item', hserver, hentry⟩ := Option.map_eq_some_iff.mp hid.symm
    rw [hserver]
    have hsame := AddItem.entry_injective hentry
    have htype := (h.copies.items id item hclient).2
    have htype' := (h.owns.items id item' hserver).2.1
    obtain ⟨a, variantType⟩ := item
    obtain ⟨a', variantType'⟩ := item'
    cases hsame
    exact congrArg (fun variantType => some (Item.mk a variantType)) (htype.trans htype'.symm)

/-- In every run of a session in which items are added with bool or integer values and non-empty
uris, and replaced by values of the same type: the client does not abort, and whenever the server has
executed the subscribe job and nothing is under way, the client has exactly the items of the server. -/
theorem client_agrees (actions : List Action) (s : Session)
    (hactions : Along step (fun s action => Scalar s action ∧ Named action) init actions)
    (hrun : run step init actions = some s) :
    s.aborted = none ∧
      (s.Quiescent → s.subscribed = true →
        ∀ id, s.client.impl.find? id = s.server.impl.find? id) := by
  have hstep {s : Session} {action : Action} {s' : Session}
      (h : s.server.Executes s.taken ∧ ∃ known, Inv known s)
      (hok : Scalar s action ∧ Named action) (hs' : s.step action = some s') :
      s'.server.Executes s'.taken ∧ ∃ known, Inv known s' := by
    obtain ⟨hexecutes, known, h⟩ := h
    exact ⟨executes_step hexecutes hs', h.step hexecutes hok.1 hok.2 hs'⟩
  have hinit : init.server.Executes init.taken ∧ ∃ known, Inv known init := ⟨trivial, _, inv_init⟩
  obtain ⟨_, known, h⟩ := run_invariant_along hstep hinit hactions hrun
  exact ⟨h.running, h.agree⟩

/-- The client connects and subscribes, and the server executes the subscription as far as the
first item. -/
def subscription : List Action :=
  [.clientConnection false, .clientConnection false, .clientConnection false, .clientConnection false,
    .clientWorker, .clientWorker, .clientWorker, .serverReceive, .serverReceive, .serverReceiver false,
    .serverWorker, .serverWorker, .serverWorker, .serverWorker, .serverWorker]

/-- An item is added, the client is told of it and replaces its value, and the server tells the value
back. -/
theorem client_agrees_replaced :
    ∃ s, run step init ([.addItem ⟨true, true, true, true⟩ (letterItem 65), .application false] ++
        subscription ++ [.serverWorker, .clientReceive, .clientReceive,
          .clientReplace 0 1 (.bool true), .clientCall 0 false, .clientCall 0 false, .clientCall 0 false,
          .clientWorker, .clientWorker, .clientWorker, .serverReceive, .serverReceiver false,
          .serverWorker, .serverWorker, .serverWorker, .clientReceive]) = some s ∧
      s.aborted = none ∧ s.client.impl.find? 1 = s.server.impl.find? 1 ∧
      s.server.impl.itemCloneCurrentValue 1 = some (.bool true) := by
  have hrun := client_agrees ([.addItem ⟨true, true, true, true⟩ (letterItem 65), .application false] ++
    subscription ++ [.serverWorker, .clientReceive, .clientReceive,
      .clientReplace 0 1 (.bool true), .clientCall 0 false, .clientCall 0 false, .clientCall 0 false,
      .clientWorker, .clientWorker, .clientWorker, .serverReceive, .serverReceiver false,
      .serverWorker, .serverWorker, .serverWorker, .clientReceive]) _ (by decide +kernel) rfl
  refine ⟨_, rfl, hrun.1, hrun.2 ⟨rfl, rfl, rfl, rfl, rfl, rfl, fun thread => ?_, rfl, rfl⟩ rfl 1, rfl⟩
  cases thread <;> rfl

/-- An item with an empty uri is added, but cannot be sent: the subscription ends without the client
having been told of anything. -/
theorem empty_uri_never_arrives :
    ∃ actions s, Along step Scalar init actions ∧ run step init actions = some s ∧
      s.Quiescent ∧ s.subscribed = true ∧ s.client.impl.find? 1 ≠ s.server.impl.find? 1 := by
  refine ⟨[.addItem ⟨true, true, true, true⟩ ⟨[], [], [], .bool false⟩, .application false] ++
    subscription ++ [.clientReceive], _, ?_, rfl,
    ⟨rfl, rfl, rfl, rfl, rfl, rfl, fun _ => rfl, rfl, rfl⟩, rfl, ?_⟩
  · decide +kernel
  · decide +kernel

end Session

end TweakTool.App
