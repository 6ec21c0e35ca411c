import TweakTool.App.Joining

/-! # Strings and vectors reach the client

The client's side of `Joining`, and the invariant of both sides: every item of the server is at the
client, on its way there or still going to be sent. -/

namespace TweakTool.App

open TweakTool.Lib

/-! ## The client -/

namespace ClientProcess

/-- The items of the client are items of the server. -/
structure Mirrors (c : ClientProcess Unit) (m : ModelImpl) : Prop where
  tables : c.impl.modelImpl.Bijective
  items : ∀ k item', c.impl.find? k = some item' →
    ∃ item, m.model.find? k = some item ∧ item'.toAddItem = item.toAddItem

private theorem Mirrors.mono {c : ClientProcess Unit} {m m' : ModelImpl} (h : c.Mirrors m)
    (hkeeps : ∀ k item, m.model.find? k = some item → m'.model.find? k = some item) :
    c.Mirrors m' where
  tables := h.tables
  items k item' hitem' := by
    obtain ⟨item, hitem, heq⟩ := h.items k item' hitem'
    exact ⟨item, hkeeps k item hitem, heq⟩

variable {c : ClientProcess Unit} {m : ModelImpl}

/-- The client has taken over the item with the id `k`. -/
structure Gains (c : ClientProcess Unit) (m : ModelImpl) (k : TweakId) (c' : ClientProcess Unit) :
    Prop where
  mirrors : c'.Mirrors m
  worker : c'.worker = c.worker
  queue : c'.impl.queue = c.impl.queue
  connection : c'.connection = c.connection
  gained : ∃ item', c'.impl.find? k = some item'
  kept : ∀ k' item', c.impl.find? k' = some item' → ∃ item'', c'.impl.find? k' = some item''

section AddItem

variable {k : TweakId} {item : Item}

/-- The client has an item with the uri, which is the item that is sent to it. -/
theorem Mirrors.addItem_known (h : c.Mirrors m) (hm : m.Bijective) (htext : item.Textual)
    (hitem : m.model.find? k = some item) {k' : TweakId}
    (huri : c.impl.modelImpl.index.find? item.uri = some k') :
    ∃ c', c.receive (.addItem item.toAddItem) = .ok c' ∧ c.Gains m k c' := by
  obtain ⟨item', hitem', hitemUri⟩ := (h.tables.indexed item.uri k').mp huri
  obtain ⟨item'', hitem'', heq⟩ := h.items k' item' hitem'
  have huri'' : item''.uri = item.uri := by
    rw [← hitemUri]
    exact congrArg AddItem.uri heq.symm
  obtain rfl : k' = k := hm.unique hitem'' hitem huri''
  cases hitem''.symm.trans hitem
  have hself : tweakVariantIsEqual item.defaultValue item.defaultValue = true :=
    tweakVariantIsEqual_self (htext.default ▸ htext.text)
  have hcorrect : isAddItemCorrect item.toAddItem item' = true := by
    simp [isAddItemCorrect, heq, hself]
  have hcurrent : tweakVariantIsEqual item'.currentValue item.currentValue = true := by
    rw [heq, htext.current]
    exact hself
  have hlookup : tweakModelUriToTweakIdIndexLookup c.impl.modelImpl.index item.uri = k' := by
    rw [tweakModelUriToTweakIdIndexLookup, huri]
    rfl
  have hadd : c.impl.modelImpl.clientAddItem ⟨true, true, true, true⟩ item.toAddItem =
      .ok c.impl.modelImpl := by
    simp only [ModelImpl.clientAddItem, hlookup, ne_eq, (hm.ids k' item hitem).2, not_false_eq_true,
      if_true, hitem', hcorrect, Bool.true_eq_false, if_false, hcurrent]
  refine ⟨c, ?_, h, rfl, rfl, rfl, ⟨item', hitem'⟩, fun _ item' hitem' => ⟨item', hitem'⟩⟩
  rw [receive, hadd]
  rfl

private theorem Mirrors.addItem_new (h : c.Mirrors m) (hm : m.Bijective)
    (hitem : m.model.find? k = some item)
    (huri : c.impl.modelImpl.index.find? item.uri = none) :
    ∃ c', c.receive (.addItem item.toAddItem) = .ok c' ∧ c.Gains m k c' := by
  obtain ⟨rfl, hvalid⟩ := hm.ids k item hitem
  -- an item with the id would have the uri as well
  have hnew : c.impl.find? item.id = none := by
    rw [Option.eq_none_iff_forall_ne_some]
    intro item' hitem'
    obtain ⟨item'', hitem'', heq⟩ := h.items _ item' hitem'
    cases hitem''.symm.trans hitem
    have hindex := h.tables.find?_uri hitem'
    rw [show item'.uri = item.uri from congrArg AddItem.uri heq, huri] at hindex
    cases hindex
  have hadd : ModelImpl.Addable ⟨true, true, true, true⟩ c.impl.modelImpl item.toAddItem :=
    ⟨hnew, huri, rfl⟩
  have hfind (k' : TweakId) :
      (c.impl.modelImpl.model.insert item.id (.create item.toAddItem)).find? k' =
        if k' = item.id then some (.create item.toAddItem) else c.impl.find? k' :=
    Table.find?_insert hnew ..
  have hok : c.impl.modelImpl.clientAddItem ⟨true, true, true, true⟩ item.toAddItem =
      .ok ⟨c.impl.modelImpl.model.insert item.id (.create item.toAddItem),
        c.impl.modelImpl.index.insert item.uri item.id⟩ := by
    simp only [ModelImpl.clientAddItem, (h.tables.lookup_eq_invalid_iff item.uri).mpr huri,
      ne_eq, not_true_eq_false, if_false, ModelImpl.addItemToModel_eq, hadd, if_true, hvalid]
  refine ⟨{ c with impl := { c.impl with
    modelImpl := ⟨c.impl.modelImpl.model.insert item.id (.create item.toAddItem),
      c.impl.modelImpl.index.insert item.uri item.id⟩ } }, ?_, ⟨h.tables.add hadd hvalid, ?_⟩, rfl,
    rfl, rfl, ⟨_, (hfind _).trans (if_pos rfl)⟩, ?_⟩
  · rw [receive, hok]
    rfl
  · intro k' item' hitem'
    replace hitem' := (hfind k').symm.trans hitem'
    split at hitem'
    · next hk' =>
        cases hitem'
        exact ⟨item, hk' ▸ hitem, rfl⟩
    · exact h.items k' item' hitem'
  · intro k' item' hitem'
    have hk' : k' ≠ item.id := by
      rintro rfl
      cases hnew.symm.trans hitem'
    exact ⟨item', (hfind k').trans ((if_neg hk').trans hitem')⟩

end AddItem

/-- A client that is sent an item of the server has it. -/
theorem Mirrors.addItem (h : c.Mirrors m) (hm : m.Bijective) {k : TweakId} {item : Item}
    (htext : item.Textual) (hitem : m.model.find? k = some item) :
    ∃ c', c.receive (.addItem item.toAddItem) = .ok c' ∧ c.Gains m k c' := by
  cases huri : c.impl.modelImpl.index.find? item.uri with
  | some k' => exact h.addItem_known hm htext hitem huri
  | none => exact h.addItem_new hm hitem huri

/-- A client without calls has nothing to do but to subscribe. -/
structure Subscribes (c : ClientProcess Unit) : Prop where
  queue : ∀ job ∈ c.impl.queue, job = .subscribe
  worker : c.worker = .idle ∨ c.worker = .running .subscribe ∨ c.worker = .announced

private theorem Subscribes.connect (h : c.Subscribes) {c' : ClientProcess Unit} {drop : Bool}
    (hstep : c.connect drop = some c') : c'.Subscribes := by
  rw [ClientProcess.connect] at hstep
  split at hstep
  · cases hstep
    exact ⟨h.queue, h.worker⟩
  · cases hstep
    exact ⟨h.queue, h.worker⟩
  · cases hstep
    exact ⟨h.queue, h.worker⟩
  · cases hstep
    refine ⟨?_, h.worker⟩
    intro job hjob
    rcases (mem_enqueue drop _ _).mp hjob with hjob | rfl
    · exact h.queue job hjob
    · rfl
  · cases hstep

/-- The worker of the client sends nothing but its requests. -/
theorem Subscribes.work (h : c.Subscribes) {c' : ClientProcess Unit} {message : Option ClientMessage}
    (hstep : c.work = some (message, c')) :
    c'.Subscribes ∧ c'.impl.modelImpl = c.impl.modelImpl ∧ c'.connection = c.connection ∧
      ∀ m ∈ message, ServerProcess.Request m := by
  have hnone : ∀ m ∈ (none : Option ClientMessage), ServerProcess.Request m := by
    intro m hm
    cases hm
  cases work_cases hstep with
  | @take job queue worker next =>
    have hjob : job = .subscribe := h.queue job (next ▸ List.mem_cons_self)
    refine ⟨⟨fun job' hjob' => h.queue job' ?_, .inr (.inl ?_)⟩, rfl, rfl, hnone⟩
    · rw [next]
      exact List.mem_cons_of_mem _ hjob'
    · rw [hjob]
  | announce =>
    refine ⟨⟨h.queue, .inr (.inr rfl)⟩, rfl, rfl, ?_⟩
    intro m hm
    cases hm
    rfl
  | subscribe =>
    refine ⟨⟨h.queue, .inl rfl⟩, rfl, rfl, ?_⟩
    intro m hm
    cases hm
    trivial
  | change worker | gone worker | unheard worker | send worker => -- there are no such jobs
    have hworker := h.worker
    rw [worker] at hworker
    rcases hworker with ⟨⟨⟩⟩ | ⟨⟨⟩⟩ | ⟨⟨⟩⟩

end ClientProcess

/-! ## Both -/

namespace Joining

variable {ι : Type} {j j' : Joining ι}

/-- The client has not yet asked for its subscription. -/
structure Fresh (j : Joining ι) : Prop where
  server : j.server.Silent
  clientQueue : j.client.impl.queue = []
  clientWorker : j.client.worker = .idle
  toClient : j.toClient = []
  toServer : j.toServer = []

/-- Every item of the server is at the client, on its way there or still going to be sent. -/
structure Inv (j : Joining ι) : Prop where
  prepared : j.server.Prepared
  running : j.aborted = none
  mirrors : j.client.Mirrors j.server.impl.modelImpl
  subscribes : j.client.Subscribes
  requests : ∀ message ∈ j.toServer, ServerProcess.Request message
  sent : ∀ message ∈ j.toClient, message.Copies j.server.impl.modelImpl
  early : j.client.connection ≠ .done → j.Fresh
  reaches : ∀ k item, j.server.impl.find? k = some item → j.server.Covers k item ∨
    .addItem item.toAddItem ∈ j.toClient ∨ ∃ item', j.client.impl.find? k = some item'
  connected : j.subscribed = true → j.server.impl.connected = true

/-- Before anything has happened. -/
theorem inv_init : (init : Joining ι).Inv where
  prepared := ServerProcess.prepared_init
  running := rfl
  mirrors := ⟨.empty, fun k item' h => by cases h⟩
  subscribes := ⟨fun job h => (by cases h), .inl rfl⟩
  requests message h := by cases h
  sent message h := by cases h
  early _ := ⟨⟨rfl, rfl, ServerProcess.not_due_init⟩, rfl, rfl, rfl, rfl⟩
  reaches k item h := by cases h
  connected h := by cases h

variable {p : ServerProcess ι}

/-- A step of the server. -/
theorem Inv.advances (h : j.Inv) {message : Option ServerMessage}
    (hp : j.server.Advances message p) (toServer : List ClientMessage) (taken : Option ServerJob)
    (subscribed : Bool) (htoServer : ∀ m ∈ toServer, m ∈ j.toServer)
    (hearly : j.client.connection ≠ .done → j.Fresh → p.Silent ∧ message = none ∧ toServer = [])
    (hsubscribed : subscribed = true → j.subscribed = true ∨ p.impl.connected = true) :
    Inv { j with
      server := p
      toClient := j.toClient ++ message.toList
      toServer := toServer
      taken := taken
      subscribed := subscribed } where
  prepared := hp.prepared
  running := h.running
  mirrors := h.mirrors.mono hp.keeps
  subscribes := h.subscribes
  requests m hm := h.requests m (htoServer m hm)
  sent := by
    intro m hm
    rcases List.mem_append.mp hm with hm | hm
    · exact (h.sent m hm).mono hp.keeps
    · exact hp.sent m (Option.mem_toList.mp hm)
  early := by -- before the subscription nothing is sent
    intro hconnection
    have hfresh := h.early hconnection
    obtain ⟨hsilent, rfl, htoServer⟩ := hearly hconnection hfresh
    refine ⟨hsilent, hfresh.clientQueue, hfresh.clientWorker, ?_, htoServer⟩
    rw [hfresh.toClient]
    rfl
  reaches := by
    intro k item hitem
    have hcovers (hold : j.server.impl.find? k = none ∨ j.server.Covers k item) :
        p.Covers k item ∨ .addItem item.toAddItem ∈ j.toClient ++ message.toList ∨
          ∃ item', j.client.impl.find? k = some item' := by
      rcases hp.covers k item hitem hold with hcovers | hmessage
      · exact .inl hcovers
      · refine .inr (.inl (List.mem_append_right _ ?_))
        exact Option.mem_toList.mpr hmessage
    cases hold : j.server.impl.find? k with
    | none => exact hcovers (.inl hold) -- the item is new
    | some old => -- it was there before, and was on its way already
      cases hitem.symm.trans (hp.keeps k old hold)
      rcases h.reaches k item hold with hcovered | hsent | hclient
      · exact hcovers (.inr hcovered)
      · exact .inr (.inl (List.mem_append_left _ hsent))
      · exact .inr (.inr hclient)
  connected := by
    intro htrue
    rcases hsubscribed htrue with hsubscribed | hconnected
    · exact hp.connected (h.connected hsubscribed)
    · exact hconnected

/-- A step of the server that sends nothing and takes nothing from the channel. -/
theorem Inv.advances_quiet (h : j.Inv) (hp : j.server.Advances none p)
    (hearly : j.server.Silent → p.Silent) : Inv { j with server := p } := by
  have hinv := h.advances hp j.toServer j.taken j.subscribed (fun _ hm => hm)
    (fun _ hfresh => ⟨hearly hfresh.server, rfl, hfresh.toServer⟩) .inl
  rwa [Option.toList_none, List.append_nil] at hinv

theorem Inv.serverReceive (h : j.Inv) {message : ClientMessage} {toServer : List ClientMessage}
    (hchannel : j.toServer = message :: toServer) (hstep : j.server.receive message = some p) :
    Inv { j with server := p, toServer := toServer } := by
  have hrequest : ServerProcess.Request message := by
    apply h.requests
    rw [hchannel]
    exact List.mem_cons_self
  have hinv := h.advances (ServerProcess.advances_receive h.prepared hrequest hstep) toServer
    j.taken j.subscribed ?_ ?_ .inl
  · rwa [Option.toList_none, List.append_nil] at hinv
  · intro m hm
    rw [hchannel]
    exact List.mem_cons_of_mem _ hm
  · intro _ hfresh
    cases hfresh.toServer.symm.trans hchannel

/-- The server becomes connected when the walk over its items ends. -/
theorem Inv.serverWorker (h : j.Inv) (hexecutes : j.server.Executes j.taken)
    {message : Option ServerMessage}
    (hopen : j.server.worker = .subscribing → j.server.impl.remotePeerFeatures.vectors = true)
    (hstep : j.server.work = some (message, p)) :
    Inv { j with
      server := p
      toClient := j.toClient ++ message.toList
      taken := j.server.taking j.taken
      subscribed := j.subscribed || j.server.endsSubscribe p j.taken } := by
  have hadvances := ServerProcess.advances_work h.prepared hopen hstep
  refine h.advances hadvances j.toServer _ _ (fun _ hm => hm) ?_ ?_
  · intro _ hfresh
    cases hfresh.server.work.symm.trans hstep
  · intro hsubscribed
    rcases Bool.or_eq_true_iff.mp hsubscribed with hold | hends
    · exact .inl hold
    · obtain ⟨hlocked, hfree⟩ := (hexecutes.work hstep).2 hends
      rw [ServerProcess.locked_eq] at hlocked hfree
      exact .inr (hadvances.walked hlocked hfree)

variable {c : ClientProcess Unit}

/-- The client does something that its model does not notice. -/
theorem Inv.sameModel (h : j.Inv) (hsubscribes : c.Subscribes)
    (hmodel : c.impl.modelImpl = j.client.impl.modelImpl) (toServer : List ClientMessage)
    (hrequests : ∀ m ∈ toServer, ServerProcess.Request m)
    (hearly : c.connection ≠ .done → Fresh { j with client := c, toServer := toServer }) :
    Inv { j with client := c, toServer := toServer } := by
  have hfind (k : TweakId) : c.impl.find? k = j.client.impl.find? k := by
    rw [Context.find?, hmodel]
    rfl
  refine ⟨h.prepared, h.running, ⟨hmodel ▸ h.mirrors.tables, ?_⟩, hsubscribes, hrequests, h.sent,
    hearly, ?_, h.connected⟩
  · intro k item' hitem'
    exact h.mirrors.items k item' ((hfind k).symm.trans hitem')
  · intro k item hitem
    rcases h.reaches k item hitem with hcovers | hsent | ⟨item', hitem'⟩
    · exact .inl hcovers
    · exact .inr (.inl hsent)
    · exact .inr (.inr ⟨item', (hfind k).trans hitem'⟩)

private theorem Fresh.client (h : j.Fresh) (hqueue : c.impl.queue = j.client.impl.queue)
    (hworker : c.worker = j.client.worker) : Fresh { j with client := c } :=
  ⟨h.server, hqueue.trans h.clientQueue, hworker.trans h.clientWorker, h.toClient, h.toServer⟩

theorem Inv.clientConnection (h : j.Inv) {drop : Bool} (hstep : j.client.connect drop = some c) :
    Inv { j with client := c } := by
  have hsubscribes := h.subscribes.connect hstep
  rw [ClientProcess.connect] at hstep
  split at hstep
  · next hconnection =>
      have hfresh := h.early (by rw [hconnection]; decide)
      cases hstep
      exact h.sameModel hsubscribes rfl j.toServer h.requests fun _ => hfresh.client rfl rfl
  · next hconnection =>
      -- the model is reset before anything was sent
      have hfresh := h.early (by rw [hconnection]; decide)
      cases hstep
      refine ⟨h.prepared, h.running, ⟨.empty, fun k item' hitem' => by cases hitem'⟩, hsubscribes,
        h.requests, h.sent, fun _ => hfresh.client rfl rfl, ?_, h.connected⟩
      intro k item _
      left
      left
      rw [hfresh.server.idle]
      exact ServerWorker.handles_idle.mpr hfresh.server.disconnected
  · next hconnection =>
      have hfresh := h.early (by rw [hconnection]; decide)
      cases hstep
      exact h.sameModel hsubscribes rfl j.toServer h.requests fun _ => hfresh.client rfl rfl
  · cases hstep
    exact h.sameModel hsubscribes rfl j.toServer h.requests fun hne => absurd rfl hne
  · cases hstep

private theorem Inv.clientWorker (h : j.Inv) {message : Option ClientMessage}
    (hstep : j.client.work = some (message, c)) :
    Inv { j with client := c, toServer := j.toServer ++ message.toList } := by
  obtain ⟨hsubscribes, hmodel, hconnection, hrequest⟩ := h.subscribes.work hstep
  refine h.sameModel hsubscribes hmodel _ ?_ ?_
  · intro m hm
    rcases List.mem_append.mp hm with hm | hm
    · exact h.requests m hm
    · exact hrequest m (Option.mem_toList.mp hm)
  · intro hne
    have hfresh := h.early (hconnection ▸ hne)
    rw [ClientProcess.work, hfresh.clientWorker, hfresh.clientQueue] at hstep
    cases hstep

/-- The client handles what is sent to it. -/
theorem Inv.receives (h : j.Inv) {message : ServerMessage} {toClient : List ServerMessage}
    (hchannel : j.toClient = message :: toClient) :
    ∃ c, j.client.receive message = .ok c ∧ Inv { j with client := c, toClient := toClient } := by
  have hsent : ∀ m ∈ toClient, m.Copies j.server.impl.modelImpl := by
    intro m hm
    apply h.sent
    rw [hchannel]
    exact List.mem_cons_of_mem _ hm
  have hlate {P : Prop} (hne : j.client.connection ≠ .done) : P := by
    have hfresh := h.early hne
    cases hfresh.toClient.symm.trans hchannel
  have hmessage : message.Copies j.server.impl.modelImpl := by
    apply h.sent
    rw [hchannel]
    exact List.mem_cons_self
  cases message with
  | announceFeatures features =>
    refine ⟨_, rfl, h.prepared, h.running, ⟨h.mirrors.tables, h.mirrors.items⟩,
      ⟨h.subscribes.queue, h.subscribes.worker⟩, h.requests, hsent, fun hne => hlate hne, ?_,
      h.connected⟩
    intro k item hitem
    rcases h.reaches k item hitem with hcovers | hmem | hclient
    · exact .inl hcovers
    · rw [hchannel] at hmem
      rcases List.mem_cons.mp hmem with heq | hmem
      · cases heq
      · exact .inr (.inl hmem)
    · exact .inr (.inr hclient)
  | addItem a =>
    obtain ⟨k, item, hitem, rfl⟩ := hmessage
    obtain ⟨c, hreceive, hgains⟩ := h.mirrors.addItem h.prepared.consistent.bijective
      (h.prepared.items k item hitem) hitem
    refine ⟨c, hreceive, h.prepared, h.running, hgains.mirrors,
      ⟨hgains.queue ▸ h.subscribes.queue, hgains.worker ▸ h.subscribes.worker⟩, h.requests, hsent,
      fun hne => hlate (hgains.connection ▸ hne), ?_, h.connected⟩
    intro k' item' hitem'
    rcases h.reaches k' item' hitem' with hcovers | hmem | ⟨old, hold⟩
    · exact .inl hcovers
    · rw [hchannel] at hmem
      rcases List.mem_cons.mp hmem with heq | hmem
      · -- the two items have one id
        have hid : k' = k := by
          rw [← (h.prepared.consistent.bijective.ids k' item' hitem').1,
            ← (h.prepared.consistent.bijective.ids k item hitem).1]
          exact congrArg AddItem.id (ServerMessage.addItem.inj heq)
        rw [hid]
        exact .inr (.inr hgains.gained)
      · exact .inr (.inl hmem)
    · exact .inr (.inr (hgains.kept k' old hold))
  | changeItem id value | removeItem id => cases hmessage

/-- The worker of the server executes the job that it has taken. -/
theorem executes_step [DecidableEq ι] {action : Action ι} (h : j.server.Executes j.taken)
    (hstep : j.step action = some j') : j'.server.Executes j'.taken := by
  unfold step at hstep
  split at hstep
  · cases hstep
  cases action with
  | addItem thread alloc new =>
    dsimp only at hstep
    split at hstep
    · obtain ⟨p, hp, rfl⟩ := Option.map_eq_some_iff.mp hstep
      obtain ⟨_, rfl⟩ := ServerProcess.addItem_cases hp
      exact h
    · cases hstep
  | application thread drop =>
    obtain ⟨p, hp, rfl⟩ := Option.map_eq_some_iff.mp hstep
    exact h.proceed hp
  | serverReceive =>
    dsimp only at hstep
    split at hstep
    · cases hstep
    · obtain ⟨p, hp, rfl⟩ := Option.map_eq_some_iff.mp hstep
      exact h.receive hp
  | serverReceiver drop =>
    obtain ⟨p, hp, rfl⟩ := Option.map_eq_some_iff.mp hstep
    obtain ⟨job, _, rfl⟩ := ServerProcess.receiverPush_cases hp
    exact h
  | serverWorker =>
    obtain ⟨⟨message, p⟩, hp, rfl⟩ := Option.map_eq_some_iff.mp hstep
    exact (h.work hp).1
  | clientReceive =>
    dsimp only at hstep
    split at hstep
    · cases hstep
    · split at hstep <;> cases hstep <;> exact h
  | serverConnected =>
    cases hstep
    exact h
  | clientConnection _ | clientWorker =>
    obtain ⟨c, _, rfl⟩ := Option.map_eq_some_iff.mp hstep
    exact h

/-- Every careful step keeps the invariant. -/
theorem inv_step [DecidableEq ι] {action : Action ι} (hexecutes : j.server.Executes j.taken)
    (h : j.Inv) (hcareful : j.Careful action) (hstep : j.step action = some j') : j'.Inv := by
  have hrunning : j.aborted.isSome = false := by
    rw [h.running]
    rfl
  simp only [step, hrunning, Bool.false_eq_true, if_false] at hstep
  cases action with
  | addItem thread alloc new =>
    dsimp only at hstep
    split at hstep
    · next htext =>
        obtain ⟨p, hp, rfl⟩ := Option.map_eq_some_iff.mp hstep
        exact h.advances_quiet (ServerProcess.advances_addItem h.prepared htext hcareful hp)
          fun hsilent => hsilent.addItem hp
    · cases hstep
  | application thread drop =>
    obtain ⟨p, hp, rfl⟩ := Option.map_eq_some_iff.mp hstep
    refine h.advances_quiet ?_ fun hsilent => hsilent.proceed h.prepared.consistent hp
    cases ServerProcess.proceeds hp with -- the incompatible case is excluded by `Careful`
    | add call free =>
      rw [Careful, call] at hcareful
      exact ServerProcess.advances_add h.prepared call free hcareful
    | push call => exact ServerProcess.advances_push h.prepared call
  | serverConnected =>
    cases hstep
    exact h.advances_quiet (ServerProcess.advances_connectionState h.prepared)
      fun hsilent => ⟨hsilent.disconnected, hsilent.idle, hsilent.jobless⟩
  | serverReceive =>
    dsimp only at hstep
    split at hstep
    · cases hstep
    · next message toServer hchannel =>
        obtain ⟨p, hp, rfl⟩ := Option.map_eq_some_iff.mp hstep
        exact h.serverReceive hchannel hp
  | serverReceiver drop =>
    obtain ⟨p, hp, rfl⟩ := Option.map_eq_some_iff.mp hstep
    refine h.advances_quiet (ServerProcess.advances_receiverPush h.prepared hp) ?_
    intro hsilent
    cases (hsilent.receiverPush drop).symm.trans hp -- there is nothing to push
  | serverWorker =>
    obtain ⟨⟨message, p⟩, hp, rfl⟩ := Option.map_eq_some_iff.mp hstep
    refine h.serverWorker hexecutes (fun hworker => ?_) hp
    rw [Careful, hworker] at hcareful
    exact hcareful
  | clientConnection drop =>
    obtain ⟨c, hc, rfl⟩ := Option.map_eq_some_iff.mp hstep
    exact h.clientConnection hc
  | clientReceive =>
    dsimp only at hstep
    split at hstep
    · cases hstep
    · next message toClient hchannel =>
        obtain ⟨c, hreceive, hinv⟩ := h.receives hchannel
        rw [hreceive] at hstep
        cases hstep
        exact hinv
  | clientWorker =>
    obtain ⟨⟨message, c⟩, hc, rfl⟩ := Option.map_eq_some_iff.mp hstep
    exact h.clientWorker hc

private theorem Inv.arrived (h : j.Inv) : j.Arrived := by
  intro hsubscribed hquiescent k item hitem
  have hidle : ∀ job, ¬ j.server.Due job := by
    rintro job (hdue | hdue | hdue | ⟨i, hdue⟩)
    · rw [hquiescent.serverWorker] at hdue
      cases hdue
    · rw [hquiescent.serverQueue] at hdue
      cases hdue
    · rw [hquiescent.serverReceiver] at hdue
      cases hdue
    · rw [hquiescent.serverCalls i] at hdue
      cases hdue
  have hclient : ∃ item', j.client.impl.find? k = some item' := by
    rcases h.reaches k item hitem with (hhandles | hdue) | hsent | hclient
    · -- nothing is left to do for a server that has a client
      rw [hquiescent.serverWorker, ServerWorker.handles_idle] at hhandles
      cases hhandles.symm.trans (h.connected hsubscribed)
    · exact absurd hdue (hidle _)
    · rw [hquiescent.toClient] at hsent
      cases hsent
    · exact hclient
  obtain ⟨item', hitem'⟩ := hclient
  obtain ⟨item'', hitem'', heq⟩ := h.mirrors.items k item' hitem'
  cases hitem''.symm.trans hitem
  exact ⟨item', hitem', heq⟩

/-- **Strings and vectors reach the client**, in every run in which items have uris, the server knows
of the connection when the worker begins to walk, and an item that was found to be incompatible is
added before the flag is set. -/
theorem texts_arrive [DecidableEq ι] (actions : List (Action ι))
    (hcareful : Along step Careful init actions) : Throughout step Arrived init actions := by
  have hstep {j : Joining ι} {action : Action ι} {j' : Joining ι}
      (h : j.server.Executes j.taken ∧ j.Inv) (hok : j.Careful action)
      (hj' : j.step action = some j') : j'.server.Executes j'.taken ∧ j'.Inv :=
    ⟨executes_step h.1 hj', inv_step h.1 h.2 hok hj'⟩
  exact throughout_invariant_along hstep (fun h => h.2.arrived) ⟨trivial, inv_init⟩ hcareful

/-- The client connects and subscribes, and the worker executes the job on a server with `n` items. -/
def subscription (n : Nat) : List (Action Unit) :=
  [.serverConnected, .clientConnection false, .clientConnection false, .clientConnection false,
    .clientConnection false, .clientWorker, .clientWorker, .clientWorker, .serverReceive,
    .serverReceive, .serverReceiver false] ++ List.replicate (5 + n) .serverWorker ++
  List.replicate (1 + n) .clientReceive

def addText (letter : UInt8) : Action Unit :=
  .addItem () ⟨true, true, true, true⟩ ⟨[letter], [], [], .string [letter]⟩

/-- One text is added before the client comes, and one while it is there. -/
def before : List (Action Unit) :=
  [addText 65, .application () false] ++ subscription 1 ++
  [addText 66, .application () false, .application () false, .serverWorker, .serverWorker,
    .serverWorker, .clientReceive]

theorem texts_arrive_before :
    (run step init before).map (fun j => (j.subscribed, j.client.impl.modelImpl.model.entries.map
        Prod.fst)) = some (true, [1, 2]) ∧
      Along step Careful init before ∧ Throughout step Arrived init before := by
  have hcareful : Along step Careful (init : Joining Unit) before := by decide +kernel
  exact ⟨by decide +kernel, hcareful, texts_arrive _ hcareful⟩

/-- The features are looked at before the client comes, and the text is added once it is there. -/
def across : List (Action Unit) := [addText 65] ++ subscription 0 ++ [.application () false]

/-- All is quiet, and the client does not know of the text. -/
theorem text_is_lost :
    ∃ j, run step init across = some j ∧ j.subscribed = true ∧ j.Quiescent ∧
      (j.server.impl.find? 1).isSome = true ∧ j.client.impl.find? 1 = none := by
  refine ⟨_, rfl, rfl, ⟨rfl, rfl, rfl, ?_, rfl, rfl, rfl, rfl⟩, rfl, rfl⟩
  intro thread
  rfl

end Joining

end TweakTool.App
