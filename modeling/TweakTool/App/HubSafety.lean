import TweakTool.App.Hub
import TweakTool.App.Service

/-! # Declarations on the hub do not contradict each other

A client gives up when it is sent a declaration that contradicts one it has. Declarations are made
when an item is added to the model of the server, and from then on they are only copied: to the
hand of the worker, to the channels and to the models of the clients. So they agree as long as the
declaration of a new item agrees with all that are around when it is made. -/

namespace TweakTool.App

open TweakTool.Lib

/-! ## Coherent declarations -/

/-- No two declarations share an id or a uri, the ids have been generated, and a client that
compares a declaration with itself finds them equal. -/
structure Coherent (declared : Declaration → Prop) (seed : TweakId) : Prop where
  generated : ∀ d, declared d → d.id ≠ tweakInvalidId ∧ d.id < seed
  equalSelf : ∀ d, declared d → tweakVariantIsEqual d.defaultValue d.defaultValue = true
  sameId : ∀ d d', declared d → declared d' → d.id = d'.id → d = d'
  sameUri : ∀ d d', declared d → declared d' → d.uri = d'.uri → d = d'

namespace Coherent

variable {declared declared' : Declaration → Prop} {seed seed' : TweakId}

theorem mono (h : Coherent declared seed) (hsub : ∀ d, declared' d → declared d)
    (hseed : seed ≤ seed') : Coherent declared' seed' where
  generated := fun d hd =>
    ⟨(h.generated d (hsub d hd)).1, Nat.lt_of_lt_of_le (h.generated d (hsub d hd)).2 hseed⟩
  equalSelf := fun d hd => h.equalSelf d (hsub d hd)
  sameId := fun d d' hd hd' => h.sameId d d' (hsub d hd) (hsub d' hd')
  sameUri := fun d d' hd hd' => h.sameUri d d' (hsub d hd) (hsub d' hd')

/-- A declaration with the next id and a uri that is nowhere in use can be added. -/
theorem declare (h : Coherent declared seed) {new : Declaration} (hid : new.id = seed)
    (hseed : seed ≠ tweakInvalidId)
    (hequal : tweakVariantIsEqual new.defaultValue new.defaultValue = true)
    (huri : ∀ d, declared d → d.uri ≠ new.uri) :
    Coherent (fun d => declared d ∨ d = new) (seed + 1) where
  generated := by
    rintro d (hd | rfl)
    · exact ⟨(h.generated d hd).1, Nat.lt_succ_of_lt (h.generated d hd).2⟩
    · exact ⟨hid ▸ hseed, hid ▸ Nat.lt_succ_self _⟩
  equalSelf := by
    rintro d (hd | rfl)
    · exact h.equalSelf d hd
    · exact hequal
  sameId := by
    rintro d d' (hd | rfl) (hd' | rfl) heq
    · exact h.sameId d d' hd hd' heq
    · exact absurd (heq.trans hid) (Nat.ne_of_lt (h.generated d hd).2)
    · exact absurd (heq.symm.trans hid) (Nat.ne_of_lt (h.generated d' hd').2)
    · rfl
  sameUri := by
    rintro d d' (hd | rfl) (hd' | rfl) heq
    · exact h.sameUri d d' hd hd' heq
    · exact absurd heq (huri d hd)
    · exact absurd heq.symm (huri d' hd')
    · rfl

end Coherent

/-! ## Models -/

namespace ModelImpl

variable {m m' : ModelImpl} {d : Declaration}

theorem mem_declarations :
    d ∈ m.declarations ↔ ∃ k item, m.model.find? k = some item ∧ item.toAddItem.declaration = d := by
  simp only [declarations, List.mem_map, Prod.exists, Table.mem_entries_iff]

variable {item : Item}

theorem declaration_mem {k : TweakId} (h : m.model.find? k = some item) :
    item.toAddItem.declaration ∈ m.declarations := mem_declarations.mpr ⟨k, item, h, rfl⟩

/-- An update declares nothing. -/
theorem Updates.declarations_subset (h : m.Updates m') : m'.declarations ⊆ m.declarations := by
  intro d hd
  obtain ⟨k, item', hk, rfl⟩ := mem_declarations.mp hd
  cases h with
  | same => exact declaration_mem hk
  | value id value =>
    rw [setCurrentValue_model] at hk
    split at hk
    · obtain ⟨item, hitem, rfl⟩ := Option.map_eq_some_iff.mp hk
      exact mem_declarations.mpr ⟨id, item, hitem, rfl⟩
    · exact declaration_mem hk
  | removed id item hitem =>
    rw [removeItem_model] at hk
    split at hk
    · cases hk
    · exact declaration_mem hk

variable {a : AddItem}

/-- A new item adds its own declaration. -/
theorem mem_declarations_insert (hnew : m.model.find? a.id = none) (index : Table Text TweakId)
    (hd : d ∈ declarations ⟨m.model.insert a.id (.create a), index⟩) :
    d ∈ m.declarations ∨ d = a.declaration := by
  obtain ⟨k, item, hk, rfl⟩ := mem_declarations.mp hd
  replace hk : (m.model.insert a.id (.create a)).find? k = some item := hk
  rw [Table.find?_insert hnew] at hk
  split at hk
  · cases hk
    exact .inr rfl
  · exact .inl (declaration_mem hk)

private theorem clientChangeItem_updates (m : ModelImpl) (id : TweakId) (value : Variant) :
    m.Updates (m.clientChangeItem id value) := by
  rw [clientChangeItem]
  split
  · exact .value id value
  · exact .same

private theorem clientRemoveItem_updates (m : ModelImpl) (id : TweakId) :
    m.Updates (m.clientRemoveItem id) := by
  rw [clientRemoveItem]
  split
  · next item hitem => exact .removed id item hitem
  · exact .same

private theorem isAddItemCorrect_of_declaration (h : item.toAddItem.declaration = a.declaration)
    (hequal : tweakVariantIsEqual a.defaultValue a.defaultValue = true) :
    isAddItemCorrect a item = true := by
  simp only [AddItem.declaration, Declaration.mk.injEq] at h
  obtain ⟨hid, huri, hdescription, hmeta, hdefault⟩ := h
  simp [isAddItemCorrect, hid, huri, hdescription, hmeta, hdefault, hequal]

/-- A client that has been sent coherent declarations handles one more of them. -/
theorem clientAddItem_ok {declared : Declaration → Prop} {seed : TweakId} (h : m.Bijective)
    (hcoherent : Coherent declared seed) (hm : ∀ d ∈ m.declarations, declared d)
    (ha : declared a.declaration) :
    ∃ m', m.clientAddItem ⟨true, true, true, true⟩ a = .ok m' ∧
      ∀ d ∈ m'.declarations, d ∈ m.declarations ∨ d = a.declaration := by
  cases huri : m.index.find? a.uri with
  | some k =>
    -- the item with the uri has the same declaration, so the check succeeds
    obtain ⟨item, hitem, hitemUri⟩ := (h.indexed a.uri k).mp huri
    have heq : item.toAddItem.declaration = a.declaration :=
      hcoherent.sameUri _ _ (hm _ (declaration_mem hitem)) ha hitemUri
    have hcorrect := isAddItemCorrect_of_declaration heq (hcoherent.equalSelf _ ha)
    have hlookup : tweakModelUriToTweakIdIndexLookup m.index a.uri = k := by
      rw [tweakModelUriToTweakIdIndexLookup, huri]
      rfl
    simp only [clientAddItem, hlookup, ne_eq, (h.ids k item hitem).2, not_false_eq_true, if_true,
      hitem, hcorrect, Bool.true_eq_false, if_false]
    split
    · exact ⟨m, rfl, fun d hd => .inl hd⟩
    · exact ⟨_, rfl, fun d hd => .inl ((Updates.value k a.currentValue).declarations_subset hd)⟩
  | none =>
    -- an item with the id would have the uri as well
    have hnew : m.model.find? a.id = none := by
      rw [Option.eq_none_iff_forall_ne_some]
      intro item hitem
      have heq : item.toAddItem.declaration = a.declaration :=
        hcoherent.sameId _ _ (hm _ (declaration_mem hitem)) ha (h.ids _ _ hitem).1
      have hitemUri : item.uri = a.uri := congrArg Declaration.uri heq
      rw [← hitemUri, h.find?_uri hitem] at huri
      cases huri
    have hadd : Addable ⟨true, true, true, true⟩ m a := ⟨hnew, huri, rfl⟩
    have hid : a.id ≠ tweakInvalidId := (hcoherent.generated _ ha).1
    refine ⟨⟨m.model.insert a.id (.create a), m.index.insert a.uri a.id⟩, ?_, ?_⟩
    · simp only [clientAddItem, (h.lookup_eq_invalid_iff a.uri).mpr huri, ne_eq,
        not_true_eq_false, if_false, addItemToModel_eq, hadd, if_true, hid]
    · exact fun d => mem_declarations_insert hnew _

end ModelImpl

/-! ## Steps of the server -/

namespace ServerProcess

variable {ι : Type} {p p' : ServerProcess ι}

def declarations (p : ServerProcess ι) : List Declaration :=
  p.impl.modelImpl.declarations ++ p.worker.declarations

structure Repeats (p p' : ServerProcess ι) : Prop where
  model : p.impl.modelImpl.Updates p'.impl.modelImpl
  seed : p.impl.seed ≤ p'.impl.seed
  worker : p'.worker.declarations ⊆ p.declarations

theorem Repeats.declarations_subset (h : p.Repeats p') : p'.declarations ⊆ p.declarations := by
  intro d hd
  rcases List.mem_append.mp hd with hmodel | hworker
  · exact List.mem_append_left _ (h.model.declarations_subset hmodel)
  · exact h.worker hworker

/-- The worker does not take part in the step. -/
theorem Repeats.of_updates (hmodel : p.impl.modelImpl.Updates p'.impl.modelImpl)
    (hseed : p'.impl.seed = p.impl.seed) (hworker : p'.worker = p.worker) : p.Repeats p' where
  model := hmodel
  seed := Nat.le_of_eq hseed.symm
  worker := by
    rw [hworker]
    exact List.subset_append_right _ _

section Calls

variable [DecidableEq ι] {i : ι}

theorem repeats_addItem {alloc : Allocations} {new : NewItem} (h : p.addItem i alloc new = some p') :
    p.Repeats p' := by
  obtain ⟨_, rfl⟩ := addItem_cases h
  exact .of_updates .same rfl rfl

variable {id : TweakId}

private theorem repeats_removeItem (h : p.removeItem i id = some p') : p.Repeats p' := by
  obtain ⟨_, _, rfl⟩ := removeItem_cases h
  exact .of_updates (p.impl.removeItemSection_updates id) rfl rfl

theorem repeats_replaceCurrentValue {value : Variant}
    (h : p.replaceCurrentValue i id value = some p') : p.Repeats p' := by
  obtain ⟨_, _, rfl⟩ := replaceCurrentValue_cases h
  exact .of_updates (p.impl.itemReplaceCurrentValue_updates id value) rfl rfl

/-- A call that goes on pushes a job, fails to add its item or adds it. -/
theorem proceed_cases (hp : p.impl.Consistent) {drop : Bool} (h : p.proceed i drop = some p') :
    p.Repeats p' ∨ ∃ alloc new itemIsCompatible,
      p.calls i = .adding alloc new itemIsCompatible ∧
      p.impl.modelImpl.index.find? new.uri = none ∧
      p'.impl = p.impl.added new ∧ p'.worker = p.worker := by
  cases proceeds h with
  | @add alloc new itemIsCompatible call free =>
    rw [Server.addItemLocked_eq hp]
    by_cases hadd : p.impl.modelImpl.index.find? new.uri = none ∧ alloc.all = true
    · rw [if_pos hadd]
      exact .inr ⟨alloc, new, itemIsCompatible, call, hadd.1, rfl, rfl⟩
    · rw [if_neg hadd]
      exact .inl ⟨.same, p.impl.seed_le_refused new.uri, List.subset_append_right _ _⟩
  | push call => exact .inl (.of_updates .same rfl rfl)

end Calls

private theorem repeats_receive {message : ClientMessage} (h : p.receive message = some p') :
    p.Repeats p' := by
  rw [receive.eq_def] at h
  split at h
  · cases h
    exact .of_updates .same rfl rfl
  · cases h
    exact .of_updates .same rfl rfl
  · split at h
    · cases h
    · simp only [Server.changeItemLocked, Option.map_map, Option.map_eq_some_iff] at h
      obtain ⟨⟨id', changed, modelImpl⟩, hsection, heq⟩ := h
      cases heq
      exact .of_updates (Context.changeItemSection_updates hsection) rfl rfl
  · cases h

theorem repeats_receiverPush {drop : Bool} (h : p.receiverPush drop = some p') : p.Repeats p' := by
  obtain ⟨_, _, rfl⟩ := receiverPush_cases h
  exact .of_updates .same rfl rfl

private theorem repeats_connectionState (p : ServerProcess ι) (isConnected : Bool) :
    p.Repeats (p.connectionState isConnected) := by
  cases isConnected <;> exact .of_updates .same rfl rfl

/-- The worker goes on with nothing to declare in its hand. -/
theorem Repeats.of_quiet {impl : Server} {worker : ServerWorker}
    (hmodel : impl.modelImpl = p.impl.modelImpl) (hseed : impl.seed = p.impl.seed)
    (hworker : worker.declarations = []) :
    p.Repeats { p with impl := impl, worker := worker } where
  model := by
    show p.impl.modelImpl.Updates impl.modelImpl
    rw [hmodel]
    exact .same
  seed := Nat.le_of_eq hseed.symm
  worker := by
    show worker.declarations ⊆ _
    rw [hworker]
    exact List.nil_subset _

/-- What the model has is declared. -/
theorem find_mem_declarations {id : TweakId} {item : Item} (h : p.impl.find? id = some item) :
    [item.toAddItem.declaration] ⊆ p.declarations :=
  List.cons_subset.mpr
    ⟨List.mem_append_left _ (ModelImpl.declaration_mem h), List.nil_subset _⟩

/-- The worker takes declarations from the model, and sends them at once or later. -/
theorem repeats_work {message : Option ServerMessage} (h : p.work = some (message, p')) :
    p.Repeats p' ∧ message.toList.filterMap ServerMessage.declaration? ⊆ p.declarations := by
  have hnil : ([] : List Declaration) ⊆ p.declarations := List.nil_subset _
  cases work_cases h with
  | append worker found => exact ⟨⟨.same, Nat.le_refl _, find_mem_declarations found⟩, hnil⟩
  | visit worker found => exact ⟨.of_quiet rfl rfl rfl, find_mem_declarations found⟩
  | send worker =>
    -- the item in the hand of the worker is sent, or refused
    refine ⟨.of_quiet rfl rfl rfl, ?_⟩
    split
    · intro d hd
      refine List.mem_append_right _ ?_
      rw [worker]
      simpa [ServerWorker.declarations] using hd
    · exact hnil
  | take | announce | prepare | announced | lock | walked | refuse | skip | change | remove | gone
  | unheard => exact ⟨.of_quiet rfl rfl rfl, hnil⟩

end ServerProcess

/-! ## Steps of a client -/

namespace ClientProcess

variable {ι : Type} {c c' : ClientProcess ι}

/-- The step makes no declaration. -/
def Repeats (c c' : ClientProcess ι) : Prop :=
  c.impl.modelImpl.Updates c'.impl.modelImpl ∨ c'.impl.modelImpl = .empty

private theorem Repeats.bijective (h : c.Repeats c') (hc : c.impl.modelImpl.Bijective) :
    c'.impl.modelImpl.Bijective := by
  rcases h with h | h
  · exact h.bijective hc
  · rw [h]
    exact .empty

theorem Repeats.declarations_subset (h : c.Repeats c') :
    c'.impl.modelImpl.declarations ⊆ c.impl.modelImpl.declarations := by
  rcases h with h | h
  · exact h.declarations_subset
  · rw [h]
    exact List.nil_subset _

private theorem repeats_connect {drop : Bool} (h : c.connect drop = some c') : c.Repeats c' := by
  rw [connect] at h
  split at h
  · cases h
    exact .inl .same
  · cases h
    exact .inr rfl
  · cases h
    exact .inl .same
  · cases h
    exact .inl .same
  · cases h

theorem repeats_work {message : Option ClientMessage} (h : c.work = some (message, c')) :
    c.Repeats c' := by
  cases work_cases h with
  | take | announce | subscribe | change | gone | unheard | send => exact .inl .same

section Calls

variable [DecidableEq ι] {i : ι}

theorem repeats_replaceCurrentValue {id : TweakId} {value : Variant}
    (h : c.replaceCurrentValue i id value = some c') : c.Repeats c' := by
  rw [replaceCurrentValue] at h
  split at h
  · split at h
    · cases h
      exact .inl .same
    · cases h
      exact .inl .same
  · cases h
    exact .inl .same
  · cases h

private theorem repeats_proceed {drop : Bool} (h : c.proceed i drop = some c') : c.Repeats c' := by
  rw [proceed] at h
  split at h
  · cases h
  · cases h
    exact .inl .same
  · next id value _ =>
      cases h
      exact .inl (c.impl.itemReplaceCurrentValue_updates id value)
  · cases h
    exact .inl .same

end Calls

/-- A client that has been sent coherent declarations handles every message. -/
theorem receive_ok {declared : Declaration → Prop} {seed : TweakId} (hc : c.impl.modelImpl.Bijective)
    (hcoherent : Coherent declared seed) (hmodel : ∀ d ∈ c.impl.modelImpl.declarations, declared d)
    {message : ServerMessage} (hmessage : ∀ d, message.declaration? = some d → declared d) :
    ∃ c', c.receive message = .ok c' ∧ c'.impl.modelImpl.Bijective ∧
      ∀ d ∈ c'.impl.modelImpl.declarations, declared d := by
  cases message with
  | announceFeatures features => exact ⟨_, rfl, hc, hmodel⟩
  | addItem a =>
    have ha := hmessage a.declaration rfl
    obtain ⟨m', hadd, hsub⟩ := ModelImpl.clientAddItem_ok hc hcoherent hmodel ha
    refine ⟨_, by rw [receive, hadd]; rfl, Client.clientAddItem_bijective hc hadd, ?_⟩
    intro d hd
    rcases hsub d hd with hold | rfl
    · exact hmodel d hold
    · exact ha
  | changeItem id value =>
    have hupdates := c.impl.modelImpl.clientChangeItem_updates id value
    exact ⟨_, rfl, hupdates.bijective hc, fun d hd => hmodel d (hupdates.declarations_subset hd)⟩
  | removeItem id =>
    have hupdates := c.impl.modelImpl.clientRemoveItem_updates id
    exact ⟨_, rfl, hupdates.bijective hc, fun d hd => hmodel d (hupdates.declarations_subset hd)⟩

end ClientProcess

namespace Peer

variable {ι : Type} {declared : Declaration → Prop} {seed : TweakId} {peer : Peer ι}

/-- The client is running and has been sent nothing but what was declared. -/
structure Sound (declared : Declaration → Prop) (peer : Peer ι) : Prop where
  tables : peer.process.impl.modelImpl.Bijective
  running : peer.aborted = none
  detached : peer.attached = false → peer.toClient = []
  sent : ∀ d ∈ peer.declarations, declared d

theorem mem_declarations {d : Declaration} :
    d ∈ peer.declarations ↔ peer.attached = true ∧
      (d ∈ peer.process.impl.modelImpl.declarations ∨
        d ∈ peer.toClient.filterMap ServerMessage.declaration?) := by
  rw [declarations]
  split
  · next hattached => simp [hattached]
  · next hattached => simp [hattached]

namespace Sound

theorem mono (h : peer.Sound declared) {declared' : Declaration → Prop}
    (hsub : ∀ d, declared d → declared' d) : peer.Sound declared' :=
  ⟨h.tables, h.running, h.detached, fun d hd => hsub d (h.sent d hd)⟩

private theorem init (declared : Declaration → Prop) : (Peer.init : Peer ι).Sound declared :=
  ⟨.empty, rfl, fun _ => rfl, fun _ hd => nomatch hd⟩

private theorem attach (h : peer.Sound declared) : peer.attach.Sound declared :=
  ⟨.empty, h.running, fun _ => rfl, fun _ hd => nomatch hd⟩

private theorem detach (h : peer.Sound declared) : peer.detach.Sound declared :=
  ⟨h.tables, h.running, fun _ => rfl, fun _ hd => nomatch hd⟩

/-- What goes to the server declares nothing. -/
theorem toServer (h : peer.Sound declared) (messages : List ClientMessage) :
    Sound declared { peer with toServer := messages } :=
  ⟨h.tables, h.running, h.detached, h.sent⟩

theorem process (h : peer.Sound declared) {c : ClientProcess ι} (hc : peer.process.Repeats c) :
    Sound declared { peer with process := c } := by
  refine ⟨hc.bijective h.tables, h.running, h.detached, ?_⟩
  intro d hd
  apply h.sent
  obtain ⟨hattached, hmodel | hchannel⟩ := mem_declarations.mp hd
  · exact mem_declarations.mpr ⟨hattached, .inl (hc.declarations_subset hmodel)⟩
  · exact mem_declarations.mpr ⟨hattached, .inr hchannel⟩

theorem send (h : peer.Sound declared) {message : Option ServerMessage}
    (hmessage : ∀ d ∈ message.toList.filterMap ServerMessage.declaration?, declared d) :
    (peer.send message).Sound declared := by
  rw [Peer.send]
  split
  · next hattached =>
      refine ⟨h.tables, h.running, ?_, ?_⟩
      · intro hdetached
        exact absurd hattached (Bool.eq_false_iff.mp hdetached)
      · intro d hd
        obtain ⟨_, hmodel | hchannel⟩ := mem_declarations.mp hd
        · exact h.sent d (mem_declarations.mpr ⟨hattached, .inl hmodel⟩)
        · rw [List.filterMap_append] at hchannel
          rcases List.mem_append.mp hchannel with hold | hnew
          · exact h.sent d (mem_declarations.mpr ⟨hattached, .inr hold⟩)
          · exact hmessage d hnew
  · exact h

/-- The next message is handled without an abort. -/
theorem receive (h : peer.Sound declared) (hcoherent : Coherent declared seed) {peer' : Peer ι}
    (hreceive : peer.receive = some peer') : peer'.Sound declared := by
  rw [Peer.receive] at hreceive
  split at hreceive
  · cases hreceive
  · next message rest hchannel =>
      have hattached : peer.attached = true := by
        rw [← Bool.not_eq_false]
        intro hdetached
        rw [h.detached hdetached] at hchannel
        cases hchannel
      have hmodel : ∀ d ∈ peer.process.impl.modelImpl.declarations, declared d :=
        fun d hd => h.sent d (mem_declarations.mpr ⟨hattached, .inl hd⟩)
      have hmessages : ∀ m ∈ message :: rest, ∀ d, m.declaration? = some d → declared d := by
        intro m hm d hd
        refine h.sent d (mem_declarations.mpr ⟨hattached, .inr ?_⟩)
        rw [hchannel]
        exact List.mem_filterMap.mpr ⟨m, hm, hd⟩
      obtain ⟨c, hc, htables, hsub⟩ := ClientProcess.receive_ok h.tables hcoherent hmodel
        (hmessages message List.mem_cons_self)
      simp only [hc, Option.some.injEq] at hreceive
      subst hreceive
      refine ⟨htables, h.running, ?_, ?_⟩
      · intro hdetached
        exact absurd hattached (Bool.eq_false_iff.mp hdetached)
      · intro d hd
        obtain ⟨_, hd | hd⟩ := mem_declarations.mp hd
        · exact hsub d hd
        · obtain ⟨m, hm, hmd⟩ := List.mem_filterMap.mp hd
          exact hmessages m (List.mem_cons_of_mem _ hm) d hmd

end Sound

end Peer

/-! ## The invariant of the hub -/

namespace Hub

variable {ι γ : Type} {declared : Declaration → Prop} {h h' : Hub ι γ}

/-- The server and the clients know of nothing but what was declared, and that is coherent. -/
structure Inv (declared : Declaration → Prop) (h : Hub ι γ) : Prop where
  consistent : h.server.impl.Consistent
  coherent : Coherent declared h.server.impl.seed
  server : ∀ d ∈ h.server.declarations, declared d
  peers : ∀ client, (h.peers client).Sound declared

private theorem inv_init : Inv (fun _ => False) (init : Hub ι γ) where
  consistent := Server.consistent_init
  -- nothing has been declared
  coherent := ⟨fun _ hd => hd.elim, fun _ hd => hd.elim, fun _ _ hd => hd.elim,
    fun _ _ hd => hd.elim⟩
  server := fun _ hd => nomatch hd
  peers := fun _ => .init _

namespace Inv

variable {p : ServerProcess ι}

/-- A step of the server that declares nothing. -/
theorem repeats (hinv : Inv declared h) (hp : h.server.Repeats p) :
    Inv declared { h with server := p } where
  consistent := hinv.consistent.updates hp.model hp.seed
  coherent := hinv.coherent.mono (fun _ hd => hd) hp.seed
  server := fun d hd => hinv.server d (hp.declarations_subset hd)
  peers := hinv.peers

/-- The server takes a step that declares nothing, or cannot take it. -/
theorem stepServer (hinv : Inv declared h) {next : Option (ServerProcess ι)}
    (hnext : ∀ p, next = some p → h.server.Repeats p)
    (hstep : next.map (fun p => { h with server := p }) = some h') : Inv declared h' := by
  obtain ⟨p, hp, rfl⟩ := Option.map_eq_some_iff.mp hstep
  exact hinv.repeats (hnext p hp)

def Declared (h : Hub ι γ) (d : Declaration) : Prop :=
  d ∈ h.server.declarations ∨ ∃ client, d ∈ (h.peers client).declarations

/-- Declarations that are nowhere to be found can be forgotten. -/
theorem tight (hinv : Inv declared h) : Inv (Declared h) h where
  consistent := hinv.consistent
  coherent := by
    refine hinv.coherent.mono ?_ (Nat.le_refl _)
    rintro d (hd | ⟨client, hd⟩)
    · exact hinv.server d hd
    · exact (hinv.peers client).sent d hd
  server := fun _ hd => .inl hd
  peers := fun client =>
    ⟨(hinv.peers client).tables, (hinv.peers client).running, (hinv.peers client).detached,
      fun _ hd => .inr ⟨client, hd⟩⟩

/-- The server adds an item whose uri the clients have forgotten. -/
theorem added (hinv : Inv declared h) {new : NewItem}
    (huri : h.server.impl.modelImpl.index.find? new.uri = none)
    (hequal : tweakVariantIsEqual new.initialValue new.initialValue = true)
    (hforgotten : h.Forgotten new.uri) (himpl : p.impl = h.server.impl.added new)
    (hworker : p.worker = h.server.worker) : ∃ declared', Inv declared' { h with server := p } := by
  have hfree : ∀ d, Declared h d → d.uri ≠ new.uri := by
    rintro d (hserver | ⟨client, hpeer⟩)
    · rcases List.mem_append.mp hserver with hmodel | hhand
      · obtain ⟨k, item, hk, rfl⟩ := ModelImpl.mem_declarations.mp hmodel
        intro heq
        have hindex := hinv.consistent.bijective.find?_uri hk
        rw [show item.uri = new.uri from heq, huri] at hindex
        cases hindex
      · exact hforgotten.1 d hhand
    · exact hforgotten.2 client d hpeer
  refine ⟨fun d => Declared h d ∨ d = (new.withId h.server.impl.seed).declaration, ?_, ?_, ?_, ?_⟩
  · rw [himpl]
    exact hinv.consistent.added huri
  · rw [himpl]
    exact hinv.tight.coherent.declare rfl (Nat.ne_of_gt hinv.consistent.positive) hequal hfree
  · intro d hd
    rcases List.mem_append.mp hd with hmodel | hhand
    · rw [himpl] at hmodel
      rcases ModelImpl.mem_declarations_insert (a := new.withId h.server.impl.seed)
        hinv.consistent.find?_seed _ hmodel with hold | hnew
      · exact .inl (.inl (List.mem_append_left _ hold))
      · exact .inr hnew
    · rw [hworker] at hhand
      exact .inl (.inl (List.mem_append_right _ hhand))
  · exact fun client => (hinv.tight.peers client).mono fun _ hd => .inl hd

section Steps

variable [DecidableEq γ] {client : γ}

/-- A change of one client that keeps to what was declared. -/
theorem setPeer (hinv : Inv declared h) {peer : Peer ι} (hpeer : peer.Sound declared) :
    Inv declared (h.setPeer client peer) where
  consistent := hinv.consistent
  coherent := hinv.coherent
  server := hinv.server
  peers := by
    intro other
    show (Function.update h.peers client peer other).Sound declared
    by_cases hother : other = client
    · rw [hother, Function.update_self]
      exact hpeer
    · rw [Function.update_of_ne hother]
      exact hinv.peers other

/-- A step of a client keeps the invariant if it keeps the client sound. -/
theorem stepPeer (hinv : Inv declared h) {next : Peer ι → Option (Peer ι)}
    (hnext : ∀ peer peer', peer.Sound declared → next peer = some peer' → peer'.Sound declared)
    (hstep : h.stepPeer client next = some h') : Inv declared h' := by
  rw [Hub.stepPeer] at hstep
  split at hstep
  · cases hstep
  · obtain ⟨peer', hpeer', rfl⟩ := Option.map_eq_some_iff.mp hstep
    exact hinv.setPeer (hnext _ _ (hinv.peers client) hpeer')

/-- A step of a client that declares nothing. -/
theorem stepProcess (hinv : Inv declared h) {next : ClientProcess ι → Option (ClientProcess ι)}
    (hnext : ∀ c c', next c = some c' → c.Repeats c')
    (hstep : h.stepPeer client (fun peer => (next peer.process).map fun c => { peer with process := c }) =
      some h') : Inv declared h' := by
  refine hinv.stepPeer ?_ hstep
  intro peer peer' hpeer heq
  obtain ⟨c, hc, rfl⟩ := Option.map_eq_some_iff.mp heq
  exact hpeer.process (hnext _ _ hc)

/-- Every step that is taken with care keeps the invariant. -/
theorem step [DecidableEq ι] {action : Action ι γ} (hinv : Inv declared h)
    (hcareful : h.Careful action) (hstep : h.step action = some h') :
    ∃ declared', Inv declared' h' := by
  cases action with
  | attach client => -- the client starts with an empty model
    obtain ⟨h'', hpeer, rfl⟩ := Option.map_eq_some_iff.mp hstep
    have hattached : Inv declared h'' := by
      refine hinv.stepPeer ?_ hpeer
      intro peer peer' hsound heq
      split at heq
      · cases heq
      · cases heq
        exact hsound.attach
    exact ⟨declared, hattached.consistent, hattached.coherent, hattached.server, hattached.peers⟩
  | detach client =>
    obtain ⟨h'', hpeer, rfl⟩ := Option.map_eq_some_iff.mp hstep
    have hdetached : Inv declared h'' := by
      refine hinv.stepPeer ?_ hpeer
      intro peer peer' hsound heq
      split at heq
      · cases heq
        exact hsound.detach
      · cases heq
    exact ⟨declared, hdetached.consistent, hdetached.coherent, hdetached.server, hdetached.peers⟩
  | notify isConnected =>
    simp only [Hub.step] at hstep
    split at hstep
    · cases hstep
      have hserver := hinv.repeats (h.server.repeats_connectionState isConnected)
      exact ⟨declared, hserver.consistent, hserver.coherent, hserver.server, hserver.peers⟩
    · cases hstep
  | addItem thread alloc new =>
    exact ⟨declared, hinv.stepServer (fun _ => ServerProcess.repeats_addItem) hstep⟩
  | removeItem thread id =>
    exact ⟨declared, hinv.stepServer (fun _ => ServerProcess.repeats_removeItem) hstep⟩
  | replaceCurrentValue thread id value =>
    exact ⟨declared, hinv.stepServer (fun _ => ServerProcess.repeats_replaceCurrentValue) hstep⟩
  | application thread drop =>
    obtain ⟨p, hp, rfl⟩ := Option.map_eq_some_iff.mp hstep
    rcases ServerProcess.proceed_cases hinv.consistent hp with
      hrepeats | ⟨alloc, new, itemIsCompatible, hcall, huri, himpl, hworker⟩
    · exact ⟨declared, hinv.repeats hrepeats⟩ -- nothing was declared
    · simp only [Careful, hcall] at hcareful -- a new item, whose uri the clients have forgotten
      exact hinv.added huri (hcareful huri).1 (hcareful huri).2 himpl hworker
  | serverReceive client =>
    simp only [Hub.step] at hstep
    split at hstep
    · cases hstep
    · next message toServer hchannel =>
        obtain ⟨p, hp, rfl⟩ := Option.map_eq_some_iff.mp hstep
        exact ⟨declared, (hinv.repeats (ServerProcess.repeats_receive hp)).setPeer
          ((hinv.peers client).toServer toServer)⟩
  | serverReceiver drop =>
    exact ⟨declared, hinv.stepServer (fun _ => ServerProcess.repeats_receiverPush) hstep⟩
  | serverWorker =>
    obtain ⟨⟨message, p⟩, hp, rfl⟩ := Option.map_eq_some_iff.mp hstep
    obtain ⟨hrepeats, hmessage⟩ := ServerProcess.repeats_work hp
    have hserver := hinv.repeats hrepeats
    -- every client is sent what the worker sends
    refine ⟨declared, hserver.consistent, hserver.coherent, hserver.server, ?_⟩
    intro client
    exact (hinv.peers client).send fun d hd => hinv.server d (hmessage hd)
  | clientConnection client drop =>
    simp only [Hub.step] at hstep
    refine ⟨declared, hinv.stepPeer ?_ hstep⟩
    intro peer peer' hsound heq
    split at heq
    · obtain ⟨c, hc, rfl⟩ := Option.map_eq_some_iff.mp heq
      exact hsound.process (ClientProcess.repeats_connect hc)
    · cases heq
  | clientReceive client =>
    exact ⟨declared, hinv.stepPeer (fun _ _ hsound => hsound.receive hinv.coherent) hstep⟩
  | clientWorker client =>
    simp only [Hub.step] at hstep
    refine ⟨declared, hinv.stepPeer ?_ hstep⟩
    intro peer peer' hsound heq
    obtain ⟨⟨message, c⟩, hc, rfl⟩ := Option.map_eq_some_iff.mp heq
    exact (hsound.process (ClientProcess.repeats_work hc)).toServer _
  | clientReplace client thread id value =>
    exact ⟨declared, hinv.stepProcess (fun _ _ => ClientProcess.repeats_replaceCurrentValue) hstep⟩
  | clientCall client thread drop =>
    exact ⟨declared, hinv.stepProcess (fun _ _ => ClientProcess.repeats_proceed) hstep⟩

end Steps

end Inv

/-! ## Every run -/

/-- In every run in which uris are reused only when the clients have forgotten them, and initial
values are equal to themselves, no client ever aborts. -/
theorem no_client_aborts [DecidableEq ι] [DecidableEq γ] (actions : List (Action ι γ))
    (hcareful : Along step Careful init actions) :
    Throughout step (fun h => ∀ client, (h.peers client).aborted = none) init actions := by
  refine throughout_invariant_along (P := fun h => ∃ declared, Inv declared h) ?_ ?_ ⟨_, inv_init⟩
    hcareful
  · rintro h action h' ⟨declared, hinv⟩ hnow hstep
    exact hinv.step hnow hstep
  · rintro h ⟨declared, hinv⟩ client
    exact (hinv.peers client).running

inductive Duo where
  | first
  | second
  deriving DecidableEq

instance : Fintype Duo := ⟨{.first, .second}, fun client => by cases client <;> decide⟩

/-- A client that has attached connects, and the server gets to know that it subscribes. -/
def subscribe (client : Duo) : List (Action Unit Duo) :=
  [.clientConnection client false, .clientConnection client false,
    .clientWorker client, .clientWorker client, .clientWorker client,
    .serverReceive client, .serverReceive client, .serverReceiver false]

/-- The worker takes a subscribe job from the queue and sends the features and one item. -/
def replay : List (Action Unit Duo) :=
  [.serverWorker, .serverWorker, .serverWorker, .serverWorker, .serverWorker]

/-- An item is added, and the first client attaches, subscribes and receives it. -/
def subscribed : List (Action Unit Duo) :=
  [.addItem () ⟨true, true, true, true⟩ (letterItem 65), .application () false,
    .attach .first, .notify true] ++ subscribe .first ++ replay ++
  [.serverWorker, .clientReceive .first, .clientReceive .first]

/-- The item is removed, the removal arrives, and the uri is added again. Then another client comes
and the first one goes. -/
def reused : List (Action Unit Duo) :=
  subscribed ++
  [.removeItem () 1, .application () false, .serverWorker, .serverWorker, .serverWorker,
    .clientReceive .first,
    .addItem () ⟨true, true, true, true⟩ (letterItem 65), .application () false,
    .application () false, .serverWorker, .serverWorker, .serverWorker, .attach .second] ++
  subscribe .second ++ replay ++
  [.clientReceive .first, .clientReceive .first, .clientReceive .first, .detach .first,
    .clientReceive .second, .clientReceive .second]

theorem no_client_aborts_reused :
    (run step init reused).isSome = true ∧ Along step Careful init reused ∧
      Throughout step (fun h => ∀ client, (h.peers client).aborted = none) init reused := by
  have hcareful : Along step Careful init reused := by decide +kernel
  exact ⟨by decide +kernel, hcareful, no_client_aborts reused hcareful⟩

/-- The second client's subscribe job is in the queue when the item is removed and its uri is added
again. -/
def overtaken : List (Action Unit Duo) :=
  subscribed ++ [.attach .second] ++ subscribe .second ++
  [.removeItem () 1, .application () false,
    .addItem () ⟨true, true, true, true⟩ (letterItem 65), .application () false,
    .application () false] ++ replay ++
  [.clientReceive .first, .clientReceive .first]

/-- The subscribe job sends the new item to the first client as well, ahead of the removal of the old
one. -/
theorem replay_overtakes_removal :
    (run step init overtaken).map (fun h => ((h.peers .first).aborted, h.server.impl.queue)) =
      some (some .modelIsInconsistent, [.remove 1, .append 2]) := by
  decide +kernel

end Hub

end TweakTool.App
