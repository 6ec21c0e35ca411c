import TweakTool.App.Client
import TweakTool.App.Server

/-! # Model and index agree

Whatever happens to a server or a client, and whichever allocations fail, the uri index of the
context has exactly the uris of its items. -/

namespace TweakTool.App

open TweakTool.Lib

/-! ## What is done to the tables

Apart from additions, a section leaves the tables alone, sets a current value or removes an item. -/

/-- The updates that add nothing. -/
inductive ModelImpl.Updates (m : ModelImpl) : ModelImpl → Prop where
  | same : Updates m m
  | value (id : TweakId) (value : Variant) : Updates m (m.setCurrentValue id value)
  | removed (id : TweakId) (item : Item) (h : m.model.find? id = some item) :
      Updates m (m.removeItem item id)

namespace ModelImpl.Updates

variable {m m' : ModelImpl}

theorem bijective (h : m.Updates m') (hm : m.Bijective) : m'.Bijective := by
  cases h with
  | same => exact hm
  | value id value => exact hm.setCurrentValue id value
  | removed id item hitem => exact hm.remove hitem

theorem mem_of_mem (h : m.Updates m') {k : TweakId} {item' : Item}
    (hk : m'.model.find? k = some item') : ∃ item, m.model.find? k = some item := by
  cases h with
  | same => exact ⟨item', hk⟩
  | value id value =>
    rw [setCurrentValue_model] at hk
    split at hk
    · next hkid =>
        obtain ⟨item, hitem, _⟩ := Option.map_eq_some_iff.mp hk
        exact ⟨item, hkid ▸ hitem⟩
    · exact ⟨item', hk⟩
  | removed id item hitem =>
    rw [removeItem_model] at hk
    split at hk
    · cases hk
    · exact ⟨item', hk⟩

end ModelImpl.Updates

namespace Context

variable {c : Context}

/-- What the locked part of `tweak_app_server_add_item` does with an id that is not in use. -/
theorem addItemSection_eq (h : c.modelImpl.Bijective) (alloc : Allocations)
    (itemIsCompatible : Bool) {a : AddItem} (hnew : c.find? a.id = none)
    (hid : a.id ≠ tweakInvalidId) :
    c.addItemSection alloc itemIsCompatible a =
      if c.modelImpl.index.find? a.uri = none ∧ alloc.all = true then
        (a.id, itemIsCompatible && c.connected,
          ⟨c.modelImpl.model.insert a.id (.create a), c.modelImpl.index.insert a.uri a.id⟩)
      else (tweakInvalidId, false, c.modelImpl) := by
  rw [addItemSection]
  by_cases huri : c.modelImpl.index.find? a.uri = none
  · rw [if_neg (not_not.mpr ((h.lookup_eq_invalid_iff a.uri).mpr huri)),
      ModelImpl.addItemToModel_eq]
    by_cases halloc : alloc.all = true
    · have hadd : ModelImpl.Addable alloc c.modelImpl a := ⟨hnew, huri, halloc⟩
      have hne : (a.id != tweakInvalidId) = true := bne_iff_ne.mpr hid
      simp only [hadd, huri, halloc, if_true, and_self, hne, Bool.true_and]
    · have hadd : ¬ ModelImpl.Addable alloc c.modelImpl a := fun hadd => halloc hadd.2.2
      simp [hadd, halloc]
  · rw [if_pos (mt (h.lookup_eq_invalid_iff a.uri).mp huri), if_neg (fun hboth => huri hboth.1)]

/-- A replacement adds nothing. -/
theorem itemReplaceCurrentValue_updates (c : Context) (id : TweakId) (value : Variant) :
    c.modelImpl.Updates (c.itemReplaceCurrentValue id value).2.2 := by
  rw [itemReplaceCurrentValue]
  split
  · split
    · exact .same
    · exact .value id value
  · exact .same

/-- A replacement neither adds nor removes an item. -/
theorem isSome_itemReplaceCurrentValue (c : Context) (id : TweakId) (value : Variant) (k : TweakId) :
    ((c.itemReplaceCurrentValue id value).2.2.model.find? k).isSome = (c.find? k).isSome := by
  rw [itemReplaceCurrentValue]
  split
  · split
    · rfl
    · exact c.modelImpl.isSome_setCurrentValue id value k
  · rfl

/-- A removal adds nothing. -/
theorem removeItemSection_updates (c : Context) (id : TweakId) :
    c.modelImpl.Updates (c.removeItemSection id).2.2 := by
  rw [removeItemSection]
  split
  · next item hitem => exact .removed id item hitem
  · exact .same

/-- A change message adds nothing. -/
theorem changeItemSection_updates {id id' : TweakId} {value : Variant} {changed : Bool}
    {m : ModelImpl} (h : c.changeItemSection id value = some (id', changed, m)) :
    c.modelImpl.Updates m := by
  rw [changeItemSection] at h
  split at h
  · split at h
    · cases h
      exact .value id value
    · cases h
      exact .same
  · cases h

end Context

/-! ## Servers -/

namespace Server

/-- Model and index agree, and the ids of the items have been generated. -/
structure Consistent (s : Server) : Prop where
  bijective : s.modelImpl.Bijective
  generated : ∀ k item, s.find? k = some item → k < s.seed
  positive : tweakInvalidId < s.seed

theorem consistent_init : Consistent init where
  bijective := .empty
  generated := fun k item h => nomatch h
  positive := by decide

variable {s s' : Server}

/-- The next id is free. -/
theorem Consistent.find?_seed (h : s.Consistent) : s.find? s.seed = none := by
  cases hseed : s.find? s.seed with
  | none => rfl
  | some item => exact absurd (h.generated _ item hseed) (Nat.lt_irrefl _)

/-- Updates without additions keep the invariant, whatever is pushed. -/
theorem Consistent.updates (h : s.Consistent) (hmodel : s.modelImpl.Updates s'.modelImpl)
    (hseed : s.seed ≤ s'.seed) : s'.Consistent where
  bijective := hmodel.bijective h.bijective
  generated := by
    intro k item' hk
    obtain ⟨item, hitem⟩ := hmodel.mem_of_mem hk
    exact Nat.lt_of_lt_of_le (h.generated k item hitem) hseed
  positive := Nat.lt_of_lt_of_le h.positive hseed

/-- What is pushed after the unlock does not matter to the model. -/
theorem pushed_if (s : Server) (shouldPushChange : Bool) (job : ServerJob) :
    (if shouldPushChange then s.push job else s).toContext = s.toContext ∧
      (if shouldPushChange then s.push job else s).seed = s.seed := by
  cases shouldPushChange <;> exact ⟨rfl, rfl⟩

theorem modelImpl_replace (s : Server) (id : TweakId) (value : Variant) :
    (s.tweakAppItemReplaceCurrentValue id value).2.modelImpl =
        (s.itemReplaceCurrentValue id value).2.2 ∧
      (s.tweakAppItemReplaceCurrentValue id value).2.seed = s.seed := by
  obtain ⟨hcontext, hseed⟩ :=
    pushed_if (s.replaceLocked id value).2.2 (s.replaceLocked id value).2.1 (.change id)
  exact ⟨congrArg Context.modelImpl hcontext, hseed⟩

theorem modelImpl_remove (s : Server) (id : TweakId) :
    (s.tweakAppServerRemoveItem id).2.modelImpl = (s.removeItemSection id).2.2 ∧
      (s.tweakAppServerRemoveItem id).2.seed = s.seed := by
  obtain ⟨hcontext, hseed⟩ :=
    pushed_if (s.removeItemLocked id).2.2 (s.removeItemLocked id).2.1 (.remove id)
  exact ⟨congrArg Context.modelImpl hcontext, hseed⟩

theorem Consistent.replace (h : s.Consistent) (id : TweakId) (value : Variant) :
    (s.tweakAppItemReplaceCurrentValue id value).2.Consistent := by
  obtain ⟨hmodel, hseed⟩ := s.modelImpl_replace id value
  refine h.updates ?_ (Nat.le_of_eq hseed.symm)
  rw [hmodel]
  exact s.itemReplaceCurrentValue_updates id value

theorem Consistent.remove (h : s.Consistent) (id : TweakId) :
    (s.tweakAppServerRemoveItem id).2.Consistent := by
  obtain ⟨hmodel, hseed⟩ := s.modelImpl_remove id
  refine h.updates ?_ (Nat.le_of_eq hseed.symm)
  rw [hmodel]
  exact s.removeItemSection_updates id

def added (s : Server) (new : NewItem) : Server :=
  { s with
    modelImpl := ⟨s.modelImpl.model.insert s.seed (.create (new.withId s.seed)),
      s.modelImpl.index.insert new.uri s.seed⟩
    seed := s.seed + 1 }

theorem find?_added (h : s.Consistent) (new : NewItem) (k : TweakId) :
    (s.added new).find? k =
      if k = s.seed then some (.create (new.withId s.seed)) else s.find? k :=
  Table.find?_insert h.find?_seed ..

/-- The item is added, or nothing happens but that an id may be used up. -/
theorem addItemLocked_eq (h : s.Consistent) (alloc : Allocations) (itemIsCompatible : Bool)
    (new : NewItem) :
    s.addItemLocked alloc itemIsCompatible new =
      if s.modelImpl.index.find? new.uri = none ∧ alloc.all = true then
        (s.seed, itemIsCompatible && s.connected, s.added new)
      else
        (tweakInvalidId, false,
          { s with seed := if s.modelImpl.index.find? new.uri = none then s.seed + 1 else s.seed }) := by
  have hsection := Context.addItemSection_eq h.bijective alloc itemIsCompatible
    (a := new.withId s.seed) h.find?_seed (Nat.ne_of_gt h.positive)
  replace hsection : s.addItemSection alloc _ (new.withId s.seed) =
    if s.modelImpl.index.find? new.uri = none ∧ alloc.all = true then _ else _ := hsection
  simp only [addItemLocked, hsection, h.bijective.lookup_eq_invalid_iff]
  by_cases hadd : s.modelImpl.index.find? new.uri = none ∧ alloc.all = true
  · simp only [hadd, and_self, if_true]
    rfl
  · simp only [hadd, if_false]

/-- The item gets the next id. -/
theorem Consistent.added (h : s.Consistent) {new : NewItem}
    (huri : s.modelImpl.index.find? new.uri = none) : (s.added new).Consistent where
  bijective := by
    have hadd : ModelImpl.Addable ⟨true, true, true, true⟩ s.modelImpl (new.withId s.seed) :=
      ⟨h.find?_seed, huri, rfl⟩
    exact h.bijective.add hadd (Nat.ne_of_gt h.positive)
  generated := by
    intro k item hk
    replace hk : (s.modelImpl.model.insert s.seed _).find? k = some item := hk
    rw [Table.find?_insert h.find?_seed] at hk
    show k < s.seed + 1
    split at hk
    · next hkseed =>
        rw [hkseed]
        exact Nat.lt_succ_self _
    · exact Nat.lt_succ_of_lt (h.generated k item hk)
  positive := Nat.lt_succ_of_lt h.positive

/-- An item that cannot be added uses up one id at most. -/
theorem seed_le_refused (s : Server) (uri : Text) :
    s.seed ≤ if s.modelImpl.index.find? uri = none then s.seed + 1 else s.seed := by
  split
  · exact Nat.le_succ _
  · exact Nat.le_refl _

theorem Consistent.addLocked (h : s.Consistent) (alloc : Allocations) (itemIsCompatible : Bool)
    (new : NewItem) : (s.addItemLocked alloc itemIsCompatible new).2.2.Consistent := by
  rw [addItemLocked_eq h]
  split
  · next hadd => exact h.added hadd.1
  · exact h.updates .same (s.seed_le_refused new.uri)

theorem Consistent.add (h : s.Consistent) (alloc : Allocations) (new : NewItem) :
    (s.tweakAppServerAddItem alloc new).2.Consistent := by
  have hlocked := h.addLocked alloc
    (s.remotePeerFeatures.checkTypeCompatibility new.initialValue.type) new
  simp only [tweakAppServerAddItem]
  split
  · exact ⟨hlocked.bijective, hlocked.generated, hlocked.positive⟩
  · exact hlocked

/-- Every call of the server keeps the tables consistent. -/
theorem Consistent.step {hasCallback : Bool} {call : Call} (h : s.Consistent)
    (hstep : s.step hasCallback call = some s') : s'.Consistent := by
  obtain ⟨⟨response, s''⟩, hperform, rfl⟩ := Option.map_eq_some_iff.mp hstep
  cases call with
  | addItem alloc new =>
    cases hperform
    exact h.add alloc new
  | removeItem id =>
    cases hperform
    exact h.remove id
  | replaceCurrentValue id value =>
    cases hperform
    exact h.replace id value
  | setScalarBool id value =>
    cases hperform
    exact h.replace id _
  | setScalar t id value =>
    cases hperform
    exact h.replace id _
  | setString id string =>
    cases hperform
    exact h.replace id _
  | setVector t id buffer =>
    cases hperform
    show (s.tweakSetVector t id buffer).Consistent
    rw [tweakSetVector]
    split
    · exact h
    · split
      · exact h
      · exact h.replace id _
  | changeItem id value =>
    simp only [perform, changeItemPickleImpl, changeItemLocked, Option.map_map,
      Option.map_eq_some_iff] at hperform
    obtain ⟨⟨id', changed, modelImpl⟩, hsection, heq⟩ := hperform
    cases heq
    exact h.updates (Context.changeItemSection_updates hsection) (Nat.le_refl _)
  | announceFeatures features =>
    cases hperform
    exact h.updates .same (Nat.le_refl _)
  | subscribe =>
    cases hperform
    exact h.updates .same (Nat.le_refl _)
  | connectionState isConnected =>
    cases hperform
    cases isConnected <;> exact h.updates .same (Nat.le_refl _)
  | ioLoop announced walkSuccess =>
    simp only [perform] at hperform
    split at hperform
    · cases hperform
    · cases hperform
      refine h.updates ?_ ?_
      · simp only [ioLoopSubscribe]
        split <;> exact .same
      · simp only [ioLoopSubscribe]
        split <;> exact Nat.le_refl _
    · cases hperform
      exact h.updates .same (Nat.le_refl _)

end Server

/-! ## Clients -/

namespace Client

variable {c c' : Client}

/-- An item is added with its uri, or not at all. -/
theorem clientAddItem_bijective {m m' : ModelImpl} {alloc : Allocations} {a : AddItem}
    (h : m.Bijective) (hadd : m.clientAddItem alloc a = .ok m') : m'.Bijective := by
  simp only [ModelImpl.clientAddItem, ModelImpl.addItemToModel_eq] at hadd
  split at hadd
  · split at hadd
    · cases hadd
    · split at hadd
      · cases hadd
      · split at hadd
        · cases hadd
          exact h
        · cases hadd
          exact h.setCurrentValue _ _
  · by_cases haddable : ModelImpl.Addable alloc m a
    · simp only [haddable, if_true] at hadd
      split at hadd
      · cases hadd
      · next hid =>
          cases hadd
          exact h.add haddable hid
    · simp only [haddable, if_false, if_true] at hadd
      cases hadd

/-- Every call of a client keeps model and index in agreement. -/
theorem bijective_step {call : Call} (h : c.modelImpl.Bijective) (hstep : c.step call = some c') :
    c'.modelImpl.Bijective := by
  cases call with
  | connectionState isConnected =>
    cases hstep
    cases isConnected
    · exact h
    · exact .empty
  | addItem alloc a =>
    simp only [step] at hstep
    split at hstep
    · cases hstep
    · next m' hadd =>
        cases hstep
        exact clientAddItem_bijective h hadd
  | changeItem id value =>
    cases hstep
    show (c.modelImpl.clientChangeItem id value).Bijective
    rw [ModelImpl.clientChangeItem]
    split
    · exact h.setCurrentValue id value
    · exact h
  | removeItem id =>
    cases hstep
    show (c.modelImpl.clientRemoveItem id).Bijective
    rw [ModelImpl.clientRemoveItem]
    split
    · next item hitem => exact h.remove hitem
    · exact h
  | announceFeatures features =>
    cases hstep
    cases features <;> exact h
  | replaceCurrentValue id value =>
    cases hstep
    have hupdates := (c.itemReplaceCurrentValue_updates id value).bijective h
    simp only [replaceCurrentValue]
    split
    · exact h
    · split
      · split
        · split
          · exact hupdates
          · exact hupdates
        · exact h
      · exact h
  | ioLoop =>
    simp only [step] at hstep
    split at hstep
    · cases hstep
    · cases hstep
      exact h

end Client

/-! ## Every run -/

/-- After every run of a server or a client, the index maps a uri to an id exactly if the model has
an item with that id and uri, no two items share a uri, and `tweak_app_find_id` finds the item or
nothing; and `tweak_app_server_add_item` fails exactly if the uri is there or an allocation fails,
and then it changes neither the tables nor the queue. -/
theorem tables_agree :
    (∀ (hasCallback : Bool) (calls : List Server.Call) (s : Server),
      run (Server.step hasCallback) .init calls = some s →
        s.modelImpl.Bijective ∧
        ∀ (alloc : Allocations) (new : NewItem) (id : TweakId) (s' : Server),
          s.tweakAppServerAddItem alloc new = (id, s') →
            (id = tweakInvalidId ↔
              (∃ k item, s.find? k = some item ∧ item.uri = new.uri) ∨ alloc.all = false) ∧
            (id = tweakInvalidId → s'.modelImpl = s.modelImpl ∧ s'.queue = s.queue)) ∧
    (∀ (calls : List Client.Call) (c : Client),
      run Client.step .init calls = some c → c.modelImpl.Bijective) ∧
    ∀ (m : ModelImpl), m.Bijective →
      (∀ k k' item item', m.model.find? k = some item → m.model.find? k' = some item' →
        item.uri = item'.uri → k = k') ∧
      ∀ u, (∃ k item, m.model.find? k = some item ∧ item.uri = u ∧ m.tweakAppFindId u = k) ∨
        (∀ k item, m.model.find? k = some item → item.uri ≠ u) ∧
          m.tweakAppFindId u = tweakInvalidId := by
  refine ⟨?_, ?_, ?_⟩
  · intro hasCallback calls s hrun
    have hs : s.Consistent := run_invariant (fun h hstep => h.step hstep) Server.consistent_init hrun
    refine ⟨hs.bijective, ?_⟩
    intro alloc new id s' hadd
    have huri : s.modelImpl.index.find? new.uri = none ↔
        ¬ ∃ k item, s.find? k = some item ∧ item.uri = new.uri := by
      simp only [Option.eq_none_iff_forall_ne_some, ne_eq, hs.bijective.indexed, not_exists]
      rfl
    simp only [Server.tweakAppServerAddItem, Server.addItemLocked_eq hs] at hadd
    by_cases hadded : s.modelImpl.index.find? new.uri = none ∧ alloc.all = true
    · have hid : id = s.seed := by
        rw [if_pos hadded] at hadd
        exact (Prod.mk.inj hadd).1.symm
      have hne : id ≠ tweakInvalidId := hid ▸ Nat.ne_of_gt hs.positive
      refine ⟨iff_of_false hne ?_, fun h => absurd h hne⟩
      rintro (hpresent | hfailed)
      · exact huri.mp hadded.1 hpresent
      · rw [hadded.2] at hfailed
        cases hfailed
    · rw [if_neg hadded] at hadd
      cases hadd
      refine ⟨iff_of_true rfl ?_, fun _ => ⟨rfl, rfl⟩⟩
      by_cases hpresent : ∃ k item, s.find? k = some item ∧ item.uri = new.uri
      · exact .inl hpresent
      · exact .inr (Bool.eq_false_iff.mpr fun halloc => hadded ⟨huri.mpr hpresent, halloc⟩)
  · intro calls c hrun
    exact run_invariant (fun h hstep => Client.bijective_step h hstep) .empty hrun
  · intro m hm
    exact ⟨fun k k' item item' hk hk' huri => hm.unique hk hk' huri, hm.findId⟩

/-- A bool item whose uri is one letter. -/
def letterItem (letter : UInt8) : NewItem := ⟨[letter], [], [], .bool false⟩

/-- The index pair of the first addition cannot be allocated, and the model pair is taken back; the
third addition finds its uri in use. -/
theorem tables_agree_failed_additions :
    ∃ s, run (Server.step false) .init
        [.addItem ⟨true, true, false, true⟩ (letterItem 65), .addItem ⟨true, true, true, true⟩ (letterItem 65),
          .addItem ⟨true, true, true, true⟩ (letterItem 65), .removeItem 7] = some s ∧
      s.modelImpl.Bijective ∧ s.modelImpl.tweakAppFindId [65] = 2 :=
  ⟨_, rfl, (tables_agree.1 false
    [.addItem ⟨true, true, false, true⟩ (letterItem 65), .addItem ⟨true, true, true, true⟩ (letterItem 65),
      .addItem ⟨true, true, true, true⟩ (letterItem 65), .removeItem 7] _ rfl).1, rfl⟩

end TweakTool.App
