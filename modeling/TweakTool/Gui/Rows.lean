import TweakTool.Gui.UriTree

/-! # The rows of the user interface

`TweakQmlApp.cpp`: a list model with the items of all connections, and their tree. The client contexts
call adapters, which queue invocations; the thread of the user interface executes them one after the
other, and adds the connections. Here it is followed through any sequence of such calls: what becomes of
the list of rows, of the cache of their positions and of the tree, and what the views make of the
signals. The tree is created with an entry `/Favorites/*`, which is no row.

`removeClient` is left out. It unlocks `lock`, for which its `QReadLocker` is still responsible, and so
releases it a second time at its end. Connection ids are not bounded. -/

namespace TweakTool.Gui

open TweakTool.Lib

structure ConnectionItem where
  name : QString
  connectionId : Int
  contextType : QString
  params : QString
  uri : QString

def invalidClientConnectionId : Int := -1

def TweakControlId.isValid (id : TweakControlId) : Bool :=
  invalidClientConnectionId ≤ id.connectionId && id.tweakId ≠ tweakInvalidId

/-- The id of the entry that the constructor of the tree model adds. -/
def favoritesId : TweakControlId := ⟨-1, tweakInvalidId⟩

/-- What the views of the list are told; where they ask for rows, with the list at that time. -/
inductive RowSignal where
  | rowsInserted (pos : Nat) (rows : List TweakControlId) -- `beginInsertRows` and `endInsertRows`
  | rowsRemoved (pos : Nat) -- `beginRemoveRows` and `endRemoveRows`
  | dataChanged (row : Nat)

/-- What comes from Qt, and from the heap. -/
structure Environment where
  parseUrl : QString → QUrl
  allocator : Allocator

structure ListModel where
  tweakControlIdList : List TweakControlId
  tweakControlIdCache : Table TweakControlId Nat
  treeModel : TweakUriTree
  signals : List RowSignal -- all signals so far

structure TweakApplication where
  seed : Int
  connectionIdList : List ConnectionItem
  model : ListModel

/-! ## Execution -/

namespace ListModel

/-- The rows of a new application, with the constructor of `TweakTreeModel`; `none` if it throws. -/
def init (env : Environment) : Option ListModel :=
  (TweakUriTree.init.addTweak env.allocator (env.parseUrl "/Favorites/*".toList) favoritesId).map
    fun tree => ⟨[], .empty, tree, []⟩

/-- The end of `newItemImpl`; `none` if the tree throws. -/
def addRow (m : ListModel) (allocator : Allocator) (url : QUrl) (id : TweakControlId) :
    Option ListModel :=
  let rows := m.tweakControlIdList ++ [id]
  (m.treeModel.addTweak allocator url id).map fun tree =>
    { m with
      tweakControlIdList := rows
      treeModel := tree
      signals := m.signals ++ [.rowsInserted m.tweakControlIdList.length rows] }

def currentValueChangedImpl (m : ListModel) (id : TweakControlId) : ListModel :=
  match m.tweakControlIdCache.find? id with
  | some listPos => { m with signals := m.signals ++ [.dataChanged listPos] }
  | none =>
    match m.tweakControlIdList.idxOf? id with
    | some listPos =>
      { m with
        tweakControlIdCache := m.tweakControlIdCache.insert id listPos
        signals := m.signals ++ [.dataChanged listPos] }
    | none => m

/-- The views are told before the row is taken out. -/
def itemRemovedImpl (m : ListModel) (id : TweakControlId) : Option ListModel :=
  if id.isValid = false then some m
  else
    match m.tweakControlIdList.idxOf? id with
    | none => some m
    | some pos =>
      (m.treeModel.removeTweak id).map fun tree =>
        { tweakControlIdCache := .empty
          signals := m.signals ++ [.rowsRemoved pos]
          tweakControlIdList := m.tweakControlIdList.eraseIdx pos
          treeModel := tree }

end ListModel

namespace TweakApplication

def init (env : Environment) : Option TweakApplication :=
  (ListModel.init env).map fun model => ⟨0, [], model⟩

/-- The uri of an item in the tree. -/
def itemUrl (env : Environment) (name uri : QString) : QUrl := env.parseUrl ('/' :: (name ++ uri))

def newItemImpl (env : Environment) (a : TweakApplication) (id : TweakControlId) (uri : QString) :
    Option ListModel :=
  if id.isValid = false then some a.model
  else
    match a.connectionIdList.find? (·.connectionId = id.connectionId) with
    | none => some a.model
    | some item => a.model.addRow env.allocator (itemUrl env item.name uri) id

/-- A call of `addClient`, with whether the client context can be created, or an invocation. -/
inductive Action where
  | addClient (name contextType params uri : QString) (created : Bool)
  | statusChanged (connectionId : Int) (isConnected : Bool)
  | newItem (connectionId : Int) (tweakId : TweakId) (uri : QString)
  | currentValueChanged (connectionId : Int) (tweakId : TweakId)
  | itemRemoved (connectionId : Int) (tweakId : TweakId)

/-- `addClient`. A connection with the same parameters is not added again. -/
def addClient (a : TweakApplication) (name contextType params uri : QString) (created : Bool) :
    TweakApplication :=
  if a.connectionIdList.any fun item =>
      contextType = item.contextType && params = item.params && uri = item.uri then a
  else if created then
    { a with
      seed := a.seed + 1
      connectionIdList := a.connectionIdList ++ [⟨name, a.seed + 1, contextType, params, uri⟩] }
  else a

/-- `none` if it throws. -/
def step (env : Environment) (a : TweakApplication) : Action → Option TweakApplication
  | .addClient name contextType params uri created =>
    some (a.addClient name contextType params uri created)
  -- `statusChangedImpl` does nothing
  | .statusChanged _ _ => some a
  | .newItem connectionId tweakId uri =>
    (a.newItemImpl env ⟨connectionId, tweakId⟩ uri).map fun model => { a with model := model }
  | .currentValueChanged connectionId tweakId =>
    some { a with model := a.model.currentValueChangedImpl ⟨connectionId, tweakId⟩ }
  | .itemRemoved connectionId tweakId =>
    (a.model.itemRemovedImpl ⟨connectionId, tweakId⟩).map fun model => { a with model := model }

end TweakApplication

/-! ## What is to be shown -/

/-- What becomes of the calls: the clients in the order in which they were added, and the items that
have come and not gone, each with its path in the tree. -/
structure Account where
  clients : List (QString × QString × QString × QString)
  live : Live

namespace Account

open TweakApplication (Action itemUrl)

variable (env : Environment)

def itemPath (name uri : QString) : Path := (splitPathFromUri (itemUrl env name uri)).dropLast

def init : Account where
  clients := []
  live := Function.update Live.empty favoritesId
    (some (splitPathFromUri (env.parseUrl "/Favorites/*".toList)).dropLast)

/-- Clients are numbered from one. -/
def name? (c : Account) (connectionId : Int) : Option QString :=
  if 0 < connectionId then (c.clients[connectionId.toNat - 1]?).map Prod.fst else none

def apply (c : Account) : Action → Account
  | .addClient name contextType params uri created =>
    if created ∧ (contextType, params, uri) ∉ c.clients.map Prod.snd then
      { c with clients := c.clients ++ [(name, contextType, params, uri)] }
    else c
  | .newItem connectionId tweakId uri =>
    match c.name? connectionId with
    | none => c
    | some name =>
      if tweakId = tweakInvalidId then c
      else
        { c with live := Function.update c.live ⟨connectionId, tweakId⟩ (some (itemPath env name uri)) }
  | .itemRemoved connectionId tweakId =>
    if tweakId = tweakInvalidId then c
    else { c with live := Function.update c.live ⟨connectionId, tweakId⟩ none }
  | .statusChanged _ _ | .currentValueChanged _ _ => c

/-- An item is not new if it is shown already, and its uri has a component. -/
def Legal (c : Account) : Action → Prop
  | .newItem connectionId tweakId uri => ∀ name ∈ c.name? connectionId, tweakId ≠ tweakInvalidId →
    c.live ⟨connectionId, tweakId⟩ = none ∧ splitPathFromUri (itemUrl env name uri) ≠ []
  | _ => True

instance (c : Account) : (action : Action) → Decidable (c.Legal env action)
  | .newItem connectionId _ _ => inferInstanceAs (Decidable (∀ name ∈ c.name? connectionId, _))
  | .addClient .. | .statusChanged .. | .currentValueChanged .. | .itemRemoved .. => .isTrue trivial

end Account

/-! ## Views -/

/-- The rows of a view after a signal. -/
def RowSignal.apply (view : List TweakControlId) : RowSignal → List TweakControlId
  | .rowsInserted pos rows =>
    match rows[pos]? with
    | some id => view.insertIdx pos id
    | none => view
  | .rowsRemoved pos => view.eraseIdx pos
  | .dataChanged _ => view

/-- The rows of a view that has followed all signals. -/
def followed (signals : List RowSignal) : List TweakControlId := signals.foldl RowSignal.apply []

theorem followed_concat (signals : List RowSignal) (signal : RowSignal) :
    followed (signals ++ [signal]) = signal.apply (followed signals) := List.foldl_concat ..

theorem idxOf?_eq_some_idxOf {rows : List TweakControlId} {id : TweakControlId} (h : id ∈ rows) :
    rows.idxOf? id = some (rows.idxOf id) := by
  cases hpos : rows.idxOf? id with
  | none => exact absurd h (List.idxOf?_eq_none_iff.mp hpos)
  | some pos => rw [List.idxOf_eq_getD_idxOf?, hpos, Option.getD_some]

/-- In a list without duplicates a position is known by the id that is there. -/
theorem idxOf?_eq_some_iff {rows : List TweakControlId} (hnodup : rows.Nodup) {id : TweakControlId}
    {pos : Nat} : rows.idxOf? id = some pos ↔ rows[pos]? = some id := by
  constructor
  · intro h
    obtain ⟨hlt, hget, _⟩ := List.idxOf?_eq_some_iff.mp h
    exact List.getElem?_eq_some_iff.mpr ⟨hlt, hget⟩
  · intro h
    obtain ⟨hlt, hget⟩ := List.getElem?_eq_some_iff.mp h
    rw [← hget, idxOf?_eq_some_idxOf (List.getElem_mem hlt), hnodup.idxOf_getElem]

namespace ListModel

/-- The rows are the live tweaks of the tree but for the favorites, each of them once; the cache knows
positions, and the views know the rows. -/
structure Shows (m : ListModel) (live : Live) : Prop where
  nodup : m.tweakControlIdList.Nodup
  cached : ∀ {id pos}, m.tweakControlIdCache.find? id = some pos → m.tweakControlIdList[pos]? = some id
  tree : m.treeModel.Follows live
  listed : ∀ id, id ∈ m.tweakControlIdList ↔ live id ≠ none ∧ id ≠ favoritesId
  followed : followed m.signals = m.tweakControlIdList

theorem not_isValid_favoritesId : favoritesId.isValid = false := by decide

private theorem exists_shows_init (env : Environment)
    (hfavorites : splitPathFromUri (env.parseUrl "/Favorites/*".toList) ≠ []) :
    ∃ m, init env = some m ∧ m.Shows (Account.init env).live := by
  have hlegal : Live.empty.Legal (.addTweak env.allocator (env.parseUrl "/Favorites/*".toList)
      favoritesId) := ⟨hfavorites, rfl⟩
  obtain ⟨tree, hadd, htree⟩ := TweakUriTree.follows_step TweakUriTree.follows_init hlegal
  replace hadd : TweakUriTree.init.addTweak env.allocator (env.parseUrl "/Favorites/*".toList)
    favoritesId = some tree := hadd
  refine ⟨⟨[], .empty, tree, []⟩, by rw [init, hadd, Option.map_some], List.nodup_nil,
    by rintro _ _ ⟨⟩, htree, fun id => iff_of_false List.not_mem_nil ?_, rfl⟩
  rintro ⟨hlive, hid⟩
  exact hlive (Function.update_of_ne hid _ _)

variable {m : ListModel} {live : Live} {id : TweakControlId}

private theorem Shows.addRow (h : m.Shows live) (allocator : Allocator) {url : QUrl}
    (hurl : splitPathFromUri url ≠ []) (hvalid : id.isValid = true) (hnew : live id = none) : ∃ m',
      m.addRow allocator url id = some m' ∧
      m'.Shows (Function.update live id (some (splitPathFromUri url).dropLast)) := by
  have hlegal : live.Legal (.addTweak allocator url id) := ⟨hurl, hnew⟩
  obtain ⟨tree, hadd, htree⟩ := TweakUriTree.follows_step h.tree hlegal
  replace hadd : m.treeModel.addTweak allocator url id = some tree := hadd
  have hfresh : id ∉ m.tweakControlIdList := by
    rw [h.listed]
    exact fun hlive => hlive.1 hnew
  have hid : id ≠ favoritesId := by
    rintro rfl
    rw [not_isValid_favoritesId] at hvalid
    cases hvalid
  simp only [ListModel.addRow, hadd, Option.map_some, Option.some.injEq]
  refine ⟨_, rfl, ?_, ?_, htree, ?_, ?_⟩
  · exact h.nodup.append (List.nodup_singleton _) (List.disjoint_singleton.mpr hfresh)
  · intro k pos hpos
    have hold := h.cached hpos
    rw [List.getElem?_append_left (List.getElem?_eq_some_iff.mp hold).1]
    exact hold
  · intro k
    rw [List.mem_append, List.mem_singleton, Function.update_apply, h.listed]
    by_cases hk : k = id <;> simp [hk, hid]
  · show Gui.followed (m.signals ++ [_]) = _
    rw [followed_concat, h.followed, RowSignal.apply, List.getElem?_concat_length]
    exact List.insertIdx_length_self

private theorem Shows.itemRemovedImpl (h : m.Shows live) (hvalid : id.isValid = true) :
    ∃ m', m.itemRemovedImpl id = some m' ∧ m'.Shows (Function.update live id none) := by
  have hid : id ≠ favoritesId := by
    rintro rfl
    rw [not_isValid_favoritesId] at hvalid
    cases hvalid
  rw [ListModel.itemRemovedImpl, if_neg (by rw [hvalid]; decide)]
  by_cases hlive : live id = none
  · have hmissing : m.tweakControlIdList.idxOf? id = none := by
      rw [List.idxOf?_eq_none_iff, h.listed]
      exact fun hlisted => hlisted.1 hlive
    rw [hmissing, ← hlive, Function.update_eq_self]
    exact ⟨m, rfl, h⟩
  · have hlegal : live.Legal (.removeTweak id) := hlive
    obtain ⟨tree, hremove, htree⟩ := TweakUriTree.follows_step h.tree hlegal
    replace hremove : m.treeModel.removeTweak id = some tree := hremove
    have herase : m.tweakControlIdList.eraseIdx (m.tweakControlIdList.idxOf id) =
        m.tweakControlIdList.erase id := (List.erase_eq_eraseIdx_of_idxOf rfl).symm
    simp only [idxOf?_eq_some_idxOf ((h.listed _).mpr ⟨hlive, hid⟩), hremove, Option.map_some,
      Option.some.injEq]
    refine ⟨_, rfl, ?_, by rintro _ _ ⟨⟩, htree, ?_, ?_⟩
    · rw [herase]
      exact h.nodup.erase _
    · intro k
      rw [herase, h.nodup.mem_erase_iff, h.listed, Function.update_apply]
      by_cases hk : k = id <;> simp [hk]
    · show Gui.followed (m.signals ++ [_]) = _
      rw [followed_concat, h.followed, RowSignal.apply]

/-- A new value is reported for the row that shows the item, and for no row if there is none. -/
theorem Shows.currentValueChangedImpl (h : m.Shows live) :
    (m.currentValueChangedImpl id).Shows live ∧ (m.currentValueChangedImpl id).signals =
      m.signals ++ ((m.tweakControlIdList.idxOf? id).map RowSignal.dataChanged).toList := by
  have hfollowed (pos : Nat) : Gui.followed (m.signals ++ [.dataChanged pos]) =
      m.tweakControlIdList := by
    rw [followed_concat]
    exact h.followed
  rw [ListModel.currentValueChangedImpl]
  split
  · next pos hcache =>
      rw [(idxOf?_eq_some_iff h.nodup).mpr (h.cached hcache)]
      exact ⟨⟨h.nodup, h.cached, h.tree, h.listed, hfollowed pos⟩, rfl⟩
  · next hcache =>
      split
      · next pos hpos =>
          rw [hpos]
          refine ⟨⟨h.nodup, ?_, h.tree, h.listed, hfollowed pos⟩, rfl⟩
          intro k at' hfind
          replace hfind : (m.tweakControlIdCache.insert id pos).find? k = some at' := hfind
          rw [Table.find?_insert hcache] at hfind
          split at hfind
          · next hk =>
              cases hfind
              rw [hk]
              exact (idxOf?_eq_some_iff h.nodup).mp hpos
          · exact h.cached hfind
      · next hpos =>
          rw [hpos]
          exact ⟨h, (List.append_nil _).symm⟩

/-- What is seen of the rows: each live item is one of them, and so is nothing else; the tree holds the
live items and the favorites; a view that has followed the signals has the rows; and a new value is
reported for the row of its item. -/
structure Shown (m : ListModel) (live : Live) : Prop where
  nodup : m.tweakControlIdList.Nodup
  listed : ∀ id, id ∈ m.tweakControlIdList ↔ live id ≠ none ∧ id ≠ favoritesId
  tree : m.treeModel.Holds live
  followed : followed m.signals = m.tweakControlIdList
  changed : ∀ id, (m.currentValueChangedImpl id).signals =
    m.signals ++ ((m.tweakControlIdList.idxOf? id).map RowSignal.dataChanged).toList

private theorem Shows.shown (h : m.Shows live) : m.Shown live :=
  ⟨h.nodup, h.listed, h.tree.holds, h.followed, fun _ => h.currentValueChangedImpl.2⟩

end ListModel

/-! ## Runs -/

namespace TweakApplication

/-- The connection of the client that was added after `i` others. -/
def connection (i : Nat) (client : QString × QString × QString × QString) : ConnectionItem :=
  ⟨client.1, i + 1, client.2.1, client.2.2.1, client.2.2.2⟩

/-- The connections are the clients with their numbers, and the rows show what is live. -/
structure Follows (a : TweakApplication) (c : Account) : Prop where
  seed : a.seed = c.clients.length
  connections : a.connectionIdList = c.clients.mapIdx connection
  model : a.model.Shows c.live
  valid : ∀ id, c.live id ≠ none → id = favoritesId ∨ id.isValid = true

variable {env : Environment} {a : TweakApplication} {c : Account}

/-- One item has come or gone. -/
theorem Follows.update (h : a.Follows c) {model : ListModel} {id : TweakControlId} {path : Option Path}
    (hvalid : id.isValid = true) (hmodel : model.Shows (Function.update c.live id path)) :
    Follows { a with model := model } { c with live := Function.update c.live id path } := by
  refine ⟨h.seed, h.connections, hmodel, fun k hk => ?_⟩
  by_cases hkid : k = id
  · exact .inr (hkid ▸ hvalid)
  · exact h.valid k (by rwa [← Function.update_of_ne hkid path c.live])

theorem find?_mapIdx_connection (clients : List (QString × QString × QString × QString)) (k : Nat)
    (connectionId : Int) :
    ((clients.mapIdx fun i => connection (i + k)).find? (·.connectionId = connectionId)).map
        ConnectionItem.name =
      if k < connectionId then (clients[connectionId.toNat - 1 - k]?).map Prod.fst else none := by
  induction clients generalizing k with
  | nil => simp
  | cons client clients ih =>
    have hrest : (clients.mapIdx fun i => connection (i + 1 + k)) =
        clients.mapIdx fun i => connection (i + (k + 1)) := by
      simp only [Nat.add_assoc, Nat.add_comm 1 k]
    rw [List.mapIdx_cons, List.find?_cons, Nat.zero_add]
    by_cases hid : (k : Int) + 1 = connectionId
    · have hindex : connectionId.toNat - 1 - k = 0 := by omega
      have hlt : (k : Int) < connectionId := by omega
      simp [connection, hid, hlt, hindex]
    · have hnext : (connection k client).connectionId ≠ connectionId := hid
      simp only [hnext, decide_false, hrest, ih]
      by_cases hlt : (k : Int) < connectionId
      · have hindex : connectionId.toNat - 1 - k = connectionId.toNat - 1 - (k + 1) + 1 := by omega
        rw [if_pos hlt, if_pos (by omega), hindex, List.getElem?_cons_succ]
      · rw [if_neg hlt, if_neg (by omega)]

/-- A connection is found by the number of the client. -/
theorem Follows.find?_connection (h : a.Follows c) (connectionId : Int) :
    (a.connectionIdList.find? (·.connectionId = connectionId)).map ConnectionItem.name =
      c.name? connectionId := by
  rw [h.connections, Account.name?]
  exact find?_mapIdx_connection c.clients 0 connectionId

/-- A new client has no rows yet. -/
theorem Follows.addClient (h : a.Follows c) (name contextType params uri : QString) (created : Bool) :
    (a.addClient name contextType params uri created).Follows
      (c.apply env (.addClient name contextType params uri created)) := by
  have hknown : (a.connectionIdList.any fun item =>
      contextType = item.contextType && params = item.params && uri = item.uri) = true ↔
      (contextType, params, uri) ∈ c.clients.map Prod.snd := by
    rw [h.connections, List.any_eq_true, List.mem_map]
    simp only [List.mem_mapIdx, Bool.and_eq_true, decide_eq_true_eq, connection]
    constructor
    · rintro ⟨_, ⟨i, hi, rfl⟩, ⟨rfl, rfl⟩, rfl⟩
      exact ⟨_, List.getElem_mem hi, rfl⟩
    · rintro ⟨client, hmem, hclient⟩
      obtain ⟨i, hi, rfl⟩ := List.getElem_of_mem hmem
      rw [Prod.ext_iff, Prod.ext_iff] at hclient
      exact ⟨_, ⟨i, hi, rfl⟩, ⟨hclient.1.symm, hclient.2.1.symm⟩, hclient.2.2.symm⟩
  rw [TweakApplication.addClient, Account.apply]
  by_cases hmem : (contextType, params, uri) ∈ c.clients.map Prod.snd
  · rw [if_pos (hknown.mpr hmem), if_neg fun hnew => hnew.2 hmem]
    exact h
  · rw [if_neg (mt hknown.mp hmem)]
    cases created with
    | false => exact h
    | true =>
      rw [if_pos rfl, if_pos ⟨rfl, hmem⟩]
      refine ⟨?_, ?_, h.model, h.valid⟩
      · show a.seed + 1 = ((c.clients ++ [_]).length : Nat)
        rw [h.seed, List.length_append, List.length_singleton]
        omega
      · show a.connectionIdList ++ [_] = (c.clients ++ [_]).mapIdx connection
        rw [List.mapIdx_concat, h.connections, h.seed]
        rfl

/-- An item of a client that was added is valid unless its id is. -/
theorem isValid_eq {connectionId : Int} (hpos : 0 < connectionId) (tweakId : TweakId) :
    TweakControlId.isValid ⟨connectionId, tweakId⟩ = decide (tweakId ≠ tweakInvalidId) := by
  rw [TweakControlId.isValid, decide_eq_true (show invalidClientConnectionId ≤ connectionId by
    rw [invalidClientConnectionId]; omega), Bool.true_and]

/-- A new item is a new row. -/
theorem Follows.newItem {connectionId : Int} {tweakId : TweakId} {uri : QString} (h : a.Follows c)
    (hlegal : c.Legal env (.newItem connectionId tweakId uri)) :
    ∃ a', step env a (.newItem connectionId tweakId uri) = some a' ∧
      a'.Follows (c.apply env (.newItem connectionId tweakId uri)) := by
  have hfind := h.find?_connection connectionId
  simp only [step, newItemImpl, Account.apply]
  cases hitem : a.connectionIdList.find? (·.connectionId = connectionId) with
  | none =>
    rw [hitem, Option.map_none] at hfind
    rw [← hfind, ite_self]
    exact ⟨a, rfl, h⟩
  | some item =>
    rw [hitem, Option.map_some] at hfind
    have hpos : 0 < connectionId := by
      by_contra hneg
      rw [Account.name?, if_neg hneg] at hfind
      cases hfind
    rw [← hfind, isValid_eq hpos]
    by_cases hid : tweakId = tweakInvalidId
    · rw [if_pos (by simp [hid])]
      simp only [if_pos hid]
      exact ⟨a, rfl, h⟩
    · obtain ⟨hnew, hurl⟩ := hlegal item.name hfind.symm hid
      have hvalid := (isValid_eq hpos tweakId).trans (decide_eq_true hid)
      obtain ⟨m, hadd, hshows⟩ := h.model.addRow env.allocator hurl hvalid hnew
      rw [if_neg (by simp [hid])]
      simp only [if_neg hid, hadd, Option.map_some]
      exact ⟨_, rfl, h.update hvalid hshows⟩

private theorem Follows.itemRemoved (h : a.Follows c) (connectionId : Int) (tweakId : TweakId) :
    ∃ a', step env a (.itemRemoved connectionId tweakId) = some a' ∧
      a'.Follows (c.apply env (.itemRemoved connectionId tweakId)) := by
  simp only [step, Account.apply]
  by_cases hvalid : TweakControlId.isValid ⟨connectionId, tweakId⟩ = true
  · obtain ⟨m, hremove, hshows⟩ := h.model.itemRemovedImpl hvalid
    have hid : tweakId ≠ tweakInvalidId := by
      rw [TweakControlId.isValid, Bool.and_eq_true, decide_eq_true_eq, decide_eq_true_eq] at hvalid
      exact hvalid.2
    simp only [hremove, if_neg hid, Option.map_some]
    exact ⟨_, rfl, h.update hvalid hshows⟩
  · rw [ListModel.itemRemovedImpl, if_pos (Bool.eq_false_iff.mpr hvalid)]
    refine ⟨a, rfl, ?_⟩
    split
    · exact h
    · next hid =>
        have hnone : c.live ⟨connectionId, tweakId⟩ = none := by
          by_contra hlive
          rcases h.valid _ hlive with hfavorites | hlive
          · cases hfavorites
            exact hid rfl
          · exact hvalid hlive
        rw [← hnone, Function.update_eq_self]
        exact h

private theorem follows_step {action : Action} (h : a.Follows c) (hlegal : c.Legal env action) :
    ∃ a', step env a action = some a' ∧ a'.Follows (c.apply env action) := by
  cases action with
  | addClient name contextType params uri created => exact ⟨_, rfl, h.addClient ..⟩
  | statusChanged connectionId isConnected => exact ⟨a, rfl, h⟩
  | currentValueChanged connectionId tweakId =>
    exact ⟨_, rfl, h.seed, h.connections, h.model.currentValueChangedImpl.1, h.valid⟩
  | itemRemoved connectionId tweakId => exact h.itemRemoved connectionId tweakId
  | newItem connectionId tweakId uri => exact h.newItem hlegal

/-- **The rows of the user interface.** No legal sequence of calls makes it throw, and the rows, the tree
and the views show the items that have come and not gone. -/
theorem rows_follow_calls (env : Environment)
    (hfavorites : splitPathFromUri (env.parseUrl "/Favorites/*".toList) ≠ []) (actions : List Action)
    (hlegal : Along (fun c action => some (Account.apply env c action)) (Account.Legal env)
      (Account.init env) actions) :
    ∃ a₀ a, init env = some a₀ ∧ run (step env) a₀ actions = some a ∧
      a.model.Shown (actions.foldl (Account.apply env) (Account.init env)).live := by
  obtain ⟨m, hm, hshows⟩ := ListModel.exists_shows_init env hfavorites
  have hstart : Follows ⟨0, [], m⟩ (Account.init env) := by
    refine ⟨rfl, rfl, hshows, fun id hid => ?_⟩
    by_contra hother
    exact hid (Function.update_of_ne (fun h => hother (.inl h)) _ _)
  obtain ⟨a, hrun, hfollows⟩ := run_total_simulation follows_step hstart hlegal
  exact ⟨_, a, by rw [init, hm, Option.map_some], hrun, hfollows.model.shown⟩

/-- Uris are paths. -/
def plainEnvironment : Environment := ⟨fun path => ⟨true, path⟩, .next⟩

/-- Two clients have items with the same id; one of them goes, and the other gets a value. -/
def twoClients : List Action :=
  [.addClient "a".toList [] [] "u".toList true, .addClient "b".toList [] [] "u".toList true,
    .addClient "b".toList [] [] "v".toList true, .newItem 1 7 "/x/y".toList, .newItem 2 7 "/x/y".toList,
    .newItem 2 8 "/x/z".toList, .currentValueChanged 2 8, .itemRemoved 1 7]

theorem rows_follow_calls_twoClients :
    ∃ a₀ a, init plainEnvironment = some a₀ ∧ run (step plainEnvironment) a₀ twoClients = some a ∧
      a.model.tweakControlIdList = [⟨2, 7⟩, ⟨2, 8⟩] ∧
      (a.model.currentValueChangedImpl ⟨2, 8⟩).signals = a.model.signals ++ [.dataChanged 1] := by
  have hlegal : Along (fun c action => some (Account.apply plainEnvironment c action))
      (Account.Legal plainEnvironment) (Account.init plainEnvironment) twoClients := by
    decide +kernel
  obtain ⟨a₀, a, hinit, hrun, hshown⟩ :=
    rows_follow_calls plainEnvironment (by decide) twoClients hlegal
  have hrows : ((init plainEnvironment).bind fun a => run (step plainEnvironment) a twoClients).map
      (·.model.tweakControlIdList) = some [⟨2, 7⟩, ⟨2, 8⟩] := by decide +kernel
  rw [hinit, Option.bind_some, hrun, Option.map_some, Option.some.injEq] at hrows
  refine ⟨a₀, a, hinit, hrun, hrows, ?_⟩
  rw [hshown.changed, hrows]
  rfl

end TweakApplication

end TweakTool.Gui
