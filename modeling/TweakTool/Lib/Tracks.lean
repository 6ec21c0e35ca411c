import TweakTool.Lib.Feed

/-! # Copies that are fed

A copy of a map, the events on their way to it, and behind them the jobs of the owner that are not
executed yet. Owner and copy may give an entry another value at any time; `token` has the keys for
which a message that settles the value is still to come. `Tracks` relates all of these, and the rules
after it say what either side may do. When nothing is under way any more, the copy is the map. -/

namespace TweakTool.Lib

variable {K A B U : Type} [DecidableEq K]

structure Tracks (name : A → U) (copy owner : View K A B) (sent : List (Event K A B))
    (jobs : List (Job K)) (token : K → Prop) : Prop where
  /-- Nothing that arrives contradicts what is there. -/
  fits : FitsAll name copy (sent ++ feed owner jobs)
  declared : (copy.after (sent ++ feed owner jobs)).outline = owner.outline
  values : ∀ k, ¬ token k → copy.after (sent ++ feed owner jobs) k = owner k
  /-- What the owner has is not going to be removed. -/
  kept : ∀ k, owner k ≠ none → .remove k ∉ sent ∧ .remove k ∉ jobs
  nodup : jobs.Nodup

namespace Tracks

variable {name : A → U} {copy owner : View K A B} {sent : List (Event K A B)} {jobs : List (Job K)}
  {token token' : K → Prop} {k : K}

/-- All entries are sent to somebody who has none. -/
theorem feed_append_all {keys : List K} (hkeys : keys.Nodup)
    (hnames : ∀ k k' entry entry', owner k = some entry → owner k' = some entry' →
      name entry.1 = name entry'.1 → k = k') {v : View K A B}
    (hv : ∀ k entry, v k = some entry → owner k = some entry ∧ k ∉ keys) :
    FitsAll name v (feed owner (keys.map .append)) ∧
      ∀ k, v.after (feed owner (keys.map .append)) k = if k ∈ keys then owner k else v k := by
  -- the entries that have been added are entries of the owner, and none of them is added again
  induction keys generalizing v with
  | nil => exact ⟨trivial, fun k => (if_neg List.not_mem_nil).symm⟩
  | cons k keys ih =>
    rw [List.nodup_cons] at hkeys
    have hnew : v k = none := by
      rw [Option.eq_none_iff_forall_ne_some]
      intro entry hentry
      exact (hv k entry hentry).2 List.mem_cons_self
    rw [List.map_cons, feed_cons]
    cases hk : owner k with
    | none =>
      rw [events_append_none hk]
      obtain ⟨hfits, hafter⟩ := ih hkeys.2 fun k' entry' hk' =>
        ⟨(hv k' entry' hk').1, fun hmem => (hv k' entry' hk').2 (List.mem_cons_of_mem _ hmem)⟩
      refine ⟨hfits, fun k' => ?_⟩
      rw [List.nil_append, hafter]
      by_cases hkk' : k' = k
      · rw [hkk', if_neg hkeys.1, if_pos List.mem_cons_self, hnew, hk]
      · simp [hkk']
    | some entry =>
      rw [events_append_some hk]
      have hv' : ∀ k' entry', Function.update v k (some entry) k' = some entry' →
          owner k' = some entry' ∧ k' ∉ keys := by
        intro k' entry' hk'
        by_cases hkk' : k' = k
        · rw [hkk', Function.update_self] at hk'
          cases hk'
          exact ⟨hkk' ▸ hk, hkk' ▸ hkeys.1⟩
        · rw [Function.update_of_ne hkk'] at hk'
          exact ⟨(hv k' entry' hk').1,
            fun hmem => (hv k' entry' hk').2 (List.mem_cons_of_mem _ hmem)⟩
      obtain ⟨hfits, hafter⟩ := ih hkeys.2 hv'
      refine ⟨⟨⟨hnew, ?_⟩, hfits⟩, fun k' => ?_⟩
      · intro k' entry' hk' hsame
        obtain ⟨howner, hmem⟩ := hv k' entry' hk'
        exact hmem (hnames k' k entry' entry howner hk hsame ▸ List.mem_cons_self)
      · refine (hafter k').trans ?_
        by_cases hkk' : k' = k
        · rw [hkk', if_neg hkeys.1, if_pos List.mem_cons_self, Function.update_self, hk]
        · simp [hkk']

/-- The copy is empty, and the jobs append all that the owner has. -/
theorem start {keys : List K} (hkeys : keys.Nodup) (hall : ∀ k, owner k ≠ none → k ∈ keys)
    (hnames : ∀ k k' entry entry', owner k = some entry → owner k' = some entry' →
      name entry.1 = name entry'.1 → k = k') :
    Tracks name (fun _ => none) owner [] (keys.map .append) token := by
  obtain ⟨hfits, hafter⟩ := feed_append_all (v := fun _ => none) hkeys hnames
    fun k entry h => nomatch h
  have heq : View.after (fun _ => none) (feed owner (keys.map .append)) = owner := by
    funext k
    rw [hafter]
    split
    · rfl
    · next hk => exact (not_not.mp (mt (hall k) hk)).symm
  refine ⟨hfits, congrArg View.outline heq, fun k _ => congrFun heq k, ?_, ?_⟩
  · intro k _
    refine ⟨List.not_mem_nil, fun hmem => ?_⟩
    obtain ⟨k', _, hk'⟩ := List.mem_map.mp hmem
    cases hk'
  · exact hkeys.map fun k k' h => by
      cases h
      rfl

/-- The token may always be given to more keys. -/
theorem mono (h : Tracks name copy owner sent jobs token) (htoken : ∀ k, token k → token' k) :
    Tracks name copy owner sent jobs token' :=
  { h with values := fun k hk => h.values k (mt (htoken k) hk) }

/-- What the owner does not have needs no token. -/
theorem forget (h : Tracks name copy owner sent jobs token) (hk : owner k = none)
    (htoken : ∀ k', token k' → k' = k ∨ token' k') : Tracks name copy owner sent jobs token' := by
  refine { h with values := fun k' hk' => ?_ }
  by_cases hkk' : k' = k
  · rw [hkk', hk, ← View.outline_eq_none, h.declared]
    exact View.outline_eq_none.mpr hk
  · exact h.values k' fun htok => (htoken k' htok).elim hkk' hk'

/-- The next event arrives. -/
theorem fits_head {e : Event K A B} (h : Tracks name copy owner (e :: sent) jobs token) :
    Fits name copy e := h.fits.1

/-- The first event arrives. -/
theorem deliver {e : Event K A B} (h : Tracks name copy owner (e :: sent) jobs token) :
    Tracks name (copy.apply e) owner sent jobs token where
  fits := h.fits.2
  declared := h.declared
  values := h.values
  kept := fun k hk => ⟨fun hmem => (h.kept k hk).1 (List.mem_cons_of_mem _ hmem), (h.kept k hk).2⟩
  nodup := h.nodup

/-- What both sides have stays there. -/
theorem deliver_ne_none {e : Event K A B} (h : Tracks name copy owner (e :: sent) jobs token)
    (howner : owner k ≠ none) (hcopy : copy k ≠ none) : copy.apply e k ≠ none := by
  unfold View.apply
  by_cases hk : k = e.key
  · rw [← hk, Function.update_self]
    cases e with
    | add k' entry => exact Option.some_ne_none _
    | change k' value => exact mt Option.map_eq_none_iff.mp hcopy
    | remove k' =>
      cases hk
      exact absurd List.mem_cons_self (h.kept _ howner).1
  · rw [Function.update_of_ne hk]
    exact hcopy

/-- The next job is executed. -/
theorem take {job : Job K} (h : Tracks name copy owner sent (job :: jobs) token) :
    Tracks name copy owner (sent ++ job.events owner) jobs token := by
  have hevents : sent ++ job.events owner ++ feed owner jobs = sent ++ feed owner (job :: jobs) := by
    rw [feed_cons, List.append_assoc]
  constructor
  · rw [hevents]
    exact h.fits
  · rw [hevents]
    exact h.declared
  · rw [hevents]
    exact h.values
  · intro k hk
    obtain ⟨hsent, hjobs⟩ := h.kept k hk
    rw [List.mem_cons, not_or] at hjobs
    refine ⟨?_, hjobs.2⟩
    rw [List.mem_append, not_or]
    refine ⟨hsent, fun hmem => ?_⟩
    cases job with
    | remove k' =>
      cases List.mem_singleton.mp hmem
      exact hjobs.1 rfl
    | append k' =>
      obtain ⟨entry, _, hentry⟩ := List.mem_map.mp hmem
      cases hentry
  · exact h.nodup.of_cons

/-- The owner tells the present value of an entry. -/
theorem change (h : Tracks name copy owner sent jobs token) {entry : A × B}
    (hk : owner k = some entry) (htoken : ∀ k', token k' → k' = k ∨ token' k') :
    Tracks name copy owner (sent ++ [.change k entry.2]) jobs token' := by
  have hafter : copy.after (sent ++ [.change k entry.2] ++ feed owner jobs) =
      ((copy.after sent).modify k entry.2).after (feed owner jobs) := by
    rw [View.after_append, View.after_append]
    rfl
  have hdeclared :
      (copy.after (sent ++ [.change k entry.2] ++ feed owner jobs)).outline = owner.outline := by
    rw [hafter, View.outline_after_modify, ← View.after_append]
    exact h.declared
  refine ⟨?_, hdeclared, ?_, ?_, h.nodup⟩
  · obtain ⟨hsent, hjobs⟩ := fitsAll_append.mp h.fits
    rw [List.append_assoc, fitsAll_append]
    exact ⟨hsent, trivial, (fitsAll_modify k entry.2).mpr hjobs⟩
  · intro k' hk'
    by_cases hkk' : k' = k
    · -- the entry is there, and whatever is still to come for it has the present value
      subst hkk'
      have hthere := congrFun hdeclared k'
      rw [(View.outline_eq_some (a := entry.1)).mpr ⟨entry.2, hk⟩] at hthere
      obtain ⟨value, hvalue⟩ := View.outline_eq_some.mp hthere
      have hsettled : value = entry.2 := by
        rw [hafter] at hvalue
        refine after_feed_value jobs hk ?_ _ hvalue
        intro old hold
        rw [View.modify_self, Option.map_eq_some_iff] at hold
        obtain ⟨_, _, rfl⟩ := hold
        rfl
      rw [hvalue, hk, hsettled]
    · rw [hafter, View.after_congr _ (View.modify_of_ne hkk' ..), ← View.after_append]
      exact h.values k' fun htok => (htoken k' htok).elim hkk' hk'
  · intro k' hk'
    refine ⟨fun hmem => ?_, (h.kept k' hk').2⟩
    rw [List.mem_append, List.mem_singleton] at hmem
    rcases hmem with hmem | hmem
    · exact (h.kept k' hk').1 hmem
    · cases hmem

/-- The owner adds an entry and a job to tell of it. -/
theorem insert (h : Tracks name copy owner sent jobs token) (entry : A × B) (hk : owner k = none)
    (hname : ∀ k' entry', owner k' = some entry' → name entry'.1 ≠ name entry.1)
    (happend : .append k ∉ jobs) (hremove : .remove k ∉ sent ∧ .remove k ∉ jobs) :
    Tracks name copy (Function.update owner k (some entry)) sent (jobs ++ [.append k]) token := by
  have hfeed : feed (Function.update owner k (some entry)) (jobs ++ [.append k]) =
      feed owner jobs ++ [.add k entry] := by
    rw [feed_append, feed_update happend, feed_cons, events_append_some (Function.update_self ..)]
    rfl
  have hafter : copy.after (sent ++ (feed owner jobs ++ [.add k entry])) =
      Function.update (copy.after (sent ++ feed owner jobs)) k (some entry) := by
    rw [← List.append_assoc, View.after_append]
    rfl
  refine ⟨?_, ?_, ?_, ?_, ?_⟩ -- the event of the new job comes last
  · rw [hfeed, ← List.append_assoc, fitsAll_append]
    refine ⟨h.fits, ⟨?_, ?_⟩, trivial⟩
    · rw [← View.outline_eq_none, h.declared]
      exact View.outline_eq_none.mpr hk
    · intro k' entry' hk'
      have hthere := View.outline_eq_some.mpr ⟨entry'.2, hk'⟩
      rw [h.declared] at hthere
      obtain ⟨value, hvalue⟩ := View.outline_eq_some.mp hthere
      exact hname k' (entry'.1, value) hvalue
  · rw [hfeed, hafter, View.outline_update, View.outline_update, h.declared]
  · intro k' hk'
    rw [hfeed, hafter]
    by_cases hkk' : k' = k
    · rw [hkk', Function.update_self, Function.update_self]
    · rw [Function.update_of_ne hkk', Function.update_of_ne hkk']
      exact h.values k' hk'
  · intro k' hk'
    rw [List.mem_append, List.mem_singleton, not_or]
    by_cases hkk' : k' = k
    · rw [hkk']
      exact ⟨hremove.1, hremove.2, fun hmem => nomatch hmem⟩
    · rw [Function.update_of_ne hkk'] at hk'
      exact ⟨(h.kept k' hk').1, (h.kept k' hk').2, fun hmem => nomatch hmem⟩
  · rw [← List.concat_eq_append]
    exact h.nodup.concat happend

/-- The owner removes an entry. Jobs that were to append it will do nothing. -/
theorem erase (h : Tracks name copy owner sent jobs token) (hk : owner k ≠ none) :
    Tracks name copy (Function.update owner k none) sent (jobs ++ [.remove k]) token := by
  have hafter : copy.after (sent ++ feed (Function.update owner k none) (jobs ++ [.remove k])) =
      Function.update (copy.after (sent ++ feed (Function.update owner k none) jobs)) k none := by
    rw [feed_append, ← List.append_assoc, View.after_append]
    rfl
  -- the jobs that append the entry are the only ones that now do something else
  have hother {k' : K} (hk' : k' ≠ k) :
      copy.after (sent ++ feed (Function.update owner k none) jobs) k' =
        copy.after (sent ++ feed owner jobs) k' := by
    rw [View.after_append, View.after_append]
    exact after_feed_congr jobs rfl (Function.update_of_ne hk' ..)
  refine ⟨?_, ?_, ?_, ?_, ?_⟩
  · obtain ⟨hsent, hjobs⟩ := fitsAll_append.mp h.fits
    rw [feed_append, fitsAll_append, fitsAll_append]
    exact ⟨hsent, hjobs.erase (fun _ _ => rfl) (.inr rfl), trivial, trivial⟩
  · rw [hafter, View.outline_update, View.outline_update]
    funext k'
    by_cases hkk' : k' = k
    · rw [hkk', Function.update_self, Function.update_self]
    · rw [Function.update_of_ne hkk', Function.update_of_ne hkk', ← h.declared, View.outline,
        View.outline, hother hkk']
  · intro k' hk'
    rw [hafter]
    by_cases hkk' : k' = k
    · rw [hkk', Function.update_self, Function.update_self]
    · rw [Function.update_of_ne hkk', Function.update_of_ne hkk', hother hkk']
      exact h.values k' hk'
  · intro k' hk'
    have hkk' : k' ≠ k := by
      rintro rfl
      exact hk' (Function.update_self ..)
    rw [Function.update_of_ne hkk'] at hk'
    refine ⟨(h.kept k' hk').1, fun hmem => ?_⟩
    rw [List.mem_append, List.mem_singleton] at hmem
    rcases hmem with hmem | hmem
    · exact (h.kept k' hk').2 hmem
    · cases hmem
      exact hkk' rfl
  · rw [← List.concat_eq_append]
    exact h.nodup.concat (h.kept k hk).2

/-- The owner gives an entry another value, and the token. -/
theorem modify (h : Tracks name copy owner sent jobs token) (value : B)
    (htoken : ∀ k', token k' → token' k') (hk : token' k) :
    Tracks name copy (owner.modify k value) sent jobs token' := by
  -- jobs tell of the new value, and of the same declarations
  have houtline : (sent ++ feed (owner.modify k value) jobs).map Event.outline =
      (sent ++ feed owner jobs).map Event.outline := by
    rw [List.map_append, List.map_append, feed_outline (owner.outline_modify k value)]
  refine ⟨?_, ?_, ?_, ?_, h.nodup⟩
  · rw [← fitsAll_outline, houtline, fitsAll_outline]
    exact h.fits
  · rw [View.outline_after, houtline, ← View.outline_after, View.outline_modify]
    exact h.declared
  · intro k' hk'
    have hkk' : k' ≠ k := by
      rintro rfl
      exact hk' hk
    have hsame := View.modify_of_ne hkk' owner value
    rw [hsame, View.after_append, after_feed_congr jobs rfl hsame, ← View.after_append]
    exact h.values k' (mt (htoken k') hk')
  · intro k' hk'
    apply h.kept
    rw [ne_eq, ← View.outline_eq_none, View.outline_modify, View.outline_eq_none] at hk'
    exact hk'

/-- An entry of the copy gets another value. -/
theorem modify_copy (h : Tracks name copy owner sent jobs token) (value : B)
    (htoken : ∀ k', token k' → token' k') (hk : token' k) :
    Tracks name (copy.modify k value) owner sent jobs token' := by
  refine ⟨(fitsAll_modify k value).mpr h.fits, ?_, ?_, h.kept, h.nodup⟩
  · rw [View.outline_after_modify]
    exact h.declared
  · intro k' hk'
    have hkk' : k' ≠ k := by
      rintro rfl
      exact hk' hk
    rw [View.after_congr _ (View.modify_of_ne hkk' ..)]
    exact h.values k' (mt (htoken k') hk')

/-- Nothing is under way. -/
theorem eq (h : Tracks name copy owner [] [] token) (htoken : ∀ k, ¬ token k) : copy = owner :=
  funext fun k => h.values k (htoken k)

end Tracks

end TweakTool.Lib
