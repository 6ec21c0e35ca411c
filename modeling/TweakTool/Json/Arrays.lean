import TweakTool.Json.Reading

/-! # Printed arrays

Arrays whose elements are numbers or again such arrays, as they are printed with a comma and a space
between the elements. They are read as they were printed, unless they are nested too deeply. -/

namespace TweakTool.Json

open TweakTool.Lib

/-- The entries of an array. -/
def Entries.unlabelled : List Value → Entries
  | [] => .nil
  | value :: values => .cons none value (unlabelled values)

/-- The text of a value without strings and objects, and the node that is made of it. -/
structure Printed (s : Text) (value : Value) (node : Node) : Prop where
  spaced : ∀ {tokens : List Token} {rest : Text}, (∀ c ∈ rest.head?, c ∉ numberChars) →
    Spaced tokens rest → Spaced (value.tokens ++ tokens) (s ++ rest)
  formed : value.Formed
  keyed : ∀ stale, value.Keyed stale
  strings : ∀ items, .leaf (.string items) ∉ value.tokens
  toNode : ∀ platform created, value.toNode platform created = node

/-- A number is printed as it is spelled. -/
theorem printed_number {s : Text} (hvalid : (Leaf.number s).Valid) :
    Printed s (.leaf (.number s)) (.number s) where
  spaced := fun hrest h => h.token (.leaf (.number s)) hvalid hrest
  formed := trivial
  keyed := fun _ => trivial
  strings := by
    intro items hmem
    cases List.mem_singleton.mp hmem
  toNode := fun _ _ => rfl

section Elements

variable {ι : Type} {l : List ι} {s : ι → Text} {v : ι → Value} {n : ι → Node}

private theorem formed_unlabelled (h : ∀ i ∈ l, Printed (s i) (v i) (n i)) :
    (Entries.unlabelled (l.map v)).Labels HasLabel .array := by
  induction l with
  | nil => trivial
  | cons i l ih =>
    obtain ⟨hi, hl⟩ := List.forall_mem_cons.mp h
    exact ⟨by rintro ⟨⟩, hi.formed, ih hl⟩

private theorem keyed_unlabelled (h : ∀ i ∈ l, Printed (s i) (v i) (n i)) (stale : Bool) :
    (Entries.unlabelled (l.map v)).Keyed .array stale := by
  induction l generalizing stale with
  | nil => trivial
  | cons i l ih =>
    obtain ⟨hi, hl⟩ := List.forall_mem_cons.mp h
    exact ⟨by rintro - ⟨⟩, hi.keyed _, ih hl _⟩

private theorem strings_unlabelled (h : ∀ i ∈ l, Printed (s i) (v i) (n i)) (items : List Item)
    {before : List Token} (hbefore : Leads before) :
    .leaf (.string items) ∉ (Entries.unlabelled (l.map v)).tokens before := by
  induction l generalizing before with
  | nil => rintro ⟨⟩
  | cons i l ih =>
    obtain ⟨hi, hl⟩ := List.forall_mem_cons.mp h
    simp only [List.map_cons, Entries.unlabelled, Entries.tokens, labelTokens, List.nil_append,
      List.mem_append]
    rintro (hmem | hmem | hmem)
    · rcases hbefore with rfl | rfl <;> simp at hmem
    · exact hi.strings items hmem
    · exact ih hl (.inr rfl) hmem

/-- The elements become the items of the node. -/
theorem addTo_unlabelled (h : ∀ i ∈ l, Printed (s i) (v i) (n i)) (platform : Platform) (created : Nat)
    (nodes : List Node) :
    (Entries.unlabelled (l.map v)).addTo platform created (.array nodes) =
      .array (nodes ++ l.map n) := by
  induction l generalizing created nodes with
  | nil => simp [Entries.unlabelled, Entries.addTo]
  | cons i l ih =>
    obtain ⟨hi, hl⟩ := List.forall_mem_cons.mp h
    rw [List.map_cons, Entries.unlabelled, Entries.addTo, addElement, hi.toNode, ih hl,
      List.append_assoc]
    rfl

/-- The elements after the first one, and the end of the array. -/
def arrayTail (ss : List Text) : Text := ss.flatMap (text ", " ++ ·) ++ text "]"

theorem intercalate_cons (separator first : Text) (ss : List Text) :
    separator.intercalate (first :: ss) = first ++ ss.flatMap (separator ++ ·) := by
  induction ss generalizing first with
  | nil => simp
  | cons next ss ih =>
    rw [List.intercalate_cons_cons, ih, List.flatMap_cons, List.append_assoc, List.append_assoc]

theorem intercalate_arrayTail (first : Text) (ss : List Text) :
    (text ", ").intercalate (first :: ss) ++ text "]" = first ++ arrayTail ss := by
  rw [intercalate_cons, arrayTail, List.append_assoc]

theorem head?_arrayTail (ss : List Text) (rest : Text) :
    ∀ c ∈ (arrayTail ss ++ rest).head?, c ∉ numberChars := by
  cases ss with
  | nil => rintro _ ⟨⟩; decide
  | cons next ss => rintro _ ⟨⟩; decide

/-- The rest of an array has the tokens of its elements. -/
theorem spaced_arrayTail (h : ∀ i ∈ l, Printed (s i) (v i) (n i)) {tokens : List Token} {rest : Text}
    (hrest : Spaced tokens rest) :
    Spaced ((Entries.unlabelled (l.map v)).tokens [.comma] ++ .closing .array :: tokens)
      (arrayTail (l.map s) ++ rest) := by
  induction l with
  | nil => exact hrest.token (.closing .array) trivial trivial
  | cons i l ih =>
    obtain ⟨hi, hl⟩ := List.forall_mem_cons.mp h
    have helement := hi.spaced (head?_arrayTail _ rest) (ih hl)
    have htext : arrayTail ((i :: l).map s) ++ rest =
        ascii ',' :: ascii ' ' :: (s i ++ (arrayTail (l.map s) ++ rest)) := by
      rw [arrayTail, List.map_cons, List.flatMap_cons, arrayTail]
      simp only [List.append_assoc]
      rfl
    have htokens : (Entries.unlabelled ((i :: l).map v)).tokens [.comma] ++ .closing .array :: tokens =
        .comma :: ((v i).tokens ++ ((Entries.unlabelled (l.map v)).tokens [.comma] ++
          .closing .array :: tokens)) := by
      simp [Entries.unlabelled, Entries.tokens, labelTokens]
    rw [htext, htokens]
    exact (helement.space rfl).token .comma trivial trivial

/-- An array of values that are printed is printed. -/
theorem printed_array (h : ∀ i ∈ l, Printed (s i) (v i) (n i)) :
    Printed (text "[" ++ (text ", ").intercalate (l.map s) ++ text "]")
      (.node .array (.unlabelled (l.map v))) (.array (l.map n)) where
  spaced := by
    intro tokens rest hends hrest
    cases l with
    | nil =>
      have hclosing := hrest.token (.closing .array) trivial trivial
      exact hclosing.token (.opening .array) trivial trivial
    | cons i l =>
      obtain ⟨hi, hl⟩ := List.forall_mem_cons.mp h
      have helement := hi.spaced (head?_arrayTail _ rest) (spaced_arrayTail hl hrest)
      have htext : text "[" ++ (text ", ").intercalate ((i :: l).map s) ++ text "]" ++ rest =
          text "[" ++ (s i ++ (arrayTail (l.map s) ++ rest)) := by
        rw [List.append_assoc (text "["), List.map_cons, intercalate_arrayTail]
        simp only [List.append_assoc]
      have htokens : (Value.node .array (.unlabelled ((i :: l).map v))).tokens ++ tokens =
          .opening .array :: ((v i).tokens ++ ((Entries.unlabelled (l.map v)).tokens [.comma] ++
            .closing .array :: tokens)) := by
        simp [Value.tokens, Entries.unlabelled, Entries.tokens, labelTokens]
      rw [htext, htokens]
      exact helement.token (.opening .array) trivial trivial
  formed := formed_unlabelled h
  keyed := fun stale => keyed_unlabelled h _
  strings := by
    intro items hmem
    rw [Value.tokens, List.mem_cons, List.mem_append, List.mem_singleton] at hmem
    rcases hmem with hmem | hmem | hmem
    · cases hmem
    · exact strings_unlabelled h items (.inl rfl) hmem
    · cases hmem
  toNode := by
    intro platform created
    rw [Value.toNode, Kind.type, createNewNode, addTo_unlabelled h, List.nil_append]

end Elements

/-- The parser has room for 64 levels. -/
theorem Printed.tweakJsonParse {s : Text} {value : Value} {node : Node} (h : Printed s value node)
    (platform : Platform) :
    tweakJsonParse platform s = if value.depth < 64 then some node else none := by
  have hspells : Spells s value := by
    have := h.spaced (by rintro c ⟨⟩) (Spaced.nil (w := []) rfl)
    rwa [List.append_nil, List.append_nil] at this
  have hreads : ∀ c ∈ s, platform.Reads c :=
    Spaced.reads hspells fun items hitems => absurd hitems (h.strings items)
  split
  · next hdepth =>
    exact (tweakJsonParse_eq_some_iff hreads).mpr
      ⟨value, hspells, h.formed, h.keyed false, hdepth, (h.toNode platform 0).symm⟩
  · next hdepth =>
    rw [Option.eq_none_iff_forall_ne_some]
    intro document hparse
    obtain ⟨value', hspells', -, -, hdepth', -⟩ := (tweakJsonParse_eq_some_iff hreads).mp hparse
    rw [hspells'.unique hspells] at hdepth'
    exact hdepth hdepth'

end TweakTool.Json
