import TweakTool.Common.Stored
import TweakTool.Lib.Table

/-! # Strings for the application

`tweak2.c`, `tweak_get_string`: the text of an item is copied to a buffer of the application. A text
that is too long is to end in three dots. The places of the dots are computed in `size_t` from the size
of the buffer. -/

namespace TweakTool.Tweak2

open TweakTool.Lib TweakTool.Common

/-- Bytes written through a pointer to the buffer. -/
structure BufferWrite where
  offset : Nat
  bytes : Bytes

/-- What a call does: its writes in their order, and what it returns. -/
structure GetString where
  writes : List BufferWrite
  result : Nat

namespace GetString

/-- What is then in a buffer. -/
def contents (call : GetString) (buffer : Bytes) : Bytes :=
  call.writes.foldl (fun block write => blit block write.offset write.bytes) buffer

end GetString

/-- `buffer[size - back] = c`. -/
def writeBack (size back : Nat) (c : UInt8) : BufferWrite :=
  ⟨(size + sizeModulus - back) % sizeModulus, [c]⟩

/-- The writes of `tweak_get_string` for a string. -/
def stringWrites (text : CString) (stringLength size : Nat) : List BufferWrite :=
  -- `strncpy`
  ⟨0, (text.val ++ List.replicate size 0).take size⟩ ::
    if stringLength ≥ size then
      [writeBack size 4 (ascii '.'), writeBack size 3 (ascii '.'), writeBack size 2 (ascii '.'),
        writeBack size 1 0]
    else []

/-- `tweak_get_string`, of a library whose context is not there (`none`) or has the items. A text
without an end is read beyond its storage (`none`). -/
def tweakGetString (lib : CLibrary) (context : Option (Table TweakId StoredVariant)) (id : TweakId)
    (size : Nat) : Option GetString :=
  match context.bind (·.find? id) with
  | some (.string string) => do
    let string := tweakVariantStringCopy lib string
    let text ← tweakVariantStringCStr string
    return ⟨stringWrites text string.length size, string.length⟩
  | some _ | none => some ⟨[], 0⟩

/-! ## The buffer -/

/-- The buffer is respected: nothing is written outside, and what is in it is the text, or the
beginning of it and three dots. -/
structure Respected (call : GetString) (s : CString) (size : Nat) : Prop where
  inside : ∀ write ∈ call.writes, write.offset + write.bytes.length ≤ size
  terminated : ∀ buffer : Bytes, buffer.length = size → 0 ∈ call.contents buffer
  whole : s.val.length + 1 ≤ size → ∀ buffer : Bytes, buffer.length = size →
    Holds (call.contents buffer) s
  shortened : size < s.val.length + 1 → 4 ≤ size → ∀ buffer : Bytes, buffer.length = size →
    call.contents buffer = s.val.take (size - 4) ++ text "..." ++ [0]

/-- What the header says of the return value. -/
structure Documented (call : GetString) (s : CString) (size : Nat) : Prop where
  result : call.result = s.val.length + 1
  exceeds : size < call.result ↔ size < s.val.length + 1

variable {s : CString} {size : Nat}

theorem writeBack_eq {back : Nat} (hback : back ≤ size) (hpos : 0 < back) (hsize : size < sizeModulus)
    (c : UInt8) : writeBack size back c = ⟨size - back, [c]⟩ := by
  rw [writeBack, Nat.add_comm, Nat.add_sub_assoc hback, Nat.add_mod_left, Nat.mod_eq_of_lt (by omega)]

/-- Behind the beginning of the buffer there is nothing. -/
theorem le_offset_writeBack {back : Nat} (hback : size < back) (hlast : back ≤ sizeModulus) (c : UInt8) :
    size ≤ (writeBack size back c).offset := by
  show size ≤ (size + sizeModulus - back) % sizeModulus
  rw [Nat.mod_eq_of_lt (by omega)]
  omega

/-- Whatever was done before, the last byte is written at the end. -/
theorem mem_contents (hpos : 0 < size) (hsize : size < sizeModulus) (hlong : size ≤ s.val.length)
    (result : Nat) {buffer : Bytes} (hbuffer : buffer.length = size) :
    0 ∈ GetString.contents ⟨stringWrites s s.val.length size, result⟩ buffer := by
  rw [GetString.contents, stringWrites, if_pos hlong]
  -- not by `simp`, which would compute `size_t` numbers one by one
  rw [List.foldl_cons, List.foldl_cons, List.foldl_cons, List.foldl_cons, List.foldl_cons,
    List.foldl_nil, writeBack_eq hpos Nat.one_pos hsize, blit_of_le]
  · exact List.mem_append_left _ (List.mem_append_right _ (List.mem_singleton.mpr rfl))
  · rw [length_blit, length_blit, length_blit, length_blit, hbuffer]
    exact Nat.le_of_eq (Nat.sub_add_cancel hpos)

/-- The text is copied, with zeros behind it. -/
theorem contents_whole (hfits : s.val.length + 1 ≤ size) (result : Nat) {buffer : Bytes}
    (hbuffer : buffer.length = size) :
    Holds (GetString.contents ⟨stringWrites s s.val.length size, result⟩ buffer) s := by
  rw [GetString.contents, stringWrites, if_neg (by omega)]
  exact holds_strncpy hfits (Nat.le_of_eq hbuffer.symm)

private theorem contents_shortened (hfour : 4 ≤ size) (hsize : size < sizeModulus)
    (hlong : size ≤ s.val.length) (result : Nat) {buffer : Bytes} (hbuffer : buffer.length = size) :
    GetString.contents ⟨stringWrites s s.val.length size, result⟩ buffer =
      s.val.take (size - 4) ++ text "..." ++ [0] := by
  obtain ⟨start, rfl⟩ : ∃ start, size = start + 4 := ⟨size - 4, by omega⟩
  have hback : ∀ back c, 0 < back → back ≤ 4 →
      writeBack (start + 4) back c = ⟨start + (4 - back), [c]⟩ := by
    intro back c hpos hback
    rw [writeBack_eq (by omega) hpos hsize, Nat.add_sub_assoc hback]
  have hcopied : blit buffer 0 ((s.val ++ List.replicate (start + 4) 0).take (start + 4)) =
      s.val.take (start + 4) := by
    rw [List.take_append_of_le_length hlong, blit_zero (by rw [List.length_take]; omega),
      List.drop_of_length_le (by rw [List.length_take]; omega), List.append_nil]
  have htake : (s.val.take (start + 4)).take start = s.val.take start := by
    rw [List.take_take, Nat.min_eq_left (Nat.le_add_right start 4)]
  have hlength : (s.val.take (start + 4)).length = start + 4 := List.length_take_of_le hlong
  rw [GetString.contents, stringWrites, if_pos hlong, hback 4 _ (by decide) (by decide),
    hback 3 _ (by decide) (by decide), hback 2 _ (by decide) (by decide),
    hback 1 _ (by decide) (by decide)]
  simp only [List.foldl_cons, List.foldl_nil, hcopied]
  generalize s.val.take (start + 4) = block at hlength htake
  -- the four bytes are written one behind the other
  have htwo : blit (blit block start [ascii '.']) (start + 1) [ascii '.'] =
      blit block start (text "..") :=
    blit_blit (by rw [hlength]; exact Nat.add_le_add_left (show 2 ≤ 4 by decide) start)
  have hthree : blit (blit block start (text "..")) (start + 2) [ascii '.'] =
      blit block start (text "...") :=
    blit_blit (by rw [hlength]; exact Nat.add_le_add_left (show 3 ≤ 4 by decide) start)
  have hall : blit (blit block start (text "...")) (start + 3) [0] =
      blit block start (text "..." ++ [0]) :=
    blit_blit (by rw [hlength]; exact Nat.le_refl _)
  show blit (blit (blit (blit block start _) (start + 1) _) (start + 2) _) (start + 3) _ =
    s.val.take start ++ _ ++ _
  rw [htwo, hthree, hall, blit_of_le (by rw [hlength]; exact Nat.le_refl _), htake,
    List.drop_of_length_le (by rw [hlength]; exact Nat.le_refl _), List.append_nil, List.append_assoc]

/-- Dots are written before the buffer if it is too small for them. -/
theorem inside_iff (hpos : 0 < size) (hsize : size < sizeModulus) :
    (∀ write ∈ stringWrites s s.val.length size, write.offset + write.bytes.length ≤ size) ↔
      s.val.length + 1 ≤ size ∨ 4 ≤ size := by
  have hcopy : 0 + ((s.val ++ List.replicate size 0).take size).length ≤ size := by
    rw [List.length_take]
    omega
  by_cases hlong : s.val.length ≥ size
  · rw [stringWrites, if_pos hlong, List.forall_mem_cons]
    constructor
    · rintro ⟨-, hdots⟩
      by_contra hsmall
      rw [not_or] at hsmall
      have hfirst := hdots _ List.mem_cons_self
      have hbehind := le_offset_writeBack (Nat.lt_of_not_le hsmall.2) (by decide) (ascii '.')
      exact absurd (Nat.lt_of_lt_of_le (Nat.lt_succ_of_le hbehind) hfirst) (Nat.lt_irrefl _)
    · intro h
      have hfour : 4 ≤ size := h.resolve_left (by omega)
      refine ⟨hcopy, ?_⟩
      rw [writeBack_eq hfour (by decide) hsize, writeBack_eq (by omega) (by decide) hsize,
        writeBack_eq (by omega) (by decide) hsize, writeBack_eq hpos (by decide) hsize]
      simp only [List.forall_mem_cons, List.length_singleton]
      refine ⟨by omega, by omega, by omega, by omega, ?_⟩
      intro write hwrite
      cases hwrite
  · rw [stringWrites, if_neg hlong, List.forall_mem_singleton]
    exact iff_of_true hcopy (.inl (by omega))

/-- What a call for a string item does. -/
theorem tweakGetString_eq (lib : CLibrary) {items : Table TweakId StoredVariant} {id : TweakId}
    {string : VariantString} (hitem : items.find? id = some (.string string))
    (hstring : Made s string) (size : Nat) :
    tweakGetString lib (some items) id size =
      some ⟨stringWrites s s.val.length size, s.val.length⟩ := by
  have hcopy : Stores (tweakVariantStringCopy lib string) s := (hstring.copied lib).stores
  rw [tweakGetString, Option.bind_some, hitem]
  show (tweakVariantStringCStr (tweakVariantStringCopy lib string)).bind _ = _
  rw [hcopy.implements.text, hcopy.length]
  rfl

/-- The length is returned without the terminator. -/
theorem not_documented (writes : List BufferWrite) (s : CString) (size : Nat) :
    ¬ Documented ⟨writes, s.val.length⟩ s size := by
  rintro ⟨hresult, -⟩
  exact absurd hresult (Nat.ne_of_lt (Nat.lt_succ_self _))

/-- `tweak_get_string` of a string item: exactly when the buffer is respected, and what is returned. -/
theorem tweakGetString_iff (lib : CLibrary) {items : Table TweakId StoredVariant} {id : TweakId}
    {string : VariantString} (hitem : items.find? id = some (.string string))
    (hstring : Made s string) (hpos : 0 < size) (hsize : size < sizeModulus) :
    ∃ call, tweakGetString lib (some items) id size = some call ∧
      (Respected call s size ↔ s.val.length + 1 ≤ size ∨ 4 ≤ size) ∧
      call.result = s.val.length ∧ ¬ Documented call s size ∧
      ((size < call.result ↔ size < s.val.length + 1) ↔ s.val.length ≠ size) := by
  refine ⟨_, tweakGetString_eq lib hitem hstring size,
    ⟨fun h => (inside_iff hpos hsize).mp h.inside, ?_⟩, rfl, not_documented _ s size, ?_⟩
  · intro hfits
    refine ⟨(inside_iff hpos hsize).mpr hfits, ?_, ?_, ?_⟩
    · intro buffer hbuffer
      by_cases hlong : size ≤ s.val.length
      · exact mem_contents hpos hsize hlong _ hbuffer
      · obtain ⟨rest, hrest⟩ := contents_whole (Nat.lt_of_not_le hlong) s.val.length hbuffer
        rw [hrest]
        exact List.mem_append_right _ List.mem_cons_self
    · intro hwhole buffer hbuffer
      exact contents_whole hwhole _ hbuffer
    · intro hlong hfour buffer hbuffer
      exact contents_shortened hfour hsize (Nat.le_of_lt_succ hlong) _ hbuffer
  · show (size < s.val.length ↔ size < s.val.length + 1) ↔ _
    omega

def abc : CString := ⟨text "abc", by decide⟩

def abcItems : Table TweakId StoredVariant :=
  Table.empty.insert 1 (.string (tweakAssignString Strings.zeroLibrary .empty (some abc)))

theorem tweakGetString_abc_eight : ∃ call,
    tweakGetString Strings.zeroLibrary (some abcItems) 1 8 = some call ∧
      (Respected call abc 8 ↔ 3 + 1 ≤ 8 ∨ 4 ≤ 8) ∧ call.result = 3 ∧ ¬ Documented call abc 8 ∧
      ((8 < call.result ↔ 8 < 3 + 1) ↔ 3 ≠ 8) :=
  tweakGetString_iff Strings.zeroLibrary rfl (.assigned Strings.zeroLibrary (some abc) (by decide))
    (by decide) (by decide)

/-- In a buffer for three characters a dot is written before the first one, and the number returned is
not above the size though the text does not fit. -/
theorem tweakGetString_abc_three : ∃ call,
    tweakGetString Strings.zeroLibrary (some abcItems) 1 3 = some call ∧
      ⟨2 ^ 64 - 1, text "."⟩ ∈ call.writes ∧ ¬ Respected call abc 3 ∧
      call.result = 3 ∧ ¬ Documented call abc 3 := by
  refine ⟨_, tweakGetString_eq _ rfl (.assigned Strings.zeroLibrary (some abc) (by decide)) 3, ?_, ?_,
    rfl, not_documented _ abc 3⟩
  · exact List.mem_cons_of_mem _ List.mem_cons_self
  · intro h
    exact absurd ((inside_iff (by decide) (by decide)).mp h.inside) (by decide)

end TweakTool.Tweak2
