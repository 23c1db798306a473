import Typography.Proofs.Text.Trim

/-!
# Texts as bytes

In UTF-8 a character takes one to four bytes, so an offset in bytes may fall inside a
character. A text is cut at the offsets that do not, `cutAtByte?_eq_some_iff`. Lower case is
a matter of single bytes all the same, `bytes_map_toLower`: only letters of ASCII have it, and
the bytes of any other character are above those of ASCII.
-/

namespace Typography.Text

/-- The bytes of a text in UTF-8. -/
def bytes (cs : List Char) : List UInt8 :=
  cs.flatMap String.utf8EncodeChar

/-- A byte in lower case, if it is a letter of ASCII. -/
def lowerByte (b : UInt8) : UInt8 :=
  if 65 ≤ b ∧ b ≤ 90 then b + 32 else b

/-- An offset in bytes that stands between two characters of a text, or at an end of it. -/
abbrev IsBoundary (cs : List Char) (offset : Nat) : Prop :=
  String.Pos.Raw.IsValid (String.ofList cs) ⟨offset⟩

/-- Cuts a text at an offset in bytes. There is no cut inside a character or behind the end. -/
def cutAtByte? (cs : List Char) (offset : Nat) : Option (List Char × List Char) :=
  if h : IsBoundary cs offset then
    let pos := (String.ofList cs).pos ⟨offset⟩ h
    some (((String.ofList cs).sliceTo pos).copy.toList,
      ((String.ofList cs).sliceFrom pos).copy.toList)
  else none

@[simp] theorem bytes_append (cs cs' : List Char) : bytes (cs ++ cs') = bytes cs ++ bytes cs' :=
  List.flatMap_append

theorem toByteArray_bytes (cs : List Char) :
    (bytes cs).toByteArray = (String.ofList cs).toByteArray :=
  String.toByteArray_ofList.symm

theorem length_bytes (cs : List Char) : (bytes cs).length = (String.ofList cs).utf8ByteSize := by
  rw [← String.size_toByteArray, ← toByteArray_bytes, List.size_toByteArray]

/-- A text is known by its bytes. -/
theorem bytes_inj {cs cs' : List Char} : bytes cs = bytes cs' ↔ cs = cs' := by
  constructor
  · intro h
    have harray := congrArg List.toByteArray h
    rw [toByteArray_bytes, toByteArray_bytes, String.toByteArray_inj] at harray
    exact String.ofList_injective harray
  · rintro rfl
    rfl

/-- A text is cut where the bytes before the offset are those of its front. -/
theorem cutAtByte?_eq_some_iff {cs front tail : List Char} {offset : Nat} :
    cutAtByte? cs offset = some (front, tail) ↔
      cs = front ++ tail ∧ (bytes front).length = offset := by
  unfold cutAtByte?
  constructor
  · intro h
    split at h
    · rename_i hboundary
      have hsplits := ((String.ofList cs).pos ⟨offset⟩ hboundary).splits
      obtain ⟨rfl, rfl⟩ := Prod.mk.inj (Option.some.inj h)
      constructor
      · rw [← String.toList_append, ← hsplits.eq_append, String.toList_ofList]
      · rw [length_bytes, String.ofList_toList, ← String.byteIdx_rawEndPos,
          ← hsplits.offset_eq_rawEndPos, String.offset_pos]
    · cases h
  · rintro ⟨rfl, rfl⟩
    have happend : String.ofList (front ++ tail) = String.ofList front ++ String.ofList tail :=
      String.ofList_append
    have hoffset : (⟨(bytes front).length⟩ : String.Pos.Raw) = (String.ofList front).rawEndPos := by
      rw [length_bytes]
      rfl
    have hboundary : IsBoundary (front ++ tail) (bytes front).length :=
      String.Pos.Raw.isValid_iff_exists_append.mpr ⟨_, _, happend, hoffset⟩
    rw [dif_pos hboundary]
    obtain ⟨hfront, htail⟩ := ((String.ofList (front ++ tail)).pos _ hboundary).splits.eq
      ⟨happend, String.offset_pos.trans hoffset⟩
    simp only [hfront, htail, String.toList_ofList]

theorem isSome_cutAtByte?_iff {cs : List Char} {offset : Nat} :
    (cutAtByte? cs offset).isSome ↔ IsBoundary cs offset := by
  unfold cutAtByte?
  split <;> simp_all

/-- The second byte of a character is no place for a cut. -/
example : cutAtByte? ['é', '!'] 1 = none := by decide +kernel

theorem lowerByte_eq_self {b : UInt8} (h : ¬(65 ≤ b.toNat ∧ b.toNat ≤ 90)) : lowerByte b = b :=
  if_neg h

theorem toNat_lowerByte {b : UInt8} (h : 65 ≤ b.toNat ∧ b.toNat ≤ 90) :
    (lowerByte b).toNat = b.toNat + 32 := by
  have hif : lowerByte b = b + 32 := if_pos h
  rw [hif, UInt8.toNat_add]
  exact Nat.mod_eq_of_lt (by simp; omega)

theorem le_toNat_or (x : UInt8) {lead : UInt8} (h : 128 ≤ lead.toNat) :
    128 ≤ (x ||| lead).toNat := by
  rw [UInt8.toNat_or]
  exact h.trans Nat.right_le_or

/-- The bytes of a character outside ASCII are none of ASCII. -/
theorem le_toNat_of_mem_utf8EncodeChar {c : Char} (hc : 128 ≤ c.toNat) :
    ∀ b ∈ String.utf8EncodeChar c, 128 ≤ b.toNat := by
  have hsmall : ¬c.val ≤ 0x7f := fun hle => absurd (hc.trans hle) (by decide)
  rw [String.utf8EncodeChar_eq_utf8EncodeCharFast, String.utf8EncodeCharFast, if_neg hsmall]
  intro b hb
  -- two, three or four bytes, each with its highest bit set
  split at hb
  · simp only [List.mem_cons, List.not_mem_nil, or_false] at hb
    rcases hb with rfl | rfl <;> exact le_toNat_or _ (by decide)
  · split at hb <;> simp only [List.mem_cons, List.not_mem_nil, or_false] at hb
    · rcases hb with rfl | rfl | rfl <;> exact le_toNat_or _ (by decide)
    · rcases hb with rfl | rfl | rfl | rfl <;> exact le_toNat_or _ (by decide)

theorem utf8EncodeChar_of_lt {c : Char} (hc : c.toNat < 128) :
    String.utf8EncodeChar c = [c.val.toUInt8] :=
  String.utf8EncodeChar_eq_singleton (if_pos (Nat.le_of_lt_succ hc))

theorem utf8EncodeChar_toLower (c : Char) :
    String.utf8EncodeChar c.toLower = (String.utf8EncodeChar c).map lowerByte := by
  by_cases hc : c.toNat < 128
  · rw [utf8EncodeChar_of_lt hc]
    have hbyte : c.val.toUInt8.toNat = c.toNat := Nat.mod_eq_of_lt (by omega : c.toNat < 256)
    by_cases hupper : 65 ≤ c.toNat ∧ c.toNat ≤ 90
    · have hlower := toNat_toLower hupper
      have hbyte' : c.toLower.val.toUInt8.toNat = c.toLower.toNat :=
        Nat.mod_eq_of_lt (by omega : c.toLower.toNat < 256)
      rw [utf8EncodeChar_of_lt (by omega), List.map_singleton, List.singleton_inj,
        ← UInt8.toNat_inj, toNat_lowerByte (by omega), hbyte', hbyte, hlower]
    · rw [toLower_eq_self hupper, utf8EncodeChar_of_lt hc, List.map_singleton,
        lowerByte_eq_self (by omega)]
  · have hself : ∀ b ∈ String.utf8EncodeChar c, lowerByte b = id b := fun b hb => by
      have := le_toNat_of_mem_utf8EncodeChar (Nat.le_of_not_lt hc) b hb
      exact lowerByte_eq_self (by omega)
    rw [toLower_eq_self (by omega), List.map_congr_left hself, List.map_id]

/-- Lower case is a matter of single bytes. -/
theorem bytes_map_toLower (cs : List Char) :
    bytes (cs.map Char.toLower) = (bytes cs).map lowerByte := by
  simp only [bytes, List.flatMap_map, List.map_flatMap, utf8EncodeChar_toLower]

end Typography.Text
