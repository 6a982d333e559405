import MFile.Source.Text

/-!
Decoding and encoding. Bytes that some text encodes to are read as that text, less the mark in front
of it; any others are read byte by byte. Either way the bytes can be had back from what is read.
-/

namespace MFile.SourceText

variable {settings : Settings} {cs : List Char} {bytes : ByteArray} {text : String}

def markBytes : List UInt8 := [0xEF, 0xBB, 0xBF]

def encoded (cs : List Char) : List UInt8 := cs.flatMap String.utf8EncodeChar

/-! ## Bytes -/

theorem toList_bytes (bytes : ByteArray) : bytes.toList = bytes.data.toList := by
  have hloop : ∀ (i : Nat) (seen : List UInt8),
      ByteArray.toList.loop bytes i seen = seen.reverse ++ bytes.data.toList.drop i := by
    intro i seen
    fun_induction ByteArray.toList.loop bytes i seen with
    | case1 i seen hi ih =>
      have hlength : i < bytes.data.toList.length := hi
      have hget : bytes.get! i = bytes.data.toList[i] := getElem!_pos bytes.data i hi
      rw [ih, List.drop_eq_getElem_cons hlength, List.reverse_cons, List.append_assoc,
        List.singleton_append, hget]
    | case2 i seen hi =>
      rw [List.drop_eq_nil_of_le (Nat.le_of_not_lt hi), List.append_nil]
  exact hloop 0 []

theorem toByteArray_eq_iff {l : List UInt8} : l.toByteArray = bytes ↔ l = bytes.toList := by
  rw [toList_bytes, ByteArray.ext_iff, ← Array.toList_inj, List.toList_data_toByteArray]

theorem toByteArray_encoded (text : String) :
    (encoded text.toList).toByteArray = text.toByteArray :=
  String.utf8Encode_toList

theorem fromUTF8?_eq_some_iff :
    String.fromUTF8? bytes = some text ↔ encoded text.toList = bytes.toList := by
  rw [← toByteArray_eq_iff, toByteArray_encoded, String.fromUTF8?]
  constructor
  · intro h
    split at h
    · cases h
      rfl
    · cases h
  · rintro rfl
    rw [dif_pos text.isValidUTF8]
    rfl

theorem fromUTF8?_eq_none_iff :
    String.fromUTF8? bytes = none ↔ ∀ cs, encoded cs ≠ bytes.toList := by
  rw [String.fromUTF8?]
  constructor
  · intro h cs hcs
    split at h
    · cases h
    · rename_i hinvalid
      exact hinvalid ⟨cs, (toByteArray_eq_iff.2 hcs).symm⟩
  · intro h
    refine dif_neg ?_
    rintro ⟨cs, hcs⟩
    exact h cs (toByteArray_eq_iff.1 hcs.symm)

theorem encoded_of_prefix (h : markBytes <+: encoded cs) : ∃ rest, cs = '\ufeff' :: rest := by
  obtain ⟨more, hmore⟩ := h
  cases cs with
  | nil => cases hmore
  | cons c rest =>
    have hmark : (c :: rest).utf8Encode =
        (String.utf8EncodeChar '\ufeff').toByteArray ++ more.toByteArray := by
      change (encoded (c :: rest)).toByteArray = _
      rw [← hmore, List.toByteArray_append]
      rfl
    have hfirst := List.utf8DecodeChar?_utf8Encode_cons (l := rest) (c := c)
    rw [hmark, ByteArray.utf8DecodeChar?_utf8EncodeChar_append] at hfirst
    cases hfirst
    exact ⟨rest, rfl⟩

theorem dropMark_of_not_prefix (h : ¬ markBytes <+: encoded cs) : dropMark cs = cs := by
  cases cs with
  | nil => rfl
  | cons c rest =>
    refine if_neg ?_
    rintro rfl
    exact h (List.prefix_append markBytes (encoded rest))

/-! ## Reading -/

/-- What has been read from bytes in UTF-8: they encode its text, behind the mark if there is one,
and it is what their text is read as. -/
structure IsUtf8 (source : SourceText) (name : String) (bytes : List UInt8) (settings : Settings) :
    Prop where
  text : bytes = (if markBytes <+: bytes then markBytes else []) ++ encoded source.text.toList
  decoded : ∃ text, encoded text.toList = bytes ∧ source = ofString name text settings

/-- What has been read from bytes that are no text in UTF-8: one character for each byte. -/
structure IsLatin1 (source : SourceText) (bytes : List UInt8) : Prop where
  invalid : ∀ cs, encoded cs ≠ bytes
  codes : source.text.toList.map (·.toNat) = bytes.map (·.toNat)
  back : source.text.toList.map (·.toNat.toUInt8) = bytes

theorem text_build (name : String) (text : String) (encoding : Encoding)
    (hkeep : ∀ width ∈ settings.tabWidth, width = 0) :
    (build name text encoding settings).text.toList = dropMark text.toList := by
  have hstops : tabStops settings (dropMark text.toList) = none := by
    rw [tabStops, Option.filter_eq_none_iff]
    intro width hwidth h
    rw [hkeep width hwidth] at h
    cases h
  have htext : (build name text encoding settings).text =
      String.ofList ((tabStops settings (dropMark text.toList)).elim (dropMark text.toList)
        (Text.expandTabsFrom · 0 (dropMark text.toList))) := rfl
  rw [htext, hstops, String.toList_ofList]
  rfl

theorem isUtf8_build (name : String) (hkeep : ∀ width ∈ settings.tabWidth, width = 0)
    (h : encoded text.toList = bytes.toList) :
    (build name text .utf8 settings).IsUtf8 name bytes.toList settings := by
  refine ⟨?_, text, h, rfl⟩
  rw [text_build name text .utf8 hkeep, ← h]
  by_cases hmark : markBytes <+: encoded text.toList
  · obtain ⟨rest, hrest⟩ := encoded_of_prefix hmark
    rw [if_pos hmark, hrest]
    rfl
  · rw [if_neg hmark, dropMark_of_not_prefix hmark]
    rfl

theorem latin1_toList (bytes : ByteArray) :
    (latin1 bytes).toList.map (·.toNat) = bytes.toList.map (·.toNat) := by
  have hbyte : ∀ b : UInt8, (Char.ofNat b.toNat).toNat = b.toNat := by
    intro b
    have hb := b.toNat_lt
    have hvalid : b.toNat.isValidChar := .inl (by omega)
    rw [Char.ofNat, dif_pos hvalid]
    rfl
  rw [latin1, String.toList_ofList, List.map_map]
  exact List.map_congr_left fun b _ => hbyte b

theorem dropMark_latin1 (bytes : ByteArray) :
    dropMark (latin1 bytes).toList = (latin1 bytes).toList := by
  cases hchars : (latin1 bytes).toList with
  | nil => rfl
  | cons c rest =>
    refine if_neg ?_
    rintro rfl
    have hcodes := latin1_toList bytes
    rw [hchars] at hcodes
    obtain ⟨b, -, hb⟩ : ∃ b ∈ bytes.toList, b.toNat = '\ufeff'.toNat :=
      List.mem_map.1 (hcodes ▸ List.mem_cons_self)
    have hlt := b.toNat_lt
    rw [hb] at hlt
    exact absurd hlt (by decide)

theorem isLatin1_build (name : String) (hkeep : ∀ width ∈ settings.tabWidth, width = 0)
    (h : ∀ cs, encoded cs ≠ bytes.toList) :
    (build name (latin1 bytes) .latin1 settings).IsLatin1 bytes.toList := by
  have hcodes := latin1_toList bytes
  refine ⟨h, ?_, ?_⟩ <;> rw [text_build name _ .latin1 hkeep, dropMark_latin1]
  · exact hcodes
  · calc (latin1 bytes).toList.map (·.toNat.toUInt8)
        = ((latin1 bytes).toList.map (·.toNat)).map Nat.toUInt8 := by rw [List.map_map]; rfl
      _ = (bytes.toList.map (·.toNat)).map Nat.toUInt8 := by rw [hcodes]
      _ = bytes.toList := by
        rw [List.map_map]
        exact (List.map_congr_left fun b _ => UInt8.ofNat_toNat).trans (List.map_id _)

/-- Where tabs stay as they are, what is read from bytes tells which bytes they were. -/
theorem ofBytes_lossless (name : String) (bytes : ByteArray)
    (hkeep : ∀ width ∈ settings.tabWidth, width = 0) :
    ((ofBytes name bytes settings).encoding = .utf8 →
      (ofBytes name bytes settings).IsUtf8 name bytes.toList settings) ∧
    ((ofBytes name bytes settings).encoding = .latin1 →
      (ofBytes name bytes settings).IsLatin1 bytes.toList) := by
  rw [ofBytes]
  split
  · rename_i text htext
    exact ⟨fun _ => isUtf8_build name hkeep (fromUTF8?_eq_some_iff.1 htext), nofun⟩
  · rename_i hnone
    exact ⟨nofun, fun _ => isLatin1_build name hkeep (fromUTF8?_eq_none_iff.1 hnone)⟩

/-- A mark with a letter behind it is text; without its last byte it is none. -/
theorem ofBytes_lossless_marks : (∀ width ∈ (none : Option Nat), width = 0) ∧
    (ofBytes "t.m" ⟨#[0xEF, 0xBB, 0xBF, 0x78]⟩ { tabWidth := none }).IsUtf8 "t.m"
      [0xEF, 0xBB, 0xBF, 0x78] { tabWidth := none } ∧
    (ofBytes "t.m" ⟨#[0xEF, 0xBB, 0x78]⟩ { tabWidth := none }).IsLatin1 [0xEF, 0xBB, 0x78] := by
  let settings : Settings := { tabWidth := none }
  have hkeep : ∀ width ∈ settings.tabWidth, width = 0 := nofun
  have htext := (ofBytes_lossless "t.m" ⟨#[0xEF, 0xBB, 0xBF, 0x78]⟩ hkeep).1 (by decide)
  have hbytes := (ofBytes_lossless "t.m" ⟨#[0xEF, 0xBB, 0x78]⟩ hkeep).2 (by decide)
  rw [toList_bytes] at htext hbytes
  exact ⟨hkeep, htext, hbytes⟩

end MFile.SourceText
