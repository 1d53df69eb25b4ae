import ArcticPlatform.WeightSync.Model

/-!
# Weight sync: the metadata of a bucket

Main results:

- Theorem `parseMeta_writeMeta`: what is written to a meta buffer is read back.
- Theorem `readEntry_toJson`: the fields that the receiver reads from an entry.
- Theorem `bucketMetaNbytes_false`: the flag of a bucket that is not the last
  one takes one byte more.
-/

namespace ArcticPlatform.WeightSync

open PyJson Slices List

/-! ## The length prefix -/

theorem length_littleEndian (width n : Nat) : (littleEndian width n).length = width := by
  induction width generalizing n with
  | zero => rfl
  | succ width ih => rw [littleEndian, length_cons, ih]

theorem ofLittleEndian_littleEndian {width n : Nat} (hn : n < 256 ^ width) :
    ofLittleEndian (littleEndian width n) = n := by
  induction width generalizing n with
  | zero =>
    have : n = 0 := by simpa using hn
    rw [this]
    rfl
  | succ width ih =>
    have hdiv : n / 256 < 256 ^ width := by
      rw [Nat.div_lt_iff_lt_mul (by decide), ← Nat.pow_succ]
      exact hn
    have hbyte : (UInt8.ofNat (n % 256)).toNat = n % 256 := by
      rw [UInt8.toNat_ofNat']
      omega
    rw [littleEndian, ofLittleEndian, ih hdiv, hbyte]
    omega

/-! ## Serialized metadata -/

theorem floatFree_toJson (e : Entry) : e.toJson.FloatFree := by
  have hshape : FloatFreeItems (e.shape.map fun n : Nat => Json.int n) := by
    rw [floatFreeItems_iff]
    intro v hv
    obtain ⟨n, -, rfl⟩ := List.mem_map.mp hv
    trivial
  unfold Entry.toJson
  cases e.chunk with
  | none => exact ⟨trivial, hshape, trivial, trivial, trivial, trivial⟩
  | some chunk => exact ⟨trivial, hshape, trivial, trivial, trivial, trivial, trivial, trivial⟩

theorem floatFree_metaJson (entries : List Entry) (isLast : Bool) :
    (metaJson entries isLast).FloatFree := by
  refine ⟨?_, trivial, trivial⟩
  refine floatFreeItems_iff.mpr fun v hv => ?_
  obtain ⟨e, -, rfl⟩ := List.mem_map.mp hv
  exact floatFree_toJson e

theorem utf8Decode?_encodeUtf8 (text : List Char) :
    ByteArray.utf8Decode? (encodeUtf8 text).toByteArray = some text.toArray :=
  utf8Decode?_utf8Encode

variable {entries : List Entry} {isLast : Bool}

/-- What is written to a meta buffer is read back. -/
theorem parseMeta_writeMeta {buf : List UInt8} (h : writeMeta entries isLast = .ok buf) :
    parseMeta buf = some (metaJson entries isLast) := by
  unfold writeMeta at h
  simp only at h
  split_ifs at h with hlen
  obtain rfl := (Except.ok.inj h).symm
  set json := metaBytes entries isLast with hjson
  have hsize : json.length < 256 ^ 8 := by
    have : metaBufSize < 256 ^ 8 := by decide
    omega
  have hprefix : (littleEndian 8 json.length ++ json ++
      replicate (metaBufSize - 8 - json.length) 0).take 8 = littleEndian 8 json.length := by
    rw [append_assoc, take_left' (length_littleEndian 8 _)]
  have hslice : slice (littleEndian 8 json.length ++ json ++
      replicate (metaBufSize - 8 - json.length) 0) 8 (8 + json.length) = json :=
    slice_append (length_littleEndian 8 _) rfl
  simp only [parseMeta, hprefix, ofLittleEndian_littleEndian hsize, hslice]
  rw [hjson, metaBytes, utf8Decode?_encodeUtf8]
  exact loads_dumps (floatFree_metaJson entries isLast)

theorem readMeta_metaJson (entries : List Entry) (isLast : Bool) :
    readMeta (metaJson entries isLast) = some (entries.map Entry.toJson, isLast) := rfl

theorem writeMeta_ok_iff :
    (∃ buf, writeMeta entries isLast = .ok buf) ↔
      bucketMetaNbytes entries isLast ≤ metaPayloadLimit := by
  have hlimit : metaPayloadLimit + 8 = metaBufSize := by decide
  unfold writeMeta
  simp only
  split_ifs with hlen
  · constructor
    · rintro ⟨buf, h⟩
      exact absurd h (by simp)
    · intro hle
      rw [bucketMetaNbytes] at hle
      omega
  · refine ⟨fun _ => ?_, fun _ => ⟨_, rfl⟩⟩
    rw [bucketMetaNbytes]
    omega

theorem writeMeta_error {err : SendError} (h : writeMeta entries isLast = .error err) :
    err = .metadata (bucketMetaNbytes entries isLast) := by
  unfold writeMeta at h
  simp only at h
  split_ifs at h with hlen
  exact (Except.error.inj h).symm

/-! ## Entries -/

theorem dtypeOfText_text (d : Dtype) : dtypeOfText d.text = some d := by
  cases d <;> decide

theorem readShape_map (shape : List Nat) :
    readShape (.arr (shape.map fun n : Nat => Json.int n)) = some shape := by
  have : (shape.map fun n : Nat => Json.int n).mapM readNat = some shape := by
    induction shape with
    | nil => rfl
    | cons n shape ih =>
      rw [map_cons, mapM_cons, ih]
      rfl
  exact this

/-- The fields that the receiver reads from an entry. -/
theorem readEntry_toJson {e : Entry} {d : Dtype} (hd : e.dtype = d.text) :
    readEntry e.toJson = some ⟨e.name, e.shape, d, e.offset, e.nbytes,
      (e.chunk.map Prod.fst).getD 0, (e.chunk.map Prod.snd).getD e.nbytes⟩ := by
  obtain ⟨name, shape, dtype, offset, nbytes, chunk⟩ := e
  obtain rfl : dtype = d.text := hd
  cases chunk with
  | none =>
    have hread : readEntry (Entry.toJson ⟨name, shape, d.text, offset, nbytes, none⟩) =
        (readShape (.arr (shape.map fun n : Nat => Json.int n))).bind fun shape =>
          (dtypeOfText d.text).bind fun d => some ⟨name, shape, d, offset, nbytes, 0, nbytes⟩ := rfl
    rw [hread, readShape_map, dtypeOfText_text]
    rfl
  | some chunk =>
    have hread : readEntry (Entry.toJson ⟨name, shape, d.text, offset, nbytes, some chunk⟩) =
        (readShape (.arr (shape.map fun n : Nat => Json.int n))).bind fun shape =>
          (dtypeOfText d.text).bind fun d =>
            some ⟨name, shape, d, offset, nbytes, chunk.1, chunk.2⟩ := rfl
    rw [hread, readShape_map, dtypeOfText_text]
    rfl

/-! ## Lengths -/

theorem encodeUtf8_append (a b : List Char) : encodeUtf8 (a ++ b) = encodeUtf8 a ++ encodeUtf8 b :=
  flatMap_append

theorem encodeUtf8_cons (c : Char) (cs : List Char) :
    encodeUtf8 (c :: cs) = String.utf8EncodeChar c ++ encodeUtf8 cs := flatMap_cons

/-- The flag of a bucket that is not the last one takes one byte more. -/
theorem bucketMetaNbytes_false (entries : List Entry) :
    bucketMetaNbytes entries false = bucketMetaNbytes entries true + 1 := by
  have hflag : ∀ isLast, dumps .spaced (metaJson entries isLast) =
      '{' :: (dumpsString "tensors" ++ ": ".toList ++
        dumps .spaced (.arr (entries.map Entry.toJson)) ++ (", ".toList ++
        dumpsString "is_last" ++ ": ".toList ++ dumps .spaced (.bool isLast) ++ [])) ++ ['}'] :=
    fun isLast => rfl
  simp only [bucketMetaNbytes, metaBytes, hflag, encodeUtf8_append, encodeUtf8_cons, length_append]
  have htrue : (encodeUtf8 (dumps .spaced (.bool true))).length = 4 := by decide
  have hfalse : (encodeUtf8 (dumps .spaced (.bool false))).length = 5 := by decide
  omega

end ArcticPlatform.WeightSync
