import NeonStorage.Lib.Bytes
import NeonStorage.Safekeeper.State

/-!
# The control file

A safekeeper keeps its `TimelinePersistentState` in the control file
(`safekeeper/src/control_file.rs`).  `FileStorage::persist` writes the magic number, the format
version, the `bincode` serialisation of the state and a CRC32C checksum of all that, little
endian, into a partial file that it then renames over the control file.
`FileStorage::load_control_file` reads the file back: it checks the trailing checksum, then the
magic number, and deserialises the state, or hands the rest to the upgrade of an older format
when the version differs.

`bincode` and `crc32c` are the environment of this model: the serialisation is any codec that
accepts exactly what it writes (`Bytes.Codec`), the checksum any function of the bytes, and the
upgrade of older formats any function that returns a result.

`loadControlFile_spec` is the format as a whole: what `persist` writes loads back
(`loadControlFile_persistBuf`), a successful load read what `persist` writes or a file of an
older version that the upgrade accepts (`loadControlFile_eq_ok`), and a file of at least four
bytes never makes the loader panic (`loadControlFile_ne_panic`).  A shorter file does: the
loader subtracts the checksum size from the length before it looks at it
(`loadControlFile_truncated_panics`).
-/

namespace NeonStorage

namespace ControlFile

open Bytes

/-- `SK_MAGIC`. -/
def skMagic : UInt32 := 0xcafeceef

/-- `SK_FORMAT_VERSION`. -/
def skFormatVersion : UInt32 := 7

/-- `CHECKSUM_SIZE`: the size of a `u32`. -/
def checksumSize : Nat := 4

/-- `ReadBytesExt::read_u32::<LittleEndian>`: four bytes off the front of the buffer, or the
I/O error of a buffer that ends before. -/
def readU32 (buf : List UInt8) : Except String (UInt32 × List UInt8) :=
  match readLe 4 buf with
  | some (v, rest) => .ok (UInt32.ofNat v, rest)
  | none => .error "failed to fill whole buffer"

section Storage

variable (codec : Codec TimelinePersistentState) (crc32c : List UInt8 → UInt32)
  (upgradeControlFile : List UInt8 → UInt32 → Except String TimelinePersistentState)

/-- The bytes `FileStorage::persist` writes into the partial control file: the magic number,
the format version, the serialised state and the checksum of these. -/
def persistBuf (s : TimelinePersistentState) : List UInt8 :=
  let buf := leBytes 4 skMagic.toNat ++ leBytes 4 skFormatVersion.toNat ++ codec.ser s
  let checksum := crc32c buf
  buf ++ leBytes 4 checksum.toNat

/-- `FileStorage::deser_sk_state`: the magic number must match; the state of the current
version is deserialised, that of another handed to `upgrade_control_file`. -/
def deserSkState (buf : List UInt8) : Except String TimelinePersistentState := do
  let (magic, buf) ← readU32 buf
  if magic ≠ skMagic then throw "bad control file magic"
  else
    let (version, buf) ← readU32 buf
    if version = skFormatVersion then codec.des buf
    else upgradeControlFile buf version

/-- `FileStorage::load_control_file` on the bytes read from the file; opening and reading the
file are not modelled. -/
def loadControlFile (buf : List UInt8) : Except SkError TimelinePersistentState :=
  -- `buf.len() - CHECKSUM_SIZE` is computed before the length is looked at
  if buf.length < checksumSize then .error (.panic "attempt to subtract with overflow")
  else
    let body := buf.take (buf.length - checksumSize)
    let calculatedChecksum := crc32c body
    let expectedChecksum := UInt32.ofNat (ofLeBytes (buf.drop (buf.length - checksumSize)))
    if calculatedChecksum ≠ expectedChecksum then
      .error (.bail "safekeeper control file checksum mismatch")
    else
      match deserSkState codec upgradeControlFile body with
      | .ok state => .ok state
      | .error e => .error (.bail e)

end Storage

/-! ## Reading back what was written -/

theorem readU32_leBytes (x : UInt32) (rest : List UInt8) :
    readU32 (leBytes 4 x.toNat ++ rest) = .ok (x, rest) := by
  simp [readU32]

/-- A successful read consumed the four bytes of the value it returned. -/
theorem readU32_eq_ok {buf rest : List UInt8} {x : UInt32} (h : readU32 buf = .ok (x, rest)) :
    buf = leBytes 4 x.toNat ++ rest := by
  unfold readU32 at h
  split at h
  · next v rest' hread =>
    obtain ⟨hv, rfl⟩ := readLe_eq_some hread
    simp only [Except.ok.injEq, Prod.mk.injEq] at h
    obtain ⟨rfl, rfl⟩ := h
    rw [UInt32.toNat_ofNat_of_lt' (by simpa using hv)]
  · cases h

/-- A file of at least four bytes is the part the checksum covers followed by the four bytes
of a `u32`. -/
theorem take_append_checksum {buf : List UInt8} (h : checksumSize ≤ buf.length) :
    buf = buf.take (buf.length - checksumSize) ++
      leBytes 4 (UInt32.ofNat (ofLeBytes (buf.drop (buf.length - checksumSize)))).toNat := by
  have hlen : (buf.drop (buf.length - checksumSize)).length = 4 := by
    simp [checksumSize] at h ⊢
    omega
  have hlt := ofLeBytes_lt (buf.drop (buf.length - checksumSize))
  rw [hlen] at hlt
  rw [UInt32.toNat_ofNat_of_lt' (by simpa using hlt), ← hlen, leBytes_ofLeBytes,
    List.take_append_drop]

section Storage

variable (codec : Codec TimelinePersistentState) (crc32c : List UInt8 → UInt32)
  (upgradeControlFile : List UInt8 → UInt32 → Except String TimelinePersistentState)

theorem deserSkState_eq_ok {buf : List UInt8} {s : TimelinePersistentState}
    (h : deserSkState codec upgradeControlFile buf = .ok s) :
    buf = leBytes 4 skMagic.toNat ++ leBytes 4 skFormatVersion.toNat ++ codec.ser s ∨
      ∃ version rest, version ≠ skFormatVersion ∧ upgradeControlFile rest version = .ok s ∧
        buf = leBytes 4 skMagic.toNat ++ leBytes 4 version.toNat ++ rest := by
  simp only [deserSkState, bind, Except.bind] at h
  split at h
  · cases h
  · next r hmagic =>
    obtain ⟨magic, buf'⟩ := r
    dsimp only at h
    split at h
    · cases h
    · next hm =>
      rw [not_not] at hm
      split at h
      · cases h
      · next r hversion =>
        obtain ⟨version, rest⟩ := r
        dsimp only at h
        have hbuf := readU32_eq_ok hmagic
        have hbuf' := readU32_eq_ok hversion
        subst hm hbuf hbuf'
        split at h
        · next hv =>
          subst hv
          exact .inl (by rw [(codec.des_eq_ok _ _).mp h, List.append_assoc])
        · next hv =>
          exact .inr ⟨version, rest, hv, h, by rw [List.append_assoc]⟩

/-- The control file `persist` writes loads back as the state it was written from. -/
theorem loadControlFile_persistBuf (s : TimelinePersistentState) :
    loadControlFile codec crc32c upgradeControlFile (persistBuf codec crc32c s) = .ok s := by
  set body := leBytes 4 skMagic.toNat ++ leBytes 4 skFormatVersion.toNat ++ codec.ser s
  have hbuf : persistBuf codec crc32c s = body ++ leBytes 4 (crc32c body).toNat := rfl
  have hlen : (persistBuf codec crc32c s).length - checksumSize = body.length := by
    simp [hbuf, checksumSize]
  have hdeser : deserSkState codec upgradeControlFile body = .ok s := by
    simp only [body, deserSkState, List.append_assoc, readU32_leBytes, bind, Except.bind,
      ne_eq, not_true_eq_false, ↓reduceIte, codec.des_ser]
  simp only [loadControlFile, hlen]
  simp [hbuf, checksumSize, hdeser]

/-- A load succeeds only on what `persist` writes, or on a file of another format version
that `upgrade_control_file` accepts, with the right magic number and checksum. -/
theorem loadControlFile_eq_ok {buf : List UInt8} {s : TimelinePersistentState}
    (h : loadControlFile codec crc32c upgradeControlFile buf = .ok s) :
    buf = persistBuf codec crc32c s ∨
      ∃ version rest, version ≠ skFormatVersion ∧ upgradeControlFile rest version = .ok s ∧
        buf = (leBytes 4 skMagic.toNat ++ leBytes 4 version.toNat ++ rest) ++
          leBytes 4 (crc32c (leBytes 4 skMagic.toNat ++ leBytes 4 version.toNat ++ rest)).toNat := by
  unfold loadControlFile at h
  split at h
  · cases h
  · next hlen =>
    dsimp only at h
    split at h
    · cases h
    · next hcrc =>
      rw [not_not] at hcrc
      split at h
      · next st hdeser =>
        cases h
        have hsplit := take_append_checksum (not_lt.mp hlen)
        rw [← hcrc] at hsplit
        rcases deserSkState_eq_ok codec upgradeControlFile hdeser with hbody | ⟨v, rest, hv, hup, hbody⟩
        · exact .inl (by rw [hsplit, hbody]; rfl)
        · exact .inr ⟨v, rest, hv, hup, by rw [hsplit, hbody]⟩
      · cases h

/-- A file of at least four bytes never makes the loader panic: it ends in the state or in an
error. -/
theorem loadControlFile_ne_panic {buf : List UInt8} (h : checksumSize ≤ buf.length)
    (msg : String) : loadControlFile codec crc32c upgradeControlFile buf ≠ .error (.panic msg) := by
  unfold loadControlFile
  rw [if_neg (not_lt.mpr h)]
  dsimp only
  split
  · simp
  · split <;> simp

/-- An empty control file, or one cut to three bytes, makes the loader panic. -/
theorem loadControlFile_truncated_panics :
    loadControlFile codec crc32c upgradeControlFile [] =
        .error (.panic "attempt to subtract with overflow") ∧
      loadControlFile codec crc32c upgradeControlFile [0xef, 0xce, 0xfe] =
        .error (.panic "attempt to subtract with overflow") :=
  ⟨rfl, rfl⟩

end Storage

end ControlFile

end NeonStorage
