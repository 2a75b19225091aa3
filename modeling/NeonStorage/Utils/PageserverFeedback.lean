import NeonStorage.Lib.Bytes

/-!
# Pageserver feedback

The pageserver reports its progress to the safekeepers in a `PageserverFeedback`
(`libs/utils/src/pageserver_feedback.rs`), which the safekeepers pass on to the compute.  The
format is meant to be extended: a count of fields, then for each a null-terminated key, a
32-bit length and the value, all big endian.  `parse` reads the five keys it knows and skips
any other by its declared length.  The reply time travels as a signed number of microseconds
from `PG_EPOCH`.

`parse_serialize` proves that `parse` recovers what `serialize` wrote, also after unknown
fields are inserted anywhere, for reply times from `PG_EPOCH` on that fall on whole
microseconds and lie less than `2^63` microseconds after it.  `serialize` casts the microsecond
count to `i64` and `parse` negates a non-positive one with wrapping, so a later reply time does
not survive (`parse_serialize_far_future`).
-/

namespace NeonStorage

open Bytes

/-- The bytes of an ASCII byte string literal `b"..."`. -/
def asciiBytes (s : String) : List UInt8 :=
  s.toList.map fun c => c.toNat.toUInt8

/-- `SystemTime`, as nanoseconds from the Unix epoch. -/
structure SystemTime where
  nanos : Int
deriving DecidableEq, Repr

/-- `PG_EPOCH`: 2000-01-01 00:00:00 UTC. -/
def pgEpoch : SystemTime := ⟨946684800 * 1000000000⟩

/-- `PageserverFeedback`; the LSNs are `u64`s. -/
structure PageserverFeedback where
  currentTimelineSize : UInt64
  lastReceivedLsn : UInt64
  diskConsistentLsn : UInt64
  remoteConsistentLsn : UInt64
  replytime : SystemTime
deriving DecidableEq, Repr

namespace PageserverFeedback

/-- `PAGESERVER_FEEDBACK_FIELDS_NUMBER`. -/
def pageserverFeedbackFieldsNumber : UInt8 := 5

/-- `PageserverFeedback::empty`. -/
def empty : PageserverFeedback where
  currentTimelineSize := 0
  lastReceivedLsn := 0
  diskConsistentLsn := 0
  remoteConsistentLsn := 0
  replytime := pgEpoch

/-- The reply time as `serialize` writes it: the microseconds since `PG_EPOCH`, `as i64`. -/
def timestamp (self : PageserverFeedback) : Int64 :=
  Int64.ofNat ((self.replytime.nanos - pgEpoch.nanos).toNat / 1000)

/-- `PageserverFeedback::serialize`; the `expect` on a reply time before `PG_EPOCH` panics. -/
def serialize (self : PageserverFeedback) : Except String (List UInt8) :=
  if self.replytime.nanos < pgEpoch.nanos then
    .error "failed to serialize pg_replytime earlier than PG_EPOCH"
  else
    .ok ([pageserverFeedbackFieldsNumber] ++
      asciiBytes "current_timeline_size" ++ [0] ++ putI32 8 ++ putU64 self.currentTimelineSize ++
      asciiBytes "ps_writelsn" ++ [0] ++ putI32 8 ++ putU64 self.lastReceivedLsn ++
      asciiBytes "ps_flushlsn" ++ [0] ++ putI32 8 ++ putU64 self.diskConsistentLsn ++
      asciiBytes "ps_applylsn" ++ [0] ++ putI32 8 ++ putU64 self.remoteConsistentLsn ++
      asciiBytes "ps_replytime" ++ [0] ++ putI32 8 ++ putI64 self.timestamp)

/-- `read_cstr`: the bytes before the first zero byte and the buffer after it; `parse` unwraps
the error of a missing terminator. -/
def readCstr : List UInt8 → Except String (List UInt8 × List UInt8)
  | [] => .error "missing cstring terminator"
  | b :: rest =>
    if b = 0 then .ok ([], rest)
    else do
      let (key, rest) ← readCstr rest
      pure (b :: key, rest)

/-- The value of one of the four `u64` fields: the length, asserted to be 8, then the value. -/
def getU64Field (buf : List UInt8) : Except String (UInt64 × List UInt8) := do
  let (len, buf) ← getI32 buf
  if len ≠ 8 then throw "assertion failed: len == 8"
  else getU64 buf

/-- The reply time `parse` makes of the raw `ps_replytime` value: after `PG_EPOCH` when it is
positive, before otherwise, with `-raw_time` wrapping. -/
def replytimeOfRaw (rawTime : Int64) : SystemTime :=
  if rawTime > 0 then ⟨pgEpoch.nanos + rawTime.toUInt64.toNat * 1000⟩
  else ⟨pgEpoch.nanos - (-rawTime).toUInt64.toNat * 1000⟩

/-- The body of the loop of `parse` for one key: a known key sets its field, any other is
skipped by its declared length, `len as usize`. -/
def parseField (rf : PageserverFeedback) (key : List UInt8) (buf : List UInt8) :
    Except String (PageserverFeedback × List UInt8) :=
  if key = asciiBytes "current_timeline_size" then do
    let (v, buf) ← getU64Field buf
    pure ({ rf with currentTimelineSize := v }, buf)
  else if key = asciiBytes "ps_writelsn" then do
    let (v, buf) ← getU64Field buf
    pure ({ rf with lastReceivedLsn := v }, buf)
  else if key = asciiBytes "ps_flushlsn" then do
    let (v, buf) ← getU64Field buf
    pure ({ rf with diskConsistentLsn := v }, buf)
  else if key = asciiBytes "ps_applylsn" then do
    let (v, buf) ← getU64Field buf
    pure ({ rf with remoteConsistentLsn := v }, buf)
  else if key = asciiBytes "ps_replytime" then do
    let (len, buf) ← getI32 buf
    if len ≠ 8 then throw "assertion failed: len == 8"
    else
      let (rawTime, buf) ← getI64 buf
      pure ({ rf with replytime := replytimeOfRaw rawTime }, buf)
  else do
    let (len, buf) ← getI32 buf
    let buf ← advance buf len.toInt64.toUInt64.toNat
    pure (rf, buf)

/-- The loop of `parse` over `nfields` fields. -/
def parseFields : Nat → PageserverFeedback → List UInt8 → Except String PageserverFeedback
  | 0, rf, _ => .ok rf
  | n + 1, rf, buf => do
    let (key, buf) ← readCstr buf
    let (rf, buf) ← parseField rf key buf
    parseFields n rf buf

/-- `PageserverFeedback::parse`: every failure is a panic. -/
def parse (buf : List UInt8) : Except String PageserverFeedback := do
  let (nfields, buf) ← getU8 buf
  parseFields nfields.toNat empty buf

/-! ## Fields on the wire -/

/-- A field as the format frames it: the key, its terminator, the length of the value as an
`i32` and the value. -/
def fieldEntry (field : List UInt8 × List UInt8) : List UInt8 :=
  field.1 ++ [0] ++ putI32 (Int32.ofNat field.2.length) ++ field.2

/-- The fields `serialize` writes, in its order. -/
def fields (self : PageserverFeedback) : List (List UInt8 × List UInt8) :=
  [(asciiBytes "current_timeline_size", putU64 self.currentTimelineSize),
   (asciiBytes "ps_writelsn", putU64 self.lastReceivedLsn),
   (asciiBytes "ps_flushlsn", putU64 self.diskConsistentLsn),
   (asciiBytes "ps_applylsn", putU64 self.remoteConsistentLsn),
   (asciiBytes "ps_replytime", putI64 self.timestamp)]

/-- A field the format can carry: a key with no zero byte, a value whose length fits an `i32`. -/
def Framed (field : List UInt8 × List UInt8) : Prop :=
  0 ∉ field.1 ∧ field.2.length < 2 ^ 31

/-- What the loop of `parse` makes of one field, whatever follows it. -/
def fieldValue (rf : PageserverFeedback) (field : List UInt8 × List UInt8) :
    Except String PageserverFeedback :=
  (parseField rf field.1 (putI32 (Int32.ofNat field.2.length) ++ field.2)).map Prod.fst

/-- `serialize` writes the count and the five fields, each framed with its length. -/
theorem serialize_eq {self : PageserverFeedback} (h : pgEpoch.nanos ≤ self.replytime.nanos) :
    serialize self = .ok (pageserverFeedbackFieldsNumber :: (self.fields.map fieldEntry).flatten) := by
  simp [serialize, fields, fieldEntry, not_lt.mpr h]

theorem readCstr_append {key : List UInt8} (h : 0 ∉ key) (rest : List UInt8) :
    readCstr (key ++ 0 :: rest) = .ok (key, rest) := by
  induction key with
  | nil => simp [readCstr]
  | cons b key ih =>
    simp only [List.mem_cons, not_or] at h
    simp [readCstr, Ne.symm h.1, ih h.2, bind, Except.bind, pure, Except.pure]

/-- `parseField` reads exactly the length and the value of a framed field. -/
theorem parseField_append (rf : PageserverFeedback) (key value rest : List UInt8)
    (hlen : value.length < 2 ^ 31) :
    parseField rf key (putI32 (Int32.ofNat value.length) ++ value ++ rest) =
      (fieldValue rf (key, value)).map (·, rest) := by
  have height : Int32.ofNat value.length = 8 ↔ value.length = 8 :=
    int32_ofNat_inj hlen (by norm_num)
  simp only [fieldValue, parseField, getU64Field, List.append_assoc, getI32_putI32, bind,
    Except.bind]
  simp only [toNat_toUInt64_toInt64_ofNat hlen, advance_append, advance_length]
  by_cases hv : value.length = 8
  · -- the declared length passes the assertions: the value is read whole
    have hu : getU64 value = .ok (UInt64.ofNat (ofBeBytes value), []) := by
      simpa using getU64_append_of_length hv []
    have hi : getI64 value = .ok ((UInt64.ofNat (ofBeBytes value)).toInt64, []) := by
      simpa using getI64_append_of_length hv []
    simp only [height.mpr hv, ne_eq, not_true_eq_false, if_false, getU64_append_of_length hv,
      getI64_append_of_length hv, hu, hi]
    split_ifs <;> rfl
  · -- the assertions fail whatever follows
    simp only [height, hv, ne_eq, not_false_eq_true, if_true]
    split_ifs <;> rfl


/-- The loop of `parse` over framed fields, followed by anything, applies `fieldValue` field
by field and then goes on after them. -/
theorem parseFields_append (fs : List (List UInt8 × List UInt8)) (hfs : ∀ f ∈ fs, Framed f)
    (n : Nat) (rf : PageserverFeedback) (rest : List UInt8) :
    parseFields (fs.length + n) rf ((fs.map fieldEntry).flatten ++ rest) =
      fs.foldlM fieldValue rf >>= fun rf => parseFields n rf rest := by
  induction fs generalizing rf with
  | nil =>
    simp only [List.length_nil, Nat.zero_add, List.map_nil, List.flatten_nil, List.nil_append,
      List.foldlM_nil]
    rfl
  | cons f fs ih =>
    obtain ⟨hkey, hlen⟩ := hfs f List.mem_cons_self
    have hentry : fieldEntry f ++ ((fs.map fieldEntry).flatten ++ rest) =
        f.1 ++ 0 :: (putI32 (Int32.ofNat f.2.length) ++ f.2 ++ ((fs.map fieldEntry).flatten ++ rest)) := by
      simp [fieldEntry]
    rw [List.length_cons, show fs.length + 1 + n = (fs.length + n) + 1 by omega, List.map_cons,
      List.flatten_cons, List.append_assoc, hentry, parseFields, readCstr_append hkey]
    simp only [bind, Except.bind, parseField_append _ _ _ _ hlen, List.foldlM_cons]
    cases fieldValue rf f with
    | error e => rfl
    | ok rf' => exact ih (fun g hg => hfs g (List.mem_cons_of_mem _ hg)) rf'

/-! ## Fields of unknown keys -/

/-- A key `parse` skips: a C string that is none of the five keys it reads. -/
def UnknownKey (key : List UInt8) : Prop :=
  0 ∉ key ∧ key ≠ asciiBytes "current_timeline_size" ∧ key ≠ asciiBytes "ps_writelsn" ∧
    key ≠ asciiBytes "ps_flushlsn" ∧ key ≠ asciiBytes "ps_applylsn" ∧
    key ≠ asciiBytes "ps_replytime"

/-- A field of an unknown key leaves the feedback as it is. -/
theorem fieldValue_unknown {key : List UInt8} (h : UnknownKey key) (rf : PageserverFeedback)
    {value : List UInt8} (hlen : value.length < 2 ^ 31) :
    fieldValue rf (key, value) = .ok rf := by
  obtain ⟨-, h1, h2, h3, h4, h5⟩ := h
  simp [fieldValue, parseField, h1, h2, h3, h4, h5, bind, Except.bind,
    toNat_toUInt64_toInt64_ofNat hlen, pure, Except.pure, Except.map]

/-- `fs` is `known` with fields of unknown keys inserted anywhere, each with a value whose
length an `i32` holds. -/
inductive WithUnknown : List (List UInt8 × List UInt8) → List (List UInt8 × List UInt8) → Prop
  | nil : WithUnknown [] []
  | known {known fs : List (List UInt8 × List UInt8)} (field : List UInt8 × List UInt8) :
      WithUnknown known fs → WithUnknown (field :: known) (field :: fs)
  | unknown {known fs : List (List UInt8 × List UInt8)} {key value : List UInt8} :
      UnknownKey key → value.length < 2 ^ 31 → WithUnknown known fs →
      WithUnknown known ((key, value) :: fs)

theorem WithUnknown.refl : ∀ fs, WithUnknown fs fs
  | [] => .nil
  | f :: fs => .known f (WithUnknown.refl fs)

theorem WithUnknown.framed {known fs : List (List UInt8 × List UInt8)} (h : WithUnknown known fs)
    (hknown : ∀ f ∈ known, Framed f) : ∀ f ∈ fs, Framed f := by
  induction h with
  | nil => simp
  | known field _ ih =>
    intro f hf
    rcases List.mem_cons.mp hf with rfl | hf
    · exact hknown f List.mem_cons_self
    · exact ih (fun g hg => hknown g (List.mem_cons_of_mem _ hg)) f hf
  | unknown hkey hlen _ ih =>
    intro f hf
    rcases List.mem_cons.mp hf with rfl | hf
    · exact ⟨hkey.1, hlen⟩
    · exact ih hknown f hf

theorem WithUnknown.foldlM_fieldValue {known fs : List (List UInt8 × List UInt8)}
    (h : WithUnknown known fs) (rf : PageserverFeedback) :
    fs.foldlM fieldValue rf = known.foldlM fieldValue rf := by
  induction h generalizing rf with
  | nil => rfl
  | known field _ ih => simp only [List.foldlM_cons, ih]
  | unknown hkey hlen _ ih =>
    simp only [List.foldlM_cons, fieldValue_unknown hkey rf hlen]
    exact ih rf

theorem fields_framed (self : PageserverFeedback) : ∀ f ∈ self.fields, Framed f := by
  intro f hf
  simp only [fields, List.mem_cons, List.not_mem_nil, or_false] at hf
  rcases hf with rfl | rfl | rfl | rfl | rfl <;> exact ⟨by dsimp only; decide, by simp⟩

/-- Reading the five fields of `self` sets every field of the feedback, the reply time as
`parse` makes it of the timestamp. -/
theorem foldlM_fields (self rf : PageserverFeedback) :
    self.fields.foldlM fieldValue rf = .ok { self with replytime := replytimeOfRaw self.timestamp } := by
  have hu (v : UInt64) : getU64 (putU64 v) = .ok (v, []) := by simpa using getU64_putU64 v []
  have hi (v : Int64) : getI64 (putI64 v) = .ok (v, []) := by simpa using getI64_putI64 v []
  simp +decide [fields, fieldValue, parseField, getU64Field, hu, hi, bind, Except.bind, pure,
    Except.pure, Except.map]


/-! ## The round trip -/

/-- `parse` reads the fields of `self` among unknown ones, up to the reply time. -/
theorem parse_withUnknown {self : PageserverFeedback} {fs : List (List UInt8 × List UInt8)}
    (h : WithUnknown self.fields fs) (hcount : fs.length < 256) :
    parse (fs.length.toUInt8 :: (fs.map fieldEntry).flatten) =
      .ok { self with replytime := replytimeOfRaw self.timestamp } := by
  have hn : fs.length.toUInt8.toNat = fs.length := by
    simp [Nat.toUInt8_eq, Nat.mod_eq_of_lt hcount]
  have hloop := parseFields_append fs (h.framed (fields_framed self)) 0 empty []
  simp only [Nat.add_zero, List.append_nil] at hloop
  simp only [parse, getU8, bind, Except.bind, hn, hloop, h.foldlM_fieldValue, foldlM_fields]
  rfl

/-- `serialize` and `parse` agree on the reply time when it lies on a whole microsecond less
than `2^63` microseconds from `PG_EPOCH` on. -/
theorem replytimeOfRaw_timestamp {self : PageserverFeedback}
    (hafter : pgEpoch.nanos ≤ self.replytime.nanos)
    (hmicros : (self.replytime.nanos - pgEpoch.nanos) % 1000 = 0)
    (hrange : self.replytime.nanos - pgEpoch.nanos < 2 ^ 63 * 1000) :
    replytimeOfRaw self.timestamp = self.replytime := by
  obtain ⟨c, l, d, r, ⟨nanos⟩⟩ := self
  simp only at hafter hmicros hrange
  set m := (nanos - pgEpoch.nanos).toNat / 1000 with hm
  have hmlt : m < 2 ^ 63 := by omega
  have hnanos : nanos = pgEpoch.nanos + m * 1000 := by omega
  have hto : (Int64.ofNat m).toUInt64.toNat = m := by simp; omega
  have hpos : Int64.ofNat m > 0 ↔ 0 < m := by
    rw [gt_iff_lt, Int64.lt_iff_toInt_lt, Int64.toInt_ofNat_of_lt hmlt]
    simp
  simp only [replytimeOfRaw, timestamp, ← hm]
  by_cases h0 : 0 < m
  · rw [if_pos (hpos.mpr h0), hto, hnanos]
  · have hz : m = 0 := by omega
    rw [if_neg (fun h => h0 (hpos.mp h)), hz, hnanos, hz]
    simp


/-- `parse` gives back what `serialize` wrote when the reply time is at or after `PG_EPOCH`, on
a whole microsecond and less than `2^63` microseconds after it; inserting fields of unknown keys
anywhere among the five, with the count set to the number of fields, changes nothing. -/
theorem parse_serialize (rf : PageserverFeedback) (hafter : pgEpoch.nanos ≤ rf.replytime.nanos)
    (hmicros : (rf.replytime.nanos - pgEpoch.nanos) % 1000 = 0)
    (hrange : rf.replytime.nanos - pgEpoch.nanos < 2 ^ 63 * 1000) :
    serialize rf = .ok (pageserverFeedbackFieldsNumber :: (rf.fields.map fieldEntry).flatten) ∧
      parse (pageserverFeedbackFieldsNumber :: (rf.fields.map fieldEntry).flatten) = .ok rf ∧
      ∀ fs, WithUnknown rf.fields fs → fs.length < 256 →
        parse (fs.length.toUInt8 :: (fs.map fieldEntry).flatten) = .ok rf := by
  have hparse : ∀ fs, WithUnknown rf.fields fs → fs.length < 256 →
      parse (fs.length.toUInt8 :: (fs.map fieldEntry).flatten) = .ok rf := by
    intro fs h hcount
    rw [parse_withUnknown h hcount, replytimeOfRaw_timestamp hafter hmicros hrange]
  exact ⟨serialize_eq hafter, hparse rf.fields (.refl _) (by simp [fields]), hparse⟩

/-- A feedback one second after `PG_EPOCH`, with the LSNs of a small timeline. -/
theorem parse_serialize_one_second :
    let rf : PageserverFeedback :=
      { currentTimelineSize := 8192, lastReceivedLsn := 0x1698C48,
        diskConsistentLsn := 0x1698C48, remoteConsistentLsn := 0x1690000,
        replytime := ⟨pgEpoch.nanos + 1000000000⟩ }
    pgEpoch.nanos ≤ rf.replytime.nanos ∧ (rf.replytime.nanos - pgEpoch.nanos) % 1000 = 0 ∧
      rf.replytime.nanos - pgEpoch.nanos < 2 ^ 63 * 1000 ∧
      serialize rf = .ok (pageserverFeedbackFieldsNumber :: (rf.fields.map fieldEntry).flatten) ∧
      parse (pageserverFeedbackFieldsNumber :: (rf.fields.map fieldEntry).flatten) = .ok rf ∧
      ∀ fs, WithUnknown rf.fields fs → fs.length < 256 →
        parse (fs.length.toUInt8 :: (fs.map fieldEntry).flatten) = .ok rf :=
  ⟨by decide, by decide, by decide, parse_serialize _ (by decide) (by decide) (by decide)⟩

/-- A reply time `2^63` microseconds after `PG_EPOCH` is written as `i64::MIN` and read back
`2^63` microseconds before `PG_EPOCH`. -/
theorem parse_serialize_far_future :
    let rf : PageserverFeedback := { empty with replytime := ⟨pgEpoch.nanos + 2 ^ 63 * 1000⟩ }
    serialize rf = .ok (pageserverFeedbackFieldsNumber :: (rf.fields.map fieldEntry).flatten) ∧
      parse (pageserverFeedbackFieldsNumber :: (rf.fields.map fieldEntry).flatten) =
        .ok { rf with replytime := ⟨pgEpoch.nanos - 2 ^ 63 * 1000⟩ } := by
  intro rf
  have hraw : replytimeOfRaw rf.timestamp = ⟨pgEpoch.nanos - 2 ^ 63 * 1000⟩ := by decide
  refine ⟨serialize_eq (by decide), ?_⟩
  rw [← hraw]
  exact parse_withUnknown (.refl _) (by decide)

end PageserverFeedback

end NeonStorage
