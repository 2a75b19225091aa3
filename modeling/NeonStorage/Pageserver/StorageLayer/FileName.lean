import NeonStorage.Pageserver.Key
import NeonStorage.Lib.Range

/-!
# Layer file names

`pageserver/src/tenant/storage_layer/filename.rs` names a delta layer
`<key start>-<key end>__<LSN start>-<LSN end>` and an image layer `<key start>-<key end>__<LSN>`,
with each key in the 36 upper-case hexadecimal digits of `Key.display` and each LSN in 16.
`LayerFileName::from_str` runs both parsers and takes the one that answers.

* Every delta name with nonempty ranges and every image name reads back
  (`fromStr_delta_display`, `fromStr_image_display`, and for both kinds
  `fromStr_display_of_valid`).
* A name whose key has a character of two bytes where `Key::from_hex` cuts it makes the parse
  panic (`fromStr_panics_off_char_boundary`).
-/

namespace NeonStorage

namespace StorageLayer

open Hex Text

/-! ## LSNs -/

/-- `Lsn::from_hex`: `u64::from_str_radix(s, 16)`, with its error dropped. -/
def lsnFromHex (s : List Char) : Option UInt64 :=
  (fromStrRadix16 64 s).map UInt64.ofNat

/-- `{:016X}` of an LSN. -/
def lsnHex (lsn : UInt64) : List Char := hexDigits 16 lsn.toNat

theorem lsnFromHex_lsnHex (lsn : UInt64) : lsnFromHex (lsnHex lsn) = some lsn := by
  rw [lsnFromHex, lsnHex, fromStrRadix16_hexDigits (by decide) lsn.toNat_lt
    (by simpa using lsn.toNat_lt), Option.map_some, UInt64.ofNat_toNat]

/-- A `-` in the text is no digit. -/
theorem lsnFromHex_of_dash {s : List Char} (h : '-' ∈ s) : lsnFromHex s = none := by
  rw [lsnFromHex, fromStrRadix16_eq_none (by decide) (by decide) h, Option.map_none]

theorem underscore_not_mem_upperDigits : '_' ∉ upperDigits := by
  rw [upperDigits_eq]; decide

theorem dash_not_mem_upperDigits : '-' ∉ upperDigits := by
  rw [upperDigits_eq]; decide

theorem not_mem_lsnHex {c : Char} (hc : c ∉ upperDigits) (lsn : UInt64) : c ∉ lsnHex lsn :=
  not_mem_hexDigits hc 16 _

theorem splitOn_lsnHex (lsn : UInt64) : (lsnHex lsn).splitOn '-' = [lsnHex lsn] :=
  List.splitOn_eq_singleton (not_mem_lsnHex dash_not_mem_upperDigits lsn)

theorem splitOn_lsnHex_append (lsn : UInt64) (rest : List Char) :
    (lsnHex lsn ++ '-' :: rest).splitOn '-' = lsnHex lsn :: rest.splitOn '-' :=
  List.splitOn_append_cons_self_of_not_mem (not_mem_lsnHex dash_not_mem_upperDigits lsn) rest

/-! ## Key ranges -/

/-- `{}-{}` of a key range, the front of a name of either kind. -/
def keyRangeText (keyRange : Range Key) : List Char :=
  keyRange.start.display ++ '-' :: keyRange.end.display

theorem underscore_not_mem_keyRangeText (keyRange : Range Key) : '_' ∉ keyRangeText keyRange := by
  simp [keyRangeText, Key.not_mem_display underscore_not_mem_upperDigits]

theorem splitOn_keyRangeText (keyRange : Range Key) :
    (keyRangeText keyRange).splitOn '-' = [keyRange.start.display, keyRange.end.display] := by
  rw [keyRangeText,
    List.splitOn_append_cons_self_of_not_mem (Key.not_mem_display dash_not_mem_upperDigits _),
    List.splitOn_eq_singleton (Key.not_mem_display dash_not_mem_upperDigits _)]

/-- A name cut at `__`: the key range, and what follows when it holds no `_`. -/
theorem splitOnPair_keyRangeText (keyRange : Range Key) {lsnPart : List Char}
    (hu : '_' ∉ lsnPart) :
    splitOnPair '_' '_' (keyRangeText keyRange ++ '_' :: '_' :: lsnPart) =
      [keyRangeText keyRange, lsnPart] := by
  rw [splitOnPair_append (underscore_not_mem_keyRangeText keyRange), splitOnPair_of_not_mem hu]

/-! ## Delta layers -/

/-- `DeltaFileName`: the key range and the LSN range of a delta layer. -/
structure DeltaFileName where
  keyRange : Range Key
  lsnRange : Range UInt64
deriving DecidableEq

namespace DeltaFileName

/-- The first lines of `DeltaFileName::parse_str`: the texts of the two keys and the two LSNs,
cut at `__` and at `-` before any of them is read.  Each `?` on an iterator ends the parse. -/
def pieces (fname : List Char) : Option (List Char × List Char × List Char × List Char) := do
  let parts := splitOnPair '_' '_' fname
  let keyParts := (← parts[0]?).splitOn '-'
  let lsnParts := (← parts[1]?).splitOn '-'
  let keyStartStr ← keyParts[0]?
  let keyEndStr ← keyParts[1]?
  let lsnStartStr ← lsnParts[0]?
  let lsnEndStr ← lsnParts[1]?
  -- the source checks `key_parts` twice here, and `lsn_parts` not at all
  if parts[2]?.isSome || keyParts[2]?.isSome || keyParts[3]?.isSome then failure
  return (keyStartStr, keyEndStr, lsnStartStr, lsnEndStr)

/-- `DeltaFileName::parse_str`: the pieces, then the keys and the LSNs read from them.  A panic
in `Key::from_hex` ends the parse with the panic. -/
def parseStr (fname : List Char) : OptionT (Except Panic) DeltaFileName := do
  let some (keyStartStr, keyEndStr, lsnStartStr, lsnEndStr) := pieces fname | failure
  let keyStart ← Key.fromHex keyStartStr
  let keyEnd ← Key.fromHex keyEndStr
  let some startLsn := lsnFromHex lsnStartStr | failure
  let some endLsn := lsnFromHex lsnEndStr | failure
  if endLsn ≤ startLsn then failure
  if keyEnd ≤ keyStart then failure
  return ⟨⟨keyStart, keyEnd⟩, ⟨startLsn, endLsn⟩⟩

/-- `impl Display for DeltaFileName`: `{}-{}__{:016X}-{:016X}`. -/
def display (self : DeltaFileName) : List Char :=
  self.keyRange.start.display ++ '-' :: self.keyRange.end.display ++ '_' :: '_' ::
    lsnHex self.lsnRange.start ++ '-' :: lsnHex self.lsnRange.end

/-- What `parse_str` checks of the ranges it reads: both are nonempty. -/
structure Valid (d : DeltaFileName) : Prop where
  key_lt : d.keyRange.start < d.keyRange.end
  lsn_lt : d.lsnRange.start < d.lsnRange.end

theorem display_eq (d : DeltaFileName) :
    d.display = keyRangeText d.keyRange ++ '_' :: '_' ::
      (lsnHex d.lsnRange.start ++ '-' :: lsnHex d.lsnRange.end) := by
  simp [display, keyRangeText]

/-- The pieces of a name that starts with a key range: the keys, and the first two `-`-pieces
of what follows `__`, however many there are. -/
theorem pieces_keyRangeText (keyRange : Range Key) {lsnPart l0 l1 : List Char}
    {more : List (List Char)} (hu : '_' ∉ lsnPart) (hsplit : lsnPart.splitOn '-' = l0 :: l1 :: more) :
    pieces (keyRangeText keyRange ++ '_' :: '_' :: lsnPart) =
      some (keyRange.start.display, keyRange.end.display, l0, l1) := by
  simp [pieces, splitOnPair_keyRangeText keyRange hu, splitOn_keyRangeText, hsplit]

theorem dash_mem_of_pieces {s : List Char} {x : List Char × List Char × List Char × List Char}
    (h : pieces s = some x) : ∃ p, (splitOnPair '_' '_' s)[1]? = some p ∧ '-' ∈ p := by
  simp only [pieces, Option.bind_eq_bind, Option.bind_eq_some_iff] at h
  obtain ⟨_, _, p, hp, _, _, _, _, _, _, _, hl1, _⟩ := h
  refine ⟨p, hp, ?_⟩
  -- without a `-` the LSN part is one piece, and the second `lsn_parts.next()?` fails
  by_contra hm
  rw [List.splitOn_eq_singleton hm] at hl1
  cases hl1

theorem parseStr_of_pieces_none {s : List Char} (h : pieces s = none) :
    (parseStr s).run = .ok none := by
  rw [parseStr, h]
  rfl

/-- A name whose pieces are the texts `Display` writes for a valid delta name reads back. -/
theorem parseStr_of_pieces {s : List Char} {d : DeltaFileName} (hd : d.Valid)
    (h : pieces s = some (d.keyRange.start.display, d.keyRange.end.display,
      lsnHex d.lsnRange.start, lsnHex d.lsnRange.end)) :
    (parseStr s).run = .ok (some d) := by
  have hlsn : ¬ d.lsnRange.end ≤ d.lsnRange.start := UInt64.not_le.2 hd.lsn_lt
  have hkey : ¬ d.keyRange.end ≤ d.keyRange.start := not_le.2 hd.key_lt
  simp [parseStr, h, OptionT.run_bind, Key.fromHex_display, Option.elimM, Except.ok_bind,
    lsnFromHex_lsnHex, hlsn, hkey]
  rfl

/-- Without a `-` after `__` there is no second LSN text. -/
theorem pieces_eq_none {s : List Char}
    (h : ∀ p, (splitOnPair '_' '_' s)[1]? = some p → '-' ∉ p) : pieces s = none := by
  cases hx : pieces s with
  | none => rfl
  | some x =>
    obtain ⟨p, hp, hdash⟩ := dash_mem_of_pieces hx
    exact absurd hdash (h p hp)

end DeltaFileName

/-! ## Image layers -/

/-- `ImageFileName`: the key range and the LSN of an image layer. -/
structure ImageFileName where
  keyRange : Range Key
  lsn : UInt64
deriving DecidableEq

namespace ImageFileName

/-- The first lines of `ImageFileName::parse_str`: the texts of the two keys and of the LSN. -/
def pieces (fname : List Char) : Option (List Char × List Char × List Char) := do
  let parts := splitOnPair '_' '_' fname
  let keyParts := (← parts[0]?).splitOn '-'
  let keyStartStr ← keyParts[0]?
  let keyEndStr ← keyParts[1]?
  let lsnStr ← parts[1]?
  if parts[2]?.isSome || keyParts[2]?.isSome then failure
  return (keyStartStr, keyEndStr, lsnStr)

/-- `ImageFileName::parse_str`. -/
def parseStr (fname : List Char) : OptionT (Except Panic) ImageFileName := do
  let some (keyStartStr, keyEndStr, lsnStr) := pieces fname | failure
  let keyStart ← Key.fromHex keyStartStr
  let keyEnd ← Key.fromHex keyEndStr
  let some lsn := lsnFromHex lsnStr | failure
  return ⟨⟨keyStart, keyEnd⟩, lsn⟩

/-- `impl Display for ImageFileName`: `{}-{}__{:016X}`. -/
def display (self : ImageFileName) : List Char :=
  self.keyRange.start.display ++ '-' :: self.keyRange.end.display ++ '_' :: '_' :: lsnHex self.lsn

theorem display_eq (i : ImageFileName) :
    i.display = keyRangeText i.keyRange ++ '_' :: '_' :: lsnHex i.lsn := by
  simp [display, keyRangeText]

theorem pieces_keyRangeText (keyRange : Range Key) {lsnPart : List Char} (hu : '_' ∉ lsnPart) :
    pieces (keyRangeText keyRange ++ '_' :: '_' :: lsnPart) =
      some (keyRange.start.display, keyRange.end.display, lsnPart) := by
  simp [pieces, splitOnPair_keyRangeText keyRange hu, splitOn_keyRangeText]

/-- A name whose key texts are the displays of a key range reads as that range, with the LSN
that its LSN text reads as, if any. -/
theorem parseStr_of_pieces {s lsnStr : List Char} {keyRange : Range Key}
    (h : pieces s = some (keyRange.start.display, keyRange.end.display, lsnStr)) :
    (parseStr s).run = .ok ((lsnFromHex lsnStr).map fun lsn => ⟨keyRange, lsn⟩) := by
  cases hlsn : lsnFromHex lsnStr <;>
    simp [parseStr, h, OptionT.run_bind, Key.fromHex_display, Option.elimM, Except.ok_bind, hlsn]
  rfl

end ImageFileName

/-! ## Either kind -/

/-- `LayerFileName`. -/
inductive LayerFileName
  | image (fname : ImageFileName)
  | delta (fname : DeltaFileName)
deriving DecidableEq

namespace LayerFileName

/-- `impl Display for LayerFileName`. -/
def display : LayerFileName → List Char
  | image fname => fname.display
  | delta fname => fname.display

/-- `LayerFileName::from_str`.  The outer `Except` is a panic, the inner one the result. -/
def fromStr (value : List Char) : Except Panic (Except String LayerFileName) := do
  let delta ← (DeltaFileName.parseStr value).run
  let image ← (ImageFileName.parseStr value).run
  match delta, image with
  | none, none =>
    return .error ("neither delta nor image layer file name: " ++ String.ofList (debugStr value))
  | some delta, none => return .ok (.delta delta)
  | none, some image => return .ok (.image image)
  | some _, some _ => throw ⟨"internal error: entered unreachable code"⟩

theorem fromStr_of_delta {s : List Char} {d : DeltaFileName}
    (hd : (DeltaFileName.parseStr s).run = .ok (some d))
    (hi : (ImageFileName.parseStr s).run = .ok none) : fromStr s = .ok (.ok (delta d)) := by
  rw [fromStr, hd, hi]
  rfl

theorem fromStr_of_image {s : List Char} {i : ImageFileName}
    (hd : (DeltaFileName.parseStr s).run = .ok none)
    (hi : (ImageFileName.parseStr s).run = .ok (some i)) : fromStr s = .ok (.ok (image i)) := by
  rw [fromStr, hd, hi]
  rfl

/-- Every delta name with nonempty ranges reads back. -/
theorem fromStr_delta_display {d : DeltaFileName} (hd : d.Valid) :
    fromStr (delta d).display = .ok (.ok (delta d)) := by
  have hu : '_' ∉ lsnHex d.lsnRange.start ++ '-' :: lsnHex d.lsnRange.end := by
    simp [not_mem_lsnHex underscore_not_mem_upperDigits]
  have hsplit : (lsnHex d.lsnRange.start ++ '-' :: lsnHex d.lsnRange.end).splitOn '-' =
      [lsnHex d.lsnRange.start, lsnHex d.lsnRange.end] := by
    rw [splitOn_lsnHex_append, splitOn_lsnHex]
  rw [display, DeltaFileName.display_eq]
  refine fromStr_of_delta
    (DeltaFileName.parseStr_of_pieces hd (DeltaFileName.pieces_keyRangeText _ hu hsplit)) ?_
  rw [ImageFileName.parseStr_of_pieces (ImageFileName.pieces_keyRangeText _ hu),
    lsnFromHex_of_dash (by simp)]
  rfl

/-- An image name followed by `__` and an LSN text reads as the image name with that LSN, when
the delta parser finds no second LSN in it. -/
theorem fromStr_keyRangeText_lsn {keyRange : Range Key} {lsnStr : List Char} {lsn : UInt64}
    (hu : '_' ∉ lsnStr) (hdash : '-' ∉ lsnStr) (hlsn : lsnFromHex lsnStr = some lsn) :
    fromStr (keyRangeText keyRange ++ '_' :: '_' :: lsnStr) = .ok (.ok (image ⟨keyRange, lsn⟩)) := by
  refine fromStr_of_image (DeltaFileName.parseStr_of_pieces_none
    (DeltaFileName.pieces_eq_none fun p hp => ?_)) ?_
  · rw [splitOnPair_keyRangeText keyRange hu] at hp
    cases hp
    exact hdash
  · rw [ImageFileName.parseStr_of_pieces (ImageFileName.pieces_keyRangeText _ hu), hlsn]
    rfl

/-- Every image name reads back. -/
theorem fromStr_image_display (i : ImageFileName) :
    fromStr (image i).display = .ok (.ok (image i)) := by
  rw [display, ImageFileName.display_eq]
  exact fromStr_keyRangeText_lsn (not_mem_lsnHex underscore_not_mem_upperDigits _)
    (not_mem_lsnHex dash_not_mem_upperDigits _) (lsnFromHex_lsnHex i.lsn)

/-- What `from_str` checks of a name it returns: a delta name's key and LSN ranges are
nonempty. -/
def Valid : LayerFileName → Prop
  | image _ => True
  | delta d => d.Valid

/-- Every layer name that `from_str` can return reads back from the text `Display` writes. -/
theorem fromStr_display_of_valid {n : LayerFileName} (hn : n.Valid) :
    fromStr n.display = .ok (.ok n) := by
  cases n with
  | image i => exact fromStr_image_display i
  | delta d => exact fromStr_delta_display hn

/-- The delta layer over keys `0..10` and LSNs `5..10` reads back from its name. -/
theorem fromStr_display_of_valid_delta :
    (delta ⟨⟨⟨0, 0, 0, 0, 0, 0⟩, ⟨0, 0, 0, 0, 0, 10⟩⟩, ⟨5, 10⟩⟩).Valid ∧
      fromStr (delta ⟨⟨⟨0, 0, 0, 0, 0, 0⟩, ⟨0, 0, 0, 0, 0, 10⟩⟩, ⟨5, 10⟩⟩).display =
        .ok (.ok (delta ⟨⟨⟨0, 0, 0, 0, 0, 0⟩, ⟨0, 0, 0, 0, 0, 10⟩⟩, ⟨5, 10⟩⟩)) :=
  have hv : (delta ⟨⟨⟨0, 0, 0, 0, 0, 0⟩, ⟨0, 0, 0, 0, 0, 10⟩⟩, ⟨5, 10⟩⟩).Valid :=
    ⟨by decide, by decide⟩
  ⟨hv, fromStr_display_of_valid hv⟩

/-- `Key::from_hex` cuts the first key at byte 2, which falls inside the two bytes of `é`:
the parse panics where `from_str` should answer with an error. -/
theorem fromStr_panics_off_char_boundary :
    fromStr ('0' :: 'é' :: List.replicate 33 '0' ++ ['-', '0', '_', '_', '0', '-', '1']) =
      .error ⟨"byte index is not a char boundary"⟩ := by
  decide

end LayerFileName

end StorageLayer

end NeonStorage
