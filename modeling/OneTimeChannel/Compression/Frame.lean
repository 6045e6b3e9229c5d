/-
  Zstandard frames without entropy coding.

  A frame is a magic number, a header, blocks, and a checksum if the header says so.  Frames of
  other magic numbers may carry anything and are skipped.  This file only takes frames apart; what
  a header promises about the content is checked where the content is put together.

  Core only.
-/
import OneTimeChannel.Compression.Block

namespace OneTimeChannel.Compression

/-- The magic number of a frame, lowest byte first. -/
def magic : Nat := 0xFD2FB528

/-- The magic numbers of frames that are skipped, without their lowest four bits. -/
def skippedMagic : Nat := 0x184D2A5

/-! ## Headers -/

/-- What the header of a frame says about its content. -/
structure FrameHeader where
  /-- How far back the frame would look, which also bounds its blocks. -/
  window : Nat
  contentSize : Option Nat
  hasChecksum : Bool
  /-- How many bytes the header takes, with the magic number. -/
  length : Nat
  deriving DecidableEq, Repr

namespace FrameHeader

/-- The window of a descriptor, a power of two and some eighths of it, up to nearly 2^32. -/
def windowOf? (descriptor : Nat) : Option Nat :=
  let base := 1 <<< (10 + descriptor / 8)
  if 21 < descriptor / 8 then none else some (base + base / 8 * (descriptor % 8))

/-- How many bytes the id of a dictionary takes. -/
def dictionaryIdSize (descriptor : Nat) : Nat :=
  match descriptor % 4 with
  | 0 => 0
  | 1 => 1
  | 2 => 2
  | _ => 4

/-- How many bytes the size of the content takes. -/
def contentSizeSize (descriptor : Nat) : Nat :=
  match descriptor / 64 % 4, descriptor / 32 % 2 with
  | 0, 0 => 0
  | 0, _ => 1
  | 1, _ => 2
  | 2, _ => 4
  | _, _ => 8

/-- The number that the bytes of a content size stand for.  Two bytes start counting where one byte
    ends, and the largest number of eight bytes says that the size is not known. -/
def contentSizeOf (bs : Bytes) : Option Nat :=
  let n := LittleEndian.toNat bs
  match bs.length with
  | 0 => none
  | 2 => some (n + 256)
  | _ => if n = UInt64.size - 1 then none else some n

/-- The header at the front, after the magic number.  A frame that needs a dictionary is refused,
    and so is one that sets the reserved bit. -/
def ofBytes? : Bytes → Option (FrameHeader × Bytes)
  | [] => none
  | d :: bs =>
    let d := d.toNat
    let single := d / 32 % 2 == 1
    let windowSize := if single then 0 else 1
    if d / 8 % 2 == 1 then none
    else match split? windowSize bs with
      | none => none
      | some (window, bs) =>
        match split? (dictionaryIdSize d) bs with
        | none => none
        | some (dictionary, bs) =>
          match split? (contentSizeSize d) bs with
          | none => none
          | some (size, bs) =>
            let contentSize := contentSizeOf size
            let window? :=
              if single then some (contentSize.getD (UInt64.size - 1))
              else windowOf? (LittleEndian.toNat window)
            if LittleEndian.toNat dictionary ≠ 0 then none
            else window?.map fun window =>
              (⟨window, contentSize, d / 4 % 2 == 1,
                5 + windowSize + dictionaryIdSize d + contentSizeSize d⟩, bs)

theorem length_le_of_ofBytes? {bs rest : Bytes} {h : FrameHeader}
    (hr : ofBytes? bs = some (h, rest)) : rest.length ≤ bs.length := by
  cases bs with
  | nil => cases hr
  | cons d bs =>
    simp only [ofBytes?] at hr
    split at hr
    · cases hr
    · split at hr
      · cases hr
      · next h1 =>
        split at hr
        · cases hr
        · next h2 =>
          split at hr
          · cases hr
          · next h3 =>
            have := length_of_split? h1
            have := length_of_split? h2
            have := length_of_split? h3
            split at hr
            · cases hr
            · obtain ⟨_, _, heq⟩ := Option.map_eq_some_iff.1 hr
              cases heq
              simp only [List.length_cons]
              omega

end FrameHeader

/-! ## Frames -/

/-- A frame that carries content. -/
structure Frame where
  header : FrameHeader
  blocks : List Block
  checksum : Option Nat
  deriving DecidableEq, Repr

namespace Frame

/-- How many bytes the frame takes. -/
def length (f : Frame) : Nat :=
  f.blocks.foldl (fun n b => n + b.length) (f.header.length + if f.checksum.isSome then 4 else 0)

/-- The checksum at the front, if there has to be one. -/
def checksum? (hasChecksum : Bool) (bs : Bytes) : Option (Option Nat × Bytes) :=
  if hasChecksum then (split? 4 bs).map fun (sum, rest) => (some (LittleEndian.toNat sum), rest)
  else some (none, bs)

/-- The frame at the front, after its magic number. -/
def ofBytes? (bs : Bytes) : Option (Frame × Bytes) :=
  match FrameHeader.ofBytes? bs with
  | none => none
  | some (header, bs) =>
    match readBlocks? [] bs with
    | none => none
    | some (blocks, bs) =>
      (checksum? header.hasChecksum bs).map fun (checksum, rest) =>
        (⟨header, blocks, checksum⟩, rest)

theorem length_le_of_ofBytes? {bs rest : Bytes} {f : Frame} (h : ofBytes? bs = some (f, rest)) :
    rest.length ≤ bs.length := by
  unfold ofBytes? at h
  split at h
  · cases h
  · next hh =>
    have := FrameHeader.length_le_of_ofBytes? hh
    split at h
    · cases h
    · next bs2 hb =>
      have := length_lt_of_readBlocks? hb
      obtain ⟨⟨sum, rest'⟩, hc, heq⟩ := Option.map_eq_some_iff.1 h
      cases heq
      unfold checksum? at hc
      split at hc
      · obtain ⟨⟨_, rest''⟩, hs, heq⟩ := Option.map_eq_some_iff.1 hc
        have := length_of_split? hs
        cases heq
        omega
      · cases hc
        omega

end Frame

/-! ## Parts of a stream -/

/-- A part of a stream. -/
inductive Part where
  | frame (f : Frame)
  /-- A frame that is skipped, and how many bytes it carries. -/
  | skipped (size : Nat)
  deriving DecidableEq, Repr

namespace Part

/-- How many bytes the part takes. -/
def length : Part → Nat
  | frame f => f.length
  | skipped size => 8 + size

/-- Skips a frame after its magic number. -/
def skip? (bs : Bytes) : Option (Nat × Bytes) :=
  match split? 4 bs with
  | none => none
  | some (size, bs) =>
    (split? (LittleEndian.toNat size) bs).map fun (carried, rest) => (carried.length, rest)

/-- The part at the front. -/
def ofBytes? (bs : Bytes) : Option (Part × Bytes) :=
  match split? 4 bs with
  | none => none
  | some (head, bs) =>
    let n := LittleEndian.toNat head
    if n = magic then (Frame.ofBytes? bs).map fun (f, rest) => (frame f, rest)
    else if n / 16 = skippedMagic then (skip? bs).map fun (size, rest) => (skipped size, rest)
    else none

theorem length_lt_of_ofBytes? {bs rest : Bytes} {p : Part} (h : ofBytes? bs = some (p, rest)) :
    rest.length < bs.length := by
  unfold ofBytes? at h
  split at h
  · cases h
  · next hs =>
    have := length_of_split? hs
    simp only at h
    split at h
    · obtain ⟨⟨f, rest'⟩, hf, heq⟩ := Option.map_eq_some_iff.1 h
      have := Frame.length_le_of_ofBytes? hf
      cases heq
      simp only
      omega
    · split at h
      · obtain ⟨⟨size, rest'⟩, hk, heq⟩ := Option.map_eq_some_iff.1 h
        cases heq
        unfold skip? at hk
        split at hk
        · cases hk
        · next hs2 =>
          have := length_of_split? hs2
          obtain ⟨⟨carried, rest''⟩, hs3, heq⟩ := Option.map_eq_some_iff.1 hk
          have := length_of_split? hs3
          cases heq
          simp only
          omega
      · cases h

end Part

end OneTimeChannel.Compression
