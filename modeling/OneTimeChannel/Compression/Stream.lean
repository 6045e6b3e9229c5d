/-
  Compressed payloads: streams of frames.

  The contents of the frames of a stream are joined.  What a frame is checked for depends on how it
  is read.  If it announces a size for which there is room, and all of it is at hand, it is read in
  one go, and its size has to be right.  Otherwise it is read block by block: then its window is
  bounded, its blocks are bounded by the window, and its size is checked behind its last block,
  unless that block has no body.

  Content beyond a limit is refused before it is produced, so that a short stream cannot demand any
  amount of memory (`length_le_of_decompress?`).  `compress` needs only blocks that are stored as
  they are, so it always succeeds, and `decompress?` gives back what it was given
  (`decompress?_compress`).

  Core only.
-/
import OneTimeChannel.Compression.Checksum
import OneTimeChannel.Compression.Delivery
import OneTimeChannel.Compression.Frame

namespace OneTimeChannel.Compression

/-! ## Buffers for reading block by block -/

/-- The largest window that is read block by block. -/
def maxWindow : Nat := (1 <<< 27) + 1

/-- The most content of a block of the frame. -/
def FrameHeader.blockLimit (h : FrameHeader) : Nat := min h.window maxBlock

/-- The sizes of the two buffers for reading block by block. -/
structure Buffers where
  input : Nat := 0
  output : Nat := 0
  deriving DecidableEq, Repr

namespace Buffers

/-- The sizes that are needed for a window, blocks up to a limit, and a size that may be known. -/
def needed (window blockLimit : Nat) (size : Option Nat) : Buffers :=
  let window := max window 1024
  let whole := window + 2 * min window blockLimit + 64
  ⟨max blockLimit 4, (size.map (min whole)).getD whole⟩

/-- Buffers are kept unless one of them is too small; then both are replaced. -/
def replace (old new : Buffers) : Buffers :=
  if old.input < new.input ∨ old.output < new.output then new else old

/-- Whether content fits that is not known to be larger than the output buffer. -/
def fits (b : Buffers) (announced : Option Nat) (size : Nat) : Bool :=
  match announced with
  | some n => b.output < n || size ≤ b.output
  | none => true

end Buffers

/-! ## Checks of frames -/

namespace Frame

def size (f : Frame) : Nat := totalSize f.blocks

def content (f : Frame) : Bytes := f.blocks.flatMap Block.content

/-- Whether the checksum is right, if there is one. -/
def hasRightSum (f : Frame) : Bool := f.checksum.all (· = Checksum.ofContent f.content)

/-- Whether a frame is right that is read in one go. -/
def isRightAtOnce (f : Frame) : Bool :=
  f.header.contentSize == some f.size && !f.blocks.contains .hollow

/-- Whether the size is right or is not looked at, behind a last block without a body. -/
def endsRight (f : Frame) : Bool :=
  f.header.contentSize.all (· = f.size) || f.blocks.getLast?.any fun b => b.bodyLength == 0

/-- Whether a frame is right that is read block by block. -/
def isRightByBlocks (f : Frame) (b : Buffers) : Bool :=
  f.header.window ≤ maxWindow && f.blocks.all (Block.fits f.header.blockLimit) && f.endsRight
    && b.fits f.header.contentSize f.size

end Frame

/-! ## Streams -/

/-- What has been read of a stream. -/
structure Progress where
  /-- How many bytes of the input. -/
  offset : Nat := 0
  buffers : Buffers := {}
  delivery : Delivery := {}
  /-- The contents, the latest first. -/
  pieces : List Bytes := []
  /-- How many more bytes of content are accepted. -/
  room : Nat

namespace Progress

def content (p : Progress) : Bytes := p.pieces.reverse.flatten

/-- Whether a frame is read in one go: the read has room for the size it announces, and it lies in
    one piece of the input. -/
def readsAtOnce (p : Progress) (f : Frame) : Bool :=
  f.header.contentSize.any (· ≤ min p.delivery.room (p.room + 1))
    && !pieceEnds p.offset (p.offset + f.length - 1)

/-- How the buffers and the current read are after a frame. -/
def pass? (p : Progress) (f : Frame) : Option (Buffers × Delivery) :=
  if p.readsAtOnce f then
    if f.isRightAtOnce then some (p.buffers, (p.delivery.deliver f.size).pause) else none
  else
    let h := f.header
    let buffers := p.buffers.replace (.needed h.window h.blockLimit h.contentSize)
    if f.isRightByBlocks buffers then
      some (buffers, (p.delivery.passBlocks (p.offset + h.length) f.blocks).pause)
    else none

/-- Joins the content of a frame. -/
def addFrame? (p : Progress) (f : Frame) : Option Progress :=
  if p.room < f.size then none
  else if !f.hasRightSum then none
  else (p.pass? f).map fun (buffers, delivery) =>
    ⟨p.offset + f.length, buffers, delivery, f.content :: p.pieces, p.room - f.size⟩

/-- Goes past a part of the stream. -/
def add? (p : Progress) (part : Part) : Option Progress :=
  match part with
  | .frame f => p.addFrame? f
  | .skipped size =>
    some { p with
      offset := p.offset + part.length
      buffers := p.buffers.replace (.needed 0 0 (some size)) }

end Progress

/-- Reads the parts of a stream to its end, at least one. -/
def readParts? (p : Progress) (bs : Bytes) : Option Progress :=
  match _h : Part.ofBytes? bs with
  | none => none
  | some (part, rest) =>
    match p.add? part, rest with
    | none, _ => none
    | some p, [] => some p
    | some p, b :: rest => readParts? p (b :: rest)
termination_by bs.length
decreasing_by exact Part.length_lt_of_ofBytes? _h

/-- The content of a stream, at most `limit` bytes. -/
def decompress? (limit : Nat) (bs : Bytes) : Option Bytes :=
  (readParts? { room := limit } bs).map Progress.content

/-- The header of the frames that are written: any content size, a window of two megabytes. -/
def writtenHeader : Bytes := [0x00, 0x58]

/-- One frame with the given content. -/
def compress (content : Bytes) : Bytes :=
  LittleEndian.ofNat 4 magic ++ (writtenHeader ++ storeBlocks content)

/-! ## Both directions -/

theorem readParts?_of_last {p p' : Progress} {part : Part} {bs : Bytes}
    (h : Part.ofBytes? bs = some (part, [])) (hp : p.add? part = some p') :
    readParts? p bs = some p' := by
  rw [readParts?]
  split
  · next heq =>
    rw [h] at heq
    cases heq
  · next heq =>
    rw [h] at heq
    cases heq
    simp [hp]

/-- What was compressed is what decompressing gives back. -/
theorem decompress?_compress {limit : Nat} {content : Bytes} (h : content.length ≤ limit) :
    decompress? limit (compress content) = some content := by
  obtain ⟨blocks, hread, hcontent, hfits⟩ := readBlocks?_storeBlocks content [] []
  have hheader : FrameHeader.ofBytes? (writtenHeader ++ storeBlocks content)
      = some (⟨2 ^ 21, none, false, 6⟩, storeBlocks content) := by
    simp [FrameHeader.ofBytes?, writtenHeader, split?, FrameHeader.dictionaryIdSize,
      FrameHeader.contentSizeSize, FrameHeader.contentSizeOf, FrameHeader.windowOf?,
      LittleEndian.toNat]
  have hmagic : LittleEndian.toNat (LittleEndian.ofNat 4 magic) = magic := by
    rw [LittleEndian.toNat_ofNat]
    decide
  let f : Frame := ⟨⟨2 ^ 21, none, false, 6⟩, blocks, none⟩
  have hpart : Part.ofBytes? (compress content) = some (.frame f, []) := by
    simp only [List.append_nil, List.reverse_nil, List.nil_append] at hread
    simp [Part.ofBytes?, compress, split?_append (LittleEndian.length_ofNat 4 magic), hmagic,
      Frame.ofBytes?, hheader, hread, Frame.checksum?, f]
  have hsize : f.size = content.length := by
    simp [Frame.size, totalSize_eq, f, hcontent]
  have hright (b : Buffers) : f.isRightByBlocks b = true := by
    simp only [Frame.isRightByBlocks, Frame.endsRight, Buffers.fits, FrameHeader.blockLimit, f,
      Bool.and_eq_true, List.all_eq_true]
    refine ⟨⟨⟨by simp [maxWindow], fun b hb => ?_⟩, by simp⟩, trivial⟩
    rw [show min (2 ^ 21) maxBlock = maxBlock by decide]
    exact hfits b hb
  have hsum : f.hasRightSum = true := rfl
  have hadd : ∃ p, Progress.add? { room := limit } (.frame f) = some p
      ∧ p.pieces = [f.content] := by
    simp [Progress.add?, Progress.addFrame?, hsize, Nat.not_lt.2 h, hsum, Progress.pass?,
      Progress.readsAtOnce, hright, show f.header.contentSize = none from rfl]
  obtain ⟨p, hp, hpieces⟩ := hadd
  rw [decompress?, readParts?_of_last hpart hp]
  simp [Progress.content, hpieces, Frame.content, f, hcontent]

/-! ## The limit -/

/-- The bytes read so far and those that may follow. -/
def Progress.capacity (p : Progress) : Nat := p.content.length + p.room

theorem capacity_of_add? {p p' : Progress} {part : Part} (h : p.add? part = some p') :
    p'.capacity = p.capacity := by
  cases part with
  | skipped size =>
    cases h
    rfl
  | frame f =>
    simp only [Progress.add?, Progress.addFrame?] at h
    split at h
    · cases h
    · split at h
      · cases h
      · obtain ⟨_, _, heq⟩ := Option.map_eq_some_iff.1 h
        cases heq
        have hsize : f.content.length = f.size := (totalSize_eq f.blocks).symm
        simp only [Progress.capacity, Progress.content, List.reverse_cons, List.flatten_append,
          List.flatten_singleton, List.length_append]
        omega

theorem capacity_of_readParts? {p p' : Progress} {bs : Bytes} (h : readParts? p bs = some p') :
    p'.capacity = p.capacity := by
  fun_induction readParts? p bs with
  | case1 => cases h
  | case2 => cases h
  | case3 p bs part q hpart hadd =>
    cases h
    exact capacity_of_add? hadd
  | case4 p bs part q b rest _ hadd _ ih => rw [ih h, capacity_of_add? hadd]

/-- No stream produces more than the limit. -/
theorem length_le_of_decompress? {limit : Nat} {bs content : Bytes}
    (h : decompress? limit bs = some content) : content.length ≤ limit := by
  obtain ⟨p, hread, rfl⟩ := Option.map_eq_some_iff.1 h
  have hcap := capacity_of_readParts? hread
  simp only [Progress.capacity] at hcap
  have hstart : (Progress.content { room := limit }).length = 0 := rfl
  omega

end OneTimeChannel.Compression
