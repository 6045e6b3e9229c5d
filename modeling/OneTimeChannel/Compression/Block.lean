/-
  Blocks of compressed payloads.

  A block has a head of three bytes that says whether it is the last one of its frame, how it is
  stored and how long it is.  Two ways to store it are known here: the bytes themselves, and one
  byte with a count.  The third way, by entropy coding, is known only for a block of no bytes, which
  stands for no content.

  Content is cut into blocks that are stored as they are (`storeBlocks`), and reading the blocks
  gives it back (`readBlocks?_storeBlocks`).

  Core only.
-/
import OneTimeChannel.Bytes

namespace OneTimeChannel.Compression

/-! ## Taking bytes off the front -/

/-- Takes exactly `n` bytes off the front. -/
def split? (n : Nat) (bs : Bytes) : Option (Bytes × Bytes) :=
  let front := bs.take n
  if front.length = n then some (front, bs.drop n) else none

theorem split?_append {front : Bytes} {n : Nat} (h : front.length = n) (rest : Bytes) :
    split? n (front ++ rest) = some (front, rest) := by
  subst h
  simp [split?]

theorem eq_append_of_split? {n : Nat} {bs front rest : Bytes}
    (h : split? n bs = some (front, rest)) : front.length = n ∧ bs = front ++ rest := by
  simp only [split?] at h
  split at h
  · next hlen =>
    cases h
    exact ⟨hlen, (List.take_append_drop n bs).symm⟩
  · cases h

theorem length_of_split? {n : Nat} {bs front rest : Bytes} (h : split? n bs = some (front, rest)) :
    bs.length = n + rest.length := by
  obtain ⟨rfl, rfl⟩ := eq_append_of_split? h
  simp

/-! ## Blocks -/

/-- The most bytes that a block holds. -/
def maxBlock : Nat := 128 * 1024

/-- A block of a frame. -/
inductive Block where
  /-- The bytes themselves. -/
  | stored (content : Bytes)
  /-- One byte, that many times. -/
  | run (byte : UInt8) (count : Nat)
  /-- An entropy-coded block of no bytes. -/
  | hollow
  deriving DecidableEq, Repr

namespace Block

def content : Block → Bytes
  | stored content => content
  | run byte count => List.replicate count byte
  | hollow => []

/-- The length of the content. -/
def size : Block → Nat
  | stored content => content.length
  | run _ count => count
  | hollow => 0

/-- How many bytes follow the head. -/
def bodyLength : Block → Nat
  | stored content => content.length
  | run _ _ => 1
  | hollow => 0

/-- How many bytes the block takes. -/
def length (b : Block) : Nat := 3 + b.bodyLength

/-- Whether a block may stand in a frame whose blocks hold at most `limit` bytes. -/
def fits (limit : Nat) (b : Block) : Bool := b.bodyLength ≤ limit && b.size ≤ limit

@[simp] theorem length_content (b : Block) : b.content.length = b.size := by
  cases b <;> simp [content, size]

theorem fits_stored {limit : Nat} {content : Bytes} :
    (stored content).fits limit = true ↔ content.length ≤ limit := by
  rw [fits, Bool.and_eq_true, decide_eq_true_eq, decide_eq_true_eq]
  exact and_self_iff

/-- The block of the given kind and size, behind its head. -/
def ofBody? (kind size : Nat) (bs : Bytes) : Option (Block × Bytes) :=
  match kind, bs with
  | 0, bs => (split? size bs).map fun (content, rest) => (stored content, rest)
  | 1, b :: rest => some (run b size, rest)
  | 2, rest => if size = 0 then some (hollow, rest) else none
  | _, _ => none

/-- The block at the front, and whether it is the last one. -/
def ofBytes? (bs : Bytes) : Option (Block × Bool × Bytes) :=
  match split? 3 bs with
  | none => none
  | some (head, rest) =>
    let n := LittleEndian.toNat head
    (ofBody? (n / 2 % 4) (n / 8) rest).map fun (b, rest) => (b, n % 2 == 1, rest)

/-- A block whose bytes are stored as they are. -/
def store (content : Bytes) (last : Bool) : Bytes :=
  LittleEndian.ofNat 3 (8 * content.length + last.toNat) ++ content

theorem length_le_of_ofBody? {kind size : Nat} {bs rest : Bytes} {b : Block}
    (h : ofBody? kind size bs = some (b, rest)) : rest.length ≤ bs.length := by
  unfold ofBody? at h
  split at h
  · obtain ⟨⟨content, rest'⟩, hs, heq⟩ := Option.map_eq_some_iff.1 h
    have := length_of_split? hs
    cases heq
    omega
  · cases h
    simp
  · split at h
    · cases h
      exact Nat.le_refl _
    · cases h
  · cases h

theorem length_lt_of_ofBytes? {bs rest : Bytes} {b : Block} {last : Bool}
    (h : ofBytes? bs = some (b, last, rest)) : rest.length < bs.length := by
  unfold ofBytes? at h
  split at h
  · cases h
  · next hs =>
    have := length_of_split? hs
    obtain ⟨⟨b', rest'⟩, hb, heq⟩ := Option.map_eq_some_iff.1 h
    have := length_le_of_ofBody? hb
    cases heq
    omega

/-- A stored block is read back. -/
theorem ofBytes?_store {content : Bytes} (h : content.length ≤ maxBlock) (last : Bool)
    (rest : Bytes) : ofBytes? (store content last ++ rest) = some (stored content, last, rest) := by
  have hbool : last.toNat < 2 := Bool.toNat_lt last
  have hhead := LittleEndian.toNat_ofNat 3 (8 * content.length + last.toNat)
  rw [Nat.mod_eq_of_lt (by simp only [maxBlock] at h; omega)] at hhead
  have hsize : (8 * content.length + last.toNat) / 8 = content.length := by omega
  have hkind : (8 * content.length + last.toNat) / 2 % 4 = 0 := by omega
  have hlast : ((8 * content.length + last.toNat) % 2 == 1) = last := by
    cases last <;> simp <;> omega
  simp only [ofBytes?, store, List.append_assoc, split?_append (LittleEndian.length_ofNat 3 _),
    hhead, hsize, hkind, hlast, ofBody?, split?_append rfl, Option.map_some]

end Block

/-! ## Blocks of a frame -/

/-- Reads blocks up to the last one.  The blocks before, the latest first, are `earlier`. -/
def readBlocks? (earlier : List Block) (bs : Bytes) : Option (List Block × Bytes) :=
  match _h : Block.ofBytes? bs with
  | none => none
  | some (b, last, rest) =>
    if last then some ((b :: earlier).reverse, rest) else readBlocks? (b :: earlier) rest
termination_by bs.length
decreasing_by exact Block.length_lt_of_ofBytes? _h

theorem readBlocks?_of_block {earlier : List Block} {bs rest : Bytes} {b : Block} {last : Bool}
    (h : Block.ofBytes? bs = some (b, last, rest)) :
    readBlocks? earlier bs = if last then some ((b :: earlier).reverse, rest)
      else readBlocks? (b :: earlier) rest := by
  rw [readBlocks?]
  split
  · next heq =>
    rw [h] at heq
    cases heq
  · next heq =>
    rw [h] at heq
    cases heq
    rfl

theorem length_lt_of_readBlocks? {earlier blocks : List Block} {bs rest : Bytes}
    (h : readBlocks? earlier bs = some (blocks, rest)) : rest.length < bs.length := by
  fun_induction readBlocks? earlier bs with
  | case1 => cases h
  | case2 earlier bs b rest' hb =>
    cases h
    exact Block.length_lt_of_ofBytes? hb
  | case3 earlier bs b last rest' hb _ ih =>
    have := Block.length_lt_of_ofBytes? hb
    have := ih h
    omega

/-- Stores content in blocks.  An empty content has one empty block. -/
def storeBlocks (content : Bytes) : Bytes :=
  let rest := content.drop maxBlock
  if _h : rest = [] then Block.store content true
  else Block.store (content.take maxBlock) false ++ storeBlocks rest
termination_by content.length
decreasing_by
  have hlen : (content.drop maxBlock).length ≠ 0 := fun h0 => _h (List.length_eq_zero_iff.1 h0)
  simp only [List.length_drop, maxBlock] at hlen ⊢
  omega

/-- Stored blocks are read back; all of them fit and together they hold the content. -/
theorem readBlocks?_storeBlocks (content rest : Bytes) (earlier : List Block) :
    ∃ blocks, readBlocks? earlier (storeBlocks content ++ rest)
        = some (earlier.reverse ++ blocks, rest)
      ∧ blocks.flatMap Block.content = content
      ∧ ∀ b ∈ blocks, b.fits maxBlock = true := by
  fun_induction storeBlocks content generalizing earlier with
  | case1 content tail hnil =>
    have hlen : content.length ≤ maxBlock := List.drop_eq_nil_iff.1 hnil
    refine ⟨[.stored content], ?_, ?_, ?_⟩
    · rw [readBlocks?_of_block (Block.ofBytes?_store hlen true rest)]
      simp
    · simp [Block.content]
    · intro b hb
      rcases List.mem_singleton.1 hb with rfl
      exact Block.fits_stored.2 hlen
  | case2 content tail hne ih =>
    have hlen : (content.take maxBlock).length ≤ maxBlock := List.length_take_le _ _
    obtain ⟨blocks, hread, hcontent, hfits⟩ := ih (.stored (content.take maxBlock) :: earlier)
    refine ⟨.stored (content.take maxBlock) :: blocks, ?_, ?_, ?_⟩
    · rw [List.append_assoc, readBlocks?_of_block (Block.ofBytes?_store hlen false _)]
      simpa using hread
    · rw [List.flatMap_cons, hcontent]
      exact List.take_append_drop maxBlock content
    · intro b hb
      rcases List.mem_cons.1 hb with rfl | hb
      · exact Block.fits_stored.2 hlen
      · exact hfits b hb

/-! ## Content of blocks -/

/-- The length of the content of blocks. -/
def totalSize (blocks : List Block) : Nat := blocks.foldl (fun n b => n + b.size) 0

theorem foldl_size (blocks : List Block) (n : Nat) :
    blocks.foldl (fun n b => n + b.size) n = n + (blocks.flatMap Block.content).length := by
  induction blocks generalizing n with
  | nil => rfl
  | cons b blocks ih =>
    simp only [List.foldl_cons, ih, List.flatMap_cons, List.length_append, Block.length_content]
    omega

theorem totalSize_eq (blocks : List Block) :
    totalSize blocks = (blocks.flatMap Block.content).length := by
  simp [totalSize, foldl_size]

end OneTimeChannel.Compression
