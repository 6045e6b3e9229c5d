/-
  Codecs: what a channel compresses payloads with.

  A codec is a compressor and a decompressor.  Channels work with any codec and assume nothing of it;
  where payloads have to come back as they were, that is the hypothesis `Codec.Restores`.  The codec at
  hand, `Codec.stored`, writes blocks as they are and reads streams of frames, and it restores all there
  is to restore (`Codec.restores_stored`).

  Core only.
-/
import OneTimeChannel.Compression.Stream

namespace OneTimeChannel

/-- A compressor and a decompressor. -/
structure Codec where
  /-- The compressed form of a payload, or the text of what went wrong. -/
  compress : Bytes → Except String Bytes
  /-- The content of a compressed form.  Beyond the limit there is no need to go on. -/
  decompress? (limit : Nat) : Bytes → Option Bytes

namespace Codec

/-- Compressing without searching for repetitions. -/
def stored : Codec where
  compress content := .ok (Compression.compress content)
  decompress? := Compression.decompress?

/-- What was compressed is what decompressing gives back, up to any limit that it keeps. -/
def Restores (z : Codec) : Prop :=
  ∀ limit content packed, z.compress content = .ok packed → content.length ≤ limit →
    z.decompress? limit packed = some content

theorem restores_stored : stored.Restores := by
  intro limit content packed h hle
  cases h
  exact Compression.decompress?_compress hle

end Codec

end OneTimeChannel
