import TinyTorrent.Primitives

/-!
# Torrent collaborators

The metainfo accessors and the peer-wire messages the download engine uses. Their packages
(`torrent`, `messagesv1`) are not among the sources; they are modelled from the spec: a
`request` carries `index, begin, length : u32`, a `piece` carries `index, begin : u32` and
the block, and a frame is a `u32` length followed by that many bytes.
-/

namespace TinyTorrent

/-- Modelled from the spec: `messagesv1.RequestSize`, the block request length of 16 KiB. -/
def requestSize : Int := 16384

/-- Modelled from the spec: `messagesv1.Request`, one block request as it goes on the wire. -/
structure Request where
  index : UInt32
  begin : UInt32
  length : UInt32
  deriving DecidableEq, Repr

/-- Modelled from the spec: `messagesv1.Piece`. The frame's `u32` length counts the id byte,
`index`, `begin` and the block, so a block is shorter than `2^32 - 9` bytes. -/
structure Piece where
  index : UInt32
  begin : UInt32
  block : Bytes
  block_lt : block.length + 9 < 2^32
  deriving DecidableEq

/-- The request a block answers: `{recv.Index, recv.Begin, uint32(len(recv.Block))}`. -/
def Piece.request (m : Piece) : Request := ⟨m.index, m.begin, m.block.length.toUInt32⟩

theorem Piece.length_request (m : Piece) : m.request.length.toNat = m.block.length := by
  have := m.block_lt
  simp only [Piece.request, Nat.toUInt32, UInt32.toNat_ofNat_of_lt (show m.block.length < UInt32.size by
    unfold UInt32.size; omega)]

/-- Modelled from the spec: what the engine reads of `torrent.MetaInfoFile`. -/
structure MetaInfo where
  /-- `Torrent.PieceLength`. -/
  pieceLength : Int
  /-- `BytesToDownload()`: the total content length. -/
  bytesToDownload : Int
  /-- `PieceHash(i)`: the expected SHA-1 digest of piece `i`. -/
  pieceHash : UInt32 → Bytes

end TinyTorrent
