import TinyTorrent.Torrent

/-!
# Piece and block sizing

When `downloadScheduler` admits piece `index` it computes the piece's byte range in `int64`
arithmetic and cuts it into requests of `RequestSize` bytes, the last one shorter. Offsets go on
the wire as `uint32`. `blockRequests` runs that loop; `tiles` is its closed form while no offset
wraps.
-/

namespace TinyTorrent

/-- `pieceSize` of `downloadScheduler`: `pieceStart := int64(index) * PieceLength`,
`pieceEnd := min(pieceStart + PieceLength, BytesToDownload())`, all in `int64`. -/
def pieceSize (t : MetaInfo) (index : UInt32) : Int :=
  let pieceStart := wrap64 (index.toNat * t.pieceLength)
  let pieceEnd := min (wrap64 (pieceStart + t.pieceLength)) t.bytesToDownload
  wrap64 (pieceEnd - pieceStart)

/-- The request loop of `downloadScheduler` from offset `p`, with `fuel` iterations left. -/
def splitBlocks (index : UInt32) (size : Int) : Nat → Int → Option (List Request)
  | 0, _ => none
  | fuel + 1, p =>
    if p < size then
      let next := if size < wrap64 (p + requestSize) then wrap64 (size - p) else requestSize
      (splitBlocks index size fuel (wrap64 (p + next))).map (⟨index, toUInt32 p, toUInt32 next⟩ :: ·)
    else some []

/-- The `Pending` list of a fresh piece; `none` when the loop never ends. Its offset is an
`int64`, so a run of `2^64` iterations repeats an offset and cycles. -/
def blockRequests (index : UInt32) (size : Int) : Option (List Request) :=
  splitBlocks index size (2^64) 0

theorem splitBlocks_mem (index : UInt32) (size : Int) (hs : IsInt64 size) :
    ∀ (fuel : Nat) (p : Int) (bs : List Request), IsInt64 p → splitBlocks index size fuel p = some bs →
      ∀ r ∈ bs, r.index = index ∧ 0 < r.length.toNat ∧ r.length.toNat ≤ 16384
  | 0, _, _, _, h => by simp [splitBlocks] at h
  | fuel + 1, p, bs, hp, h => by
    have hR : requestSize = 16384 := rfl
    rw [splitBlocks] at h
    by_cases hlt : p < size
    · rw [if_pos hlt] at h
      dsimp only at h
      obtain ⟨rest, hrest, rfl⟩ := Option.map_eq_some'.mp h
      intro r hr
      rcases List.mem_cons.mp hr with rfl | hr
      · refine ⟨rfl, ?_⟩
        dsimp only
        split_ifs with hlast
        · unfold IsInt64 at hs hp
          have h1 : wrap64 (p + requestSize) = p + requestSize := by
            by_contra hne
            unfold wrap64 at hne hlast; rw [hR] at hne hlast; omega
          have h2 : wrap64 (size - p) = size - p := wrap64_of_isInt64 ⟨by omega, by omega⟩
          rw [h1, hR] at hlast
          rw [h2, toUInt32_toNat_of_lt (by omega) (by omega)]
          omega
        · rw [hR, toUInt32_toNat_of_lt (by omega) (by omega)]
          decide
      · exact splitBlocks_mem index size hs fuel _ rest (isInt64_wrap64 _) hrest r hr
    · rw [if_neg hlt] at h
      cases h
      simp

theorem blockRequests_mem {index : UInt32} {size : Int} {bs : List Request} (hs : IsInt64 size)
    (h : blockRequests index size = some bs) :
    ∀ r ∈ bs, r.index = index ∧ 0 < r.length.toNat ∧ r.length.toNat ≤ 16384 :=
  splitBlocks_mem index size hs _ 0 bs ⟨by decide, by decide⟩ h

def tiles (index : UInt32) (size : Int) : Nat → Int → List Request
  | 0, _ => []
  | m + 1, p => ⟨index, toUInt32 p, toUInt32 (min requestSize (size - p))⟩ :: tiles index size m (p + requestSize)

def blockCount (size : Int) : Nat := ((size + requestSize - 1) / requestSize).toNat

theorem splitBlocks_eq_tiles (index : UInt32) (size : Int) (hs : size + requestSize < 2^63) :
    ∀ (m fuel : Nat) (p : Int), m < fuel → 0 ≤ p → size - p ≤ m * requestSize →
      m * requestSize - requestSize < size - p →
      splitBlocks index size fuel p = some (tiles index size m p)
  | m, 0, p, hf, _, _, _ => absurd hf (Nat.not_lt_zero m)
  | 0, fuel + 1, p, _, _, h1, _ => by
    rw [splitBlocks, if_neg (by simp at h1; omega)]
    rfl
  | m + 1, fuel + 1, p, hf, hp, h1, h2 => by
    have hR : requestSize = 16384 := rfl
    rw [hR] at h1 h2 hs
    push_cast at h1 h2
    have hlt : p < size := by omega
    have hw : wrap64 (p + 16384) = p + 16384 := wrap64_of_isInt64 ⟨by omega, by omega⟩
    rw [splitBlocks, if_pos hlt, tiles]
    dsimp only
    rw [hR, hw]
    split_ifs with hlast
    · have hm : m = 0 := by omega
      subst hm
      rw [wrap64_of_isInt64 ⟨by omega, by omega⟩, show p + (size - p) = size by ring,
        wrap64_of_isInt64 ⟨by omega, by omega⟩, min_eq_right (by omega)]
      cases fuel with
      | zero => omega
      | succ fuel => simp [splitBlocks, tiles]
    · rw [min_eq_left (by omega), hw,
        splitBlocks_eq_tiles index size hs m fuel (p + 16384) (by omega) (by omega)
          (by rw [hR]; omega) (by rw [hR]; omega)]
      rfl

theorem blockRequests_eq_tiles (index : UInt32) (size : Int) (h0 : 0 ≤ size)
    (hs : size + requestSize < 2^63) :
    blockRequests index size = some (tiles index size (blockCount size) 0) := by
  have hn : (blockCount size : Int) = (size + requestSize - 1) / requestSize := by
    unfold blockCount requestSize; omega
  apply splitBlocks_eq_tiles index size hs _ _ 0 _ le_rfl <;> unfold requestSize at * <;> omega

@[simp] theorem length_tiles (index : UInt32) (size : Int) :
    ∀ m p, (tiles index size m p).length = m
  | 0, _ => rfl
  | m + 1, p => by simp [tiles, length_tiles index size m]

theorem getElem_tiles (index : UInt32) (size : Int) :
    ∀ (m : Nat) (p : Int) (k : Nat) (hk : k < (tiles index size m p).length),
      (tiles index size m p)[k] = ⟨index, toUInt32 (p + k * requestSize),
        toUInt32 (min requestSize (size - (p + k * requestSize)))⟩
  | 0, _, k, hk => by simp at hk
  | m + 1, p, 0, _ => by simp [tiles]
  | m + 1, p, k + 1, hk => by
    have e : p + requestSize + k * requestSize = p + ((k + 1 : Nat) : Int) * requestSize := by
      push_cast; ring
    simp only [tiles, List.getElem_cons_succ]
    rw [getElem_tiles index size m (p + requestSize) k (by simpa using hk), e]

/-- Requests that follow each other from offset `p` on, none of them empty: no gap and no
overlap. -/
def Contiguous : List Request → Nat → Prop
  | [], _ => True
  | r :: rs, p => r.begin.toNat = p ∧ 0 < r.length.toNat ∧ Contiguous rs (p + r.length.toNat)

theorem Contiguous.le_begin : ∀ {rs : List Request} {p : Nat}, Contiguous rs p → ∀ r ∈ rs, p ≤ r.begin.toNat
  | [], _, _, _, h => absurd h (List.not_mem_nil _)
  | _ :: _, _, ⟨hb, _, hc⟩, r, hr => by
    rcases List.mem_cons.mp hr with rfl | hr
    · omega
    · have := hc.le_begin r hr
      omega

theorem Contiguous.length_pos : ∀ {rs : List Request} {p : Nat}, Contiguous rs p → ∀ r ∈ rs, 0 < r.length.toNat
  | [], _, _, _, h => absurd h (List.not_mem_nil _)
  | _ :: _, _, ⟨_, hl, hc⟩, r, hr => by
    rcases List.mem_cons.mp hr with rfl | hr
    · exact hl
    · exact hc.length_pos r hr

theorem Contiguous.pairwise : ∀ {rs : List Request} {p : Nat}, Contiguous rs p →
    rs.Pairwise fun a b => a.begin.toNat < b.begin.toNat
  | [], _, _ => .nil
  | _ :: _, _, ⟨hb, hl, hc⟩ => .cons (fun r hr => by have := hc.le_begin r hr; omega) hc.pairwise

theorem index_of_mem_tiles {index : UInt32} {size : Int} :
    ∀ {m : Nat} {p : Int} {r : Request}, r ∈ tiles index size m p → r.index = index
  | 0, _, _, h => absurd h (List.not_mem_nil _)
  | _ + 1, _, _, h => by
    rcases List.mem_cons.mp h with rfl | h
    · rfl
    · exact index_of_mem_tiles h

theorem tiles_contiguous (index : UInt32) (size : Int) (hs : size ≤ 2^32) :
    ∀ (m : Nat) (p : Int), 0 ≤ p → size - p ≤ m * requestSize → m * requestSize - requestSize < size - p →
      Contiguous (tiles index size m p) p.toNat ∧
        ((tiles index size m p).map (·.length.toNat)).sum = (size - p).toNat
  | 0, _, _, h1, _ => ⟨trivial, by simp only [tiles, List.map_nil, List.sum_nil]; omega⟩
  | m + 1, p, hp, h1, h2 => by
    have hR : requestSize = 16384 := rfl
    rw [hR] at h1 h2
    push_cast at h1 h2
    obtain ⟨hc, hsum⟩ := tiles_contiguous index size hs m (p + 16384) (by omega) (by rw [hR]; omega)
      (by rw [hR]; omega)
    have hb : (toUInt32 p).toNat = p.toNat := toUInt32_toNat_of_lt hp (by omega)
    have hl : (toUInt32 (min 16384 (size - p))).toNat = (min 16384 (size - p)).toNat :=
      toUInt32_toNat_of_lt (by omega) (by omega)
    simp only [tiles, Contiguous, List.map_cons, List.sum_cons, hR, hb, hl, hsum, true_and]
    refine ⟨⟨by omega, ?_⟩, by omega⟩
    rcases Nat.eq_zero_or_pos m with rfl | hm
    · trivial
    · rwa [show p.toNat + (min 16384 (size - p)).toNat = (p + 16384).toNat by omega]

theorem tiles_contiguous_of_le (index : UInt32) {size : Int} (hs : size ≤ 2^32) :
    Contiguous (tiles index size (blockCount size) 0) 0 ∧
      ((tiles index size (blockCount size) 0).map (·.length.toNat)).sum = size.toNat := by
  have hR : requestSize = 16384 := rfl
  rcases le_or_lt size 0 with h0 | h0
  · rw [show blockCount size = 0 by unfold blockCount; rw [hR]; omega]
    exact ⟨trivial, by simp only [tiles, List.map_nil, List.sum_nil]; omega⟩
  · simpa using tiles_contiguous index size hs (blockCount size) 0 le_rfl
      (by unfold blockCount; rw [hR]; omega) (by unfold blockCount; rw [hR]; omega)

theorem blockRequests_of_le (index : UInt32) {size : Int} (hs : size ≤ 2^32) :
    blockRequests index size = some (tiles index size (blockCount size) 0) := by
  rcases le_or_lt size 0 with h0 | h0
  · rw [show blockCount size = 0 by unfold blockCount requestSize; omega]
    show splitBlocks index size (2^64 - 1 + 1) 0 = some []
    rw [splitBlocks, if_neg (by omega)]
  · exact blockRequests_eq_tiles index size h0.le (by unfold requestSize; omega)

theorem pieceSize_le (t : MetaInfo) (i : UInt32) (hL : 0 < t.pieceLength) (hLw : t.pieceLength < 2^63)
    (hT : 0 ≤ t.bytesToDownload) : pieceSize t i ≤ t.pieceLength := by
  unfold pieceSize wrap64
  dsimp only
  generalize (i.toNat : Int) * t.pieceLength = x
  omega

end TinyTorrent
