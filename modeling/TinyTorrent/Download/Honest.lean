import TinyTorrent.Download.Progress
import TinyTorrent.Download.Flush

/-!
# A download with honest peers

The engine can finish: with honest peers, a working store and pieces of one to `2^32` bytes, a run
from the start of `downloadScheduler` takes the pieces in queue order through slot `0`, verifies and
flushes each with its content, and closes `t.download.completed` (`honest_download_completes`).
-/

namespace TinyTorrent

/-- The block an honest peer sends for `r`: the bytes `[Begin, Begin + Length)` of the content of
piece `r.index`, at most `RequestSize` of them. -/
def honestBlock (content : UInt32 → Bytes) (r : Request) : Piece :=
  ⟨r.index, r.begin, ((content r.index).drop r.begin.toNat).take (min r.length.toNat 16384), by
    rw [List.length_take]; omega⟩

/-- The requests `bs` of piece `index` cover its content block by block: they follow each other
from `0`, none is longer than `RequestSize`, and their lengths add up to the content's `size`. -/
structure HonestTiling (content : UInt32 → Bytes) (index : UInt32) (size : Int) (bs : List Request) :
    Prop where
  contiguous : Contiguous bs 0
  index_eq : ∀ r ∈ bs, r.index = index
  length_le : ∀ r ∈ bs, r.length.toNat ≤ 16384
  sum_eq : (bs.map (·.length.toNat)).sum = (content index).length
  content_length : ((content index).length : Int) = size

def prefixLength (bs : List Request) (k : Nat) : Nat := ((bs.take k).map (·.length.toNat)).sum

theorem prefixLength_succ {bs : List Request} {k : Nat} (hk : k < bs.length) :
    prefixLength bs (k + 1) = prefixLength bs k + bs[k].length.toNat := by
  rw [prefixLength, prefixLength, List.take_succ, List.getElem?_eq_getElem hk, List.map_append, List.sum_append]
  simp only [Option.toList_some, List.map_cons, List.map_nil, List.sum_cons, List.sum_nil, Nat.add_zero]

theorem prefixLength_length (bs : List Request) : prefixLength bs bs.length = (bs.map (·.length.toNat)).sum := by
  rw [prefixLength, List.take_length]

theorem prefixLength_le (bs : List Request) (k : Nat) : prefixLength bs k ≤ (bs.map (·.length.toNat)).sum := by
  rw [prefixLength, ← List.sum_take_add_sum_drop (bs.map _) k, List.map_take]
  exact Nat.le_add_right _ _

theorem prefixLength_lt {bs : List Request} (hpos : ∀ r ∈ bs, 0 < r.length.toNat) {k : Nat} (hk : k < bs.length) :
    prefixLength bs k < (bs.map (·.length.toNat)).sum := by
  have h := prefixLength_le bs (k + 1)
  rw [prefixLength_succ hk] at h
  have := hpos _ (List.getElem_mem hk)
  omega

theorem Contiguous.begin_getElem : ∀ {rs : List Request} {p : Nat}, Contiguous rs p →
    ∀ (k : Nat) (hk : k < rs.length), rs[k].begin.toNat = p + prefixLength rs k
  | [], _, _, k, hk => absurd hk (Nat.not_lt_zero k)
  | _ :: _, _, ⟨hb, _, _⟩, 0, _ => by simp [prefixLength, hb]
  | r :: rs, p, ⟨_, _, hc⟩, k + 1, hk => by
    rw [List.getElem_cons_succ, hc.begin_getElem k (by simpa using hk)]
    simp only [prefixLength, List.take_succ_cons, List.map_cons, List.sum_cons]
    omega

namespace HonestTiling

variable {content : UInt32 → Bytes} {index : UInt32} {size : Int} {bs : List Request}

theorem end_le (h : HonestTiling content index size bs) {k : Nat} (hk : k < bs.length) :
    bs[k].begin.toNat + bs[k].length.toNat ≤ (content index).length := by
  have h1 := h.contiguous.begin_getElem k hk
  have h2 := prefixLength_le bs (k + 1)
  rw [prefixLength_succ hk] at h2
  have := h.sum_eq
  omega

theorem length_block (h : HonestTiling content index size bs) {k : Nat} (hk : k < bs.length) :
    (honestBlock content bs[k]).block.length = bs[k].length.toNat := by
  have he := h.end_le hk
  have hl := h.length_le _ (List.getElem_mem hk)
  simp only [honestBlock, h.index_eq _ (List.getElem_mem hk), List.length_take, List.length_drop]
  omega

theorem request_block (h : HonestTiling content index size bs) {k : Nat} (hk : k < bs.length) :
    (honestBlock content bs[k]).request = bs[k] := by
  have hl := h.length_block hk
  simp only [Piece.request] at hl ⊢
  rw [hl]
  exact congrArg (Request.mk _ _) (UInt32.toNat.inj (UInt32.toNat_ofNat_of_lt (UInt32.toNat_lt_size _)))

end HonestTiling

/-- A block that holds the content's bytes at its offset: what an honest peer sends, whatever it
was asked for. -/
def HonestBlock (content : UInt32 → Bytes) (m : Piece) : Prop :=
  ((content m.index).drop m.begin.toNat).take m.block.length = m.block

instance (content : UInt32 → Bytes) (m : Piece) : Decidable (HonestBlock content m) :=
  inferInstanceAs (Decidable (_ = _))

theorem honestBlock_honest (content : UInt32 → Bytes) (r : Request) : HonestBlock content (honestBlock content r) := by
  rw [HonestBlock, honestBlock, List.length_take, ← List.take_take, List.take_length]

theorem assemble_honest (content : UInt32 → Bytes) (index : UInt32) :
    ∀ (bs : List Piece) (p : Nat), Contiguous (bs.map Piece.request) p → (∀ b ∈ bs, b.index = index) →
      (∀ b ∈ bs, HonestBlock content b) →
      assemble bs = ((content index).drop p).take (bs.map (·.block.length)).sum
  | [], _, _, _, _ => by simp [assemble]
  | b :: bs, p, ⟨hb, _, hc⟩, hi, hh => by
    rw [Piece.length_request] at hc
    have ih := assemble_honest content index bs _ hc (fun x hx => hi x (List.mem_cons_of_mem _ hx))
      (fun x hx => hh x (List.mem_cons_of_mem _ hx))
    have hbb : ((content index).drop p).take b.block.length = b.block := by
      have := hh b (List.mem_cons_self _ _)
      rwa [HonestBlock, hi b (List.mem_cons_self _ _), show b.begin.toNat = p from hb] at this
    simp only [assemble, List.map_cons, List.flatMap_cons, List.sum_cons] at ih ⊢
    rw [ih, List.take_add, hbb, List.drop_drop]

theorem HonestTiling.assemble {content : UInt32 → Bytes} {index : UInt32} {size : Int} {bs : List Request}
    (h : HonestTiling content index size bs) : assemble (bs.map (honestBlock content)) = content index := by
  have hreq : (bs.map (honestBlock content)).map Piece.request = bs :=
    List.ext_getElem (by simp) fun k _ hk => by simp only [List.getElem_map, h.request_block hk]
  have hlen : (bs.map (honestBlock content)).map (·.block.length) =
      ((bs.map (honestBlock content)).map Piece.request).map (·.length.toNat) := by
    simp only [List.map_map, Function.comp_def, Piece.length_request]
  rw [assemble_honest content index _ 0 (by rw [hreq]; exact h.contiguous) (List.forall_mem_map.mpr h.index_eq)
    (List.forall_mem_map.mpr fun r _ => honestBlock_honest content r), List.drop_zero, hlen, hreq,
    h.sum_eq, List.take_length]

def answeredInFlight (bs : List Request) (now k : Nat) : List TimedRequest :=
  bs.mapIdx fun j r => ⟨r, now, decide (j < k)⟩

theorem modify_answeredInFlight (bs : List Request) (now k : Nat) :
    (answeredInFlight bs now k).modify (fun r => { r with received := true }) k = answeredInFlight bs now (k + 1) := by
  apply List.ext_getElem (by simp only [answeredInFlight, List.length_modify, List.length_mapIdx])
  intro j h₁ h₂
  simp only [List.getElem_modify, answeredInFlight, List.getElem_mapIdx]
  split_ifs with h
  · subst h; simp
  · simp only [TimedRequest.mk.injEq, true_and, decide_eq_decide]; omega

def honestPiece (content : UInt32 → Bytes) (index : UInt32) (size : Int) (bs : List Request) (now k : Nat) :
    PendingPiece :=
  ⟨index, prefixLength bs k, size, (bs.take k).map (honestBlock content), [], answeredInFlight bs now k⟩

theorem HonestTiling.arrive {content : UInt32 → Bytes} {index : UInt32} {size : Int} {bs : List Request}
    (h : HonestTiling content index size bs) {k : Nat} (hk : k < bs.length) (now : Nat) :
    (honestPiece content index size bs now k).arrive (honestBlock content bs[k]) =
      .stored (honestPiece content index size bs now (k + 1)) := by
  have hp := h.contiguous.pairwise
  have hbefore : ∀ x ∈ bs.take k, x.begin.toNat < bs[k].begin.toNat := by
    have hs := hp.sublist (List.take_sublist (k + 1) bs)
    rw [List.take_succ, List.getElem?_eq_getElem hk, Option.toList_some] at hs
    exact fun x hx => (List.pairwise_append.mp hs).2.2 x hx _ (List.mem_singleton_self _)
  have hf : (answeredInFlight bs now k).findIdx? (fun r => decide (r.request = (honestBlock content bs[k]).request)) =
      some k := by
    refine List.findIdx?_eq_some_iff_getElem.mpr ⟨by simpa [answeredInFlight] using hk, by
      simp [answeredInFlight, h.request_block hk], fun j hj => ?_⟩
    have := List.pairwise_iff_getElem.mp hp j k (by omega) hk hj
    simp only [answeredInFlight, List.getElem_mapIdx, h.request_block hk, decide_eq_true_eq]
    exact fun he => absurd (congrArg (·.begin.toNat) he) (Nat.ne_of_lt this)
  have hd : ((bs.take k).map (honestBlock content)).any (honestBlock content bs[k]).duplicates = false := by
    refine List.any_eq_false.mpr fun x hx => ?_
    obtain ⟨r, hr, rfl⟩ := List.mem_map.mp hx
    simp only [Piece.duplicates, decide_eq_true_eq, not_and]
    exact fun he => absurd (congrArg UInt32.toNat he) (Nat.ne_of_lt (hbefore r hr))
  have hle : (prefixLength bs k : Int) + (honestBlock content bs[k]).block.length ≤ size := by
    have := prefixLength_le bs (k + 1)
    rw [prefixLength_succ hk, h.sum_eq] at this
    rw [h.length_block hk, ← h.content_length]
    omega
  rw [PendingPiece.arrive_of_findIdx (p := honestPiece content index size bs now k) hf hd hle]
  simp only [honestPiece, modify_answeredInFlight, prefixLength_succ hk, h.length_block hk, Nat.cast_add, List.take_succ,
    List.getElem?_eq_getElem hk, Option.toList_some, List.map_append, List.map_singleton]

theorem honestPiece_zero (content : UInt32 → Bytes) (index : UInt32) (size : Int) (bs : List Request) (now : Nat) :
    ((⟨index, 0, size, [], bs, []⟩ : PendingPiece).reschedule now).dispatch now (List.replicate bs.length true) =
      honestPiece content index size bs now 0 := by
  simp only [PendingPiece.dispatch, PendingPiece.reschedule, List.filter_nil, List.map_nil, List.append_nil,
    dispatchRequests_all now bs bs.length le_rfl, List.nil_append, honestPiece, prefixLength, List.take_zero]
  rw [map_eq_mapIdx]
  rfl

section
variable (sha1 : Bytes → Bytes) (t : MetaInfo) (content : UInt32 → Bytes) {index : UInt32} {size : Int}
  {bs : List Request} (now : Nat)

theorem Engine.run_store_honest {s : Engine} {j ref k : Nat} (h : HonestTiling content index size bs)
    (hk : k + 1 < bs.length) (hpan : s.panicked = false) (hheld : s.held = [])
    (hslot : s.requests[j]? = some (some ref)) (hp : s.pieces[ref]? = some (honestPiece content index size bs now k)) :
    s.run sha1 t [.load j (honestBlock content bs[k]), .recv 0 true] =
      some { s.setPiece ref (honestPiece content index size bs now (k + 1)) with
        downloaded := s.downloaded + bs[k].length.toNat } := by
  rw [Engine.run_load_recv sha1 t (m := honestBlock content bs[k]) true hpan hheld hslot hp
    (h.index_eq _ (List.getElem_mem _)).symm]
  have hlt := prefixLength_lt h.contiguous.length_pos hk
  have hsum := h.sum_eq
  have hsize := h.content_length
  simp only [Engine.receive, hp, h.arrive (Nat.lt_of_succ_lt hk), h.length_block (Nat.lt_of_succ_lt hk)]
  rw [if_neg (by simp only [honestPiece]; omega)]

structure PieceDone (s s' : Engine) (j : Nat) (index : UInt32) (data : Bytes) : Prop where
  requests : s'.requests = s.requests.set j none
  verified : s'.verified = s.verified ++ [index]
  flushes : s'.flushes.map (fun f => (f.index, f.data)) = s.flushes.map (fun f => (f.index, f.data)) ++ [(index, data)]
  unverified : s'.unverified = s.unverified
  sched : s'.sched = s.sched
  held : s'.held = s.held
  panicked : s'.panicked = s.panicked

theorem sortByBegin_honestBlocks (h : HonestTiling content index size bs) :
    sortByBegin (bs.map (honestBlock content)) = bs.map (honestBlock content) :=
  List.mergeSort_of_sorted (List.pairwise_map.mpr (h.contiguous.pairwise.imp fun hab =>
    decide_eq_true (Nat.le_of_lt hab)))

theorem Engine.run_flush_honest {s : Engine} {j ref k : Nat} (h : HonestTiling content index size bs)
    (hk : k + 1 = bs.length) (hpan : s.panicked = false) (hheld : s.held = [])
    (hslot : s.requests[j]? = some (some ref)) (hp : s.pieces[ref]? = some (honestPiece content index size bs now k))
    (hhash : sha1 (content index) = t.pieceHash index) :
    ∃ s', s.run sha1 t [.load j (honestBlock content bs[k]), .recv 0 true] = some s' ∧
      PieceDone s s' j index (content index) ∧ s'.downloaded = s.downloaded + bs[k].length.toNat := by
  have hidx : (honestBlock content bs[k]).index = index := h.index_eq _ (List.getElem_mem _)
  rw [Engine.run_load_recv sha1 t (m := honestBlock content bs[k]) true hpan hheld hslot hp hidx.symm]
  refine ⟨_, rfl, ?_⟩
  have hfull : (honestPiece content index size bs now (k + 1)).downloaded =
      (honestPiece content index size bs now (k + 1)).size := by
    simp only [honestPiece, hk, prefixLength_length, h.sum_eq, h.content_length]
  have hrec : (honestPiece content index size bs now (k + 1)).received = bs.map (honestBlock content) := by
    rw [honestPiece, hk, List.take_length]
  simp only [Engine.receive, hp, h.arrive (k := k) (by omega), hfull, if_true, Engine.verify, hrec,
    sortByBegin_honestBlocks content h, h.assemble, hidx, hhash, ne_eq, not_true_eq_false, if_false, if_true,
    Engine.setPiece, hslot]
  exact ⟨⟨rfl, rfl, by simp, rfl, rfl, hheld.symm ▸ rfl, rfl⟩, by rw [h.length_block (by omega)]⟩

theorem Engine.run_honest_blocks {s : Engine} {j ref : Nat} (h : HonestTiling content index size bs)
    (hpan : s.panicked = false) (hheld : s.held = []) (hslot : s.requests[j]? = some (some ref))
    (href : ref < s.pieces.length) :
    ∀ k, k < bs.length → ∃ as, (s.setPiece ref (honestPiece content index size bs now 0)).run sha1 t as =
      some { s.setPiece ref (honestPiece content index size bs now k) with
        downloaded := s.downloaded + prefixLength bs k }
  | 0, _ => ⟨[], by simp only [prefixLength, List.take_zero, List.map_nil, List.sum_nil, Nat.cast_zero, add_zero]; rfl⟩
  | k + 1, hk => by
    obtain ⟨as, hrun⟩ := Engine.run_honest_blocks h hpan hheld hslot href k (by omega)
    refine ⟨as ++ [.load j (honestBlock content bs[k]), .recv 0 true], ?_⟩
    have hstore := Engine.run_store_honest sha1 t content now
      (s := { s.setPiece ref (honestPiece content index size bs now k) with downloaded := s.downloaded + prefixLength bs k })
      h hk hpan hheld hslot (by simp [Engine.setPiece, href])
    rw [Engine.run_append, hrun, Option.some_bind, hstore]
    simp only [Engine.setPiece, List.set_set, prefixLength_succ (Nat.lt_of_succ_lt hk), Nat.cast_add, add_assoc]

theorem Engine.run_honest_piece {s : Engine} {j ref : Nat} (h : HonestTiling content index size bs) (hne : bs ≠ [])
    (hpan : s.panicked = false) (hheld : s.held = []) (hslot : s.requests[j]? = some (some ref))
    (href : ref < s.pieces.length) (hhash : sha1 (content index) = t.pieceHash index) :
    ∃ as s', (s.setPiece ref (honestPiece content index size bs now 0)).run sha1 t as = some s' ∧
      PieceDone s s' j index (content index) ∧ s'.downloaded = s.downloaded + (content index).length := by
  have hn : 0 < bs.length := List.length_pos.mpr hne
  obtain ⟨as, h₁⟩ := Engine.run_honest_blocks sha1 t content now h hpan hheld hslot href (bs.length - 1) (by omega)
  obtain ⟨s', h₂, hd, hdl⟩ := Engine.run_flush_honest sha1 t content now (s := { s.setPiece ref
      (honestPiece content index size bs now (bs.length - 1)) with downloaded := s.downloaded + prefixLength bs (bs.length - 1) })
    h (Nat.sub_add_cancel hn) hpan hheld hslot (by simp [Engine.setPiece, href]) hhash
  have hsum : prefixLength bs (bs.length - 1) + bs[bs.length - 1].length.toNat = (content index).length := by
    rw [← prefixLength_succ, Nat.sub_add_cancel hn, prefixLength_length, h.sum_eq]
  refine ⟨as ++ _, s', by rw [Engine.run_append, h₁, Option.some_bind, h₂],
    ⟨hd.requests, hd.verified, hd.flushes, hd.unverified, hd.sched, hd.held, hd.panicked⟩, ?_⟩
  rw [hdl, ← hsum]
  push_cast
  ring

end

/-- Between two pieces: every slot nil, no worker holding a block, no panic, and the scheduler in
a pass over the table. -/
structure Between (s : Engine) : Prop where
  nil : ∀ j < s.requests.length, s.requests[j]? = some none
  held : s.held = []
  panicked : s.panicked = false
  scan : ∃ i free, s.sched = .scan i free ∧ i ≤ s.requests.length

section
variable (sha1 : Bytes → Bytes) (t : MetaInfo) (content : UInt32 → Bytes) {index : UInt32} {bs : List Request}

theorem Engine.run_schedule_cons {s s' : Engine} {sent : List Bool} (h : s.schedule t sent = some s')
    (hp : s.panicked = false) (as : List Action) :
    s.run sha1 t (.schedule sent :: as) = s'.run sha1 t as := by
  rw [Engine.run, Engine.step_schedule sha1 t hp, h, Option.some_bind]

theorem Between.run_admit {s : Engine} (hb : Between s) (hlen : 0 < s.requests.length) {rest : List UInt32}
    (hu : s.unverified = index :: rest) (hbs : blockRequests index (pieceSize t index) = some bs) :
    ∃ as, s.run sha1 t as = some
      (({ s with requests := s.requests.set 0 (some s.pieces.length),
                 pieces := s.pieces ++ [⟨index, 0, pieceSize t index, [], bs, []⟩], unverified := rest,
                 sched := .scan 1 0 } : Engine).setPiece s.pieces.length
        (honestPiece content index (pieceSize t index) bs s.now 0)) := by
  obtain ⟨i, free, hsc, hi⟩ := hb.scan
  have hs₀ : s = { s with sched := .scan i free } := by rw [← hsc]
  have hpan := hb.panicked
  have hscan : s.run sha1 t (List.replicate (s.requests.length - i) (.schedule [])) =
      some { s with sched := .scan s.requests.length (free + (s.requests.length - i)) } := by
    have h := Engine.run_scan_nil sha1 t hpan [] hb.nil (s.requests.length - i) i free (by omega)
    rwa [← hs₀, Nat.add_sub_cancel' hi] at h
  have hnil := hb.nil 0 hlen
  have h₁ : ({ s with sched := .scan s.requests.length (free + (s.requests.length - i)) } : Engine).schedule t [] =
      some { s with sched := .search 0 } := by
    simp only [Engine.schedule, lt_irrefl, if_false, hu, reduceCtorEq]
  have h₂ : ({ s with sched := .search 0 } : Engine).schedule t [] = some { s with sched := .admission 0 } := by
    simp only [Engine.schedule, if_pos hlen, hnil, if_true]
  have h₃ := Engine.schedule_admission t (s := { s with sched := .admission 0 }) [] rfl hu hbs hnil
  have h₄ := Engine.schedule_visit t
      (s := { s with requests := s.requests.set 0 (some s.pieces.length)
                     pieces := s.pieces ++ [⟨index, 0, pieceSize t index, [], bs, []⟩]
                     unverified := rest, sched := .scan 0 0 })
      (List.replicate bs.length true) rfl (List.getElem?_set_self hlen)
  refine ⟨List.replicate (s.requests.length - i) (.schedule []) ++
    [.schedule [], .schedule [], .schedule [], .schedule (List.replicate bs.length true)], ?_⟩
  rw [Engine.run_append, hscan, Option.some_bind, Engine.run_schedule_cons sha1 t h₁ hpan,
    Engine.run_schedule_cons sha1 t h₂ hpan, Engine.run_schedule_cons sha1 t h₃ hpan,
    Engine.run_schedule_cons sha1 t h₄ hpan]
  simp only [Engine.run, List.modify_eq_set, List.getElem?_concat_length, Option.getD_some, Engine.setPiece,
    honestPiece_zero content index (pieceSize t index) bs s.now]

/-- Piece `index` can be served honestly: it has between one byte and `2^32` bytes, the content has
as many, and it hashes to `PieceHash(index)`. -/
def HonestPiece (index : UInt32) : Prop :=
  0 < pieceSize t index ∧ pieceSize t index ≤ 2^32 ∧ ((content index).length : Int) = pieceSize t index ∧
    sha1 (content index) = t.pieceHash index

theorem HonestPiece.tiling (hc : HonestPiece sha1 t content index) :
    HonestTiling content index (pieceSize t index) (tiles index (pieceSize t index) (blockCount (pieceSize t index)) 0) ∧
      tiles index (pieceSize t index) (blockCount (pieceSize t index)) 0 ≠ [] := by
  obtain ⟨h0, hle, hlen, -⟩ := hc
  obtain ⟨hcont, hsum⟩ := tiles_contiguous_of_le index hle
  have hmem := blockRequests_mem ⟨by omega, by omega⟩ (blockRequests_of_le index hle)
  refine ⟨⟨hcont, fun r hr => index_of_mem_tiles hr, fun r hr => (hmem r hr).2.2, by omega, hlen⟩, fun he => ?_⟩
  rw [he, List.map_nil, List.sum_nil] at hsum
  omega

theorem Between.run_piece {s : Engine} (hb : Between s) (hlen : 0 < s.requests.length) {rest : List UInt32}
    (hu : s.unverified = index :: rest) (hc : HonestPiece sha1 t content index) :
    ∃ as s', s.run sha1 t as = some s' ∧ Between s' ∧ s'.requests.length = s.requests.length ∧
      s'.unverified = rest ∧ s'.verified = s.verified ++ [index] ∧
      s'.flushes.map (fun f => (f.index, f.data)) =
        s.flushes.map (fun f => (f.index, f.data)) ++ [(index, content index)] ∧
      s'.downloaded = s.downloaded + pieceSize t index := by
  obtain ⟨ht, hne⟩ := hc.tiling
  obtain ⟨as₁, h₁⟩ := hb.run_admit sha1 t content hlen hu (blockRequests_of_le index hc.2.1)
  obtain ⟨as₂, s', h₂, hd, hdl⟩ := Engine.run_honest_piece sha1 t content s.now (s := { s with
      requests := s.requests.set 0 (some s.pieces.length),
      pieces := s.pieces ++ [⟨index, 0, pieceSize t index, [], _, []⟩], unverified := rest, sched := .scan 1 0 })
    (j := 0) ht hne hb.panicked hb.held (List.getElem?_set_self hlen) (by simp) hc.2.2.2
  refine ⟨as₁ ++ as₂, s', by rw [Engine.run_append, h₁, Option.some_bind, h₂],
    ⟨fun j hj => ?_, by rw [hd.held]; exact hb.held, by rw [hd.panicked]; exact hb.panicked,
      ⟨1, 0, hd.sched, by rw [hd.requests]; simpa using hlen⟩⟩, by rw [hd.requests]; simp, hd.unverified, hd.verified,
      hd.flushes, by rw [hdl, hc.2.2.1]⟩
  rw [hd.requests] at hj ⊢
  simp only [List.set_set, List.length_set] at hj ⊢
  rw [List.getElem?_set]
  split_ifs with h0
  · rfl
  · exact hb.nil j hj

theorem Between.run_queue {slots : Nat} (hlen : 0 < slots) : ∀ (q : List UInt32) {s : Engine}, Between s →
    s.requests.length = slots → s.unverified = q → (∀ i ∈ q, HonestPiece sha1 t content i) →
    ∃ as s', s.run sha1 t as = some s' ∧ s'.sched = .completed ∧ s'.verified = s.verified ++ q ∧
      s'.flushes.map (fun f => (f.index, f.data)) =
        s.flushes.map (fun f => (f.index, f.data)) ++ q.map (fun i => (i, content i)) ∧
      s'.downloaded = s.downloaded + (q.map (pieceSize t)).sum ∧ s'.panicked = false
  | [], s, hb, _, hu, _ => by
    obtain ⟨i, free, hsc, -⟩ := hb.scan
    obtain ⟨k, -, h⟩ := Engine.run_passes_completed sha1 t hb.panicked hu hb.nil hsc []
    exact ⟨_, _, h, rfl, (List.append_nil _).symm, by simp, by simp, hb.panicked⟩
  | index :: q, s, hb, hn, hu, hc => by
    obtain ⟨as₁, s₁, h₁, hb₁, hn₁, hu₁, hv₁, hf₁, hd₁⟩ :=
      hb.run_piece sha1 t content (hn ▸ hlen) hu (hc index (List.mem_cons_self _ _))
    obtain ⟨as₂, s₂, h₂, hsc, hv₂, hf₂, hd₂, hp₂⟩ :=
      Between.run_queue hlen q hb₁ (hn₁.trans hn) hu₁ fun i hi => hc i (List.mem_cons_of_mem _ hi)
    refine ⟨as₁ ++ as₂, s₂, by rw [Engine.run_append, h₁, Option.some_bind, h₂], hsc, ?_, ?_, ?_, hp₂⟩
    · rw [hv₂, hv₁, List.append_assoc, List.singleton_append]
    · rw [hf₂, hf₁, List.append_assoc, List.map_cons, List.singleton_append]
    · rw [hd₂, hd₁, List.map_cons, List.sum_cons, add_assoc]

end

theorem twoBlock_honestPiece : ∀ i ∈ [(0 : UInt32)], HonestPiece id (twoBlockTorrent id) (fun _ => sevens) i :=
  fun i hi => by
    rw [List.mem_singleton.mp hi]
    exact ⟨by decide, by decide, by simp only [sevens, List.length_append, length_headBytes]; decide, rfl⟩

/-- With a peer that answers every request with the bytes it asks for, content that hashes right
and a `Flush` that takes every write, some run from the start of `downloadScheduler` on a table of
at least one slot verifies every queued piece, in queue order, flushes each with its content,
and closes `t.download.completed`, without a panic; `t.Downloaded` has grown by the size of every
queued piece. -/
theorem honest_download_completes (sha1 : Bytes → Bytes) (t : MetaInfo) (content : UInt32 → Bytes)
    {slots : Nat} {order : List UInt32} (d0 : Int) (hslots : 0 < slots)
    (hc : ∀ i ∈ order, HonestPiece sha1 t content i) :
    ∃ as s, (Engine.init slots order d0).run sha1 t as = some s ∧ s.sched = .completed ∧ s.verified = order ∧
      s.flushes.map (fun f => (f.index, f.data)) = order.map (fun i => (i, content i)) ∧
      s.downloaded = d0 + (order.map (pieceSize t)).sum ∧ s.panicked = false :=
  Between.run_queue sha1 t content hslots order
    ⟨fun j hj => by simp_all [Engine.init], rfl, rfl, ⟨0, 0, rfl, Nat.zero_le _⟩⟩ (List.length_replicate _ _) rfl hc

theorem honest_two_block_download_completes :
    0 < 1 ∧ (∀ i ∈ [(0 : UInt32)], HonestPiece id (twoBlockTorrent id) (fun _ => sevens) i) ∧
      ∃ as s, (Engine.init 1 [0] 0).run id (twoBlockTorrent id) as = some s ∧ s.sched = .completed ∧
        s.verified = [0] ∧ s.flushes.map (fun f => (f.index, f.data)) = [(0, sevens)] ∧
        s.downloaded = 0 + ([(0 : UInt32)].map (pieceSize (twoBlockTorrent id))).sum ∧ s.panicked = false :=
  ⟨Nat.one_pos, twoBlock_honestPiece,
    honest_download_completes id (twoBlockTorrent id) (fun _ => sevens) 0 Nat.one_pos twoBlock_honestPiece⟩

end TinyTorrent
