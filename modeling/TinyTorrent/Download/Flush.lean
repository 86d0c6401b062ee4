import TinyTorrent.Download.Engine
import Mathlib.Algebra.Order.BigOperators.Group.List
import Mathlib.Data.List.Perm.Subperm

/-!
# What a flush writes

`recvPieces` sorts a complete piece's blocks by `Begin` and flushes their concatenation. While every
piece fits the `u32` offsets of the wire, every flush gets the piece (`flush_writes_received_blocks`);
past `2^32` bytes the last offset wraps to `0` (`flush_misplaces_wrapped_block`).
-/

namespace TinyTorrent

theorem eq_of_sublist_of_sum_eq {α : Type} {f : α → Nat} {l T : List α} (hpos : ∀ a ∈ T, 0 < f a)
    (h : l.Sublist T) (hs : (l.map f).sum = (T.map f).sum) : l = T := by
  induction h with
  | slnil => rfl
  | cons a h _ =>
    have hle := (h.map f).sum_le_sum fun _ _ => Nat.zero_le _
    have := hpos a (List.mem_cons_self _ _)
    simp only [List.map_cons, List.sum_cons] at hs
    omega
  | cons₂ a _ ih =>
    simp only [List.map_cons, List.sum_cons, Nat.add_left_cancel_iff] at hs
    rw [ih (fun b hb => hpos b (List.mem_cons_of_mem a hb)) hs]

theorem perm_of_subperm_of_sum_eq {α : Type} {f : α → Nat} {l T : List α} (hpos : ∀ a ∈ T, 0 < f a)
    (h : l.Subperm T) (hs : (l.map f).sum = (T.map f).sum) : l.Perm T := by
  obtain ⟨l', hl, hsub⟩ := h
  rw [← eq_of_sublist_of_sum_eq hpos hsub (by rw [(hl.map f).sum_eq, hs])]
  exact hl.symm

theorem eq_of_perm_of_sorted_lt {α : Type} {f : α → Nat} :
    ∀ {l₁ l₂ : List α}, l₁.Perm l₂ → l₁.Pairwise (fun a b => f a ≤ f b) →
      l₂.Pairwise (fun a b => f a < f b) → l₁ = l₂
  | [], _, hp, _, _ => hp.nil_eq
  | _ :: _, [], hp, _, _ => absurd hp.length_eq (by simp)
  | a :: l₁, b :: l₂, hp, h₁, h₂ => by
    have hab : a = b := by
      by_contra hne
      have hb : b ∈ l₁ := (List.mem_cons.mp (hp.symm.subset (List.mem_cons_self b l₂))).resolve_left
        (Ne.symm hne)
      have ha : a ∈ l₂ := (List.mem_cons.mp (hp.subset (List.mem_cons_self a l₁))).resolve_left hne
      have := List.rel_of_pairwise_cons h₁ hb
      have := List.rel_of_pairwise_cons h₂ ha
      omega
    subst hab
    rw [eq_of_perm_of_sorted_lt hp.cons_inv h₁.of_cons h₂.of_cons]

theorem pairwise_sortByBegin (rs : List Piece) :
    ((sortByBegin rs).map Piece.request).Pairwise fun a b => a.begin.toNat ≤ b.begin.toNat := by
  have trans (a b c : Piece) (hab : decide (a.begin ≤ b.begin) = true)
      (hbc : decide (b.begin ≤ c.begin) = true) : decide (a.begin ≤ c.begin) = true :=
    decide_eq_true (Nat.le_trans (of_decide_eq_true hab) (of_decide_eq_true hbc))
  have total (a b : Piece) : (decide (a.begin ≤ b.begin) || decide (b.begin ≤ a.begin)) = true := by
    simp only [Bool.or_eq_true, decide_eq_true_eq]
    exact Nat.le_total _ _
  exact List.pairwise_map.mpr ((List.sorted_mergeSort trans total rs).imp of_decide_eq_true)

theorem assemble_slice : ∀ (bs : List Piece) (p : Nat), Contiguous (bs.map Piece.request) p →
    ∀ b ∈ bs, ((assemble bs).drop (b.begin.toNat - p)).take b.block.length = b.block
  | [], _, _, _, h => absurd h (List.not_mem_nil _)
  | c :: bs, p, ⟨hb, _, hc⟩, b, hmem => by
    rw [Piece.length_request] at hc
    simp only [assemble, List.flatMap_cons] at hb ⊢
    rcases List.mem_cons.mp hmem with rfl | hmem
    · rw [show b.begin.toNat - p = 0 from by simp only [Piece.request] at hb; omega, List.drop_zero,
        List.take_left' rfl]
    · have hle := hc.le_begin _ (List.mem_map_of_mem _ hmem)
      simp only [Piece.request] at hle
      rw [List.drop_append_eq_append_drop, List.drop_eq_nil_of_le (by omega), List.nil_append,
        show b.begin.toNat - p - c.block.length = b.begin.toNat - (p + c.block.length) by omega]
      exact assemble_slice bs _ hc b hmem

theorem sortByBegin_perm (rs : List Piece) : (sortByBegin rs).Perm rs := List.mergeSort_perm _ _

theorem length_assemble (bs : List Piece) : (assemble bs).length = (bs.map (·.block.length)).sum := by
  simp only [assemble, List.length_flatMap]
  rfl

theorem Piece.duplicates_of_request_eq {m o : Piece} (h : o.request = m.request) :
    m.duplicates o = true := by
  have hl := congrArg (·.length.toNat) h
  simp only [Piece.length_request] at hl
  simp only [Piece.request, Request.mk.injEq] at h
  simp [Piece.duplicates, h.1, h.2.1, hl]

theorem dispatchRequests_unmarked (now : Nat) :
    ∀ (rs : List Request) (sent : List Bool), ∀ r ∈ (dispatchRequests now rs sent).2, r.received = false
  | [], _ => by simp [dispatchRequests]
  | _ :: _, [] => by simp [dispatchRequests]
  | r :: rs, b :: bs => by
    have ih := dispatchRequests_unmarked now rs bs
    cases b <;> simpa [dispatchRequests] using ih

theorem perm_marked_modify : ∀ (l : List TimedRequest) (k : Nat) (hk : k < l.length),
    l[k].received = false →
    (((l.modify (fun r => { r with received := true }) k).filter (·.received)).map (·.request)).Perm
      ((l.filter (·.received)).map (·.request) ++ [l[k].request])
  | r :: l, 0, _, hr => by
    simp only [List.getElem_cons_zero] at hr
    simpa [hr] using (List.perm_append_singleton _ _).symm
  | r :: l, k + 1, hk, hr => by
    have ih := perm_marked_modify l k (by simpa using hk) hr
    cases hrr : r.received <;> simpa [hrr] using ih

theorem forall_mem_modify {α : Type} {P : α → Prop} {f : α → α} (hf : ∀ a, P a → P (f a)) :
    ∀ {l : List α} (n : Nat), (∀ a ∈ l, P a) → ∀ a ∈ l.modify f n, P a
  | [], _, _, _, h => by simp at h
  | b :: l, 0, hl, a, h => by
    rw [List.modify_zero_cons] at h
    rcases List.mem_cons.mp h with rfl | h
    · exact hf b (hl b (List.mem_cons_self _ _))
    · exact hl a (List.mem_cons_of_mem _ h)
  | b :: l, n + 1, hl, a, h => by
    rw [List.modify_succ_cons] at h
    rcases List.mem_cons.mp h with rfl | h
    · exact hl a (List.mem_cons_self _ _)
    · exact forall_mem_modify hf n (fun c hc => hl c (List.mem_cons_of_mem _ hc)) a h

/-- What holds of a piece of a reachable state whose size fits the `u32` offsets. -/
structure PieceInv (p : PendingPiece) : Prop where
  size_le : p.size ≤ 2^32
  /-- Its requests, pending or in flight, are its tiles. -/
  tiling : p.requests.Perm (tiles p.index p.size (blockCount p.size) 0)
  /-- The received blocks answer the in-flight requests marked received, one each. -/
  marked : (p.received.map Piece.request).Perm ((p.inFlight.filter (·.received)).map (·.request))
  /-- `Downloaded` counts the received bytes, unless a requeue discarded them and kept the count. -/
  count : p.downloaded = ((p.received.map (·.block.length)).sum : Nat) ∨
    p.received = [] ∧ p.downloaded = p.size

variable {p q : PendingPiece}

theorem PieceInv.length_pos (hp : PieceInv p) {r : Request} (hr : r ∈ p.requests) : 0 < r.length.toNat :=
  (tiles_contiguous_of_le p.index hp.size_le).1.length_pos r (hp.tiling.subset hr)

theorem pieceInv_admitted {index : UInt32} {size : Int} {bs : List Request} (hs : size ≤ 2^32)
    (hb : blockRequests index size = some bs) : PieceInv ⟨index, 0, size, [], bs, []⟩ := by
  rw [blockRequests_of_le index hs, Option.some.injEq] at hb
  subst hb
  exact ⟨hs, by simp [PendingPiece.requests], .nil, .inl rfl⟩

theorem PieceInv.reschedule (hp : PieceInv p) (now : Nat) : PieceInv (p.reschedule now) where
  size_le := hp.size_le
  tiling := (p.requests_reschedule now).trans hp.tiling
  marked := by
    have : (p.inFlight.filter fun r => !r.expired now).filter (·.received) = p.inFlight.filter (·.received) := by
      rw [List.filter_filter]
      exact List.filter_congr fun r _ => by cases hr : r.received <;> simp [TimedRequest.expired, hr]
    show (p.received.map Piece.request).Perm
      (((p.inFlight.filter fun r => !r.expired now).filter (·.received)).map (·.request))
    rw [this]
    exact hp.marked
  count := hp.count

theorem PieceInv.dispatch (hp : PieceInv p) (now : Nat) (sent : List Bool) : PieceInv (p.dispatch now sent) where
  size_le := hp.size_le
  tiling := (p.requests_dispatch now sent).trans hp.tiling
  marked := by
    have : (dispatchRequests now p.pending sent).2.filter (·.received) = [] :=
      List.filter_eq_nil_iff.mpr fun r hr => by simp [dispatchRequests_unmarked now _ sent r hr]
    show (p.received.map Piece.request).Perm
      (((p.inFlight ++ (dispatchRequests now p.pending sent).2).filter (·.received)).map (·.request))
    rw [List.filter_append, this, List.append_nil]
    exact hp.marked
  count := hp.count

theorem PieceInv.stored (hp : PieceInv p) {m : Piece} (h : p.arrive m = .stored q) : PieceInv q := by
  have hpos : 0 < m.block.length := m.length_request ▸ hp.length_pos (PendingPiece.stored_spec h).2.2.2.2.1
  obtain ⟨k, hk, hnd, hle, rfl⟩ := PendingPiece.arrive_eq_stored h
  obtain ⟨hkl, hkm, -⟩ := List.findIdx?_eq_some_iff_getElem.mp hk
  have hkr : p.inFlight[k].request = m.request := by simpa using hkm
  have hunmarked : p.inFlight[k].received = false := by
    by_contra hmk
    obtain ⟨b, hb, hbm⟩ := List.mem_map.mp (hp.marked.mem_iff.mpr (List.mem_map.mpr
      ⟨_, List.mem_filter.mpr ⟨List.getElem_mem hkl, by simpa using hmk⟩, hkr⟩))
    have := List.any_eq_true.mpr ⟨b, hb, Piece.duplicates_of_request_eq hbm⟩
    simp [hnd] at this
  refine ⟨hp.size_le, ?_, ?_, ?_⟩
  · simpa [PendingPiece.requests, map_request_modify] using hp.tiling
  · simp only [List.map_append, List.map_singleton]
    exact (hp.marked.append_right _).trans (hkr ▸ (perm_marked_modify _ _ hkl hunmarked).symm)
  · rcases hp.count with hc | ⟨-, hc⟩
    · left
      simp only [List.map_append, List.map_singleton, List.sum_append, List.sum_singleton, hc]
      push_cast
      rfl
    · omega

theorem PieceInv.sort (hp : PieceInv p) : PieceInv { p with received := sortByBegin p.received } where
  size_le := hp.size_le
  tiling := hp.tiling
  marked := ((sortByBegin_perm _).map _).trans hp.marked
  count := by
    rcases hp.count with hc | ⟨hr, hc⟩
    · exact .inl (by rw [hc]; dsimp only; rw [((sortByBegin_perm _).map _).sum_eq])
    · exact .inr ⟨by simp [hr, sortByBegin], hc⟩

theorem PieceInv.requeue (hp : PieceInv p) (hc : p.downloaded = p.size) (h : p.requeue = some q) :
    PieceInv q := by
  obtain ⟨hi, hs, hd, hr, hrecv, hin⟩ := PendingPiece.requeue_spec h
  refine ⟨hs ▸ hp.size_le, by rw [hr, hi, hs]; exact hp.tiling, by simp [hrecv, hin], .inr ⟨hrecv, ?_⟩⟩
  rw [hd, hs, hc]

theorem PieceInv.sorted_requests (hp : PieceInv p) (hc : p.downloaded = p.size) (hr : p.received ≠ []) :
    (sortByBegin p.received).map Piece.request = tiles p.index p.size (blockCount p.size) 0 := by
  obtain ⟨hcont, hsum⟩ := tiles_contiguous_of_le p.index hp.size_le
  have hn := hp.count.resolve_right fun h => hr h.1
  have hsub : (p.received.map Piece.request).Subperm (tiles p.index p.size (blockCount p.size) 0) :=
    hp.marked.subperm.trans (((List.filter_sublist _).map _).subperm.trans
      ((List.sublist_append_right _ _).subperm.trans hp.tiling.subperm))
  have hperm := perm_of_subperm_of_sum_eq (f := fun r => r.length.toNat) hcont.length_pos hsub (by
    simp only [List.map_map, Function.comp_def, Piece.length_request, hsum]
    omega)
  exact eq_of_perm_of_sorted_lt (((sortByBegin_perm _).map _).trans hperm)
    (pairwise_sortByBegin _) hcont.pairwise

def FlushSound (sha1 : Bytes → Bytes) (t : MetaInfo) (f : FlushCall) : Prop :=
  f.piece.index = f.index ∧ f.data.length = f.piece.size ∧ sha1 f.data = t.pieceHash f.index ∧
    ∀ b ∈ f.piece.received, (f.data.drop b.begin.toNat).take b.block.length = b.block

theorem PieceInv.flushSound {sha1 : Bytes → Bytes} {t : MetaInfo} (hp : PieceInv p)
    (hc : p.downloaded = p.size) {m : Piece} (hm : m ∈ p.received)
    (hh : sha1 (assemble (sortByBegin p.received)) = t.pieceHash m.index) :
    FlushSound sha1 t ⟨m.index, assemble (sortByBegin p.received), { p with received := sortByBegin p.received }⟩ := by
  have hs := hp.sorted_requests hc (List.ne_nil_of_mem hm)
  have hcont : Contiguous ((sortByBegin p.received).map Piece.request) 0 :=
    hs ▸ (tiles_contiguous_of_le p.index hp.size_le).1
  refine ⟨?_, ?_, hh, fun b hb => by simpa using assemble_slice _ 0 hcont b hb⟩
  · have : m.request ∈ tiles p.index p.size (blockCount p.size) 0 :=
      hs ▸ List.mem_map_of_mem _ (List.mem_mergeSort.mpr hm)
    exact (index_of_mem_tiles this).symm
  · rw [length_assemble, ((sortByBegin_perm _).map _).sum_eq]
    have := hp.count.resolve_right fun h => List.ne_nil_of_mem hm h.1
    dsimp only
    omega

section
variable (sha1 : Bytes → Bytes) (t : MetaInfo) (order : List UInt32)

/-- The invariant of the engine: every queued index comes from `order`, every piece keeps
`PieceInv`, and every flush so far was sound. -/
structure FlushInv (s : Engine) : Prop where
  queued : ∀ i ∈ s.unverified, i ∈ order
  pieces : ∀ p ∈ s.pieces, PieceInv p
  flushes : ∀ f ∈ s.flushes, FlushSound sha1 t f

variable {sha1 t order} {s s' : Engine}

theorem FlushInv.setPiece (hi : FlushInv sha1 t order s) (hp : PieceInv p) (ref : Nat) :
    FlushInv sha1 t order (s.setPiece ref p) :=
  ⟨hi.queued, fun q hq => (List.mem_or_eq_of_mem_set hq).elim (hi.pieces q) (· ▸ hp), hi.flushes⟩

theorem FlushInv.verify (hi : FlushInv sha1 t order s) (hp : PieceInv p) (hc : p.downloaded = p.size)
    {m : Piece} (hm : m ∈ p.received) (slot ref : Nat) (ok : Bool) :
    FlushInv sha1 t order (s.verify sha1 t slot ref p m ok) := by
  have hretry : ∀ s' : Engine, FlushInv sha1 t order s' →
      FlushInv sha1 t order (match ({ p with received := sortByBegin p.received } : PendingPiece).requeue with
        | none => { s' with panicked := true }
        | some q => s'.setPiece ref q) := by
    intro s' hs'
    split
    · exact ⟨hs'.1, hs'.2, hs'.3⟩
    · exact hs'.setPiece (hp.sort.requeue hc ‹_›) ref
  unfold Engine.verify
  dsimp only
  split_ifs with hh hok hcas
  · exact hretry s hi
  all_goals
    have hf : FlushInv sha1 t order { s with flushes := s.flushes ++ [⟨m.index, assemble (sortByBegin p.received),
        { p with received := sortByBegin p.received }⟩] } :=
      ⟨hi.1, hi.2, fun f hf => (List.mem_append.mp hf).elim (hi.flushes f)
        fun hf => (List.mem_singleton.mp hf) ▸ hp.flushSound hc hm (not_not.mp hh)⟩
  · have := hf.setPiece hp.sort ref
    exact ⟨this.1, this.2, this.3⟩
  · have := hf.setPiece hp.sort ref
    exact ⟨this.1, this.2, this.3⟩
  · exact hretry _ hf

theorem FlushInv.receive (hi : FlushInv sha1 t order s) (hd : Held) (ok : Bool) :
    FlushInv sha1 t order (s.receive sha1 t hd ok) := by
  unfold Engine.receive
  split
  · exact hi
  · rename_i p hp
    have hpi := hi.pieces p (List.getElem?_mem hp)
    split
    · exact hi
    · exact hi
    · exact ⟨hi.1, hi.2, hi.3⟩
    · rename_i q hq
      have hqi := hpi.stored hq
      have hs1 : FlushInv sha1 t order
          { s.setPiece hd.ref q with downloaded := s.downloaded + hd.msg.block.length } :=
        let h := hi.setPiece hqi hd.ref
        ⟨h.1, h.2, h.3⟩
      have hm : hd.msg ∈ q.received := by
        obtain ⟨_, _, _, _, rfl⟩ := PendingPiece.arrive_eq_stored hq
        exact List.mem_append_right _ (List.mem_singleton_self _)
      dsimp only
      split_ifs with hc
      · exact hs1.verify hqi hc hm _ _ _
      · exact hs1

theorem FlushInv.step (hsize : ∀ i ∈ order, pieceSize t i ≤ 2^32) (hi : FlushInv sha1 t order s)
    {a : Action} (h : s.step sha1 t a = some s') : FlushInv sha1 t order s' := by
  obtain ⟨-, ⟨d, rfl⟩ | ⟨sent, h⟩ | ⟨-, rfl⟩ | ⟨slot, ref, m, -, -, rfl⟩ | ⟨k, hd, ok, -, rfl⟩⟩ :=
    Engine.step_cases sha1 t h
  · exact ⟨hi.1, hi.2, hi.3⟩
  · obtain ⟨hf, ⟨hp, hu⟩ | ⟨ref, hp, hu⟩ | ⟨index, rest, bs, hq, hb, hp, hu⟩⟩ := Engine.schedule_pieces t h
    · exact ⟨hu ▸ hi.1, hp ▸ hi.2, hf ▸ hi.3⟩
    · exact ⟨hu ▸ hi.1, hp ▸ forall_mem_modify (fun p hp => (hp.reschedule _).dispatch _ _) ref hi.2,
        hf ▸ hi.3⟩
    · have hidx : index ∈ order := hi.1 index (hq ▸ List.mem_cons_self _ _)
      refine ⟨fun i hi' => hi.1 i (hq ▸ List.mem_cons_of_mem _ (hu ▸ hi')), ?_, hf ▸ hi.3⟩
      rw [hp]
      intro p hp'
      rcases List.mem_append.mp hp' with hp' | hp'
      · exact hi.2 p hp'
      · exact (List.mem_singleton.mp hp') ▸ pieceInv_admitted (hsize index hidx) hb
  · exact ⟨hi.1, hi.2, hi.3⟩
  · exact ⟨hi.1, hi.2, hi.3⟩
  · exact FlushInv.receive (s := { s with held := s.held.eraseIdx k }) ⟨hi.1, hi.2, hi.3⟩ hd ok

theorem FlushInv.reachable (hsize : ∀ i ∈ order, pieceSize t i ≤ 2^32) {slots : Nat} {d0 : Int}
    (hs : Reachable sha1 t slots order d0 s) : FlushInv sha1 t order s := by
  induction hs with
  | init => exact ⟨fun _ h => h, fun _ h => absurd h (List.not_mem_nil _), fun _ h => absurd h (List.not_mem_nil _)⟩
  | step _ h ih => exact ih.step hsize h

end

/-- The one-slot engine once the piece is admitted and its slot visited, holding `p` with
`t.Downloaded = d`. -/
def slotEngine (p : PendingPiece) (d : Int) : Engine := ⟨[some 0], [p], [], .scan 1 0, [], d, 0, [], [], 0, false⟩

section
variable (sha1 : Bytes → Bytes) (t : MetaInfo) {p q : PendingPiece} {m : Piece}

theorem slotEngine_store (d : Int) (ok : Bool) (hidx : p.index = m.index) (hq : p.arrive m = .stored q)
    (hc : q.downloaded ≠ q.size) :
    (slotEngine p d).run sha1 t [.load 0 m, .recv 0 ok] = some (slotEngine q (d + m.block.length)) := by
  rw [Engine.run_load_recv sha1 t ok rfl rfl rfl rfl hidx]
  simp only [Engine.receive, slotEngine, List.getElem?_cons_zero, hq, if_neg hc]
  rfl

theorem slotEngine_verified (d : Int) (hidx : p.index = m.index) (hq : p.arrive m = .stored q)
    (hc : q.downloaded = q.size) (hh : sha1 (assemble (sortByBegin q.received)) = t.pieceHash m.index) :
    (slotEngine p d).run sha1 t [.load 0 m, .recv 0 true] =
      some ⟨[none], [{ q with received := sortByBegin q.received }], [], .scan 1 0, [], d + m.block.length, 0,
        [m.index], [⟨m.index, assemble (sortByBegin q.received), { q with received := sortByBegin q.received }⟩],
        0, false⟩ := by
  rw [Engine.run_load_recv sha1 t true rfl rfl rfl rfl hidx]
  simp only [Engine.receive, slotEngine, List.getElem?_cons_zero, hq, if_pos hc, Engine.verify, hh, ne_eq,
    not_true_eq_false, if_false, if_true]
  rfl

end

/-- The first `RequestSize` bytes of `sevens`. -/
@[irreducible] def headBytes : Bytes := List.replicate 16384 7

@[simp] theorem length_headBytes : headBytes.length = 16384 := by
  unfold headBytes
  exact List.length_replicate _ _

/-- The content of a piece of two blocks: `RequestSize + 1` bytes `7`. -/
def sevens : Bytes := headBytes ++ [7]

def twoBlockTorrent (sha1 : Bytes → Bytes) : MetaInfo := ⟨16385, 16385, fun _ => sha1 sevens⟩

def headBlock : Piece := ⟨0, 0, headBytes, by rw [length_headBytes]; decide⟩

def tailBlock : Piece := ⟨0, 16384, [7], by decide⟩

def twoBlockSent : PendingPiece := ⟨0, 0, 16385, [], [], [⟨⟨0, 0, 16384⟩, 0, false⟩, ⟨⟨0, 16384, 1⟩, 0, false⟩]⟩

def twoBlockAdmission : List Action := [.schedule [], .schedule [], .schedule [], .schedule [], .schedule [true, true]]

theorem run_twoBlockAdmission (sha1 : Bytes → Bytes) :
    (Engine.init 1 [0] 0).run sha1 (twoBlockTorrent sha1) twoBlockAdmission = some (slotEngine twoBlockSent 0) := by
  set_option maxRecDepth 20000 in rfl

def twoBlockTailIn : PendingPiece := ⟨0, 1, 16385, [tailBlock], [], [⟨⟨0, 0, 16384⟩, 0, false⟩, ⟨⟨0, 16384, 1⟩, 0, true⟩]⟩

theorem arrive_tailBlock : twoBlockSent.arrive tailBlock = .stored twoBlockTailIn := rfl

theorem request_headBlock : headBlock.request = ⟨0, 0, 16384⟩ := by
  simp only [Piece.request, headBlock, length_headBytes]
  rfl

theorem arrive_headBlock :
    twoBlockTailIn.arrive headBlock =
      .stored ⟨0, 16385, 16385, [tailBlock, headBlock], [], [⟨⟨0, 0, 16384⟩, 0, true⟩, ⟨⟨0, 16384, 1⟩, 0, true⟩]⟩ := by
  rw [PendingPiece.arrive_of_findIdx (p := twoBlockTailIn) (m := headBlock) (k := 0) (by rw [request_headBlock]; rfl) rfl
    (by simp only [twoBlockTailIn, headBlock, length_headBytes]; decide)]
  simp only [twoBlockTailIn, headBlock, length_headBytes]
  rfl

theorem sortByBegin_tailBlock_headBlock : sortByBegin [tailBlock, headBlock] = [headBlock, tailBlock] :=
  have hs := List.pairwise_map.mp (pairwise_sortByBegin [tailBlock, headBlock])
  eq_of_perm_of_sorted_lt ((sortByBegin_perm _).trans (List.Perm.swap _ _ _)) hs (List.pairwise_pair.mpr (by decide))

def twoBlockVerified : Engine :=
  ⟨[none], [⟨0, 16385, 16385, [headBlock, tailBlock], [], [⟨⟨0, 0, 16384⟩, 0, true⟩, ⟨⟨0, 16384, 1⟩, 0, true⟩]⟩],
    [], .scan 1 0, [], 16385, 0, [0],
    [⟨0, sevens, ⟨0, 16385, 16385, [headBlock, tailBlock], [], [⟨⟨0, 0, 16384⟩, 0, true⟩, ⟨⟨0, 16384, 1⟩, 0, true⟩]⟩⟩],
    0, false⟩

/-- The run where the blocks come last one first: the scheduler admits the piece and sends both
requests, then the tail block and the head block come and `Flush` takes the piece. -/
def twoBlockRun : List Action := twoBlockAdmission ++ [.load 0 tailBlock, .recv 0 true, .load 0 headBlock, .recv 0 true]

theorem run_twoBlockVerified (sha1 : Bytes → Bytes) :
    (Engine.init 1 [0] 0).run sha1 (twoBlockTorrent sha1) twoBlockRun = some twoBlockVerified := by
  have hs : assemble [headBlock, tailBlock] = sevens := by simp [assemble, headBlock, tailBlock, sevens]
  rw [twoBlockRun, Engine.run_append, run_twoBlockAdmission, Option.some_bind,
    show [Action.load 0 tailBlock, .recv 0 true, .load 0 headBlock, .recv 0 true] =
      [.load 0 tailBlock, .recv 0 true] ++ [.load 0 headBlock, .recv 0 true] from rfl, Engine.run_append,
    slotEngine_store sha1 _ 0 true rfl arrive_tailBlock (by decide), Option.some_bind,
    slotEngine_verified sha1 _ _ rfl arrive_headBlock rfl (by rw [sortByBegin_tailBlock_headBlock, hs]; rfl),
    sortByBegin_tailBlock_headBlock, hs]
  simp only [headBlock, tailBlock, length_headBytes, twoBlockVerified]
  rfl

theorem reachable_twoBlockVerified (sha1 : Bytes → Bytes) :
    Reachable sha1 (twoBlockTorrent sha1) 1 [0] 0 twoBlockVerified :=
  Reachable.init.run (run_twoBlockVerified sha1)

section
variable (sha1 : Bytes → Bytes) (t : MetaInfo)

/-- While every piece of the queue fits the `u32` offsets of the wire, every call
`t.Flush(index, data)` of a run gets the piece of `index` as `data`: `Size` bytes whose hash is
`PieceHash(index)`, with every received block at its `Begin`. -/
theorem flush_writes_received_blocks {slots : Nat} {order : List UInt32} {d0 : Int} {s : Engine}
    (hsize : ∀ i ∈ order, pieceSize t i ≤ 2^32) (hs : Reachable sha1 t slots order d0 s) :
    ∀ f ∈ s.flushes, f.piece.index = f.index ∧ f.data.length = f.piece.size ∧
      sha1 f.data = t.pieceHash f.index ∧
      ∀ b ∈ f.piece.received, (f.data.drop b.begin.toNat).take b.block.length = b.block :=
  (FlushInv.reachable hsize hs).flushes

/-- The piece of `twoBlockTorrent` fits the wire's offsets, and the flush of the run where its blocks
come last one first was given the piece. -/
theorem flush_writes_two_blocks :
    (∀ i ∈ [(0 : UInt32)], pieceSize (twoBlockTorrent id) i ≤ 2^32) ∧
      ∀ f ∈ twoBlockVerified.flushes, f.piece.index = f.index ∧ f.data.length = f.piece.size ∧
        id f.data = (twoBlockTorrent id).pieceHash f.index ∧
        ∀ b ∈ f.piece.received, (f.data.drop b.begin.toNat).take b.block.length = b.block :=
  have hsize : ∀ i ∈ [(0 : UInt32)], pieceSize (twoBlockTorrent id) i ≤ 2^32 :=
    fun i _ => (pieceSize_le _ i (by decide) (by decide) (by decide)).trans (by decide)
  ⟨hsize, flush_writes_received_blocks id (twoBlockTorrent id) hsize (reachable_twoBlockVerified id)⟩

end

/-- The tiles of a piece of `2^32 + 5` bytes: `2^18` blocks of `RequestSize`, then one of 5 bytes
at offset `2^32`. -/
@[irreducible] def wrapTiles : List Request := tiles 0 (2^32 + 5) (2^18 + 1) 0

theorem wrapTiles_eq : wrapTiles = tiles 0 (2^32 + 5) (2^18 + 1) 0 := by
  unfold wrapTiles
  rfl

@[simp] theorem length_wrapTiles : wrapTiles.length = 2^18 + 1 := by
  rw [wrapTiles_eq, length_tiles]

theorem getElem_wrapTiles (j : Nat) (hj : j < wrapTiles.length) :
    wrapTiles[j] = if j < 2^18 then ⟨0, toUInt32 (j * 16384), 16384⟩ else ⟨0, 0, 5⟩ := by
  have hj' : j < 2^18 + 1 := by simpa using hj
  apply Option.some.inj
  rw [← List.getElem?_eq_getElem hj, wrapTiles_eq, List.getElem?_eq_getElem (by rw [length_tiles]; exact hj'),
    getElem_tiles, zero_add]
  split_ifs with h
  · rw [min_eq_left (by unfold requestSize; omega)]
    rfl
  · obtain rfl : j = 2^18 := by omega
    decide

/-- Block `k` of the piece as a peer sends it: `RequestSize` zeros at `k·RequestSize`. -/
@[irreducible] def zeroes : Bytes := List.replicate 16384 0

@[simp] theorem length_zeroes : zeroes.length = 16384 := by
  unfold zeroes
  exact List.length_replicate _ _

def zeroBlock (k : Nat) : Piece := ⟨0, toUInt32 (k * 16384), zeroes, by rw [length_zeroes]; decide⟩

@[simp] theorem zeroBlock_block (k : Nat) : (zeroBlock k).block = zeroes := rfl

def wrapBlock : Piece := ⟨0, 0, [1, 1, 1, 1, 1], by decide⟩

theorem begin_zeroBlock {k : Nat} (hk : k < 2^18) : (zeroBlock k).begin.toNat = k * 16384 :=
  (toUInt32_toNat_of_lt (by omega) (by omega)).trans (by omega)

def wrapReceived (k : Nat) : List Piece := wrapBlock :: (List.range k).map zeroBlock

/-- A torrent of one piece of `2^32 + 5` bytes whose hash is that of the blocks of `wrapReceived`. -/
def wrapTorrent (sha1 : Bytes → Bytes) : MetaInfo :=
  ⟨2^32 + 5, 2^32 + 5, fun _ => sha1 (assemble (wrapReceived (2^18)))⟩

def wrapInFlight (done : Nat → Bool) : List TimedRequest := wrapTiles.mapIdx fun j r => ⟨r, 0, done j⟩

def wrapPiece (d : Int) (received : List Piece) (done : Nat → Bool) : PendingPiece :=
  ⟨0, d, 2^32 + 5, received, [], wrapInFlight done⟩

theorem modify_wrapInFlight (done : Nat → Bool) (k : Nat) :
    (wrapInFlight done).modify (fun r => { r with received := true }) k = wrapInFlight fun j => done j || j == k := by
  apply List.ext_getElem (by simp only [wrapInFlight, List.length_modify, List.length_mapIdx])
  intro j h₁ h₂
  simp only [List.getElem_modify, wrapInFlight, List.getElem_mapIdx]
  split_ifs with h
  · subst h; simp
  · simp [Ne.symm h]

theorem findIdx_wrapInFlight (done : Nat → Bool) (req : Request) (k : Nat) (hk : k < wrapTiles.length)
    (heq : wrapTiles[k] = req) (hne : ∀ j (hj : j < k), wrapTiles[j] ≠ req) :
    (wrapInFlight done).findIdx? (fun r => decide (r.request = req)) = some k := by
  refine List.findIdx?_eq_some_iff_getElem.mpr ⟨by simpa [wrapInFlight] using hk, ?_, fun j hj => ?_⟩
  · simp [wrapInFlight, heq]
  · simp [wrapInFlight, hne j hj]

def wrapDone (k j : Nat) : Bool := decide (j < k) || j == 2^18

theorem arrive_wrapBlock :
    (wrapPiece 0 [] fun _ => false).arrive wrapBlock = .stored (wrapPiece 5 (wrapReceived 0) (wrapDone 0)) := by
  have hk := findIdx_wrapInFlight (fun _ => false) wrapBlock.request (2^18) (by simp)
    (by rw [getElem_wrapTiles]; decide)
    (fun j hj h => by
      rw [getElem_wrapTiles, if_pos hj] at h
      exact absurd (congrArg Request.length h) (show (16384 : UInt32) ≠ wrapBlock.request.length by decide))
  rw [PendingPiece.arrive_of_findIdx (p := wrapPiece 0 [] fun _ => false) hk rfl (by decide)]
  simp only [wrapPiece, modify_wrapInFlight, Bool.false_or]
  rw [show wrapDone 0 = fun j => j == 2^18 from funext fun j => by simp [wrapDone]]
  rfl

theorem request_zeroBlock (k : Nat) : (zeroBlock k).request = ⟨0, toUInt32 (k * 16384), 16384⟩ := by
  simp only [Piece.request, zeroBlock, length_zeroes]
  rfl

theorem arrive_zeroBlock {k : Nat} (hk : k < 2^18) :
    (wrapPiece (5 + 16384 * k) (wrapReceived k) (wrapDone k)).arrive (zeroBlock k) =
      .stored (wrapPiece (5 + 16384 * (k + 1 : Nat)) (wrapReceived (k + 1)) (wrapDone (k + 1))) := by
  have hf := findIdx_wrapInFlight (wrapDone k) (zeroBlock k).request k (by simp; omega)
    (by rw [getElem_wrapTiles, if_pos hk, request_zeroBlock])
    (fun j hj h => by
      rw [getElem_wrapTiles, if_pos (by omega), request_zeroBlock] at h
      have := congrArg (·.begin.toNat) h
      simp only [toUInt32_toNat_of_lt (by omega : (0 : Int) ≤ j * 16384) (by omega),
        toUInt32_toNat_of_lt (by omega : (0 : Int) ≤ k * 16384) (by omega)] at this
      omega)
  have hd : (wrapReceived k).any (zeroBlock k).duplicates = false := by
    refine List.any_eq_false.mpr fun x hx => ?_
    simp only [Piece.duplicates, decide_eq_true_eq, not_and]
    rcases List.mem_cons.mp hx with rfl | hx
    · intro _ _ h
      rw [show (zeroBlock k).block.length = 16384 from length_zeroes] at h
      exact absurd h (by decide)
    · obtain ⟨j, hj, rfl⟩ := List.mem_map.mp hx
      have hj := List.mem_range.mp hj
      intro h
      have := congrArg UInt32.toNat h
      rw [begin_zeroBlock (by omega), begin_zeroBlock hk] at this
      omega
  rw [PendingPiece.arrive_of_findIdx (p := wrapPiece (5 + 16384 * k) (wrapReceived k) (wrapDone k)) hf hd
    (by simp only [wrapPiece, zeroBlock_block, length_zeroes]; push_cast; omega)]
  have e1 : 5 + 16384 * (k : Int) + ((16384 : Nat) : Int) = 5 + 16384 * ((k + 1 : Nat) : Int) := by
    push_cast
    ring
  have e2 : (fun j => wrapDone k j || j == k) = wrapDone (k + 1) := funext fun j => by
    rw [Bool.eq_iff_iff]
    simp only [wrapDone, Bool.or_eq_true, decide_eq_true_eq, beq_iff_eq]
    omega
  simp only [wrapPiece, modify_wrapInFlight, zeroBlock_block, length_zeroes, wrapReceived, List.range_succ,
    List.map_append, List.map_singleton, List.cons_append, e1, e2]

theorem blockRequests_wrap (sha1 : Bytes → Bytes) :
    blockRequests 0 (pieceSize (wrapTorrent sha1) 0) = some wrapTiles := by
  rw [show pieceSize (wrapTorrent sha1) 0 = 2^32 + 5 from rfl, blockRequests_eq_tiles 0 _ (by decide) (by decide),
    show blockCount (2^32 + 5) = 2^18 + 1 by decide, wrapTiles_eq]

theorem map_eq_mapIdx {α β : Type} (f : α → β) (l : List α) : l.map f = l.mapIdx fun _ a => f a :=
  List.ext_getElem (by simp) fun _ _ _ => by simp

theorem dispatch_wrapTiles :
    ((⟨0, 0, 2^32 + 5, [], wrapTiles, []⟩ : PendingPiece).reschedule 0).dispatch 0 (List.replicate (2^18 + 1) true) =
      wrapPiece 0 [] fun _ => false := by
  simp only [PendingPiece.dispatch, PendingPiece.reschedule, List.filter_nil, List.map_nil, List.append_nil,
    dispatchRequests_all 0 wrapTiles (2^18 + 1) (by simp), List.nil_append]
  rw [map_eq_mapIdx]
  rfl

theorem reachable_wrap_sent (sha1 : Bytes → Bytes) :
    Reachable sha1 (wrapTorrent sha1) 1 [0] 0 (slotEngine (wrapPiece 0 [] fun _ => false) 0) := by
  have h3 : Reachable sha1 (wrapTorrent sha1) 1 [0] 0 ⟨[none], [], [0], .admission 0, [], 0, 0, [], [], 0, false⟩ :=
    @Reachable.run _ _ _ _ _ _ _ [.schedule [], .schedule [], .schedule []] Reachable.init rfl
  have h4 : Reachable sha1 (wrapTorrent sha1) 1 [0] 0
      ⟨[some 0], [⟨0, 0, 2^32 + 5, [], wrapTiles, []⟩], [], .scan 0 0, [], 0, 0, [], [], 0, false⟩ :=
    h3.step (a := .schedule []) ((Engine.step_schedule sha1 _ rfl []).trans
      (@Engine.schedule_admission _ _ 0 0 [] _ [] rfl rfl (blockRequests_wrap sha1) rfl))
  have h5 := h4.step (a := .schedule (List.replicate (2^18 + 1) true)) ((Engine.step_schedule sha1 _ rfl _).trans
    (Engine.schedule_visit _ _ rfl rfl))
  simp only [List.modify_zero_cons, dispatch_wrapTiles] at h5
  exact h5

theorem reachable_wrap_stage (sha1 : Bytes → Bytes) : ∀ k : Nat, k < 2^18 →
    Reachable sha1 (wrapTorrent sha1) 1 [0] 0
      (slotEngine (wrapPiece (5 + 16384 * k) (wrapReceived k) (wrapDone k)) (5 + 16384 * k))
  | 0, _ => (reachable_wrap_sent sha1).run (slotEngine_store sha1 _ 0 false rfl arrive_wrapBlock (by decide))
  | k + 1, hk => by
    have h := slotEngine_store sha1 (wrapTorrent sha1) (5 + 16384 * k) false rfl (arrive_zeroBlock (k := k) (by omega))
      (by simp only [wrapPiece]; push_cast; omega)
    rw [zeroBlock_block, length_zeroes, show 5 + 16384 * (k : Int) + ((16384 : Nat) : Int) = 5 + 16384 * ((k + 1 : Nat) : Int)
      by push_cast; ring] at h
    exact (reachable_wrap_stage sha1 k (by omega)).run h

theorem sortByBegin_wrapReceived (k : Nat) (hk : k ≤ 2^18) : sortByBegin (wrapReceived k) = wrapReceived k := by
  apply List.mergeSort_of_sorted
  simp only [wrapReceived, List.pairwise_cons, List.pairwise_map]
  refine ⟨fun b _ => decide_eq_true (Nat.zero_le _), (List.pairwise_lt_range _).imp_of_mem fun ha hb hab => ?_⟩
  rw [List.mem_range] at ha hb
  exact decide_eq_true (show (zeroBlock _).begin.toNat ≤ (zeroBlock _).begin.toNat by
    rw [begin_zeroBlock (by omega), begin_zeroBlock (by omega)]; omega)

theorem reachable_wrap_flushed (sha1 : Bytes → Bytes) :
    ∃ s, Reachable sha1 (wrapTorrent sha1) 1 [0] 0 s ∧
      s.flushes = [⟨0, assemble (wrapReceived (2^18)),
        ⟨0, 5 + 16384 * (2^18 : Nat), 2^32 + 5, wrapReceived (2^18), [], wrapInFlight (wrapDone (2^18))⟩⟩] := by
  have hq := arrive_zeroBlock (k := 2^18 - 1) (by norm_num)
  rw [show 2^18 - 1 + 1 = 2^18 from rfl] at hq
  have hsort : sortByBegin (wrapPiece (5 + 16384 * (2^18 : Nat)) (wrapReceived (2^18)) (wrapDone (2^18))).received =
      wrapReceived (2^18) :=
    sortByBegin_wrapReceived _ le_rfl
  refine ⟨_, (reachable_wrap_stage sha1 (2^18 - 1) (by norm_num)).run
    (slotEngine_verified sha1 (wrapTorrent sha1) _ rfl hq (by decide) (by rw [hsort]; rfl)), ?_⟩
  rw [hsort]
  rfl

/-- A piece of `2^32 + 5` bytes: its last block goes on the wire at `Begin = 0`, so the sort puts
it first and `Flush` gets its five bytes where block `0` belongs. -/
theorem flush_misplaces_wrapped_block :
    (∀ sha1 : Bytes → Bytes, pieceSize (wrapTorrent sha1) 0 = 2^32 + 5) ∧
      ∀ sha1 : Bytes → Bytes, ∃ s, Reachable sha1 (wrapTorrent sha1) 1 [0] 0 s ∧ ∃ f ∈ s.flushes,
        ∃ b ∈ f.piece.received, (f.data.drop b.begin.toNat).take b.block.length ≠ b.block := by
  refine ⟨fun _ => rfl, fun sha1 => ?_⟩
  obtain ⟨s, hs, hf⟩ := reachable_wrap_flushed sha1
  refine ⟨s, hs, _, hf ▸ List.mem_singleton_self _, zeroBlock 0,
    List.mem_cons_of_mem _ (List.mem_map.mpr ⟨0, List.mem_range.mpr (by norm_num), rfl⟩), fun h => ?_⟩
  have e : assemble (wrapReceived (2^18)) = 1 :: 1 :: 1 :: 1 :: 1 :: assemble ((List.range (2^18)).map zeroBlock) := by
    simp only [wrapReceived, assemble, List.flatMap_cons, wrapBlock, List.cons_append, List.nil_append]
  have hz : zeroes = 0 :: List.replicate 16383 0 := by
    unfold zeroes
    rfl
  rw [begin_zeroBlock (by norm_num), zeroBlock_block, length_zeroes, e, List.drop_zero, hz] at h
  exact absurd (List.cons.inj h).1 (by decide)

end TinyTorrent
