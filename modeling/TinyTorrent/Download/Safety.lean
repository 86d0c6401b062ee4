import TinyTorrent.Download.Honest

/-!
# Honest peers never crash the receive path

While every block a worker takes holds the content's bytes at its offset, every queued piece hashes
to its `PieceHash` and every `Flush` succeeds, no run panics and every `t.Flush(index, data)` writes
the content of piece `index` (`honest_runs_never_panic`); `t.Downloaded` then counts every byte the
pieces hold once (`honest_runs_count_received_bytes`).
-/

namespace TinyTorrent

/-- What honest peers and a working store allow a run: every block a worker takes holds the
content's bytes at its offset, and every `Flush` succeeds; the scheduler and the clock are free. -/
def HonestAction (content : UInt32 → Bytes) : Action → Prop
  | .load _ m => HonestBlock content m
  | .recv _ flushOk => flushOk = true
  | _ => True

instance (content : UInt32 → Bytes) : DecidablePred (HonestAction content)
  | .load _ m => inferInstanceAs (Decidable (HonestBlock content m))
  | .recv _ flushOk => inferInstanceAs (Decidable (flushOk = true))
  | .tick _ | .schedule _ | .exit => inferInstanceAs (Decidable True)

variable {p q : PendingPiece}

theorem PieceInv.request_mem_tiles (hp : PieceInv p) {m : Piece} (hm : m ∈ p.received) :
    m.request ∈ tiles p.index p.size (blockCount p.size) 0 :=
  hp.tiling.subset (List.mem_append_right _ (((List.filter_sublist _).map _).subset
    (hp.marked.subset (List.mem_map_of_mem _ hm))))

theorem PieceInv.unmarked (hp : PieceInv p) {m : Piece} {k : Nat} (hkl : k < p.inFlight.length)
    (hkr : p.inFlight[k].request = m.request) (hnd : p.received.any m.duplicates = false) :
    p.inFlight[k].received = false := by
  by_contra hmk
  obtain ⟨b, hb, hbm⟩ := List.mem_map.mp (hp.marked.mem_iff.mpr (List.mem_map.mpr
    ⟨_, List.mem_filter.mpr ⟨List.getElem_mem hkl, by simpa using hmk⟩, hkr⟩))
  have := List.any_eq_true.mpr ⟨b, hb, Piece.duplicates_of_request_eq hbm⟩
  simp [hnd] at this

section
variable (t : MetaInfo) (content : UInt32 → Bytes) (order : List UInt32)

structure HonestPieceInv (p : PendingPiece) : Prop where
  inv : PieceInv p
  count : p.downloaded = ((p.received.map (·.block.length)).sum : Nat)
  honest : ∀ b ∈ p.received, HonestBlock content b
  queued : p.index ∈ order
  size : p.size = pieceSize t p.index

/-- The invariant of a run with honest peers and a working store: every queued index comes from
`order`, every piece keeps `HonestPieceInv`, every block a worker holds is honest, every flush so
far wrote the content of its piece, and nothing panicked. -/
structure HonestInv (s : Engine) : Prop where
  queued : ∀ i ∈ s.unverified, i ∈ order
  pieces : ∀ p ∈ s.pieces, HonestPieceInv t content order p
  held : ∀ h ∈ s.held, HonestBlock content h.msg
  flushes : ∀ f ∈ s.flushes, f.data = content f.index
  panicked : s.panicked = false

variable {t content order}

theorem HonestPieceInv.fits (hp : HonestPieceInv t content order p) {m : Piece} {k : Nat}
    (hk : p.inFlight.findIdx? (fun r => decide (r.request = m.request)) = some k)
    (hnd : p.received.any m.duplicates = false) : p.downloaded + m.block.length ≤ p.size := by
  obtain ⟨hkl, hkm, -⟩ := List.findIdx?_eq_some_iff_getElem.mp hk
  have hkr : p.inFlight[k].request = m.request := of_decide_eq_true hkm
  have hpos : 0 < m.block.length := m.length_request ▸ hp.inv.length_pos (r := m.request)
    (List.mem_append_right _ (List.mem_map.mpr ⟨_, List.getElem_mem hkl, hkr⟩))
  have hsub : ((p.received ++ [m]).map Piece.request).Subperm (tiles p.index p.size (blockCount p.size) 0) := by
    rw [List.map_append, List.map_singleton]
    refine ((hp.inv.marked.append_right _).trans
      (hkr ▸ (perm_marked_modify _ _ hkl (hp.inv.unmarked hkl hkr hnd)).symm)).subperm.trans
      (((List.filter_sublist _).map _).subperm.trans ?_)
    rw [map_request_modify]
    exact (List.sublist_append_right _ _).subperm.trans hp.inv.tiling.subperm
  obtain ⟨l, hl, hs⟩ := hsub
  have hle := (hs.map (·.length.toNat)).sum_le_sum fun _ _ => Nat.zero_le _
  rw [(hl.map _).sum_eq, (tiles_contiguous_of_le p.index hp.inv.size_le).2] at hle
  simp only [List.map_append, List.map_map, Function.comp_def, Piece.length_request, List.map_cons, List.map_nil,
    List.sum_append, List.sum_cons, List.sum_nil] at hle
  have := hp.count
  omega

theorem HonestPieceInv.arrive_ne_overflow (hp : HonestPieceInv t content order p) (m : Piece) :
    p.arrive m ≠ .overflow := by
  unfold PendingPiece.arrive
  split
  · nofun
  · rename_i k hk
    split_ifs with hnd hov
    · nofun
    · exact absurd hov (not_lt.mpr (hp.fits hk (Bool.eq_false_iff.mpr hnd)))
    · nofun

theorem HonestPieceInv.stored (hp : HonestPieceInv t content order p) {m : Piece} (hm : HonestBlock content m)
    (h : p.arrive m = .stored q) : HonestPieceInv t content order q := by
  have hi := hp.inv.stored h
  obtain ⟨k, hk, hnd, hle, rfl⟩ := PendingPiece.arrive_eq_stored h
  refine ⟨hi, ?_, fun b hb => ?_, hp.queued, hp.size⟩
  · simp only [List.map_append, List.map_singleton, List.sum_append, List.sum_singleton, hp.count, Nat.cast_add]
  · rcases List.mem_append.mp hb with hb | hb
    · exact hp.honest b hb
    · exact (List.mem_singleton.mp hb) ▸ hm

theorem HonestPieceInv.sort (hp : HonestPieceInv t content order p) :
    HonestPieceInv t content order { p with received := sortByBegin p.received } :=
  ⟨hp.inv.sort, by rw [hp.count]; dsimp only; rw [((sortByBegin_perm _).map _).sum_eq],
    fun b hb => hp.honest b ((sortByBegin_perm _).subset hb), hp.queued, hp.size⟩

theorem HonestPieceInv.assemble (hp : HonestPieceInv t content order p) (hc : p.downloaded = p.size)
    (hr : p.received ≠ []) (hlen : ((content p.index).length : Int) = pieceSize t p.index) :
    assemble (sortByBegin p.received) = content p.index := by
  have hcont : Contiguous ((sortByBegin p.received).map Piece.request) 0 :=
    hp.inv.sorted_requests hc hr ▸ (tiles_contiguous_of_le p.index hp.inv.size_le).1
  rw [assemble_honest content p.index _ 0 hcont
    (fun b hb => index_of_mem_tiles (hp.inv.request_mem_tiles ((sortByBegin_perm _).subset hb)))
    (fun b hb => hp.honest b ((sortByBegin_perm _).subset hb)), List.drop_zero]
  apply List.take_of_length_le
  rw [((sortByBegin_perm _).map _).sum_eq]
  have := hp.count
  have := hp.size
  omega

variable {s s' : Engine}

theorem HonestInv.setPiece (hi : HonestInv t content order s) (hp : HonestPieceInv t content order p)
    (ref : Nat) : HonestInv t content order (s.setPiece ref p) :=
  ⟨hi.queued, fun q hq => (List.mem_or_eq_of_mem_set hq).elim (hi.pieces q) (· ▸ hp), hi.held, hi.flushes,
    hi.panicked⟩

variable (sha1 : Bytes → Bytes)

theorem HonestInv.verify (hpc : ∀ i ∈ order, HonestPiece sha1 t content i) (hi : HonestInv t content order s)
    (hp : HonestPieceInv t content order p) (hc : p.downloaded = p.size) {m : Piece} (hm : m ∈ p.received)
    (slot ref : Nat) : HonestInv t content order (s.verify sha1 t slot ref p m true) := by
  have hmi : m.index = p.index := index_of_mem_tiles (hp.inv.request_mem_tiles hm)
  have hdata := hp.assemble hc (List.ne_nil_of_mem hm) (hpc _ hp.queued).2.2.1
  have hf : HonestInv t content order { s with flushes := s.flushes ++ [⟨m.index,
      assemble (sortByBegin p.received), { p with received := sortByBegin p.received }⟩] } :=
    ⟨hi.queued, hi.pieces, hi.held, fun f hf => (List.mem_append.mp hf).elim (hi.flushes f)
      fun hf => by rw [List.mem_singleton.mp hf, hdata, hmi], hi.panicked⟩
  have hs := hf.setPiece hp.sort ref
  unfold Engine.verify
  dsimp only
  rw [if_neg (not_not.mpr (by rw [hdata, hmi]; exact (hpc _ hp.queued).2.2.2)), if_pos rfl]
  split_ifs
  · exact ⟨hs.1, hs.2, hs.3, hs.4, hs.5⟩
  · exact ⟨hs.1, hs.2, hs.3, hs.4, hs.5⟩

theorem HonestInv.receive (hpc : ∀ i ∈ order, HonestPiece sha1 t content i) (hi : HonestInv t content order s)
    (hd : Held) (hh : HonestBlock content hd.msg) : HonestInv t content order (s.receive sha1 t hd true) := by
  unfold Engine.receive
  split
  · exact hi
  · rename_i p hp
    have hpi := hi.pieces p (List.getElem?_mem hp)
    split
    · exact hi
    · exact hi
    · rename_i hov
      exact absurd hov (hpi.arrive_ne_overflow hd.msg)
    · rename_i q hq
      have hqi := hpi.stored hh hq
      have hs1 : HonestInv t content order
          { s.setPiece hd.ref q with downloaded := s.downloaded + hd.msg.block.length } :=
        let h := hi.setPiece hqi hd.ref
        ⟨h.1, h.2, h.3, h.4, h.5⟩
      have hm : hd.msg ∈ q.received := by
        obtain ⟨_, _, _, _, rfl⟩ := PendingPiece.arrive_eq_stored hq
        exact List.mem_append_right _ (List.mem_singleton_self _)
      dsimp only
      split_ifs with hc
      · exact hs1.verify sha1 hpc hqi hc hm _ _
      · exact hs1

theorem HonestInv.step (hpc : ∀ i ∈ order, HonestPiece sha1 t content i) (hi : HonestInv t content order s)
    {a : Action} (ha : HonestAction content a) (h : s.step sha1 t a = some s') : HonestInv t content order s' := by
  unfold Engine.step at h
  rw [if_neg (ne_true_of_eq_false hi.panicked)] at h
  cases a with
  | tick d =>
    cases h
    exact ⟨hi.1, hi.2, hi.3, hi.4, hi.5⟩
  | schedule sent =>
    have hframe := Engine.schedule_frame t h
    have hheld : s'.held = s.held := (congrArg Engine.held hframe :)
    have hpan : s'.panicked = s.panicked := (congrArg Engine.panicked hframe :)
    obtain ⟨hf, ⟨hp, hu⟩ | ⟨ref, hp, hu⟩ | ⟨index, rest, bs, hq, hb, hp, hu⟩⟩ := Engine.schedule_pieces t h
    · exact ⟨hu ▸ hi.1, hp ▸ hi.2, hheld ▸ hi.3, hf ▸ hi.4, hpan ▸ hi.5⟩
    · refine ⟨hu ▸ hi.1, hp ▸ forall_mem_modify (fun p hp => ?_) ref hi.2, hheld ▸ hi.3, hf ▸ hi.4, hpan ▸ hi.5⟩
      exact ⟨(hp.inv.reschedule _).dispatch _ _, hp.count, hp.honest, hp.queued, hp.size⟩
    · have hidx : index ∈ order := hi.1 index (hq ▸ List.mem_cons_self _ _)
      refine ⟨fun i hi' => hi.1 i (hq ▸ List.mem_cons_of_mem _ (hu ▸ hi')), ?_, hheld ▸ hi.3, hf ▸ hi.4, hpan ▸ hi.5⟩
      rw [hp]
      intro p hp'
      rcases List.mem_append.mp hp' with hp' | hp'
      · exact hi.2 p hp'
      · rw [List.mem_singleton.mp hp']
        exact ⟨pieceInv_admitted (hpc index hidx).2.1 hb, by simp, by simp, hidx, rfl⟩
  | exit =>
    dsimp only at h
    split_ifs at h
    cases h
    exact ⟨hi.1, hi.2, hi.3, hi.4, hi.5⟩
  | load slot m =>
    dsimp only at h
    split at h
    · split_ifs at h
      cases h
      exact ⟨hi.1, hi.2, fun x hx => (List.mem_append.mp hx).elim (hi.3 x) fun hx => (List.mem_singleton.mp hx) ▸ ha,
        hi.4, hi.5⟩
    · cases h
  | recv k ok =>
    obtain rfl : ok = true := ha
    dsimp only at h
    split at h
    · cases h
    · rename_i hd hk
      cases h
      exact HonestInv.receive (s := { s with held := s.held.eraseIdx k }) sha1 hpc
        ⟨hi.1, hi.2, fun x hx => hi.3 x (List.mem_of_mem_eraseIdx hx), hi.4, hi.5⟩ hd
        (hi.3 hd (List.mem_iff_getElem?.mpr ⟨k, hk⟩))

theorem HonestInv.run (hpc : ∀ i ∈ order, HonestPiece sha1 t content i) :
    ∀ {s s' : Engine} {as : List Action}, HonestInv t content order s → (∀ a ∈ as, HonestAction content a) →
      s.run sha1 t as = some s' → HonestInv t content order s'
  | _, _, [], hi, _, h => by cases h; exact hi
  | s, _, a :: as, hi, ha, h => by
    cases hs : s.step sha1 t a with
    | none => simp [Engine.run, hs] at h
    | some s₁ =>
      exact HonestInv.run hpc (hi.step sha1 hpc (ha a (List.mem_cons_self _ _)) hs)
        (fun b hb => ha b (List.mem_cons_of_mem _ hb)) (by simpa [Engine.run, hs] using h)

theorem honestInv_init (slots : Nat) (d0 : Int) : HonestInv t content order (Engine.init slots order d0) :=
  ⟨fun _ h => h, fun _ h => absurd h (List.not_mem_nil _), fun _ h => absurd h (List.not_mem_nil _),
    fun _ h => absurd h (List.not_mem_nil _), rfl⟩

end

/-- `t.Downloaded` is its start value `d0` and the `Downloaded` of every piece so far. -/
def Counted (d0 : Int) (s : Engine) : Prop :=
  s.downloaded = d0 + (s.pieces.map (·.downloaded)).sum

theorem sum_downloaded_set {ps : List PendingPiece} {ref : Nat} {p : PendingPiece} (h : ps[ref]? = some p)
    (q : PendingPiece) :
    ((ps.set ref q).map (·.downloaded)).sum = (ps.map (·.downloaded)).sum + (q.downloaded - p.downloaded) := by
  obtain ⟨hlt, rfl⟩ := List.getElem?_eq_some_iff.mp h
  rw [List.map_set, List.sum_set', dif_pos (by simpa using hlt), List.getElem_map]
  ring

theorem map_modify_of_eq {α β : Type} {f : α → α} {g : α → β} (hf : ∀ a, g (f a) = g a) :
    ∀ (l : List α) (n : Nat), (l.modify f n).map g = l.map g
  | [], n => by cases n <;> rfl
  | a :: l, 0 => by rw [List.modify_zero_cons, List.map_cons, List.map_cons, hf]
  | a :: l, n + 1 => by rw [List.modify_succ_cons, List.map_cons, List.map_cons, map_modify_of_eq hf l n]

section
variable (sha1 : Bytes → Bytes) (t : MetaInfo) {d0 : Int} {s s' : Engine} {ref : Nat} {p q : PendingPiece}

theorem Counted.store (hc : Counted d0 s) (hp : s.pieces[ref]? = some p) {n : Int} (hq : q.downloaded = p.downloaded + n) :
    Counted d0 { s.setPiece ref q with downloaded := s.downloaded + n } := by
  show s.downloaded + n = d0 + ((s.pieces.set ref q).map _).sum
  rw [sum_downloaded_set hp, hq, hc]
  ring

theorem Counted.setPiece (hc : Counted d0 s) (hp : s.pieces[ref]? = some p) (hq : q.downloaded = p.downloaded) :
    Counted d0 (s.setPiece ref q) := by
  show s.downloaded = d0 + ((s.pieces.set ref q).map _).sum
  rw [sum_downloaded_set hp, hq, sub_self, add_zero]
  exact hc

theorem Counted.verify (hc : Counted d0 s) (hp : s.pieces[ref]? = some p) (slot : Nat) (m : Piece) (ok : Bool) :
    Counted d0 (s.verify sha1 t slot ref p m ok) := by
  have hretry : ∀ s' : Engine, s'.pieces = s.pieces → Counted d0 s' →
      Counted d0 (match ({ p with received := sortByBegin p.received } : PendingPiece).requeue with
        | none => { s' with panicked := true }
        | some q => s'.setPiece ref q) := by
    intro s' hs' hc'
    split
    · exact hc'
    · exact hc'.setPiece (hs' ▸ hp) (PendingPiece.requeue_spec ‹_›).2.2.1
  unfold Engine.verify
  dsimp only
  have hs : Counted d0 (s.setPiece ref { p with received := sortByBegin p.received }) := hc.setPiece hp rfl
  split_ifs
  · exact hretry s rfl hc
  · exact hs
  · exact hs
  · exact hretry { s with flushes := s.flushes ++ [⟨m.index, assemble (sortByBegin p.received),
      { p with received := sortByBegin p.received }⟩] } rfl hc

theorem Counted.receive (hc : Counted d0 s) (hd : Held) (ok : Bool) : Counted d0 (s.receive sha1 t hd ok) := by
  unfold Engine.receive
  split
  · exact hc
  · rename_i p hp
    split
    · exact hc
    · exact hc
    · exact hc
    · rename_i q hq
      have hs1 := hc.store hp (PendingPiece.stored_spec hq).2.2.1
      have hq' : ({ s.setPiece hd.ref q with downloaded := s.downloaded + hd.msg.block.length } : Engine).pieces[hd.ref]? =
          some q := List.getElem?_set_self (List.getElem?_eq_some_iff.mp hp).1
      dsimp only
      split_ifs
      · exact hs1.verify sha1 t hq' _ _ _
      · exact hs1

theorem Counted.step (hc : Counted d0 s) {a : Action} (h : s.step sha1 t a = some s') : Counted d0 s' := by
  obtain ⟨-, ⟨d, rfl⟩ | ⟨sent, h⟩ | ⟨-, rfl⟩ | ⟨slot, ref, m, -, -, rfl⟩ | ⟨k, hd, ok, -, rfl⟩⟩ :=
    Engine.step_cases sha1 t h
  · exact hc
  · have hdl : s'.downloaded = s.downloaded := (congrArg Engine.downloaded (Engine.schedule_frame t h) :)
    obtain ⟨-, ⟨hp, -⟩ | ⟨ref, hp, -⟩ | ⟨index, rest, bs, -, -, hp, -⟩⟩ := Engine.schedule_pieces t h
    · rw [Counted, hdl, hp]
      exact hc
    · rw [Counted, hdl, hp, map_modify_of_eq (f := fun p : PendingPiece => (p.reschedule s.now).dispatch s.now sent)
        (g := PendingPiece.downloaded) (fun _ => rfl)]
      exact hc
    · rw [Counted, hdl, hp, List.map_append, List.sum_append, List.map_singleton, List.sum_singleton, add_zero]
      exact hc
  · exact hc
  · exact hc
  · exact Counted.receive sha1 t (s := { s with held := s.held.eraseIdx k }) hc hd ok

theorem Reachable.counted {slots : Nat} {order : List UInt32} (hs : Reachable sha1 t slots order d0 s) :
    Counted d0 s := by
  induction hs with
  | init => exact (add_zero d0).symm
  | step _ h ih => exact ih.step sha1 t h

end

/-- With honest peers, a `Flush` that takes every write and every queued piece's content hashing to
its `PieceHash`, no run from the start of `downloadScheduler` panics, whatever the scheduler, the
clock and the workers do, and every call `t.Flush(index, data)` of the run writes the content of
piece `index`. -/
theorem honest_runs_never_panic (sha1 : Bytes → Bytes) (t : MetaInfo) (content : UInt32 → Bytes)
    {slots : Nat} {order : List UInt32} {d0 : Int} (hc : ∀ i ∈ order, HonestPiece sha1 t content i)
    {as : List Action} (ha : ∀ a ∈ as, HonestAction content a) {s : Engine}
    (hs : (Engine.init slots order d0).run sha1 t as = some s) :
    s.panicked = false ∧ ∀ f ∈ s.flushes, f.data = content f.index :=
  have hi := HonestInv.run sha1 hc (honestInv_init slots d0) ha hs
  ⟨hi.panicked, hi.flushes⟩

theorem honest_twoBlockRun : ∀ a ∈ twoBlockRun, HonestAction (fun _ => sevens) a := by
  have hh : HonestBlock (fun _ => sevens) headBlock := by
    show (sevens.drop 0).take headBytes.length = headBytes
    rw [List.drop_zero, sevens, List.take_left]
  have ht : HonestBlock (fun _ => sevens) tailBlock := by
    show (sevens.drop 16384).take 1 = [7]
    rw [sevens, List.drop_left' length_headBytes]
    rfl
  simp [twoBlockRun, twoBlockAdmission, HonestAction, hh, ht]

/-- The run of `twoBlockTorrent` whose blocks come last one first is honest for the content
`sevens`. -/
theorem honest_two_block_run_never_panics :
    (∀ i ∈ [(0 : UInt32)], HonestPiece id (twoBlockTorrent id) (fun _ => sevens) i) ∧
      (∀ a ∈ twoBlockRun, HonestAction (fun _ => sevens) a) ∧
      (Engine.init 1 [0] 0).run id (twoBlockTorrent id) twoBlockRun = some twoBlockVerified ∧
      twoBlockVerified.panicked = false ∧ ∀ f ∈ twoBlockVerified.flushes, f.data = sevens :=
  ⟨twoBlock_honestPiece, honest_twoBlockRun, run_twoBlockVerified id,
    honest_runs_never_panic id (twoBlockTorrent id) (fun _ => sevens) twoBlock_honestPiece honest_twoBlockRun
      (run_twoBlockVerified id)⟩

/-- With honest peers and a working store, `t.Downloaded` counts every received byte once: in every
run it is its start value and the bytes of the blocks the pieces hold. -/
theorem honest_runs_count_received_bytes (sha1 : Bytes → Bytes) (t : MetaInfo) (content : UInt32 → Bytes)
    {slots : Nat} {order : List UInt32} {d0 : Int} (hc : ∀ i ∈ order, HonestPiece sha1 t content i)
    {as : List Action} (ha : ∀ a ∈ as, HonestAction content a) {s : Engine}
    (hs : (Engine.init slots order d0).run sha1 t as = some s) :
    s.downloaded = d0 + (s.pieces.map fun p => (((p.received.map (·.block.length)).sum : Nat) : Int)).sum := by
  have hi := HonestInv.run sha1 hc (honestInv_init slots d0) ha hs
  have hcnt : s.downloaded = d0 + (s.pieces.map (·.downloaded)).sum := (Reachable.init.run hs).counted sha1 t
  rw [hcnt, List.map_congr_left fun p hp => (hi.pieces p hp).count]

/-- The run where the blocks of `twoBlockTorrent` come last one first has counted each of its bytes
once. -/
theorem honest_two_block_run_counts_once :
    (∀ i ∈ [(0 : UInt32)], HonestPiece id (twoBlockTorrent id) (fun _ => sevens) i) ∧
      (∀ a ∈ twoBlockRun, HonestAction (fun _ => sevens) a) ∧
      (Engine.init 1 [0] 0).run id (twoBlockTorrent id) twoBlockRun = some twoBlockVerified ∧
      twoBlockVerified.downloaded =
        0 + (twoBlockVerified.pieces.map fun p => (((p.received.map (·.block.length)).sum : Nat) : Int)).sum :=
  ⟨twoBlock_honestPiece, honest_twoBlockRun, run_twoBlockVerified id,
    honest_runs_count_received_bytes id (twoBlockTorrent id) (fun _ => sevens) twoBlock_honestPiece honest_twoBlockRun
      (run_twoBlockVerified id)⟩

end TinyTorrent
