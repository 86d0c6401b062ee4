import TinyTorrent.Download.Piece

/-!
# The download engine

The loop of `downloadScheduler` and any number of `recvPieces` workers over the slot table, the
`pendingPiece`s and `t.Downloaded`, one atomic action per step. Peers, the clock, the store and the
hash are the environment. The retry after a failed check or flush keeps the piece's and the
torrent's byte counts (`retried_piece_panics`, `downloaded_counts_discarded_bytes`).
-/

namespace TinyTorrent

/-- A `recvPieces` worker between its slot load and `piece.l.Lock()`: the slot `pieceIdx` where it
found the piece, the piece's reference and the block `recv`. -/
structure Held where
  slot : Nat
  ref : Nat
  msg : Piece
  deriving DecidableEq

structure FlushCall where
  index : UInt32
  data : Bytes
  piece : PendingPiece

inductive Sched where
  /-- Visiting slot `i` of the table; `free` nil slots seen so far in this pass. -/
  | scan (i free : Nat)
  /-- Looking for a nil slot from `i` on. -/
  | search (i : Nat)
  /-- About to compare-and-swap slot `j` from nil to the next piece. -/
  | admission (j : Nat)
  /-- Closed `t.download.completed` and returned. -/
  | completed
  /-- Returned on `t.stop` or `t.download.cancel`. -/
  | exited
  /-- Stuck in the request loop of an admission that never ends. -/
  | hung
  deriving DecidableEq

/-- The shared state of the engine and the scheduler's locals. -/
structure Engine where
  /-- `t.download.requests`: a reference into `pieces` per slot, `none` when free. -/
  requests : List (Option Nat)
  /-- Every `pendingPiece` allocated so far, addressed by reference. -/
  pieces : List PendingPiece
  /-- The scheduler's queue of pieces not yet admitted. -/
  unverified : List UInt32
  sched : Sched
  held : List Held
  /-- `t.Downloaded`. -/
  downloaded : Int
  now : Nat
  /-- Indices flushed successfully, in order: each was set in `t.BitField` and sent in `HAVE`. -/
  verified : List UInt32
  flushes : List FlushCall
  /-- "two go-routines verified same piece" warnings. -/
  casFailures : Nat
  /-- A panic of `recvPieces` ended the process. -/
  panicked : Bool

inductive Action where
  | tick (d : Nat)
  /-- The scheduler's next step; `sent` says which pending requests of a visited slot found a peer. -/
  | schedule (sent : List Bool)
  /-- The scheduler's `select` takes `t.stop` or `t.download.cancel`. -/
  | exit
  /-- A worker receives `msg` and finds its piece in `slot`. -/
  | load (slot : Nat) (msg : Piece)
  /-- Worker `held[k]` runs its locked section; `flushOk` is the outcome of `t.Flush`. -/
  | recv (k : Nat) (flushOk : Bool)

/-- The scheduler at the start of `downloadScheduler`: `unverified` is `MissingPieces()` shuffled. -/
def Engine.init (slots : Nat) (unverified : List UInt32) (d0 : Int) : Engine :=
  ⟨List.replicate slots none, [], unverified, .scan 0 0, [], d0, 0, [], [], 0, false⟩

def Engine.setPiece (s : Engine) (ref : Nat) (p : PendingPiece) : Engine :=
  { s with pieces := s.pieces.set ref p }

section Steps

variable (sha1 : Bytes → Bytes) (t : MetaInfo)

/-- The scheduler from its program point: the slot visit (rescheduling and dispatch under the
lock), the completion test, the search for a nil slot and the admission of the next piece. -/
def Engine.schedule (s : Engine) (sent : List Bool) : Option Engine :=
  match s.sched with
  | .scan i free =>
    if i < s.requests.length then
      match s.requests[i]? with
      | some (some ref) =>
        some { s with pieces := s.pieces.modify (fun p => (p.reschedule s.now).dispatch s.now sent) ref
                      sched := .scan (i + 1) free }
      | _ => some { s with sched := .scan (i + 1) (free + 1) }
    else if s.unverified = [] then
      some { s with sched := if free = s.requests.length then .completed else .scan 0 0 }
    else some { s with sched := .search 0 }
  | .search i =>
    if i < s.requests.length then
      some { s with sched := if s.requests[i]? = some none then .admission i else .search (i + 1) }
    else some { s with sched := .scan 0 0 }
  | .admission j =>
    match s.unverified with
    | [] => none
    | index :: rest =>
      match blockRequests index (pieceSize t index) with
      | none => some { s with sched := .hung }
      | some bs =>
        if s.requests[j]? = some none then
          some { s with requests := s.requests.set j (some s.pieces.length)
                        pieces := s.pieces ++ [⟨index, 0, pieceSize t index, [], bs, []⟩]
                        unverified := rest, sched := .scan 0 0 }
        else some { s with sched := .scan 0 0 }
  | _ => none

theorem Engine.schedule_visit {s : Engine} {i free ref : Nat} (sent : List Bool) (hs : s.sched = .scan i free)
    (hr : s.requests[i]? = some (some ref)) :
    s.schedule t sent = some { s with pieces := s.pieces.modify (fun p => (p.reschedule s.now).dispatch s.now sent) ref
                                      sched := .scan (i + 1) free } := by
  simp only [Engine.schedule, hs, if_pos (List.getElem?_eq_some_iff.mp hr).1, hr]

theorem Engine.schedule_admission {s : Engine} {j : Nat} {index : UInt32} {rest : List UInt32}
    {bs : List Request} (sent : List Bool) (hs : s.sched = .admission j) (hu : s.unverified = index :: rest)
    (hb : blockRequests index (pieceSize t index) = some bs) (hj : s.requests[j]? = some none) :
    s.schedule t sent = some { s with requests := s.requests.set j (some s.pieces.length)
                                      pieces := s.pieces ++ [⟨index, 0, pieceSize t index, [], bs, []⟩]
                                      unverified := rest, sched := .scan 0 0 } := by
  simp only [Engine.schedule, hs, hu, hb, hj, if_true]

/-- The verification of piece `ref`, complete after block `m` arrived: sort, hash, flush, then
set the bit, announce it and release the slot, or requeue. -/
def Engine.verify (s : Engine) (slot ref : Nat) (p : PendingPiece) (m : Piece) (flushOk : Bool) :
    Engine :=
  let p := { p with received := sortByBegin p.received }
  let data := assemble p.received
  let retry (s : Engine) : Engine :=
    match p.requeue with
    | none => { s with panicked := true }
    | some q => s.setPiece ref q
  if sha1 data ≠ t.pieceHash m.index then retry s
  else
    let s := { s with flushes := s.flushes ++ [⟨m.index, data, p⟩] }
    if flushOk then
      let s := { s.setPiece ref p with verified := s.verified ++ [m.index] }
      if s.requests[slot]? = some (some ref) then { s with requests := s.requests.set slot none }
      else { s with casFailures := s.casFailures + 1 }
    else retry s

/-- The locked section of a `recvPieces` worker. -/
def Engine.receive (s : Engine) (h : Held) (flushOk : Bool) : Engine :=
  match s.pieces[h.ref]? with
  | none => s
  | some p =>
    match p.arrive h.msg with
    | .untracked | .duplicate => s
    | .overflow => { s with panicked := true }
    | .stored q =>
      let s := { s.setPiece h.ref q with downloaded := s.downloaded + h.msg.block.length }
      if q.downloaded = q.size then s.verify sha1 t h.slot h.ref q h.msg flushOk else s

/-- One step of the engine; `none` when the action is not enabled. A panic ends the process. -/
def Engine.step (s : Engine) (a : Action) : Option Engine :=
  if s.panicked then none
  else match a with
  | .tick d => some { s with now := s.now + d }
  | .schedule sent => s.schedule t sent
  | .exit => if s.sched = .scan 0 0 then some { s with sched := .exited } else none
  | .load slot m =>
    match s.requests[slot]? with
    | some (some ref) =>
      if (s.pieces[ref]?).map (·.index) = some m.index then some { s with held := s.held ++ [⟨slot, ref, m⟩] }
      else none
    | _ => none
  | .recv k flushOk =>
    match s.held[k]? with
    | none => none
    | some h => some ({ s with held := s.held.eraseIdx k }.receive sha1 t h flushOk)

/-- The states of every run from the start of `downloadScheduler` with `slots` slots, the queue
`unverified` and `t.Downloaded = d0`. -/
inductive Reachable (slots : Nat) (unverified : List UInt32) (d0 : Int) : Engine → Prop where
  | init : Reachable slots unverified d0 (Engine.init slots unverified d0)
  | step {s s' : Engine} {a : Action} :
      Reachable slots unverified d0 s → s.step sha1 t a = some s' → Reachable slots unverified d0 s'

theorem Engine.schedule_frame {s s' : Engine} {sent : List Bool} (h : s.schedule t sent = some s') :
    { s' with requests := s.requests, pieces := s.pieces, unverified := s.unverified, sched := s.sched } = s := by
  unfold Engine.schedule at h
  split at h <;> (repeat' split at h) <;> cases h <;> rfl

theorem Engine.schedule_pieces {s s' : Engine} {sent : List Bool} (h : s.schedule t sent = some s') :
    s'.flushes = s.flushes ∧
      (s'.pieces = s.pieces ∧ s'.unverified = s.unverified ∨
        (∃ ref, s'.pieces = s.pieces.modify (fun p => (p.reschedule s.now).dispatch s.now sent) ref ∧
          s'.unverified = s.unverified) ∨
        ∃ index rest bs, s.unverified = index :: rest ∧ blockRequests index (pieceSize t index) = some bs ∧
          s'.pieces = s.pieces ++ [⟨index, 0, pieceSize t index, [], bs, []⟩] ∧ s'.unverified = rest) := by
  unfold Engine.schedule at h
  split at h <;> (repeat' split at h) <;> cases h
  all_goals first
    | exact ⟨rfl, .inl ⟨rfl, rfl⟩⟩
    | exact ⟨rfl, .inr (.inl ⟨_, rfl, rfl⟩)⟩
    | exact ⟨rfl, .inr (.inr ⟨_, _, _, by assumption, by assumption, rfl, rfl⟩)⟩

theorem Engine.step_schedule {s : Engine} (h : s.panicked = false) (sent : List Bool) :
    s.step sha1 t (.schedule sent) = s.schedule t sent := by
  simp [Engine.step, h]

theorem Engine.step_cases {s s' : Engine} {a : Action} (h : s.step sha1 t a = some s') :
    s.panicked = false ∧
      ((∃ d, s' = { s with now := s.now + d }) ∨ (∃ sent, s.schedule t sent = some s') ∨
        (s.sched = .scan 0 0 ∧ s' = { s with sched := .exited }) ∨
        (∃ slot ref m, s.requests[slot]? = some (some ref) ∧ (s.pieces[ref]?).map (·.index) = some m.index ∧
          s' = { s with held := s.held ++ [⟨slot, ref, m⟩] }) ∨
        ∃ k hd ok, s.held[k]? = some hd ∧ s' = { s with held := s.held.eraseIdx k }.receive sha1 t hd ok) := by
  unfold Engine.step at h
  cases hp : s.panicked
  · simp only [hp, Bool.false_eq_true, if_false] at h
    refine ⟨rfl, ?_⟩
    cases a <;> dsimp only at h
    case tick d => cases h; exact .inl ⟨d, rfl⟩
    case schedule sent => exact .inr (.inl ⟨sent, h⟩)
    case exit =>
      split_ifs at h with hs
      cases h
      exact .inr (.inr (.inl ⟨hs, rfl⟩))
    case load slot m =>
      split at h
      · split_ifs at h with hm
        cases h
        exact .inr (.inr (.inr (.inl ⟨_, _, _, by assumption, hm, rfl⟩)))
      · cases h
    case recv k ok =>
      split at h
      · cases h
      · cases h
        exact .inr (.inr (.inr (.inr ⟨_, _, _, by assumption, rfl⟩)))
  · simp [hp] at h

def Engine.run (s : Engine) : List Action → Option Engine
  | [] => some s
  | a :: as => (s.step sha1 t a).bind (·.run as)

theorem Engine.run_append (s : Engine) (as bs : List Action) :
    s.run sha1 t (as ++ bs) = (s.run sha1 t as).bind (·.run sha1 t bs) := by
  induction as generalizing s with
  | nil => rfl
  | cons a as ih =>
    simp only [List.cons_append, Engine.run]
    cases s.step sha1 t a with
    | none => rfl
    | some s' => exact ih s'

theorem Engine.run_load_recv {s : Engine} {slot ref : Nat} {p : PendingPiece} {m : Piece} (ok : Bool)
    (hpan : s.panicked = false) (hheld : s.held = []) (hslot : s.requests[slot]? = some (some ref))
    (hp : s.pieces[ref]? = some p) (hidx : p.index = m.index) :
    s.run sha1 t [.load slot m, .recv 0 ok] = some (s.receive sha1 t ⟨slot, ref, m⟩ ok) := by
  cases s
  simp_all [Engine.run, Engine.step]

end Steps

theorem Reachable.run {sha1 : Bytes → Bytes} {t : MetaInfo} {slots : Nat} {order : List UInt32}
    {d0 : Int} : ∀ {s s' : Engine} {as : List Action}, Reachable sha1 t slots order d0 s →
      s.run sha1 t as = some s' → Reachable sha1 t slots order d0 s'
  | _, _, [], hs, h => by cases h; exact hs
  | s, _, a :: as, hs, h => by
    cases ha : s.step sha1 t a with
    | none => simp [Engine.run, ha] at h
    | some s1 => exact Reachable.run (hs.step ha) (by simpa [Engine.run, ha] using h)

/-- A torrent of one piece of one byte, `7`: its piece hash is the hash of `[7]`. -/
def oneByteTorrent (sha1 : Bytes → Bytes) : MetaInfo := ⟨1, 1, fun _ => sha1 [7]⟩

def blockSeven : Piece := ⟨0, 0, [7], by decide⟩

def emptyDigest (_ : Bytes) : Bytes := []

def oneByteAdmission : List Action :=
  [.schedule [], .schedule [], .schedule [], .schedule [], .schedule [true], .load 0 blockSeven]

def oneByteHeld : Engine :=
  ⟨[some 0], [⟨0, 0, 1, [], [], [⟨⟨0, 0, 1⟩, 0, false⟩]⟩], [], .scan 1 0, [⟨0, 0, blockSeven⟩], 0, 0, [], [], 0, false⟩

theorem run_oneByteHeld (sha1 : Bytes → Bytes) :
    (Engine.init 1 [0] 0).run sha1 (oneByteTorrent sha1) oneByteAdmission = some oneByteHeld := by
  set_option maxRecDepth 20000 in rfl

def oneByteVerified : Engine :=
  ⟨[none], [⟨0, 1, 1, [blockSeven], [], [⟨⟨0, 0, 1⟩, 0, true⟩]⟩], [], .scan 1 0, [], 1, 0, [0],
    [⟨0, [7], ⟨0, 1, 1, [blockSeven], [], [⟨⟨0, 0, 1⟩, 0, true⟩]⟩⟩], 0, false⟩

theorem reachable_oneByteVerified :
    Reachable emptyDigest (oneByteTorrent emptyDigest) 1 [0] 0 oneByteVerified :=
  (Reachable.init.run (run_oneByteHeld _)).step (a := .recv 0 true) (by
    simp [Engine.step, Engine.receive, Engine.verify, PendingPiece.arrive, Piece.request, Piece.duplicates,
      Engine.setPiece, oneByteHeld, oneByteTorrent, blockSeven, sortByBegin, assemble, emptyDigest, oneByteVerified])

/-- The piece of `oneByteTorrent` requeued after a failed flush, with `Downloaded = Size = 1` and
nothing received; `t.Downloaded = 1` with nothing verified, and the flush logged. -/
def requeuedEngine : Engine :=
  ⟨[some 0], [⟨0, 1, 1, [], [⟨0, 0, 1⟩], []⟩], [], .scan 1 0, [], 1, 0, [],
    [⟨0, [7], ⟨0, 1, 1, [blockSeven], [], [⟨⟨0, 0, 1⟩, 0, true⟩]⟩⟩], 0, false⟩

theorem reachable_requeued (sha1 : Bytes → Bytes) :
    Reachable sha1 (oneByteTorrent sha1) 1 [0] 0 requeuedEngine :=
  (Reachable.init.run (run_oneByteHeld sha1)).step (a := .recv 0 false) (by
    simp [Engine.step, Engine.receive, Engine.verify, PendingPiece.arrive, PendingPiece.requeue,
      Piece.request, Piece.duplicates, Engine.setPiece, oneByteHeld, oneByteTorrent, blockSeven, sortByBegin,
      assemble, requeuedEngine])

/-- The failed flush leaves the piece counting a byte it does not hold, and when the scheduler
sends the request again and the byte comes back, `recvPieces` panics with "recieved more data than
expected". -/
theorem retried_piece_panics (sha1 : Bytes → Bytes) :
    (∃ s, Reachable sha1 (oneByteTorrent sha1) 1 [0] 0 s ∧
      ∃ p ∈ s.pieces, p.downloaded ≠ (p.received.map fun b => (b.block.length : Int)).sum) ∧
    ∃ s, Reachable sha1 (oneByteTorrent sha1) 1 [0] 0 s ∧ s.panicked = true :=
  ⟨⟨_, reachable_requeued sha1, _, List.mem_singleton_self _, by decide⟩,
    ⟨_, @Reachable.run _ _ _ _ _ _ _ [.schedule [], .schedule [true], .load 0 blockSeven, .recv 0 true]
      (reachable_requeued sha1) rfl, rfl⟩⟩

/-- After the failed flush `t.Downloaded` equals `BytesToDownload()` while no piece is verified and
no block is held. -/
theorem downloaded_counts_discarded_bytes (sha1 : Bytes → Bytes) :
    ∃ s, Reachable sha1 (oneByteTorrent sha1) 1 [0] 0 s ∧
      s.downloaded = (oneByteTorrent sha1).bytesToDownload ∧ s.verified = [] ∧
      ∀ p ∈ s.pieces, p.received = [] :=
  ⟨_, reachable_requeued sha1, rfl, rfl, by simp [requeuedEngine]⟩

end TinyTorrent
