import TinyTorrent.Download.Sizing
import Mathlib.Data.List.Perm.Basic

/-!
# A piece in progress

`pendingPiece` and what `downloadScheduler` and `recvPieces` do to it while they hold its lock:
rescheduling timed-out requests, dispatching pending ones to peers, storing an arrived block, and
requeueing every request after a failed hash check or a failed flush.
-/

namespace TinyTorrent

/-- `15*time.Second`, in nanoseconds of the monotonic clock. -/
def requestTimeout : Nat := 15 * 10^9

/-- `timedDownloadRequest`: a request sent at time `send`, and whether its block came. -/
structure TimedRequest where
  request : Request
  send : Nat
  received : Bool
  deriving DecidableEq

/-- `pendingPiece`. Its lock `l` is modelled by the atomicity of the steps that change it. -/
structure PendingPiece where
  index : UInt32
  downloaded : Int
  size : Int
  received : List Piece
  pending : List Request
  inFlight : List TimedRequest
  deriving DecidableEq, Inhabited

def PendingPiece.requests (p : PendingPiece) : List Request :=
  p.pending ++ p.inFlight.map (·.request)

/-- `!req.received && time.Since(req.send) > 15*time.Second`. -/
def TimedRequest.expired (now : Nat) (r : TimedRequest) : Bool :=
  !r.received && decide (requestTimeout < now - r.send)

/-- The rescheduling loop of `downloadScheduler`: expired requests go back to `Pending`. -/
def PendingPiece.reschedule (now : Nat) (p : PendingPiece) : PendingPiece :=
  { p with pending := p.pending ++ (p.inFlight.filter (·.expired now)).map (·.request)
           inFlight := p.inFlight.filter fun r => !r.expired now }

/-- The dispatch loop over `Pending`: request `k` is sent when `sent[k]` holds, that is when an
established, unchoked peer with the piece was found and `SendRequest` succeeded. -/
def dispatchRequests (now : Nat) : List Request → List Bool → List Request × List TimedRequest
  | [], _ => ([], [])
  | r :: rs, [] => (r :: rs, [])
  | r :: rs, b :: bs =>
    if b then ((dispatchRequests now rs bs).1, ⟨r, now, false⟩ :: (dispatchRequests now rs bs).2)
    else (r :: (dispatchRequests now rs bs).1, (dispatchRequests now rs bs).2)

def PendingPiece.dispatch (now : Nat) (sent : List Bool) (p : PendingPiece) : PendingPiece :=
  { p with pending := (dispatchRequests now p.pending sent).1
           inFlight := p.inFlight ++ (dispatchRequests now p.pending sent).2 }

/-- The duplicate test of `recvPieces`: same `Begin`, `Index` and block length. -/
def Piece.duplicates (m o : Piece) : Bool :=
  decide (o.begin = m.begin ∧ o.index = m.index ∧ o.block.length = m.block.length)

inductive Arrival where
  /-- No in-flight request matches: discarded. -/
  | untracked
  /-- An equal block was already received: discarded. -/
  | duplicate
  /-- `Downloaded > Size`: the first panic of `recvPieces`. -/
  | overflow
  /-- The block is stored and its request marked received. -/
  | stored (p : PendingPiece)

/-- `recvPieces` from `piece.l.Lock()` to the completeness test. -/
def PendingPiece.arrive (p : PendingPiece) (m : Piece) : Arrival :=
  match p.inFlight.findIdx? (fun r => decide (r.request = m.request)) with
  | none => .untracked
  | some k =>
    if p.received.any m.duplicates then .duplicate
    else if p.size < p.downloaded + m.block.length then .overflow
    else .stored { p with downloaded := p.downloaded + m.block.length, received := p.received ++ [m]
                          inFlight := p.inFlight.modify (fun r => { r with received := true }) k }

/-- The retry after a hash mismatch or a failed flush: `none` is the second panic of `recvPieces`
(`Pending` not empty); otherwise every in-flight request goes back to `Pending`. `Downloaded` is
left as it is. -/
def PendingPiece.requeue (p : PendingPiece) : Option PendingPiece :=
  if p.pending = [] then some { p with pending := p.inFlight.map (·.request), inFlight := [], received := [] }
  else none

/-- `slices.SortFunc(piece.Received, cmp.Compare(a.Begin, b.Begin))`, as a stable sort: Go's
unstable sort agrees with it whenever the `Begin`s differ, and returns a sorted slice unchanged. -/
def sortByBegin (rs : List Piece) : List Piece := rs.mergeSort fun a b => decide (a.begin ≤ b.begin)

/-- `data`: the received blocks, concatenated. -/
def assemble (rs : List Piece) : Bytes := rs.flatMap (·.block)

@[simp] theorem PendingPiece.reschedule_index (now : Nat) (p : PendingPiece) :
    (p.reschedule now).index = p.index := rfl
@[simp] theorem PendingPiece.reschedule_downloaded (now : Nat) (p : PendingPiece) :
    (p.reschedule now).downloaded = p.downloaded := rfl
@[simp] theorem PendingPiece.reschedule_size (now : Nat) (p : PendingPiece) :
    (p.reschedule now).size = p.size := rfl
@[simp] theorem PendingPiece.reschedule_received (now : Nat) (p : PendingPiece) :
    (p.reschedule now).received = p.received := rfl
@[simp] theorem PendingPiece.dispatch_index (now : Nat) (sent : List Bool) (p : PendingPiece) :
    (p.dispatch now sent).index = p.index := rfl
@[simp] theorem PendingPiece.dispatch_downloaded (now : Nat) (sent : List Bool) (p : PendingPiece) :
    (p.dispatch now sent).downloaded = p.downloaded := rfl
@[simp] theorem PendingPiece.dispatch_size (now : Nat) (sent : List Bool) (p : PendingPiece) :
    (p.dispatch now sent).size = p.size := rfl
@[simp] theorem PendingPiece.dispatch_received (now : Nat) (sent : List Bool) (p : PendingPiece) :
    (p.dispatch now sent).received = p.received := rfl

theorem PendingPiece.requests_reschedule (now : Nat) (p : PendingPiece) :
    (p.reschedule now).requests.Perm p.requests := by
  simp only [requests, reschedule, List.append_assoc]
  refine List.Perm.append_left _ ?_
  rw [← List.map_append]
  exact (List.filter_append_perm _ _).map _ |>.trans (by rfl)

theorem dispatchRequests_perm (now : Nat) :
    ∀ (rs : List Request) (sent : List Bool),
      ((dispatchRequests now rs sent).1 ++ (dispatchRequests now rs sent).2.map (·.request)).Perm rs
  | [], _ => by simp [dispatchRequests]
  | r :: rs, [] => by simp [dispatchRequests]
  | r :: rs, b :: bs => by
    have ih := dispatchRequests_perm now rs bs
    cases b
    · simpa [dispatchRequests] using ih
    · simpa [dispatchRequests] using List.perm_middle.trans (ih.cons r)

theorem dispatchRequests_all (now : Nat) : ∀ (rs : List Request) (n : Nat), rs.length ≤ n →
    dispatchRequests now rs (List.replicate n true) = ([], rs.map fun r => ⟨r, now, false⟩)
  | [], n, _ => by cases n <;> rfl
  | r :: rs, n + 1, h => by
    simp only [List.replicate_succ, dispatchRequests, if_true,
      dispatchRequests_all now rs n (by simpa using h), List.map_cons]
  | _ :: _, 0, h => absurd h (by simp)

theorem PendingPiece.requests_dispatch (now : Nat) (sent : List Bool) (p : PendingPiece) :
    (p.dispatch now sent).requests.Perm p.requests := by
  simp only [requests, dispatch, List.map_append]
  calc List.Perm _ ((dispatchRequests now p.pending sent).1 ++
          (dispatchRequests now p.pending sent).2.map (·.request) ++ p.inFlight.map (·.request)) := by
        rw [List.append_assoc]
        exact List.Perm.append_left _ List.perm_append_comm
    List.Perm _ _ := (dispatchRequests_perm now p.pending sent).append_right _

theorem map_request_modify (rs : List TimedRequest) (k : Nat) :
    (rs.modify (fun r => { r with received := true }) k).map (·.request) = rs.map (·.request) := by
  induction rs generalizing k with
  | nil => cases k <;> rfl
  | cons r rs ih => cases k <;> simp [ih]

theorem PendingPiece.arrive_eq_stored {p q : PendingPiece} {m : Piece} (h : p.arrive m = .stored q) :
    ∃ k, p.inFlight.findIdx? (fun r => decide (r.request = m.request)) = some k ∧
      p.received.any m.duplicates = false ∧ p.downloaded + m.block.length ≤ p.size ∧
      q = { p with downloaded := p.downloaded + m.block.length, received := p.received ++ [m]
                   inFlight := p.inFlight.modify (fun r => { r with received := true }) k } := by
  unfold arrive at h
  split at h
  · cases h
  · rename_i k hk
    split_ifs at h with hd ho
    cases h
    exact ⟨k, hk, by simpa using hd, by omega, rfl⟩

theorem PendingPiece.arrive_of_findIdx {p : PendingPiece} {m : Piece} {k : Nat}
    (hk : p.inFlight.findIdx? (fun r => decide (r.request = m.request)) = some k)
    (hd : p.received.any m.duplicates = false) (hle : p.downloaded + m.block.length ≤ p.size) :
    p.arrive m = .stored { p with downloaded := p.downloaded + m.block.length, received := p.received ++ [m]
                                  inFlight := p.inFlight.modify (fun r => { r with received := true }) k } := by
  simp only [arrive, hk, hd, Bool.false_eq_true, if_false, if_neg (not_lt.mpr hle)]

theorem PendingPiece.stored_spec {p q : PendingPiece} {m : Piece} (h : p.arrive m = .stored q) :
    q.index = p.index ∧ q.size = p.size ∧ q.downloaded = p.downloaded + m.block.length ∧
      q.requests = p.requests ∧ m.request ∈ p.requests ∧ q.downloaded ≤ q.size := by
  obtain ⟨k, hk, -, hle, rfl⟩ := arrive_eq_stored h
  obtain ⟨hkl, hkm, -⟩ := List.findIdx?_eq_some_iff_getElem.mp hk
  refine ⟨rfl, rfl, rfl, by simp [requests, map_request_modify], ?_, hle⟩
  exact List.mem_append_right _ (List.mem_map.mpr ⟨_, List.getElem_mem hkl, by simpa using hkm⟩)

theorem PendingPiece.requeue_spec {p q : PendingPiece} (h : p.requeue = some q) :
    q.index = p.index ∧ q.size = p.size ∧ q.downloaded = p.downloaded ∧ q.requests = p.requests ∧
      q.received = [] ∧ q.inFlight = [] := by
  unfold requeue at h
  split_ifs at h with hp
  cases h
  simp [requests, hp]

end TinyTorrent
