import TinyTorrent.Client.Announce
import TinyTorrent.Tracker.Request

/-!
# The tracker id of the announces

The announces `downloadTorrent` sends and the answers it gets. Every announce after the first loop
is built with `TrackerID: start.TrackerID`, the tracker id of the answer that ended that loop, so a
tracker id that a later answer brings is never sent back (`later_announce_drops_trackerID`).
-/

namespace TinyTorrent

/-- What `downloadTorrent` puts into every announce besides the counters: the info-hash, `c.id`
and `c.port`. -/
structure AnnounceIdentity where
  infoHash : Bytes
  peerID : Bytes
  port : Int

def startedRequest (id : AnnounceIdentity) (size : Int) : RequestParams :=
  ⟨id.infoHash, id.peerID, id.port, 0, 0, size, some 1, none, some (ascii "started"), none, some 10, none, none⟩

/-- The parameters of a later announce: `Downloaded` and `Left` from their own loads of
`t.Downloaded`, `event` `completed`, `stopped` or none, and the tracker id `start.TrackerID`. -/
def laterRequest (id : AnnounceIdentity) (size uploaded : Int) (loads : DownloadedLoads) (event : Option Bytes)
    (start : TrackerResponse) : RequestParams :=
  ⟨id.infoHash, id.peerID, id.port, uploaded, loads.downloaded, size - loads.left, some 1, none, event, none, none,
    none, start.trackerID⟩

/-- What a step of `downloadTorrent` sees: its loads of `t.Downloaded`, `t.Uploaded`, whether its
context is cancelled, and what happens. -/
structure AnnounceEvent where
  loads : DownloadedLoads
  uploaded : Int
  cancelled : Bool
  action : AnnounceAction

/-- The announce a step of `downloadTorrent` sends, if any: `started` in the first loop; on a tick
a regular announce, or `completed` when the tick's test finds nothing left; `stopped` when the
context is done. -/
def Announcer.request (id : AnnounceIdentity) (size : Int) (w : Announcer) (e : AnnounceEvent) :
    Option RequestParams :=
  match w.phase, e.action with
  | .starting, .announce _ => some (startedRequest id size)
  | .looping start _, .announce _ =>
    some (laterRequest id size e.uploaded e.loads
      (if size - e.loads.test = 0 then some (ascii "completed") else none) start)
  | .looping start _, .stop => some (laterRequest id size e.uploaded e.loads (some (ascii "stopped")) start)
  | _, _ => none

def AnnounceAction.answer : AnnounceAction → Option TrackerResponse
  | .announce resp => resp
  | .stop => none

/-- The announces of a run of `downloadTorrent`, each with its answer, until a step is not
enabled. -/
def Announcer.exchanges (id : AnnounceIdentity) (size : Int) (w : Announcer) :
    List AnnounceEvent → List (RequestParams × Option TrackerResponse)
  | [] => []
  | e :: es =>
    match w.step size e.loads e.cancelled e.action with
    | none => []
    | some w' => ((w.request id size e).map fun q => (q, e.action.answer)).toList ++ w'.exchanges id size es

/-- Every announce carries the tracker id of the most recent answer that held one, none while no
answer held one. -/
def carriesLatestID : Option Bytes → List (RequestParams × Option TrackerResponse) → Bool
  | _, [] => true
  | latest, (q, r) :: es => q.trackerID == latest && carriesLatestID ((r.bind (·.trackerID)).or latest) es

theorem Announcer.phase_step {size : Int} {loads : DownloadedLoads} {c : Bool} {w w' : Announcer}
    {a : AnnounceAction} (h : w.step size loads c a = some w') :
    (w.phase = .starting ∧ a = .announce none ∧ w'.phase = .starting) ∨
      (w.phase = .starting ∧ ∃ start p, a = .announce (some start) ∧ w'.phase = .looping start p) ∨
      (∃ start p, w.phase = .looping start p ∧ w'.phase = .looping start p) ∨
      (∃ b, w'.phase = .returned b) ∨ w'.phase = .panicked := by
  rcases w with ⟨ph, seeders⟩
  cases a with
  | stop =>
    cases ph <;> simp only [Announcer.step] at h <;> (try split_ifs at h) <;> cases h <;> simp
  | announce resp =>
    cases ph with
    | starting =>
      simp only [Announcer.step] at h
      split_ifs at h
      rcases resp with _ | start
      · cases h; simp
      · simp only at h
        split at h
        · cases h; simp
        · split_ifs at h <;> cases h <;> simp
    | looping start p =>
      simp only [Announcer.step] at h
      split_ifs at h
      · cases h; simp
      · split at h <;> cases h <;> simp
    | _ => cases h

theorem Announcer.exchanges_of_done {id : AnnounceIdentity} {size : Int} {w : Announcer}
    (h : (∃ b, w.phase = .returned b) ∨ w.phase = .panicked) (es : List AnnounceEvent) :
    w.exchanges id size es = [] := by
  cases es with
  | nil => rfl
  | cons e es =>
    unfold Announcer.exchanges
    cases hs : w.step size e.loads e.cancelled e.action with
    | none => rfl
    | some w' =>
      rcases Announcer.phase_of_step hs with hp | ⟨_, _, hp⟩ <;> rcases h with ⟨b, hb⟩ | hb <;>
        rw [hb] at hp <;> cases hp

def trackerIdIdentity : AnnounceIdentity := ⟨[1], ascii "b", 6881⟩

/-- A run in which the tracker hands out its id only in its first regular answer: the `started`
announce is answered without one, the next announce with `t`, the one after that again without,
and then the context is cancelled. -/
def trackerIdRun : List AnnounceEvent :=
  [⟨.const 0, 0, false, .announce (some halfHourAnswer)⟩,
    ⟨.const 0, 0, false, .announce (some { interval := some 1800, trackerID := some (ascii "t") })⟩,
    ⟨.const 0, 0, false, .announce (some halfHourAnswer)⟩, ⟨.const 0, 0, true, .stop⟩]

/-- The tracker id `t` of the second answer is never sent back: the regular announce after it and
the `stopped` announce carry none, as they carry `start.TrackerID`. -/
theorem later_announce_drops_trackerID :
    (freshAnnouncer.exchanges trackerIdIdentity 1 trackerIdRun).map
        (fun x => (x.1.event, x.1.trackerID, x.2.bind (·.trackerID))) =
      [(some (ascii "started"), none, none), (none, none, some (ascii "t")), (none, none, none),
        (some (ascii "stopped"), none, none)] ∧
      carriesLatestID none (freshAnnouncer.exchanges trackerIdIdentity 1 trackerIdRun) = false := by
  decide

end TinyTorrent
