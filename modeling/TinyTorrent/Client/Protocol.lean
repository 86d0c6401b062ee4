import TinyTorrent.Client.TrackerId

/-!
# The announce protocol

Whatever the tracker answers, whenever the context is cancelled and whatever each load of
`t.Downloaded` reads, `downloadTorrent` announces `started` until a tracker answers, then regular
announces, then at most one `completed` or `stopped`, each later one with the first answer's
tracker id (`announces_follow_protocol`).
-/

namespace TinyTorrent

inductive AnnounceStage where
  | starting
  /-- A tracker answered a `started` announce, with the tracker id `trackerID`. -/
  | updating (trackerID : Option Bytes)
  /-- `completed` or `stopped` was sent. -/
  | finished
  deriving DecidableEq

/-- The announce protocol, one exchange at a time: the stage after announcing `q` and getting the
answer `r`, or `none` when `q` may not be sent at this stage. -/
def AnnounceStage.next (size : Int) : AnnounceStage → RequestParams × Option TrackerResponse → Option AnnounceStage
  | .starting, (q, r) =>
    if q.event = some (ascii "started") ∧ q.uploaded = 0 ∧ q.downloaded = 0 ∧ q.left = size ∧ q.trackerID = none then
      some ((r.map fun r => updating r.trackerID).getD .starting)
    else none
  | .updating id, (q, _) =>
    if q.trackerID ≠ id then none
    else if q.event = none then some (.updating id)
    else if q.event = some (ascii "completed") ∨ q.event = some (ascii "stopped") then some .finished
    else none
  | .finished, _ => none

def AnnounceStage.accepts (size : Int) (st : AnnounceStage) : List (RequestParams × Option TrackerResponse) → Bool
  | [] => true
  | x :: xs =>
    match st.next size x with
    | some st' => st'.accepts size xs
    | none => false

theorem Announcer.step_looping {size : Int} {loads : DownloadedLoads} {c : Bool} {w w' : Announcer}
    {a : AnnounceAction} {start : TrackerResponse} {p : Int} (hw : w.phase = .looping start p)
    (h : w.step size loads c a = some w') :
    (a = .stop ∧ w'.phase = .returned true) ∨
      (∃ r, a = .announce r ∧ size - loads.test = 0 ∧ w'.phase = .returned false) ∨
      ∃ r, a = .announce r ∧ size - loads.test ≠ 0 ∧ (w'.phase = .looping start p ∨ w'.phase = .panicked) := by
  rcases w with ⟨ph, seeders⟩
  dsimp only at hw
  subst hw
  cases a with
  | stop =>
    simp only [Announcer.step] at h
    split_ifs at h
    cases h
    exact .inl ⟨rfl, rfl⟩
  | announce r =>
    simp only [Announcer.step] at h
    split_ifs at h with hd
    · cases h
      exact .inr (.inl ⟨r, rfl, hd, rfl⟩)
    · split at h <;> cases h
      · exact .inr (.inr ⟨r, rfl, hd, .inr rfl⟩)
      · exact .inr (.inr ⟨r, rfl, hd, .inl rfl⟩)

theorem Announcer.accepts_looping (id : AnnounceIdentity) (size : Int) {start : TrackerResponse} {p : Int} :
    ∀ (es : List AnnounceEvent) {w : Announcer}, w.phase = .looping start p →
      (AnnounceStage.updating start.trackerID).accepts size (w.exchanges id size es) = true
  | [], _, _ => rfl
  | e :: es, w, hw => by
    unfold Announcer.exchanges
    cases hs : w.step size e.loads e.cancelled e.action with
    | none => rfl
    | some w' =>
      dsimp only
      rcases Announcer.step_looping hw hs with ⟨ha, hd⟩ | ⟨r, ha, h0, hd⟩ | ⟨r, ha, h0, hd | hd⟩
      · rw [Announcer.exchanges_of_done (.inl ⟨_, hd⟩)]
        simp [Announcer.request, hw, ha, laterRequest, AnnounceStage.accepts, AnnounceStage.next]
      · rw [Announcer.exchanges_of_done (.inl ⟨_, hd⟩)]
        simp [Announcer.request, hw, ha, h0, laterRequest, AnnounceStage.accepts, AnnounceStage.next]
      · simp [Announcer.request, hw, ha, h0, laterRequest, AnnounceStage.accepts, AnnounceStage.next,
          Announcer.accepts_looping id size es hd]
      · rw [Announcer.exchanges_of_done (.inr hd)]
        simp [Announcer.request, hw, ha, h0, laterRequest, AnnounceStage.accepts, AnnounceStage.next]

theorem Announcer.accepts_starting (id : AnnounceIdentity) (size : Int) :
    ∀ (es : List AnnounceEvent) {w : Announcer}, w.phase = .starting →
      AnnounceStage.starting.accepts size (w.exchanges id size es) = true
  | [], _, _ => rfl
  | e :: es, w, hw => by
    unfold Announcer.exchanges
    cases hs : w.step size e.loads e.cancelled e.action with
    | none => rfl
    | some w' =>
      dsimp only
      rcases Announcer.phase_step hs with ⟨-, ha, h2⟩ | ⟨-, start, p, ha, h2⟩ | ⟨_, _, h1, -⟩ | hd | hd
      · simp [Announcer.request, hw, ha, startedRequest, AnnounceAction.answer, AnnounceStage.accepts,
          AnnounceStage.next, Announcer.accepts_starting id size es h2]
      · simp [Announcer.request, hw, ha, startedRequest, AnnounceAction.answer, AnnounceStage.accepts,
          AnnounceStage.next, Announcer.accepts_looping id size es h2]
      · rw [hw] at h1; cases h1
      all_goals
        rw [Announcer.exchanges_of_done (by tauto)]
        cases ha : e.action <;>
          simp [Announcer.request, hw, ha, startedRequest, AnnounceAction.answer, AnnounceStage.accepts,
            AnnounceStage.next]

/-- Every run of `downloadTorrent` announces `started`, with nothing uploaded or downloaded, the
whole torrent left and no tracker id, until a tracker answers; then regular announces; then at most
one `completed` or `stopped`; and after that nothing. Every announce after the first loop carries
the tracker id of the answer that ended it. -/
theorem announces_follow_protocol (id : AnnounceIdentity) (size : Int) (es : List AnnounceEvent) :
    AnnounceStage.starting.accepts size (freshAnnouncer.exchanges id size es) = true :=
  Announcer.accepts_starting id size es rfl

/-- When the last byte arrives between the completion test of a tick and the load of `Left`, that
tick sends a regular announce with nothing left, and the next one sends `completed`. -/
example : (freshAnnouncer.exchanges trackerIdIdentity 1
    [⟨.const 0, 0, false, .announce (some halfHourAnswer)⟩, ⟨⟨0, 1, 1, 1⟩, 0, false, .announce (some halfHourAnswer)⟩,
      ⟨.const 1, 0, false, .announce none⟩]).map (fun x => (x.1.event, x.1.left)) =
    [(some (ascii "started"), 1), (none, 0), (some (ascii "completed"), 0)] := by
  decide

end TinyTorrent
