import TinyTorrent.Tracker.Response

/-!
# The announce loop

`Client.downloadTorrent` for one torrent: the loop that announces `started`, the ticker built from
the first answer's interval, and the regular announces, each followed by `t.UpdatePeers`. The
tracker's answers, the context and the download's progress are the environment.
-/

namespace TinyTorrent

/-- `net.JoinHostPort(host, port)`: a host with a colon goes in brackets. -/
def joinHostPort (host port : Bytes) : Bytes :=
  if 58 ∈ host then ascii "[" ++ host ++ ascii "]:" ++ port else host ++ ascii ":" ++ port

/-- The loop of `UpdateSeeders` over the peers of a response: a peer whose address is already in
`t.peers.seeders` is skipped, a new one is stored. -/
def addSeeders (seeders : List Bytes) : List PeerInfo → List Bytes
  | [] => seeders
  | r :: rs =>
    let addr := joinHostPort r.ip (formatInt r.port)
    addSeeders (if addr ∈ seeders then seeders else seeders ++ [addr]) rs

/-- `Tracker.UpdateSeeders(resp)` on a torrent of `size` bytes: nothing once the download is
complete; otherwise the peers of `resp`, where a nil `resp` (`none`) is the nil-pointer panic
(`none` here). -/
def updateSeeders (size downloaded : Int) (seeders : List Bytes) (resp : Option TrackerResponse) :
    Option (List Bytes) :=
  if downloaded = size then some seeders
  else resp.map fun r => addSeeders seeders r.peers

/-- `time.Duration(*start.Interval) * time.Second`: an `int64` product, in nanoseconds. -/
def tickerPeriod (interval : Int) : Int := wrap64 (interval * 10^9)

inductive Phase where
  /-- In the loop that announces `started`. -/
  | starting
  /-- In the update loop, with the first answer and the ticker's period. -/
  | looping (start : TrackerResponse) (period : Int)
  /-- Returned; `done` says whether it called `c.wg.Done()` on the way out. -/
  | returned (done : Bool)
  | panicked
  deriving DecidableEq

structure Announcer where
  phase : Phase
  /-- The addresses in `t.peers.seeders`. -/
  seeders : List Bytes
  deriving DecidableEq

inductive AnnounceAction where
  /-- The next announce (in the `started` loop, or on a tick) gets `resp`; `none` is an error of
  `tracker.CreateRequest`. -/
  | announce (resp : Option TrackerResponse)
  /-- The `select` takes `ctx.Done()`. -/
  | stop

/-- What the calls `t.Downloaded.Load()` of one step of `downloadTorrent` read, in the order of the
source: the completion test of a tick, the `Downloaded` and the `Left` of an announce, and the load
in `UpdateSeeders`. Each call reads the counter anew, and `recvPieces` adds to it in between. -/
structure DownloadedLoads where
  test : Int
  downloaded : Int
  left : Int
  seeders : Int
  deriving DecidableEq

def DownloadedLoads.const (d : Int) : DownloadedLoads := ⟨d, d, d, d⟩

/-- One step of `downloadTorrent` for a torrent of `size` bytes whose loads of `t.Downloaded` read
`loads`; `cancelled` says whether its context is done. A `select` with `ctx.Done()` ready and a
`default` takes `ctx.Done()`; the update loop's `select` may take either of its ready cases. -/
def Announcer.step (size : Int) (loads : DownloadedLoads) (cancelled : Bool) (w : Announcer) :
    AnnounceAction → Option Announcer
  | .stop =>
    match w.phase with
    | .starting | .looping _ _ => if cancelled then some { w with phase := .returned true } else none
    | _ => none
  | .announce resp =>
    match w.phase with
    | .starting =>
      if cancelled then none
      else
        match resp with
        | none => some w
        | some start =>
          match start.interval with
          | none => some { w with phase := .returned true }
          | some i =>
            let seeders := (updateSeeders size loads.seeders w.seeders (some start)).getD w.seeders
            if tickerPeriod i ≤ 0 then some { w with seeders := seeders, phase := .panicked }
            else some { w with seeders := seeders, phase := .looping start (tickerPeriod i) }
    | .looping _ _ =>
      if size - loads.test = 0 then some { w with phase := .returned false }
      else
        match updateSeeders size loads.seeders w.seeders resp with
        | none => some { w with phase := .panicked }
        | some seeders => some { w with seeders := seeders }
    | _ => none

def Announcer.run (size downloaded : Int) (cancelled : Bool) (w : Announcer) :
    List AnnounceAction → Option Announcer
  | [] => some w
  | a :: as => (w.step size (.const downloaded) cancelled a).bind (·.run size downloaded cancelled as)

theorem Announcer.phase_of_step {size : Int} {loads : DownloadedLoads} {cancelled : Bool} {w w' : Announcer}
    {a : AnnounceAction} (h : w.step size loads cancelled a = some w') :
    w.phase = .starting ∨ ∃ start period, w.phase = .looping start period := by
  rcases w with ⟨_ | ⟨start, period⟩ | _ | _, seeders⟩
  · exact .inl rfl
  · exact .inr ⟨start, period, rfl⟩
  all_goals cases a <;> cases h

def freshAnnouncer : Announcer := ⟨.starting, []⟩

def halfHourAnswer : TrackerResponse := { interval := some 1800 }

/-- The announce loop crashes on what a tracker may send: a failed regular announce before the
download is complete reaches `UpdateSeeders` with a nil response and panics; an interval of 0
panics in `time.NewTicker`; and an interval of 18446744074 seconds overflows `time.Duration` into
a period of 0.29 seconds. -/
theorem announce_loop_crashes :
    (freshAnnouncer.run 1 0 false [.announce (some halfHourAnswer), .announce none]).map (·.phase) =
      some .panicked ∧
    (freshAnnouncer.run 1 0 false [.announce (some { interval := some 0 })]).map (·.phase) = some .panicked ∧
    (freshAnnouncer.run 1 0 false [.announce (some { interval := some 18446744074 })]).map (·.phase) =
      some (.looping { interval := some 18446744074 } 290448384) := by
  decide

end TinyTorrent
