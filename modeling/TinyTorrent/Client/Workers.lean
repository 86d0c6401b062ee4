import TinyTorrent.Client.Announce
import Mathlib.Algebra.BigOperators.Group.List

/-!
# The client's goroutines

`Client` and the goroutines it counts on `p.wg`: `watch`, the `downloadTorrent` it starts per
`WorkOn`, and the watchers of `WaitFor`. The counter always counts `watch` itself, so the `Wait` in
`watch` never returns, and a `downloadTorrent` that returns on the completed path never calls `Done`.
-/

namespace TinyTorrent

inductive WatchPhase where
  | running
  /-- In `p.wg.Wait()`, after `done` was closed and the context cancelled. -/
  | waiting
  | returned
  deriving DecidableEq

inductive Worker where
  /-- The watcher of `WaitFor(id)`, while `live`. -/
  | waitFor (id : Bytes) (live : Bool)
  /-- The `downloadTorrent` of the torrent `infoHash`. -/
  | download (infoHash : Bytes) (w : Announcer)
  deriving DecidableEq

/-- A torrent of `p.torrentsDownloading`: `BytesToDownload()` and `t.Downloaded`. -/
structure TrackedTorrent where
  size : Int
  downloaded : Int
  deriving DecidableEq

structure Client where
  wg : Nat
  done : Bool
  /-- The context `watch` hands to the downloads is cancelled. -/
  cancelled : Bool
  watch : WatchPhase
  torrents : List (Bytes × TrackedTorrent)
  workers : List Worker
  crashed : Bool
  deriving DecidableEq

inductive ClientAction where
  /-- `WorkOn` of a torrent of `size` bytes, `downloaded` of them present. -/
  | workOn (infoHash : Bytes) (size downloaded : Int)
  | waitFor (id : Bytes)
  | close
  /-- `watch`'s `select` takes `done`: it cancels the context and enters `p.wg.Wait()`. -/
  | watchStops
  /-- `p.wg.Wait()` returns in `watch`. -/
  | watchReturns
  /-- One turn of the loop of the watcher `workers[k]`. -/
  | poll (k : Nat)
  /-- A step of the `downloadTorrent` `workers[k]`. -/
  | download (k : Nat) (a : AnnounceAction)
  /-- The download of a torrent moves its `t.Downloaded` to `d`. -/
  | progress (infoHash : Bytes) (d : Int)

/-- The client `New` returns: `watch` running and counted. -/
def Client.new : Client := ⟨1, false, false, .running, [], [], false⟩

/-- One step of a client; `none` when it is not enabled. A `WorkOn` of a tracked torrent returns an
error; one that finds `watch` gone stores the tracker and blocks on `p.handler` for good. -/
def Client.step (c : Client) (a : ClientAction) : Option Client :=
  if c.crashed then none
  else match a with
  | .workOn h size d =>
    if (c.torrents.lookup h).isSome then some c
    else if c.watch = .running then
      some { c with torrents := c.torrents ++ [(h, ⟨size, d⟩)], wg := c.wg + 1
                    workers := c.workers ++ [.download h ⟨.starting, []⟩] }
    else some { c with torrents := c.torrents ++ [(h, ⟨size, d⟩)] }
  | .waitFor id => some { c with wg := c.wg + 1, workers := c.workers ++ [.waitFor id true] }
  | .close => if c.done then some { c with crashed := true } else some { c with done := true }
  | .watchStops => if c.done ∧ c.watch = .running then some { c with cancelled := true, watch := .waiting } else none
  | .watchReturns =>
    -- the deferred `p.wg.Done()` takes the counter below zero
    if c.watch = .waiting ∧ c.wg = 0 then some { c with watch := .returned, crashed := true } else none
  | .poll k =>
    match c.workers[k]? with
    | some (.waitFor id true) =>
      if c.done ∨ (c.torrents.lookup id).all (fun t => t.size = t.downloaded) then
        some { c with workers := c.workers.set k (.waitFor id false), wg := c.wg - 1 }
      else some c
    | _ => none
  | .download k act =>
    match c.workers[k]? with
    | some (.download h w) =>
      match c.torrents.lookup h with
      | some t =>
        match w.step t.size (.const t.downloaded) c.cancelled act with
        | some w' =>
          some { c with workers := c.workers.set k (.download h w')
                        wg := if w'.phase = .returned true then c.wg - 1 else c.wg
                        crashed := w'.phase = .panicked }
        | none => none
      | none => none
    | _ => none
  | .progress h d =>
    some { c with torrents := c.torrents.map fun e => if e.1 = h then (e.1, { e.2 with downloaded := d }) else e }

inductive ClientReachable : Client → Prop where
  | new : ClientReachable Client.new
  | step {c c' : Client} {a : ClientAction} : ClientReachable c → c.step a = some c' → ClientReachable c'

def Client.run (c : Client) : List ClientAction → Option Client
  | [] => some c
  | a :: as => (c.step a).bind (·.run as)

theorem ClientReachable.run : ∀ {c c' : Client} {as : List ClientAction}, ClientReachable c →
    c.run as = some c' → ClientReachable c'
  | _, _, [], hc, h => by cases h; exact hc
  | c, _, a :: as, hc, h => by
    cases ha : c.step a with
    | none => simp [Client.run, ha] at h
    | some c₁ => exact ClientReachable.run (hc.step ha) (by simpa [Client.run, ha] using h)

/-- What a worker adds to `p.wg` and has not taken off: one while it is live, and one for good if
it returned without `Done`. -/
def Worker.registered : Worker → Nat
  | .waitFor _ live => if live then 1 else 0
  | .download _ w => if w.phase = .returned true then 0 else 1

def Worker.live : Worker → Bool
  | .waitFor _ live => live
  | .download _ w => match w.phase with
    | .starting | .looping _ _ => true
    | _ => false

def Client.watchCount (c : Client) : Nat := if c.watch = .returned then 0 else 1

def Client.liveCount (c : Client) : Nat := c.watchCount + c.workers.countP Worker.live

theorem sum_map_set {α : Type} (f : α → Nat) :
    ∀ (l : List α) (k : Nat) (x y : α), l[k]? = some y → ((l.set k x).map f).sum + f y = (l.map f).sum + f x
  | [], _, _, _, h => by cases h
  | a :: l, 0, x, y, h => by
    simp only [List.getElem?_cons_zero, Option.some.injEq] at h
    subst h
    simp only [List.set_cons_zero, List.map_cons, List.sum_cons]
    omega
  | a :: l, k + 1, x, y, h => by
    have := sum_map_set f l k x y (by simpa using h)
    simp only [List.set_cons_succ, List.map_cons, List.sum_cons]
    omega

/-- The counter of `p.wg` in every state: `watch`, which is never gone, and every worker that has
not called `Done`. -/
structure WgInv (c : Client) : Prop where
  wg_eq : c.wg = c.watchCount + (c.workers.map Worker.registered).sum
  watch_ne : c.watch ≠ .returned

theorem wgInv_new : WgInv Client.new := ⟨rfl, by decide⟩

section
variable {c c' : Client}

theorem WgInv.frame (hi : WgInv c) (h : c'.wg = c.wg) (hw : c'.workers = c.workers)
    (hwa : c'.watch = .running ∨ c'.watch = c.watch ∨ c'.watch = .waiting) : WgInv c' := by
  have hne : c'.watch ≠ .returned := by rcases hwa with h' | h' | h' <;> rw [h'] <;> first | decide | exact hi.watch_ne
  refine ⟨?_, hne⟩
  rw [h, hw, hi.wg_eq, Client.watchCount, Client.watchCount, if_neg hi.watch_ne, if_neg hne]

theorem WgInv.set_worker (hi : WgInv c) {k : Nat} {x y : Worker} (hk : c.workers[k]? = some y)
    (hy : y.registered = 1) (h : c'.workers = c.workers.set k x) (hw : c'.watch = c.watch)
    (hwg : c'.wg = c.wg + x.registered - 1) : WgInv c' := by
  have hs := sum_map_set Worker.registered _ k x y hk
  have hx : x.registered ≤ 1 := by cases x <;> simp only [Worker.registered] <;> split <;> omega
  refine ⟨?_, hw ▸ hi.watch_ne⟩
  rw [hwg, h, Client.watchCount, hw, ← Client.watchCount, hi.wg_eq]
  omega

theorem WgInv.push_worker (hi : WgInv c) {x : Worker} (h : c'.workers = c.workers ++ [x])
    (hw : c'.watch = c.watch) (hwg : c'.wg = c.wg + 1) (hx : x.registered = 1) : WgInv c' := by
  refine ⟨?_, hw ▸ hi.watch_ne⟩
  rw [hwg, h, Client.watchCount, hw, ← Client.watchCount, hi.wg_eq, List.map_append, List.sum_append,
    List.map_singleton, List.sum_singleton, hx]
  omega

theorem WgInv.step (hi : WgInv c) {a : ClientAction} (h : c.step a = some c') : WgInv c' := by
  unfold Client.step at h
  split at h
  · cases h
  cases a <;> dsimp only at h
  case workOn hash size d =>
    split_ifs at h <;> cases h
    · exact hi
    · exact hi.push_worker rfl rfl rfl rfl
    · exact hi.frame rfl rfl (.inr (.inl rfl))
  case waitFor id => cases h; exact hi.push_worker rfl rfl rfl rfl
  case close => split_ifs at h <;> cases h <;> exact hi.frame rfl rfl (.inr (.inl rfl))
  case watchStops => split_ifs at h; cases h; exact hi.frame rfl rfl (.inr (.inr rfl))
  case watchReturns =>
    split_ifs at h with hw
    cases h
    have := hi.wg_eq
    simp only [Client.watchCount, if_neg hi.watch_ne] at this
    omega
  case poll k =>
    split at h
    · rename_i id hk
      split_ifs at h <;> cases h
      · exact hi.set_worker hk rfl rfl rfl (by simp [Worker.registered])
      · exact hi
    · cases h
  case download k act =>
    split at h
    · rename_i hash w hk
      split at h
      · split at h
        · rename_i w' hw'
          cases h
          have hy : (Worker.download hash w).registered = 1 := by
            rcases Announcer.phase_of_step hw' with hp | ⟨_, _, hp⟩ <;> simp [Worker.registered, hp]
          refine hi.set_worker hk hy rfl rfl ?_
          simp only [Worker.registered]
          split_ifs <;> omega
        · cases h
      · cases h
    · cases h
  case progress hash d => cases h; exact hi.frame rfl rfl (.inr (.inl rfl))

end

theorem ClientReachable.wgInv {c : Client} (hc : ClientReachable c) : WgInv c := by
  induction hc with
  | new => exact wgInv_new
  | step _ h ih => exact ih.step h

theorem ClientReachable.watch_ne_returned {c : Client} (hc : ClientReachable c) : c.watch ≠ .returned :=
  hc.wgInv.watch_ne

/-- `WorkOn` of a one-byte torrent; its `downloadTorrent` gets a half-hour interval, the byte
arrives, and on the next tick the goroutine returns on the completed path. -/
def completedRun : List ClientAction :=
  [.workOn [1] 1 0, .download 0 (.announce (some halfHourAnswer)), .progress [1] 1, .download 0 (.announce none)]

/-- `p.wg` does not count the live goroutines: after `completedRun` it holds 2 while only `watch`
runs; after `Close`, `watch` waits on a counter of 1 with no worker left, its own; and so `watch`
never returns from `Wait`. -/
theorem waitGroup_miscounts :
    (∃ c, ClientReachable c ∧ c.wg = 2 ∧ c.liveCount = 1) ∧
    (∃ c, ClientReachable c ∧ c.watch = .waiting ∧ c.workers = [] ∧ c.wg = 1) ∧
    ∀ c, ClientReachable c → c.watch ≠ .returned :=
  ⟨⟨_, @ClientReachable.run _ _ completedRun .new rfl, rfl, rfl⟩,
    ⟨_, @ClientReachable.run _ _ [.close, .watchStops] .new rfl, rfl, rfl, rfl⟩,
    fun _ hc => hc.watch_ne_returned⟩

end TinyTorrent
