import TinyTorrent.Client.Workers

/-!
# Concurrent `WorkOn` calls

Made atomic, `WorkOn` starts at most one `downloadTorrent` per torrent
(`ClientReachable.downloads_nodup`). With its `Load` and `Store` interleaved, `watch` still starts
one per call that returned without error, and two calls for one torrent can both return so
(`workOn_race`).
-/

namespace TinyTorrent

inductive CallPhase where
  /-- About to run `torrentsDownloading.Load(h)`. -/
  | loading
  /-- The `Load` missed: about to run `torrentsDownloading.Store`. -/
  | storing
  /-- Blocked in `p.handler <- h`. -/
  | sending
  /-- Returned; `ok` says whether without error. -/
  | returned (ok : Bool)
  deriving DecidableEq

structure WorkOnCall where
  infoHash : Bytes
  torrent : TrackedTorrent
  phase : CallPhase
  deriving DecidableEq

structure Session where
  client : Client
  calls : List WorkOnCall
  deriving DecidableEq

/-- What happens next in a session. -/
inductive SessionAction where
  /-- A goroutine calls `WorkOn` for a torrent of `size` bytes, `downloaded` of them present. -/
  | call (infoHash : Bytes) (size downloaded : Int)
  | load (k : Nat)
  | store (k : Nat)
  /-- `watch` receives the hash of call `k`: it loads the tracker, adds one to `p.wg` and starts
  `downloadTorrent`; call `k` returns. -/
  | handoff (k : Nat)
  | other (a : ClientAction)

/-- `torrentsDownloading.Store(h, t)`: the value of `h` is replaced, or `h` is added. -/
def storeTorrent (ts : List (Bytes × TrackedTorrent)) (h : Bytes) (t : TrackedTorrent) :
    List (Bytes × TrackedTorrent) :=
  if (ts.lookup h).isSome then ts.map fun e => if e.1 = h then (h, t) else e else ts ++ [(h, t)]

def Session.setPhase (s : Session) (k : Nat) (c : WorkOnCall) (ph : CallPhase) : Session :=
  { s with calls := s.calls.set k { c with phase := ph } }

/-- One step of a session; `none` when it is not enabled. A panic ends every goroutine. -/
def Session.step (s : Session) : SessionAction → Option Session
  | .call h size d =>
    if s.client.crashed then none else some { s with calls := s.calls ++ [⟨h, ⟨size, d⟩, .loading⟩] }
  | .load k =>
    match s.calls[k]? with
    | some c =>
      if s.client.crashed ∨ c.phase ≠ .loading then none
      else if (s.client.torrents.lookup c.infoHash).isSome then some (s.setPhase k c (.returned false))
      else some (s.setPhase k c .storing)
    | none => none
  | .store k =>
    match s.calls[k]? with
    | some c =>
      if s.client.crashed ∨ c.phase ≠ .storing then none
      else some { s.setPhase k c .sending with
        client := { s.client with torrents := storeTorrent s.client.torrents c.infoHash c.torrent } }
    | none => none
  | .handoff k =>
    match s.calls[k]? with
    | some c =>
      if s.client.crashed ∨ c.phase ≠ .sending ∨ s.client.watch ≠ .running then none
      else some { s.setPhase k c (.returned true) with
        client := { s.client with wg := s.client.wg + 1
                                  workers := s.client.workers ++ [.download c.infoHash ⟨.starting, []⟩] } }
    | none => none
  | .other a =>
    match a with
    | .workOn .. => none
    | _ => (s.client.step a).map fun c => { s with client := c }

def Session.run (s : Session) : List SessionAction → Option Session
  | [] => some s
  | a :: as => (s.step a).bind (·.run as)

/-- The sessions of every run from `New`, before any `WorkOn`. -/
inductive SessionReachable : Session → Prop where
  | new : SessionReachable ⟨Client.new, []⟩
  | step {s s' : Session} {a : SessionAction} : SessionReachable s → s.step a = some s' → SessionReachable s'

theorem SessionReachable.run : ∀ {s s' : Session} {as : List SessionAction}, SessionReachable s →
    s.run as = some s' → SessionReachable s'
  | _, _, [], hs, h => by cases h; exact hs
  | s, _, a :: as, hs, h => by
    cases ha : s.step a with
    | none => simp [Session.run, ha] at h
    | some s₁ => exact SessionReachable.run (hs.step ha) (by simpa [Session.run, ha] using h)

def Worker.downloadHash : Worker → Option Bytes
  | .download h _ => some h
  | .waitFor _ _ => none

def downloads (ws : List Worker) : List Bytes := ws.filterMap Worker.downloadHash

/-- The torrents of the calls that returned without error, one entry per call. -/
def admitted (cs : List WorkOnCall) : List Bytes :=
  cs.filterMap fun c => if c.phase = .returned true then some c.infoHash else none

theorem lookup_isSome_iff {β : Type} : ∀ {l : List (Bytes × β)} {k : Bytes}, (l.lookup k).isSome ↔ k ∈ l.map Prod.fst
  | [], _ => by simp
  | (a, b) :: l, k => by
    by_cases hk : k = a
    · subst hk; simp [List.lookup_cons]
    · simp [List.lookup_cons, beq_false_of_ne hk, hk, lookup_isSome_iff]

@[simp] theorem downloads_append (ws ws' : List Worker) : downloads (ws ++ ws') = downloads ws ++ downloads ws' :=
  List.filterMap_append _ _ _

theorem downloads_set : ∀ {ws : List Worker} {k : Nat} {w x : Worker}, ws[k]? = some w →
    x.downloadHash = w.downloadHash → downloads (ws.set k x) = downloads ws
  | [], _, _, _, h, _ => by cases h
  | y :: ws, 0, w, x, h, hx => by
    simp only [List.getElem?_cons_zero, Option.some.injEq] at h
    subst h
    simp only [List.set_cons_zero, downloads, List.filterMap_cons, hx]
  | y :: ws, k + 1, w, x, h, hx => by
    have ih := @downloads_set ws k w x (by simpa using h) hx
    simp only [downloads] at ih
    simp only [List.set_cons_succ, downloads, List.filterMap_cons, ih]

theorem admitted_set : ∀ {cs : List WorkOnCall} {k : Nat} {c x : WorkOnCall}, cs[k]? = some c →
    c.phase ≠ .returned true →
    (admitted (cs.set k x)).Perm (admitted cs ++ if x.phase = .returned true then [x.infoHash] else [])
  | [], _, _, _, h, _ => by cases h
  | y :: cs, 0, c, x, h, hc => by
    simp only [List.getElem?_cons_zero, Option.some.injEq] at h
    subst h
    simp only [List.set_cons_zero, admitted, List.filterMap_cons, if_neg hc]
    split_ifs
    · exact (List.perm_append_singleton _ _).symm
    · simp
  | y :: cs, k + 1, c, x, h, hc => by
    have ih := @admitted_set cs k c x (by simpa using h) hc
    simp only [admitted] at ih ⊢
    simp only [List.set_cons_succ, List.filterMap_cons]
    split
    · exact ih
    · exact ih.cons _

theorem Client.downloads_step {c c' : Client} {a : ClientAction} (h : c.step a = some c')
    (ha : ∀ hash size d, a ≠ .workOn hash size d) :
    downloads c'.workers = downloads c.workers ∧ c'.torrents.map Prod.fst = c.torrents.map Prod.fst := by
  unfold Client.step at h
  split at h
  · cases h
  cases a <;> dsimp only at h
  case workOn hash size d => exact absurd rfl (ha hash size d)
  case waitFor id => cases h; simp [downloads, Worker.downloadHash]
  case close => split_ifs at h <;> cases h <;> exact ⟨rfl, rfl⟩
  case watchStops => split_ifs at h; cases h; exact ⟨rfl, rfl⟩
  case watchReturns => split_ifs at h; cases h; exact ⟨rfl, rfl⟩
  case poll k =>
    split at h
    · rename_i id hk
      split_ifs at h <;> cases h
      · exact ⟨downloads_set hk rfl, rfl⟩
      · exact ⟨rfl, rfl⟩
    · cases h
  case download k act =>
    split at h
    · rename_i hash w hk
      split at h
      · split at h
        · cases h; exact ⟨downloads_set hk rfl, rfl⟩
        · cases h
      · cases h
    · cases h
  case progress hash d =>
    cases h
    refine ⟨rfl, ?_⟩
    simp only [List.map_map]
    congr 1
    funext e
    simp only [Function.comp_apply]
    split <;> rfl

/-- Each torrent has at most one `downloadTorrent`, and only a tracked torrent has one. -/
structure AdmitInv (c : Client) : Prop where
  nodup : (downloads c.workers).Nodup
  tracked : ∀ h ∈ downloads c.workers, h ∈ c.torrents.map Prod.fst

theorem AdmitInv.step {c c' : Client} (hi : AdmitInv c) {a : ClientAction} (h : c.step a = some c') :
    AdmitInv c' := by
  by_cases ha : ∃ hash size d, a = .workOn hash size d
  · obtain ⟨hash, size, d, rfl⟩ := ha
    unfold Client.step at h
    split at h
    · cases h
    dsimp only at h
    split_ifs at h with ht hw <;> cases h
    · exact hi
    · have hn : hash ∉ downloads c.workers := fun hm => ht (lookup_isSome_iff.mpr (hi.tracked _ hm))
      have hd : downloads [Worker.download hash ⟨.starting, []⟩] = [hash] := rfl
      refine ⟨?_, fun x hx => ?_⟩
      · rw [downloads_append, hd, List.nodup_append]
        exact ⟨hi.nodup, List.nodup_singleton _, fun a ha hb => hn (List.mem_singleton.mp hb ▸ ha)⟩
      · rw [List.map_append, List.mem_append]
        rw [downloads_append, hd, List.mem_append, List.mem_singleton] at hx
        rcases hx with hx | rfl
        · exact .inl (hi.tracked x hx)
        · exact .inr (List.mem_singleton_self _)
    · exact ⟨hi.nodup, fun x hx => by rw [List.map_append, List.mem_append]; exact .inl (hi.tracked x hx)⟩
  · push_neg at ha
    obtain ⟨hd, hk⟩ := Client.downloads_step h ha
    exact ⟨hd ▸ hi.nodup, fun x hx => hk ▸ hi.tracked x (hd ▸ hx)⟩

theorem Session.admitted_setPhase {s : Session} {k : Nat} {c : WorkOnCall} (hk : s.calls[k]? = some c)
    (hc : c.phase ≠ .returned true) (ph : CallPhase) :
    (admitted (s.setPhase k c ph).calls).Perm (admitted s.calls ++ if ph = .returned true then [c.infoHash] else []) :=
  admitted_set hk hc

theorem Session.downloads_perm_step {s s' : Session} {a : SessionAction}
    (hp : (downloads s.client.workers).Perm (admitted s.calls)) (h : s.step a = some s') :
    (downloads s'.client.workers).Perm (admitted s'.calls) := by
  cases a with
  | call hash size d =>
    simp only [Session.step] at h
    split_ifs at h
    cases h
    simpa [admitted] using hp
  | load k =>
    simp only [Session.step] at h
    split at h
    · rename_i c hk
      split_ifs at h with h1 h2 <;> cases h <;> simp only [not_or, not_not] at h1
      · exact hp.trans (by simpa using (Session.admitted_setPhase hk (by rw [h1.2]; decide) (.returned false)).symm)
      · exact hp.trans (by simpa using (Session.admitted_setPhase hk (by rw [h1.2]; decide) .storing).symm)
    · cases h
  | store k =>
    simp only [Session.step] at h
    split at h
    · rename_i c hk
      split_ifs at h with h1
      cases h
      simp only [not_or, not_not] at h1
      exact hp.trans (by simpa using (Session.admitted_setPhase hk (by rw [h1.2]; decide) .sending).symm)
    · cases h
  | handoff k =>
    simp only [Session.step] at h
    split at h
    · rename_i c hk
      split_ifs at h with h1
      cases h
      simp only [not_or, not_not] at h1
      have hs := (Session.admitted_setPhase hk (by rw [h1.2.1]; decide) (.returned true)).symm
      simp only [if_true] at hs
      simpa [downloads, Worker.downloadHash] using (hp.append_right [c.infoHash]).trans hs
    · cases h
  | other a =>
    have ha : ∀ hash size d, a ≠ .workOn hash size d := by
      rintro hash size d rfl; simp [Session.step] at h
    have h' : (s.client.step a).map (fun c => { s with client := c }) = some s' := by
      cases a <;> first | exact absurd rfl (ha _ _ _) | exact h
    obtain ⟨c', hc', rfl⟩ := Option.map_eq_some'.mp h'
    rw [(Client.downloads_step hc' ha).1]
    exact hp

theorem SessionReachable.downloads_perm {s : Session} (hs : SessionReachable s) :
    (downloads s.client.workers).Perm (admitted s.calls) := by
  induction hs with
  | new => exact List.Perm.refl _
  | step _ h ih => exact Session.downloads_perm_step ih h

/-- Two goroutines call `WorkOn` on the one-byte torrent `[1]` at once, and both run their `Load`
before either runs its `Store`. -/
def racingCalls : List SessionAction :=
  [.call [1] 1 0, .call [1] 1 0, .load 0, .load 1, .store 0, .store 1, .handoff 0, .handoff 1]

/-- Both racing calls return without error, and `watch` starts two `downloadTorrent` workers for
the one torrent. -/
theorem workOn_race :
    ∃ s, SessionReachable s ∧ s.calls.map (·.infoHash) = [[1], [1]] ∧ admitted s.calls = [[1], [1]] ∧
      downloads s.client.workers = [[1], [1]] :=
  have ⟨s, hr, hc, ha⟩ : ∃ s, Session.run ⟨Client.new, []⟩ racingCalls = some s ∧
      s.calls.map (·.infoHash) = [[1], [1]] ∧ admitted s.calls = [[1], [1]] := ⟨_, rfl, rfl, rfl⟩
  have hs := SessionReachable.new.run hr
  ⟨s, hs, hc, ha, (List.perm_replicate (n := 2) (a := [1])).mp (hs.downloads_perm.trans (List.Perm.of_eq ha))⟩

end TinyTorrent
