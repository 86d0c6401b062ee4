import TinyTorrent.Client.Admission

/-!
# `WorkOn` after `Close`

Once `watch` has taken `done` it never receives from `p.handler` again, so a `WorkOn` call that
stored its tracker by then never returns and its torrent stays tracked
(`workOn_blocked_after_close`).
-/

namespace TinyTorrent

theorem Client.watch_step {c c' : Client} {a : ClientAction} (h : c.step a = some c') (hw : c.watch ≠ .running) :
    c'.watch ≠ .running := by
  unfold Client.step at h
  split at h
  · cases h
  cases a <;> dsimp only at h
  case workOn hash size d => split_ifs at h <;> cases h <;> exact hw
  case waitFor => cases h; exact hw
  case close => split_ifs at h <;> cases h <;> exact hw
  case watchStops => split_ifs at h with h1; exact absurd h1.2 hw
  case watchReturns => split_ifs at h; cases h; simp
  case poll k => split at h <;> (try split_ifs at h) <;> cases h <;> exact hw
  case download k act => (repeat' split at h) <;> cases h <;> exact hw
  case progress => cases h; exact hw

theorem keys_storeTorrent (ts : List (Bytes × TrackedTorrent)) (h : Bytes) (t : TrackedTorrent) :
    (∀ k ∈ ts.map Prod.fst, k ∈ (storeTorrent ts h t).map Prod.fst) ∧ h ∈ (storeTorrent ts h t).map Prod.fst := by
  unfold storeTorrent
  split_ifs with hs
  · have hk : (ts.map fun e => if e.1 = h then (h, t) else e).map Prod.fst = ts.map Prod.fst := by
      rw [List.map_map]
      exact List.map_congr_left fun e _ => by by_cases he : e.1 = h <;> simp [he]
    rw [hk]
    exact ⟨fun k hk => hk, lookup_isSome_iff.mp hs⟩
  · simp only [List.map_append, List.mem_append]
    exact ⟨fun k hk => .inl hk, .inr (List.mem_singleton_self h)⟩

theorem Session.step_cases {s s' : Session} {a : SessionAction} (h : s.step a = some s') :
    (∃ c, c.phase = .loading ∧ s' = { s with calls := s.calls ++ [c] }) ∨
    (∃ k c, s.calls[k]? = some c ∧ c.phase = .loading ∧
      ((c.infoHash ∈ s.client.torrents.map Prod.fst ∧ s' = s.setPhase k c (.returned false)) ∨
        s' = s.setPhase k c .storing)) ∨
    (∃ k c, s.calls[k]? = some c ∧ c.phase = .storing ∧
      s' = { s.setPhase k c .sending with
        client := { s.client with torrents := storeTorrent s.client.torrents c.infoHash c.torrent } }) ∨
    (∃ k c, s.calls[k]? = some c ∧ c.phase = .sending ∧ s.client.watch = .running ∧
      s' = { s.setPhase k c (.returned true) with
        client := { s.client with wg := s.client.wg + 1
                                  workers := s.client.workers ++ [.download c.infoHash ⟨.starting, []⟩] } }) ∨
    (∃ a c', (∀ hash size d, a ≠ .workOn hash size d) ∧ s.client.step a = some c' ∧ s' = { s with client := c' }) := by
  cases a with
  | call =>
    simp only [Session.step] at h
    split_ifs at h
    exact .inl ⟨_, rfl, (Option.some.inj h).symm⟩
  | load k =>
    simp only [Session.step] at h
    split at h
    · rename_i c hk
      split_ifs at h with h1 h2 <;> cases h <;> simp only [not_or, ne_eq, not_not] at h1
      · exact .inr (.inl ⟨k, c, hk, h1.2, .inl ⟨lookup_isSome_iff.mp h2, rfl⟩⟩)
      · exact .inr (.inl ⟨k, c, hk, h1.2, .inr rfl⟩)
    · cases h
  | store k =>
    simp only [Session.step] at h
    split at h
    · rename_i c hk
      split_ifs at h with h1
      cases h
      simp only [not_or, ne_eq, not_not] at h1
      exact .inr (.inr (.inl ⟨k, c, hk, h1.2, rfl⟩))
    · cases h
  | handoff k =>
    simp only [Session.step] at h
    split at h
    · rename_i c hk
      split_ifs at h with h1
      cases h
      simp only [not_or, ne_eq, not_not] at h1
      exact .inr (.inr (.inr (.inl ⟨k, c, hk, h1.2.1, h1.2.2, rfl⟩)))
    · cases h
  | other a =>
    have ha : ∀ hash size d, a ≠ .workOn hash size d := by
      rintro hash size d rfl; simp [Session.step] at h
    have h' : (s.client.step a).map (fun c => { s with client := c }) = some s' := by
      cases a <;> first | exact absurd rfl (ha _ _ _) | exact h
    obtain ⟨c', hc', rfl⟩ := Option.map_eq_some'.mp h'
    exact .inr (.inr (.inr (.inr ⟨a, c', ha, hc', rfl⟩)))

theorem Session.keys_step {s s' : Session} {a : SessionAction} (h : s.step a = some s') :
    ∀ k ∈ s.client.torrents.map Prod.fst, k ∈ s'.client.torrents.map Prod.fst := by
  intro k hk
  rcases Session.step_cases h with ⟨c, -, rfl⟩ | ⟨j, c, -, -, ⟨-, rfl⟩ | rfl⟩ | ⟨j, c, -, -, rfl⟩ |
    ⟨j, c, -, -, -, rfl⟩ | ⟨a, c', ha, hc', rfl⟩
  · exact hk
  · exact hk
  · exact hk
  · exact (keys_storeTorrent _ _ _).1 k hk
  · exact hk
  · exact (Client.downloads_step hc' ha).2 ▸ hk

def CallPhase.pastStore : CallPhase → Bool
  | .sending | .returned _ => true
  | _ => false

/-- Every call that returned or waits to hand over has its torrent tracked. -/
def CallsTracked (s : Session) : Prop :=
  ∀ c ∈ s.calls, c.phase.pastStore → c.infoHash ∈ s.client.torrents.map Prod.fst

theorem CallsTracked.step {s s' : Session} {a : SessionAction} (hi : CallsTracked s) (h : s.step a = some s') :
    CallsTracked s' := by
  have hkeys := Session.keys_step h
  intro c hc hp
  rcases Session.step_cases h with ⟨c₀, h0, rfl⟩ | ⟨j, c₀, -, -, ⟨hin, rfl⟩ | rfl⟩ | ⟨j, c₀, -, -, rfl⟩ |
    ⟨j, c₀, hj, hs, -, rfl⟩ | ⟨a, c', -, -, rfl⟩
  · rcases List.mem_append.mp hc with hc | hc
    · exact hi c hc hp
    · rw [List.mem_singleton.mp hc, h0] at hp; cases hp
  all_goals first
    | exact hkeys _ (hi c hc hp)
    | rcases List.mem_or_eq_of_mem_set hc with hc | rfl
  · exact hi c hc hp
  · exact hin
  · exact hi c hc hp
  · cases hp
  · exact hkeys _ (hi c hc hp)
  · exact (keys_storeTorrent _ _ _).2
  · exact hi c hc hp
  · exact hi c₀ (List.getElem?_mem hj) (by rw [hs]; rfl)

theorem SessionReachable.callsTracked {s : Session} (hs : SessionReachable s) : CallsTracked s := by
  induction hs with
  | new => intro c hc; cases hc
  | step _ h ih => exact ih.step h

theorem Session.step_blocked {s s' : Session} {a : SessionAction} (h : s.step a = some s')
    (hw : s.client.watch ≠ .running) {k : Nat} {c : WorkOnCall} (hk : s.calls[k]? = some c)
    (hc : c.phase = .sending) : s'.calls[k]? = some c ∧ s'.client.watch ≠ .running := by
  have hlt : k < s.calls.length := (List.getElem?_eq_some_iff.mp hk).1
  have hne : ∀ {j c₀}, s.calls[j]? = some c₀ → c₀.phase ≠ .sending → j ≠ k := fun hj h0 hjk =>
    h0 (by rw [hjk, hk] at hj; cases hj; exact hc)
  rcases Session.step_cases h with ⟨c₀, -, rfl⟩ | ⟨j, c₀, hj, h0, ⟨-, rfl⟩ | rfl⟩ | ⟨j, c₀, hj, h0, rfl⟩ |
    ⟨j, c₀, -, -, hr, -⟩ | ⟨a, c', -, hc', rfl⟩
  · exact ⟨by rw [List.getElem?_append_left hlt, hk], hw⟩
  all_goals first
    | exact absurd hr hw
    | exact ⟨hk, Client.watch_step hc' hw⟩
    | exact ⟨by rw [Session.setPhase, List.getElem?_set_ne (hne hj (by rw [h0]; decide)), hk], hw⟩

/-- Once `watch` has taken `done`, a `WorkOn` call blocked on `p.handler` never returns, whatever
happens next, and its torrent stays tracked: every later `WorkOn` of it fails as already tracked,
while this call starts no `downloadTorrent` for it. -/
theorem workOn_blocked_after_close {s : Session} (hs : SessionReachable s) (hw : s.client.watch ≠ .running)
    {k : Nat} {c : WorkOnCall} (hk : s.calls[k]? = some c) (hc : c.phase = .sending) :
    ∀ (as : List SessionAction) {s' : Session}, s.run as = some s' →
      s'.calls[k]? = some c ∧ c.infoHash ∈ s'.client.torrents.map Prod.fst := by
  intro as
  induction as generalizing s with
  | nil =>
    intro s' h
    cases h
    exact ⟨hk, hs.callsTracked c (List.getElem?_mem hk) (by rw [hc]; rfl)⟩
  | cons a as ih =>
    intro s' h
    cases ha : s.step a with
    | none => simp [Session.run, ha] at h
    | some s₁ =>
      obtain ⟨hk₁, hw₁⟩ := Session.step_blocked ha hw hk hc
      exact ih (hs.step ha) hw₁ hk₁ (by simpa [Session.run, ha] using h)

/-- `Close`, then `watch` takes `done`, then a `WorkOn` of the one-byte torrent runs its `Load` and
its `Store`. -/
def closedSession : Session :=
  ⟨{ Client.new with done := true, cancelled := true, watch := .waiting, torrents := [([1], ⟨1, 0⟩)] },
    [⟨[1], ⟨1, 0⟩, .sending⟩]⟩

theorem reachable_closedSession : SessionReachable closedSession :=
  @SessionReachable.run _ _ [.other .close, .other .watchStops, .call [1] 1 0, .load 0, .store 0] .new rfl

theorem workOn_blocked_in_closedSession :
    closedSession.client.watch ≠ .running ∧ closedSession.calls[0]? = some ⟨[1], ⟨1, 0⟩, .sending⟩ ∧
      ∀ (as : List SessionAction) {s' : Session}, closedSession.run as = some s' →
        s'.calls[0]? = some ⟨[1], ⟨1, 0⟩, .sending⟩ ∧ [1] ∈ s'.client.torrents.map Prod.fst :=
  ⟨by decide, rfl, workOn_blocked_after_close reachable_closedSession (by decide) rfl rfl⟩

end TinyTorrent
