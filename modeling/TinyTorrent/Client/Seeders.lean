import TinyTorrent.Client.Admission

/-!
# The seeders of a torrent

`Tracker.UpdateSeeders` stores a new `peer.NewSeeder` under each address it does not hold, with one
`wg.Add` and one `keepAliveSeeders` each. Over any sequence of calls the table gains one session
per new address (`updateSeeders_adds_each_address_once`).
-/

namespace TinyTorrent

/-- `addr := net.JoinHostPort(r.IP, fmt.Sprint(r.Port))`. -/
def seederAddr (r : PeerInfo) : Bytes := joinHostPort r.ip (formatInt r.port)

/-- The address `host:port` of a peer, as a spec states it: a host with a colon (IPv6) in brackets,
the port in decimal. -/
def peerAddress (r : PeerInfo) : Bytes :=
  if 58 ∈ r.ip then 91 :: r.ip ++ 93 :: 58 :: decimal r.port else r.ip ++ 58 :: decimal r.port

theorem seederAddr_eq (r : PeerInfo) : seederAddr r = peerAddress r := by
  unfold seederAddr joinHostPort peerAddress
  split_ifs <;> simp [formatInt_eq_decimal] <;> rfl

/-- A session `peer.NewSeeder(t.logger, r.PeerID, addr, t.Torrent.NumPieces())`; `id` tells apart
the objects the calls create. -/
structure Seeder where
  id : Nat
  peerID : Bytes
  addr : Bytes
  deriving DecidableEq

structure SeederTable where
  /-- `t.peers.seeders`, in the order of the stores. -/
  seeders : List (Bytes × Seeder)
  /-- The counter of `t.download.wg`. -/
  wg : Nat
  /-- The sessions a `keepAliveSeeders` goroutine was started on, in order. -/
  keepAlive : List Seeder
  /-- The id of the next `peer.NewSeeder` object. -/
  fresh : Nat
  deriving DecidableEq

/-- `sync.Map.Store(k, v)`: the value of `k` is replaced, or `k` is added. -/
def syncMapStore {α : Type} (m : List (Bytes × α)) (k : Bytes) (v : α) : List (Bytes × α) :=
  if (m.lookup k).isSome then m.map fun e => if e.1 = k then (k, v) else e else m ++ [(k, v)]

/-- One iteration of the loop of `UpdateSeeders`. -/
def SeederTable.addPeer (t : SeederTable) (r : PeerInfo) : SeederTable :=
  let addr := seederAddr r
  if (t.seeders.lookup addr).isSome then t
  else
    let np : Seeder := ⟨t.fresh, r.peerID, addr⟩
    ⟨syncMapStore t.seeders addr np, t.wg + 1, t.keepAlive ++ [np], t.fresh + 1⟩

/-- `Tracker.UpdateSeeders(resp)` on a torrent of `size` bytes: nothing once `t.Downloaded` is the
size; otherwise the loop over `resp.Peers`, where a nil `resp` (`none`) is the nil-pointer panic
(`none`). -/
def SeederTable.updateSeeders (size downloaded : Int) (t : SeederTable) (resp : Option TrackerResponse) :
    Option SeederTable :=
  if downloaded = size then some t
  else resp.map fun r => r.peers.foldl SeederTable.addPeer t

def SeederTable.runUpdates (size : Int) (t : SeederTable) : List (Int × TrackerResponse) → Option SeederTable
  | [] => some t
  | (downloaded, r) :: cs => (t.updateSeeders size downloaded (some r)).bind (·.runUpdates size cs)

/-- What a table gains from `peers`: the sessions `added`, stored after the ones it had, one under
each address of `peers` it did not hold, each a new object for a peer with that address; and one
`keepAliveSeeders` worker and one `wg.Add(1)` for each. -/
def SeederTable.Gains (t t' : SeederTable) (peers : List PeerInfo) : Prop :=
  ∃ added : List (Bytes × Seeder),
    t' = ⟨t.seeders ++ added, t.wg + added.length, t.keepAlive ++ added.map Prod.snd, t.fresh + added.length⟩ ∧
      (added.map Prod.fst).Nodup ∧
      (∀ a, a ∈ added.map Prod.fst ↔ a ∈ peers.map peerAddress ∧ a ∉ t.seeders.map Prod.fst) ∧
      added.map (·.2.id) = List.range' t.fresh added.length ∧
      ∀ e ∈ added, e.2.addr = e.1 ∧ ∃ r ∈ peers, peerAddress r = e.1 ∧ e.2.peerID = r.peerID

theorem SeederTable.gains_nil (t : SeederTable) : t.Gains t [] :=
  ⟨[], by rw [List.append_nil, List.map_nil, List.append_nil]; rfl, List.nodup_nil,
    fun a => iff_of_false (List.not_mem_nil a) fun h => List.not_mem_nil a h.1, rfl,
    fun _ h => absurd h (List.not_mem_nil _)⟩

theorem SeederTable.Gains.trans {t t₁ t₂ : SeederTable} {ps qs : List PeerInfo} (h₁ : t.Gains t₁ ps)
    (h₂ : t₁.Gains t₂ qs) : t.Gains t₂ (ps ++ qs) := by
  obtain ⟨a₁, rfl, hn₁, hm₁, hi₁, hp₁⟩ := h₁
  obtain ⟨a₂, rfl, hn₂, hm₂, hi₂, hp₂⟩ := h₂
  refine ⟨a₁ ++ a₂, by simp only [List.append_assoc, List.length_append, Nat.add_assoc, List.map_append], ?_,
    fun a => ?_, ?_, fun e he => ?_⟩
  · rw [List.map_append, List.nodup_append]
    exact ⟨hn₁, hn₂, fun a ha hb => ((hm₂ a).mp hb).2 (List.map_append .. ▸ List.mem_append_right _ ha)⟩
  · simp only [List.map_append, List.mem_append, hm₁, hm₂]
    by_cases hT : a ∈ t.seeders.map Prod.fst <;>
      simp only [hT, not_true_eq_false, and_false, false_or, true_or, not_false_eq_true, and_true, or_false, not_and,
        not_not]
    exact ⟨Or.imp_right And.left, fun h => h.elim Or.inl fun hq => (em _).imp_right fun hp => ⟨hq, hp⟩⟩
  · rw [List.map_append, hi₁, hi₂, List.length_append, List.range'_append_1, Nat.add_comm]
  · rcases List.mem_append.mp he with he | he
    · obtain ⟨ha, r, hr, hr'⟩ := hp₁ e he
      exact ⟨ha, r, List.mem_append_left _ hr, hr'⟩
    · obtain ⟨ha, r, hr, hr'⟩ := hp₂ e he
      exact ⟨ha, r, List.mem_append_right _ hr, hr'⟩

theorem SeederTable.gains_addPeer (t : SeederTable) (r : PeerInfo) : t.Gains (t.addPeer r) [r] := by
  rw [SeederTable.Gains, ← show seederAddr = peerAddress from funext seederAddr_eq]
  by_cases h : seederAddr r ∈ t.seeders.map Prod.fst
  · refine ⟨[], ?_, List.nodup_nil, fun a => ?_, rfl, by simp⟩
    · simp [addPeer, lookup_isSome_iff.mpr h]
    · simp only [List.map_nil, List.not_mem_nil, List.map_cons, List.mem_singleton, false_iff, not_and]
      rintro rfl
      exact absurd h
  · have hn : ¬(t.seeders.lookup (seederAddr r)).isSome := mt lookup_isSome_iff.mp h
    refine ⟨[(seederAddr r, ⟨t.fresh, r.peerID, seederAddr r⟩)], ?_, List.nodup_singleton _, fun a => ?_, rfl,
      by simp⟩
    · simp only [addPeer, syncMapStore]
      rw [if_neg hn, if_neg hn]
      rfl
    · simp only [List.map_cons, List.map_nil, List.mem_singleton, iff_self_and]
      rintro rfl
      exact h

theorem SeederTable.gains_foldl_addPeer : ∀ (peers : List PeerInfo) (t : SeederTable),
    t.Gains (peers.foldl addPeer t) peers
  | [], t => t.gains_nil
  | r :: rs, t => (t.gains_addPeer r).trans (gains_foldl_addPeer rs _)

@[simp] theorem SeederTable.updateSeeders_complete (size : Int) (t : SeederTable) (resp : Option TrackerResponse) :
    t.updateSeeders size size resp = some t := if_pos rfl

theorem SeederTable.gains_runUpdates (size : Int) : ∀ (calls : List (Int × TrackerResponse)) (t : SeederTable),
    ∃ t', t.runUpdates size calls = some t' ∧
      t.Gains t' ((calls.filter fun c => c.1 ≠ size).flatMap fun c => c.2.peers)
  | [], t => ⟨t, rfl, t.gains_nil⟩
  | (d, r) :: cs, t => by
    by_cases hd : d = size
    · obtain ⟨t', h, hg⟩ := gains_runUpdates size cs t
      subst hd
      exact ⟨t', by simpa [runUpdates] using h, by simpa using hg⟩
    · obtain ⟨t', h, hg⟩ := gains_runUpdates size cs (r.peers.foldl addPeer t)
      refine ⟨t', by simpa [runUpdates, updateSeeders, hd] using h, ?_⟩
      simpa [hd] using (gains_foldl_addPeer r.peers t).trans hg

/-- Over any sequence of calls with arbitrary peer lists the seeders gain exactly one new session
for each address they did not hold, stored after the sessions they had, and one `keepAliveSeeders`
worker and one `wg.Add(1)` per session; once the download is complete a call changes nothing. -/
theorem updateSeeders_adds_each_address_once (size : Int) (t : SeederTable) (calls : List (Int × TrackerResponse)) :
    (∀ resp, t.updateSeeders size size resp = some t) ∧
      ∃ t', t.runUpdates size calls = some t' ∧
        t.Gains t' ((calls.filter fun c => c.1 ≠ size).flatMap fun c => c.2.peers) :=
  ⟨t.updateSeeders_complete size, SeederTable.gains_runUpdates size calls t⟩

/-- A peer sent twice in one answer and again in the next gets one session. -/
example :
    (SeederTable.runUpdates 2 ⟨[], 0, [], 0⟩
        [(0, { peers := [⟨[], ascii "1.2.3.4", 1⟩, ⟨[], ascii "1.2.3.4", 1⟩] }),
          (1, { peers := [⟨[], ascii "1.2.3.4", 1⟩, ⟨[], ascii "::1", 2⟩] })]).map (·.wg) = some 2 := by
  decide

end TinyTorrent
