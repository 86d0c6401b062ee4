import TinyTorrent.Download.Slots

/-!
# The scheduler's last pass

Once every queued piece is verified, the scheduler finishes its pass over the slot table and at
most one more and closes `t.download.completed`, changing nothing else
(`scheduler_completes_once_verified`).
-/

namespace TinyTorrent

section
variable (sha1 : Bytes → Bytes) (t : MetaInfo)

theorem Engine.schedule_requests_length {s s' : Engine} {sent : List Bool} (h : s.schedule t sent = some s') :
    s'.requests.length = s.requests.length := by
  unfold Engine.schedule at h
  split at h <;> (repeat' split at h) <;> cases h <;> simp only [List.length_set]

theorem Engine.verify_requests_length (s : Engine) (slot ref : Nat) (p : PendingPiece) (m : Piece) (ok : Bool) :
    (s.verify sha1 t slot ref p m ok).requests.length = s.requests.length := by
  unfold Engine.verify
  dsimp only
  split_ifs <;> (try split) <;> simp only [Engine.setPiece, List.length_set]

theorem Engine.receive_requests_length (s : Engine) (hd : Held) (ok : Bool) :
    (s.receive sha1 t hd ok).requests.length = s.requests.length := by
  unfold Engine.receive
  repeat' split
  all_goals first | rfl | exact Engine.verify_requests_length sha1 t _ _ _ _ _ _

theorem Reachable.requests_length {slots : Nat} {order : List UInt32} {d0 : Int} {s : Engine}
    (hs : Reachable sha1 t slots order d0 s) : s.requests.length = slots := by
  induction hs with
  | init => exact List.length_replicate _ _
  | step _ h ih =>
    obtain ⟨-, ⟨d, rfl⟩ | ⟨sent, h⟩ | ⟨-, rfl⟩ | ⟨slot, ref, m, -, -, rfl⟩ | ⟨k, hd, ok, -, rfl⟩⟩ :=
      Engine.step_cases sha1 t h
    · exact ih
    · exact (Engine.schedule_requests_length t h).trans ih
    · exact ih
    · exact ih
    · exact (Engine.receive_requests_length sha1 t _ hd ok).trans ih

end

section
variable {order : List UInt32} {s : Engine}

theorem SlotInv.unverified_eq_nil (h : SlotInv order s) (hnd : order.Nodup) (hv : ∀ x ∈ order, x ∈ s.verified) :
    s.unverified = [] := by
  refine List.eq_nil_iff_forall_not_mem.mpr fun x hx => ?_
  have hp : x ∈ s.pieces.map (·.index) := h.verified_sub x (hv x (h.perm.subset (List.mem_append_right _ hx)))
  exact (List.nodup_append.mp (h.index_nodup hnd)).2.2 hp hx

theorem SlotInv.slot_nil (h : SlotInv order s) (hv : ∀ x ∈ order, x ∈ s.verified) {j : Nat}
    (hj : j < s.requests.length) : s.requests[j]? = some none := by
  obtain ⟨x, hx⟩ := Option.isSome_iff_exists.mp (List.getElem?_eq_some_iff.mpr ⟨hj, rfl⟩ ▸ rfl : (s.requests[j]?).isSome)
  rw [hx]
  rcases x with _ | ref
  · rfl
  · obtain ⟨p, hp⟩ := Option.isSome_iff_exists.mp
      ((List.getElem?_eq_some_iff.mpr ⟨h.ref_lt j ref hx, rfl⟩ ▸ rfl : (s.pieces[ref]?).isSome))
    have hmem : p.index ∈ order :=
      h.perm.subset (List.mem_append_left _ (List.mem_map_of_mem _ (List.mem_iff_getElem?.mpr ⟨ref, hp⟩)))
    exact absurd (hv _ hmem) ((h.occupied ref p hp).mp ⟨j, hx⟩)

end

section
variable (sha1 : Bytes → Bytes) (t : MetaInfo) {s : Engine}

theorem Engine.run_scan_nil (hp : s.panicked = false) (sent : List Bool)
    (hnil : ∀ j < s.requests.length, s.requests[j]? = some none) :
    ∀ (m i free : Nat), i + m ≤ s.requests.length →
      ({ s with sched := .scan i free } : Engine).run sha1 t (List.replicate m (.schedule sent)) =
        some { s with sched := .scan (i + m) (free + m) }
  | 0, _, _, _ => rfl
  | m + 1, i, free, hm => by
    have hi : i < s.requests.length := by omega
    rw [List.replicate_succ, Engine.run, Engine.step_schedule sha1 t (s := { s with sched := .scan i free }) hp]
    simp only [Engine.schedule, if_pos hi, hnil i hi, Option.some_bind]
    rw [Engine.run_scan_nil hp sent hnil m (i + 1) (free + 1) (by omega)]
    simp only [Nat.add_right_comm _ 1 m, Nat.add_assoc]

theorem Engine.schedule_pass_end (hu : s.unverified = []) {i free : Nat} (hi : s.requests.length ≤ i)
    (sent : List Bool) :
    ({ s with sched := .scan i free } : Engine).schedule t sent =
      some { s with sched := if free = s.requests.length then .completed else .scan 0 0 } := by
  simp only [Engine.schedule, if_neg (Nat.not_lt.mpr hi), hu, if_true]

theorem Engine.run_pass (hp : s.panicked = false) (hu : s.unverified = [])
    (hnil : ∀ j < s.requests.length, s.requests[j]? = some none) (sent : List Bool) (i free : Nat) :
    ({ s with sched := .scan i free } : Engine).run sha1 t
        (List.replicate (s.requests.length - i + 1) (.schedule sent)) =
      some { s with sched := if free + (s.requests.length - i) = s.requests.length then .completed else .scan 0 0 } := by
  rw [List.replicate_succ', Engine.run_append]
  by_cases hi : i ≤ s.requests.length
  · rw [Engine.run_scan_nil sha1 t hp sent hnil _ i free (by omega), Option.some_bind, Engine.run,
      Engine.step_schedule sha1 t (s := { s with sched := .scan _ _ }) hp, Engine.schedule_pass_end t hu (by omega)]
    rfl
  · rw [Nat.sub_eq_zero_of_le (by omega), List.replicate_zero, Engine.run, Option.some_bind, Engine.run,
      Engine.step_schedule sha1 t (s := { s with sched := .scan i free }) hp, Engine.schedule_pass_end t hu (by omega)]
    rfl

theorem Engine.run_passes_completed (hp : s.panicked = false) (hu : s.unverified = [])
    (hnil : ∀ j < s.requests.length, s.requests[j]? = some none) {i free : Nat} (hsc : s.sched = .scan i free)
    (sent : List Bool) :
    ∃ k ≤ 2 * s.requests.length + 2,
      s.run sha1 t (List.replicate k (.schedule sent)) = some { s with sched := .completed } := by
  have hs₀ : s = { s with sched := .scan i free } := by rw [← hsc]
  have hpass := Engine.run_pass sha1 t hp hu hnil sent
  by_cases hfull : free + (s.requests.length - i) = s.requests.length
  · refine ⟨s.requests.length - i + 1, by omega, ?_⟩
    rw [hs₀, hpass, if_pos hfull]
  · refine ⟨(s.requests.length - i + 1) + (s.requests.length - 0 + 1), by omega, ?_⟩
    rw [List.replicate_add, Engine.run_append, hs₀, hpass, if_neg hfull, Option.some_bind]
    have hagain := Engine.run_pass sha1 t hp hu hnil sent 0 0
    rw [if_pos (by omega)] at hagain
    exact hagain

end

section
variable (sha1 : Bytes → Bytes) (t : MetaInfo)

/-- Once every piece of its queue is verified, `downloadScheduler` closes `t.download.completed`
within two passes over the slot table, wherever it is in its pass, and changes nothing else. -/
theorem scheduler_completes_once_verified {slots : Nat} {order : List UInt32} {d0 : Int} {s : Engine}
    (hnd : order.Nodup) (hs : Reachable sha1 t slots order d0 s) (hp : s.panicked = false)
    (hv : ∀ x ∈ order, x ∈ s.verified) {i free : Nat} (hsc : s.sched = .scan i free) (sent : List Bool) :
    ∃ k ≤ 2 * slots + 2, s.run sha1 t (List.replicate k (.schedule sent)) = some { s with sched := .completed } := by
  have hi := reachable_slotInv sha1 t hnd hs
  rw [← hs.requests_length]
  exact Engine.run_passes_completed sha1 t hp (hi.unverified_eq_nil hnd hv) (fun j hj => hi.slot_nil hv hj) hsc sent

end

theorem scheduler_completes_after_one_byte :
    [(0 : UInt32)].Nodup ∧ oneByteVerified.panicked = false ∧ (∀ x ∈ [(0 : UInt32)], x ∈ oneByteVerified.verified) ∧
      oneByteVerified.sched = .scan 1 0 ∧
      ∃ k ≤ 2 * 1 + 2, oneByteVerified.run emptyDigest (oneByteTorrent emptyDigest)
        (List.replicate k (.schedule [])) = some { oneByteVerified with sched := .completed } :=
  ⟨by decide, rfl, by decide, rfl,
    scheduler_completes_once_verified emptyDigest (oneByteTorrent emptyDigest) (by decide) reachable_oneByteVerified
      rfl (by decide) rfl []⟩

end TinyTorrent
