import TinyTorrent.Download.Engine
import Mathlib.Data.List.Nodup

/-!
# The slot table

`SlotInv`, carried along every run by `reachable_slotInv`: every queued index is admitted once, a
slot holds a piece until its verification releases it, and `completed` is closed only when every
queued index is verified (`slot_table_sound`).
-/

namespace TinyTorrent

def SchedOk (s : Engine) : Prop :=
  match s.sched with
  | .scan i free => s.unverified = [] → free ≤ (s.requests.take i).count none
  | .search _ | .admission _ => s.unverified ≠ []
  | .completed => s.unverified = [] ∧ ∀ x ∈ s.requests, x = none
  | .exited | .hung => True

/-- The invariant of the slot table, for the queue `order` the scheduler started with. -/
structure SlotInv (order : List UInt32) (s : Engine) : Prop where
  ref_lt : ∀ (i ref : Nat), s.requests[i]? = some (some ref) → ref < s.pieces.length
  ref_inj : ∀ (i j ref : Nat), s.requests[i]? = some (some ref) → s.requests[j]? = some (some ref) → i = j
  perm : (s.pieces.map (·.index) ++ s.unverified).Perm order
  /-- A piece occupies a slot exactly while it is not verified. -/
  occupied : ∀ (ref : Nat) (p : PendingPiece), s.pieces[ref]? = some p → ((∃ i : Nat, s.requests[i]? = some (some ref)) ↔ p.index ∉ s.verified)
  verified_sub : ∀ i ∈ s.verified, i ∈ s.pieces.map (·.index)
  verified_nodup : s.verified.Nodup
  /-- A verified piece is full, so a further block overflows it instead of verifying it again. -/
  complete : ∀ p ∈ s.pieces, p.index ∈ s.verified → p.downloaded = p.size
  /-- A worker's piece is still in the slot where it found it, or verified. -/
  held : ∀ h ∈ s.held, ∃ p, s.pieces[h.ref]? = some p ∧ p.index = h.msg.index ∧
    (s.requests[h.slot]? = some (some h.ref) ∨ p.index ∈ s.verified)
  lengths : ∀ p ∈ s.pieces, ∀ r ∈ p.requests, 0 < r.length.toNat
  noCasFailure : s.casFailures = 0
  sched : SchedOk s

variable {order : List UInt32} {s : Engine}

theorem slotInv_init (slots : Nat) (d0 : Int) : SlotInv order (Engine.init slots order d0) where
  ref_lt i ref h := by simp [Engine.init, List.getElem?_replicate] at h
  ref_inj i j ref h := by simp [Engine.init, List.getElem?_replicate] at h
  perm := by simp [Engine.init]
  occupied ref p h := by simp [Engine.init] at h
  verified_sub i h := by simp [Engine.init] at h
  verified_nodup := List.nodup_nil
  complete p h := by simp [Engine.init] at h
  held h hh := by simp [Engine.init] at hh
  lengths p h := by simp [Engine.init] at h
  noCasFailure := rfl
  sched := by simp [SchedOk, Engine.init]

theorem SlotInv.update (h : SlotInv order s) (d : Int) (n : Nat) (fs : List FlushCall) (b : Bool) :
    SlotInv order { s with downloaded := d, now := n, flushes := fs, panicked := b } :=
  ⟨h.1, h.2, h.3, h.4, h.5, h.6, h.7, h.8, h.9, h.10, h.11⟩

theorem SlotInv.withSched (h : SlotInv order s) {c : Sched} (hc : SchedOk { s with sched := c }) :
    SlotInv order { s with sched := c } :=
  ⟨h.1, h.2, h.3, h.4, h.5, h.6, h.7, h.8, h.9, h.10, hc⟩

theorem SlotInv.eraseHeld (h : SlotInv order s) (k : Nat) :
    SlotInv order { s with held := s.held.eraseIdx k } :=
  ⟨h.1, h.2, h.3, h.4, h.5, h.6, h.7, fun x hx => h.held x (List.mem_of_mem_eraseIdx hx), h.9, h.10,
    h.11⟩

theorem SlotInv.index_nodup (h : SlotInv order s) (hnd : order.Nodup) :
    (s.pieces.map (·.index) ++ s.unverified).Nodup :=
  h.perm.nodup_iff.mpr hnd

theorem map_set_of_getElem? {α β : Type} {l : List α} {n : Nat} {a b : α} (f : α → β)
    (hl : l[n]? = some a) (hf : f b = f a) : (l.set n b).map f = l.map f := by
  apply List.ext_getElem?
  intro i
  simp only [List.getElem?_map, List.getElem?_set]
  split_ifs with h1 h2
  · subst h1; simp [hl, hf]
  · subst h1; simp [List.getElem?_eq_none (by omega : l.length ≤ n)]
  · rfl

@[simp] theorem Engine.setPiece_requests (s : Engine) (ref : Nat) (p : PendingPiece) :
    (s.setPiece ref p).requests = s.requests := rfl
@[simp] theorem Engine.setPiece_pieces (s : Engine) (ref : Nat) (p : PendingPiece) :
    (s.setPiece ref p).pieces = s.pieces.set ref p := rfl
@[simp] theorem Engine.setPiece_verified (s : Engine) (ref : Nat) (p : PendingPiece) :
    (s.setPiece ref p).verified = s.verified := rfl

theorem SlotInv.setPiece (h : SlotInv order s) {ref : Nat} {p q : PendingPiece}
    (hp : s.pieces[ref]? = some p) (hi : q.index = p.index) (hr : q.requests.Perm p.requests)
    (hc : q.index ∈ s.verified → q.downloaded = q.size) : SlotInv order (s.setPiece ref q) := by
  have hmap : (s.pieces.set ref q).map (·.index) = s.pieces.map (·.index) := map_set_of_getElem? _ hp hi
  have hget : ∀ r, (s.pieces.set ref q)[r]? = if ref = r then some q else s.pieces[r]? := by
    intro r
    rw [List.getElem?_set]
    by_cases h1 : ref = r
    · subst h1; simp [(List.getElem?_eq_some_iff.mp hp).1]
    · simp [h1]
  refine ⟨fun i r hr' => ?_, h.ref_inj, ?_, fun r x hx => ?_, ?_, h.verified_nodup, fun x hx => ?_,
    fun x hx => ?_, fun x hx => ?_, h.noCasFailure, h.sched⟩
  · simpa using h.ref_lt i r hr'
  · simpa [hmap] using h.perm
  · simp only [Engine.setPiece_pieces, Engine.setPiece_requests, Engine.setPiece_verified, hget] at hx ⊢
    split_ifs at hx with hr'
    · subst hr'; cases hx; rw [hi]; exact h.occupied _ p hp
    · exact h.occupied r x hx
  · simpa [hmap] using h.verified_sub
  · rcases List.mem_or_eq_of_mem_set hx with hx | rfl
    · exact h.complete x hx
    · exact hc
  · obtain ⟨y, hy, hyi, hys⟩ := h.held x hx
    simp only [Engine.setPiece_pieces, Engine.setPiece_requests, Engine.setPiece_verified, hget]
    split_ifs with hr'
    · subst hr'; rw [hp] at hy; cases hy; exact ⟨q, rfl, hi.trans hyi, hi ▸ hys⟩
    · exact ⟨y, hy, hyi, hys⟩
  · rcases List.mem_or_eq_of_mem_set hx with hx | rfl
    · exact h.lengths x hx
    · exact fun r hr' => h.lengths p (List.mem_iff_getElem?.mpr ⟨_, hp⟩) r (hr.subset hr')

theorem count_none_take_set_none :
    ∀ (l : List (Option Nat)) (i j : Nat), (l.take i).count none ≤ ((l.set j none).take i).count none
  | [], _, _ => le_rfl
  | _ :: _, 0, _ => le_rfl
  | x :: l, i + 1, 0 => by
    simp only [List.set_cons_zero, List.take_succ_cons, List.count_cons, beq_self_eq_true, if_true]
    split <;> omega
  | x :: l, i + 1, j + 1 => by
    simp only [List.set_cons_succ, List.take_succ_cons, List.count_cons]
    have := count_none_take_set_none l i j
    omega

theorem schedOk_set_none (hs : SchedOk s) (slot : Nat) (v : List UInt32) :
    SchedOk { s with requests := s.requests.set slot none, verified := v } := by
  unfold SchedOk at hs ⊢
  cases hc : s.sched <;> simp only [hc] at hs ⊢
  · exact fun hu => (hs hu).trans (count_none_take_set_none _ _ _)
  · exact hs
  · exact hs
  · exact ⟨hs.1, fun x hx => (List.mem_or_eq_of_mem_set hx).elim (hs.2 x) id⟩

theorem SlotInv.eq_of_index (h : SlotInv order s) (hnd : order.Nodup) {p q : PendingPiece}
    (hp : p ∈ s.pieces) (hq : q ∈ s.pieces) (he : p.index = q.index) : p = q :=
  List.inj_on_of_nodup_map (List.nodup_append.mp (h.index_nodup hnd)).1 hp hq he

theorem SlotInv.ref_eq_of_index (h : SlotInv order s) (hnd : order.Nodup) {r r' : Nat}
    {p q : PendingPiece} (hp : s.pieces[r]? = some p) (hq : s.pieces[r']? = some q)
    (he : p.index = q.index) : r = r' :=
  List.getElem?_inj (by simpa using (List.getElem?_eq_some_iff.mp hp).1)
    (List.nodup_append.mp (h.index_nodup hnd)).1 (by simp [List.getElem?_map, hp, hq, he])

theorem SlotInv.release (h : SlotInv order s) (hnd : order.Nodup) {slot ref : Nat}
    {p : PendingPiece} (hp : s.pieces[ref]? = some p) (hs : s.requests[slot]? = some (some ref))
    (hfull : p.downloaded = p.size) :
    SlotInv order { s with requests := s.requests.set slot none, verified := s.verified ++ [p.index] } := by
  have hnv : p.index ∉ s.verified := (h.occupied ref p hp).mp ⟨slot, hs⟩
  have hpm : p ∈ s.pieces := List.mem_iff_getElem?.mpr ⟨_, hp⟩
  have hget : ∀ i r, (s.requests.set slot none)[i]? = some (some r) ↔
      slot ≠ i ∧ s.requests[i]? = some (some r) := by
    intro i r
    rw [List.getElem?_set]
    split_ifs with h1 h2 <;> simp [h1]
  refine ⟨fun i r hr => h.ref_lt i r ((hget i r).mp hr).2,
    fun i j r hi hj => h.ref_inj i j r ((hget i r).mp hi).2 ((hget j r).mp hj).2, h.perm,
    fun r x hx => ?_, ?_, ?_, fun x hx hxv => ?_, fun x hx => ?_, h.lengths, h.noCasFailure,
    schedOk_set_none h.sched slot _⟩
  · simp only [hget, List.mem_append, List.mem_singleton, not_or]
    by_cases hr : r = ref
    · subst hr
      rw [hp] at hx; cases hx
      exact ⟨fun ⟨i, hi, hir⟩ => (hi (h.ref_inj _ _ _ hs hir)).elim, fun hh => absurd rfl hh.2⟩
    · have hxp : x.index ≠ p.index := fun he => hr (h.ref_eq_of_index hnd hx hp he)
      constructor
      · rintro ⟨i, -, hi⟩
        exact ⟨(h.occupied r x hx).mp ⟨i, hi⟩, hxp⟩
      · rintro ⟨hv, -⟩
        obtain ⟨i, hi⟩ := (h.occupied r x hx).mpr hv
        refine ⟨i, fun he => hr ?_, hi⟩
        subst he; rw [hs] at hi; cases hi; rfl
  · intro i hi
    rcases List.mem_append.mp hi with hi | hi
    · exact h.verified_sub i hi
    · rw [List.mem_singleton.mp hi]; exact List.mem_map_of_mem _ hpm
  · exact List.nodup_append.mpr ⟨h.verified_nodup, List.nodup_singleton _,
      fun a ha hb => hnv (List.mem_singleton.mp hb ▸ ha)⟩
  · rcases List.mem_append.mp hxv with hxv | hxv
    · exact h.complete x hx hxv
    · rw [h.eq_of_index hnd hx hpm (List.mem_singleton.mp hxv)]; exact hfull
  · obtain ⟨y, hy, hyi, hys⟩ := h.held x hx
    refine ⟨y, hy, hyi, ?_⟩
    simp only [hget, List.mem_append, List.mem_singleton]
    by_cases hsl : slot = x.slot
    · subst hsl
      rcases hys with hys | hys
      · rw [hs] at hys; cases hys; rw [hp] at hy; cases hy; exact .inr (.inr rfl)
      · exact .inr (.inl hys)
    · rcases hys with hys | hys
      · exact .inl ⟨hsl, hys⟩
      · exact .inr (.inl hys)

theorem getElem?_append_singleton {α : Type} (l : List α) (a : α) (r : Nat) :
    (l ++ [a])[r]? = if r < l.length then l[r]? else if r = l.length then some a else none := by
  split_ifs with h1 h2
  · exact List.getElem?_append_left h1
  · subst h2; simp
  · rw [List.getElem?_append_right (by omega)]
    exact List.getElem?_eq_none (by simp; omega)

theorem SlotInv.admission (h : SlotInv order s) (hnd : order.Nodup) {j : Nat} {idx : UInt32}
    {rest : List UInt32} (hu : s.unverified = idx :: rest) (hj : s.requests[j]? = some none)
    {size : Int} {bs : List Request} (hbs : ∀ r ∈ bs, 0 < r.length.toNat) :
    SlotInv order { s with requests := s.requests.set j (some s.pieces.length)
                           pieces := s.pieces ++ [⟨idx, 0, size, [], bs, []⟩]
                           unverified := rest, sched := .scan 0 0 } := by
  have hnd' := h.index_nodup hnd
  rw [hu] at hnd'
  have hfresh : idx ∉ s.pieces.map (·.index) := fun hm =>
    (List.nodup_append.mp hnd').2.2 hm (List.mem_cons_self _ _)
  have hnv : idx ∉ s.verified := fun hv => hfresh (h.verified_sub _ hv)
  have hget : ∀ i r, (s.requests.set j (some s.pieces.length))[i]? = some (some r) ↔
      (j = i ∧ r = s.pieces.length) ∨ (j ≠ i ∧ s.requests[i]? = some (some r)) := by
    intro i r
    rw [List.getElem?_set]
    by_cases h1 : j = i
    · subst h1; simp [(List.getElem?_eq_some_iff.mp hj).1, eq_comm]
    · simp [h1]
  refine ⟨fun i r hr => ?_, fun i i' r hi hi' => ?_, ?_, fun r x hx => ?_, fun i hi => ?_,
    h.verified_nodup, fun x hx hxv => ?_, fun x hx => ?_, fun x hx => ?_, h.noCasFailure,
    fun _ => Nat.zero_le _⟩
  · simp only [List.length_append, List.length_singleton]
    rcases (hget i r).mp hr with ⟨-, rfl⟩ | ⟨-, hr⟩
    · omega
    · have := h.ref_lt i r hr; omega
  · rcases (hget i r).mp hi with ⟨hji, hr⟩ | ⟨hji, hi⟩ <;>
      rcases (hget i' r).mp hi' with ⟨hji', hr'⟩ | ⟨hji', hi'⟩
    · exact hji.symm.trans hji'
    · exact absurd (h.ref_lt _ _ hi') (by omega)
    · exact absurd (h.ref_lt _ _ hi) (by omega)
    · exact h.ref_inj _ _ _ hi hi'
  · simpa [hu] using h.perm
  · simp only [hget]
    rw [getElem?_append_singleton] at hx
    split_ifs at hx with hr1 hr2
    · have hocc := h.occupied r x hx
      constructor
      · rintro ⟨i, ⟨-, hr⟩ | ⟨-, hi⟩⟩
        · omega
        · exact hocc.mp ⟨i, hi⟩
      · intro hv
        obtain ⟨i, hi⟩ := hocc.mpr hv
        refine ⟨i, .inr ⟨fun he => ?_, hi⟩⟩
        subst he; rw [hj] at hi; cases hi
    · cases hx; subst hr2
      exact ⟨fun _ => hnv, fun _ => ⟨j, .inl ⟨rfl, rfl⟩⟩⟩
  · rw [List.map_append, List.mem_append]; exact .inl (h.verified_sub i hi)
  · rcases List.mem_append.mp hx with hx | hx
    · exact h.complete x hx hxv
    · rw [List.mem_singleton.mp hx] at hxv; exact absurd hxv hnv
  · obtain ⟨y, hy, hyi, hys⟩ := h.held x hx
    have hlt := (List.getElem?_eq_some_iff.mp hy).1
    refine ⟨y, by rw [getElem?_append_singleton, if_pos hlt, hy], hyi, ?_⟩
    simp only [hget]
    by_cases hjs : j = x.slot
    · subst hjs
      rcases hys with hys | hys
      · rw [hj] at hys; cases hys
      · exact .inr hys
    · rcases hys with hys | hys
      · exact .inl (.inr ⟨hjs, hys⟩)
      · exact .inr hys
  · rcases List.mem_append.mp hx with hx | hx
    · exact h.lengths x hx
    · rw [List.mem_singleton.mp hx]
      simpa [PendingPiece.requests] using hbs

theorem count_take_succ (l : List (Option Nat)) (i : Nat) :
    (l.take (i + 1)).count none = (l.take i).count none + (l[i]?.toList).count none := by
  rw [List.take_succ, List.count_append]

theorem SlotInv.visit (h : SlotInv order s) {ref : Nat} (hr : s.pieces[ref]? = some p) (i free : Nat)
    (sent : List Bool) (hf : s.unverified = [] → free ≤ (s.requests.take (i + 1)).count none) :
    SlotInv order { s with pieces := s.pieces.modify (fun p => (p.reschedule s.now).dispatch s.now sent) ref
                           sched := .scan (i + 1) free } := by
  rw [List.modify_eq_set, hr, Option.getD_some]
  exact (h.setPiece (q := (p.reschedule s.now).dispatch s.now sent) hr rfl
    (((p.reschedule s.now).requests_dispatch _ _).trans (p.requests_reschedule _))
    fun hv => h.complete p (List.mem_iff_getElem?.mpr ⟨_, hr⟩) hv).withSched hf

section
variable (t : MetaInfo)

theorem SlotInv.schedule (h : SlotInv order s) (hnd : order.Nodup) {sent : List Bool} {s' : Engine}
    (hs : s.schedule t sent = some s') : SlotInv order s' := by
  have hok := h.sched
  unfold Engine.schedule at hs
  unfold SchedOk at hok
  split at hs <;> rename_i heq <;> try simp only [heq] at hok
  · -- visiting slot `i`
    rename_i i free
    by_cases hi : i < s.requests.length
    · rw [if_pos hi] at hs
      split at hs
      · rename_i ref hsome
        cases hs
        have hp := List.getElem?_eq_getElem (h.ref_lt i ref hsome)
        refine h.visit hp i free sent fun hu => (hok hu).trans ?_
        rw [count_take_succ]; omega
      · rename_i hnot
        cases hs
        refine h.withSched fun hu => ?_
        have hnone : s.requests[i]? = some none := by
          rcases hx : s.requests[i]? with _ | _ | r
          · exact absurd hx (List.getElem?_eq_none_iff.not.mpr (by omega))
          · rfl
          · exact absurd hx (hnot r)
        show free + 1 ≤ _
        rw [count_take_succ, hnone]
        have := hok hu
        simp only [Option.toList_some, List.count_singleton_self]
        omega
    · rw [if_neg hi] at hs
      by_cases hu : s.unverified = []
      · rw [if_pos hu] at hs
        cases hs
        refine h.withSched ?_
        show SchedOk { s with sched := if free = s.requests.length then .completed else .scan 0 0 }
        unfold SchedOk
        dsimp only
        split_ifs with hfree
        · refine ⟨hu, ?_⟩
          have hc := hok hu
          rw [List.take_of_length_le (by omega)] at hc
          have := List.count_le_length none s.requests
          exact fun x hx => (List.count_eq_length.mp (by omega) x hx).symm
        · exact fun _ => Nat.zero_le _
      · rw [if_neg hu] at hs
        cases hs
        exact h.withSched hu
  · -- searching a nil slot
    split_ifs at hs <;> cases hs <;> refine h.withSched ?_ <;>
      simp only [SchedOk] <;> first | exact hok | exact fun _ => Nat.zero_le _
  · -- admitting the head of the queue
    rename_i j
    split at hs
    · cases hs
    · rename_i index rest hu
      split at hs
      · cases hs; exact h.withSched trivial
      · rename_i bs hbs
        split_ifs at hs with hj
        · cases hs
          exact h.admission hnd hu hj fun r hr => (blockRequests_mem (isInt64_wrap64 _) hbs r hr).2.1
        · cases hs
          exact h.withSched fun _ => Nat.zero_le _
  · cases hs

end

section
variable (sha1 : Bytes → Bytes) (t : MetaInfo)

theorem SlotInv.requeued (h : SlotInv order s) {ref : Nat} {q q' q'' : PendingPiece}
    (hq : s.pieces[ref]? = some q) (hi : q'.index = q.index) (hr : q'.requests = q.requests)
    (hfull : q'.downloaded = q'.size) (hrq : q'.requeue = some q'') : SlotInv order (s.setPiece ref q'') := by
  obtain ⟨hi', hs, hd, hr', -⟩ := PendingPiece.requeue_spec hrq
  exact h.setPiece hq (hi'.trans hi) (by rw [hr', hr]) fun _ => by rw [hd, hs, hfull]

theorem SlotInv.verify (h : SlotInv order s) (hnd : order.Nodup) {slot ref : Nat} {q : PendingPiece}
    {m : Piece} (ok : Bool) (hq : s.pieces[ref]? = some q) (hfull : q.downloaded = q.size)
    (hmi : m.index = q.index) (hslot : s.requests[slot]? = some (some ref)) :
    SlotInv order (s.verify sha1 t slot ref q m ok) := by
  have hretry : ∀ fs, SlotInv order (match ({ q with received := sortByBegin q.received } : PendingPiece).requeue with
      | none => { s with flushes := fs, panicked := true }
      | some q' => { s with flushes := fs }.setPiece ref q') := by
    intro fs
    split
    · exact h.update _ _ _ true
    · exact (h.update s.downloaded s.now fs s.panicked).requeued hq rfl rfl hfull ‹_›
  have hlt : ref < s.pieces.length := (List.getElem?_eq_some_iff.mp hq).1
  unfold Engine.verify
  dsimp only
  split_ifs with hhash hflush hcas
  · exact hretry _
  · rw [hmi]
    have h2 := (h.update s.downloaded s.now _ s.panicked).setPiece
      (q := { q with received := sortByBegin q.received }) hq rfl (List.Perm.refl _) fun _ => hfull
    exact (h2.release hnd (List.getElem?_set_self hlt) hcas hfull).update _ _ _ _
  · exact absurd hslot hcas
  · exact hretry _

theorem SlotInv.receive (h : SlotInv order s) (hnd : order.Nodup) {hd : Held} (flushOk : Bool)
    (hh : ∃ p, s.pieces[hd.ref]? = some p ∧ p.index = hd.msg.index ∧
      (s.requests[hd.slot]? = some (some hd.ref) ∨ p.index ∈ s.verified)) :
    SlotInv order (s.receive sha1 t hd flushOk) := by
  obtain ⟨p, hp, hpi, hps⟩ := hh
  unfold Engine.receive
  rw [hp]
  dsimp only
  split
  · exact h
  · exact h
  · exact h.update _ _ _ true
  · rename_i q hq
    obtain ⟨hqi, hqs, hqd, hqr, hmr, hle⟩ := PendingPiece.stored_spec hq
    have hpm : p ∈ s.pieces := List.mem_iff_getElem?.mpr ⟨_, hp⟩
    have hlen : 0 < hd.msg.block.length := by
      have := h.lengths p hpm _ hmr
      rwa [Piece.length_request] at this
    have hnv : p.index ∉ s.verified := fun hv => by
      have := h.complete p hpm hv; omega
    have h1 : SlotInv order (s.setPiece hd.ref q) :=
      h.setPiece hp hqi (hqr ▸ List.Perm.refl _) (fun hv => absurd (hqi ▸ hv) hnv)
    have hs1 := h1.update (s.downloaded + hd.msg.block.length) s.now s.flushes s.panicked
    split_ifs with hfull
    · exact hs1.verify sha1 t hnd flushOk (List.getElem?_set_self (List.getElem?_eq_some_iff.mp hp).1)
        hfull (hqi.trans hpi).symm (hps.resolve_right hnv)
    · exact hs1

end

theorem SlotInv.addHeld (h : SlotInv order s) {slot ref : Nat} {m : Piece}
    (hr : s.requests[slot]? = some (some ref)) (hm : (s.pieces[ref]?).map (·.index) = some m.index) :
    SlotInv order { s with held := s.held ++ [⟨slot, ref, m⟩] } := by
  refine ⟨h.1, h.2, h.3, h.4, h.5, h.6, h.7, fun x hx => ?_, h.9, h.10, h.11⟩
  rcases List.mem_append.mp hx with hx | hx
  · exact h.held x hx
  · rw [List.mem_singleton.mp hx]
    obtain ⟨p, hp, hpi⟩ := Option.map_eq_some'.mp hm
    exact ⟨p, hp, hpi, .inl hr⟩

section
variable (sha1 : Bytes → Bytes) (t : MetaInfo)

theorem SlotInv.step (h : SlotInv order s) (hnd : order.Nodup) {a : Action} {s' : Engine}
    (hs : s.step sha1 t a = some s') : SlotInv order s' := by
  obtain ⟨-, ⟨d, rfl⟩ | ⟨sent, hs⟩ | ⟨-, rfl⟩ | ⟨slot, ref, m, hr, hm, rfl⟩ | ⟨k, hd, ok, hk, rfl⟩⟩ :=
    Engine.step_cases sha1 t hs
  · exact h.update _ _ _ _
  · exact h.schedule t hnd hs
  · exact h.withSched trivial
  · exact h.addHeld hr hm
  · exact (h.eraseHeld k).receive sha1 t hnd ok (h.held hd (List.mem_iff_getElem?.mpr ⟨k, hk⟩))

theorem reachable_slotInv {slots : Nat} {d0 : Int} (hnd : order.Nodup)
    (hs : Reachable sha1 t slots order d0 s) : SlotInv order s := by
  induction hs with
  | init => exact slotInv_init slots d0
  | step _ hstep ih => exact ih.step sha1 t hnd hstep

end

/-- The guarantees of the slot table in one state, for the queue `order`. -/
structure SlotTableSound (order : List UInt32) (s : Engine) : Prop where
  /-- Occupied slots hold pieces of pairwise distinct indices. -/
  distinct : ∀ (i j ri rj : Nat) (p q : PendingPiece), s.requests[i]? = some (some ri) → s.requests[j]? = some (some rj) →
    s.pieces[ri]? = some p → s.pieces[rj]? = some q → i ≠ j → p.index ≠ q.index
  /-- A piece in a slot is neither still queued nor verified. -/
  fresh : ∀ (i r : Nat) (p : PendingPiece), s.requests[i]? = some (some r) → s.pieces[r]? = some p →
    p.index ∉ s.unverified ∧ p.index ∉ s.verified
  /-- Every index is admitted at most once. -/
  admittedOnce : (s.pieces.map (·.index)).Nodup
  /-- Every index is flushed successfully, set in `t.BitField` and announced at most once. -/
  verifiedOnce : s.verified.Nodup
  /-- The release `CompareAndSwap(piece, nil)` never fails. -/
  noCasFailure : s.casFailures = 0
  /-- `completed` is closed only once every queued index is verified. -/
  completed : s.sched = .completed → ∀ i ∈ order, i ∈ s.verified

theorem SlotInv.sound (h : SlotInv order s) (hnd : order.Nodup) : SlotTableSound order s := by
  have hnd' := h.index_nodup hnd
  have hpm : ∀ r p, s.pieces[r]? = some p → p ∈ s.pieces := fun r p hp => List.mem_iff_getElem?.mpr ⟨r, hp⟩
  refine ⟨fun i j ri rj p q hi hj hp hq hij he => hij ?_, fun i r p hi hp => ⟨fun hu => ?_, ?_⟩,
    (List.nodup_append.mp hnd').1, h.verified_nodup, h.noCasFailure, fun hc x hx => ?_⟩
  · have := h.ref_eq_of_index hnd hp hq he
    subst this
    exact h.ref_inj _ _ _ hi hj
  · exact (List.nodup_append.mp hnd').2.2 (List.mem_map_of_mem _ (hpm r p hp)) hu
  · exact (h.occupied r p hp).mp ⟨i, hi⟩
  · have hok := h.sched
    unfold SchedOk at hok
    rw [hc] at hok
    obtain ⟨hu, hnone⟩ := hok
    have hx' := h.perm.symm.subset hx
    rw [hu, List.append_nil] at hx'
    obtain ⟨p, hp, rfl⟩ := List.mem_map.mp hx'
    obtain ⟨r, hr⟩ := List.mem_iff_getElem?.mp hp
    by_contra hv
    obtain ⟨i, hi⟩ := (h.occupied r p hr).mpr hv
    exact absurd (hnone _ (List.mem_iff_getElem?.mpr ⟨i, hi⟩)) (by simp)

section
variable (sha1 : Bytes → Bytes) (t : MetaInfo)

/-- Over every interleaving of the scheduler with any number of workers, whatever the peers send
and whatever `Flush` and the hash say, the slot table keeps each piece unique and signals
completion only when it is true. -/
theorem slot_table_sound {slots : Nat} {d0 : Int} (hnd : order.Nodup)
    (hs : Reachable sha1 t slots order d0 s) : SlotTableSound order s :=
  (reachable_slotInv sha1 t hnd hs).sound hnd

end

theorem slot_table_sound_after_one_byte : [(0 : UInt32)].Nodup ∧ SlotTableSound [0] oneByteVerified :=
  ⟨by decide, slot_table_sound emptyDigest (oneByteTorrent emptyDigest) (by decide) reachable_oneByteVerified⟩

end TinyTorrent
