import TinyTorrent.Tracker.Schema

/-!
# Decoding into a used response

`DecodeTrackerResponse(src, out)` writes the answer it decodes over `*out`: a stale `FailureReason`
survives a successful answer and a tracker id sent once is kept (`decodeTrackerResponse_reuses_out`).
-/

namespace TinyTorrent

/-- `r` written over `out`: each field `r` sets replaces `out`'s, the others keep `out`'s, and `r`'s
peers come after `out`'s. -/
def TrackerResponse.overlay (out r : TrackerResponse) : TrackerResponse :=
  ⟨r.failureReason.or out.failureReason, r.warningMessage.or out.warningMessage, r.interval.or out.interval,
    r.minInterval.or out.minInterval, r.trackerID.or out.trackerID, r.complete.or out.complete,
    r.incomplete.or out.incomplete, out.peers ++ r.peers⟩

@[simp] theorem TrackerResponse.overlay_default (out : TrackerResponse) : out.overlay default = out := by
  cases out
  exact congrArg (TrackerResponse.mk _ _ _ _ _ _ _) (List.append_nil _)

/-- A decoding step that works on a used `out` as on the answer it writes: run on `out.overlay o` it
gives `out` overlaid on its result from `o`, or the same error. -/
def OverlayStable (out : TrackerResponse) (g : TrackerResponse → Except Bytes TrackerResponse) : Prop :=
  ∀ o, g (out.overlay o) = (g o).map out.overlay

theorem OverlayStable.bind {out : TrackerResponse} {g h : TrackerResponse → Except Bytes TrackerResponse}
    (hg : OverlayStable out g) (hh : OverlayStable out h) : OverlayStable out fun o => g o >>= h := by
  intro o
  dsimp only
  rw [hg o]
  cases g o with
  | error e => rfl
  | ok a => exact hh a

theorem optionalField_overlayStable {α : Type} (out : TrackerResponse) (d : List (Bytes × Value))
    (key name typeName : String) (cast : Value → Option α) (set : TrackerResponse → α → TrackerResponse)
    (hset : ∀ o x, set (out.overlay o) x = out.overlay (set o x)) :
    OverlayStable out (optionalField d key name typeName cast set) := by
  intro o
  unfold optionalField
  split
  · rfl
  · split
    · exact congrArg Except.ok (hset o _)
    · rfl

theorem decodePeers_overlayStable (out : TrackerResponse) (d : List (Bytes × Value)) :
    OverlayStable out (decodePeers d) := by
  intro o
  unfold decodePeers
  split
  · rfl
  · cases List.mapM decodePeer _ with
    | error e => rfl
    | ok ps => exact congrArg Except.ok (by simp only [TrackerResponse.overlay, List.append_assoc])
  · split
    · rfl
    · exact congrArg Except.ok (by simp only [TrackerResponse.overlay, List.append_assoc])
  · rfl

/-- `DecodeTrackerResponse` into any `out` writes the answer it decodes into a zero `out` over
`out`: present keys replace their fields, absent keys leave them, the peers are appended, a failure
reason sets only `FailureReason`; and it fails with the same error. -/
theorem decodeTrackerResponse_reuses_out (bc : Bencoding) (src : Bytes) (out : TrackerResponse) :
    decodeTrackerResponse bc src out = (decodeTrackerResponse bc src default).map out.overlay := by
  conv_lhs => rw [← out.overlay_default]
  unfold decodeTrackerResponse
  split
  · rfl
  · split
    · rfl
    · rfl
    · refine (OverlayStable.bind (optionalField_overlayStable out _ _ _ _ _ _ fun _ _ => rfl) <|
        OverlayStable.bind (optionalField_overlayStable out _ _ _ _ _ _ fun _ _ => rfl) <|
        OverlayStable.bind (optionalField_overlayStable out _ _ _ _ _ _ fun _ _ => rfl) <|
        OverlayStable.bind (optionalField_overlayStable out _ _ _ _ _ _ fun _ _ => rfl) <|
        OverlayStable.bind (optionalField_overlayStable out _ _ _ _ _ _ fun _ _ => rfl) <|
        OverlayStable.bind (optionalField_overlayStable out _ _ _ _ _ _ fun _ _ => rfl) <|
        decodePeers_overlayStable out _) default
  · rfl

/-- Decoding the peer-list answer into an `out` that holds a failure reason keeps the reason. -/
example : (decodeTrackerResponse listPeerDecoder [] { failureReason := some [] }).map (·.failureReason) =
    .ok (some []) := by
  rfl

end TinyTorrent
