import TinyTorrent.Tracker.Response

/-!
# The response schema

`DecodeTrackerResponse` succeeds on exactly the values of the response schema and fills a zero
`out` with the value under each key (`decodeTrackerResponse_schema`).
-/

namespace TinyTorrent

def fieldValue {α : Type} (d : List (Bytes × Value)) (key : String) (cast : Value → Option α) : Option α :=
  (d.lookup (ascii key)).bind cast

/-- A peer of the schema: a dictionary with a byte-string `ip`, an integer `port` and, if present,
a byte-string `peer id`. -/
def peerEntryTyped : Value → Bool
  | .dictionary d => fieldTyped d "peer id" Value.asByteString &&
      (fieldValue d "ip" Value.asByteString).isSome && (fieldValue d "port" Value.asInteger).isSome
  | _ => false

def peerEntry : Value → PeerInfo
  | .dictionary d => ⟨(fieldValue d "peer id" Value.asByteString).getD [],
      (fieldValue d "ip" Value.asByteString).getD [], (fieldValue d "port" Value.asInteger).getD 0⟩
  | _ => ⟨[], [], 0⟩

/-- `peers`, if present, is a string of 6-byte records or a list of schema peers. -/
def peersTyped (d : List (Bytes × Value)) : Bool :=
  match d.lookup (ascii "peers") with
  | none => true
  | some (.byteString s) => s.length % 6 == 0
  | some (.list vs) => vs.all peerEntryTyped
  | some _ => false

def schemaPeers (d : List (Bytes × Value)) : List PeerInfo :=
  match d.lookup (ascii "peers") with
  | some (.byteString s) => compactPeers s
  | some (.list vs) => vs.map peerEntry
  | _ => []

/-- The responses of the schema: a dictionary with a byte-string `failure reason`, or a dictionary
without one whose other keys have their types. -/
def acceptedResponse : Value → Bool
  | .dictionary d =>
    match d.lookup (ascii "failure reason") with
    | some (.byteString _) => true
    | some _ => false
    | none => decide (SchemaTyped d) && peersTyped d
  | _ => false

/-- The response a schema value stands for: the failure reason alone, or each field the value
under its key. -/
def responseOf : Value → TrackerResponse
  | .dictionary d =>
    match d.lookup (ascii "failure reason") with
    | some (.byteString s) => { failureReason := some s }
    | _ =>
      { warningMessage := fieldValue d "warning message" Value.asByteString
        interval := fieldValue d "interval" Value.asInteger
        minInterval := fieldValue d "min interval" Value.asInteger
        trackerID := fieldValue d "tracker id" Value.asByteString
        complete := fieldValue d "complete" Value.asInteger
        incomplete := fieldValue d "incomplete" Value.asInteger
        peers := schemaPeers d }
  | _ => default

theorem optionalField_typed {α : Type} {d : List (Bytes × Value)} {key : String} (name typeName : String)
    {cast : Value → Option α} (upd : TrackerResponse → Option α → TrackerResponse) (out : TrackerResponse)
    (hn : upd out none = out) (h : fieldTyped d key cast = true) :
    optionalField d key name typeName cast (fun o x => upd o (some x)) out = .ok (upd out (fieldValue d key cast)) := by
  unfold fieldTyped at h
  unfold optionalField fieldValue
  split
  · rename_i hk; rw [hk, Option.none_bind, hn]
  · rename_i v hk
    rw [hk] at h
    obtain ⟨x, hx⟩ := Option.isSome_iff_exists.mp h
    rw [hk, Option.some_bind, hx]

theorem Except.bind_eq_ok {ε α β : Type} {x : Except ε α} {f : α → Except ε β} {b : β}
    (h : x >>= f = .ok b) : ∃ a, x = .ok a ∧ f a = .ok b := by
  cases x with
  | error e => cases h
  | ok a => exact ⟨a, rfl, h⟩

@[simp] theorem Value.asByteString_eq_some {v : Value} {s : Bytes} : v.asByteString = some s ↔ v = .byteString s := by
  cases v <;> simp [Value.asByteString]

@[simp] theorem Value.asInteger_eq_some {v : Value} {i : Int} : v.asInteger = some i ↔ v = .integer i := by
  cases v <;> simp [Value.asInteger]

theorem fieldValue_byteString {d : List (Bytes × Value)} {key : String} {s : Bytes} :
    fieldValue d key Value.asByteString = some s ↔ d.lookup (ascii key) = some (.byteString s) := by
  simp [fieldValue, Option.bind_eq_some]

theorem fieldValue_integer {d : List (Bytes × Value)} {key : String} {i : Int} :
    fieldValue d key Value.asInteger = some i ↔ d.lookup (ascii key) = some (.integer i) := by
  simp [fieldValue, Option.bind_eq_some]

theorem decodePeer_typed {v : Value} (h : peerEntryTyped v = true) : decodePeer v = .ok (peerEntry v) := by
  cases v with
  | dictionary d =>
    simp only [peerEntryTyped, Bool.and_eq_true, Option.isSome_iff_exists] at h
    obtain ⟨⟨hid, ip, hip⟩, port, hport⟩ := h
    rw [fieldValue_byteString] at hip
    rw [fieldValue_integer] at hport
    unfold fieldTyped at hid
    split at hid
    · rename_i hn
      simp only [decodePeer, peerEntry, fieldValue, hn, hip, hport]
      rfl
    · rename_i w hw
      obtain ⟨x, hx⟩ := Option.isSome_iff_exists.mp hid
      rw [Value.asByteString_eq_some] at hx
      subst hx
      simp only [decodePeer, peerEntry, fieldValue, hw, hip, hport]
      rfl
  | _ => cases h

theorem peerEntryTyped_of_decodePeer {v : Value} {p : PeerInfo} (h : decodePeer v = .ok p) :
    peerEntryTyped v = true := by
  cases v with
  | dictionary d =>
    simp only [decodePeer] at h
    split at h
    case h_3 => cases h
    all_goals
      rename_i hpid
      have hid : fieldTyped d "peer id" Value.asByteString = true := by
        simp [fieldTyped, hpid, Value.asByteString]
      simp only [pure_bind] at h
      split at h
      · cases h
      · rename_i ip hip
        split at h
        · cases h
        · rename_i port hport
          simp [peerEntryTyped, hid, fieldValue, hip, hport, Value.asByteString, Value.asInteger]
        · cases h
      · cases h
  | _ => cases h

theorem mapM_decodePeer_typed : ∀ {vs : List Value}, vs.all peerEntryTyped = true →
    vs.mapM decodePeer = .ok (vs.map peerEntry)
  | [], _ => rfl
  | v :: vs, h => by
    simp only [List.all_cons, Bool.and_eq_true] at h
    rw [List.mapM_cons, decodePeer_typed h.1, mapM_decodePeer_typed h.2]
    rfl

theorem all_peerEntryTyped_of_mapM : ∀ {vs : List Value} {ps : List PeerInfo},
    vs.mapM decodePeer = .ok ps → vs.all peerEntryTyped = true
  | [], _, _ => rfl
  | v :: vs, ps, h => by
    rw [List.mapM_cons] at h
    obtain ⟨p, hp, h⟩ := Except.bind_eq_ok h
    obtain ⟨qs, hqs, -⟩ := Except.bind_eq_ok h
    simp [peerEntryTyped_of_decodePeer hp, all_peerEntryTyped_of_mapM hqs]

theorem decodePeers_typed {d : List (Bytes × Value)} (h : peersTyped d = true) (out : TrackerResponse) :
    decodePeers d out = .ok { out with peers := out.peers ++ schemaPeers d } := by
  unfold peersTyped at h
  unfold decodePeers schemaPeers
  cases hp : d.lookup (ascii "peers") with
  | none => simp
  | some v =>
    rw [hp] at h
    cases v with
    | byteString s => simp only [beq_iff_eq] at h; simp [h]
    | list vs => simp only [mapM_decodePeer_typed h]; rfl
    | _ => cases h

theorem peersTyped_of_decodePeers {d : List (Bytes × Value)} {out o : TrackerResponse}
    (h : decodePeers d out = .ok o) : peersTyped d = true := by
  unfold decodePeers at h
  unfold peersTyped
  split at h
  · rename_i hp; rw [hp]
  · rename_i vs hp
    rw [hp]
    cases hm : vs.mapM decodePeer with
    | error e => rw [hm] at h; cases h
    | ok ps => exact all_peerEntryTyped_of_mapM hm
  · rename_i s hp
    rw [hp]
    split_ifs at h with h6
    simpa using h6
  · cases h

theorem fieldTyped_of_optionalField {α : Type} {d : List (Bytes × Value)} {key name typeName : String}
    {cast : Value → Option α} {set : TrackerResponse → α → TrackerResponse} {out o : TrackerResponse}
    (h : optionalField d key name typeName cast set out = .ok o) : fieldTyped d key cast = true := by
  unfold optionalField at h
  unfold fieldTyped
  split at h
  · rfl
  · split at h
    · rename_i x hx; simp [hx]
    · cases h

theorem decodeTrackerResponse_accepted {bc : Bencoding} {src : Bytes} {v : Value}
    (hsrc : bc.decode src = .ok v) (h : acceptedResponse v = true) :
    decodeTrackerResponse bc src default = .ok (responseOf v) := by
  cases v with
  | dictionary d =>
    simp only [decodeTrackerResponse, hsrc]
    cases hfr : d.lookup (ascii "failure reason") with
    | none =>
      simp only [acceptedResponse, hfr, Bool.and_eq_true, decide_eq_true_eq] at h
      obtain ⟨⟨h1, h2, h3, h4, h5, h6⟩, hp⟩ := h
      simp only [responseOf, hfr]
      rw [optionalField_typed "warning_message" "Bytestring" (fun o y => { o with warningMessage := y }) _ ?_ h1]
      simp only [bind, Except.bind]
      rw [optionalField_typed "interval" "Integer" (fun o y => { o with interval := y }) _ ?_ h2]
      simp only
      rw [optionalField_typed "min_interval" "Integer" (fun o y => { o with minInterval := y }) _ ?_ h3]
      simp only
      rw [optionalField_typed "tracker_id" "Bytestring" (fun o y => { o with trackerID := y }) _ ?_ h4]
      simp only
      rw [optionalField_typed "complete" "Integer" (fun o y => { o with complete := y }) _ ?_ h5]
      simp only
      rw [optionalField_typed "incomplete" "Integer" (fun o y => { o with incomplete := y }) _ ?_ h6]
      simp only
      rw [decodePeers_typed hp]
      all_goals rfl
    | some w =>
      cases w with
      | byteString s => simp only [responseOf, hfr]; rfl
      | _ => simp [acceptedResponse, hfr] at h
  | _ => simp [acceptedResponse] at h

theorem acceptedResponse_of_ok {bc : Bencoding} {src : Bytes} {v : Value} {out₀ out : TrackerResponse}
    (hsrc : bc.decode src = .ok v) (h : decodeTrackerResponse bc src out₀ = .ok out) :
    acceptedResponse v = true := by
  simp only [decodeTrackerResponse, hsrc] at h
  cases v with
  | dictionary d =>
    simp only at h
    split at h
    · rename_i s hfr; simp [acceptedResponse, hfr]
    · cases h
    · rename_i hfr
      obtain ⟨o1, h1, h⟩ := Except.bind_eq_ok h
      obtain ⟨o2, h2, h⟩ := Except.bind_eq_ok h
      obtain ⟨o3, h3, h⟩ := Except.bind_eq_ok h
      obtain ⟨o4, h4, h⟩ := Except.bind_eq_ok h
      obtain ⟨o5, h5, h⟩ := Except.bind_eq_ok h
      obtain ⟨o6, h6, h⟩ := Except.bind_eq_ok h
      simp only [acceptedResponse, hfr, SchemaTyped, fieldTyped_of_optionalField h1, fieldTyped_of_optionalField h2,
        fieldTyped_of_optionalField h3, fieldTyped_of_optionalField h4, fieldTyped_of_optionalField h5,
        fieldTyped_of_optionalField h6, peersTyped_of_decodePeers h, and_self, decide_True, Bool.and_self]
  | _ => cases h

/-- `DecodeTrackerResponse` into a zero `out` succeeds on exactly the responses of the schema, and
fills `out` with the response each stands for: the failure reason alone, or every field the value
under its key, unknown keys ignored, and the peers in order, one entry per peer dictionary. -/
theorem decodeTrackerResponse_schema {bc : Bencoding} {src : Bytes} {v : Value} (hsrc : bc.decode src = .ok v) :
    (acceptedResponse v = true → decodeTrackerResponse bc src default = .ok (responseOf v)) ∧
      (acceptedResponse v = false → ∃ e, decodeTrackerResponse bc src default = .error e) := by
  refine ⟨decodeTrackerResponse_accepted hsrc, fun h => ?_⟩
  cases hd : decodeTrackerResponse bc src default with
  | error e => exact ⟨e, rfl⟩
  | ok out => rw [acceptedResponse_of_ok hsrc hd] at h; cases h

/-- A tracker answer with an interval, a tracker id, an unknown key and one peer dictionary. -/
def listPeerAnswer : List (Bytes × Value) :=
  [(ascii "interval", .integer 1800), (ascii "tracker id", .byteString (ascii "t")), (ascii "x", .list []),
   (ascii "peers", .list [.dictionary [(ascii "ip", .byteString (ascii "1.2.3.4")), (ascii "port", .integer 6881)]])]

def listPeerDecoder : Bencoding := ⟨fun _ => .ok (.dictionary listPeerAnswer), fun _ => []⟩

example : acceptedResponse (.dictionary listPeerAnswer) = true ∧
    responseOf (.dictionary listPeerAnswer) =
      { interval := some 1800, trackerID := some (ascii "t"), peers := [⟨[], ascii "1.2.3.4", 6881⟩] } := by
  decide

theorem decodeTrackerResponse_listPeer :
    listPeerDecoder.decode [] = .ok (.dictionary listPeerAnswer) ∧
      (acceptedResponse (.dictionary listPeerAnswer) = true →
        decodeTrackerResponse listPeerDecoder [] default = .ok (responseOf (.dictionary listPeerAnswer))) ∧
      (acceptedResponse (.dictionary listPeerAnswer) = false →
        ∃ e, decodeTrackerResponse listPeerDecoder [] default = .error e) :=
  ⟨rfl, decodeTrackerResponse_schema rfl⟩

/-- A tracker answer whose `failure reason` is an integer, and nothing else. -/
def integerFailureAnswer : List (Bytes × Value) := [(ascii "failure reason", .integer 0)]

def integerFailureDecoder : Bencoding := ⟨fun _ => .ok (.dictionary integerFailureAnswer), fun _ => []⟩

/-- A dictionary whose optional keys and peers all meet the schema (they are absent) is still
rejected when its `failure reason` is not a byte string. -/
theorem integer_failure_reason_rejected :
    SchemaTyped integerFailureAnswer ∧ peersTyped integerFailureAnswer = true ∧
      ∃ e, decodeTrackerResponse integerFailureDecoder [] default = .error e :=
  ⟨by decide, rfl, _, rfl⟩

end TinyTorrent
