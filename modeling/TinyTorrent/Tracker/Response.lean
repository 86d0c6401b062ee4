import TinyTorrent.Primitives

/-!
# Tracker responses

`DecodeTrackerResponse`: the bencoded dictionary a tracker answers with, read into a
`TrackerResponse`. The peers come either as a list of dictionaries or, compact, as one byte string
of 6-byte records; decoding the compact form gives back every peer that was encoded, in order.
-/

namespace TinyTorrent

/-- Modelled from the spec: `bencoding.Value`, whose package is not in the source: a byte string,
a signed 64-bit integer, a list of values, or a dictionary from byte-string keys to values. -/
inductive Value where
  | byteString (s : Bytes)
  | integer (i : Int)
  | list (vs : List Value)
  | dictionary (d : List (Bytes × Value))

/-- `%T` of a value: the pointer type the decoder returns it as. -/
def Value.goType : Value → Bytes
  | .byteString _ => ascii "*bencoding.ByteString"
  | .integer _ => ascii "*bencoding.Integer"
  | .list _ => ascii "*bencoding.List"
  | .dictionary _ => ascii "*bencoding.Dictionary"

def Value.asByteString : Value → Option Bytes
  | .byteString s => some s
  | _ => none

def Value.asInteger : Value → Option Int
  | .integer i => some i
  | _ => none

/-- The parts of package `bencoding` that `DecodeTrackerResponse` calls and the source does not
hold: `Decode` on the body, and the `%v` text of a value's `Type()`. -/
structure Bencoding where
  decode : Bytes → Except Bytes Value
  typeText : Value → Bytes

structure PeerInfo where
  peerID : Bytes
  ip : Bytes
  port : Int
  deriving DecidableEq

/-- `TrackerResponse`; `default` is Go's zero value. -/
structure TrackerResponse where
  failureReason : Option Bytes := none
  warningMessage : Option Bytes := none
  interval : Option Int := none
  minInterval : Option Int := none
  trackerID : Option Bytes := none
  complete : Option Int := none
  incomplete : Option Int := none
  peers : List PeerInfo := []
  deriving DecidableEq, Inhabited

/-- One optional field of the response: absent, it leaves `out` as it is; present, it must cast
to the field's type, or the error names the field and the value's `%T`. -/
def optionalField {α : Type} (d : List (Bytes × Value)) (key name typeName : String)
    (cast : Value → Option α) (set : TrackerResponse → α → TrackerResponse) (out : TrackerResponse) :
    Except Bytes TrackerResponse :=
  match d.lookup (ascii key) with
  | none => .ok out
  | some v =>
    match cast v with
    | some x => .ok (set out x)
    | none => .error (ascii ("expected " ++ name ++ " to be of type " ++ typeName ++ " but was ") ++
        v.goType ++ ascii ": ")

/-- `net.IP(peer[:4]).String()` of a 4-byte address: the dotted quad. -/
def dottedQuad (a b c d : UInt8) : Bytes :=
  ascii (toString a.toNat ++ "." ++ toString b.toNat ++ "." ++ toString c.toNat ++ "." ++ toString d.toNat)

/-- The loop over the compact records, 6 bytes each: the address and the big-endian port. -/
def compactPeers : Bytes → List PeerInfo
  | a :: b :: c :: d :: hi :: lo :: rest => ⟨[], dottedQuad a b c d, hi.toNat * 256 + lo.toNat⟩ :: compactPeers rest
  | _ => []

/-- One peer dictionary of the non-compact form. Go's `peer, ok := peer.(*bencoding.Dictionary)`
shadows `peer` with the failed assertion's nil, so `%T` prints the dictionary type whatever the
value was. -/
def decodePeer : Value → Except Bytes PeerInfo
  | .dictionary d => do
    let peerID ← match d.lookup (ascii "peer id") with
      | none => pure []
      | some (.byteString s) => pure s
      | some v => .error (ascii "expected peer_id to be of type Bytestring but was " ++ v.goType ++ ascii ": ")
    match d.lookup (ascii "ip") with
    | none => .error (ascii "no ip listed for peer, inside peers list")
    | some (.byteString ip) =>
      match d.lookup (ascii "port") with
      | none => .error (ascii "no port listed for peer, inside peers list")
      | some (.integer port) => pure ⟨peerID, ip, port⟩
      | some v => .error (ascii "expected peer_port to be of type Integer but was " ++ v.goType ++ ascii ": ")
    | some v => .error (ascii "expected peer_ip to be of type Bytestring but was " ++ v.goType ++ ascii ": ")
  | _ => .error (ascii "expected peer to be of type Dictionary but was *bencoding.Dictionary: ")

def decodePeers (d : List (Bytes × Value)) (out : TrackerResponse) : Except Bytes TrackerResponse :=
  match d.lookup (ascii "peers") with
  | none => .ok out
  | some (.list vs) => (vs.mapM decodePeer).map fun ps => { out with peers := out.peers ++ ps }
  | some (.byteString s) =>
    if s.length % 6 ≠ 0 then
      .error (ascii "expected length of compact to be a multiple of 6 but got " ++ formatInt s.length)
    else .ok { out with peers := out.peers ++ compactPeers s }
  | some v => .error (ascii "peers were nor dictionary or bytestring type, got " ++ v.goType)

/-- `DecodeTrackerResponse(src, out)`, returning the filled `out` or the error. -/
def decodeTrackerResponse (bc : Bencoding) (src : Bytes) (out : TrackerResponse) :
    Except Bytes TrackerResponse :=
  match bc.decode src with
  | .error e => .error (ascii "failed to decode body: " ++ e)
  | .ok (.dictionary d) =>
    match d.lookup (ascii "failure reason") with
    | some (.byteString s) => .ok { out with failureReason := some s }
    | some v => .error (ascii "expected failure_reason to be of type Bytestring but was " ++ v.goType ++ ascii ": ")
    | none => do
      let out ← optionalField d "warning message" "warning_message" "Bytestring" Value.asByteString
        (fun o x => { o with warningMessage := some x }) out
      let out ← optionalField d "interval" "interval" "Integer" Value.asInteger
        (fun o x => { o with interval := some x }) out
      let out ← optionalField d "min interval" "min_interval" "Integer" Value.asInteger
        (fun o x => { o with minInterval := some x }) out
      let out ← optionalField d "tracker id" "tracker_id" "Bytestring" Value.asByteString
        (fun o x => { o with trackerID := some x }) out
      let out ← optionalField d "complete" "complete" "Integer" Value.asInteger
        (fun o x => { o with complete := some x }) out
      let out ← optionalField d "incomplete" "incomplete" "Integer" Value.asInteger
        (fun o x => { o with incomplete := some x }) out
      decodePeers d out
  | .ok v => .error (ascii "expected response to be of type dictionary but got " ++ bc.typeText v)

def fieldTyped {α : Type} (d : List (Bytes × Value)) (key : String) (cast : Value → Option α) : Bool :=
  match d.lookup (ascii key) with
  | none => true
  | some v => (cast v).isSome

/-- The schema keys other than `failure reason` and `peers` hold values of their types. -/
def SchemaTyped (d : List (Bytes × Value)) : Prop :=
  fieldTyped d "warning message" Value.asByteString = true ∧ fieldTyped d "interval" Value.asInteger = true ∧
    fieldTyped d "min interval" Value.asInteger = true ∧ fieldTyped d "tracker id" Value.asByteString = true ∧
    fieldTyped d "complete" Value.asInteger = true ∧ fieldTyped d "incomplete" Value.asInteger = true

instance (d : List (Bytes × Value)) : Decidable (SchemaTyped d) := inferInstanceAs (Decidable (_ ∧ _))

theorem optionalField_ok {α : Type} {d : List (Bytes × Value)} {key : String} (name typeName : String)
    {cast : Value → Option α} (set : TrackerResponse → α → TrackerResponse)
    (hset : ∀ o x, (set o x).peers = o.peers) (h : fieldTyped d key cast = true) (out : TrackerResponse) :
    ∃ out', optionalField d key name typeName cast set out = .ok out' ∧ out'.peers = out.peers := by
  unfold fieldTyped at h
  unfold optionalField
  split
  · exact ⟨out, rfl, rfl⟩
  · rename_i v hv
    rw [hv] at h
    obtain ⟨x, hx⟩ := Option.isSome_iff_exists.mp h
    exact ⟨set out x, by rw [hx], hset out x⟩

theorem decodeTrackerResponse_eq_decodePeers {bc : Bencoding} {src : Bytes} {d : List (Bytes × Value)}
    (hsrc : bc.decode src = .ok (.dictionary d)) (hfr : d.lookup (ascii "failure reason") = none)
    (hty : SchemaTyped d) (out₀ : TrackerResponse) :
    ∃ out, decodeTrackerResponse bc src out₀ = decodePeers d out ∧ out.peers = out₀.peers := by
  obtain ⟨h1, h2, h3, h4, h5, h6⟩ := hty
  obtain ⟨o1, e1, p1⟩ := optionalField_ok "warning_message" "Bytestring"
    (fun o x => { o with warningMessage := some x }) (fun _ _ => rfl) h1 out₀
  obtain ⟨o2, e2, p2⟩ := optionalField_ok "interval" "Integer"
    (fun o x => { o with interval := some x }) (fun _ _ => rfl) h2 o1
  obtain ⟨o3, e3, p3⟩ := optionalField_ok "min_interval" "Integer"
    (fun o x => { o with minInterval := some x }) (fun _ _ => rfl) h3 o2
  obtain ⟨o4, e4, p4⟩ := optionalField_ok "tracker_id" "Bytestring"
    (fun o x => { o with trackerID := some x }) (fun _ _ => rfl) h4 o3
  obtain ⟨o5, e5, p5⟩ := optionalField_ok "complete" "Integer"
    (fun o x => { o with complete := some x }) (fun _ _ => rfl) h5 o4
  obtain ⟨o6, e6, p6⟩ := optionalField_ok "incomplete" "Integer"
    (fun o x => { o with incomplete := some x }) (fun _ _ => rfl) h6 o5
  refine ⟨o6, ?_, by rw [p6, p5, p4, p3, p2, p1]⟩
  simp only [decodeTrackerResponse, hsrc, hfr, bind, Except.bind, e1, e2, e3, e4, e5, e6]

abbrev CompactPeer := UInt8 × UInt8 × UInt8 × UInt8 × UInt16

def compactRecord : CompactPeer → Bytes
  | (a, b, c, d, port) => [a, b, c, d, (port.toNat / 256).toUInt8, (port.toNat % 256).toUInt8]

def encodeCompact (ps : List CompactPeer) : Bytes := ps.flatMap compactRecord

/-- The entry a compact peer stands for: no peer id, the dotted quad `a.b.c.d` in decimal and the
port. -/
def CompactPeer.info : CompactPeer → PeerInfo
  | (a, b, c, d, port) =>
    ⟨[], natDecimal a.toNat ++ 46 :: natDecimal b.toNat ++ 46 :: natDecimal c.toNat ++ 46 :: natDecimal d.toNat,
      port.toNat⟩

theorem dottedQuad_eq (a b c d : UInt8) : dottedQuad a b c d =
    natDecimal a.toNat ++ 46 :: natDecimal b.toNat ++ 46 :: natDecimal c.toNat ++ 46 :: natDecimal d.toNat := by
  simp only [dottedQuad, ascii_append, toString, ascii_repr, List.append_assoc]
  rfl

theorem length_encodeCompact (ps : List CompactPeer) : (encodeCompact ps).length = 6 * ps.length := by
  induction ps with
  | nil => rfl
  | cons p ps ih =>
    rw [encodeCompact, List.flatMap_cons, List.length_append, ← encodeCompact, ih]
    simp only [compactRecord, List.length_cons, List.length_nil]
    omega

theorem compactPeers_encodeCompact (ps : List CompactPeer) :
    compactPeers (encodeCompact ps) = ps.map CompactPeer.info := by
  induction ps with
  | nil => rfl
  | cons p ps ih =>
    obtain ⟨a, b, c, d, port⟩ := p
    have hp : port.toNat < 65536 := port.toNat_lt_size
    have hhi : (port.toNat / 256).toUInt8.toNat = port.toNat / 256 :=
      UInt8.toNat_ofNat_of_lt (show port.toNat / 256 < 256 by omega)
    have hlo : (port.toNat % 256).toUInt8.toNat = port.toNat % 256 :=
      UInt8.toNat_ofNat_of_lt (show port.toNat % 256 < 256 by omega)
    have hport : ((port.toNat / 256 : Nat) : Int) * 256 + ((port.toNat % 256 : Nat) : Int) = port.toNat := by
      omega
    show compactPeers (compactRecord (a, b, c, d, port) ++ encodeCompact ps) = _
    rw [compactRecord, List.cons_append, List.cons_append, List.cons_append, List.cons_append, List.cons_append,
      List.cons_append, List.nil_append, compactPeers, ih, hhi, hlo, hport, dottedQuad_eq]
    rfl

example : compactPeers [1, 2, 3, 4, 0x1A, 0xE1, 5, 6, 7, 8, 0x1A, 0xE2] =
    [⟨[], ascii "1.2.3.4", 6881⟩, ⟨[], ascii "5.6.7.8", 6882⟩] := by decide

/-- Compact peer decoding undoes compact encoding: a well-typed response without a failure reason
whose `peers` string encodes a list of peers decodes to exactly those peers, in order; a `peers`
string whose length is not a multiple of 6 is an error. -/
theorem decodeTrackerResponse_compact {bc : Bencoding} {src : Bytes} {d : List (Bytes × Value)}
    (hsrc : bc.decode src = .ok (.dictionary d)) (hfr : d.lookup (ascii "failure reason") = none)
    (hty : SchemaTyped d) :
    (∀ ps : List CompactPeer, d.lookup (ascii "peers") = some (.byteString (encodeCompact ps)) →
      ∃ out, decodeTrackerResponse bc src default = .ok out ∧ out.peers = ps.map CompactPeer.info) ∧
    (∀ s : Bytes, d.lookup (ascii "peers") = some (.byteString s) → s.length % 6 ≠ 0 →
      ∃ e, decodeTrackerResponse bc src default = .error e) := by
  obtain ⟨out, hd, hp⟩ := decodeTrackerResponse_eq_decodePeers hsrc hfr hty default
  refine ⟨fun ps hps => ?_, fun s hs h6 => ?_⟩
  · have h6 : ¬(encodeCompact ps).length % 6 ≠ 0 := by rw [length_encodeCompact]; omega
    refine ⟨_, by rw [hd, decodePeers, hps]; simp only [if_neg h6]; rfl, ?_⟩
    rw [hp, compactPeers_encodeCompact]; rfl
  · exact ⟨_, by rw [hd, decodePeers, hs]; simp only [if_pos h6]; rfl⟩

def twoPeersAnswer : List (Bytes × Value) :=
  [(ascii "interval", .integer 1800), (ascii "peers", .byteString [1, 2, 3, 4, 0x1A, 0xE1, 5, 6, 7, 8, 0x1A, 0xE2])]

def twoPeersDecoder : Bencoding := ⟨fun _ => .ok (.dictionary twoPeersAnswer), fun _ => []⟩

theorem decodeTrackerResponse_twoPeers :
    twoPeersDecoder.decode [] = .ok (.dictionary twoPeersAnswer) ∧
      twoPeersAnswer.lookup (ascii "failure reason") = none ∧ SchemaTyped twoPeersAnswer ∧
      (∀ ps : List CompactPeer, twoPeersAnswer.lookup (ascii "peers") = some (.byteString (encodeCompact ps)) →
        ∃ out, decodeTrackerResponse twoPeersDecoder [] default = .ok out ∧ out.peers = ps.map CompactPeer.info) ∧
      (∀ s : Bytes, twoPeersAnswer.lookup (ascii "peers") = some (.byteString s) → s.length % 6 ≠ 0 →
        ∃ e, decodeTrackerResponse twoPeersDecoder [] default = .error e) :=
  ⟨rfl, rfl, by decide, @decodeTrackerResponse_compact twoPeersDecoder [] twoPeersAnswer rfl rfl (by decide)⟩

end TinyTorrent
