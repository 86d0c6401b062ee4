import TinyTorrent.Tracker.Query

/-!
# Announce parameters

`TrackerRequestParams` of package `client` and `RequestParams` of package `tracker`, with their
`Validate` and `Encode`. The validations agree; the encoders differ in the names `numwant` and
`trackerid` and in whether empty strings are sent.
-/

namespace TinyTorrent

/-- `tracker.RequestParams`; Go's strings are byte strings, `int64`s integers. -/
structure RequestParams where
  infoHash : Bytes
  peerID : Bytes
  port : Int
  uploaded : Int
  downloaded : Int
  left : Int
  compact : Option Int
  noPeerId : Option Int
  event : Option Bytes
  ip : Option Bytes
  numWant : Option Int
  key : Option Bytes
  trackerID : Option Bytes
  deriving DecidableEq

/-- `client.TrackerRequestParams`: the same fields, with the port and the counters optional. -/
structure TrackerRequestParams where
  infoHash : Bytes
  peerID : Bytes
  port : Option Int
  uploaded : Option Int
  downloaded : Option Int
  left : Option Int
  compact : Option Int
  noPeerId : Option Int
  event : Option Bytes
  ip : Option Bytes
  numWant : Option Int
  key : Option Bytes
  trackerID : Option Bytes
  deriving DecidableEq

/-- `StartedEvent`, `StoppedEvent` and `CompletedEvent`. -/
def trackerEvents : List Bytes := [ascii "started", ascii "stopped", ascii "completed"]

/-- Modelled from the spec: the constants `EventStarted`, `EventStopped` and `EventCompleted` of
package `tracker` are not in the source; the parameter table names the events `started`, `stopped`
and `completed`. -/
def requestEvents : List Bytes := [ascii "started", ascii "stopped", ascii "completed"]

/-- The checks of `Validate`, in its order, for both parameter types: `port` is the port when one
is set, `events` the known events, `parseIP` whether `net.ParseIP` accepts. The first failing check
is the error, as the early returns have it. -/
def validateParams (parseIP : Bytes → Bool) (events : List Bytes) (infoHash peerID : Bytes)
    (port compact noPeerId : Option Int) (event ip : Option Bytes) (numWant : Option Int) :
    Option Bytes :=
  [if infoHash = [] then some (ascii "info_hash is required") else none,
   if peerID = [] then some (ascii "peer_id is required") else none,
   if port = some 0 then some (ascii "port specified but provided value 0") else none,
   compact.bind fun c =>
     if c ≠ 1 ∧ c ≠ 0 then some (ascii "compact specified but invalid provided value " ++ formatInt c)
     else none,
   noPeerId.bind fun n =>
     if n ≠ 1 ∧ n ≠ 0 then some (ascii "no_peer_id specified but provided value " ++ formatInt n)
     else if compact.isSome then some (ascii "cannot have both no_peer_id and compact specified")
     else none,
   event.bind fun e => if e ∈ events then none else some (ascii "unknown event " ++ e),
   ip.bind fun a => if parseIP a then none else some (ascii "invalid ip " ++ a),
   numWant.bind fun n =>
     if n < 0 then some (ascii "num_want " ++ formatInt n ++ ascii " cannot be negative") else none
  ].findSome? id

/-- `TrackerRequestParams.Validate`; `none` is a nil error. -/
def TrackerRequestParams.validate (parseIP : Bytes → Bool) (p : TrackerRequestParams) : Option Bytes :=
  validateParams parseIP trackerEvents p.infoHash p.peerID p.port p.compact p.noPeerId p.event p.ip
    p.numWant

/-- `RequestParams.Validate`: the port is always there, so its check is `p.Port == 0`. -/
def RequestParams.validate (parseIP : Bytes → Bool) (q : RequestParams) : Option Bytes :=
  validateParams parseIP requestEvents q.infoHash q.peerID (some q.port) q.compact q.noPeerId q.event
    q.ip q.numWant

/-- The optional `values.Set(key, value)` calls of an encoder, one row per `if`: the row's value
is set when there is one. -/
def setAll (v : Values) : List (Bytes × Option Bytes) → Values
  | [] => v
  | (k, x) :: rows => setAll (match x with | some x => Values.set v k x | none => v) rows

/-- A string option that counts only when it is not empty: `p.F != nil && *p.F != ""`. -/
def nonEmpty (x : Option Bytes) : Option Bytes := x.filter fun s => !s.isEmpty

/-- The `url.Values` that `RequestParams.Encode` builds: `strconv.FormatInt` for the required
counters, `strconv.Itoa` for the optional numbers (the same decimal text for an `int64` on 64-bit
platforms). -/
def RequestParams.values (q : RequestParams) : Values :=
  setAll
    [(ascii "info_hash", [q.infoHash]), (ascii "peer_id", [q.peerID]), (ascii "port", [formatInt q.port]),
     (ascii "uploaded", [formatInt q.uploaded]), (ascii "downloaded", [formatInt q.downloaded]),
     (ascii "left", [formatInt q.left])]
    [(ascii "compact", q.compact.map formatInt), (ascii "no_peer_id", q.noPeerId.map formatInt),
     (ascii "event", nonEmpty q.event), (ascii "ip", nonEmpty q.ip),
     (ascii "numwant", q.numWant.map formatInt), (ascii "key", nonEmpty q.key),
     (ascii "trackerid", nonEmpty q.trackerID)]

def RequestParams.encode (q : RequestParams) : Bytes := Values.encode q.values

def TrackerRequestParams.values (p : TrackerRequestParams) : Values :=
  setAll [(ascii "info_hash", [p.infoHash]), (ascii "peer_id", [p.peerID])]
    [(ascii "port", p.port.map formatInt), (ascii "uploaded", p.uploaded.map formatInt),
     (ascii "downloaded", p.downloaded.map formatInt), (ascii "left", p.left.map formatInt),
     (ascii "compact", p.compact.map formatInt), (ascii "no_peer_id", p.noPeerId.map formatInt),
     (ascii "event", p.event), (ascii "ip", p.ip), (ascii "num_want", p.numWant.map formatInt),
     (ascii "key", p.key), (ascii "tracker_id", p.trackerID)]

def TrackerRequestParams.encode (p : TrackerRequestParams) : Bytes := Values.encode p.values

def rowEntry (r : Bytes × Option Bytes) : Option (Bytes × List Bytes) := r.2.map fun x => (r.1, [x])

theorem setAll_eq : ∀ {v : Values} {rows : List (Bytes × Option Bytes)},
    (v.map Prod.fst ++ rows.map Prod.fst).Nodup → setAll v rows = v ++ rows.filterMap rowEntry
  | v, [], _ => by simp [setAll]
  | v, (k, x) :: rows, hnd => by
    have hk : k ∉ v.map Prod.fst := fun hk => List.nodup_append.mp hnd |>.2.2 hk (List.mem_cons_self _ _)
    cases x with
    | none =>
      rw [setAll, setAll_eq (hnd.sublist (List.Sublist.append_left (List.sublist_cons_self _ _) _))]
      simp [rowEntry]
    | some x =>
      rw [setAll, Values.set_of_not_mem hk, setAll_eq (by simpa using hnd)]
      simp [rowEntry]

theorem keys_filterMap_rowEntry_sublist :
    ∀ rows : List (Bytes × Option Bytes), ((rows.filterMap rowEntry).map Prod.fst).Sublist (rows.map Prod.fst)
  | [] => List.Sublist.slnil
  | (_, none) :: rows => (keys_filterMap_rowEntry_sublist rows).cons _
  | (_, some _) :: rows => (keys_filterMap_rowEntry_sublist rows).cons₂ _

theorem nodup_keys_filterMap_rowEntry {v : Values} {rows : List (Bytes × Option Bytes)}
    (hnd : (v.map Prod.fst ++ rows.map Prod.fst).Nodup) : ((v ++ rows.filterMap rowEntry).map Prod.fst).Nodup :=
  hnd.sublist (List.map_append _ _ _ ▸ (keys_filterMap_rowEntry_sublist rows).append_left _)

theorem singleton_of_mem_filterMap_rowEntry {rows : List (Bytes × Option Bytes)} {e : Bytes × List Bytes}
    (he : e ∈ rows.filterMap rowEntry) : e.2 ≠ [] := by
  obtain ⟨r, -, hr⟩ := List.mem_filterMap.mp he
  obtain ⟨x, -, rfl⟩ := Option.map_eq_some'.mp hr
  simp

def setAndNonEmpty : Option Bytes → Option Bytes
  | some (c :: s) => some (c :: s)
  | _ => none

/-- The announce parameters of `q`, as the parameter table lists them: the required ones always,
`compact`, `no_peer_id` and `numwant` when set, `event`, `ip`, `key` and `trackerid` when set and
not empty; numbers in decimal. -/
def announceParams (q : RequestParams) : Values :=
  [(ascii "info_hash", [q.infoHash]), (ascii "peer_id", [q.peerID]), (ascii "port", [decimal q.port]),
   (ascii "uploaded", [decimal q.uploaded]), (ascii "downloaded", [decimal q.downloaded]),
   (ascii "left", [decimal q.left])] ++
  [(ascii "compact", q.compact.map decimal), (ascii "no_peer_id", q.noPeerId.map decimal),
   (ascii "numwant", q.numWant.map decimal), (ascii "event", setAndNonEmpty q.event),
   (ascii "ip", setAndNonEmpty q.ip), (ascii "key", setAndNonEmpty q.key),
   (ascii "trackerid", setAndNonEmpty q.trackerID)].filterMap rowEntry

theorem nonEmpty_eq (x : Option Bytes) : nonEmpty x = setAndNonEmpty x := by
  rcases x with _ | _ | ⟨c, s⟩ <;> rfl

theorem RequestParams.values_perm (q : RequestParams) : q.values.Perm (announceParams q) := by
  rw [RequestParams.values, setAll_eq (by simp only [List.map_cons, List.map_nil, List.cons_append, List.nil_append]; decide), announceParams,
    show formatInt = decimal from funext formatInt_eq_decimal]
  simp only [nonEmpty_eq]
  refine List.Perm.append_left _ ((List.Perm.filterMap _ ?_))
  refine List.Perm.cons _ (List.Perm.cons _ ?_)
  exact ((List.Perm.swap _ _ _).cons _).trans (List.Perm.swap _ _ _)

theorem RequestParams.values_nodup (q : RequestParams) : (q.values.map Prod.fst).Nodup := by
  rw [RequestParams.values, setAll_eq (by simp only [List.map_cons, List.map_nil, List.cons_append, List.nil_append]; decide)]
  exact nodup_keys_filterMap_rowEntry (by simp only [List.map_cons, List.map_nil, List.cons_append, List.nil_append]; decide)

theorem RequestParams.values_ne (q : RequestParams) : ∀ e ∈ q.values, e.2 ≠ [] := by
  rw [RequestParams.values, setAll_eq (by simp only [List.map_cons, List.map_nil, List.cons_append, List.nil_append]; decide)]
  intro e he
  rcases List.mem_append.mp he with he | he
  · simp at he; rcases he with rfl | rfl | rfl | rfl | rfl | rfl <;> simp
  · exact singleton_of_mem_filterMap_rowEntry he

/-- Every announce parameter survives the query: `ParseQuery` reads from `q.Encode()`, without
error, exactly the parameters of `q`, key for key. -/
theorem parseQuery_encode_announceParams (q : RequestParams) :
    (parseQuery q.encode).2 = none ∧ ∀ k, (parseQuery q.encode).1.lookup k = (announceParams q).lookup k := by
  refine ⟨by rw [RequestParams.encode, parseQuery_encode q.values_nodup q.values_ne], fun k => ?_⟩
  rw [RequestParams.encode, lookup_parseQuery_encode q.values_nodup q.values_ne]
  exact lookup_eq_of_perm q.values_perm q.values_nodup k

/-- The `TrackerRequestParams` of the same announce as `q`: its fields, with the port and the
counters pointing to `q`'s. -/
def TrackerRequestParams.ofRequestParams (q : RequestParams) : TrackerRequestParams :=
  ⟨q.infoHash, q.peerID, some q.port, some q.uploaded, some q.downloaded, some q.left, q.compact,
    q.noPeerId, q.event, q.ip, q.numWant, q.key, q.trackerID⟩

def tenPeersAnnounce : RequestParams :=
  ⟨ascii "a", ascii "b", 6881, 0, 0, 0, none, none, none, none, some 10, none, none⟩

/-- Both validations accept `tenPeersAnnounce`, but only `RequestParams.Encode` asks for the peers
under the name `numwant`. -/
theorem encoders_disagree_on_numwant (parseIP : Bytes → Bool) :
    tenPeersAnnounce.validate parseIP = none ∧
      (TrackerRequestParams.ofRequestParams tenPeersAnnounce).validate parseIP = none ∧
      tenPeersAnnounce.encode = ascii "downloaded=0&info_hash=a&left=0&numwant=10&peer_id=b&port=6881&uploaded=0" ∧
      (TrackerRequestParams.ofRequestParams tenPeersAnnounce).encode =
        ascii "downloaded=0&info_hash=a&left=0&num_want=10&peer_id=b&port=6881&uploaded=0" :=
  ⟨rfl, rfl, rfl, rfl⟩

end TinyTorrent
