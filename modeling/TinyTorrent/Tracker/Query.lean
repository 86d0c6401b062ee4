import TinyTorrent.Primitives
import Mathlib.Data.List.Basic
import Mathlib.Data.List.Perm.Basic
import Mathlib.Data.List.Nodup
import Mathlib.Data.List.Sort

/-!
# Query strings

The part of Go's `net/url` that builds and reads an announce query: `QueryEscape`, `QueryUnescape`,
`Values.Set`, `Values.Encode` and `ParseQuery`, on byte strings as Go's strings are. The main
result is the round trip: `ParseQuery` gives back, key for key, every `Values` that `Encode`
wrote, whatever bytes its keys and values hold.
-/

namespace TinyTorrent

/-- `shouldEscape(c, encodeQueryComponent)`: everything but letters, digits and `-_.~`. -/
def shouldEscape (c : UInt8) : Bool :=
  !((97 ≤ c.toNat && c.toNat ≤ 122) || (65 ≤ c.toNat && c.toNat ≤ 90) || (48 ≤ c.toNat && c.toNat ≤ 57) ||
    c.toNat == 45 || c.toNat == 95 || c.toNat == 46 || c.toNat == 126)

def upperhex (n : Nat) : UInt8 := if n < 10 then (48 + n).toUInt8 else (55 + n).toUInt8

/-- One byte of `escape(s, encodeQueryComponent)`: a space becomes `+`, a byte to escape
`%` and its two upper-case hex digits (`upperhex[c>>4]`, `upperhex[c&15]`). -/
def escapeByte (c : UInt8) : Bytes :=
  if c = 32 then [43]
  else if shouldEscape c then [37, upperhex (c.toNat / 16), upperhex (c.toNat % 16)]
  else [c]

/-- `url.QueryEscape`. -/
def queryEscape (s : Bytes) : Bytes := s.flatMap escapeByte

def ishex (c : UInt8) : Bool :=
  (48 ≤ c.toNat && c.toNat ≤ 57) || (97 ≤ c.toNat && c.toNat ≤ 102) || (65 ≤ c.toNat && c.toNat ≤ 70)

def unhex (c : UInt8) : Nat :=
  if 48 ≤ c.toNat ∧ c.toNat ≤ 57 then c.toNat - 48
  else if 97 ≤ c.toNat ∧ c.toNat ≤ 102 then c.toNat - 87
  else if 65 ≤ c.toNat ∧ c.toNat ≤ 70 then c.toNat - 55
  else 0

/-- `url.QueryUnescape`, the two passes of `unescape(s, encodeQueryComponent)` in one: the first
bad `%` escape fails with `EscapeError` of at most three bytes from it, `+` reads as a space. -/
def queryUnescape : Bytes → Except Bytes Bytes
  | [] => .ok []
  | c :: s =>
    if c = 37 then
      match s with
      | a :: b :: rest =>
        if ishex a && ishex b then (queryUnescape rest).map ((unhex a * 16 + unhex b).toUInt8 :: ·)
        else .error [37, a, b]
      | s => .error (37 :: s)
    else (queryUnescape s).map ((if c = 43 then 32 else c) :: ·)

theorem queryUnescape_percent (a b : UInt8) (rest : Bytes) :
    queryUnescape (37 :: a :: b :: rest) = if ishex a && ishex b then
      (queryUnescape rest).map ((unhex a * 16 + unhex b).toUInt8 :: ·) else .error [37, a, b] := rfl

theorem queryUnescape_cons {c : UInt8} (h : c ≠ 37) (s : Bytes) :
    queryUnescape (c :: s) = (queryUnescape s).map ((if c = 43 then 32 else c) :: ·) := by
  rw [queryUnescape.eq_def]; simp only [if_neg h]

/-- `url.Values`: each key once, with its values. -/
abbrev Values := List (Bytes × List Bytes)

/-- `v.Set(key, value)`. -/
def Values.set : Values → Bytes → Bytes → Values
  | [], k, x => [(k, [x])]
  | e :: v, k, x => if e.1 = k then (k, [x]) :: v else e :: Values.set v k x

/-- `m[key] = append(m[key], value)`. -/
def Values.add : Values → Bytes → Bytes → Values
  | [], k, x => [(k, [x])]
  | e :: v, k, x => if e.1 = k then (e.1, e.2 ++ [x]) :: v else e :: Values.add v k x

/-- The entries in the order of their keys, as `Encode` visits them (any sort orders distinct keys
alike). -/
def Values.sorted (v : Values) : Values := v.insertionSort fun a b => a.1 ≤ b.1

/-- `Values.Encode`: `key=value` pairs, escaped, keys in sorted order, joined by `&`. -/
def Values.encode (v : Values) : Bytes :=
  [38].intercalate ((Values.sorted v).flatMap fun e =>
    e.2.map fun x => queryEscape e.1 ++ 61 :: queryEscape x)

/-- The errors of `ParseQuery`: an `EscapeError`, or "invalid semicolon separator in query". -/
inductive QueryError where
  | escape (s : Bytes)
  | semicolon
  deriving DecidableEq

/-- One turn of the loop of `parseQuery` on the next `&`-separated `key`: a semicolon sets the
error, an empty key is skipped, a key or value that does not unescape sets the error unless one is
set already, and otherwise the value is appended to the key's. -/
def parseQueryStep (acc : Values × Option QueryError) (key : Bytes) : Values × Option QueryError :=
  if 59 ∈ key then (acc.1, some .semicolon)
  else if key = [] then acc
  else
    match queryUnescape (key.takeWhile (· ≠ 61)) with
    | .error e => (acc.1, acc.2.or (some (.escape e)))
    | .ok k =>
      match queryUnescape ((key.dropWhile (· ≠ 61)).drop 1) with
      | .error e => (acc.1, acc.2.or (some (.escape e)))
      | .ok x => (Values.add acc.1 k x, acc.2)

/-- `url.ParseQuery`: the keys `strings.Cut` takes off the query one after another are its
`&`-separated segments (the loop skips the empty ones either way). -/
def parseQuery (query : Bytes) : Values × Option QueryError :=
  (query.splitOn 38).foldl parseQueryStep ([], none)

theorem unhex_upperhex : ∀ n < 16, ishex (upperhex n) = true ∧ unhex (upperhex n) = n := by
  decide

theorem queryUnescape_escapeByte (c : UInt8) (rest : Bytes) :
    queryUnescape (escapeByte c ++ rest) = (queryUnescape rest).map (c :: ·) := by
  have hc : c.toNat < 256 := c.toNat_lt_size
  unfold escapeByte
  split_ifs with h32 hs
  · subst h32; exact queryUnescape_cons (by decide) rest
  · obtain ⟨h1, h2⟩ := unhex_upperhex (c.toNat / 16) (by omega)
    obtain ⟨h3, h4⟩ := unhex_upperhex (c.toNat % 16) (by omega)
    rw [List.cons_append, List.cons_append, List.cons_append, List.nil_append, queryUnescape_percent,
      h1, h3, h2, h4, Nat.div_add_mod', toUInt8_toNat]
    rfl
  · have h37 : c ≠ 37 := by rintro rfl; exact absurd hs (by decide)
    have h43 : c ≠ 43 := by rintro rfl; exact absurd hs (by decide)
    rw [List.singleton_append, queryUnescape_cons h37, if_neg h43]

theorem queryUnescape_queryEscape (s : Bytes) : queryUnescape (queryEscape s) = .ok s := by
  induction s with
  | nil => rfl
  | cons c s ih => rw [queryEscape, List.flatMap_cons, queryUnescape_escapeByte, ← queryEscape, ih]; rfl

theorem not_mem_escapeByte (c : UInt8) {b : UInt8} (hb : b = 38 ∨ b = 59 ∨ b = 61) :
    b ∉ escapeByte c := by
  have hl : b ≠ 37 ∧ ∀ n < 16, b ≠ upperhex n := by rcases hb with rfl | rfl | rfl <;> decide
  have hc : c.toNat < 256 := c.toNat_lt_size
  unfold escapeByte
  split_ifs with h32 hs
  · rcases hb with rfl | rfl | rfl <;> decide
  · simp only [List.mem_cons, not_or]
    exact ⟨hl.1, hl.2 _ (by omega), hl.2 _ (by omega), List.not_mem_nil _⟩
  · simp only [List.mem_singleton]
    rintro rfl
    rcases hb with rfl | rfl | rfl <;> exact absurd hs (by decide)

theorem not_mem_queryEscape (s : Bytes) {b : UInt8} (hb : b = 38 ∨ b = 59 ∨ b = 61) :
    b ∉ queryEscape s := by
  simp only [queryEscape, List.mem_flatMap, not_exists, not_and]
  exact fun c _ => not_mem_escapeByte c hb

section Values
variable {v : Values} {k : Bytes}

theorem Values.add_of_not_mem (h : k ∉ v.map Prod.fst) (x : Bytes) : Values.add v k x = v ++ [(k, [x])] := by
  induction v with
  | nil => rfl
  | cons e v ih =>
    simp only [List.map_cons, List.mem_cons, not_or] at h
    simp only [Values.add, if_neg (Ne.symm h.1), ih h.2, List.cons_append]

theorem Values.add_last (h : k ∉ v.map Prod.fst) (xs : List Bytes) (x : Bytes) :
    Values.add (v ++ [(k, xs)]) k x = v ++ [(k, xs ++ [x])] := by
  induction v with
  | nil => simp [Values.add]
  | cons e v ih =>
    simp only [List.map_cons, List.mem_cons, not_or] at h
    show Values.add (e :: (v ++ [(k, xs)])) k x = _
    rw [Values.add, if_neg (Ne.symm h.1), ih h.2]; rfl

theorem Values.set_of_not_mem (h : k ∉ v.map Prod.fst) (x : Bytes) : Values.set v k x = v ++ [(k, [x])] := by
  induction v with
  | nil => rfl
  | cons e v ih =>
    simp only [List.map_cons, List.mem_cons, not_or] at h
    simp only [Values.set, if_neg (Ne.symm h.1), ih h.2, List.cons_append]

theorem lookup_eq_some_iff_mem (hnd : (v.map Prod.fst).Nodup) {x : List Bytes} :
    v.lookup k = some x ↔ (k, x) ∈ v := by
  induction v with
  | nil => simp
  | cons e v ih =>
    obtain ⟨a, b⟩ := e
    simp only [List.map_cons, List.nodup_cons] at hnd
    by_cases hk : k = a
    · subst hk
      have : (k, x) ∉ v := fun hm => hnd.1 (List.mem_map.mpr ⟨_, hm, rfl⟩)
      simp [this, eq_comm]
    · simp [List.lookup_cons, beq_false_of_ne hk, hk, ih hnd.2]

theorem lookup_eq_of_perm {v w : Values} (hp : v.Perm w) (hnd : (v.map Prod.fst).Nodup) (k : Bytes) :
    v.lookup k = w.lookup k := by
  refine Option.ext fun x => ?_
  show v.lookup k = some x ↔ w.lookup k = some x
  rw [lookup_eq_some_iff_mem hnd, lookup_eq_some_iff_mem ((hp.map Prod.fst).nodup_iff.mp hnd), hp.mem_iff]

end Values

def pairSegment (e : Bytes × Bytes) : Bytes := queryEscape e.1 ++ 61 :: queryEscape e.2

theorem parseQueryStep_pairSegment (acc : Values × Option QueryError) (e : Bytes × Bytes) :
    parseQueryStep acc (pairSegment e) = (Values.add acc.1 e.1 e.2, acc.2) := by
  have h61 : ∀ b ∈ queryEscape e.1, decide (b ≠ 61) = true := fun b hb =>
    decide_eq_true fun h => not_mem_queryEscape e.1 (.inr (.inr h)) (h ▸ hb)
  have h59 : 59 ∉ pairSegment e := by
    simp only [pairSegment, List.mem_append, List.mem_cons, not_or]
    exact ⟨not_mem_queryEscape _ (.inr (.inl rfl)), by decide, not_mem_queryEscape _ (.inr (.inl rfl))⟩
  rw [parseQueryStep, if_neg h59, if_neg (by simp [pairSegment]), pairSegment,
    List.takeWhile_append_of_pos h61, List.dropWhile_append_of_pos h61]
  simp [List.takeWhile, List.dropWhile, queryUnescape_queryEscape]

def addPairs (v : Values) (ps : List (Bytes × Bytes)) : Values := ps.foldl (fun v e => Values.add v e.1 e.2) v

theorem parseQuery_intercalate (ps : List (Bytes × Bytes)) :
    parseQuery ([38].intercalate (ps.map pairSegment)) = (addPairs [] ps, none) := by
  have hfold : ∀ (ps : List (Bytes × Bytes)) (acc : Values × Option QueryError),
      (ps.map pairSegment).foldl parseQueryStep acc = (addPairs acc.1 ps, acc.2) := by
    intro ps
    induction ps with
    | nil => intro; rfl
    | cons e ps ih => intro acc; simp only [List.map_cons, List.foldl_cons, parseQueryStep_pairSegment, ih]; rfl
  rcases ps with _ | ⟨e, ps⟩
  · rfl
  · rw [parseQuery, List.splitOn_intercalate _ _ (fun l hl => ?_) (by simp), hfold]
    obtain ⟨e, -, rfl⟩ := List.mem_map.mp hl
    simp only [pairSegment, List.mem_append, List.mem_cons, not_or]
    exact ⟨not_mem_queryEscape _ (.inl rfl), by decide, not_mem_queryEscape _ (.inl rfl)⟩

def Values.pairs (v : Values) : List (Bytes × Bytes) := v.flatMap fun e => e.2.map (e.1, ·)

theorem addPairs_key {v : Values} {k : Bytes} (h : k ∉ v.map Prod.fst) :
    ∀ (xs ys : List Bytes), addPairs (v ++ [(k, ys)]) (xs.map (k, ·)) = v ++ [(k, ys ++ xs)]
  | [], ys => by simp [addPairs]
  | x :: xs, ys => by
    rw [List.map_cons, addPairs, List.foldl_cons, ← addPairs, Values.add_last h, addPairs_key h xs]
    simp

theorem addPairs_pairs : ∀ {v w : Values}, ((v ++ w).map Prod.fst).Nodup → (∀ e ∈ w, e.2 ≠ []) →
    addPairs v (Values.pairs w) = v ++ w
  | v, [], _, _ => by simp [addPairs, Values.pairs]
  | v, ⟨k, xs⟩ :: w, hnd, hne => by
    obtain ⟨x, xs, rfl⟩ := List.exists_cons_of_ne_nil (hne _ (List.mem_cons_self _ _))
    have hk : k ∉ v.map Prod.fst := fun hk =>
      (List.nodup_append.mp (List.map_append _ _ _ ▸ hnd)).2.2 hk (List.mem_cons_self _ _)
    have hv : addPairs v ((k, x) :: xs.map (k, ·)) = v ++ [(k, x :: xs)] := by
      rw [addPairs, List.foldl_cons, ← addPairs, Values.add_of_not_mem hk, addPairs_key hk]; rfl
    rw [Values.pairs, List.flatMap_cons, ← Values.pairs, addPairs, List.foldl_append, ← addPairs,
      ← addPairs, List.map_cons, hv, addPairs_pairs (by simpa using hnd) fun e he => hne e (List.mem_cons_of_mem _ he)]
    simp

theorem Values.encode_eq (v : Values) :
    Values.encode v = [38].intercalate ((Values.pairs (Values.sorted v)).map pairSegment) := by
  simp [Values.encode, Values.pairs, pairSegment, List.map_flatMap, Function.comp_def]

theorem parseQuery_encode {v : Values} (hnd : (v.map Prod.fst).Nodup) (hne : ∀ e ∈ v, e.2 ≠ []) :
    parseQuery (Values.encode v) = (Values.sorted v, none) := by
  have hp : (Values.sorted v).Perm v := List.perm_insertionSort _ _
  rw [Values.encode_eq, parseQuery_intercalate,
    addPairs_pairs (by simpa using (hp.map Prod.fst).nodup_iff.mpr hnd) fun e he => hne e (hp.subset he)]
  rfl

theorem lookup_parseQuery_encode {v : Values} (hnd : (v.map Prod.fst).Nodup) (hne : ∀ e ∈ v, e.2 ≠ [])
    (k : Bytes) : (parseQuery (Values.encode v)).1.lookup k = v.lookup k := by
  rw [parseQuery_encode hnd hne]
  exact lookup_eq_of_perm (List.perm_insertionSort _ _) ((List.perm_insertionSort _ _).map Prod.fst |>.nodup_iff.mpr hnd) k

end TinyTorrent
