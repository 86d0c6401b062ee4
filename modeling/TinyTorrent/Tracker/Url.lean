import TinyTorrent.Tracker.Request

/-!
# The announce URL

`CreateRequest` builds its request from `fmt.Sprintf("%s?%s", announce, params.Encode())`, which
`url.Parse` checks and cuts at `#` and `?`. Behind a URL with neither, the request fails exactly when
the URL does and otherwise carries the parameters (`createRequest_plain_announce`); behind a query
or a fragment the parameters are mangled (`announce_url_query_mangled`).
-/

namespace TinyTorrent

/-- `strings.Cut(s, sep)` for a one-byte separator: the bytes before its first occurrence, and
those after it when it occurs. -/
def cut (sep : UInt8) : Bytes → Bytes × Option Bytes
  | [] => ([], none)
  | c :: s => if c = sep then ([], some s) else (c :: (cut sep s).1, (cut sep s).2)

/-- What `url.Parse` splits a URL into: `target`, the text before the query, from which it
parses the scheme, the host and the path; the raw query; and the fragment. -/
structure UrlParts where
  target : Bytes
  rawQuery : Bytes
  fragment : Bytes
  deriving DecidableEq

/-- `url.Parse`: `strings.Cut(rawURL, "#")` takes the fragment off, then `strings.Cut(rest, "?")`
the query. A scheme holds no `?`, so cutting what follows it is cutting the whole. -/
def parseURL (raw : Bytes) : UrlParts :=
  ⟨(cut 63 (cut 35 raw).1).1, ((cut 63 (cut 35 raw).1).2).getD [], ((cut 35 raw).2).getD []⟩

def UrlParts.query (u : UrlParts) : Values := (parseQuery u.rawQuery).1

/-- The URL of the request of `CreateRequest`: `fmt.Sprintf("%s?%s", announce, params.Encode())`. -/
def requestURL (announce : Bytes) (q : RequestParams) : Bytes := announce ++ 63 :: q.encode

def isAlpha (c : UInt8) : Bool := (97 ≤ c.toNat && c.toNat ≤ 122) || (65 ≤ c.toNat && c.toNat ≤ 90)

def isDigit (c : UInt8) : Bool := 48 ≤ c.toNat && c.toNat ≤ 57

def isCTL (c : UInt8) : Bool := c.toNat < 32 || c.toNat == 127

/-- The loop of `getScheme` after the scheme bytes `acc`: `some none` where it returns
`"", rawURL, nil`, `some (some (scheme, rest))` at the first `:` after a scheme, `none` for
"missing protocol scheme". -/
def scanScheme (acc : Bytes) : Bytes → Option (Option (Bytes × Bytes))
  | [] => some none
  | c :: s =>
    if isAlpha c then scanScheme (acc ++ [c]) s
    else if isDigit c || c = 43 || c = 45 || c = 46 then
      if acc = [] then some none else scanScheme (acc ++ [c]) s
    else if c = 58 then (if acc = [] then none else some (some (acc, s)))
    else some none

def hostSafe : Bytes := [33, 36, 38, 39, 40, 41, 42, 43, 44, 59, 61, 58, 91, 93, 60, 62, 34, 45, 95, 46, 126]

/-- `shouldEscape(c, encodeHost)`, which is also `shouldEscape(c, encodeZone)`. -/
def hostShouldEscape (c : UInt8) : Bool := !(isAlpha c || isDigit c || c ∈ hostSafe)

inductive EscapeMode where
  | plain
  | host
  | zone
  deriving DecidableEq

/-- `unescape(s, mode)` returns no error: every `%` has two hex digits after it; in a host a `%`
escape is `%25` or stands for a non-ASCII byte, and an ASCII byte needs no escape; in a zone an
escape other than `%25` and a space stands for a byte a host may hold. -/
def unescapeOk (mode : EscapeMode) : Bytes → Bool
  | [] => true
  | c :: s =>
    if c = 37 then
      match s with
      | a :: b :: s' =>
        ishex a && ishex b &&
          (mode ≠ .host || 8 ≤ unhex a || (a = 50 && b = 53)) &&
          (mode ≠ .zone || (a = 50 && b = 53) || unhex a * 16 + unhex b = 32 ||
            !hostShouldEscape (unhex a * 16 + unhex b).toUInt8) &&
          unescapeOk mode s'
      | _ => false
    else (mode = .plain || 128 ≤ c.toNat || !hostShouldEscape c) && unescapeOk mode s

def validOptionalPort : Bytes → Bool
  | [] => true
  | c :: s => c = 58 && s.all isDigit

def lastCut (sep : UInt8) (s : Bytes) : Option (Bytes × Bytes) :=
  (cut sep s.reverse).2.map fun before => (before.reverse, (cut sep s.reverse).1.reverse)

def cutPct25 : Bytes → Option (Bytes × Bytes)
  | [] => none
  | c :: s => if c = 37 ∧ s.take 2 = [50, 53] then some ([], c :: s) else (cutPct25 s).map fun p => (c :: p.1, p.2)

/-- `parseHost` returns no error. -/
def parseHostOk (host : Bytes) : Bool :=
  if host.head? = some 91 then
    match lastCut 93 host with
    | none => false
    | some (inner, colonPort) =>
      validOptionalPort colonPort &&
        match cutPct25 inner with
        | some (h1, h2) => unescapeOk .host h1 && unescapeOk .zone h2 && unescapeOk .host (93 :: colonPort)
        | none => unescapeOk .host host
  else
    (match lastCut 58 host with
     | some (_, port) => validOptionalPort (58 :: port)
     | none => true) && unescapeOk .host host

def userinfoSafe : Bytes := [45, 46, 95, 58, 126, 33, 36, 38, 39, 40, 41, 42, 43, 44, 59, 61, 37, 64]

/-- `parseAuthority` returns no error: the host after the last `@`, and the userinfo before it. -/
def parseAuthorityOk (authority : Bytes) : Bool :=
  match lastCut 64 authority with
  | none => parseHostOk authority
  | some (userinfo, host) =>
    parseHostOk host && userinfo.all (fun c => isAlpha c || isDigit c || c ∈ userinfoSafe) &&
      unescapeOk .plain userinfo

/-- The rest of `parse` after the scheme and the query: a rootless path after a scheme is opaque; a
relative path may not start with a segment holding `:`; `//` starts an authority; the path must
unescape. -/
def parsePathOk (scheme rest : Bytes) : Bool :=
  if rest.head? ≠ some 47 ∧ scheme ≠ [] then true
  else if rest.head? ≠ some 47 ∧ 58 ∈ (cut 47 rest).1 then false
  else if (scheme ≠ [] ∨ ¬[47, 47, 47].isPrefixOf rest) ∧ [47, 47].isPrefixOf rest then
    parseAuthorityOk (cut 47 (rest.drop 2)).1 &&
      unescapeOk .plain (((cut 47 (rest.drop 2)).2.map (47 :: ·)).getD [])
  else unescapeOk .plain rest

/-- `parse` past its `*` case: `getScheme`, then the rest cut at the first `?`; the query is not
checked. -/
def parseRestOk (raw : Bytes) : Bool :=
  match scanScheme [] raw with
  | none => false
  | some none => parsePathOk [] (cut 63 raw).1
  | some (some (scheme, rest)) => parsePathOk scheme (cut 63 rest).1

/-- `parse(rawURL, false)` returns no error. -/
def parseOk (raw : Bytes) : Bool := !raw.any isCTL && (raw = [42] || parseRestOk raw)

/-- `url.Parse(rawURL)` returns no error. -/
def urlParses (raw : Bytes) : Bool :=
  parseOk (cut 35 raw).1 && ((cut 35 raw).2.map (unescapeOk .plain)).getD true

example : urlParses (ascii "http://bttracker.debian.org:6969/announce") = true ∧
    urlParses (ascii "http://a/%zz") = false ∧ urlParses (ascii "http://a:b/announce") = false ∧
    urlParses (ascii ":announce") = false := by
  decide

/-- `CreateRequest` up to the HTTP round trip: the error of `Validate`, the error of `url.Parse` on
the request's URL, or the parsed URL of the request it sends. -/
def createRequest (parseIP : Bytes → Bool) (announce : Bytes) (q : RequestParams) : Except Bytes UrlParts :=
  match q.validate parseIP with
  | some e => .error (ascii "invalid params: " ++ e)
  | none =>
    if urlParses (requestURL announce q) then .ok (parseURL (requestURL announce q))
    else .error (ascii "failed to create request")

section Cut
variable {sep : UInt8}

theorem cut_append_of_not_mem {u : Bytes} (h : sep ∉ u) (v : Bytes) :
    cut sep (u ++ v) = (u ++ (cut sep v).1, (cut sep v).2) := by
  induction u with
  | nil => rfl
  | cons c u ih =>
    simp only [List.mem_cons, not_or] at h
    rw [List.cons_append, cut, if_neg (Ne.symm h.1), ih h.2]
    rfl

theorem cut_append_of_mem {u : Bytes} (h : sep ∈ u) (v : Bytes) :
    cut sep (u ++ v) = ((cut sep u).1, (cut sep u).2.map (· ++ v)) := by
  induction u with
  | nil => cases h
  | cons c u ih =>
    by_cases hc : c = sep
    · simp [cut, hc]
    · have hu : sep ∈ u := (List.mem_cons.mp h).resolve_left (Ne.symm hc)
      rw [List.cons_append, cut, if_neg hc, ih hu, cut, if_neg hc]

theorem cut_of_not_mem {s : Bytes} (h : sep ∉ s) : cut sep s = (s, none) := by
  simpa [cut] using cut_append_of_not_mem h []

theorem cut_append_sep {u : Bytes} (h : sep ∉ u) (v : Bytes) : cut sep (u ++ sep :: v) = (u, some v) := by
  simp [cut_append_of_not_mem h, cut]

theorem cut_snd_isSome {s : Bytes} (h : sep ∈ s) : (cut sep s).2.isSome := by
  induction s with
  | nil => cases h
  | cons c s ih =>
    by_cases hc : c = sep
    · simp [cut, hc]
    · simpa [cut, hc] using ih ((List.mem_cons.mp h).resolve_left (Ne.symm hc))

end Cut

theorem not_mem_escapeByte_of_shouldEscape {b : UInt8} (hb : shouldEscape b = true) (h37 : b ≠ 37)
    (h43 : b ≠ 43) (hhex : ∀ n < 16, b ≠ upperhex n) (c : UInt8) : b ∉ escapeByte c := by
  have hc : c.toNat < 256 := c.toNat_lt_size
  unfold escapeByte
  split_ifs with h32 hs
  · simpa using h43
  · simp only [List.mem_cons, not_or]
    exact ⟨h37, hhex _ (by omega), hhex _ (by omega), List.not_mem_nil _⟩
  · simp only [List.mem_singleton]
    rintro rfl
    rw [hb] at hs
    exact hs rfl

theorem not_mem_intercalate {b : UInt8} {sep : Bytes} (hs : b ∉ sep) :
    ∀ ls : List Bytes, (∀ l ∈ ls, b ∉ l) → b ∉ sep.intercalate ls
  | [], _ => by simp [List.intercalate]
  | [l], h => by simpa [List.intercalate] using h l (List.mem_singleton_self l)
  | l :: l' :: ls, h => by
    have ih := not_mem_intercalate hs (l' :: ls) fun x hx => h x (List.mem_cons_of_mem _ hx)
    simp only [List.intercalate, List.intersperse_cons₂, List.flatten_cons, List.mem_append, not_or] at ih ⊢
    exact ⟨h l (List.mem_cons_self _ _), hs, ih⟩

theorem not_mem_encode {b : UInt8} (hb : shouldEscape b = true) (h37 : b ≠ 37) (h43 : b ≠ 43)
    (hhex : ∀ n < 16, b ≠ upperhex n) (h38 : b ≠ 38) (h61 : b ≠ 61) (v : Values) : b ∉ Values.encode v := by
  have he : ∀ s, b ∉ queryEscape s := fun s => by
    simp only [queryEscape, List.mem_flatMap, not_exists, not_and]
    exact fun c _ => not_mem_escapeByte_of_shouldEscape hb h37 h43 hhex c
  rw [Values.encode_eq]
  refine not_mem_intercalate (by simpa using h38) _ fun l hl => ?_
  obtain ⟨e, -, rfl⟩ := List.mem_map.mp hl
  simp only [pairSegment, List.mem_append, List.mem_cons, not_or]
  exact ⟨he _, h61, he _⟩

theorem hash_not_mem_encode (v : Values) : 35 ∉ Values.encode v :=
  not_mem_encode (by decide) (by decide) (by decide) (by decide) (by decide) (by decide) v

theorem upperhex_toNat_bounds : ∀ n < 16, 48 ≤ (upperhex n).toNat ∧ (upperhex n).toNat ≤ 70 := by decide

theorem any_isCTL_encode (v : Values) : (Values.encode v).any isCTL = false := by
  refine List.any_eq_false.mpr fun b hm hc => ?_
  have hb : b.toNat < 32 ∨ b.toNat = 127 := by simpa [isCTL] using hc
  have hne : ∀ c : UInt8, (c.toNat < 32 ∨ c.toNat = 127 → False) → b ≠ c := fun c hc he => hc (he ▸ hb)
  refine not_mem_encode ?_ (hne _ (by decide)) (hne _ (by decide))
    (fun n hn => hne _ fun hc => by have := upperhex_toNat_bounds n hn; omega) (hne _ (by decide))
    (hne _ (by decide)) v hm
  rcases hb with hb | hb <;> simp [shouldEscape, hb]
  omega

theorem scanScheme_append_query {u : Bytes} (h : 63 ∉ u) (e : Bytes) : ∀ acc,
    scanScheme acc (u ++ 63 :: e) = (scanScheme acc u).map (Option.map fun p => (p.1, p.2 ++ 63 :: e)) := by
  induction u with
  | nil => intro acc; rfl
  | cons c u ih =>
    simp only [List.mem_cons, not_or] at h
    intro acc
    simp only [List.cons_append, scanScheme]
    split_ifs <;> simp [ih h.2]

theorem scanScheme_suffix {s r : Bytes} : ∀ {u acc : Bytes}, scanScheme acc u = some (some (s, r)) → r <:+ u
  | [], _, h => by cases h
  | c :: u, acc, h => by
    have ih : ∀ {acc}, scanScheme acc u = some (some (s, r)) → r <:+ c :: u :=
      fun h' => (scanScheme_suffix h').trans (List.suffix_cons c u)
    simp only [scanScheme] at h
    split_ifs at h
    · exact ih h
    · cases h
    · exact ih h
    · simp only [Option.some.injEq, Prod.mk.injEq] at h
      exact h.2 ▸ List.suffix_cons c u
    · cases h

theorem parseRestOk_append_query {u : Bytes} (h : 63 ∉ u) (e : Bytes) :
    parseRestOk (u ++ 63 :: e) = parseRestOk u := by
  unfold parseRestOk
  rw [scanScheme_append_query h e []]
  rcases hs : scanScheme [] u with _ | _ | ⟨s, r⟩
  · rfl
  · simp only [Option.map_some', Option.map_none', cut_append_sep h, cut_of_not_mem h]
  · have hr : 63 ∉ r := fun hm => h ((scanScheme_suffix hs).subset hm)
    simp only [Option.map_some', cut_append_sep hr, cut_of_not_mem hr]

theorem parseOk_append_query {u e : Bytes} (h : 63 ∉ u) (he : e.any isCTL = false) :
    parseOk (u ++ 63 :: e) = parseOk u := by
  have h42 : u ++ 63 :: e ≠ [42] := by rcases u with _ | ⟨c, _ | ⟨d, u⟩⟩ <;> simp
  have hstar : (decide (u = [42]) || parseRestOk u) = parseRestOk u := by
    by_cases hu : u = [42]
    · subst hu; rfl
    · simp [hu]
  simp [parseOk, h42, hstar, he, parseRestOk_append_query h, show isCTL 63 = false from rfl]

theorem urlParses_requestURL {u : Bytes} (h35 : 35 ∉ u) (h63 : 63 ∉ u) (q : RequestParams) :
    urlParses (requestURL u q) = urlParses u := by
  have hf : 35 ∉ u ++ 63 :: Values.encode q.values := by simp [h35, hash_not_mem_encode]
  simp [urlParses, requestURL, RequestParams.encode, cut_of_not_mem hf, cut_of_not_mem h35,
    parseOk_append_query h63 (any_isCTL_encode q.values)]

theorem requestURL_parts (u : Bytes) (q : RequestParams) :
    (parseURL (requestURL u q)).target = (parseURL u).target ∧
      (parseURL (requestURL u q)).rawQuery =
        if 35 ∈ u then (parseURL u).rawQuery
        else if 63 ∈ u then (parseURL u).rawQuery ++ 63 :: q.encode
        else q.encode := by
  have henc : 35 ∉ q.encode := hash_not_mem_encode q.values
  unfold requestURL parseURL
  by_cases h35 : 35 ∈ u
  · rw [cut_append_of_mem h35, if_pos h35]
    exact ⟨rfl, rfl⟩
  · have hf : cut 35 (u ++ 63 :: q.encode) = (u ++ 63 :: q.encode, none) :=
      cut_of_not_mem (by simp [h35, henc])
    rw [hf, cut_of_not_mem h35, if_neg h35]
    by_cases h63 : 63 ∈ u
    · obtain ⟨r, hr⟩ := Option.isSome_iff_exists.mp (cut_snd_isSome h63)
      rw [cut_append_of_mem h63, if_pos h63, hr]
      exact ⟨rfl, rfl⟩
    · rw [cut_append_of_not_mem h63, cut_of_not_mem h63, if_neg h63]
      simp [cut]

theorem query_requestURL_plain {u : Bytes} (h35 : 35 ∉ u) (h63 : 63 ∉ u) (q : RequestParams) (k : Bytes) :
    (parseURL (requestURL u q)).query.lookup k = (announceParams q).lookup k := by
  rw [UrlParts.query, (requestURL_parts u q).2, if_neg h35, if_neg h63, RequestParams.encode,
    lookup_parseQuery_encode q.values_nodup q.values_ne]
  exact lookup_eq_of_perm q.values_perm q.values_nodup k

/-- Behind an announce URL with neither a query nor a fragment, `CreateRequest` fails with "failed to
create request" on every valid announce when `url.Parse` rejects the URL, and otherwise accepts it:
the tracker then reads from the request the URL's scheme, host and path and, without a parse error,
exactly the announce parameters, key for key. -/
theorem createRequest_plain_announce (parseIP : Bytes → Bool) {u : Bytes} (h35 : 35 ∉ u) (h63 : 63 ∉ u)
    {q : RequestParams} (hv : q.validate parseIP = none) :
    (urlParses u = false → createRequest parseIP u q = .error (ascii "failed to create request")) ∧
      (urlParses u = true → ∃ r, createRequest parseIP u q = .ok r ∧ r.target = (parseURL u).target ∧
        (parseQuery r.rawQuery).2 = none ∧ ∀ k, r.query.lookup k = (announceParams q).lookup k) := by
  have hc : createRequest parseIP u q =
      if urlParses u then .ok (parseURL (requestURL u q)) else .error (ascii "failed to create request") := by
    rw [createRequest, hv, urlParses_requestURL h35 h63]
  refine ⟨fun hu => by rw [hc, hu]; rfl, fun hu => ⟨_, by rw [hc, if_pos hu], (requestURL_parts u q).1, ?_,
    query_requestURL_plain h35 h63 q⟩⟩
  rw [(requestURL_parts u q).2, if_neg h35, if_neg h63, RequestParams.encode,
    parseQuery_encode q.values_nodup q.values_ne]

def debianAnnounce : Bytes := ascii "http://bttracker.debian.org:6969/announce"

theorem createRequest_debian_announce :
    35 ∉ debianAnnounce ∧ 63 ∉ debianAnnounce ∧ tenPeersAnnounce.validate (fun _ => true) = none ∧
      urlParses debianAnnounce = true ∧
      ∃ r, createRequest (fun _ => true) debianAnnounce tenPeersAnnounce = .ok r ∧
        r.target = (parseURL debianAnnounce).target ∧ (parseQuery r.rawQuery).2 = none ∧
        ∀ k, r.query.lookup k = (announceParams tenPeersAnnounce).lookup k :=
  ⟨by decide, by decide, rfl, by decide,
    (createRequest_plain_announce (fun _ => true) (q := tenPeersAnnounce) (by decide) (by decide) rfl).2 (by decide)⟩

def passkeyAnnounce : Bytes := ascii "http://bttracker.debian.org:6969/announce?passkey=abc"

def fragmentAnnounce : Bytes := ascii "http://bttracker.debian.org:6969/announce#top"

/-- `CreateRequest` accepts `tenPeersAnnounce`, but behind the passkey URL the tracker reads the
passkey `abc?downloaded=0` and no `downloaded`; behind the fragment it reads no parameter at all. -/
theorem announce_url_query_mangled (parseIP : Bytes → Bool) :
    createRequest parseIP passkeyAnnounce tenPeersAnnounce = .ok (parseURL (requestURL passkeyAnnounce tenPeersAnnounce)) ∧
      (parseURL passkeyAnnounce).query = [(ascii "passkey", [ascii "abc"])] ∧
      (parseURL (requestURL passkeyAnnounce tenPeersAnnounce)).query.lookup (ascii "passkey") =
        some [ascii "abc?downloaded=0"] ∧
      (parseURL (requestURL passkeyAnnounce tenPeersAnnounce)).query.lookup (ascii "downloaded") = none ∧
      createRequest parseIP fragmentAnnounce tenPeersAnnounce = .ok (parseURL (requestURL fragmentAnnounce tenPeersAnnounce)) ∧
      (parseURL (requestURL fragmentAnnounce tenPeersAnnounce)).query = [] := by
  refine ⟨rfl, by decide, by decide, by decide, rfl, by decide⟩

end TinyTorrent
