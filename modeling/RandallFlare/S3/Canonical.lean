import RandallFlare.S3.Handler

/-!
# What the canonical text determines

The canonical text of a request gives back its method and path, the parts of its query up to their
order, and of the signed headers what is left after joining repeated ones and collapsing white
space.  Two requests with the same signature have the same canonical text.

* `canonicalRequest_inj`: what the canonical text determines;
* `TellsApart`, `canonical_eq_of_signature`: requests with the same signature.
-/

namespace RandallFlare.S3

open Postcard Access Text Percent RandallFlare.S3.Request List

/-! ### The canonical text -/

def headerLine (r : Request) (name : Str) : Str := name ++ ':' :: collapse (signedValue r name)

variable {r : Request} {n : Str} {p : ParsedAuthorization} {query hash t : Str} {r' : Request}
  {cs ds : List (Bytes × Bytes)}

theorem headerLines_eq_some {names lines : List Str} : headerLines r names = some lines ↔
      lines = names.map (headerLine r) ∧ ∀ n ∈ names, signedValue r n ≠ [] := by
  unfold headerLines
  induction names generalizing lines with
  | nil => exact ⟨fun h => ⟨(Option.some.inj h).symm, nofun⟩, fun h => h.1 ▸ rfl⟩
  | cons n names ih =>
    simp only [mapM_cons, Option.bind_eq_bind, Option.bind_eq_some_iff, Option.pure_def,
      Option.some.injEq, ih, forall_mem_cons, map_cons]
    constructor
    · rintro ⟨line, hline, _, ⟨rfl, hnames⟩, rfl⟩
      split_ifs at hline with hvalue
      cases hline
      exact ⟨rfl, hvalue, hnames⟩
    · rintro ⟨rfl, hvalue, hnames⟩
      exact ⟨headerLine r n, by rw [if_neg hvalue]; rfl, _, ⟨rfl, hnames⟩, rfl⟩

theorem isNameChar_of_signedValue (h : signedValue r n ≠ []) : ∀ c ∈ n, isNameChar c := by
  by_cases hvalues : r.values n = []
  · -- Only the host may be elsewhere.
    have hhost : n = "host".toList := by
      by_contra hne
      refine h ?_
      rw [signedValue, if_neg (fun hboth => hne hboth.2), hvalues]
      rfl
    rw [hhost]
    exact all_eq_true.1 (by decide)
  · obtain ⟨v, hv⟩ := exists_mem_of_ne_nil _ hvalues
    obtain ⟨f, hf, -⟩ := mem_map.1 hv
    have hname : f.name = n := by simpa using (mem_filter.1 hf).2
    have hvalid := f.valid
    simp only [isField, Bool.and_eq_true, all_eq_true, hname] at hvalid
    exact hvalid.1.1.1.2

theorem not_mem_name (h : signedValue r n ≠ []) {c : Char} (hc : isNameChar c = false) : c ∉ n := by
  intro hmem
  rw [isNameChar_of_signedValue h c hmem] at hc
  cases hc

theorem newline_not_mem_collapse (l : Str) : '\n' ∉ collapse l := by
  intro h
  cases not_isAsciiWhitespace_of_mem_collapse h (by decide)

theorem canonicalRequest_eq_some : canonicalRequest r p query hash = some t ↔
      (∀ n ∈ p.signedHeaders, signedValue r n ≠ []) ∧
        t = join '\n' ([r.method, r.path, query] ++ p.signedHeaders.map (headerLine r) ++
          [[], join ';' p.signedHeaders, hash]) := by
  have hlines : ∀ lines : List Str,
      r.method ++ '\n' :: r.path ++ '\n' :: query ++ '\n' :: lines.flatMap (· ++ ['\n']) ++
        '\n' :: join ';' p.signedHeaders ++ '\n' :: hash =
      join '\n' ([r.method, r.path, query] ++ lines ++
        [[], join ';' p.signedHeaders, hash]) := by
    intro lines
    rw [join_append, join_cons (by simp), join_cons (by simp), join_singleton]
    simp
  simp only [canonicalRequest, Option.map_eq_some_iff, headerLines_eq_some, hlines]
  constructor
  · rintro ⟨_, ⟨rfl, hvalues⟩, rfl⟩
    exact ⟨hvalues, rfl⟩
  · rintro ⟨hvalues, rfl⟩
    exact ⟨_, ⟨rfl, hvalues⟩, rfl⟩

theorem newline_not_mem_of_isGraphic {l : Str} (h : l.all isGraphic) : '\n' ∉ l := by
  intro hmem
  cases all_eq_true.1 h '\n' hmem

theorem newline_not_mem_line (hquery : '\n' ∉ query) (hhash : '\n' ∉ hash)
    (hvalues : ∀ n ∈ p.signedHeaders, signedValue r n ≠ []) :
    ∀ line ∈ [r.method, r.path, query] ++ p.signedHeaders.map (headerLine r) ++
      [[], join ';' p.signedHeaders, hash], '\n' ∉ line := by
  have hnames : '\n' ∉ join ';' p.signedHeaders := by
    intro h
    rcases mem_join h with h | ⟨n, hn, hc⟩
    · cases h
    · exact not_mem_name (hvalues n hn) rfl hc
  intro line hline
  simp only [mem_append, mem_cons, not_mem_nil, or_false, mem_map] at hline
  rcases hline with ((rfl | rfl | rfl) | ⟨n, hn, rfl⟩) | rfl | rfl | rfl
  · exact newline_not_mem_of_isGraphic r.valid.1
  · exact newline_not_mem_of_isGraphic r.valid.2.1
  · exact hquery
  · simp only [headerLine, mem_append, mem_cons, not_or]
    exact ⟨not_mem_name (hvalues n hn) rfl, by decide, newline_not_mem_collapse _⟩
  · simp
  · exact hnames
  · exact hhash

theorem headerLine_inj {n' : Str} (hn : signedValue r n ≠ [])
    (hn' : signedValue r' n' ≠ []) (h : headerLine r n = headerLine r' n') :
    n = n' ∧ collapse (signedValue r n) = collapse (signedValue r' n') := by
  have hsplit := congrArg (splitOnce ':') h
  rw [headerLine, headerLine, splitOnce_append (not_mem_name hn rfl),
    splitOnce_append (not_mem_name hn' rfl)] at hsplit
  simpa using hsplit

/-- **What a canonical text determines.** -/
theorem canonicalRequest_inj {p' : ParsedAuthorization}
    {query' hash' : Str} (hquery : '\n' ∉ query) (hquery' : '\n' ∉ query')
    (hhash : '\n' ∉ hash) (hhash' : '\n' ∉ hash') (h : canonicalRequest r p query hash = some t)
    (h' : canonicalRequest r' p' query' hash' = some t) :
    r.method = r'.method ∧ r.path = r'.path ∧ query = query' ∧ hash = hash' ∧
      p.signedHeaders = p'.signedHeaders ∧
      ∀ n ∈ p.signedHeaders, signedValue r n ≠ [] ∧ signedValue r' n ≠ [] ∧
        collapse (signedValue r n) = collapse (signedValue r' n) := by
  obtain ⟨hvalues, rfl⟩ := canonicalRequest_eq_some.1 h
  obtain ⟨hvalues', heq⟩ := canonicalRequest_eq_some.1 h'
  have hlines := join_inj (newline_not_mem_line hquery hhash hvalues)
    (newline_not_mem_line hquery' hhash' hvalues') (by simp) (by simp) heq
  obtain ⟨hfront, hlast⟩ := append_inj' hlines rfl
  simp only [cons_append, nil_append, cons.injEq] at hfront hlast
  obtain ⟨hmethod, hpath, hq, hheaders⟩ := hfront
  have hlength : p.signedHeaders.length = p'.signedHeaders.length := by
    simpa using congrArg length hheaders
  have hat : ∀ i (hi : i < p.signedHeaders.length) (hi' : i < p'.signedHeaders.length),
      p.signedHeaders[i] = p'.signedHeaders[i] ∧
        collapse (signedValue r p.signedHeaders[i]) =
          collapse (signedValue r' p'.signedHeaders[i]) := by
    intro i hi hi'
    have hline := getElem_of_eq hheaders (i := i) (by simpa using hi)
    rw [getElem_map, getElem_map] at hline
    exact headerLine_inj (hvalues _ (getElem_mem hi)) (hvalues' _ (getElem_mem hi')) hline
  have hsigned : p.signedHeaders = p'.signedHeaders :=
    ext_getElem hlength fun i hi hi' => (hat i hi hi').1
  refine ⟨hmethod, hpath, hq, hlast.2.2.1, hsigned, fun n hn => ⟨hvalues n hn, ?_, ?_⟩⟩
  · exact hvalues' n (hsigned ▸ hn)
  · obtain ⟨i, hi, rfl⟩ := getElem_of_mem hn
    obtain ⟨hname, hvalue⟩ := hat i hi (hlength ▸ hi)
    rw [hvalue, hname]

/-! ### The query -/

theorem newline_not_mem_canonicalComponents (cs : List (Bytes × Bytes)) :
    '\n' ∉ canonicalComponents cs := by
  intro h
  rcases mem_join h with h | ⟨part, hpart, hc⟩
  · cases h
  · obtain ⟨pair, hpair, rfl⟩ := mem_map.1 hpart
    rw [mem_insertionSort] at hpair
    obtain ⟨c, -, rfl⟩ := mem_map.1 hpair
    simp only [mem_append, mem_cons] at hc
    rcases hc with hc | hc | hc
    · exact not_mem_encode (by decide) _ hc
    · cases hc
    · exact not_mem_encode (by decide) _ hc

/-- The encoded parts, sorted. -/
def sortedComponents (cs : List (Bytes × Bytes)) : List (Str ×ₗ Str) :=
  (cs.map fun c => toLex (awsEncode c.1, awsEncode c.2)).insertionSort (· ≤ ·)

theorem sortedComponents_perm (cs : List (Bytes × Bytes)) :
    (sortedComponents cs).Perm (cs.map fun c => toLex (awsEncode c.1, awsEncode c.2)) :=
  perm_insertionSort _ _

/-- The parts of a query can be read off its canonical text, but for their order. -/
theorem perm_of_canonicalComponents
    (h : canonicalComponents cs = canonicalComponents ds) : cs.Perm ds := by
  have hparts : ∀ es : List (Bytes × Bytes), ∀ e ∈ sortedComponents es,
      '=' ∉ (ofLex e).1 ∧ '&' ∉ (ofLex e).1 ∧ '&' ∉ (ofLex e).2 := by
    intro es e he
    obtain ⟨c, -, rfl⟩ := mem_map.1 ((sortedComponents_perm es).mem_iff.1 he)
    exact ⟨not_mem_encode (by decide) _, not_mem_encode (by decide) _, not_mem_encode (by decide) _⟩
  have htexts : ∀ es : List (Bytes × Bytes),
      ∀ t ∈ (sortedComponents es).map (fun c => (ofLex c).1 ++ '=' :: (ofLex c).2),
        t ≠ [] ∧ '&' ∉ t := by
    intro es t ht
    obtain ⟨e, he, rfl⟩ := mem_map.1 ht
    obtain ⟨-, h₁, h₂⟩ := hparts es e he
    simp [h₁, h₂]
  have hmap := join_inj_of_ne_nil (htexts cs) (htexts ds) h
  have hread : ∀ es : List (Bytes × Bytes),
      ((sortedComponents es).map fun c => (ofLex c).1 ++ '=' :: (ofLex c).2).map
        (splitOnce '=') = (sortedComponents es).map fun c => some (ofLex c) := by
    intro es
    rw [map_map]
    exact map_congr_left fun e he => splitOnce_append (hparts es e he).1
  have hsorted : sortedComponents cs = sortedComponents ds := by
    have hsome : Function.Injective fun c : Str ×ₗ Str => some (ofLex c) :=
      (Option.some_injective _).comp ofLex.injective
    refine map_injective_iff.2 hsome ?_
    rw [← hread, ← hread, hmap]
  have hinj : Function.Injective fun c : Bytes × Bytes => toLex (awsEncode c.1, awsEncode c.2) := by
    rintro ⟨a, b⟩ ⟨c, d⟩ hcd
    obtain ⟨h₁, h₂⟩ := Prod.mk.inj (toLex.injective hcd)
    exact Prod.ext (encode_injective h₁) (encode_injective h₂)
  refine (map_perm_map_iff hinj).1 ?_
  exact (sortedComponents_perm cs).symm.trans (hsorted ▸ sortedComponents_perm ds)

theorem canonicalComponents_perm (h : cs.Perm ds) :
    canonicalComponents cs = canonicalComponents ds := by
  have hsorted : sortedComponents cs = sortedComponents ds :=
    Perm.eq_of_sortedLE sortedLE_insertionSort sortedLE_insertionSort
      ((sortedComponents_perm cs).trans ((h.map _).trans (sortedComponents_perm ds).symm))
  exact congrArg (fun es => join '&' (es.map fun c => (ofLex c).1 ++ '=' :: (ofLex c).2))
    hsorted

/-- The parts of the query that are signed. -/
def Attempt.components (a : Attempt) (r : Request) : List (Bytes × Bytes) :=
  if a.presigned then (decodedComponents r.query).filter (·.1 ≠ bytesOf signatureKey)
  else decodedComponents r.query

theorem Attempt.canonical_eq (a : Attempt) (r : Request) : a.canonical r =
      canonicalRequest r a.parsed (canonicalComponents (a.components r)) a.payloadHash := by
  unfold Attempt.canonical Attempt.components canonicalQueryPresigned canonicalQuery
  split_ifs <;> rfl

theorem components_perm {a : Attempt}
    (h : (decodedComponents r'.query).Perm (decodedComponents r.query)) :
    (a.components r').Perm (a.components r) := by
  unfold Attempt.components
  split_ifs
  · exact h.filter _
  · exact h

/-- The values of a key among the parts of a query. -/
def valuesOf (cs : List (Bytes × Bytes)) (name : Str) : List Str :=
  ((cs.map fun c => (utf8Lossy c.1, utf8Lossy c.2)).filter (·.1 = name)).map (·.2)

theorem utf8Lossy_signatureKey : utf8Lossy (bytesOf signatureKey) = signatureKey := by
  decide +kernel

theorem valuesOf_components (a : Attempt) (r : Request) {name : Str} (h : name ≠ signatureKey) :
    valuesOf (a.components r) name = r.params name := by
  unfold Attempt.components params parseQuery
  split_ifs
  · have hkeep : ∀ c : Bytes × Bytes, decide (utf8Lossy c.1 = name) →
        decide (c.1 ≠ bytesOf signatureKey) := by
      intro c hc
      simp only [decide_eq_true_eq] at hc ⊢
      intro heq
      rw [heq, utf8Lossy_signatureKey] at hc
      exact h hc.symm
    rw [valuesOf, filter_map, filter_map, filter_filter]
    congr 2
    refine filter_congr fun c _ => ?_
    simpa using hkeep c
  · rfl

theorem valuesOf_perm (h : cs.Perm ds) (name : Str) : (valuesOf cs name).Perm (valuesOf ds name) :=
  ((h.map _).filter _).map _

/-! ### Headers -/

theorem isBlank_of_isAsciiWhitespace {b : UInt8} (hb : isVisible b)
    (h : isAsciiWhitespace (Char.ofNat b.toNat)) : b = 32 ∨ b = 9 := by
  have hn : ∀ c, Char.ofNat b.toNat = c → b.toNat = c.toNat := by
    rintro c rfl
    exact (toNat_ofNat_byte b).symm
  simp only [isAsciiWhitespace, Bool.or_eq_true, decide_eq_true_eq] at h
  simp only [isVisible, Bool.or_eq_true, Bool.and_eq_true, decide_eq_true_eq] at hb
  rcases h with (((h | h) | h) | h) | h
  · exact .inl (UInt8.toNat_inj.1 (hn ' ' h))
  · exact .inr (UInt8.toNat_inj.1 (hn '\t' h))
  all_goals
    rw [hn _ h] at hb
    exact absurd hb (by decide)

/-- The shown value of a header has no white space at its ends. -/
theorem isTrimmed_of_toStr {f : Header} (h : toStr f.value = some t) : isTrimmed t := by
  have hvalid := f.valid
  simp only [isField, Bool.and_eq_true, Option.all_eq_true, decide_eq_true_eq] at hvalid
  obtain ⟨⟨-, hfirst⟩, hlast⟩ := hvalid
  unfold toStr at h
  split_ifs at h with hvisible
  cases h
  rw [all_eq_true] at hvisible
  have hends : ∀ b ∈ f.value, b ≠ 32 ∧ b ≠ 9 →
      isAsciiWhitespace (Char.ofNat b.toNat) = false := by
    intro b hb hne
    by_contra hws
    rcases isBlank_of_isAsciiWhitespace (hvisible b hb) (by simpa using hws) with h | h
    · exact hne.1 h
    · exact hne.2 h
  simp only [isTrimmed, head?_map, getLast?_map, Bool.and_eq_true,
    Option.all_eq_true, Option.map_eq_some_iff, Bool.not_eq_true']
  constructor
  · rintro _ ⟨b, hb, rfl⟩
    exact hends b (mem_of_mem_head? hb) (hfirst b hb)
  · rintro _ ⟨b, hb, rfl⟩
    exact hends b (mem_of_getLast? hb) (hlast b hb)

theorem signedValue_of_ne_host (hn : n ≠ "host".toList) :
    signedValue r n = join ',' ((r.values n).map fun v => (toStr v).getD []) := by
  rw [signedValue, if_neg fun h => hn h.2]

/-- A signed header whose value has neither a blank nor a comma is read as it is signed. -/
theorem header_eq_collapse (hn : n ≠ "host".toList)
    (hne : signedValue r n ≠ []) (hblank : ' ' ∉ collapse (signedValue r n))
    (hcomma : ',' ∉ collapse (signedValue r n)) :
    r.header n = some (collapse (signedValue r n)) := by
  rw [mem_collapse_iff rfl, signedValue_of_ne_host hn] at hcomma
  have hmem : ∀ v ∈ r.values n, ∃ f : Header, f.value = v := by
    intro v hv
    obtain ⟨f, -, hf⟩ := mem_map.1 hv
    exact ⟨f, hf⟩
  rw [signedValue_of_ne_host hn] at hne hblank ⊢
  unfold header
  match hvalues : r.values n with
  | [] => simp [hvalues] at hne
  | [v] =>
    obtain ⟨f, rfl⟩ := hmem v (by simp [hvalues])
    simp only [hvalues, map_cons, map_nil, join_singleton] at hne hblank ⊢
    cases ht : toStr f.value with
    | none => simp [ht] at hne
    | some t =>
      simp only [ht, Option.getD_some] at hblank ⊢
      simpa [ht] using eq_collapse (isTrimmed_of_toStr ht) hblank
  | v :: w :: vs => simp [hvalues, join_cons] at hcomma

theorem hasHeader_of_signedValue (hn : n ≠ "host".toList)
    (hne : signedValue r n ≠ []) : r.hasHeader n := by
  rw [signedValue_of_ne_host hn] at hne
  refine decide_eq_true fun hvalues => hne ?_
  rw [hvalues]
  rfl

theorem Param.name_notMem_authParams (p : Param) : p.name ∉ authParams := by
  cases p <;> decide

theorem Param.name_ne_signatureKey (p : Param) : p.name ≠ signatureKey := by
  intro h
  exact p.name_notMem_authParams (h ▸ by decide)

theorem AmzHeader.name_ne_host (h : AmzHeader) : h.name ≠ "host".toList := by
  cases h <;> decide

/-! ### Requests with the same signature -/

variable {s : Server} {nowMs nowMs' : ℕ} {c c' : Authenticated} {a a' : Attempt}

/-- What the MAC of a request is computed from: a key and a text. -/
def macInput (s : Server) (c : Authenticated) (a : Attempt) (r : Request) :
    Option (Bytes × Bytes) :=
  match s.secret c, a.canonical r with
  | .ok secret, some canonical => some (s.signingKey secret a.parsed,
      bytesOf (s.stringToSign a.parsed a.amzDate canonical))
  | _, _ => none

/-- The hash and the MAC have no collision on what two requests give them. -/
structure TellsApart (s : Server) (c c' : Authenticated) (a a' : Attempt) (r r' : Request) :
    Prop where
  canonical : ∀ t ∈ a.canonical r, ∀ t' ∈ a'.canonical r',
    s.crypto.sha256 (bytesOf t) = s.crypto.sha256 (bytesOf t') → t = t'
  body : s.crypto.sha256 r.body = s.crypto.sha256 r'.body → r.body = r'.body
  mac : ∀ p ∈ macInput s c a r, ∀ p' ∈ macInput s c' a' r',
    s.hmac p.1 p.2 = s.hmac p'.1 p'.2 → p = p'

theorem hexEncode_injective : Function.Injective hexEncode := fun x y h =>
  Option.some.inj (by rw [← hexDecode_hexEncode, h, hexDecode_hexEncode])

theorem digest_of_bytes {d e : Digest} (h : beBytes 32 d.toNat = beBytes 32 e.toNat) : d = e := by
  rw [← ofNat_ofBeBytes (n := 32) (by norm_num) d, h, ofNat_ofBeBytes (by norm_num)]

theorem sha256_of_stringToSign {p p' : ParsedAuthorization} {date date' t' : Str}
    (h : s.stringToSign p date t = s.stringToSign p' date' t') :
    s.crypto.sha256 (bytesOf t) = s.crypto.sha256 (bytesOf t') := by
  have hhash := (append_inj' h (by simp [length_hexEncode, beBytes])).2
  exact digest_of_bytes (hexEncode_injective (cons.inj hhash).2)

/-- **Two requests with the same signature have the same canonical text.** -/
theorem canonical_eq_of_signature (h : authenticate s nowMs r = .ok c)
    (ha : attempt nowMs r = .ok a) (h' : authenticate s nowMs' r' = .ok c')
    (ha' : attempt nowMs' r' = .ok a') (hsig : a'.parsed.signature = a.parsed.signature)
    (htells : TellsApart s c c' a a' r r') :
    ∃ t, a.canonical r = some t ∧ a'.canonical r' = some t := by
  obtain ⟨_, secret, t, hb, -, hsecret, ht, hmac⟩ := authenticate_eq_ok.1 h
  cases ha.symm.trans hb
  obtain ⟨_, secret', t', hb', -, hsecret', ht', hmac'⟩ := authenticate_eq_ok.1 h'
  cases ha'.symm.trans hb'
  rw [hmac, hmac'] at hsig
  have hdigest := digest_of_bytes (hexEncode_injective hsig)
  have hpair := htells.mac _ (by simp [macInput, hsecret, ht]; rfl) _
    (by simp [macInput, hsecret', ht']; rfl) hdigest.symm
  have hsha := sha256_of_stringToSign (bytesOf_injective (Prod.mk.inj hpair).2)
  obtain rfl := htells.canonical t ht t' ht' hsha
  exact ⟨t, ht, ht'⟩

theorem newline_not_mem_payloadHash (h : attempt nowMs r = .ok a) : '\n' ∉ a.payloadHash := by
  rw [payloadHash_of_attempt h]
  cases hheader : r.header "x-amz-content-sha256".toList with
  | none => decide
  | some t =>
    obtain ⟨value, -, ht⟩ := Option.bind_eq_some_iff.1 hheader
    unfold toStr at ht
    split_ifs at ht with hvisible
    cases ht
    intro hmem
    obtain ⟨b, hb, hc⟩ := mem_map.1 hmem
    have hn : b.toNat = 10 := by
      rw [← toNat_ofNat_byte, hc]
      rfl
    have := all_eq_true.1 hvisible b hb
    simp [isVisible, hn] at this

theorem declared_eq (ha : attempt nowMs r = .ok a) :
    r.declared = if a.payloadHash = unsignedPayload then none else some a.payloadHash := by
  rw [payloadHash_of_attempt ha, declared]
  cases r.header "x-amz-content-sha256".toList with
  | none => rfl
  | some t =>
    split_ifs <;> simp_all

end RandallFlare.S3
