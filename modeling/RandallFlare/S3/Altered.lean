import RandallFlare.S3.Canonical

/-!
# Other requests with the same signature

How a request can be changed without changing its canonical text: headers that are not signed, and
signed ones whose values differ by what is joined and collapsed, custom metadata, and parameters
that are repeated.

* `authenticate_of_canonical_eq`: the signature is accepted for the changed request.
-/

namespace RandallFlare.S3

open Postcard Access Text Percent RandallFlare.S3.Request List

variable {s : Server} {nowMs : ℕ} {c : Authenticated} {a : Attempt} {r r' : Request} {t : Str}
  {n : Str} {fs : List Header} {x : AmzHeader} {k : Str}

/-- Nothing has to be told apart if the texts are the same. -/
theorem tellsApart_of_canonical_eq (ht : a.canonical r' = a.canonical r)
    (hbody : r'.body = r.body) : TellsApart s c c a a r r' := by
  refine ⟨?_, ?_, ?_⟩
  · intro t₁ h₁ t₂ h₂ _
    rw [ht] at h₂
    exact Option.some.inj (h₁.symm.trans h₂)
  · intro _
    exact hbody.symm
  · intro p₁ h₁ p₂ h₂ _
    rw [macInput, ht] at h₂
    exact Option.some.inj (h₁.symm.trans h₂)

/-- A request with the same canonical text is authenticated by the same signature. -/
theorem authenticate_of_canonical_eq (h : authenticate s nowMs r = .ok c)
    (ha : attempt nowMs r = .ok a) (ha' : attempt nowMs r' = attempt nowMs r)
    (ht : a.canonical r' = a.canonical r) : authenticate s nowMs r' = .ok c := by
  obtain ⟨b, secret, t, hb, hfind, hsecret, hcanonical, hmac⟩ := authenticate_eq_ok.1 h
  cases ha.symm.trans hb
  exact authenticate_eq_ok.2
    ⟨a, secret, t, ha'.trans ha, hfind, hsecret, ht.trans hcanonical, hmac⟩

/-- The canonical text depends on the parts of the query up to order and on the signed values. -/
theorem canonical_congr (hmethod : r'.method = r.method) (hpath : r'.path = r.path)
    (hquery : (a.components r').Perm (a.components r))
    (hvalues : ∀ n ∈ a.parsed.signedHeaders, (signedValue r' n = [] ↔ signedValue r n = []) ∧
      collapse (signedValue r' n) = collapse (signedValue r n)) :
    a.canonical r' = a.canonical r := by
  ext t
  have hlines : a.parsed.signedHeaders.map (headerLine r') =
      a.parsed.signedHeaders.map (headerLine r) :=
    map_congr_left fun n hn => by rw [headerLine, headerLine, (hvalues n hn).2]
  have hnil : (∀ n ∈ a.parsed.signedHeaders, signedValue r' n ≠ []) ↔
      ∀ n ∈ a.parsed.signedHeaders, signedValue r n ≠ [] :=
    forall₂_congr fun n hn => not_congr (hvalues n hn).1
  rw [Attempt.canonical_eq, Attempt.canonical_eq, canonicalRequest_eq_some,
    canonicalRequest_eq_some, hmethod, hpath, canonicalComponents_perm hquery, hlines, hnil]

/-! ### Changed headers -/

/-- The request with other values of a header. -/
def Request.replace (r : Request) (n : Str) (fs : List Header) : Request :=
  { r with headers := r.headers.filter (·.name ≠ n) ++ fs }

theorem values_replace (r : Request) (hfs : ∀ f ∈ fs, f.name = n)
    (m : Str) : (r.replace n fs).values m = if m = n then fs.map (·.value) else r.values m := by
  unfold Request.replace values
  simp only [filter_append, filter_filter]
  split_ifs with hm
  · subst hm
    have hnone : r.headers.filter (fun f => decide (f.name = m) && decide (f.name ≠ m)) = [] :=
      filter_eq_nil_iff.2 fun f _ => by simp
    have hall : fs.filter (·.name = m) = fs := filter_eq_self.2 fun f hf => by simpa using hfs f hf
    rw [hnone, hall, nil_append]
  · have hnone : fs.filter (·.name = m) = [] :=
      filter_eq_nil_iff.2 fun f hf => by simpa [hfs f hf] using fun h => hm h.symm
    rw [hnone, append_nil]
    congr 1
    refine filter_congr fun f _ => ?_
    by_cases hf : f.name = m
    · simp [hf, hm]
    · simp [hf]

theorem attempt_replace (hfs : ∀ f ∈ fs, f.name = n)
    (hauth : n ∉ authHeaders) : attempt nowMs (r.replace n fs) = attempt nowMs r := by
  refine attempt_congr (fun m hm => ?_) fun _ _ => rfl
  rw [values_replace r hfs, if_neg]
  rintro rfl
  exact hauth hm

/-- Another value of a header leaves the canonical text, unless its signed value changes. -/
theorem canonical_replace (hfs : ∀ f ∈ fs, f.name = n)
    (hhost : n ≠ "host".toList) (hsigned : n ∈ a.parsed.signedHeaders → signedValue r n ≠ [] ∧
      join ',' (fs.map fun f => (toStr f.value).getD []) ≠ [] ∧
      collapse (join ',' (fs.map fun f => (toStr f.value).getD [])) =
        collapse (signedValue r n)) : a.canonical (r.replace n fs) = a.canonical r := by
  have hvalues := values_replace r hfs
  refine canonical_congr rfl rfl (Perm.refl _) fun m hm => ?_
  by_cases hmn : m = n
  · subst hmn
    obtain ⟨hold, hne, hcollapse⟩ := hsigned hm
    have hvalue : signedValue (r.replace m fs) m =
        join ',' (fs.map fun f => (toStr f.value).getD []) := by
      rw [signedValue_of_ne_host hhost, hvalues, if_pos rfl, map_map]
      rfl
    rw [hvalue]
    exact ⟨iff_of_false hne hold, hcollapse⟩
  · have hsame : signedValue (r.replace n fs) m = signedValue r m := by
      unfold signedValue
      rw [hvalues, if_neg hmn]
      rfl
    rw [hsame]
    exact ⟨Iff.rfl, rfl⟩

/-- A character that a header value shows. -/
def isVisibleChar (ch : Char) : Bool := (32 ≤ ch.toNat && ch.toNat < 127) || ch.toNat = 9

theorem isVisibleChar_of_toStr {value : Bytes} (h : toStr value = some t) :
    ∀ ch ∈ t, isVisibleChar ch := by
  unfold toStr at h
  split_ifs at h with hvisible
  cases h
  intro ch hch
  obtain ⟨b, hb, rfl⟩ := mem_map.1 hch
  have := all_eq_true.1 hvisible b hb
  rwa [isVisible, ← toNat_ofNat_byte] at this

/-- A shown text without white space at its ends is the value of a header. -/
theorem exists_header (hn : n ≠ [] ∧ n.all isNameChar) (ht : ∀ ch ∈ t, isVisibleChar ch)
    (htrim : isTrimmed t) : ∃ f : Header, f.name = n ∧ toStr f.value = some t := by
  have hbyte : ∀ ch ∈ t, (UInt8.ofNat ch.toNat).toNat = ch.toNat := by
    intro ch hch
    have := ht ch hch
    simp only [isVisibleChar, Bool.or_eq_true, Bool.and_eq_true, decide_eq_true_eq] at this
    rw [UInt8.toNat_ofNat']
    omega
  have hvisible : ∀ ch ∈ t, isVisible (UInt8.ofNat ch.toNat) := by
    intro ch hch
    rw [isVisible, hbyte ch hch]
    exact ht ch hch
  have hblank : ∀ ch ∈ t, isAsciiWhitespace ch = false →
      UInt8.ofNat ch.toNat ≠ 32 ∧ UInt8.ofNat ch.toNat ≠ 9 := by
    intro ch hch hws
    have hne : ∀ m : UInt8, isAsciiWhitespace (Char.ofNat m.toNat) →
        UInt8.ofNat ch.toNat ≠ m := by
      rintro m hm rfl
      rw [hbyte ch hch, Char.ofNat_toNat, hws] at hm
      cases hm
    exact ⟨hne 32 rfl, hne 9 rfl⟩
  simp only [isTrimmed, Bool.and_eq_true, Option.all_eq_true, Bool.not_eq_true'] at htrim
  refine ⟨⟨n, t.map fun ch => UInt8.ofNat ch.toNat, ?_⟩, rfl, ?_⟩
  · simp only [isField, Bool.and_eq_true, decide_eq_true_eq, hn, all_map, all_eq_true,
      Function.comp, head?_map, getLast?_map, Option.all_eq_true, Option.map_eq_some_iff,
      Bool.or_eq_true, ne_eq, not_false_eq_true, true_and]
    refine ⟨⟨fun ch hch => .inl (hvisible ch hch), ?_⟩, ?_⟩
    · rintro _ ⟨ch, hch, rfl⟩
      exact hblank ch (mem_of_mem_head? hch) (htrim.1 ch hch)
    · rintro _ ⟨ch, hch, rfl⟩
      exact hblank ch (mem_of_getLast? hch) (htrim.2 ch hch)
  · have hall : (t.map fun ch => UInt8.ofNat ch.toNat).all isVisible := by
      simpa [all_map] using hvisible
    rw [toStr, if_pos hall, map_map]
    refine congrArg some ?_
    conv_rhs => rw [← map_id t]
    refine map_congr_left fun ch hch => ?_
    rw [Function.comp, hbyte ch hch, Char.ofNat_toNat]
    rfl

theorem exists_headers (hn : n ≠ [] ∧ n.all isNameChar) {ts : List Str}
    (hts : ∀ t ∈ ts, (∀ ch ∈ t, isVisibleChar ch) ∧ isTrimmed t) :
    ∃ fs : List Header, (∀ f ∈ fs, f.name = n) ∧ fs.map (fun f => toStr f.value) = ts.map some := by
  induction ts with
  | nil => exact ⟨[], by simp, rfl⟩
  | cons t ts ih =>
    obtain ⟨fs, hnames, hvalues⟩ := ih fun u hu => hts u (mem_cons_of_mem t hu)
    obtain ⟨ht, htrim⟩ := hts t mem_cons_self
    obtain ⟨f, hname, hvalue⟩ := exists_header hn ht htrim
    refine ⟨f :: fs, fun g hg => ?_, by simp [hvalue, hvalues]⟩
    rcases mem_cons.1 hg with rfl | hg
    · exact hname
    · exact hnames g hg

theorem AmzHeader.name_valid (h : AmzHeader) : h.name ≠ [] ∧ h.name.all isNameChar := by
  cases h <;> decide

theorem AmzHeader.name_notMem_authHeaders (h : AmzHeader) : h.name ∉ authHeaders := by
  cases h <;> decide

theorem visible_x : ∀ t ∈ [['x']], (∀ ch ∈ t, isVisibleChar ch) ∧ isTrimmed t := by
  simp [isVisibleChar, isTrimmed, isAsciiWhitespace]

theorem isVisibleChar_of_mem_signedValue (hn : n ≠ "host".toList) :
    ∀ ch ∈ signedValue r n, isVisibleChar ch := by
  intro ch hch
  rw [signedValue_of_ne_host hn] at hch
  rcases mem_join hch with rfl | ⟨t, ht, hch⟩
  · rfl
  · obtain ⟨value, -, rfl⟩ := mem_map.1 ht
    cases hvalue : toStr value with
    | none => simp [hvalue] at hch
    | some t => exact isVisibleChar_of_toStr hvalue ch (by simpa [hvalue] using hch)

/-! ### Custom metadata -/

theorem stripStart_append (pre l : Str) : stripStart pre (pre ++ l) = some l := by
  induction pre with
  | nil => rfl
  | cons ch pre ih => simp [stripStart, ih]

theorem eq_of_stripStart {pre l rest : Str} (h : stripStart pre l = some rest) :
    l = pre ++ rest := by
  induction pre generalizing l with
  | nil => simpa [stripStart] using h
  | cons ch pre ih =>
    cases l with
    | nil => cases h
    | cons d l =>
      simp only [stripStart] at h
      split_ifs at h with hd
      rw [hd, ih h, cons_append]

theorem get_customMetadata_eq_none
    (hk : ∀ f ∈ fs, f.name ≠ "x-amz-meta-".toList ++ k) : (customMetadata fs).get k = none := by
  suffices h : ∀ m : SortedMap Str Str, m.get k = none → (fs.foldl addMetadata m).get k = none from
    h _ rfl
  induction fs with
  | nil => exact fun m hm => hm
  | cons f fs ih =>
    intro m hm
    refine ih (fun g hg => hk g (mem_cons_of_mem f hg)) _ ?_
    unfold addMetadata
    split
    · rename_i name value hname _
      rw [SortedMap.get_insert, if_neg]
      · exact hm
      · rintro rfl
        exact hk f mem_cons_self (eq_of_stripStart hname)
    · exact hm

theorem get_customMetadata_concat {f : Header}
    (hname : f.name = "x-amz-meta-".toList ++ k) (hvalue : toStr f.value = some t)
    (fs : List Header) : (customMetadata (fs ++ [f])).get k = some t := by
  unfold customMetadata
  rw [foldl_append, foldl_cons, foldl_nil, addMetadata, hname, stripStart_append, hvalue]
  simp only [SortedMap.get_insert, if_true]

/-! ### Parameters that are repeated -/

/-- The key and the value of a part of a query. -/
def pairOf (part : Str) : Bytes × Bytes :=
  let c := (splitOnce '=' part).getD (part, [])
  (percentDecode c.1, percentDecode c.2)

/-- The parts of a query that are not empty. -/
def parts (raw : Str) : List Str := (raw.splitOn '&').filter (· ≠ [])

theorem decodedComponents_eq (raw : Str) : decodedComponents raw = (parts raw).map pairOf := by
  rw [decodedComponents, components, map_map]
  rfl

theorem parts_spec {raw part : Str} (h : part ∈ parts raw) :
    part ≠ [] ∧ '&' ∉ part ∧ ∀ ch ∈ part, ch ∈ raw := by
  obtain ⟨hmem, hne⟩ := mem_filter.1 h
  refine ⟨by simpa using hne, not_mem_of_mem_splitOn hmem, fun ch hch => ?_⟩
  have hjoin : join '&' (raw.splitOn '&') = raw := intercalate_splitOn '&'
  rw [← hjoin]
  exact mem_join_of_mem hmem hch

/-- Parts that are joined again are the parts of that query. -/
theorem parts_join {ps : List Str} (hps : ∀ part ∈ ps, part ≠ [] ∧ '&' ∉ part) (hne : ps ≠ []) :
    parts (join '&' ps) = ps := by
  rw [parts, join, splitOn_intercalate '&' (fun part hp => (hps part hp).2) hne]
  exact filter_eq_self.2 fun part hp => by simpa using (hps part hp).1

theorem params_eq (r : Request) (n : Str) :
    r.params n = valuesOf ((parts r.query).map pairOf) n := by
  rw [← decodedComponents_eq]
  rfl

end RandallFlare.S3
