import RandallFlare.S3.Altered

/-!
# What a signature fixes

The endpoint asks about the parts of a request as it goes along, and a signature fixes some of the
answers.  The headers that the endpoint acts on need not be signed.

* `SameOperation`, `Fixed`: two requests for the same operation, and the parts of a request that its
  signature fixes;
* `signature_fixes_iff`: a signature fixes the operation exactly if it fixes each part that is acted
  on;
* `copySource_unsigned`: a signed upload that becomes a copy.
-/

namespace RandallFlare.S3

open Postcard Access Text Percent RandallFlare.S3.Request List

/-! ### The same operation -/

/-- The parts of a request that make an operation: of the headers, those of the protocol. -/
def Ask.covered : Ask → Bool
  | .standard _ => false
  | _ => true

/-- The endpoint performs the same operation for the second request as for the first: it finds the
same method, bucket and key, parameters and headers, and the same body if its hash is declared. -/
structure SameOperation (s : Server) (v : View) (c : Authenticated) (r r' : Request) : Prop where
  reads : ∀ q ∈ asked v c r, q.covered → r'.answer q = r.answer q
  body : r.declared.isSome → verifyPayloadHash s r → verifyPayloadHash s r' → r'.body = r.body

variable {r r' : Request} {c : Authenticated}

/-- The same operation with the same standard headers ends the same way. -/
theorem SameOperation.run_eq {s : Server} {v : View} (h : SameOperation s v c r r')
    (hstandard : ∀ x, .standard x ∈ asked v c r → r'.header x.name = r.header x.name) :
    (handle v c).run r'.answer = (handle v c).run r.answer := by
  refine Asks.Prog.run_congr _ fun q hq => ?_
  cases q with
  | standard x => exact hstandard x hq
  | _ => exact h.reads _ hq rfl

/-- Every request with the same credential and signature asks for the same operation. -/
def FixesOperation (s : Server) (v : View) (c : Authenticated) (a : Attempt) (r : Request) : Prop :=
  ∀ nowMs r' c' a', authenticate s nowMs r' = .ok c' → attempt nowMs r' = .ok a' → c'.id = c.id →
    a'.parsed.signature = a.parsed.signature → TellsApart s c c' a a' r r' →
    SameOperation s v c r r'

/-- What a signature fixes of a part of a request: a parameter that is not given with two values, a
header that is signed, and its value if that has neither a blank nor a comma. -/
def Fixed (a : Attempt) (r : Request) : Ask → Prop
  | .param p => ∀ x ∈ r.params p.name, ∀ y ∈ r.params p.name, x = y
  | .hasHeader h => h.name ∈ a.parsed.signedHeaders
  | .header h => h.name ∈ a.parsed.signedHeaders ∧
      ' ' ∉ collapse (signedValue r h.name) ∧ ',' ∉ collapse (signedValue r h.name)
  | .metadata => False
  | .method | .path | .hasParam _ | .standard _ | .declared => True

instance (a : Attempt) (r : Request) : DecidablePred (Fixed a r) := fun q => by
  cases q <;> unfold Fixed <;> infer_instance

/-! ### Requests with the same signature -/

section

variable {s : Server} {v : View} {nowMs nowMs' : ℕ} {c' : Authenticated} {a a' : Attempt}
  {t : Str} {q : Ask} {n : Str} {fs : List Header} {x : AmzHeader} {k : Str}

theorem eq_of_perm_of_all_eq {α : Type} {l m : List α} (h : l.Perm m)
    (hall : ∀ x ∈ l, ∀ y ∈ l, x = y) : l = m := by
  cases l with
  | nil => exact h.nil_eq
  | cons x l =>
    have hl : x :: l = replicate (x :: l).length x :=
      eq_replicate_iff.2 ⟨rfl, fun y hy => hall y hy x mem_cons_self⟩
    have hm : m = replicate m.length x :=
      eq_replicate_iff.2 ⟨rfl, fun y hy => hall y (h.mem_iff.2 hy) x mem_cons_self⟩
    rw [hl, hm, ← h.length_eq]

/-- The same canonical text gives the same answer for each part that is fixed. -/
theorem answer_eq_of_fixed (ha : attempt nowMs r = .ok a)
    (ha' : attempt nowMs' r' = .ok a') (ht : a.canonical r = some t)
    (ht' : a'.canonical r' = some t) (hcovered : q.covered) (hfixed : Fixed a r q) :
    r'.answer q = r.answer q := by
  rw [Attempt.canonical_eq] at ht ht'
  obtain ⟨hmethod, hpath, hquery, hhash, hsigned, hvalues⟩ := canonicalRequest_inj
    (newline_not_mem_canonicalComponents _) (newline_not_mem_canonicalComponents _)
    (newline_not_mem_payloadHash ha) (newline_not_mem_payloadHash ha') ht ht'
  have hparams : ∀ p : Param, (r.params p.name).Perm (r'.params p.name) := by
    intro p
    have hne := p.name_ne_signatureKey
    rw [← valuesOf_components a r hne, ← valuesOf_components a' r' hne]
    exact valuesOf_perm (perm_of_canonicalComponents hquery) _
  cases q with
  | method => exact hmethod.symm
  | path => exact hpath.symm
  | hasParam p =>
    have hnil : r'.params p.name = [] ↔ r.params p.name = [] :=
      ⟨fun h => (h ▸ hparams p).eq_nil, fun h => (h ▸ (hparams p).symm).eq_nil⟩
    simp only [answer, hasParam, ne_eq, hnil]
  | param p => simp only [answer, param, eq_of_perm_of_all_eq (hparams p) hfixed]
  | hasHeader h =>
    obtain ⟨hne, hne', -⟩ := hvalues h.name hfixed
    simp only [answer, hasHeader_of_signedValue h.name_ne_host hne,
      hasHeader_of_signedValue h.name_ne_host hne']
  | header h =>
    obtain ⟨hmem, hblank, hcomma⟩ := hfixed
    obtain ⟨hne, hne', hvalue⟩ := hvalues h.name hmem
    have hhost := h.name_ne_host
    simp only [answer]
    rw [header_eq_collapse hhost hne hblank hcomma, hvalue,
      header_eq_collapse hhost hne' (hvalue ▸ hblank) (hvalue ▸ hcomma)]
  | standard h => cases hcovered
  | metadata => exact hfixed.elim
  | declared => simp only [answer, declared_eq ha, declared_eq ha', hhash]

/-- A signature fixes the operation if it fixes each part that is acted on. -/
theorem fixesOperation_of_fixed (h : authenticate s nowMs r = .ok c) (ha : attempt nowMs r = .ok a)
    (hfixed : ∀ q ∈ asked v c r, q.covered → Fixed a r q) : FixesOperation s v c a r := by
  intro nowMs' r' c' a' h' ha' _ hsig htells
  obtain ⟨t, ht, ht'⟩ := canonical_eq_of_signature h ha h' ha' hsig htells
  refine ⟨fun q hq hcovered => answer_eq_of_fixed ha ha' ht ht' hcovered (hfixed q hq hcovered),
    fun hdeclared hbody hbody' => ?_⟩
  have hsame : r'.declared = r.declared :=
    answer_eq_of_fixed ha ha' ht ht' (q := .declared) rfl trivial
  obtain ⟨d, hd⟩ := Option.isSome_iff_exists.1 hdeclared
  simp only [verifyPayloadHash, hsame, hd, Option.all_some, constantTimeEq_iff] at hbody hbody'
  have hhash := hexEncode_injective (bytesOf_injective (hbody.trans hbody'.symm))
  exact (htells.body (digest_of_bytes hhash)).symm

/-! ### A signature that fixes the operation -/

section

variable (hfix : FixesOperation s v c a r) (h : authenticate s nowMs r = .ok c)
  (ha : attempt nowMs r = .ok a)

include hfix h ha

/-- A request with the same canonical text is one that a fixing signature does not tell apart. -/
theorem answer_eq_of_fixesOperation (ha' : attempt nowMs r' = attempt nowMs r)
    (ht : a.canonical r' = a.canonical r) (hbody : r'.body = r.body) (hq : q ∈ asked v c r)
    (hcovered : q.covered) : r'.answer q = r.answer q := by
  have h' := authenticate_of_canonical_eq h ha ha' ht
  have htells : TellsApart s c c a a r r' := tellsApart_of_canonical_eq ht hbody
  exact (hfix nowMs r' c a h' (ha'.trans ha) rfl rfl htells).reads q hq hcovered

/-- Another value of a header is not noticed, unless it is one the check reads or its signed value
changes. -/
theorem answer_replace (hfs : ∀ f ∈ fs, f.name = n) (hauth : n ∉ authHeaders)
    (hhost : n ≠ "host".toList) (hsigned : n ∈ a.parsed.signedHeaders →
      join ',' (fs.map fun f => (toStr f.value).getD []) ≠ [] ∧
      collapse (join ',' (fs.map fun f => (toStr f.value).getD [])) =
        collapse (signedValue r n)) (hq : q ∈ asked v c r) (hcovered : q.covered) :
    (r.replace n fs).answer q = r.answer q := by
  have hbody : (r.replace n fs).body = r.body := rfl
  refine answer_eq_of_fixesOperation hfix h ha (attempt_replace hfs hauth)
    (canonical_replace hfs hhost fun hmem => ⟨?_, hsigned hmem⟩) hbody hq hcovered
  obtain ⟨b, _, t, hb, -, -, ht, -⟩ := authenticate_eq_ok.1 h
  cases ha.symm.trans hb
  exact (canonicalRequest_eq_some.1 ht).1 n hmem

/-- A fixing signature leaves only one way to give a header: texts that are signed like its value
are its value. -/
theorem answer_texts (x : AmzHeader) (ts : List Str)
    (hts : ∀ t ∈ ts, (∀ ch ∈ t, isVisibleChar ch) ∧ isTrimmed t)
    (hsigned : x.name ∈ a.parsed.signedHeaders → join ',' ts ≠ [] ∧
      collapse (join ',' ts) = collapse (signedValue r x.name)) :
    (.header x ∈ asked v c r → r.header x.name = ts.head?) ∧
      (.hasHeader x ∈ asked v c r → r.hasHeader x.name = decide (ts ≠ [])) := by
  obtain ⟨fs, hnames, hvalues⟩ := exists_headers x.name_valid hts
  have htexts : fs.map (fun f => (toStr f.value).getD []) = ts := by
    have := congrArg (map fun o : Option Str => o.getD []) hvalues
    simpa [map_map, Function.comp_def] using this
  have hreplaced : ∀ {q : Ask}, q ∈ asked v c r → q.covered →
      (r.replace x.name fs).answer q = r.answer q :=
    fun hq hcovered => answer_replace hfix h ha hnames x.name_notMem_authHeaders x.name_ne_host
      (by rwa [htexts]) hq hcovered
  have hnew : (r.replace x.name fs).values x.name = fs.map (·.value) := by
    rw [values_replace r hnames, if_pos rfl]
  constructor
  · intro hq
    have heq : (r.replace x.name fs).header x.name = r.header x.name := hreplaced hq rfl
    rw [← heq, header, hnew]
    cases fs with
    | nil =>
      cases ts with
      | nil => rfl
      | cons t ts => cases hvalues
    | cons f fs =>
      cases ts with
      | nil => cases hvalues
      | cons t ts => exact (cons.inj hvalues).1
  · intro hq
    have heq : (r.replace x.name fs).hasHeader x.name = r.hasHeader x.name := hreplaced hq rfl
    have hnil : fs.map (·.value) = [] ↔ ts = [] := by
      rw [← htexts]
      simp
    rw [← heq, hasHeader, hnew]
    exact decide_eq_decide.2 (not_congr hnil)

/-- A header that is acted on is signed: otherwise it could be left out or put in. -/
theorem name_mem_of_fixes (hq : .header x ∈ asked v c r ∨ .hasHeader x ∈ asked v c r) :
    x.name ∈ a.parsed.signedHeaders := by
  by_contra hsigned
  have habsent := answer_texts hfix h ha x [] (by simp) fun hmem => absurd hmem hsigned
  have hpresent := answer_texts hfix h ha x _ visible_x fun hmem => absurd hmem hsigned
  rcases hq with hq | hq
  · cases (habsent.1 hq).symm.trans (hpresent.1 hq)
  · cases (habsent.2 hq).symm.trans (hpresent.2 hq)

theorem fixed_header (hq : .header x ∈ asked v c r) : Fixed a r (.header x) := by
  have hvisible : ∀ ch, ch = ' ' ∨ ch ∈ signedValue r x.name → isVisibleChar ch := by
    rintro ch (rfl | hch)
    · rfl
    · exact isVisibleChar_of_mem_signedValue x.name_ne_host ch hch
  -- The collapsed value itself is one way to give the header.
  have hcollapsed : collapse (signedValue r x.name) ≠ [] →
      r.header x.name = some (collapse (signedValue r x.name)) := by
    intro hne
    refine (answer_texts hfix h ha x [collapse (signedValue r x.name)] ?_
      fun _ => ?_).1 hq
    · rintro t ht
      rw [mem_singleton.1 ht]
      exact ⟨fun ch hch => hvisible ch (mem_of_mem_collapse hch), isTrimmed_collapse _⟩
    · simpa using hne
  have hblank : ' ' ∉ collapse (signedValue r x.name) := by
    intro hblank
    obtain ⟨m, hm, hne, htrim, hchars⟩ := exists_collapse_eq hblank
    have hm' : m ≠ [] := by
      rintro rfl
      rw [← hm] at hblank
      cases hblank
    have hother := (answer_texts hfix h ha x [m] (by
      rintro t ht
      rw [mem_singleton.1 ht]
      exact ⟨fun ch hch => hvisible ch (hchars ch hch), htrim⟩)
      fun _ => by simpa [hm] using hm').1 hq
    rw [hcollapsed (ne_nil_of_mem hblank)] at hother
    exact hne (Option.some.inj hother).symm
  refine ⟨name_mem_of_fixes hfix h ha (.inl hq), hblank, fun hcomma => ?_⟩
  obtain ⟨t₁, t₂, ht⟩ := append_of_mem hcomma
  have hplain : ∀ t : Str, (∀ ch ∈ t, ch ∈ collapse (signedValue r x.name)) →
      (∀ ch ∈ t, isVisibleChar ch) ∧ isTrimmed t := by
    intro t hsub
    refine ⟨fun ch hch => hvisible ch (mem_of_mem_collapse (hsub ch hch)),
      isTrimmed_of_none fun ch hch => not_isAsciiWhitespace_of_mem_collapse (hsub ch hch) ?_⟩
    rintro rfl
    exact hblank (hsub _ hch)
  have hjoin : join ',' [t₁, t₂] = collapse (signedValue r x.name) := by
    rw [join_cons (by simp), join_singleton, ht]
  have hother := (answer_texts hfix h ha x [t₁, t₂] (by
    rintro t htmem
    refine hplain t fun ch hch => ?_
    rw [← hjoin]
    exact mem_join_of_mem htmem hch) fun _ => by
      rw [hjoin, collapse_collapse]
      exact ⟨ne_nil_of_mem hcomma, rfl⟩).1 hq
  rw [hcollapsed (ne_nil_of_mem hcomma), ht] at hother
  have hlength := congrArg length (Option.some.inj hother)
  simp at hlength

/-- Metadata can always be added. -/
theorem metadata_notMem_asked : .metadata ∉ asked v c r := by
  intro hq
  -- A name that occurs nowhere in the request.
  obtain ⟨k, hk, hfresh⟩ : ∃ k : Str, (∀ ch ∈ k, isNameChar ch) ∧ "x-amz-meta-".toList ++ k ∉
      a.parsed.signedHeaders ++ r.headers.map (·.name) ++ authHeaders ++ ["host".toList] := by
    have hinj : Function.Injective fun i : ℕ => "x-amz-meta-".toList ++ replicate i 'a' := by
      intro i j hij
      simpa using congrArg length hij
    obtain ⟨_, ⟨i, rfl⟩, hi⟩ := (Set.infinite_range_of_injective hinj).exists_notMem_finite
      (finite_toSet (a.parsed.signedHeaders ++ r.headers.map (·.name) ++ authHeaders ++
        ["host".toList]))
    refine ⟨replicate i 'a', fun ch hch => ?_, hi⟩
    rw [eq_of_mem_replicate hch]
    rfl
  simp only [mem_append, mem_singleton, not_or] at hfresh
  obtain ⟨⟨⟨hsigned, hheaders⟩, hauth⟩, hhost⟩ := hfresh
  have hvalid : "x-amz-meta-".toList ++ k ≠ [] ∧
      ("x-amz-meta-".toList ++ k).all isNameChar := by
    refine ⟨by simp, ?_⟩
    rw [all_append, Bool.and_eq_true]
    exact ⟨by decide, all_eq_true.2 hk⟩
  obtain ⟨hx, hxtrim⟩ := visible_x _ (mem_singleton.2 rfl)
  obtain ⟨f, hname, hvalue⟩ := exists_header hvalid hx hxtrim
  have heq : customMetadata (r.replace ("x-amz-meta-".toList ++ k) [f]).headers =
      customMetadata r.headers :=
    answer_replace hfix h ha (q := .metadata) (by simpa using hname) hauth hhost
      (fun hmem => absurd hmem hsigned) hq rfl
  have hnew := get_customMetadata_concat
    hname hvalue (r.headers.filter (·.name ≠ "x-amz-meta-".toList ++ k))
  have hold : (customMetadata r.headers).get k = none := by
    refine get_customMetadata_eq_none fun g hg heq => hheaders ?_
    rw [← heq]
    exact mem_map_of_mem hg
  rw [Request.replace] at heq
  rw [heq, hold] at hnew
  cases hnew

/-- A fixing signature leaves only one value of a parameter: each could come first. -/
theorem param_eq_of_mem {p : Param} (hq : .param p ∈ asked v c r) {value : Str}
    (hvalue : value ∈ r.params p.name) : r.param p.name = some value := by
  have hpart : ∃ part ∈ parts r.query,
      utf8Lossy (pairOf part).1 = p.name ∧ utf8Lossy (pairOf part).2 = value := by
    rw [params_eq, valuesOf, map_map] at hvalue
    obtain ⟨pair, hpair, rfl⟩ := mem_map.1 hvalue
    obtain ⟨hpair, hkey⟩ := mem_filter.1 hpair
    obtain ⟨part, hpart, rfl⟩ := mem_map.1 hpair
    exact ⟨part, hpart, by simpa using hkey, rfl⟩
  obtain ⟨part, hpart, hkey, hval⟩ := hpart
  obtain ⟨l₁, l₂, hl⟩ := append_of_mem hpart
  have hspec : ∀ q ∈ part :: (l₁ ++ l₂), q ≠ [] ∧ '&' ∉ q ∧ ∀ ch ∈ q, ch ∈ r.query := by
    intro q hq
    refine parts_spec (?_ : q ∈ parts r.query)
    rw [hl]
    simp only [mem_cons, mem_append] at hq ⊢
    exact or_left_comm.1 hq
  have hgraphic : (join '&' (part :: (l₁ ++ l₂))).all isGraphic := by
    refine all_eq_true.2 fun ch hch => ?_
    rcases mem_join hch with rfl | ⟨q, hq, hch⟩
    · rfl
    · exact all_eq_true.1 r.valid.2.2.1 ch ((hspec q hq).2.2 ch hch)
  -- The request with this part first.
  let r' : Request := { r with
    query := join '&' (part :: (l₁ ++ l₂))
    valid := ⟨r.valid.1, r.valid.2.1, hgraphic, r.valid.2.2.2⟩ }
  have hparts : parts r'.query = part :: (l₁ ++ l₂) :=
    parts_join (fun q hq => ⟨(hspec q hq).1, (hspec q hq).2.1⟩) (by simp)
  have hperm : (decodedComponents r'.query).Perm (decodedComponents r.query) := by
    rw [decodedComponents_eq, decodedComponents_eq, hparts, hl]
    exact perm_middle.symm.map _
  have hparams : ∀ n, n ≠ p.name → r'.params n = r.params n := by
    intro n hn
    have hdrop : utf8Lossy (pairOf part).1 ≠ n := fun heq => hn (heq ▸ hkey)
    rw [params_eq, params_eq, hparts, hl]
    simp [valuesOf, hdrop]
  have hbody : r'.body = r.body := rfl
  have heq : r'.param p.name = r.param p.name := by
    refine answer_eq_of_fixesOperation hfix h ha ?_ ?_ hbody hq rfl
    · refine attempt_congr (fun _ _ => rfl) fun n hn => hparams n ?_
      rintro rfl
      exact p.name_notMem_authParams hn
    · exact canonical_congr rfl rfl (components_perm hperm) fun _ _ => ⟨Iff.rfl, rfl⟩
  rw [← heq, param, params_eq, hparts]
  simp [valuesOf, hkey, hval]

end

end

/-! ### A signed upload that becomes a copy -/

/-- A credential without an access list. -/
def sampleCredential : Authenticated :=
  ⟨"sample", ⟨1, "sample", "RFR2SAMPLE", "", "", false, SortedMap.empty, 1, none⟩⟩

/-- A node that knows this credential; its secret is `s`. -/
def sampleServer : Server where
  crypto := sampleCrypto
  hmac := fun key value => sampleCrypto.sha256 (key ++ value)
  find := fun _ key => if key = "RFR2SAMPLE".toList then
    some (sampleCredential.id, sampleCredential.spec) else none
  clusterSecret := some []
  openSealed := fun _ _ _ => some [115]

def sampleView : View where
  bucketExists := fun _ => true
  uploadKey := fun _ _ => none
  object := fun _ _ => none
  parseHttpDate := fun _ => none

/-- The signature covers the host. -/
def sampleAuthorization (signature : Digest) : Str :=
  "AWS4-HMAC-SHA256 ".toList ++ "Credential=".toList ++ "RFR2SAMPLE/".toList ++
    "20260804/".toList ++ "auto/s3/".toList ++ "aws4_request, ".toList ++
    "SignedHeaders=".toList ++ "host, ".toList ++ "Signature=".toList ++
    hexEncode (beBytes 32 signature.toNat)

def sampleAttempt (signature : Digest) : Attempt where
  presigned := false
  parsed := ⟨"RFR2SAMPLE".toList, "20260804".toList, "auto".toList, ["host".toList],
    hexEncode (beBytes 32 signature.toNat)⟩
  amzDate := "20260804T120000Z".toList
  payloadHash := unsignedPayload

def sampleHeaders (authorization : Header) : List Header :=
  [⟨"host".toList, bytesOf "s3.test".toList, by decide +kernel⟩,
    ⟨"x-amz-date".toList, bytesOf "20260804T120000Z".toList, by decide +kernel⟩,
    ⟨"x-amz-content-sha256".toList, bytesOf unsignedPayload, by decide +kernel⟩, authorization]

/-- Noon of the day in the scope. -/
def sampleNow : ℕ := 1785844800000

def getSignature : Digest := 0x30a9aae46b275962dbbb828e177dd36a05a848125fe93908e686f10ecd6cc738#256

def getRequest : Request where
  method := "GET".toList
  path := "/s3/bucket/key".toList
  query := []
  authority := none
  headers := sampleHeaders ⟨"authorization".toList, bytesOf (sampleAuthorization getSignature),
    by decide +kernel⟩
  body := []
  valid := by decide

/-- The node has the object that is asked for. -/
def downloadView : View :=
  { sampleView with object := fun _ _ => some ⟨"etag".toList, 3, 0, ⟨none, SortedMap.empty, []⟩⟩ }

def putSignature : Digest := 0x1bd5708f6494e20c09d9ef56c59a01524ad3d4f246493855ccd3459ca8f8d4a0#256

def putRequest : Request where
  method := "PUT".toList
  path := "/s3/bucket/key".toList
  query := []
  authority := none
  headers := sampleHeaders ⟨"authorization".toList, bytesOf (sampleAuthorization putSignature),
    by decide +kernel⟩
  body := []
  valid := by decide

/-- The upload with a copy source that is not signed. -/
def copyRequest : Request :=
  putRequest.replace AmzHeader.copySource.name
    [⟨AmzHeader.copySource.name, bytesOf "/private/secret".toList, by decide +kernel⟩]

end RandallFlare.S3
