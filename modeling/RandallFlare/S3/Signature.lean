import RandallFlare.Access.Revocation
import RandallFlare.Lib.Joins
import RandallFlare.Lib.Percent
import Mathlib.Data.Nat.Bitwise

/-!
# Signatures of S3 requests

A translation of how `rf/src/s3.rs` checks an AWS signature (version 4), in the `Authorization`
header or in a presigned URL.  What is signed is a canonical text of the request: method, path, the
query with its parts sorted, the headers that the client lists, with white space collapsed and
repeated headers joined, and the declared hash of the body.

* `Request`, `Header`: a request as it is received;
* `canonicalRequest`, `stringToSign`: what is signed;
* `attempt`, `authenticate`: the check; `authenticate_eq_ok` what passes it.
-/

namespace RandallFlare.S3

open Postcard Access Fallible List Text Percent

/-- Rust's `str`. -/
abbrev Str := List Char

/-- `as_bytes`. -/
def bytesOf (t : Str) : Bytes := t.flatMap String.utf8EncodeChar

theorem bytesOf_eq (t : Str) : bytesOf t = utf8 (String.ofList t) := by
  simp [bytesOf, utf8, utf8Encode]

theorem bytesOf_injective : Function.Injective bytesOf := by
  intro a b h
  rw [bytesOf_eq, bytesOf_eq] at h
  have hbytes : (String.ofList a).toByteArray = (String.ofList b).toByteArray :=
    ByteArray.ext (Array.ext' h)
  exact String.ofList_injective (String.toByteArray_inj.1 hbytes)

/-! ### Requests -/

/-- A character of a header name; names are kept in lower case. -/
def isNameChar (c : Char) : Bool :=
  ('a' ≤ c && c ≤ 'z') || ('0' ≤ c && c ≤ '9') || c ∈ "!#$%&'*+-.^_`|~".toList

/-- A byte that `to_str` shows. -/
def isVisible (b : UInt8) : Bool := (32 ≤ b.toNat && b.toNat < 127) || b.toNat = 9

/-- A field of a request: no control characters in its value, and no white space at the ends. -/
def isField (name : Str) (value : Bytes) : Bool :=
  name ≠ [] && name.all isNameChar &&
    value.all (fun b => isVisible b || 128 ≤ b.toNat) &&
    value.head?.all (fun b => b ≠ 32 && b ≠ 9) && value.getLast?.all (fun b => b ≠ 32 && b ≠ 9)

structure Header where
  name : Str
  value : Bytes
  valid : isField name value

/-- A character of a request line. -/
def isGraphic (c : Char) : Bool := 32 < c.toNat && c.toNat ≠ 127

/-- A request; without a query the query is empty. -/
structure Request where
  method : Str
  path : Str
  query : Str
  authority : Option Str
  headers : List Header
  body : Bytes
  valid : method.all isGraphic ∧ path.all isGraphic ∧ query.all isGraphic ∧
    authority.all (·.all isGraphic)

def toStr (value : Bytes) : Option Str :=
  if value.all isVisible then some (value.map fun b => Char.ofNat b.toNat) else none

namespace Request

/-- `get_all`. -/
def values (r : Request) (name : Str) : List Bytes :=
  (r.headers.filter (·.name = name)).map (·.value)

/-- `contains_key`. -/
def hasHeader (r : Request) (name : Str) : Bool := r.values name ≠ []

/-- `get` and `to_str`. -/
def header (r : Request) (name : Str) : Option Str := (r.values name).head?.bind toStr

end Request

/-! ### The query -/

/-- The parts of a query, before and after their first `=`. -/
def components (raw : Str) : List (Str × Str) :=
  ((raw.splitOn '&').filter (· ≠ [])).map fun c => (splitOnce '=' c).getD (c, [])

/-- `percent_decode_str`. -/
def percentDecode (t : Str) : Bytes := decode (bytesOf t)

/-- The parts with their percent-encoding undone. -/
def decodedComponents (raw : Str) : List (Bytes × Bytes) :=
  (components raw).map fun c => (percentDecode c.1, percentDecode c.2)

/-- `parse_query`: the keys with their values, in the order of the query. -/
def parseQuery (raw : Str) : List (Str × Str) :=
  (decodedComponents raw).map fun c => (utf8Lossy c.1, utf8Lossy c.2)

namespace Request

/-- The values of a key. -/
def params (r : Request) (name : Str) : List Str :=
  ((parseQuery r.query).filter (·.1 = name)).map (·.2)

/-- `query_one`. -/
def param (r : Request) (name : Str) : Option Str := (r.params name).head?

/-- `contains_key` on the query. -/
def hasParam (r : Request) (name : Str) : Bool := r.params name ≠ []

end Request

def awsEncode : Bytes → Str := encode

/-- The parts of a query, encoded, sorted and joined. -/
def canonicalComponents (cs : List (Bytes × Bytes)) : Str :=
  join '&' (((cs.map fun c => toLex (awsEncode c.1, awsEncode c.2)).insertionSort
    (· ≤ ·)).map fun c => (ofLex c).1 ++ '=' :: (ofLex c).2)

def canonicalQuery (raw : Str) : Str := canonicalComponents (decodedComponents raw)

def signatureKey : Str := "X-Amz-Signature".toList

def canonicalQueryPresigned (raw : Str) : Str :=
  canonicalComponents ((decodedComponents raw).filter (·.1 ≠ bytesOf signatureKey))

/-! ### What is signed -/

structure ParsedAuthorization where
  accessKeyId : Str
  dateStamp : Str
  region : Str
  signedHeaders : List Str
  signature : Str
  deriving DecidableEq

/-- The values of a signed header, joined; over HTTP/2 the host is the authority of the URI. -/
def signedValue (r : Request) (name : Str) : Str :=
  let values := join ',' ((r.values name).map fun v => (toStr v).getD [])
  if values = [] ∧ name = "host".toList then r.authority.getD [] else values

/-- The line of each signed header, if none is absent. -/
def headerLines (r : Request) (names : List Str) : Option (List Str) :=
  names.mapM fun name =>
    let values := signedValue r name
    if values = [] then none else some (name ++ ':' :: collapse values)

/-- The canonical text of a request with this query and hash of the body. -/
def canonicalRequest (r : Request) (parsed : ParsedAuthorization) (query payloadHash : Str) :
    Option Str :=
  (headerLines r parsed.signedHeaders).map fun lines =>
    let canonicalHeaders := lines.flatMap (· ++ ['\n'])
    r.method ++ '\n' :: r.path ++ '\n' :: query ++ '\n' :: canonicalHeaders ++
      '\n' :: join ';' parsed.signedHeaders ++ '\n' :: payloadHash

/-- The node's hash and MAC, and what it knows of the credentials. -/
structure Server where
  crypto : Crypto
  hmac : Bytes → Bytes → Digest
  /-- The credential of an access key, at a time of the node's clock: `findCredential`. -/
  find : ℕ → Str → Option (String × S3CredentialSpec)
  clusterSecret : Option Bytes
  /-- `sealed::open` of the credential's secret. -/
  openSealed : Bytes → String → S3CredentialSpec → Option Bytes

namespace Server

/-- `hmac`, as bytes. -/
def mac (s : Server) (key value : Bytes) : Bytes := beBytes 32 (s.hmac key value).toNat

def signingKey (s : Server) (secret : Str) (parsed : ParsedAuthorization) : Bytes :=
  let dateKey := s.mac (bytesOf ("AWS4".toList ++ secret)) (bytesOf parsed.dateStamp)
  let regionKey := s.mac dateKey (bytesOf parsed.region)
  let serviceKey := s.mac regionKey (bytesOf "s3".toList)
  s.mac serviceKey (bytesOf "aws4_request".toList)

def stringToSign (s : Server) (parsed : ParsedAuthorization) (amzDate canonical : Str) : Str :=
  let scope := parsed.dateStamp ++ '/' :: parsed.region ++ "/s3/aws4_request".toList
  "AWS4-HMAC-SHA256\n".toList ++ amzDate ++ '\n' :: scope ++
    '\n' :: hexEncode (beBytes 32 (s.crypto.sha256 (bytesOf canonical)).toNat)

end Server

/-- What a request claims: how it is signed, when, and for which body. -/
structure Attempt where
  presigned : Bool
  parsed : ParsedAuthorization
  amzDate : Str
  payloadHash : Str
  deriving DecidableEq

/-- The canonical text that the attempt is about. -/
def Attempt.canonical (a : Attempt) (r : Request) : Option Str :=
  canonicalRequest r a.parsed
    (if a.presigned then canonicalQueryPresigned r.query else canonicalQuery r.query) a.payloadHash

/-- `expected_signature` and `expected_presigned_signature`. -/
def expectedSignature (s : Server) (secret : Str) (a : Attempt) (r : Request) : Option Str :=
  (a.canonical r).map fun canonical =>
    hexEncode (s.mac (s.signingKey secret a.parsed)
      (bytesOf (s.stringToSign a.parsed a.amzDate canonical)))

/-! ### Dates -/

/-- `parse::<i64>`, of a short text. -/
def parseI64 (t : Str) : Option ℤ :=
  let digits := fun ds : Str =>
    if ds ≠ [] ∧ ds.all Char.isDigit then some (Nat.ofDigitChars 10 ds 0 : ℤ) else none
  match t with
  | '-' :: ds => (digits ds).map (- ·)
  | '+' :: ds => digits ds
  | ds => digits ds

def daysInMonth (year month : ℤ) : Option ℤ :=
  let leap := year.tmod 4 = 0 ∧ (year.tmod 100 ≠ 0 ∨ year.tmod 400 = 0)
  if month ∈ [1, 3, 5, 7, 8, 10, 12] then some 31
  else if month ∈ [4, 6, 9, 11] then some 30
  else if month = 2 then some (if leap then 29 else 28)
  else none

def daysFromCivil (year month day : ℤ) : ℤ :=
  let year := if month ≤ 2 then year - 1 else year
  let era := (if 0 ≤ year then year else year - 399).tdiv 400
  let yoe := year - era * 400
  let shifted := month + if 2 < month then -3 else 9
  let doy := (153 * shifted + 2).tdiv 5 + day - 1
  let doe := yoe * 365 + yoe.tdiv 4 - yoe.tdiv 100 + doy
  era * 146097 + doe - 719468

/-- `parse_amz_date`: milliseconds of the epoch. -/
def parseAmzDate (t : Str) : Option ℕ := do
  let number := fun first last => parseI64 ((t.take last).drop first)
  if t.length ≠ 16 ∨ t[8]? ≠ some 'T' ∨ t.getLast? ≠ some 'Z' then none
  else
    let year ← number 0 4
    let month ← number 4 6
    let day ← number 6 8
    let hour ← number 9 11
    let minute ← number 11 13
    let second ← number 13 15
    let days ← daysInMonth year month
    if ¬ (1 ≤ month ∧ month ≤ 12) ∨ day < 1 ∨ days < day ∨ 23 < hour ∨ 59 < minute ∨
        59 < second then none
    else
      let seconds := daysFromCivil year month day * 86400 + (hour * 3600 + minute * 60 + second)
      if seconds < 0 then none else some (seconds.toNat * 1000)

/-! ### The check -/

/-- An answer of the endpoint that is an error. -/
structure S3Error where
  status : ℕ
  code : String
  message : String
  resource : Option Str := none
  deriving DecidableEq

def isHexDigit (c : Char) : Bool := (hexVal c).isSome

/-- The list of signed headers: increasing, with the host. -/
def parseSignedHeaders (t : Str) : Option (List Str) :=
  let names := (t.splitOn ';').map (·.map Char.toLower)
  if (names.zip names.tail).any (fun p => p.2 ≤ p.1) ∨ "host".toList ∉ names then none
  else some names

/-- Access key, date and region of a credential scope. -/
def parseScope (t : Str) : Option (Str × Str × Str) :=
  match t.splitOn '/' with
  | [key, date, region, service, terminator] =>
      if service = "s3".toList ∧ terminator = "aws4_request".toList then some (key, date, region)
      else none
  | _ => none

/-- A signature is 64 hexadecimal digits of either case. -/
def parseSignature (t : Str) : Option Str :=
  let signature := t.map Char.toLower
  if signature.length ≠ 64 ∨ ¬ signature.all isHexDigit then none else some signature

def parseAuthorization (value : Str) : Option ParsedAuthorization := do
  let rest ← stripStart "AWS4-HMAC-SHA256 ".toList value
  let fields ← (rest.splitOn ',').mapM fun component => splitOnce '=' (trim component)
  -- A field that is given again replaces the one before.
  let field := fun name : String => fields.reverse.lookup name.toList
  let credential ← field "Credential"
  let (accessKeyId, dateStamp, region) ← parseScope credential
  let signedHeaders ← (field "SignedHeaders").bind parseSignedHeaders
  let signature ← (field "Signature").bind parseSignature
  some { accessKeyId, dateStamp, region, signedHeaders, signature }

def unsignedPayload : Str := "UNSIGNED-PAYLOAD".toList

/-- Fail with this error if there is no value. -/
def orFail {α : Type} (e : S3Error) : Option α → Except S3Error α
  | some a => .ok a
  | none => .error e

/-- The checks of a request with an `Authorization` header before its credential is looked up. -/
def headerAttempt (nowMs : ℕ) (r : Request) : Except S3Error Attempt := do
  let parsed ← orFail ⟨401, "InvalidRequest", "缺少或无法解析 Signature V4 Authorization", none⟩
    ((r.header "authorization".toList).bind parseAuthorization)
  let date := (r.header "x-amz-date".toList).getD []
  let requestMs ← orFail ⟨400, "InvalidRequest", "x-amz-date 格式无效", none⟩ (parseAmzDate date)
  failIf (15 * 60 * 1000 < ((nowMs : ℤ) - requestMs).natAbs ∨ ¬ parsed.dateStamp <+: date)
    ⟨403, "RequestTimeTooSkewed", "请求时间与节点相差超过 15 分钟", none⟩
  let payloadHash ← orFail ⟨400, "InvalidRequest", "缺少 x-amz-content-sha256", none⟩
    (r.header "x-amz-content-sha256".toList)
  failIf (payloadHash ≠ unsignedPayload ∧
      (payloadHash.length ≠ 64 ∨ ¬ payloadHash.all isHexDigit))
    ⟨400, "InvalidRequest", "x-amz-content-sha256 无效", none⟩
  .ok ⟨false, parsed, date, payloadHash⟩

/-- The checks of a presigned URL before its credential is looked up. -/
def presignedAttempt (nowMs : ℕ) (r : Request) : Except S3Error Attempt := do
  let parameter := fun name : String =>
    orFail ⟨400, "InvalidRequest", "预签名 URL 缺少必要的 X-Amz 参数", none⟩ (r.param name.toList)
  let algorithm ← parameter "X-Amz-Algorithm"
  failIf (algorithm ≠ "AWS4-HMAC-SHA256".toList ∨
      r.hasParam "X-Amz-Security-Token".toList)
    ⟨400, "InvalidRequest", "预签名 URL 的算法或临时安全令牌不受支持", none⟩
  let credential ← parameter "X-Amz-Credential"
  let (accessKeyId, dateStamp, region) ← orFail
    ⟨400, "InvalidRequest", "预签名 URL 的 Credential scope 无效", none⟩ (parseScope credential)
  let signed ← parameter "X-Amz-SignedHeaders"
  let signedHeaders ← orFail ⟨400, "InvalidRequest", "预签名 URL 的 SignedHeaders 无效", none⟩
    (parseSignedHeaders signed)
  let given ← parameter "X-Amz-Signature"
  let signature ← orFail ⟨400, "InvalidRequest", "预签名 URL 的 Signature 无效", none⟩
    (parseSignature given)
  let amzDate ← parameter "X-Amz-Date"
  let requestMs ← orFail ⟨400, "InvalidRequest", "预签名 URL 的 X-Amz-Date 无效", none⟩
    (parseAmzDate amzDate)
  let lifetime ← parameter "X-Amz-Expires"
  let expires ← orFail
    ⟨400, "InvalidRequest", "预签名 URL 的有效期必须介于 1 秒和 7 天之间", none⟩
    ((parseUnsigned 64 lifetime).filter fun seconds => 1 ≤ seconds && seconds ≤ 604800)
  failIf (nowMs + 15 * 60 * 1000 < requestMs ∨ requestMs + expires * 1000 < nowMs)
    ⟨403, "AccessDenied", "预签名 URL 尚未生效或已经过期", none⟩
  failIf (¬ dateStamp <+: amzDate)
    ⟨400, "InvalidRequest", "预签名 URL 的日期与 Credential scope 不一致", none⟩
  .ok ⟨true, { accessKeyId, dateStamp, region, signedHeaders, signature }, amzDate,
    (r.header "x-amz-content-sha256".toList).getD unsignedPayload⟩

def attempt (nowMs : ℕ) (r : Request) : Except S3Error Attempt :=
  if ¬ r.hasHeader "authorization".toList ∧ r.hasParam "X-Amz-Algorithm".toList then
    presignedAttempt nowMs r
  else headerAttempt nowMs r

deriving instance DecidableEq for BucketGrant
deriving instance DecidableEq for S3CredentialSpec

structure Authenticated where
  id : String
  spec : S3CredentialSpec
  deriving DecidableEq

def Server.secret (s : Server) (c : Authenticated) : Except S3Error Str := do
  let clusterSecret ← orFail ⟨503, "ServiceUnavailable", "节点凭据配置不可用", none⟩ s.clusterSecret
  let raw ← orFail ⟨503, "ServiceUnavailable", "节点无法解密凭据", none⟩
    (s.openSealed clusterSecret c.id c.spec)
  orFail ⟨503, "ServiceUnavailable", "节点凭据编码无效", none⟩ (utf8Strict raw)

def constantTimeEq (left right : Bytes) : Bool :=
  (range (max left.length right.length)).foldl
    (fun difference i => difference ||| ((left[i]?).getD 0 ^^^ (right[i]?).getD 0).toNat)
    (left.length ^^^ right.length) = 0

/-- `authenticate` and `authenticate_presigned`. -/
def authenticate (s : Server) (nowMs : ℕ) (r : Request) : Except S3Error Authenticated := do
  let a ← attempt nowMs r
  let (id, spec) ← orFail ⟨403, "InvalidAccessKeyId", "Access Key ID 不存在", none⟩
    (s.find nowMs a.parsed.accessKeyId)
  let secret ← s.secret ⟨id, spec⟩
  let expected ← orFail
    ⟨400, "InvalidRequest", if a.presigned then "预签名 URL 规范化失败" else "签名规范化失败", none⟩
    (expectedSignature s secret a r)
  failIf (¬ constantTimeEq (bytesOf expected) (bytesOf a.parsed.signature))
    ⟨403, "SignatureDoesNotMatch",
      if a.presigned then "预签名 URL 的签名不匹配" else "请求签名不匹配", none⟩
  .ok ⟨id, spec⟩

/-! ### What passes the check -/

@[simp]
theorem orFail_eq_ok {α : Type} {e : S3Error} {o : Option α} {a : α} :
    orFail e o = .ok a ↔ o = some a := by
  cases o <;> simp [orFail]

theorem foldl_or_eq_zero {f : ℕ → ℕ} {l : List ℕ} {d : ℕ} :
    l.foldl (fun d i => d ||| f i) d = 0 ↔ d = 0 ∧ ∀ i ∈ l, f i = 0 := by
  induction l generalizing d with
  | nil => simp
  | cons i l ih =>
    rw [foldl_cons, ih, Nat.or_eq_zero_iff]
    simp [and_assoc]

theorem constantTimeEq_iff {left right : Bytes} : constantTimeEq left right ↔ left = right := by
  rw [constantTimeEq, decide_eq_true_eq, foldl_or_eq_zero, Nat.xor_eq_zero_iff]
  constructor
  · rintro ⟨hlength, hall⟩
    refine ext_getElem hlength fun i h₁ h₂ => ?_
    have h := hall i (mem_range.2 (by omega))
    rw [getElem?_eq_getElem h₁, getElem?_eq_getElem h₂] at h
    exact UInt8.xor_eq_zero_iff.1 (UInt8.toNat_inj.1 h)
  · rintro rfl
    simp

variable {nowMs : ℕ}

/-- **A request is authenticated if it carries the MAC of its canonical text.** -/
theorem authenticate_eq_ok {s : Server} {r : Request} {c : Authenticated} :
    authenticate s nowMs r = .ok c ↔ ∃ a secret canonical, attempt nowMs r = .ok a ∧
        s.find nowMs a.parsed.accessKeyId = some (c.id, c.spec) ∧ s.secret c = .ok secret ∧
        a.canonical r = some canonical ∧
        a.parsed.signature = hexEncode (s.mac (s.signingKey secret a.parsed)
          (bytesOf (s.stringToSign a.parsed a.amzDate canonical))) := by
  simp only [authenticate, bind_eq_ok, orFail_eq_ok, failIf_eq_ok,
    expectedSignature, Option.map_eq_some_iff, not_not, constantTimeEq_iff]
  constructor
  · rintro ⟨a, ha, ⟨id, spec⟩, hfind, secret, hsecret, _, ⟨canonical, hcanonical, rfl⟩, _, hsig,
      hok⟩
    cases hok
    exact ⟨a, secret, canonical, ha, hfind, hsecret, hcanonical, (bytesOf_injective hsig).symm⟩
  · rintro ⟨a, secret, canonical, ha, hfind, hsecret, hcanonical, hsig⟩
    exact ⟨a, ha, (c.id, c.spec), hfind, secret, hsecret, _, ⟨canonical, hcanonical, rfl⟩, (),
      by rw [hsig], rfl⟩

theorem payloadHash_of_attempt {r : Request} {a : Attempt} (h : attempt nowMs r = .ok a) :
    a.payloadHash = (r.header "x-amz-content-sha256".toList).getD unsignedPayload := by
  unfold attempt at h
  split_ifs at h
  · simp only [presignedAttempt, bind_eq_ok] at h
    -- Algorithm, token, scope, headers, signature, date, lifetime and the times.
    obtain ⟨_, _, _, _, _, _, _, _, _, _, h⟩ := h
    obtain ⟨_, _, _, _, _, _, _, _, _, _, _, _, _, _, _, _, _, _, h⟩ := h
    cases h
    rfl
  · simp only [headerAttempt, bind_eq_ok, orFail_eq_ok] at h
    obtain ⟨_, _, _, _, _, _, payloadHash, hpayload, _, _, h⟩ := h
    cases h
    rw [hpayload]
    rfl

/-- The headers and parameters that the check reads besides the signed headers. -/
def authHeaders : List Str :=
  ["authorization".toList, "x-amz-date".toList, "x-amz-content-sha256".toList]

def authParams : List Str :=
  ["X-Amz-Algorithm", "X-Amz-Security-Token", "X-Amz-Credential", "X-Amz-SignedHeaders",
    "X-Amz-Signature", "X-Amz-Date", "X-Amz-Expires"].map String.toList

theorem attempt_congr {r r' : Request} (hheaders : ∀ n ∈ authHeaders, r'.values n = r.values n)
    (hparams : ∀ n ∈ authParams, r'.params n = r.params n) :
    attempt nowMs r' = attempt nowMs r := by
  simp only [authHeaders, authParams, map_cons, map_nil, forall_mem_cons,
    not_mem_nil, false_imp_iff, implies_true, and_true] at hheaders hparams
  obtain ⟨h₁, h₂, h₃⟩ := hheaders
  obtain ⟨p₁, p₂, p₃, p₄, p₅, p₆, p₇⟩ := hparams
  simp only [attempt, headerAttempt, presignedAttempt, Request.header, Request.hasHeader,
    Request.param, Request.hasParam, h₁, h₂, h₃, p₁, p₂, p₃, p₄, p₅, p₆, p₇]
  rfl

end RandallFlare.S3
