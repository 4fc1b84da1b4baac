import RandallFlare.S3.Signature
import RandallFlare.Lib.Asks

/-!
# What the S3 endpoint does with a request

A translation of `handle_result`, `object_request` and what they call in `rf/src/s3.rs`, as a
program that asks for the parts of the request it acts on, in the order of the source, and ends with
the operation on the store.  What the node knows of buckets, uploads and objects is given.

* `Ask`, `Request.answer`: the parts of a request;
* `handle`: the endpoint, once a request is authenticated; `asked` what it reads.
-/

namespace RandallFlare.S3

open Postcard Access Text

/-- A parameter that the endpoint reads. -/
inductive Param
  | uploads
  | pre
  | uploadIdMarker
  | maxUploads
  | keyMarker
  | continuationToken
  | maxKeys
  | delimiter
  | uploadId
  | partNumberMarker
  | maxParts
  | partNumber
  deriving DecidableEq

def Param.name : Param → Str
  | .uploads => "uploads".toList
  | .pre => "prefix".toList
  | .uploadIdMarker => "upload-id-marker".toList
  | .maxUploads => "max-uploads".toList
  | .keyMarker => "key-marker".toList
  | .continuationToken => "continuation-token".toList
  | .maxKeys => "max-keys".toList
  | .delimiter => "delimiter".toList
  | .uploadId => "uploadId".toList
  | .partNumberMarker => "part-number-marker".toList
  | .maxParts => "max-parts".toList
  | .partNumber => "partNumber".toList

/-- A header of the protocol that the endpoint acts on by its name. -/
inductive AmzHeader
  | copySource
  | copySourceRange
  | copySourceIfMatch
  | copySourceIfNoneMatch
  | copySourceIfUnmodifiedSince
  | copySourceIfModifiedSince
  | metadataDirective
  deriving DecidableEq

def AmzHeader.name : AmzHeader → Str
  | .copySource => "x-amz-copy-source".toList
  | .copySourceRange => "x-amz-copy-source-range".toList
  | .copySourceIfMatch => "x-amz-copy-source-if-match".toList
  | .copySourceIfNoneMatch => "x-amz-copy-source-if-none-match".toList
  | .copySourceIfUnmodifiedSince => "x-amz-copy-source-if-unmodified-since".toList
  | .copySourceIfModifiedSince => "x-amz-copy-source-if-modified-since".toList
  | .metadataDirective => "x-amz-metadata-directive".toList

/-- A header of HTTP itself that the endpoint reads. -/
inductive StandardHeader
  | cacheControl
  | contentDisposition
  | contentEncoding
  | contentLanguage
  | contentType
  | ifMatch
  | ifNoneMatch
  | range
  deriving DecidableEq

def StandardHeader.name : StandardHeader → Str
  | .cacheControl => "cache-control".toList
  | .contentDisposition => "content-disposition".toList
  | .contentEncoding => "content-encoding".toList
  | .contentLanguage => "content-language".toList
  | .contentType => "content-type".toList
  | .ifMatch => "if-match".toList
  | .ifNoneMatch => "if-none-match".toList
  | .range => "range".toList

/-- A part of a request that the endpoint reads. -/
inductive Ask
  | method
  | path
  | hasParam (p : Param)
  | param (p : Param)
  | hasHeader (h : AmzHeader)
  | header (h : AmzHeader)
  | standard (h : StandardHeader)
  /-- The headers `x-amz-meta-*`. -/
  | metadata
  /-- The hash of the body that has to be checked. -/
  | declared
  deriving DecidableEq

abbrev Ask.Answer : Ask → Type
  | .method | .path => Str
  | .hasParam _ | .hasHeader _ => Bool
  | .param _ | .header _ | .standard _ | .declared => Option Str
  | .metadata => SortedMap Str Str

/-- A program that reads a request. -/
abbrev Prog := Asks.Prog Ask Ask.Answer

def ask (q : Ask) : Prog q.Answer := Asks.Prog.question q

/-- Add a header to the custom metadata, if it belongs there and can be shown. -/
def addMetadata (m : SortedMap Str Str) (h : Header) : SortedMap Str Str :=
  match stripStart "x-amz-meta-".toList h.name, toStr h.value with
  | some name, some value => m.insert name value
  | _, _ => m

/-- The custom metadata of `put_options`: a header that is repeated replaces the one before. -/
def customMetadata (headers : List Header) : SortedMap Str Str :=
  headers.foldl addMetadata SortedMap.empty

/-- `declared_payload_hash`, if it asks for a check. -/
def Request.declared (r : Request) : Option Str :=
  (r.header "x-amz-content-sha256".toList).filter (· ≠ unsignedPayload)

def Request.answer (r : Request) : ∀ q : Ask, q.Answer
  | .method => r.method
  | .path => r.path
  | .hasParam p => r.hasParam p.name
  | .param p => r.param p.name
  | .hasHeader h => r.hasHeader h.name
  | .header h => r.header h.name
  | .standard h => r.header h.name
  | .metadata => customMetadata r.headers
  | .declared => r.declared

def verifyPayloadHash (s : Server) (r : Request) : Bool :=
  r.declared.all fun declared => constantTimeEq
    (bytesOf (hexEncode (beBytes 32 (s.crypto.sha256 r.body).toNat)))
    (bytesOf (declared.map Char.toLower))

/-! ### The store and the operations on it -/

structure PutOptions where
  contentType : Option Str
  customMetadata : SortedMap Str Str
  httpMetadata : List (String × Str)

structure ObjectMeta where
  etag : Str
  size : ℕ
  uploadedAtMs : ℕ
  options : PutOptions

/-- What the node finds when it handles the request. -/
structure View where
  bucketExists : Str → Bool
  /-- The key of an upload of a bucket. -/
  uploadKey : Str → Str → Option Str
  object : Str → Str → Option ObjectMeta
  /-- `httpdate::parse_http_date`, in milliseconds of the epoch. -/
  parseHttpDate : Str → Option ℕ

/-- The end of a request: an error, or what is done. -/
inductive Operation
  | fail (e : S3Error)
  | failed (message : String)
  | acknowledge
  | notModified
  | listBuckets
  | listUploads (bucket pre : Str) (marker : Option Str) (limit : ℕ) (keyMarker : Str)
  | listObjects (bucket pre : Str) (token : Option Str) (limit : ℕ) (delimiter : Str)
  | createUpload (bucket key : Str) (options : PutOptions)
  | listParts (bucket key uploadId : Str) (marker limit : ℕ)
  | abortUpload (bucket key uploadId : Str)
  | uploadPartCopy (bucket key uploadId : Str) (partNumber : ℕ) (source : Str × Str)
      (offset length : ℕ)
  | uploadPart (bucket key uploadId : Str) (partNumber : ℕ) (declared : Option Str)
  | completeUpload (bucket key uploadId : Str) (declared : Option Str)
  | getObject (bucket key : Str) (headOnly : Bool) (start length : ℕ)
  | copyObject (bucket key : Str) (source : Str × Str) (options : PutOptions)
  | putObject (bucket key : Str) (options : PutOptions) (declared : Option Str)
  | deleteObject (bucket key : Str)

def Authenticated.may (c : Authenticated) (bucket : Str) (write : Bool) : Bool :=
  !c.spec.aclEnabled || (c.spec.grants.get (String.ofList bucket)).any fun grant =>
    if write then grant.write else grant.read

/-- `r2::validate_key`. -/
def validKey (key : Str) : Bool :=
  key ≠ [] && (bytesOf key).length ≤ 1024 && key.all fun c => c ≠ '\x00' && c ≠ '\r' && c ≠ '\n'

def etagHeaderMatches (header etag : Str) : Bool :=
  (header.splitOn ',').any fun candidate =>
    let candidate := stripWeak candidate.length (trim candidate)
    let candidate := trimEnd (· = '"') (candidate.dropWhile (· = '"'))
    candidate = "*".toList || candidate = etag
where
  /-- `trim_start_matches("W/")`. -/
  stripWeak : ℕ → Str → Str
    | n + 1, 'W' :: '/' :: t => stripWeak n t
    | _, t => t

/-- `byte_range`: the first and the last byte. -/
def byteRange (header : Str) (size : ℕ) : Option (ℕ × ℕ) := do
  let value ← stripStart "bytes=".toList header
  if size = 0 ∨ ',' ∈ value then none
  else
    let (start, last) ← splitOnce '-' value
    if start = [] then
      let suffix ← parseUnsigned 64 last
      if suffix = 0 then none else some (size - suffix, size - 1)
    else
      let start ← parseUnsigned 64 start
      let last ← if last = [] then some (size - 1)
        else (parseUnsigned 64 last).map (min · (size - 1))
      if size ≤ start ∨ last < start then none else some (start, last)

/-- A number between 1 and 1000, as a parameter gives it. -/
def limitOf (value : Option Str) : ℕ :=
  max 1 (min 1000 ((value.bind (parseUnsigned 64)).getD 1000))

def maxPartBytes : ℕ := 5 * 1024 * 1024 * 1024

/-! ### The endpoint -/

def putOptions : Prog PutOptions := do
  let customMetadata ← ask .metadata
  let cacheControl ← ask (.standard .cacheControl)
  let contentDisposition ← ask (.standard .contentDisposition)
  let contentEncoding ← ask (.standard .contentEncoding)
  let contentLanguage ← ask (.standard .contentLanguage)
  let contentType ← ask (.standard .contentType)
  let fields : List (String × Option Str) :=
    [("cacheControl", cacheControl), ("contentDisposition", contentDisposition),
      ("contentEncoding", contentEncoding), ("contentLanguage", contentLanguage)]
  pure ⟨contentType, customMetadata, fields.filterMap fun f => f.2.map (f.1, ·)⟩

/-- `copy_source_conditions_match`, one after the other. -/
def copySourceConditionsMatch (v : View) (o : ObjectMeta) : Prog Bool := do
  let ifMatch ← ask (.header .copySourceIfMatch)
  if ifMatch.any fun value => !etagHeaderMatches value o.etag then pure false
  else
    let ifNoneMatch ← ask (.header .copySourceIfNoneMatch)
    if ifNoneMatch.any fun value => etagHeaderMatches value o.etag then pure false
    else
      let unmodified ← ask (.header .copySourceIfUnmodifiedSince)
      if (unmodified.bind v.parseHttpDate).any fun limit => limit < o.uploadedAtMs then pure false
      else
        let modified ← ask (.header .copySourceIfModifiedSince)
        pure (!(modified.bind v.parseHttpDate).any fun limit => o.uploadedAtMs ≤ limit)

/-- The bucket and the key that a copy source names. -/
def parseCopySource (raw : Str) : Except Operation (Str × Str) :=
  let invalid := fun message : String =>
    Except.error (.fail ⟨400, "InvalidArgument", message, some raw⟩)
  if '?' ∈ raw then invalid "RandallFlare 对象不使用中心化版本 ID"
  else match Percent.utf8Strict (percentDecode raw) with
    | none => .error (.failed "x-amz-copy-source 不是有效 UTF-8")
    | some decoded => match splitOnce '/' (decoded.dropWhile (· = '/')) with
      | none => invalid "x-amz-copy-source 必须包含源 bucket 与对象键"
      | some (bucket, key) =>
          if ¬ validName (String.ofList bucket) ∨ ¬ validKey key then
            invalid "x-amz-copy-source 的 bucket 或对象键无效"
          else .ok (bucket, key)

/-- `copy_source_object`: go on with the source, if it may be read and its conditions hold. -/
def copySourceObject (v : View) (c : Authenticated)
    (next : Str × Str → ObjectMeta → Prog Operation) : Prog Operation := do
  let header ← ask (.header .copySource)
  match header with
  | none => pure (.failed "x-amz-copy-source 无效")
  | some raw => match parseCopySource raw with
    | .error operation => pure operation
    | .ok (bucket, key) =>
        if ¬ c.may bucket false then
          pure (.fail ⟨403, "AccessDenied", "此凭据没有复制源 bucket 的读取权限", some raw⟩)
        else if ¬ v.bucketExists bucket then
          pure (.fail ⟨404, "NoSuchBucket", "复制源 bucket 不存在", some raw⟩)
        else match v.object bucket key with
          | none => pure (.fail ⟨404, "NoSuchKey", "复制源对象不存在", some raw⟩)
          | some o => do
              let holds ← copySourceConditionsMatch v o
              if holds then next (bucket, key) o
              else pure (.fail ⟨412, "PreconditionFailed", "复制源对象的前置条件未满足", some raw⟩)

def getObjectResponse (v : View) (bucket key : Str) (headOnly : Bool) : Prog Operation :=
  match v.object bucket key with
  | none => pure (.fail ⟨404, "NoSuchKey", "对象不存在", some key⟩)
  | some o => do
      let ifMatch ← ask (.standard .ifMatch)
      if ifMatch.any fun value => !etagHeaderMatches value o.etag then
        pure (.fail ⟨412, "PreconditionFailed", "If-Match 条件不满足", some key⟩)
      else
        let ifNoneMatch ← ask (.standard .ifNoneMatch)
        if ifNoneMatch.any fun value => etagHeaderMatches value o.etag then pure .notModified
        else
          let range ← ask (.standard .range)
          match range with
          | none => pure (.getObject bucket key headOnly 0 o.size)
          | some value => match byteRange value o.size with
            | none => pure (.fail ⟨416, "InvalidRange", "请求的字节范围超出对象边界", some key⟩)
            | some (start, last) => pure (.getObject bucket key headOnly start (last - start + 1))

/-- A part of an upload is copied from an object. -/
def uploadPartCopy (v : View) (c : Authenticated) (bucket key uploadId : Str) (partNumber : ℕ) :
    Prog Operation :=
  copySourceObject v c fun source o => do
    let range ← ask (.header .copySourceRange)
    match (range.map fun value => byteRange value o.size) with
    | some none => pure (.fail ⟨416, "InvalidRange", "复制源字节范围超出对象边界", some key⟩)
    | some (some (start, last)) => pure (copy source start (last - start + 1))
    | none => pure (copy source 0 o.size)
where
  copy (source : Str × Str) (offset length : ℕ) : Operation :=
    if maxPartBytes < length then
      .fail ⟨413, "EntityTooLarge", "复制分片不得超过 5 GiB", some key⟩
    else .uploadPartCopy bucket key uploadId partNumber source offset length

def copyObject (v : View) (c : Authenticated) (bucket key : Str) : Prog Operation :=
  copySourceObject v c fun source o => do
    if maxPartBytes < o.size then
      pure (.fail ⟨413, "EntityTooLarge", "CopyObject 的源对象不得超过 5 GiB；请使用 UploadPartCopy", some key⟩)
    else
      let directive ← ask (.header .metadataDirective)
      let directive := directive.getD "COPY".toList
      if directive = "COPY".toList then pure (.copyObject bucket key source o.options)
      else if directive = "REPLACE".toList then
        let options ← putOptions
        pure (.copyObject bucket key source options)
      else
        pure (.fail ⟨400, "InvalidArgument", "x-amz-metadata-directive 必须是 COPY 或 REPLACE",
          some key⟩)

/-- The requests for an upload that are answered at once; `none` for other methods. -/
def uploadRequest (v : View) (c : Authenticated) (method bucket key uploadId : Str) :
    Option (Prog Operation) :=
  if method = "GET".toList then some do
    if v.uploadKey bucket uploadId ≠ some key then pure (.failed "R2 分片上传不存在")
    else
      let marker ← ask (.param .partNumberMarker)
      let limit ← ask (.param .maxParts)
      pure (.listParts bucket key uploadId ((marker.bind (parseUnsigned 32)).getD 0)
        (limitOf limit))
  else if method = "DELETE".toList then some (pure (.abortUpload bucket key uploadId))
  else if method = "PUT".toList then some do
    let partNumber ← ask (.param .partNumber)
    match partNumber.bind (parseUnsigned 32) with
    | none => pure (.failed "S3 partNumber 无效")
    | some partNumber => do
        let copied : Bool ← ask (.hasHeader .copySource)
        if copied then uploadPartCopy v c bucket key uploadId partNumber
        else
          let declared ← ask .declared
          pure (.uploadPart bucket key uploadId partNumber declared)
  else if method = "POST".toList then some do
    let declared ← ask .declared
    pure (.completeUpload bucket key uploadId declared)
  else none

/-- The requests for an object itself. -/
def plainRequest (v : View) (c : Authenticated) (method bucket key : Str) : Prog Operation :=
  if method = "GET".toList ∨ method = "HEAD".toList then
    getObjectResponse v bucket key (method = "HEAD".toList)
  else if method = "PUT".toList then do
    let copied : Bool ← ask (.hasHeader .copySource)
    if copied then copyObject v c bucket key
    else
      let options ← putOptions
      let declared ← ask .declared
      pure (.putObject bucket key options declared)
  else if method = "DELETE".toList then pure (.deleteObject bucket key)
  else pure (.fail ⟨405, "MethodNotAllowed", "对象操作方法不受支持", some key⟩)

def objectRequest (v : View) (c : Authenticated) (method bucket key : Str) : Prog Operation := do
  let create : Bool ←
    if method = "POST".toList then ask (.hasParam .uploads) else pure false
  if create then
    let options ← putOptions
    pure (.createUpload bucket key options)
  else
    let uploadId ← ask (.param .uploadId)
    match uploadId.bind (uploadRequest v c method bucket key) with
    | some p => p
    | none => plainRequest v c method bucket key

def bucketRequest (method bucket : Str) : Prog Operation := do
  if method = "HEAD".toList then pure .acknowledge
  else if method = "GET".toList then
    let uploads : Bool ← ask (.hasParam .uploads)
    let pre ← ask (.param .pre)
    if uploads then
      let marker ← ask (.param .uploadIdMarker)
      let limit ← ask (.param .maxUploads)
      let keyMarker ← ask (.param .keyMarker)
      pure (.listUploads bucket (pre.getD []) (marker.filter (· ≠ [])) (limitOf limit)
        (keyMarker.getD []))
    else
      let token ← ask (.param .continuationToken)
      let limit ← ask (.param .maxKeys)
      let delimiter ← ask (.param .delimiter)
      pure (.listObjects bucket (pre.getD []) token (limitOf limit) (delimiter.getD []))
  else if method = "PUT".toList then pure .acknowledge
  else pure (.fail ⟨405, "MethodNotAllowed", "请在控制台创建或删除 bucket", some bucket⟩)

def bucketAndKey (path : Str) : Option (Str × Option Str) :=
  let raw := (stripStart "/s3".toList path).getD []
  (Percent.utf8Strict (percentDecode (raw.dropWhile (· = '/')))).map fun decoded =>
    match splitOnce '/' decoded with
    | some (bucket, key) => (bucket, some key)
    | none => (decoded, none)

/-- `handle_result`, for a request that is authenticated. -/
def handle (v : View) (c : Authenticated) : Prog Operation := do
  let method : Str ← ask .method
  let path : Str ← ask .path
  match bucketAndKey path with
  | none => pure (.failed "S3 路径不是有效 UTF-8")
  | some (bucket, key) =>
      let write : Bool := decide (method ∈ ["PUT".toList, "POST".toList, "DELETE".toList])
      if bucket = [] then
        if method ≠ "GET".toList then
          pure (.fail ⟨405, "MethodNotAllowed", "服务根目录仅支持 GET", none⟩)
        else pure .listBuckets
      else if ¬ v.bucketExists bucket then
        pure (.fail ⟨404, "NoSuchBucket", "bucket 不存在", some bucket⟩)
      else if ¬ c.may bucket write then
        pure (.fail ⟨403, "AccessDenied", "此凭据没有所需的 bucket 权限", some bucket⟩)
      else match key with
        | none => bucketRequest method bucket
        | some [] => pure (.fail ⟨400, "InvalidURI", "对象 key 不能为空", some bucket⟩)
        | some key => objectRequest v c method bucket key

/-- The parts of an authenticated request that the endpoint acts on. -/
def asked (v : View) (c : Authenticated) (r : Request) : List Ask :=
  (handle v c).asked r.answer

end RandallFlare.S3
