import RandallFlare.Signed.Manifest

/-!
# Worker sources

The signed repository definition of `rf/src/build.rs`.  Records signed before pull-request previews
existed lack the last field; `openSource` reads them too.
-/

namespace RandallFlare

open Postcard Text

open Postcard (Decoder utf8)

/-- Where a worker is built from. -/
structure WorkerSource where
  schema : UInt8
  worker : String
  version : ℕ
  prev : Option Digest
  deleted : Bool
  repository : String
  branch : String
  root : String
  buildCommand : String
  outputDir : String
  useGithubToken : Bool
  webhook : Bool
  previewPullRequests : Bool
  deriving DecidableEq

def sourceSchema : UInt8 := 1

/-! ### Repositories, branches and directories -/

/-- A letter or a digit of ASCII, or one of the further characters. -/
def asciiWord (further : List Char) (c : Char) : Bool := c.isAlphanum || further.contains c

/-- The one form of a GitHub address. -/
def normalizeGithubRepository (repository : String) : Except String String :=
  let value := trimEnd (· == '/') (trim repository.toList)
  let scheme := match stripStart "https://github.com/".toList value with
    | some path => some (false, path)
    | none => match stripStart "git@github.com:".toList value with
        | some path => some (true, path)
        | none => (stripStart "ssh://git@github.com/".toList value).map fun path => (true, path)
  match scheme with
  | none => .error "仓库地址必须是 GitHub HTTPS 或 SSH URL"
  | some (ssh, path) =>
      match (trimEndText ".git".toList path.length path).splitOn '/' with
      | [owner, repo] =>
          if owner ≠ [] ∧ repo ≠ [] ∧ owner.all (asciiWord ['-', '_', '.']) ∧
              repo.all (asciiWord ['-', '_', '.']) then
            .ok ((if ssh then "ssh://git@github.com/" else "https://github.com/") ++
              String.ofList owner ++ "/" ++ String.ofList repo ++ ".git")
          else .error "仓库地址必须明确指定一个 GitHub 所有者与仓库名"
      | _ => .error "仓库地址必须明确指定一个 GitHub 所有者与仓库名"

def validateBranch (branch : String) : Except String Unit :=
  let l := branch.toList
  if l = [] ∨ 255 < (utf8 branch).length ∨ l.head? = some '-' ∨ l.head? = some '/' ∨
      l.getLast? = some '/' ∨ contains ['.', '.'] l ∨ contains ['/', '/'] l ∨
      ¬ l.all (asciiWord ['-', '_', '.', '/']) then
    .error "Git 分支名称无效"
  else .ok ()

/-- A relative path whose components are all plain names; the standard library drops empty parts and
a `.` that is not the first. -/
def validateRelative (value : String) (allowDot : Bool) (label : String) : Except String Unit :=
  let l := value.toList
  let parts := l.splitOn '/'
  if l = [] ∨ 1024 < (utf8 value).length ∨ '\\' ∈ l then .error (label ++ "必须是安全的相对路径")
  else if l = ['.'] ∧ allowDot then .ok ()
  else if l.head? = some '/' ∨ parts.head? = some ['.'] ∨ ['.', '.'] ∈ parts then
    .error (label ++ "必须是安全的相对路径")
  else .ok ()

namespace WorkerSource

def validate (s : WorkerSource) : Except String Unit :=
  if s.schema ≠ sourceSchema then .error "不支持此版本的 Worker 源码配置格式"
  else if ¬ validName s.worker then
    .error "Worker 名称须由 1 至 63 个小写字母、数字或连字符组成"
  else if s.version = 0 ∨ decide (s.version = 1) ≠ s.prev.isNone then
    .error "Worker 源码配置的版本链无效"
  else if s.deleted then .ok ()
  else do
    let repository ← normalizeGithubRepository s.repository
    if (stripStart "ssh://".toList repository.toList).isSome ∧ ¬ s.useGithubToken then
      throw "SSH 仓库必须启用节点私有仓库凭据"
    validateBranch s.branch
    validateRelative s.root true "仓库根目录"
    validateRelative s.outputDir true "输出目录"
    if 8 * 1024 < (utf8 s.buildCommand).length ∨ 0 ∈ utf8 s.buildCommand then
      throw "构建命令过长或含有 NUL 字符"
    if s.previewPullRequests ∧ ¬ s.webhook then
      throw "启用 Pull Request 预览前必须先启用 GitHub Webhook"

/-- The fields of the older wire form; the last one is given. -/
def decoderWith (preview : Decoder Bool) : Decoder WorkerSource := do
  let schema ← u8
  let worker ← str
  let version ← u64
  let prev ← option digestDecoder
  let deleted ← bool
  let repository ← str
  let branch ← str
  let root ← str
  let buildCommand ← str
  let outputDir ← str
  let useGithubToken ← bool
  let webhook ← bool
  let previewPullRequests ← preview
  pure ⟨schema, worker, version, prev, deleted, repository, branch, root, buildCommand, outputDir,
    useGithubToken, webhook, previewPullRequests⟩

def decoder : Decoder WorkerSource := decoderWith bool

/-- `LegacyWorkerSource`, upgraded. -/
def legacyDecoder : Decoder WorkerSource := decoderWith (pure false)

theorem of_validate {s : WorkerSource} (h : s.validate = .ok ()) :
    s.schema = sourceSchema ∧ validName s.worker ∧ s.version ≠ 0 ∧
      (s.version = 1 ↔ s.prev = none) := by
  unfold validate at h
  split_ifs at h with hschema hname hchain
  all_goals
    obtain ⟨hzero, hlink⟩ := not_or.1 hchain
    refine ⟨not_not.1 hschema, by simpa using hname, hzero, ?_⟩
    rw [← Option.isNone_iff_eq_none, ← not_not.1 hlink, decide_eq_true_iff]

end WorkerSource

/-- `open_source`: the present form, or else the older one. -/
def openSource (x : Crypto) (env : Envelope) (operator : SignerId) :
    Except EnvelopeError WorkerSource :=
  match env.openPayload x WorkerSource.decoder (some operator) with
  | .ok s => .ok s
  | .error _ => env.openPayload x WorkerSource.legacyDecoder (some operator)

end RandallFlare
