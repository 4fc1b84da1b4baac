import RandallFlare.Signed.Manifest

/-!
# Platform resources

The record of `rf/src/resource.rs`: buckets, pipelines, policies and the other platform objects share
it.  Its configuration is JSON text, which `serde_json` reads; the reader is a parameter.
-/

namespace RandallFlare

open Postcard

open Postcard (Decoder utf8)

inductive JsonTree
  | null
  | bool (b : Bool)
  | number (text : String)
  | string (s : String)
  | array (items : List JsonTree)
  | object (fields : List (String × JsonTree))

/-- `serde_json::from_str`. -/
abbrev JsonReader := String → Option JsonTree

/-- A signed record of one platform object. -/
structure ResourceRecord where
  schema : UInt8
  kind : String
  name : String
  version : ℕ
  prev : Option Digest
  deleted : Bool
  specJson : String
  deriving DecidableEq

def resourceSchema : UInt8 := 1

def maxKindBytes : ℕ := 48

def maxSpecBytes : ℕ := 8 * 1024 * 1024

def validKind (kind : String) : Bool :=
  let l := utf8 kind
  l ≠ [] && l.length ≤ maxKindBytes && l.all fun b => lowerOrDigit b || b == 95

namespace ResourceRecord

def decoder : Decoder ResourceRecord := do
  let schema ← u8
  let kind ← str
  let name ← str
  let version ← u64
  let prev ← option digestDecoder
  let deleted ← bool
  let specJson ← str
  pure ⟨schema, kind, name, version, prev, deleted, specJson⟩

def encode (r : ResourceRecord) : Bytes :=
  r.schema :: (putStr r.kind ++ putStr r.name ++ putU64 r.version ++
    putOption putDigest r.prev ++ putBool r.deleted ++ putStr r.specJson)

def validate (json : JsonReader) (r : ResourceRecord) : Except String Unit :=
  if r.schema ≠ resourceSchema then .error "不支持此版本的平台资源格式"
  else if ¬ validKind r.kind then .error "平台资源类型必须由小写字母、数字和下划线组成"
  else if ¬ validName r.name then .error "平台资源名称须由 1 至 63 个小写字母、数字或连字符组成"
  else if r.version = 0 ∨ decide (r.version = 1) ≠ r.prev.isNone then .error "平台资源版本链无效"
  else match json r.specJson with
    | none => .error "平台资源配置不是有效的 JSON"
    | some spec =>
        if r.deleted then match spec with
          | .null | .object [] => .ok ()
          | _ => .error "已删除的平台资源不得携带配置"
        else match spec with
          | .object _ =>
              if maxSpecBytes < (utf8 r.specJson).length then .error "平台资源配置不得超过 8 MiB"
              else .ok ()
          | _ => .error "平台资源配置必须是 JSON 对象"

theorem of_validate {json : JsonReader} {r : ResourceRecord} (h : r.validate json = .ok ()) :
    r.schema = resourceSchema ∧ validKind r.kind ∧ validName r.name ∧
      r.version ≠ 0 ∧ (r.version = 1 ↔ r.prev = none) := by
  unfold validate at h
  split_ifs at h with hschema hkind hname hchain
  all_goals
    obtain ⟨hzero, hlink⟩ := not_or.1 hchain
    refine ⟨not_not.1 hschema, by simpa using hkind, by simpa using hname, hzero, ?_⟩
    rw [← Option.isNone_iff_eq_none, ← not_not.1 hlink, decide_eq_true_iff]

end ResourceRecord

end RandallFlare
