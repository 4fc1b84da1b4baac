import RandallFlare.Lib.SortedMap
import RandallFlare.Signed.Cron
import RandallFlare.Signed.Envelope

/-!
# Worker manifests

The manifest of `rf-core/src/manifest.rs`, its wire form and its validation.  Fields are decoded in
the order of the declaration; a map is a sequence of pairs, a later pair replacing an earlier one of
the same key.

* `WorkerManifest.decoder` reads a manifest, `WorkerManifest.encode` writes it;
* `WorkerManifest.validate` is the check every ingest makes.
-/

namespace RandallFlare

open Postcard

open Postcard (Decoder utf8)

/-! ### Names and paths -/

/-- A byte of a lower-case letter or of a digit. -/
def lowerOrDigit (b : UInt8) : Bool := (97 ≤ b && b ≤ 122) || (48 ≤ b && b ≤ 57)

/-- The bytes of a name or of a label of a hostname: not empty, at most 63, no hyphen at the ends. -/
def validLabel (l : Bytes) : Bool :=
  l ≠ [] && l.length ≤ 63 && l.head? ≠ some 45 && l.getLast? ≠ some 45 &&
    l.all fun b => lowerOrDigit b || b == 45

def validName (name : String) : Bool := validLabel (utf8 name)

def validHostname (h : String) : Bool :=
  let l := utf8 h
  l ≠ [] && l.length ≤ 253 && l.head? ≠ some 46 && l.getLast? ≠ some 46 &&
    (l.splitOn 46).all validLabel

/-- A relative path without control characters, backslashes and empty, `.` or `..` parts. -/
def validBundlePath (path : String) : Bool :=
  let l := utf8 path
  l ≠ [] && l.length ≤ 1024 && l.head? ≠ some 47 && !l.contains 92 &&
    !l.any (fun b => b < 32 || b == 127) &&
    (l.splitOn 47).all fun part => part ≠ [] && part ≠ [46] && part ≠ [46, 46]

/-! ### The manifest and its wire form -/

inductive ModuleKind
  | esModule
  | commonJs
  | wasm
  | text
  | data
  deriving DecidableEq

/-- The number of a kind on the wire. -/
def ModuleKind.index : ModuleKind → ℕ
  | esModule => 0
  | commonJs => 1
  | wasm => 2
  | text => 3
  | data => 4

/-- A file of code. -/
structure Module where
  path : String
  sha256 : Digest
  kind : ModuleKind
  size : ℕ
  deriving DecidableEq

structure AssetFile where
  path : String
  sha256 : Digest
  size : ℕ
  deriving DecidableEq

/-- What the operator signs to deploy a worker. -/
structure WorkerManifest where
  name : String
  version : ℕ
  /-- The digest of the envelope of the previous version. -/
  prev : Option Digest
  deleted : Bool
  /-- The path of the main module; empty for a static site. -/
  main : String
  modules : List Module
  assets : List AssetFile
  hostnames : List String
  env : SortedMap String String
  kvBindings : SortedMap String String
  crons : List String
  compatibilityDate : String
  deriving DecidableEq

/-- 32 bytes. -/
def digestDecoder : Decoder Digest := do
  let l ← bytes 32
  pure (BitVec.ofNat 256 (ofBeBytes l))

def moduleKindDecoder : Decoder ModuleKind := do
  match ← u32 with
  | 0 => pure .esModule
  | 1 => pure .commonJs
  | 2 => pure .wasm
  | 3 => pure .text
  | 4 => pure .data
  | _ => failure

def moduleDecoder : Decoder Module := do
  let path ← str
  let sha256 ← digestDecoder
  let kind ← moduleKindDecoder
  let size ← u64
  pure ⟨path, sha256, kind, size⟩

def assetDecoder : Decoder AssetFile := do
  let path ← str
  let sha256 ← digestDecoder
  let size ← u64
  pure ⟨path, sha256, size⟩

/-- A map of strings. -/
def mapDecoder : Decoder (SortedMap String String) := do
  let pairs ← seq do
    let key ← str
    let value ← str
    pure (key, value)
  pure (pairs.foldl (fun m p => m.insert p.1 p.2) SortedMap.empty)

def putDigest (d : Digest) : Bytes := beBytes 32 d.toNat

def putModule (m : Module) : Bytes :=
  putStr m.path ++ putDigest m.sha256 ++ putU64 m.kind.index ++
    putU64 m.size

def putAsset (a : AssetFile) : Bytes :=
  putStr a.path ++ putDigest a.sha256 ++ putU64 a.size

def putMap (m : SortedMap String String) : Bytes :=
  putSeq (fun p => putStr p.1 ++ putStr p.2) m.entries

namespace WorkerManifest

def decoder : Decoder WorkerManifest := do
  let name ← str
  let version ← u64
  let prev ← option digestDecoder
  let deleted ← bool
  let main ← str
  let modules ← seq moduleDecoder
  let assets ← seq assetDecoder
  let hostnames ← seq str
  let env ← mapDecoder
  let kvBindings ← mapDecoder
  let crons ← seq str
  let compatibilityDate ← str
  pure ⟨name, version, prev, deleted, main, modules, assets, hostnames, env, kvBindings, crons,
    compatibilityDate⟩

/-- What a manifest starts with: its name, its version and its link. -/
theorem decoder_eq_some {m : WorkerManifest} {b rest : Bytes} (h : decoder b = some (m, rest)) :
    ∃ t u r, str b = some (m.name, t) ∧ u64 t = some (m.version, u) ∧
      option digestDecoder u = some (m.prev, r) := by
  obtain ⟨name, t, hname, h⟩ := bind_eq_some.1 h
  obtain ⟨version, u, hversion, h⟩ := bind_eq_some.1 h
  obtain ⟨prev, r, hprev, h⟩ := bind_eq_some.1 h
  simp only [bind_eq_some] at h
  obtain ⟨_, _, -, _, _, -, _, _, -, _, _, -, _, _, -, _, _, -, _, _, -, _, _, -, _, _, -, h⟩ := h
  cases h
  exact ⟨t, u, r, hname, hversion, hprev⟩

theorem version_lt_of_decoder {m : WorkerManifest} {b rest : Bytes}
    (h : decoder b = some (m, rest)) : m.version < UInt64.size := by
  obtain ⟨t, u, r, -, hversion, -⟩ := decoder_eq_some h
  exact u64_lt hversion

/-- The wire form. -/
def encode (m : WorkerManifest) : Bytes :=
  putStr m.name ++ putU64 m.version ++ putOption putDigest m.prev ++
    putBool m.deleted ++ putStr m.main ++ putSeq putModule m.modules ++
    putSeq putAsset m.assets ++ putSeq putStr m.hostnames ++
    putMap m.env ++ putMap m.kvBindings ++ putSeq putStr m.crons ++
    putStr m.compatibilityDate

end WorkerManifest

/-! ### Validation -/

/-- Why a manifest is refused. -/
inductive ManifestError
  | envelope (e : EnvelopeError)
  | notOperator
  | badName
  | mainNotInModules
  | badCron (cron : String)
  | badHostname (hostname : String)
  | badPath (path : String)
  | duplicatePath (path : String)
  | chainBroken
  deriving DecidableEq

/-- The paths of a bundle are safe and different; `seen` are the earlier ones. -/
def checkPaths (seen : List String) : List String → Except ManifestError Unit
  | [] => .ok ()
  | p :: rest =>
      if ¬ validBundlePath p then .error (.badPath p)
      else if p ∈ seen then .error (.duplicatePath p)
      else checkPaths (p :: seen) rest

namespace WorkerManifest

def validate (m : WorkerManifest) : Except ManifestError Unit :=
  if ¬ validName m.name then .error .badName
  else if decide (m.version = 1) ≠ m.prev.isNone then .error .chainBroken
  else if m.deleted then .ok ()
  else if m.main ≠ "" ∧ m.main ∉ m.modules.map Module.path then .error .mainNotInModules
  else do
    checkPaths [] (m.modules.map Module.path ++ m.assets.map AssetFile.path)
    match m.crons.find? fun c => !(CronExpr.parse c).isOk with
      | some c => throw (.badCron c)
      | none => pure ()
    match m.hostnames.find? fun h => !validHostname h with
      | some h => throw (.badHostname h)
      | none => pure ()

theorem of_validate {m : WorkerManifest} (h : m.validate = .ok ()) :
    validName m.name ∧ (m.version = 1 ↔ m.prev = none) := by
  unfold validate at h
  split_ifs at h with hname hchain
  all_goals
    refine ⟨by simpa using hname, ?_⟩
    have hdec : decide (m.version = 1) = m.prev.isNone := by simpa using hchain
    rw [← Option.isNone_iff_eq_none, ← hdec, decide_eq_true_iff]

end WorkerManifest

end RandallFlare
