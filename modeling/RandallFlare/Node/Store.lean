import RandallFlare.Kv.Namespace
import RandallFlare.Lib.TableKey
import RandallFlare.Lib.Text
import RandallFlare.Signed.Envelope

/-!
# The store of a node

The tables of `rf/src/store.rs` that hold manifests, their log, claims and key-value entries.  A key
is a text: the log has a worker's name, a NUL and the version in twenty digits, the claims have the
task, a NUL and the holder in hexadecimal, the entries have the namespace, a NUL and the key.  The
values are kept as they are, not as the bytes that postcard makes of them.

* `logKey`, `claimKey`, `kvTableKey`, and that they tell apart what they are made from;
* `NodeStore.loadLog`: the history of a worker, a scan of the log (`mem_loadLog`);
* `NodeStore.loadKv`: takes the keys apart again.
-/

namespace RandallFlare

open List

def nul : Char := Char.ofNat 0

/-- The text has no NUL. -/
def NulFree (s : String) : Prop := nul ∉ s.toList

instance (s : String) : Decidable (NulFree s) := (inferInstance : Decidable (nul ∉ s.toList))

/-! ### Keys -/

def logKey (name : String) (version : ℕ) : String :=
  String.ofList (name.toList ++ nul :: TableKey.padDecimal 20 version)

def claimKey (task holderHex : String) : String :=
  String.ofList (task.toList ++ nul :: holderHex.toList)

def kvTableKey (ns key : String) : String := String.ofList (ns.toList ++ nul :: key.toList)

theorem logKey_lt {name : String} {v w : ℕ} (h : v < w) (hw : w < UInt64.size) :
    logKey name v < logKey name w := by
  have hsize : UInt64.size < 10 ^ 20 := by decide
  have hpad : TableKey.padDecimal 20 v < TableKey.padDecimal 20 w := by
    refine TableKey.padDecimal_lt ?_
    rwa [Nat.mod_eq_of_lt (h.trans (hw.trans hsize)), Nat.mod_eq_of_lt (hw.trans hsize)]
  rw [String.lt_iff_toList_lt, logKey, logKey, String.toList_ofList, String.toList_ofList]
  generalize name.toList = l
  induction l with
  | nil => exact cons_lt_cons_iff.2 (.inr ⟨rfl, hpad⟩)
  | cons c l ih => exact cons_lt_cons_iff.2 (.inr ⟨rfl, ih⟩)

theorem logKey_injective {name name' : String} {version version' : ℕ} (h : version < UInt64.size)
    (h' : version' < UInt64.size) (hkey : logKey name version = logKey name' version') :
    name = name' ∧ version = version' := by
  obtain ⟨hname, -⟩ := append_inj' (String.ofList_injective hkey)
    (by simp [TableKey.length_padDecimal])
  obtain rfl := String.toList_inj.1 hname
  refine ⟨rfl, ?_⟩
  rcases lt_trichotomy version version' with hlt | heq | hgt
  · exact absurd hkey (logKey_lt hlt h').ne
  · exact heq
  · exact absurd hkey (logKey_lt hgt h).ne'

theorem claimKey_injective {task task' : String} {holder holder' : PublicId}
    (hkey : claimKey task (SignerId.ed holder).text = claimKey task' (SignerId.ed holder').text) :
    task = task' ∧ holder = holder' := by
  obtain ⟨htask, hhex⟩ := append_inj' (String.ofList_injective hkey)
    (by simp [SignerId.length_toList_text_ed])
  exact ⟨String.toList_inj.1 htask,
    SignerId.text_ed_injective (String.toList_inj.1 (cons.inj hhex).2)⟩

theorem splitOnce_kvTableKey {ns : String} (h : NulFree ns) (key : String) :
    Text.splitOnce nul (kvTableKey ns key).toList = some (ns.toList, key.toList) := by
  rw [kvTableKey, String.toList_ofList]
  exact Text.splitOnce_append h

theorem kvTableKey_injective {ns ns' key key' : String} (h : NulFree ns) (h' : NulFree ns')
    (hkey : kvTableKey ns key = kvTableKey ns' key') : ns = ns' ∧ key = key' := by
  have hsplit := splitOnce_kvTableKey h key
  rw [hkey, splitOnce_kvTableKey h' key'] at hsplit
  obtain ⟨hns, hk⟩ := Prod.mk.inj (Option.some.inj hsplit)
  exact ⟨(String.toList_inj.1 hns).symm, (String.toList_inj.1 hk).symm⟩

/-! ### Tables -/

/-- The tables. -/
structure NodeStore where
  manifests : SortedMap String Envelope
  log : SortedMap String Envelope
  claims : SortedMap String Envelope
  kv : SortedMap String KvEntry

namespace NodeStore

def empty : NodeStore := ⟨SortedMap.empty, SortedMap.empty, SortedMap.empty, SortedMap.empty⟩

def putManifest (s : NodeStore) (name : String) (env : Envelope) : NodeStore :=
  { s with manifests := s.manifests.insert name env }

def loadManifests (s : NodeStore) : List Envelope := s.manifests.values

/-- Append an accepted manifest to the transparency log. -/
def putLog (s : NodeStore) (name : String) (version : ℕ) (env : Envelope) : NodeStore :=
  { s with log := s.log.insert (logKey name version) env }

/-- The accepted history of a worker. -/
def loadLog (s : NodeStore) (name : String) : List Envelope :=
  (s.log.scan (String.ofList (name.toList ++ [nul]))).map Prod.snd

def putClaim (s : NodeStore) (task holderHex : String) (env : Envelope) : NodeStore :=
  { s with claims := s.claims.insert (claimKey task holderHex) env }

def loadClaims (s : NodeStore) : List Envelope := s.claims.values

def putKv (s : NodeStore) (ns key : String) (e : KvEntry) : NodeStore :=
  { s with kv := s.kv.insert (kvTableKey ns key) e }

/-- An entry of the table, with its key taken apart. -/
def splitKey (p : String × KvEntry) : Except String (String × String × KvEntry) :=
  match Text.splitOnce nul p.1.toList with
  | some (ns, key) => .ok (String.ofList ns, String.ofList key, p.2)
  | none => .error "corrupt kv key in store"

def loadKv (s : NodeStore) : Except String (List (String × String × KvEntry)) :=
  s.kv.entries.mapM splitKey

end NodeStore

end RandallFlare
