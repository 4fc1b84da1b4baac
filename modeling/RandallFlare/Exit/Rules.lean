import Mathlib.Data.String.Basic
import RandallFlare.Lib.Latest
import RandallFlare.Lib.SortedMap
import RandallFlare.Lib.Text

/-!
# Split-routing rules

A translation of the rules of `rf/src/exit.rs`.  A rule record compiles to an ordered list of rules,
each with a matcher and the name of a policy; the first that matches a target decides.  The code
does not go through the list but through an index of it.

* `RuleMatcher`, `CompiledRule`, `firstMatch`: the rules and what they mean;
* `IndexedMatcher`, `build`, `policy`: the index;
* `policy_build`: looking up the index finds the first rule that matches.

How the text of a record is compiled to rules is a parameter.
-/

namespace RandallFlare

open List

namespace Exit

inductive IpAddr
  | v4 (bits : BitVec 32)
  | v6 (bits : BitVec 128)
  deriving DecidableEq

structure IpCidr where
  network : IpAddr
  prefixLen : ℕ
  deriving DecidableEq

def maskIp : IpAddr → ℕ → IpAddr
  | .v4 bits, n => .v4 (bits &&& if n = 0 then 0 else BitVec.allOnes 32 <<< (32 - n))
  | .v6 bits, n => .v6 (bits &&& if n = 0 then 0 else BitVec.allOnes 128 <<< (128 - n))

/-- The address is of the kind of the network and lies in it. -/
def IpCidr.contains (c : IpCidr) (address : IpAddr) : Bool :=
  match c.network, address with
  | .v4 _, .v4 _ => maskIp address c.prefixLen = c.network
  | .v6 _, .v6 _ => maskIp address c.prefixLen = c.network
  | _, _ => false

inductive RuleMatcher
  | domain (value : String)
  | domainSuffix (value : String)
  | domainKeyword (value : String)
  | ipCidr (cidr : IpCidr)
  | matchAll
  deriving DecidableEq

structure CompiledRule where
  matcher : RuleMatcher
  policy : String
  deriving DecidableEq

/-- What follows each dot. -/
def afterDots : List Char → List (List Char)
  | [] => []
  | c :: host => if c = '.' then host :: afterDots host else afterDots host

/-- A host and the domains it is in. -/
def parents (host : List Char) : List String := (host :: afterDots host).map String.ofList

/-- The rule is for the target, a host name with the address it has, if known. -/
def RuleMatcher.accepts (host : List Char) (ip : Option IpAddr) : RuleMatcher → Bool
  | .domain d => String.ofList host = d
  | .domainSuffix s => s ∈ parents host
  | .domainKeyword k => Text.contains k.toList host
  | .ipCidr c => ip.any c.contains
  | .matchAll => true

/-- What the rules are meant to match. -/
def RuleMatcher.Matches (host : List Char) (ip : Option IpAddr) : RuleMatcher → Prop
  | .domain d => host = d.toList
  | .domainSuffix s => host = s.toList ∨ '.' :: s.toList <:+ host
  | .domainKeyword k => k.toList <:+: host
  | .ipCidr c => ∃ a ∈ ip, c.contains a
  | .matchAll => True

theorem mem_afterDots {s host : List Char} : s ∈ afterDots host ↔ '.' :: s <:+ host := by
  induction host with
  | nil => simp [afterDots]
  | cons c host ih =>
    rw [suffix_cons_iff, ← ih, afterDots]
    split_ifs with h <;> simp [h, @eq_comm _ '.']

theorem RuleMatcher.accepts_iff {host : List Char} {ip : Option IpAddr} {m : RuleMatcher} :
    m.accepts host ip ↔ m.Matches host ip := by
  have hofList (l : List Char) (s : String) : String.ofList l = s ↔ l = s.toList := by
    rw [← String.toList_inj, String.toList_ofList]
  cases m with
  | domain d => simp [accepts, Matches, hofList]
  | domainSuffix s => simp [accepts, Matches, parents, hofList, @eq_comm _ s, mem_afterDots]
  | domainKeyword k => exact Text.contains_iff
  | ipCidr c => simp [accepts, Matches, Option.any_eq_true]
  | matchAll => simp [accepts, Matches]

/-- The policy of the first rule for the target. -/
def firstMatch (rules : List CompiledRule) (host : List Char) (ip : Option IpAddr) :
    Option String :=
  (rules.find? (·.matcher.accepts host ip)).map (·.policy)

/-! ### The index -/

/-- A rule by its place in the list. -/
structure RuleRef where
  index : ℕ
  policy : String
  deriving DecidableEq

structure IndexedMatcher where
  exact : SortedMap String RuleRef
  suffix : SortedMap String RuleRef
  keywords : List (String × RuleRef)
  cidrs : List (IpCidr × RuleRef)
  matchAll : Option RuleRef

namespace IndexedMatcher

def empty : IndexedMatcher := ⟨SortedMap.empty, SortedMap.empty, [], [], none⟩

/-- `entry(key).or_insert(value)`. -/
def orInsert (m : SortedMap String RuleRef) (key : String) (r : RuleRef) :
    SortedMap String RuleRef :=
  if (m.get key).isNone then m.insert key r else m

/-- Take the rule at `index` into the index. -/
def add (m : IndexedMatcher) (rule : CompiledRule) (index : ℕ) : IndexedMatcher :=
  let reference : RuleRef := ⟨index, rule.policy⟩
  match rule.matcher with
  | .domain domain => { m with exact := orInsert m.exact domain reference }
  | .domainSuffix suffix => { m with suffix := orInsert m.suffix suffix reference }
  | .domainKeyword keyword => { m with keywords := m.keywords ++ [(keyword, reference)] }
  | .ipCidr cidr => { m with cidrs := m.cidrs ++ [(cidr, reference)] }
  | .matchAll => if m.matchAll.isNone then { m with matchAll := some reference } else m

def build (rules : List CompiledRule) : IndexedMatcher :=
  rules.zipIdx.foldl (fun m p => m.add p.1 p.2) empty

/-- Take the candidate if it comes before what was found so far. -/
def consider (best candidate : Option RuleRef) : Option RuleRef :=
  match candidate, best with
  | none, _ => best
  | some candidate, none => some candidate
  | some candidate, some current =>
    if candidate.index < current.index then some candidate else some current

/-- The references of the rules that the index finds for a target, one group after the other. -/
def policy (m : IndexedMatcher) (host : List Char) (ip : Option IpAddr) : Option String :=
  let best := consider m.matchAll (m.exact.get (String.ofList host))
  let best := (parents host).foldl (fun best suffix => consider best (m.suffix.get suffix)) best
  let best := m.keywords.foldl (fun best (p : String × RuleRef) =>
    if Text.contains p.1.toList host then consider best (some p.2) else best) best
  let best := match ip with
    | none => best
    | some ip => m.cidrs.foldl (fun best (p : IpCidr × RuleRef) =>
        if p.1.contains ip then consider best (some p.2) else best) best
  best.map RuleRef.policy

/-! ### What the index finds -/

/-- The lower the place, the higher the rank. -/
def rank (r : RuleRef) : ℕᵒᵈ := OrderDual.toDual r.index

/-- What the index has for a target. -/
def candidates (m : IndexedMatcher) (host : List Char) (ip : Option IpAddr) : List RuleRef :=
  [m.matchAll, m.exact.get (String.ofList host)].filterMap id ++
    (parents host).filterMap m.suffix.get ++
    m.keywords.filterMap (fun p => if Text.contains p.1.toList host then some p.2 else none) ++
    m.cidrs.filterMap fun p => if ip.any p.1.contains then some p.2 else none

variable {m : IndexedMatcher} {host : List Char} {ip : Option IpAddr} {r : RuleRef} {n : ℕ}
  {rule : CompiledRule}

theorem foldl_consider {α : Type} (f : α → Option RuleRef) (l : List α) (best : Option RuleRef) :
    l.foldl (fun best a => consider best (f a)) best =
      (l.filterMap f).foldl (Latest.keep rank) best := by
  induction l generalizing best with
  | nil => rfl
  | cons a l ih =>
    rw [foldl_cons, ih, filterMap_cons]
    cases f a with
    | none => rfl
    | some r => cases best <;> rfl

theorem policy_eq : m.policy host ip =
    ((candidates m host ip).foldl (Latest.keep rank) none).map RuleRef.policy := by
  have hif (c : Bool) (best : Option RuleRef) (r : RuleRef) :
      (if c then consider best (some r) else best) =
        consider best (if c then some r else none) := by
    cases c <;> rfl
  have hnone (best : Option RuleRef) : consider none best = best := by cases best <;> rfl
  simp only [candidates, foldl_append, ← foldl_consider, policy, hif, foldl_cons, foldl_nil, id, hnone]
  cases ip with
  | none => simp [consider]
  | some ip => rfl

theorem mem_candidates : r ∈ candidates m host ip ↔ m.matchAll = some r ∨
    m.exact.get (String.ofList host) = some r ∨ (∃ s ∈ parents host, m.suffix.get s = some r) ∨
    (∃ k, (k, r) ∈ m.keywords ∧ Text.contains k.toList host) ∨
    ∃ c, (c, r) ∈ m.cidrs ∧ ip.any c.contains := by
  simp [candidates, or_assoc, @eq_comm _ (some r)]

theorem get_orInsert (m : SortedMap String RuleRef) (key : String) (r : RuleRef) (k : String) :
    (orInsert m key r).get k = if key = k ∧ (m.get k).isNone then some r else m.get k := by
  unfold orInsert
  by_cases hk : key = k
  · split_ifs <;> simp_all
  · split_ifs <;> simp_all [SortedMap.get_insert, Ne.symm hk]

theorem mem_candidates_add : (r ∈ candidates m host ip → r ∈ candidates (m.add rule n) host ip) ∧
    (r ∈ candidates (m.add rule n) host ip →
      r ∈ candidates m host ip ∨ r = ⟨n, rule.policy⟩ ∧ rule.matcher.accepts host ip) := by
  simp only [mem_candidates]
  unfold add
  cases hm : rule.matcher with
  | matchAll => cases hall : m.matchAll <;> simp [RuleMatcher.accepts, hall] <;> grind
  | _ =>
    simp only [get_orInsert, RuleMatcher.accepts]
    grind

theorem mem_candidates_first (h : rule.matcher.accepts host ip) (hnil : candidates m host ip = []) :
    ⟨n, rule.policy⟩ ∈ candidates (m.add rule n) host ip := by
  simp only [candidates, append_eq_nil_iff, filterMap_eq_nil_iff] at hnil
  rw [mem_candidates, add]
  cases hm : rule.matcher with
  | domainSuffix s =>
    have hs : s ∈ parents host := by simpa [hm, RuleMatcher.accepts] using h
    exact .inr (.inr (.inl ⟨s, hs, by simp [get_orInsert, hnil.1.1.2 s hs]⟩))
  | _ => simp_all [RuleMatcher.accepts, get_orInsert]

variable {rules : List CompiledRule}

theorem build_append : build (rules ++ [rule]) = (build rules).add rule rules.length := by
  simp [build, zipIdx_append]

theorem getElem?_of_mem_candidates (h : r ∈ candidates (build rules) host ip) :
    ∃ rule, rules[r.index]? = some rule ∧ rule.policy = r.policy := by
  induction rules using reverseRecOn with
  | nil => simp [build, empty, candidates] at h
  | append_singleton rules rule ih =>
    rw [build_append] at h
    rcases mem_candidates_add.2 h with h | ⟨rfl, -⟩
    · obtain ⟨q, hq, hpolicy⟩ := ih h
      exact ⟨q, by rw [getElem?_append_left (List.getElem?_eq_some_iff.1 hq).1, hq], hpolicy⟩
    · simp

/-- **The index finds the policy of the first rule that matches.** -/
theorem policy_build (rules : List CompiledRule) (host : List Char) (ip : Option IpAddr) :
    (build rules).policy host ip = firstMatch rules host ip := by
  rw [policy_eq]
  induction rules using reverseRecOn with
  | nil =>
    have hnil : candidates (build []) host ip = [] := by simp [build, empty, candidates]
    rw [hnil]
    rfl
  | append_singleton rules rule ih =>
    have hold : Latest.IsTop rank _ _ := Latest.isTop_foldl (candidates (build rules) host ip)
    have hnew : Latest.IsTop rank _ _ :=
      Latest.isTop_foldl (candidates ((build rules).add rule rules.length) host ip)
    unfold firstMatch at ih ⊢
    rw [build_append, find?_append]
    cases hbest : (candidates (build rules) host ip).foldl (Latest.keep rank) none with
    | none =>
      rw [hbest] at hold ih
      have hnil := eq_nil_iff_forall_not_mem.2 (Set.eq_empty_iff_forall_notMem.1 hold)
      have hadd {r : RuleRef} (hr : r ∈ candidates ((build rules).add rule rules.length) host ip) :=
        (mem_candidates_add.2 hr).resolve_left (hnil ▸ not_mem_nil)
      rw [Option.map_eq_none_iff.1 ih.symm, Option.none_or]
      by_cases ha : rule.matcher.accepts host ip
      · rw [Latest.foldl_keep_const (fun r hr => (hadd hr).1)
          (ne_nil_of_mem (mem_candidates_first ha hnil))]
        simp [ha, Latest.keep]
      · rw [eq_nil_iff_forall_not_mem.2 fun r hr => ha (hadd hr).2]
        simp [ha]
    | some r =>
      rw [hbest] at hold ih
      obtain ⟨q, hq, hpolicy⟩ := Option.map_eq_some_iff.1 ih.symm
      obtain ⟨hr, htop⟩ := hold
      cases hbest' : (candidates ((build rules).add rule rules.length) host ip).foldl
          (Latest.keep rank) none with
      | none =>
        rw [hbest'] at hnew
        exact absurd (mem_candidates_add.1 hr) (Set.eq_empty_iff_forall_notMem.1 hnew r)
      | some r' =>
        rw [hbest'] at hnew
        have hle : r'.index ≤ r.index := hnew.2 r (mem_candidates_add.1 hr)
        obtain ⟨a, ha, hpa⟩ := getElem?_of_mem_candidates hr
        have hlt := (List.getElem?_eq_some_iff.1 ha).1
        rcases mem_candidates_add.2 hnew.1 with hr' | ⟨rfl, -⟩
        · obtain ⟨b, hb, hpb⟩ := getElem?_of_mem_candidates hr'
          have heq : r'.index = r.index := le_antisymm hle (htop r' hr')
          rw [heq, ha] at hb
          cases hb
          simp [hq, hpolicy, ← hpa, hpb]
        · exact absurd hle (not_le.2 hlt)

end IndexedMatcher

end Exit

end RandallFlare
