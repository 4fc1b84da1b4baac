import Mathlib.Data.List.Destutter
import RandallFlare.Exit.Rules
import RandallFlare.Lib.Fallible
import RandallFlare.Signed.Manifest

/-!
# Routing on the device and at the exit

A translation of the part of `rf/src/exit.rs` and `rf/src/exitproxy.rs` that decides where the
traffic of a device goes.  A node serves the device the rules it is allowed that are enabled; the
device decides by them, and the exit decides again by the same signed records.  The two look at a
list of rules that is not complete in different ways: the device only minds if it is empty, the
exit if any rule is missing.

* `ExitRuleSpec`, `classify`: a rule record and what it decides;
* `Binds`, `classify_first`: it decides as the first rule that matches is bound;
* `DeviceSpec`, `DevicePrincipal`: a device that is authenticated has a valid record;
* `configForDevice`, `classifyConfig`: what the device decides;
* `deviceDecision`: what the exit decides;
* `FirstRejects`: the first rule in force that decides a target rejects it;
* `routing_agrees_iff`: when the two agree.
-/

namespace RandallFlare

open SortedMap List

namespace Exit

open Postcard (utf8)

inductive RuleFormat
  | auto | surge | clash
  deriving DecidableEq

/-- Where a policy leads. -/
inductive ExitTarget
  | direct
  | reject
  | nearest
  | node (nodeId : String)
  deriving DecidableEq

structure ExitRuleSpec where
  enabled : Bool := true
  priority : ℤ := 0
  format : RuleFormat := .auto
  config : String
  providers : SortedMap String String := empty
  policyExits : SortedMap String ExitTarget := empty

/-- `compile`: the rules of a record in their order, or the text of an error. -/
abbrev Compile := ExitRuleSpec → Except String (List CompiledRule)

/-- What becomes of a target. -/
inductive Decision
  | direct
  | reject
  | nearest
  | node (id : String)
  deriving DecidableEq

/-- What a policy decides: as it is mapped, or by its name. -/
def policyDecision (spec : ExitRuleSpec) (policy : String) : Except String Decision :=
  match spec.policyExits.get policy with
  | some .direct => .ok .direct
  | some .reject => .ok .reject
  | some .nearest => .ok .nearest
  | some (.node nodeId) => .ok (.node nodeId)
  | none =>
    let upper := policy.toList.map Char.toUpper
    if upper = "REJECT".toList ∨ "REJECT-".toList <+: upper then .ok .reject
    else if upper = "DIRECT".toList then .ok .direct
    else .error ("出口策略 " ++ policy ++ " 没有签名出口映射")

section

variable (compile : Compile)

/-- What a rule record decides on a target, if one of its rules matches. -/
def classify (spec : ExitRuleSpec) (host : String) (ip : Option IpAddr) :
    Except String (Option Decision) := do
  let host := (Text.trimEnd (· = '.') host.toList).map Char.toLower
  let rules ← compile spec
  match (IndexedMatcher.build rules).policy host ip with
  | none => pure none
  | some policy => some <$> policyDecision spec policy

/-- The policy is neither built in nor mapped. -/
def Dangling (spec : ExitRuleSpec) (policy : String) : Prop :=
  let upper := policy.toList.map Char.toUpper
  upper ≠ "DIRECT".toList ∧ upper ≠ "REJECT".toList ∧ ¬ "REJECT-".toList <+: upper ∧
    (spec.policyExits.get policy).isNone

instance (spec : ExitRuleSpec) (policy : String) : Decidable (Dangling spec policy) :=
  inferInstanceAs (Decidable (_ ∧ _))

/-- The last loop of `ExitRuleSpec::validate`: each policy leads somewhere. -/
def validatePolicies (spec : ExitRuleSpec) : Except String Unit := do
  (← compile spec).forM fun rule => Fallible.failIf (Dangling spec rule.policy)
    ("出口策略 " ++ rule.policy ++ " 没有绑定 direct、reject、nearest 或具体节点")

/-- The rule is for the target, whose name `classify` puts in lower case. -/
def CompiledRule.Matches (rule : CompiledRule) (host : String) (ip : Option IpAddr) : Prop :=
  rule.matcher.Matches ((Text.trimEnd (· = '.') host.toList).map Char.toLower) ip

/-- What a policy is bound to: the exit it is mapped to or, if it is not, what its name says. -/
inductive Binds (spec : ExitRuleSpec) (policy : String) : Decision → Prop
  | direct (h : spec.policyExits.get policy = some .direct) : Binds spec policy .direct
  | reject (h : spec.policyExits.get policy = some .reject) : Binds spec policy .reject
  | nearest (h : spec.policyExits.get policy = some .nearest) : Binds spec policy .nearest
  | node {id : String} (h : spec.policyExits.get policy = some (.node id)) :
      Binds spec policy (.node id)
  | namedReject (h : spec.policyExits.get policy = none)
      (hname : policy.toList.map Char.toUpper = "REJECT".toList ∨
        "REJECT-".toList <+: policy.toList.map Char.toUpper) : Binds spec policy .reject
  | namedDirect (h : spec.policyExits.get policy = none)
      (hname : policy.toList.map Char.toUpper = "DIRECT".toList) : Binds spec policy .direct

variable {compile} {spec : ExitRuleSpec} {policy host : String} {ip : Option IpAddr} {d : Decision}

theorem policyDecision_eq_ok_iff : policyDecision spec policy = .ok d ↔ Binds spec policy d := by
  constructor
  · intro h
    unfold policyDecision at h
    cases hget : spec.policyExits.get policy with
    | some target =>
      rw [hget] at h
      cases target <;> cases h
      · exact .direct hget
      · exact .reject hget
      · exact .nearest hget
      · exact .node hget
    | none =>
      rw [hget] at h
      dsimp only at h
      split_ifs at h with hreject hdirect
      · cases h
        exact .namedReject hget hreject
      · cases h
        exact .namedDirect hget hdirect
  · intro h
    unfold policyDecision
    cases h with
    | direct h | reject h | nearest h | node h => rw [h]
    | namedReject h hname =>
      rw [h]
      exact if_pos hname
    | namedDirect h hname =>
      rw [h, hname]
      rfl

theorem exists_binds (h : ¬ Dangling spec policy) : ∃ d, Binds spec policy d := by
  cases hget : spec.policyExits.get policy with
  | some target =>
    cases target
    · exact ⟨_, .direct hget⟩
    · exact ⟨_, .reject hget⟩
    · exact ⟨_, .nearest hget⟩
    · exact ⟨_, .node hget⟩
  | none =>
    by_cases hdirect : policy.toList.map Char.toUpper = "DIRECT".toList
    · exact ⟨_, .namedDirect hget hdirect⟩
    · refine ⟨_, .namedReject hget ?_⟩
      by_contra hreject
      exact h ⟨hdirect, fun h => hreject (.inl h), fun h => hreject (.inr h), by simp [hget]⟩

variable (compile spec host ip) in
/-- The record decides `d`: the first of its rules that matches is bound to it. -/
def Decides (d : Decision) : Prop :=
  ∃ before rule after, compile spec = .ok (before ++ rule :: after) ∧ rule.Matches host ip ∧
    (∀ r ∈ before, ¬ r.Matches host ip) ∧ Binds spec rule.policy d

variable (compile spec host ip) in
/-- No rule of the record matches. -/
def Passes : Prop :=
  ∃ rules, compile spec = .ok rules ∧ ∀ r ∈ rules, ¬ r.Matches host ip

theorem classify_of_compile {rules : List CompiledRule} (h : compile spec = .ok rules) :
    classify compile spec host ip = match rules.find? (·.matcher.accepts
        ((Text.trimEnd (· = '.') host.toList).map Char.toLower) ip) with
      | none => .ok none
      | some rule => policyDecision spec rule.policy >>= fun d => .ok (some d) := by
  simp only [classify, h, bind, Except.bind, IndexedMatcher.policy_build, firstMatch]
  cases rules.find? _ with
  | none => rfl
  | some rule => cases policyDecision spec rule.policy <;> rfl

theorem classify_of_error {text : String} (h : compile spec = .error text) :
    classify compile spec host ip = .error text := by
  simp only [classify, h, bind, Except.bind]

/-- A record decides by the first of its rules that matches. -/
theorem classify_eq_some_iff :
    classify compile spec host ip = .ok (some d) ↔ Decides compile spec host ip d := by
  unfold Decides
  cases hrules : compile spec with
  | error text => simp [classify_of_error hrules]
  | ok rules =>
    rw [classify_of_compile hrules]
    simp only [Except.ok.injEq, CompiledRule.Matches, ← RuleMatcher.accepts_iff]
    constructor
    · intro h
      split at h
      next => cases h
      next rule hfind =>
        obtain ⟨hrule, before, after, heq, hbefore⟩ := find?_eq_some_iff_append.1 hfind
        obtain ⟨d', hd, hd'⟩ := Fallible.bind_eq_ok.1 h
        cases hd'
        exact ⟨before, rule, after, heq, hrule, by simpa using hbefore,
          policyDecision_eq_ok_iff.1 hd⟩
    · rintro ⟨before, rule, after, heq, hrule, hbefore, hbinds⟩
      have hfind : rules.find? _ = some rule :=
        find?_eq_some_iff_append.2 ⟨hrule, before, after, heq, by simpa using hbefore⟩
      rw [hfind]
      dsimp only
      rw [policyDecision_eq_ok_iff.2 hbinds]
      rfl

theorem classify_eq_none_iff :
    classify compile spec host ip = .ok none ↔ Passes compile spec host ip := by
  unfold Passes
  cases hrules : compile spec with
  | error text => simp [classify_of_error hrules]
  | ok rules =>
    rw [classify_of_compile hrules]
    simp only [Except.ok.injEq, exists_eq_left', CompiledRule.Matches, ← RuleMatcher.accepts_iff,
      ← find?_eq_none]
    cases hfind : rules.find? _ with
    | none => simp
    | some rule =>
      simp only [reduceCtorEq, iff_false]
      intro h
      obtain ⟨d, -, hd⟩ := Fallible.bind_eq_ok.1 h
      cases hd

/-- Rules of three kinds: one host goes out directly, the rest of its domain to the nearest exit,
and everything else is rejected. -/
def splitRules : Compile := fun _ => .ok
  [⟨.domain "www.example.com", "DIRECT"⟩, ⟨.domainSuffix "example.com", "Proxy"⟩,
    ⟨.matchAll, "REJECT"⟩]

/-- A record whose policy `Proxy` is mapped to the nearest exit. -/
def splitSpec : ExitRuleSpec where
  config := "DOMAIN,www.example.com,DIRECT\nDOMAIN-SUFFIX,example.com,Proxy\nFINAL,REJECT"
  policyExits := empty.insert "Proxy" .nearest

variable (compile) in
/-- The first record with a rule that matches decides; without one the target is direct. -/
def decideBy (host : String) (ip : Option IpAddr) : List ExitRuleSpec → Except String Decision
  | [] => .ok .direct
  | spec :: specs => do
    match ← classify compile spec host ip with
    | some decision => pure decision
    | none => decideBy host ip specs

theorem decideBy_eq_reject_iff {specs : List ExitRuleSpec} :
    decideBy compile host ip specs = .ok .reject ↔ ∃ before spec after,
      specs = before ++ spec :: after ∧ (∀ s ∈ before, Passes compile s host ip) ∧
        Decides compile spec host ip .reject := by
  simp only [← classify_eq_none_iff, ← classify_eq_some_iff]
  induction specs with
  | nil => simp [decideBy]
  | cons spec specs ih =>
    unfold decideBy
    constructor
    · intro h
      obtain ⟨decided, hspec, h⟩ := Fallible.bind_eq_ok.1 h
      cases decided with
      | some d =>
        cases h
        exact ⟨[], spec, specs, rfl, by simp, hspec⟩
      | none =>
        obtain ⟨before, decider, after, rfl, hbefore, hdecider⟩ := ih.1 h
        refine ⟨spec :: before, decider, after, rfl, ?_, hdecider⟩
        exact forall_mem_cons.2 ⟨hspec, hbefore⟩
    · rintro ⟨before, decider, after, heq, hbefore, hdecider⟩
      cases before with
      | nil =>
        obtain ⟨rfl, -⟩ := cons.inj heq
        exact Fallible.bind_eq_ok.2 ⟨_, hdecider, rfl⟩
      | cons first before =>
        obtain ⟨rfl, rfl⟩ := cons.inj heq
        obtain ⟨hfirst, hbefore⟩ := forall_mem_cons.1 hbefore
        refine Fallible.bind_eq_ok.2 ⟨_, hfirst, ?_⟩
        exact ih.2 ⟨before, decider, after, rfl, hbefore, hdecider⟩

end

/-! ### The signed records -/

/-- The head of a rule resource; `spec` is what `exit_rule_spec` reads, if it is valid. -/
structure RuleHead where
  version : ℕ
  digest : String
  deleted : Bool
  spec : Option ExitRuleSpec

/-- The heads of the rule resources by their names. -/
abbrev RuleHeads := SortedMap String RuleHead

structure DeviceRule where
  name : String
  version : ℕ
  digest : String
  spec : ExitRuleSpec

/-- The rule of a head that is not deleted and valid. -/
def RuleHead.rule (name : String) (head : RuleHead) : Option DeviceRule :=
  if head.deleted then none else head.spec.map (⟨name, head.version, head.digest, ·⟩)

/-- `rule_records`: the rules by their priorities and names. -/
def ruleRecords (heads : RuleHeads) : List DeviceRule :=
  (heads.entries.filterMap fun p => p.2.rule p.1).insertionSort fun a b =>
    toLex (a.spec.priority, a.name) ≤ toLex (b.spec.priority, b.name)

/-- The record of a client device. -/
structure DeviceSpec where
  schema : UInt8 := 1
  label : String
  tokenPrefix : String
  tokenSha256 : String
  allowedRules : List String
  createdAtMs : ℕ
  expiresAtMs : Option ℕ := none
  revokedAtMs : Option ℕ := none
  suspended : Bool := false
  deriving DecidableEq

namespace DeviceSpec

/-- A byte of a letter, of a digit, or one of `_` and `-`. -/
def tokenByte (b : UInt8) : Bool :=
  (97 ≤ b && b ≤ 122) || (65 ≤ b && b ≤ 90) || (48 ≤ b && b ≤ 57) || b == 95 || b == 45

def hexByte (b : UInt8) : Bool :=
  (97 ≤ b && b ≤ 102) || (65 ≤ b && b ≤ 70) || (48 ≤ b && b ≤ 57)

def validate (d : DeviceSpec) : Except String Unit :=
  if d.schema ≠ 1 then .error "不支持此版本的客户端设备"
  else if Text.trim d.label.toList = [] ∨ 80 < (utf8 d.label).length ∨
      d.label.toList.any (· ∈ ['\r', '\n', '\x00']) then
    .error "设备名称必须为 1 至 80 个字符"
  else if (utf8 d.tokenPrefix).length ≠ 12 ∨ ¬ "rfd_".toList <+: d.tokenPrefix.toList ∨
      ¬ (utf8 d.tokenPrefix).all tokenByte then
    .error "设备令牌显示前缀无效"
  else if (utf8 d.tokenSha256).length ≠ 64 ∨ ¬ (utf8 d.tokenSha256).all hexByte then
    .error "设备令牌摘要无效"
  else if d.allowedRules = [] ∨ 50 < d.allowedRules.length then
    .error "一台设备必须选择 1 至 50 条出口规则"
  else if ¬ d.allowedRules.Nodup ∨ d.allowedRules.any (!validName ·) then
    .error "设备出口规则包含重复或无效名称"
  else if d.createdAtMs = 0 ∨ d.expiresAtMs.any (· ≤ d.createdAtMs) ∨
      d.revokedAtMs.any (· < d.createdAtMs) then
    .error "设备令牌时间范围无效"
  else .ok ()

def active (d : DeviceSpec) (atMs : ℕ) : Bool :=
  !d.suspended && d.revokedAtMs.isNone && d.expiresAtMs.all (atMs < ·)

end DeviceSpec

/-- A device that is authenticated: its record was read and is valid. -/
structure DevicePrincipal where
  name : String
  spec : DeviceSpec
  valid : spec.validate = .ok ()

theorem DevicePrincipal.allowedRules_ne_nil (device : DevicePrincipal) :
    device.spec.allowedRules ≠ [] := by
  intro h
  have := device.valid
  unfold DeviceSpec.validate at this
  split_ifs at this
  simp_all

theorem DevicePrincipal.nodup_allowedRules (device : DevicePrincipal) :
    device.spec.allowedRules.Nodup := by
  by_contra h
  have := device.valid
  unfold DeviceSpec.validate at this
  split_ifs at this
  simp_all

/-- `rules_for_device`: the enabled rules that the device is allowed. -/
def rulesForDevice (heads : RuleHeads) (device : DeviceSpec) : List DeviceRule :=
  (ruleRecords heads).filter fun rule => rule.spec.enabled ∧ rule.name ∈ device.allowedRules

/-! ### The device and the exit -/

structure DeviceExit where
  nodeId : String
  label : String
  endpoint : String

structure DeviceConfig where
  schema : ℕ
  clusterId : String
  device : String
  label : String
  rules : List DeviceRule
  exits : List DeviceExit
  refreshAfterSeconds : ℕ

/-- What a node knows of a peer. -/
structure Peer where
  label : String
  capabilities : List String
  exitEndpoint : Option String

/-- What a node knows of itself and of its peers. -/
structure NodeView where
  id : String
  label : String
  clusterId : String
  exitEnabled : Bool
  advertise : Option String
  peers : List (String × Peer)

/-- The exits a node knows, itself among them, by their names. -/
def NodeView.exits (node : NodeView) : List DeviceExit :=
  let own := if node.exitEnabled then
    (node.advertise.map (⟨node.id, node.label, ·⟩ : String → DeviceExit)).toList else []
  let others := node.peers.filterMap fun p =>
    if "exit" ∈ p.2.capabilities then p.2.exitEndpoint.map (⟨p.1, p.2.label, ·⟩) else none
  ((own ++ others).mergeSort fun a b => a.nodeId ≤ b.nodeId).destutter
    fun a b => a.nodeId ≠ b.nodeId

def configForDevice (node : NodeView) (heads : RuleHeads) (device : DevicePrincipal) :
    DeviceConfig where
  schema := 1
  clusterId := node.clusterId
  device := device.name
  label := device.spec.label
  rules := rulesForDevice heads device.spec
  exits := node.exits
  refreshAfterSeconds := 30

section

variable (compile : Compile)

/-- What the device decides. -/
def classifyConfig (config : DeviceConfig) (host : String) (ip : Option IpAddr) :
    Except String Decision :=
  if config.rules.isEmpty then .ok .reject
  else decideBy compile host ip (config.rules.map (·.spec))

def deviceDecision (heads : RuleHeads) (device : DevicePrincipal) (host : String)
    (ip : Option IpAddr) : Except String Decision :=
  let rules := rulesForDevice heads device.spec
  if rules.length ≠ device.spec.allowedRules.length then .ok .reject
  else decideBy compile host ip (rules.map (·.spec))

end

/-! ### When they agree -/

/-- The rule of this name is there, valid and enabled. -/
def InForce (heads : RuleHeads) (name : String) : Prop :=
  ∃ head rule, heads.get name = some head ∧ head.rule name = some rule ∧ rule.spec.enabled

/-- The device is served the rule: it is allowed it, and the rule is in force. -/
def Served (heads : RuleHeads) (device : DeviceSpec) (rule : DeviceRule) : Prop :=
  rule.name ∈ device.allowedRules ∧ rule.spec.enabled ∧
    ∃ head, heads.get rule.name = some head ∧ head.rule rule.name = some rule

/-- The order of the rules: by their priorities, and those of one priority by their names. -/
def DeviceRule.key (rule : DeviceRule) : ℤ ×ₗ String := toLex (rule.spec.priority, rule.name)

/-- Of the rules the device is served, the first that decides the target rejects it. -/
def FirstRejects (compile : Compile) (heads : RuleHeads) (device : DeviceSpec) (host : String)
    (ip : Option IpAddr) : Prop :=
  ∃ rule, Served heads device rule ∧ Decides compile rule.spec host ip .reject ∧
    ∀ earlier, Served heads device earlier → earlier.key < rule.key →
      Passes compile earlier.spec host ip

variable {name : String} {rule : DeviceRule} {heads : RuleHeads}

theorem RuleHead.name_rule {head : RuleHead}
    (h : head.rule name = some rule) : rule.name = name := by
  unfold RuleHead.rule at h
  split_ifs at h
  obtain ⟨spec, -, rfl⟩ := Option.map_eq_some_iff.1 h
  rfl

theorem mem_ruleRecords : rule ∈ ruleRecords heads ↔
    ∃ head, heads.get rule.name = some head ∧ head.rule rule.name = some rule := by
  simp only [ruleRecords, mem_insertionSort, mem_filterMap, Prod.exists]
  constructor
  · rintro ⟨name, head, hmem, hrule⟩
    obtain rfl := RuleHead.name_rule hrule
    exact ⟨head, (get_eq_some_iff _).2 hmem, hrule⟩
  · rintro ⟨head, hget, hrule⟩
    exact ⟨rule.name, head, (get_eq_some_iff _).1 hget, hrule⟩

theorem mem_rulesForDevice {device : DeviceSpec} :
    rule ∈ rulesForDevice heads device ↔ Served heads device rule := by
  simp only [rulesForDevice, mem_filter, mem_ruleRecords, decide_eq_true_eq, Served]
  tauto

theorem mem_rulesForDevice_iff {device : DeviceSpec} :
    name ∈ (rulesForDevice heads device).map (·.name) ↔
      name ∈ device.allowedRules ∧ InForce heads name := by
  simp only [mem_map, mem_rulesForDevice]
  constructor
  · rintro ⟨rule, ⟨hallowed, henabled, head, hget, hrule⟩, rfl⟩
    exact ⟨hallowed, head, rule, hget, hrule, henabled⟩
  · rintro ⟨hallowed, head, rule, hget, hrule, henabled⟩
    obtain rfl := RuleHead.name_rule hrule
    exact ⟨rule, ⟨hallowed, henabled, head, hget, hrule⟩, rfl⟩

theorem nodup_rulesForDevice (heads : RuleHeads) (device : DeviceSpec) :
    ((rulesForDevice heads device).map (·.name)).Nodup := by
  have hentries : (heads.entries.filterMap fun p => p.2.rule p.1).Pairwise
      fun a b => a.name ≠ b.name := by
    refine heads.sorted.filterMap _ fun p q hpq rule hrule rule' hrule' => ?_
    rw [RuleHead.name_rule hrule, RuleHead.name_rule hrule']
    exact ne_of_lt hpq
  have hrecords : (ruleRecords heads).Pairwise fun a b => a.name ≠ b.name :=
    ((perm_insertionSort _ _).pairwise_iff Ne.symm).2 hentries
  exact pairwise_map.2 (hrecords.filter _)

theorem pairwise_rulesForDevice (heads : RuleHeads) (device : DeviceSpec) :
    (rulesForDevice heads device).Pairwise fun a b => a.key < b.key := by
  let le (a b : DeviceRule) : Prop := a.key ≤ b.key
  have : Std.Total le := ⟨fun a b => le_total a.key b.key⟩
  have : IsTrans DeviceRule le := ⟨fun a b c => le_trans⟩
  have hrecords : (ruleRecords heads).Pairwise le := pairwise_insertionSort le _
  have hnames := pairwise_map.1 (nodup_rulesForDevice heads device)
  refine ((hrecords.filter _).and hnames).imp fun {a b} h => lt_of_le_of_ne h.1 fun hkey => h.2 ?_
  exact congrArg (fun k => (ofLex k).2) hkey

theorem decideBy_rulesForDevice_eq_reject_iff {compile : Compile} {device : DeviceSpec}
    {host : String} {ip : Option IpAddr} :
    decideBy compile host ip ((rulesForDevice heads device).map (·.spec)) = .ok .reject ↔
      FirstRejects compile heads device host ip := by
  rw [decideBy_eq_reject_iff]
  have hsorted := pairwise_rulesForDevice heads device
  constructor
  · rintro ⟨before, spec, after, hmap, hbefore, hrejects⟩
    obtain ⟨earlier, rules, hrules, rfl, hrest⟩ := map_eq_append_iff.1 hmap
    obtain ⟨rule, later, rfl, rfl, rfl⟩ := map_eq_cons_iff.1 hrest
    refine ⟨rule, mem_rulesForDevice.1 (by simp [hrules]), hrejects, fun rule' hserved hlt => ?_⟩
    have hmem := mem_rulesForDevice.2 hserved
    rw [hrules] at hmem hsorted
    obtain hmem | hmem := mem_append.1 hmem
    · exact hbefore _ (mem_map_of_mem hmem)
    · -- From the rule on, no key is smaller than that of the rule.
      have hle : rule.key ≤ rule'.key := by
        obtain rfl | hmem := mem_cons.1 hmem
        · exact le_rfl
        · exact (rel_of_pairwise_cons (pairwise_append.1 hsorted).2.1 hmem).le
      exact absurd hlt hle.not_gt
  · rintro ⟨rule, hserved, hrejects, hpasses⟩
    obtain ⟨earlier, later, hrules⟩ := append_of_mem (mem_rulesForDevice.2 hserved)
    refine ⟨earlier.map (·.spec), rule.spec, later.map (·.spec), by simp [hrules], ?_, hrejects⟩
    rw [hrules] at hsorted
    simp only [forall_mem_map]
    intro rule' hmem
    refine hpasses rule' (mem_rulesForDevice.1 (by simp [hrules, hmem])) ?_
    exact (pairwise_append.1 hsorted).2.2 rule' hmem rule (by simp)

/-- No rule is missing exactly if each that the device is allowed is in force. -/
theorem length_rulesForDevice_eq_iff (heads : RuleHeads) (device : DevicePrincipal) :
    (rulesForDevice heads device.spec).length = device.spec.allowedRules.length ↔
      ∀ name ∈ device.spec.allowedRules, InForce heads name := by
  have hsub : (rulesForDevice heads device.spec).map (·.name) ⊆ device.spec.allowedRules :=
    fun name hname => (mem_rulesForDevice_iff.1 hname).1
  have hsubperm := (nodup_rulesForDevice heads device.spec).subperm hsub
  rw [← length_map (f := (·.name))]
  constructor
  · intro hlength name hname
    have hperm := hsubperm.perm_of_length_le hlength.ge
    exact (mem_rulesForDevice_iff.1 (hperm.mem_iff.2 hname)).2
  · intro hall
    refine le_antisymm hsubperm.length_le (device.nodup_allowedRules.subperm ?_).length_le
    exact fun name hname => mem_rulesForDevice_iff.2 ⟨hname, hall name hname⟩

theorem rulesForDevice_eq_nil_iff (heads : RuleHeads) (device : DeviceSpec) :
    rulesForDevice heads device = [] ↔ ∀ name ∈ device.allowedRules, ¬ InForce heads name := by
  rw [← map_eq_nil_iff (f := (·.name)), eq_nil_iff_forall_not_mem]
  simp only [mem_rulesForDevice_iff, not_and]

/-- **The device and the exit decide alike exactly if all rules that the device is allowed are in
force, or none is, or the first of those in force that decides the target rejects it.** -/
theorem routing_agrees_iff (compile : Compile) (node : NodeView) (heads : RuleHeads)
    (device : DevicePrincipal) (host : String) (ip : Option IpAddr) :
    classifyConfig compile (configForDevice node heads device) host ip =
        deviceDecision compile heads device host ip ↔
      (∀ name ∈ device.spec.allowedRules, InForce heads name) ∨
      (∀ name ∈ device.spec.allowedRules, ¬ InForce heads name) ∨
      FirstRejects compile heads device.spec host ip := by
  rw [← length_rulesForDevice_eq_iff, ← rulesForDevice_eq_nil_iff,
    ← decideBy_rulesForDevice_eq_reject_iff]
  unfold classifyConfig deviceDecision configForDevice
  dsimp only
  by_cases hnil : rulesForDevice heads device.spec = []
  · have hne : 0 ≠ device.spec.allowedRules.length := by
      simpa [eq_comm] using device.allowedRules_ne_nil
    simp [hnil, hne]
  · rw [if_neg (by simpa using hnil)]
    split_ifs with hlength
    · simp [hlength, hnil]
    · simp [not_not.1 hlength]

/-- A record with the one rule that everything goes to `Proxy`, the nearest exit. -/
def proxySpec (enabled : Bool) : ExitRuleSpec where
  enabled := enabled
  format := .surge
  config := "FINAL,Proxy"
  policyExits := empty.insert "Proxy" .nearest

/-- Two records, of which the second may be switched off. -/
def twoRules (enabled : Bool) : RuleHeads :=
  (empty.insert "work" ⟨1, "d1", false, some (proxySpec true)⟩).insert "home"
    ⟨1, "d2", false, some (proxySpec enabled)⟩

/-- What these records compile to. -/
def proxyAll : Compile := fun _ => .ok [⟨.matchAll, "Proxy"⟩]

def laptop : DevicePrincipal where
  name := "laptop"
  spec :=
    { label := "laptop"
      tokenPrefix := "rfd_AAAAAAAA"
      tokenSha256 := "0000000000000000000000000000000000000000000000000000000000000000"
      allowedRules := ["work", "home"]
      createdAtMs := 1 }
  valid := by decide +kernel

def gateway : NodeView := ⟨"n1", "gateway", "c", false, none, []⟩

/-- With one of two rules switched off, the device sends its traffic to the nearest exit, and the
exit rejects it. -/
theorem halfEnabled_disagree :
    classifyConfig proxyAll (configForDevice gateway (twoRules false) laptop) "example.com" none =
        .ok .nearest ∧
      deviceDecision proxyAll (twoRules false) laptop "example.com" none = .ok .reject := by
  constructor <;> decide +kernel

end Exit

end RandallFlare
