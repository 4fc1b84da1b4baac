import RandallFlare.Flow.Graph
import RandallFlare.Lib.Fallible

/-!
# The graphs a flow may have

A translation of `validate_graph`.  Ids are compared with ids and labels with labels, but
`node_context` and `final_output` keep the outputs of a run under both in one map: a node whose
label is the id of another hides the output of the other.

* `Drawing`, `validateGraph`: the check, with `visited`, the search for a cycle;
* `Unshadowed`: every output is found under the id and the label of its node;
* `unshadowed_iff`: this fails exactly if a label is the id of a node with another output.
-/

namespace RandallFlare

namespace Flow

open Fallible SortedMap List Option

/-- A graph with the ids of its edges. -/
structure Drawing where
  nodes : List FlowNode
  edges : List (String × FlowEdge)

def Drawing.graph (d : Drawing) : FlowGraph := ⟨d.nodes, d.edges.map (·.2)⟩

/-- What the check knows of the drawing beside ids, labels and edges: its size in JSON, whether the
coordinates of a node are finite and small, and what `validate_node_config` says. -/
structure Checks where
  bytes : Drawing → ℕ
  placed : FlowNode → Bool
  config : FlowNode → Except String Unit

def validateGraphId (value kind : String) : Except String Unit :=
  failIf (value.isEmpty ∨ 128 < value.utf8ByteSize ∨
    ¬ value.toList.all fun c => c.isAlphanum || c = '_' || c = '-' || c = '.')
    ("Flow " ++ kind ++ " ID 无效")

/-- The names taken by the nodes so far, and the number of triggers. -/
structure Names where
  ids : List String := []
  labels : List String := []
  triggers : ℕ := 0

/-- The checks of one node; an `onError` that is read at all is one of those allowed. -/
def validateNode (c : Checks) (t : Names) (n : FlowNode) : Except String Names := do
  validateGraphId n.id "节点"
  failIf (n.id ∈ t.ids) ("Flow 节点 ID 重复：" ++ n.id)
  failIf (128 < n.label.utf8ByteSize) "Flow 节点标签不得超过 128 个字符"
  failIf (¬ n.label.isEmpty ∧ n.label ∈ t.labels) ("Flow 节点标签必须唯一：" ++ n.label)
  failIf (¬ c.placed n) ("Flow 节点坐标无效：" ++ n.id)
  c.config n
  pure ⟨t.ids ++ [n.id], if n.label.isEmpty then t.labels else t.labels ++ [n.label],
    if n.nodeType = "trigger" then t.triggers + 1 else t.triggers⟩

/-- The checks of one edge, after those with the given ids, sources, targets and handles. -/
def validateEdge (ids : List String) (seen : List String × List (String × String × String))
    (e : String × FlowEdge) : Except String (List String × List (String × String × String)) := do
  validateGraphId e.1 "连线"
  failIf (e.1 ∈ seen.1) ("Flow 连线 ID 重复：" ++ e.1)
  failIf (e.2.source = e.2.target ∨ e.2.source ∉ ids ∨ e.2.target ∉ ids)
    ("Flow 连线引用无效节点：" ++ e.1)
  let pair := (e.2.source, e.2.target, e.2.sourceHandle.getD "")
  failIf (pair ∈ seen.2) ("Flow 存在重复连线：" ++ e.2.source ++ " → " ++ e.2.target)
  pure (seen.1 ++ [e.1], seen.2 ++ [pair])

/-- Take one off the number of edges to a target that are left; it is ready with the last one. -/
def release (s : (String → ℕ) × List String) (t : String) : (String → ℕ) × List String :=
  let left := Function.update s.1 t (s.1 t - 1)
  (left, if left t = 0 then s.2 ++ [t] else s.2)

/-- The nodes taken out of the queue of those that are ready, in their order. -/
def visit (graph : FlowGraph) : ℕ → (String → ℕ) → List String → List String
  | 0, _, _ => []
  | _ + 1, _, [] => []
  | fuel + 1, left, id :: queue =>
    let next := (targets graph id).foldl release (left, queue)
    id :: visit graph fuel next.1 next.2

/-- The nodes in the order in which the search for a cycle comes to them.  There is a turn more
than nodes, so that a search that does not end would be refused. -/
def visited (graph : FlowGraph) : List String :=
  let left := fun id => (graph.edges.filter (·.target = id)).length
  visit graph (graph.nodes.length + 1) left ((graph.nodes.map (·.id)).filter (left · = 0))

def validateGraph (c : Checks) (d : Drawing) : Except String Unit := do
  failIf d.nodes.isEmpty "Flow 至少需要一个节点"
  failIf (500 < d.nodes.length ∨ 2000 < d.edges.length) "Flow 图最多包含 500 个节点和 2000 条连线"
  failIf (768 * 1024 < c.bytes d) "Flow 图不得超过 768 KiB"
  let taken ← d.nodes.foldlM (validateNode c) {}
  failIf (taken.triggers ≠ 1) "Flow 必须且只能包含一个 trigger 节点"
  let _ ← d.edges.foldlM (validateEdge taken.ids) ([], [])
  failIf ((visited d.graph).length ≠ d.nodes.length)
    "Flow 图必须是无环 DAG；循环请使用 loop 节点"

/-! ### What is accepted -/

/-- Two nodes have different ids, and different labels if they have any. -/
def Apart (a b : FlowNode) : Prop := a.id ≠ b.id ∧ (a.label = b.label → a.label.isEmpty)

instance : Std.Symm Apart := ⟨fun _ _ h => ⟨h.1.symm, fun hl => hl ▸ h.2 hl.symm⟩⟩

variable {c : Checks} {nodes : List FlowNode} {d : Drawing} {states : States}

theorem pairwise_of_validateNodes {t t' : Names} (h : nodes.foldlM (validateNode c) t = .ok t') :
    t'.ids = t.ids ++ nodes.map (·.id) ∧
      (∀ n ∈ nodes, n.id ∉ t.ids ∧ (n.label.isEmpty ∨ n.label ∉ t.labels)) ∧
      nodes.Pairwise Apart := by
  induction nodes generalizing t with
  | nil =>
    cases h
    simp
  | cons n nodes ih =>
    obtain ⟨u, hu, h⟩ := bind_eq_ok.1 h
    obtain ⟨hids, hnew, hrest⟩ := ih h
    simp only [validateNode, bind_eq_ok, failIf_eq_ok] at hu
    obtain ⟨-, -, -, hid, -, -, -, hlabel, -, -, -, -, hu⟩ := hu
    cases hu
    refine ⟨by simp [hids], fun m hm => ?_, pairwise_cons.2 ⟨fun m hm => ?_, hrest⟩⟩
    · rcases mem_cons.1 hm with rfl | hm
      · exact ⟨hid, by tauto⟩
      · grind
    · grind [Apart]

theorem pairwise_of_validateGraph (h : validateGraph c d = .ok ()) : d.nodes.Pairwise Apart := by
  simp only [validateGraph, bind_eq_ok, failIf_eq_ok] at h
  obtain ⟨-, -, -, -, -, -, t, ht, -⟩ := h
  exact (pairwise_of_validateNodes ht).2.2

/-! ### Outputs by their names -/

/-- The names of a node under which its output is kept. -/
def FlowNode.names (n : FlowNode) : List String :=
  if n.label.isEmpty then [n.id] else [n.id, n.label]

/-- The name of a sink among several. -/
def FlowNode.name (n : FlowNode) : String := if n.label.isEmpty then n.id else n.label

theorem FlowNode.name_mem (n : FlowNode) : n.name ∈ n.names := by
  unfold name names
  split_ifs <;> simp

/-- The sinks of the graph that were not skipped. -/
def liveSinks (graph : FlowGraph) (states : States) : List FlowNode :=
  graph.nodes.filter fun n =>
    !graph.edges.any (·.source = n.id) && (states.get n.id).any (·.routeStatus ≠ .skipped)

/-- Every output is in the context under the id and the label of its node, and of several sinks
that were not skipped each has its own output in the result. -/
def Unshadowed (graph : FlowGraph) (states : States) : Prop :=
  (∀ n ∈ graph.nodes, ∀ s, states.get n.id = some s → ∀ name ∈ n.names,
    (nodeContext graph.nodes states empty).get name = some s.output) ∧
  (2 ≤ (liveSinks graph states).length → ∃ fields, finalOutput graph states = .obj fields ∧
    ∀ n ∈ liveSinks graph states, ∀ s, states.get n.id = some s →
      fields.lookup n.name = some s.output)

/-- A label that is the id of a node belongs to it, or to a node with the same output. -/
def LabelsFit (graph : FlowGraph) (states : States) : Prop :=
  ∀ a ∈ graph.nodes, ∀ b ∈ graph.nodes, ¬ a.label.isEmpty → a.label = b.id →
    ∀ s t, states.get a.id = some s → states.get b.id = some t → s.output = t.output

/-- Outputs with the names they are kept under. -/
def named (states : States) (nodes : List FlowNode) : List (String × Value) :=
  nodes.flatMap fun n => (states.get n.id).elim [] fun s => n.names.map (·, s.output)

theorem mem_named {p : String × Value} : p ∈ named states nodes ↔
      ∃ n ∈ nodes, ∃ s, states.get n.id = some s ∧ p.1 ∈ n.names ∧ p.2 = s.output := by
  simp only [named, mem_flatMap]
  refine exists_congr fun n => and_congr_right fun _ => ?_
  cases states.get n.id <;> grind

theorem nodeContext_eq (states : States) (nodes : List FlowNode) (m : SortedMap String Value) :
    nodeContext nodes states m = m.insertAll (named states nodes) := by
  induction nodes generalizing m with
  | nil => rfl
  | cons n nodes ih =>
    simp only [nodeContext, named, foldl_cons, flatMap_cons] at ih ⊢
    rw [insertAll_append, ← ih]
    cases states.get n.id with
    | none => rfl
    | some s => by_cases hl : n.label.isEmpty <;> simp [insertAll, FlowNode.names, hl]

theorem finalOutput_eq {graph : FlowGraph} (h : 2 ≤ (liveSinks graph states).length) :
    finalOutput graph states = .obj ((empty.insertAll ((liveSinks graph states).filterMap fun n =>
        (states.get n.id).map fun s => (n.name, s.output))).entries) := by
  rw [entries_insertAll]
  dsimp only [finalOutput]
  split
  next sink hone =>
    have hone : liveSinks graph states = [sink] := hone
    simp [hone] at h
  next => rfl

section

variable {graph : FlowGraph} {states : States} (hnodes : graph.nodes.Pairwise Apart)
  (hfit : LabelsFit graph states)
include hnodes hfit

theorem LabelsFit.output_eq {a b : FlowNode} (ha : a ∈ graph.nodes) (hb : b ∈ graph.nodes)
    {name : String} (hna : name ∈ a.names) (hnb : name ∈ b.names) {s t : StepState}
    (hs : states.get a.id = some s) (ht : states.get b.id = some t) : s.output = t.output := by
  by_cases hab : a = b
  · subst hab
    rw [some.inj (hs.symm.trans ht)]
  · have hapart := hnodes.forall ha hb hab
    have hto := hfit a ha b hb
    have hfrom := hfit b hb a ha
    simp only [FlowNode.names] at hna hnb
    grind [Apart]

theorem LabelsFit.unshadowed : Unshadowed graph states := by
  refine ⟨fun n hn s hs name hname => ?_, fun htwo => ⟨_, finalOutput_eq htwo, fun n hn s hs => ?_⟩⟩
  · rw [nodeContext_eq]
    refine get_insertAll _ (fun p hp q hq hpq => ?_)
      (mem_named.2 ⟨n, hn, s, hs, hname, rfl⟩ : (name, s.output) ∈ _)
    obtain ⟨a, ha, u, hu, hpa, hp⟩ := mem_named.1 hp
    obtain ⟨b, hb, v, hv, hqb, hq⟩ := mem_named.1 hq
    rw [hp, hq, hfit.output_eq hnodes ha hb (hpq ▸ hpa) hqb hu hv]
  · refine get_insertAll _ (fun p hp q hq hpq => ?_)
      (mem_filterMap.2 ⟨n, hn, by rw [hs]; rfl⟩ : (n.name, s.output) ∈ _)
    obtain ⟨a, ha, hp⟩ := mem_filterMap.1 hp
    obtain ⟨b, hb, hq⟩ := mem_filterMap.1 hq
    obtain ⟨u, hu, rfl⟩ := map_eq_some_iff.1 hp
    obtain ⟨v, hv, rfl⟩ := map_eq_some_iff.1 hq
    exact hfit.output_eq hnodes (mem_of_mem_filter ha) (mem_of_mem_filter hb)
      a.name_mem ((show a.name = b.name from hpq) ▸ b.name_mem) hu hv

end

/-- **Over a graph that is accepted no output is hidden, exactly if every label that is the id of a
node comes with the output of that node.** -/
theorem unshadowed_iff (h : validateGraph c d = .ok ())
    (states : States) : Unshadowed d.graph states ↔ LabelsFit d.graph states := by
  refine ⟨fun hun a ha b hb hlabel hab s t hs ht => ?_,
    fun hfit => hfit.unshadowed (pairwise_of_validateGraph h)⟩
  have hs := hun.1 a ha s hs a.label (by simp [FlowNode.names, hlabel])
  have ht := hun.1 b hb t ht b.id (by simp only [FlowNode.names]; split_ifs <;> simp)
  rw [hab, ht] at hs
  exact (some.inj hs).symm

/-- A trigger and a node with its id as the label. -/
def namedAlike : Drawing where
  nodes := [⟨"start", "trigger", "", .stop, []⟩, ⟨"next", "http", "start", .stop, []⟩]
  edges := [("e", ⟨"start", "next", none⟩)]

/-- Both have run. -/
def bothRan : States :=
  (empty.insert "start" ⟨.success, .num 1, none⟩).insert "next" ⟨.success, .num 2, none⟩

def freeChecks : Checks := ⟨fun _ => 0, fun _ => true, fun _ => .ok ()⟩

theorem unshadowed_iff_namedAlike : validateGraph freeChecks namedAlike = .ok () ∧
    (Unshadowed namedAlike.graph bothRan ↔ LabelsFit namedAlike.graph bothRan) :=
  ⟨by decide +kernel, unshadowed_iff (c := freeChecks) (by decide +kernel) bothRan⟩

/-- The second node hides the output of the first. -/
theorem not_unshadowed_namedAlike : validateGraph freeChecks namedAlike = .ok () ∧
    (nodeContext namedAlike.nodes bothRan empty).get "start" = some (.num 2) ∧
      ¬ Unshadowed namedAlike.graph bothRan := by
  refine ⟨by decide +kernel, rfl, fun h => ?_⟩
  have hfirst := h.1 _ mem_cons_self ⟨.success, .num 1, none⟩ rfl "start" (by decide)
  cases hfirst

end Flow

end RandallFlare
