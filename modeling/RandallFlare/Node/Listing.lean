import RandallFlare.Lib.Paging
import RandallFlare.Node.Node

/-!
# Listing the keys of a namespace

`kv_list_page` of `rf/src/node.rs` over `Namespace::list` of `rf-core/src/kv.rs`: the visible keys
with a prefix, page by page.  The map is scanned from the prefix on, as long as keys start with it.

* `Namespace.list`, `Node.kvListPage`: a page, with the expiries of its keys;
* `Node.kvListAll`: the pages from the first to the last;
* `Node.kvListAll_complete`: the pages are the visible keys with the prefix.
-/

namespace RandallFlare

open Paging

namespace Namespace

def list (n : Namespace) (keyPrefix : String) (nowMs limit : ℕ) : List String :=
  ((((n.entries.entries.filter fun p => keyPrefix ≤ p.1).takeWhile
    fun p => keyPrefix.toList.isPrefixOf p.1.toList).filter
    fun p => (p.2.visible nowMs).isSome).map Prod.fst).take limit

/-- The loop of `kv_list_page_plain` over the keys, with what it has put out: the page, and whether
there is more. -/
def pageFrom (n : Namespace) (limit : ℕ) (cursor : Option String) :
    List (String × Option ℕ) → List String → List (String × Option ℕ) × Bool
  | output, [] => (output, false)
  | output, key :: keys =>
      if cursor.any (key ≤ ·) then pageFrom n limit cursor output keys
      else if output.length = limit then (output, true)
      else pageFrom n limit cursor
        (output ++ [(key, (n.entry key).bind KvEntry.expiresAtMs)]) keys

end Namespace

/-- `usize::MAX`. -/
def usizeMax : ℕ := 2 ^ 64 - 1

namespace Node

/-- `kv_list_page`: the keys with their expiries, whether the list is complete, and the cursor. -/
def kvListPage (n : Node) (nowMs : ℕ) (ns keyPrefix : String) (limit : ℕ)
    (cursor : Option String) : List (String × Option ℕ) × Bool × Option String :=
  match n.inner.kv.get ns with
  | none => ([], true, none)
  | some m =>
      let page := m.pageFrom limit cursor [] (m.list keyPrefix nowMs usizeMax)
      (page.1, !page.2, if page.2 then page.1.getLast?.map Prod.fst else none)

/-- The keys of a page, and the cursor to go on with if the list is not complete. -/
def kvListKeys (n : Node) (nowMs : ℕ) (ns keyPrefix : String) (limit : ℕ)
    (cursor : Option String) : Except Empty (List String × Option String) :=
  let page := n.kvListPage nowMs ns keyPrefix limit cursor
  .ok (page.1.map Prod.fst, if page.2.1 then none else page.2.2)

/-- All pages, with at most `m` calls. -/
def kvListAll (n : Node) (nowMs : ℕ) (ns keyPrefix : String) (limit m : ℕ) :
    Option (Except Empty (List String)) :=
  follow (n.kvListKeys nowMs ns keyPrefix limit) m none

end Node

/-! ### What is scanned -/

namespace Namespace

def visibleKeys (n : Namespace) (keyPrefix : String) (nowMs : ℕ) : List String :=
  (n.entries.entries.filter fun p =>
    keyPrefix.toList.isPrefixOf p.1.toList && (p.2.visible nowMs).isSome).map Prod.fst

theorem pairwise_visibleKeys (n : Namespace) (keyPrefix : String) (nowMs : ℕ) :
    (n.visibleKeys keyPrefix nowMs).Pairwise (· < ·) :=
  List.pairwise_map.2 (n.entries.sorted.filter _)

theorem mem_visibleKeys {n : Namespace} {keyPrefix : String} {nowMs : ℕ} {key : String} :
    key ∈ n.visibleKeys keyPrefix nowMs ↔
      keyPrefix.toList <+: key.toList ∧ (n.get key nowMs).isSome := by
  simp only [visibleKeys, List.mem_map, List.mem_filter, Prod.exists, Bool.and_eq_true,
    List.isPrefixOf_iff_prefix, exists_and_right, exists_eq_right, get, entry]
  constructor
  · rintro ⟨e, hmem, hstart, hvisible⟩
    rw [n.entries.get_eq_some_iff.2 hmem]
    exact ⟨hstart, hvisible⟩
  · rintro ⟨hstart, hvisible⟩
    cases hget : n.entries.get key with
    | none => simp [hget] at hvisible
    | some e =>
      rw [hget] at hvisible
      exact ⟨e, n.entries.get_eq_some_iff.1 hget, hstart, hvisible⟩

/-- The scan from the prefix on misses no key. -/
theorem list_eq (n : Namespace) (keyPrefix : String) (nowMs limit : ℕ) :
    n.list keyPrefix nowMs limit = (n.visibleKeys keyPrefix nowMs).take limit := by
  have hscan : (n.entries.entries.filter fun p => decide (keyPrefix ≤ p.1)).takeWhile
      (fun p => keyPrefix.toList.isPrefixOf p.1.toList) =
      n.entries.entries.filter fun p => keyPrefix.toList.isPrefixOf p.1.toList := by
    rw [TableKey.takeWhile_eq_filter, List.filter_filter]
    · refine List.filter_congr fun p _ => ?_
      -- a key with the prefix is not below it
      cases hp : keyPrefix.toList.isPrefixOf p.1.toList with
      | false => rfl
      | true =>
        rw [Bool.true_and, decide_eq_true_eq, ← not_lt, String.lt_iff_toList_lt]
        exact TableKey.not_lt_of_start (List.isPrefixOf_iff_prefix.1 hp)
    · refine (n.entries.sorted.filter _).imp_of_mem fun {a b} ha _ hab hb => ?_
      have hle : ¬ a.1 < keyPrefix := not_lt.2 (of_decide_eq_true (List.mem_filter.1 ha).2)
      rw [List.isPrefixOf_iff_prefix] at hb ⊢
      exact TableKey.start_of_between (fun h => hle (String.lt_iff_toList_lt.2 h))
        (fun h => hab.asymm (String.lt_iff_toList_lt.2 h)) hb
  rw [list, hscan, List.filter_filter, visibleKeys]
  congr 2
  exact List.filter_congr fun p _ => Bool.and_comm _ _

/-- The page of the loop: what is behind the cursor, up to the limit, and one look ahead. -/
theorem pageFrom_eq (n : Namespace) {limit : ℕ} (cursor : Option String) (keys : List String)
    {output : List (String × Option ℕ)} (h : output.length ≤ limit) :
    n.pageFrom limit cursor output keys =
      (output ++ ((after keys cursor).take (limit - output.length)).map
          fun key => (key, (n.entry key).bind KvEntry.expiresAtMs),
        decide (limit - output.length < (after keys cursor).length)) := by
  induction keys generalizing output with
  | nil => cases cursor <;> simp [pageFrom, after]
  | cons key keys ih =>
    by_cases hskip : cursor.any (key ≤ ·)
    · have hafter : after (key :: keys) cursor = after keys cursor := by
        cases cursor with
        | none => simp at hskip
        | some c =>
          have hle : key ≤ c := of_decide_eq_true hskip
          exact List.filter_cons_of_neg (p := fun k => decide (c < k)) fun hlt =>
            not_lt.2 hle (of_decide_eq_true hlt)
      rw [pageFrom, if_pos hskip, ih h, hafter]
    · have hafter : after (key :: keys) cursor = key :: after keys cursor := by
        cases cursor with
        | none => rfl
        | some c =>
          have hlt : c < key := not_le.1 fun hle => hskip (decide_eq_true hle)
          exact List.filter_cons_of_pos (p := fun k => decide (c < k)) (decide_eq_true hlt)
      rw [pageFrom, if_neg hskip, hafter]
      split_ifs with hfull
      · simp [hfull]
      · have hlen : (output ++ [(key, (n.entry key).bind KvEntry.expiresAtMs)]).length =
            output.length + 1 := by simp
        obtain ⟨d, hd⟩ : ∃ d, limit - output.length = d + 1 := ⟨limit - output.length - 1, by omega⟩
        rw [ih (by omega), hlen, show limit - (output.length + 1) = d by omega, hd,
          List.take_succ_cons, List.map_cons, List.append_assoc, List.singleton_append,
          List.length_cons]
        simp

end Namespace

/-! ### Following the pages -/

namespace Node

variable {n : Node} {nowMs : ℕ} {ns keyPrefix : String} {limit : ℕ}

/-- The visible keys of a namespace with the prefix. -/
def visibleKeys (n : Node) (nowMs : ℕ) (ns keyPrefix : String) : List String :=
  (n.inner.namespaceOf ns).visibleKeys keyPrefix nowMs

/-- A page is the one of the visible keys behind the cursor. -/
theorem kvListKeys_eq
    (hsmall : (n.visibleKeys nowMs ns keyPrefix).length ≤ usizeMax) (cursor : Option String) :
    n.kvListKeys nowMs ns keyPrefix limit cursor =
      .ok (items limit (after (n.visibleKeys nowMs ns keyPrefix) cursor),
        next limit (after (n.visibleKeys nowMs ns keyPrefix) cursor)) := by
  unfold kvListKeys kvListPage visibleKeys Inner.namespaceOf at *
  cases hget : n.inner.kv.get ns with
  | none =>
    have hnil : Namespace.visibleKeys Namespace.new keyPrefix nowMs = [] := rfl
    cases cursor <;> simp [hnil, after, items, next]
  | some m =>
    rw [hget, Option.getD_some] at hsmall
    have hitems : ∀ l : List String, items limit l = l.take limit := fun l => by
      rw [items, List.take_take, Nat.min_eq_left (Nat.le_succ limit)]
    have hkeys : ∀ l : List String, (l.map fun key =>
        (key, (m.entry key).bind KvEntry.expiresAtMs)).map Prod.fst = l := fun l => by
      simp [Function.comp_def]
    dsimp only
    rw [m.list_eq, List.take_of_length_le hsmall, m.pageFrom_eq cursor _ (Nat.zero_le limit)]
    rw [Option.getD_some]
    generalize after (m.visibleKeys keyPrefix nowMs) cursor = l
    simp only [List.length_nil, Nat.sub_zero, List.nil_append, hkeys, ← List.getLast?_map,
      next, hitems, List.length_take]
    by_cases hmore : limit < l.length
    · simp [hmore]
    · simp [hmore]

/-- **Following the pages gives the visible keys with the prefix**, each once and in ascending
order, after finitely many calls. -/
theorem kvListAll_complete (n : Node) (nowMs : ℕ) (ns keyPrefix : String) (hlimit : 0 < limit)
    (hsmall : (n.visibleKeys nowMs ns keyPrefix).length ≤ usizeMax) :
    ∃ keys : List String, keys.Pairwise (· < ·) ∧
      (∀ key, key ∈ keys ↔ keyPrefix.toList <+: key.toList ∧ (n.kvGet ns key nowMs).isSome) ∧
      ∃ N, ∀ m ≥ N, n.kvListAll nowMs ns keyPrefix limit m = some (.ok keys) := by
  have hsorted := (n.inner.namespaceOf ns).pairwise_visibleKeys keyPrefix nowMs
  refine ⟨n.visibleKeys nowMs ns keyPrefix, hsorted, fun key => ?_,
    (n.visibleKeys nowMs ns keyPrefix).length + 1, fun m hm => ?_⟩
  · rw [visibleKeys, Namespace.mem_visibleKeys, kvGet_eq]
    rfl
  · exact follow_eq hsorted hlimit (fun cursor _ => kvListKeys_eq hsmall cursor)
      (by simp) (Nat.lt_of_succ_le hm)

/-- A node with three keys, of which one has expired. -/
def listedNode : Node :=
  { Node.new ⟨1⟩ (SignerId.ed ⟨1⟩) with inner :=
      ((((Node.new ⟨1⟩ (SignerId.ed ⟨1⟩)).inner.putKv "n" "a/1" ⟨⟨1, 0⟩, ⟨1⟩, some [1], none⟩).putKv
        "n" "a/2" ⟨⟨2, 0⟩, ⟨1⟩, some [2], some 5⟩).putKv "n" "a/3" ⟨⟨3, 0⟩, ⟨1⟩, some [3], none⟩) }

theorem kvListAll_complete_expired : ∃ keys : List String, keys.Pairwise (· < ·) ∧
    (∀ key, key ∈ keys ↔ "a/".toList <+: key.toList ∧ (listedNode.kvGet "n" key 9).isSome) ∧
    ∃ N, ∀ m ≥ N, listedNode.kvListAll 9 "n" "a/" 1 m = some (.ok keys) :=
  listedNode.kvListAll_complete 9 "n" "a/" (by decide) (by decide +kernel)

end Node

end RandallFlare
