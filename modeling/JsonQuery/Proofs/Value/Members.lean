import JsonQuery.Proofs.Keyed
import JsonQuery.Value.Basic

/-!
Members of an object whose text may give a key more than once. Setting them one after the other
leaves each key once, where it first stands, with the value that stands last.
-/

namespace JsonQuery.Value

open Keyed

/-- The members of an object, from those that its text gives in order: each key once, where it
first stands, with the value that stands last. -/
def merged (members : List (String × Value)) : List (String × Value) :=
  (members.map (·.1)).eraseDups.filterMap fun k => (find? k members.reverse).map (k, ·)

/-- Setting members one after the other merges them. -/
theorem foldl_put_eq_merged (members : List (String × Value)) :
    members.foldl (fun done m => put m.1 m.2 done) [] = merged members := by
  have hkeys := map_fst_foldl_put members
  have hnodup := nodup_eraseDups (members.map (·.1))
  rw [← hkeys] at hnodup
  rw [← filterMap_find?_eq hnodup, hkeys]
  simp only [find?_foldl_put, merged]

theorem nodup_merged (members : List (String × Value)) : ((merged members).map (·.1)).Nodup := by
  rw [← foldl_put_eq_merged, map_fst_foldl_put]
  exact nodup_eraseDups _

/-- Merging only leaves members out. -/
theorem mem_of_mem_merged {members : List (String × Value)} {m : String × Value}
    (h : m ∈ merged members) : m ∈ members := by
  obtain ⟨k, -, hk⟩ := List.mem_filterMap.mp h
  obtain ⟨v, hv, rfl⟩ := Option.map_eq_some_iff.mp hk
  exact List.mem_reverse.mp (mem_of_find?_eq_some hv)

/-- Members with distinct keys stay as they are. -/
theorem merged_eq_self {members : List (String × Value)} (h : (members.map (·.1)).Nodup) :
    merged members = members := by
  rw [← foldl_put_eq_merged]
  induction members using List.reverseRecOn with
  | nil => rfl
  | append_singleton members m ih =>
    rw [List.map_append, List.map_singleton] at h
    have hm : m.1 ∉ members.map (·.1) := fun hmem =>
      (List.nodup_append.mp h).2.2 _ hmem _ (List.mem_singleton_self _) rfl
    rw [List.foldl_append, ih (List.nodup_append.mp h).1, List.foldl_cons, List.foldl_nil,
      put_of_notMem hm]

end JsonQuery.Value
