import JsonQuery.Keyed
import Mathlib.Data.List.Induction
import Mathlib.Data.List.Nodup

/-!
Members under keys: what is found where keys are distinct, and what is left when members are put
one after the other.
-/

namespace JsonQuery.Keyed

variable {α : Type}

theorem eraseDups_concat (keys : List String) (k : String) :
    (keys ++ [k]).eraseDups = if k ∈ keys then keys.eraseDups else keys.eraseDups ++ [k] := by
  rw [List.eraseDups_append]
  split
  · rename_i h
    simp [List.removeAll, h]
  · rename_i h
    simp [List.removeAll, h, List.eraseDups_cons]

theorem map_fst_put (k : String) (a : α) (members : List (String × α)) :
    (put k a members).map (·.1) =
      if k ∈ members.map (·.1) then members.map (·.1) else members.map (·.1) ++ [k] := by
  induction members with
  | nil => rfl
  | cons m members ih =>
    obtain ⟨k', v'⟩ := m
    by_cases hk : k' = k
    · simp [put, hk]
    · by_cases hmem : k ∈ members.map (·.1)
      · simp only [put, hk, if_false, List.map_cons, ih, hmem, if_true, List.mem_cons, or_true]
      · simp only [put, hk, if_false, List.map_cons, ih, hmem, List.mem_cons, Ne.symm hk, or_self,
          List.cons_append]

/-- Where keys are distinct, the members are told by their keys in order and the value of each. -/
theorem filterMap_find?_eq {members : List (String × α)} (h : (members.map (·.1)).Nodup) :
    ((members.map (·.1)).filterMap fun k => (find? k members).map (k, ·)) = members := by
  induction members with
  | nil => rfl
  | cons m members ih =>
    obtain ⟨k, v⟩ := m
    rw [List.map_cons, List.nodup_cons] at h
    have hrest : ∀ k' ∈ members.map (·.1),
        (find? k' ((k, v) :: members)).map (k', ·) = (find? k' members).map (k', ·) := by
      intro k' hk'
      have hne : k ≠ k' := by
        rintro rfl
        exact h.1 hk'
      rw [find?, if_neg hne]
    rw [List.map_cons, List.filterMap_cons_some (by rw [find?, if_pos rfl]; rfl),
      List.filterMap_congr hrest, ih h.2]

theorem map_fst_foldl_put (members : List (String × α)) :
    (members.foldl (fun done m => put m.1 m.2 done) []).map (·.1) =
      (members.map (·.1)).eraseDups := by
  induction members using List.reverseRecOn with
  | nil => rfl
  | append_singleton members m ih =>
    rw [List.foldl_append, List.foldl_cons, List.foldl_nil, map_fst_put, ih, List.map_append,
      List.map_singleton, eraseDups_concat]
    simp only [List.mem_eraseDups]

theorem find?_foldl_put (k : String) (members : List (String × α)) :
    find? k (members.foldl (fun done m => put m.1 m.2 done) []) = find? k members.reverse := by
  induction members using List.reverseRecOn with
  | nil => rfl
  | append_singleton members m ih =>
    rw [List.foldl_append, List.foldl_cons, List.foldl_nil, List.reverse_append,
      List.reverse_singleton, List.singleton_append]
    by_cases hk : m.1 = k
    · subst hk
      rw [find?_put_self, find?, if_pos rfl]
    · rw [find?_put_of_ne (Ne.symm hk), ih, find?, if_neg hk]

theorem nodup_eraseDups (keys : List String) : keys.eraseDups.Nodup := by
  induction keys using List.reverseRecOn with
  | nil => exact .nil
  | append_singleton keys k ih =>
    rw [eraseDups_concat]
    split
    · exact ih
    · rename_i h
      refine List.nodup_append.mpr ⟨ih, List.nodup_singleton k, ?_⟩
      rintro k' hk' _ hmem rfl
      rw [List.mem_singleton.mp hmem] at hk'
      exact h (List.mem_eraseDups.mp hk')

theorem mem_of_find?_eq_some {k : String} {a : α} {members : List (String × α)}
    (h : find? k members = some a) : (k, a) ∈ members := by
  induction members with
  | nil => cases h
  | cons m members ih =>
    obtain ⟨k', v'⟩ := m
    rw [find?] at h
    split at h
    · rename_i hk
      cases h
      rw [hk]
      exact List.mem_cons_self
    · exact List.mem_cons_of_mem _ (ih h)

theorem find?_of_mem {members : List (String × α)} (h : (members.map (·.1)).Nodup)
    {m : String × α} (hm : m ∈ members) : find? m.1 members = some m.2 := by
  induction members with
  | nil => cases hm
  | cons m' members ih =>
    rw [List.map_cons, List.nodup_cons] at h
    rcases List.mem_cons.mp hm with rfl | hm
    · rw [find?, if_pos rfl]
    · have hne : m'.1 ≠ m.1 := fun heq => h.1 (heq ▸ List.mem_map_of_mem hm)
      rw [find?, if_neg hne, ih h.2 hm]

theorem put_of_notMem {k : String} {members : List (String × α)}
    (h : k ∉ members.map (·.1)) (a : α) : put k a members = members ++ [(k, a)] := by
  induction members with
  | nil => rfl
  | cons m members ih =>
    rw [List.map_cons, List.mem_cons, not_or] at h
    rw [put, if_neg (Ne.symm h.1), ih h.2, List.cons_append]

/-- Where keys are distinct, the member that is found under a key is the only one with that key. -/
theorem filter_eq_find? {members : List (String × α)} (h : (members.map (·.1)).Nodup)
    (k : String) : members.filter (fun m => m.1 == k) = ((find? k members).map (k, ·)).toList := by
  induction members with
  | nil => rfl
  | cons m members ih =>
    obtain ⟨k', v⟩ := m
    rw [List.map_cons, List.nodup_cons] at h
    by_cases hk : k' = k
    · subst hk
      have hnone : members.filter (fun m => m.1 == k') = [] := by
        rw [List.filter_eq_nil_iff]
        intro m hm hkey
        exact h.1 (List.mem_map.mpr ⟨m, hm, beq_iff_eq.mp hkey⟩)
      simp [find?, hnone]
    · simpa [find?, hk] using ih h.2

end JsonQuery.Keyed
