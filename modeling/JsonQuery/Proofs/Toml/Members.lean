import JsonQuery.Toml.Reading

/-!
Assignments to distinct keys. Each finds its way free, and leaves the way of the others free.
-/

namespace JsonQuery.Toml

/-- Neither key leads through the other one, so that both may be assigned. -/
def DottedKey.Apart (key key' : DottedKey) : Prop :=
  ¬ key.keys <+: key'.keys ∧ ¬ key'.keys <+: key.keys

namespace Members

open Keyed

/-- Nothing stands in the way of an assignment: on the way there are tables of dotted keys, if
anything, and at its end nothing. -/
def Free : List String → Members → Prop
  | [], _ => False
  | [key], members => find? key members = none
  | key :: key' :: path, members =>
    find? key members = none ∨
      ∃ inner, find? key members = some (.table .dotted inner) ∧ Free (key' :: path) inner

theorem free_nil {path : List String} (h : path ≠ []) : Free path [] := by
  cases path with
  | nil => exact absurd rfl h
  | cons key path =>
    cases path with
    | nil => rfl
    | cons key' path => exact .inl rfl

theorem free_keys_nil (key : DottedKey) : Free key.keys [] :=
  free_nil (by simp [DottedKey.keys])

/-- Only the member under the first key matters. -/
theorem free_congr {key : String} {members members' : Members}
    (h : find? key members' = find? key members) (path : List String) :
    Free (key :: path) members' ↔ Free (key :: path) members := by
  cases path with
  | nil => simp only [Free, h]
  | cons key' path => simp only [Free, h]

theorem free_put_of_ne {key key' : String} {path : List String} {members : Members}
    (hne : key' ≠ key) (hfree : Free (key' :: path) members) (item : Item) :
    Free (key' :: path) (put key item members) :=
  (free_congr (find?_put_of_ne hne item members) path).mpr hfree

theorem add?_free {key : String} {members : Members} (h : Free [key] members) (item : Item) :
    add? key item members = some (put key item members) := by
  have hfind : find? key members = none := h
  simp only [add?, hfind]

/-- What an assignment along a path leaves alone: the way of every other path. -/
def KeepsFree (path : List String) (members members' : Members) : Prop :=
  ∀ path', ¬ path <+: path' → ¬ path' <+: path → Free path' members → Free path' members'

theorem keepsFree_put_last (key : String) (item : Item) (members : Members) :
    KeepsFree [key] members (put key item members) := by
  intro path' hprefix _ hfree
  cases path' with
  | nil => exact hfree.elim
  | cons key' path' =>
    apply free_put_of_ne _ hfree
    rintro rfl
    exact hprefix ⟨path', rfl⟩

/-- The way through a table is that of the inner members. -/
theorem keepsFree_put_table {key : String} {path : List String} {members inner inner' : Members}
    (hfind : find? key members = none ∧ inner = [] ∨
      find? key members = some (.table .dotted inner))
    (hkeeps : KeepsFree path inner inner') :
    KeepsFree (key :: path) members (put key (.table .dotted inner') members) := by
  intro path' hprefix hprefix' hfree
  cases path' with
  | nil => exact hfree.elim
  | cons key' path' =>
    by_cases hkey : key' = key
    · subst hkey
      cases path' with
      | nil => exact absurd ⟨path, rfl⟩ hprefix'
      | cons key'' path' =>
        refine .inr ⟨inner', find?_put_self _ _ _, hkeeps _ ?_ ?_ ?_⟩
        · exact fun h => hprefix (List.cons_prefix_cons.mpr ⟨rfl, h⟩)
        · exact fun h => hprefix' (List.cons_prefix_cons.mpr ⟨rfl, h⟩)
        · rcases hfind with ⟨hnone, rfl⟩ | hsome
          · exact free_nil (List.cons_ne_nil _ _)
          · rcases hfree with hnone | ⟨inner₂, hsome₂, hfree⟩
            · rw [hsome] at hnone
              cases hnone
            · rw [hsome] at hsome₂
              cases hsome₂
              exact hfree
    · exact free_put_of_ne hkey hfree _

/-- An update along a free path, where the change at its end adds a member. -/
theorem update_free {last : String} {item : Item}
    {change : Origin → Members → Option Members}
    (hdotted : ∀ members, change .dotted members = add? last item members) (path : List String)
    {origin : Origin}
    (horigin : path = [] → ∀ members, change origin members = add? last item members)
    {members : Members} (hfree : Free (path ++ [last]) members) :
    ∃ members', update .dotted change origin path members = some members' ∧
      KeepsFree (path ++ [last]) members members' ∧
      ∀ key, (path ++ [last]).head? ≠ some key → find? key members' = find? key members := by
  induction path generalizing origin members with
  | nil =>
    refine ⟨put last item members, ?_, keepsFree_put_last last item members, ?_⟩
    · rw [update, horigin rfl, add?_free hfree]
    · intro key hkey
      exact find?_put_of_ne (fun h => hkey (by rw [h]; rfl)) item members
  | cons key path ih =>
    have hne : path ++ [last] ≠ [] := by simp
    have hcases : find? key members = none ∨ ∃ inner,
        find? key members = some (.table .dotted inner) ∧ Free (path ++ [last]) inner := by
      cases hrest : path ++ [last] with
      | nil => exact absurd hrest hne
      | cons key' rest =>
        rw [List.cons_append, hrest] at hfree
        exact hfree
    have hothers : ∀ inner key', ((key :: path) ++ [last]).head? ≠ some key' →
        find? key' (put key (.table .dotted inner) members) = find? key' members := by
      intro inner key' hkey
      exact find?_put_of_ne (fun h => hkey (by rw [h]; rfl)) _ members
    rcases hcases with hnone | ⟨inner, hsome, hinner⟩
    · obtain ⟨inner', hupdate, hkeeps, -⟩ := ih (fun _ => hdotted) (free_nil hne)
      refine ⟨put key (.table .dotted inner') members, ?_,
        keepsFree_put_table (.inl ⟨hnone, rfl⟩) hkeeps, hothers inner'⟩
      simp only [update, hnone, Guide.made, hupdate, Option.bind_eq_bind, Option.bind_some,
        Option.pure_def]
    · obtain ⟨inner', hupdate, hkeeps, -⟩ := ih (fun _ => hdotted) hinner
      refine ⟨put key (.table .dotted inner') members, ?_,
        keepsFree_put_table (.inr hsome) hkeeps, hothers inner'⟩
      simp only [update, hsome, Guide.admits, hupdate, Option.bind_eq_bind, Option.bind_some,
        Option.pure_def]
      rfl

theorem assign?_free {key : DottedKey} {members : Members} (hfree : Free key.keys members)
    (item : Item) :
    ∃ members', members.assign? key item = some members' ∧
      KeepsFree key.keys members members' ∧
      ∀ k, key.keys.head? ≠ some k → find? k members' = find? k members := by
  have hchange : ∀ origin : Origin, key.path = [] ∨ origin = .dotted → ∀ members,
      (if key.path = [] ∨ origin = .dotted then add? key.last item members else none) =
        add? key.last item members :=
    fun origin horigin members => if_pos horigin
  exact update_free (hchange .dotted (.inr rfl)) key.path
    (fun hpath => hchange .header (.inl hpath)) hfree

theorem find?_assign?_plain {key : String} {members members' : Members} {item : Item}
    (h : members.assign? ⟨[], key⟩ item = some members') : find? key members' = some item := by
  simp only [assign?, update, true_or, if_true, add?] at h
  split at h
  · cases h
    exact find?_put_self key item members
  · cases h

def assignAll? (members : Members) (assigned : List Assignment) : Option Members :=
  assigned.foldlM (fun members a => members.assign? a.key a.item) members

theorem assignAll?_cons (members : Members) (a : Assignment) (assigned : List Assignment) :
    members.assignAll? (a :: assigned) =
      (members.assign? a.key a.item).bind fun members => members.assignAll? assigned :=
  List.foldlM_cons

/-- Assignments to keys apart from each other succeed. A key that no assignment begins with keeps
its member, and one that is assigned to has the item. -/
theorem exists_assignAll? {assigned : List Assignment} {members : Members}
    (hfree : ∀ a ∈ assigned, Free a.key.keys members)
    (hapart : assigned.Pairwise fun a b => a.key.Apart b.key) :
    ∃ members', members.assignAll? assigned = some members' ∧
      (∀ key, (∀ a ∈ assigned, a.key.keys.head? ≠ some key) →
        find? key members' = find? key members) ∧
      ∀ key item, ⟨⟨[], key⟩, item⟩ ∈ assigned → find? key members' = some item := by
  induction assigned generalizing members with
  | nil => exact ⟨members, rfl, fun _ _ => rfl, fun _ _ h => nomatch h⟩
  | cons a assigned ih =>
    obtain ⟨hfirst, hapart⟩ := List.pairwise_cons.mp hapart
    obtain ⟨members₁, hassign, hkeeps, hothers⟩ :=
      assign?_free (hfree a List.mem_cons_self) a.item
    have hfree₁ : ∀ b ∈ assigned, Free b.key.keys members₁ := fun b hb =>
      hkeeps _ (hfirst b hb).1 (hfirst b hb).2 (hfree b (List.mem_cons_of_mem a hb))
    obtain ⟨members', hall, hkept, hgiven⟩ := ih hfree₁ hapart
    refine ⟨members', ?_, ?_, ?_⟩
    · rw [assignAll?_cons, hassign]
      exact hall
    · intro key hkey
      rw [hkept key fun b hb => hkey b (List.mem_cons_of_mem a hb),
        hothers key (hkey a List.mem_cons_self)]
    · intro key item hmem
      rcases List.mem_cons.mp hmem with rfl | hmem
      · rw [hkept key, find?_assign?_plain hassign]
        intro b hb hhead
        obtain ⟨rest, hrest⟩ := List.head?_eq_some_iff.mp hhead
        exact (hfirst b hb).1 ⟨rest, hrest.symm⟩
      · exact hgiven key item hmem

/-- The members that assignments make of nothing, if none is in the way of another one. -/
def ofAssigned (assigned : List Assignment) : Members := (assignAll? [] assigned).getD []

theorem assignAll?_nil {assigned : List Assignment}
    (hapart : assigned.Pairwise fun a b => a.key.Apart b.key) :
    assignAll? [] assigned = some (ofAssigned assigned) := by
  obtain ⟨members, hmembers, -⟩ := exists_assignAll? (fun a _ => free_keys_nil a.key) hapart
  rw [ofAssigned, hmembers]
  rfl

end Members

end JsonQuery.Toml
