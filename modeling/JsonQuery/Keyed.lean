/-!
Lists of members under keys, in the order in which the keys first came. Objects and tables are such
lists.
-/

namespace JsonQuery.Keyed

variable {α : Type}

/-- What stands under a key. -/
def find? (key : String) : List (String × α) → Option α
  | [] => none
  | (k, a) :: members => if k = key then some a else find? key members

/-- Puts a member under a key: in place where the key is present, else at the end. -/
def put (key : String) (a : α) : List (String × α) → List (String × α)
  | [] => [(key, a)]
  | (k, old) :: members => if k = key then (k, a) :: members else (k, old) :: put key a members

theorem find?_put_self (key : String) (a : α) (members : List (String × α)) :
    find? key (put key a members) = some a := by
  induction members with
  | nil => simp [put, find?]
  | cons member members ih => by_cases h : member.1 = key <;> simp [put, find?, h, ih]

theorem find?_put_of_ne {key key' : String} (h : key' ≠ key) (a : α)
    (members : List (String × α)) : find? key' (put key a members) = find? key' members := by
  induction members with
  | nil => simp [put, find?, h.symm]
  | cons member members ih =>
    by_cases hk : member.1 = key
    · simp [put, find?, hk, h.symm]
    · simp [put, find?, hk, ih]

end JsonQuery.Keyed
