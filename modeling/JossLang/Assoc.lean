/-!
# Ordered associations

A list of keys with values, in the order in which the keys were first put.
Keys are compared by `==`, and of keys that are equal but not the same the one
put first stays.
-/

namespace JossLang

/-- Changes the value of a key in place, or adds the key at the end. -/
def put {α β : Type} [BEq α] (key : α) (value : β) : List (α × β) → List (α × β)
  | [] => [(key, value)]
  | (k, v) :: rest => if key == k then (k, value) :: rest else (k, v) :: put key value rest

section
variable {α β : Type} [BEq α] [LawfulBEq α]

theorem lookup_put_self (key : α) (value : β) (l : List (α × β)) :
    (put key value l).lookup key = some value := by
  induction l with
  | nil => simp [put]
  | cons e l ih =>
    obtain ⟨k, v⟩ := e
    by_cases h : key = k
    · subst h; simp [put]
    · simp [put, List.lookup_cons, beq_false_of_ne h, ih]

theorem lookup_put_ne {key other : α} (h : other ≠ key) (value : β) (l : List (α × β)) :
    (put key value l).lookup other = l.lookup other := by
  induction l with
  | nil => simp [put, List.lookup_cons, beq_false_of_ne h]
  | cons e l ih =>
    obtain ⟨k, v⟩ := e
    by_cases hk : key = k
    · subst hk; simp [put, List.lookup_cons, beq_false_of_ne h]
    · by_cases ho : other = k
      · subst ho; simp [put, beq_false_of_ne hk]
      · simp [put, List.lookup_cons, beq_false_of_ne hk, beq_false_of_ne ho, ih]

end

end JossLang
