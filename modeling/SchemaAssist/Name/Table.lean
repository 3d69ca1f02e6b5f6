/-
# Tables by name

A table keeps one entry for a name, in the order in which the names came.
-/

import SchemaAssist.Name

namespace SchemaAssist

/-- Entries by name, in order. -/
structure NameTable (α : Type) where
  entries : List (Name × α) := []
  deriving Repr, Inhabited

namespace NameTable

variable {α : Type}

/-- The entry of a name. -/
def find? (t : NameTable α) (n : Name) : Option α := t.entries.lookup n

/-- Whether a name has an entry. -/
def has (t : NameTable α) (n : Name) : Bool := (t.find? n).isSome

/-- The entries, in order. -/
def values (t : NameTable α) : List α := t.entries.map (·.2)

/-- The names, in order. -/
def names (t : NameTable α) : List Name := t.entries.map (·.1)

/-- A table after an entry for a name that has none. -/
def add (t : NameTable α) (n : Name) (a : α) : NameTable α := ⟨t.entries ++ [(n, a)]⟩

/-- A table after an entry; it takes the place of an earlier one of its name. -/
def put (t : NameTable α) (n : Name) (a : α) : NameTable α :=
  if t.has n then ⟨t.entries.map fun e => if e.1 = n then (n, a) else e⟩ else t.add n a

theorem mem_of_find? {t : NameTable α} {n : Name} {a : α} (h : t.find? n = some a) :
    (n, a) ∈ t.entries := by
  obtain ⟨before, after, hentries, -⟩ := List.lookup_eq_some_iff.1 h
  rw [hentries]
  exact List.mem_append_right _ List.mem_cons_self

theorem mem_names_of_find? {t : NameTable α} {n : Name} {a : α} (h : t.find? n = some a) :
    n ∈ t.names := List.mem_map_of_mem (mem_of_find? h)

theorem exists_find? {t : NameTable α} {n : Name} (h : n ∈ t.names) :
    ∃ a, t.find? n = some a := by
  obtain ⟨e, he, rfl⟩ := List.mem_map.1 h
  cases hfind : t.find? e.1 with
  | some a => exact ⟨a, rfl⟩
  | none =>
    have hne := List.lookup_eq_none_iff.1 hfind e he
    simp at hne

theorem find?_add {t : NameTable α} {n m : Name} {a : α} (h : t.has n = false) :
    (t.add n a).find? m = if m = n then some a else t.find? m := by
  simp only [has, Option.isSome_eq_false_iff, Option.isNone_iff_eq_none, find?] at h
  by_cases hm : m = n
  · subst hm
    simp [find?, add, List.lookup_append, h]
  · have : (m == n) = false := beq_eq_false_iff_ne.2 hm
    simp [find?, add, List.lookup_append, List.lookup_cons, hm, this]

end NameTable
end SchemaAssist
