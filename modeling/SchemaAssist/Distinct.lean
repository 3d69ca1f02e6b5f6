/-
# Lists without repeats

Sets whose order of first insertion matters are lists without repeats: an element is added at the
end unless it is there (`addNew`), and `distinct` keeps the first of all equal elements.
-/

namespace SchemaAssist

variable {α : Type _} [DecidableEq α]

/-- `x` at the end of `xs`, unless `xs` has it already. -/
def addNew (xs : List α) (x : α) : List α := if x ∈ xs then xs else xs ++ [x]

/-- `xs` followed by those of `ys` that are new, each once. -/
def addAllNew (xs ys : List α) : List α := ys.foldl addNew xs

/-- The first occurrence of each element, in order. -/
def distinct (xs : List α) : List α := addAllNew [] xs

@[simp] theorem mem_addNew {xs : List α} {x y : α} : y ∈ addNew xs x ↔ y ∈ xs ∨ y = x := by
  unfold addNew; split <;> simp_all

theorem nodup_addNew {xs : List α} (h : xs.Nodup) (x : α) : (addNew xs x).Nodup := by
  unfold addNew
  split
  · exact h
  · rename_i hx
    rw [List.nodup_append]
    exact ⟨h, by simp, fun a ha b hb => by
      rw [List.mem_singleton] at hb
      rintro rfl
      exact hx (hb ▸ ha)⟩

@[simp] theorem mem_addAllNew {xs ys : List α} {y : α} : y ∈ addAllNew xs ys ↔ y ∈ xs ∨ y ∈ ys := by
  induction ys generalizing xs with
  | nil => simp [addAllNew]
  | cons a as ih =>
    rw [addAllNew, List.foldl_cons, ← addAllNew, ih, mem_addNew, List.mem_cons, or_assoc]

theorem nodup_addAllNew {xs : List α} (h : xs.Nodup) (ys : List α) : (addAllNew xs ys).Nodup := by
  induction ys generalizing xs with
  | nil => exact h
  | cons a as ih => exact ih (nodup_addNew h a)

@[simp] theorem mem_distinct {xs : List α} {x : α} : x ∈ distinct xs ↔ x ∈ xs := by
  simp [distinct]

theorem nodup_distinct (xs : List α) : (distinct xs).Nodup := nodup_addAllNew List.nodup_nil xs

theorem addAllNew_append (xs ys zs : List α) :
    addAllNew xs (ys ++ zs) = addAllNew (addAllNew xs ys) zs := List.foldl_append

theorem prefix_addNew (xs : List α) (x : α) : xs <+: addNew xs x := by
  unfold addNew
  split
  · exact List.prefix_rfl
  · exact List.prefix_append _ _

theorem prefix_addAllNew (xs ys : List α) : xs <+: addAllNew xs ys := by
  induction ys generalizing xs with
  | nil => exact List.prefix_rfl
  | cons y ys ih => exact (prefix_addNew xs y).trans (ih _)

theorem addAllNew_eq_self {xs ys : List α} (h : ∀ y ∈ ys, y ∈ xs) : addAllNew xs ys = xs := by
  induction ys with
  | nil => rfl
  | cons y ys ih =>
    rw [List.forall_mem_cons] at h
    rw [addAllNew, List.foldl_cons, addNew, if_pos h.1]
    exact ih h.2

theorem addAllNew_eq_append {xs ys : List α} (h : (xs ++ ys).Nodup) :
    addAllNew xs ys = xs ++ ys := by
  induction ys generalizing xs with
  | nil => exact (List.append_nil xs).symm
  | cons y ys ih =>
    have hy : y ∉ xs := fun hmem =>
      (List.nodup_append.1 h).2.2 y hmem y List.mem_cons_self rfl
    rw [List.append_cons] at h ⊢
    rw [addAllNew, List.foldl_cons, addNew, if_neg hy]
    exact ih h

/-- A list without repeats stays as it is. -/
theorem distinct_eq_self {xs : List α} (h : xs.Nodup) : distinct xs = xs := addAllNew_eq_append h

/-- In a list of pairs without a repeated key, the value looked up is that of the pair. -/
theorem lookup_eq_some_iff_mem {β : Type} {es : List (α × β)}
    (h : (es.map (·.1)).Nodup) {a : α} {b : β} : es.lookup a = some b ↔ (a, b) ∈ es := by
  induction es with
  | nil => simp
  | cons e es ih =>
    obtain ⟨a', b'⟩ := e
    rw [List.map_cons, List.nodup_cons] at h
    rw [List.lookup_cons, List.mem_cons, ← ih h.2]
    by_cases ha : a = a'
    · subst ha
      have hnone : es.lookup a = none := by
        rw [List.lookup_eq_none_iff]
        intro e he
        rw [bne_iff_ne]
        rintro rfl
        exact h.1 (List.mem_map.2 ⟨e, he, rfl⟩)
      simp [hnone, eq_comm]
    · rw [beq_false_of_ne ha]
      simp [ha]

end SchemaAssist
