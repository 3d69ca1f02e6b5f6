/-
# Names by lexical scoping

While a document is read, the scope of each open element is kept beside it.  In the finished tree
there are no scopes: a prefix stands for what the nearest element around it that declares it says
(`lexicalName`), the element itself included, and of several declarations in one tag the last one
counts.  Both give the same names (`name_of_lineage`).
-/

import SchemaAssist.Proofs.Tagging

namespace SchemaAssist
namespace Document

open OpenElement (scopeOf nameOf)

/-! ### Declarations around an element -/

/-- The value of the last attribute of a key. -/
def Element.lastValue? (e : Element) (key : String) : Option String :=
  e.attributes.reverse.lookup key

/-- The value of the last attribute of a key on the first of some elements that has one. -/
def nearest? (key : String) (es : List Element) : Option String := es.findSome? (·.lastValue? key)

/-- What a written name stands for inside some elements, the innermost first.  The namespace of a
prefix is the nearest one declared for it, or for `xml` the XML namespace; without either the name
is the part after the last colon, in no namespace.  A name without a prefix is in the nearest default
namespace.  The empty text is no namespace. -/
def lexicalName (es : List Element) (written : String) : Name :=
  match Text.cut ':' written with
  | none => ⟨(nearest? "xmlns" es).getD "", written⟩
  | some (pre, localName) =>
    match (nearest? ("xmlns:" ++ pre) es).or (if pre = "xml" then some xmlNamespace else none) with
    | some space => ⟨space, localName⟩
    | none => ⟨"", ((Text.cutLast ':' written).map (·.2)).getD written⟩

/-! ### Declarations in a scope -/

/-- The key of the attribute that declares a prefix, or the default namespace. -/
def declarationKey : Option String → String
  | none => "xmlns"
  | some pre => "xmlns:" ++ pre

theorem declared?_eq_some_iff {key : String} {pre : Option String} :
    Scope.declared? key = some pre ↔ key = declarationKey pre := by
  have hcolon : ∀ pre : String, ("xmlns:" ++ pre).toList = "xmlns:".toList ++ pre.toList :=
    fun pre => String.toList_append
  rw [Scope.declared?]
  by_cases hdefault : key = "xmlns"
  · subst hdefault
    rw [if_pos rfl]
    cases pre with
    | none => exact iff_of_true rfl rfl
    | some pre =>
      refine iff_of_false nofun fun h => ?_
      have hlength := congrArg List.length ((congrArg String.toList h).trans (hcolon pre))
      simp at hlength
  · rw [if_neg hdefault]
    cases pre with
    | none => exact iff_of_false (by simp) hdefault
    | some pre =>
      rw [declarationKey, ← String.toList_inj, hcolon, ← Text.dropLead_eq_some_iff,
        Option.map_eq_some_iff]
      constructor
      · rintro ⟨rest, hrest, hpre⟩
        obtain rfl := Option.some.inj hpre
        rw [hrest, String.toList_ofList]
      · intro hrest
        exact ⟨pre.toList, hrest, by rw [String.ofList_toList]⟩

theorem lookup_cons_eq {α β : Type _} [BEq α] [LawfulBEq α] [DecidableEq α] (key key' : α) (b : β)
    (xs : List (α × β)) :
    ((key', b) :: xs).lookup key = if key = key' then some b else xs.lookup key := by
  rw [List.lookup_cons]
  by_cases h : key = key'
  · rw [if_pos h, beq_iff_eq.2 h]
  · rw [if_neg h, beq_eq_false_iff_ne.2 h]

/-- A declaration hides an earlier one of its prefix and no other. -/
theorem lookup_declare (scope : Scope) (key value : String) (pre : Option String) :
    (scope.declare key value).bindings.lookup pre =
      if key = declarationKey pre then some value else scope.bindings.lookup pre := by
  rw [Scope.declare, Scope.declare?]
  cases hdeclared : Scope.declared? key with
  | none =>
    have hother : key ≠ declarationKey pre := fun h => by
      rw [declared?_eq_some_iff.2 h] at hdeclared
      cases hdeclared
    rw [if_neg hother]
    rfl
  | some pre' =>
    have hkey : key = declarationKey pre ↔ pre = pre' := by
      rw [← declared?_eq_some_iff, hdeclared, Option.some_inj, eq_comm]
    simp only [Option.map_some, Option.getD_some, Scope.bind, lookup_cons_eq, hkey]

/-- Inside a tag the last declaration of a prefix counts, or else what it stands for outside. -/
theorem lookup_scopeOf (outer : Scope) (attributes : List (String × String)) (pre : Option String) :
    (scopeOf outer attributes).bindings.lookup pre =
      (attributes.reverse.lookup (declarationKey pre)).or (outer.bindings.lookup pre) := by
  induction attributes generalizing outer with
  | nil => rfl
  | cons declaration attributes ih =>
    obtain ⟨key, value⟩ := declaration
    have hfirst : (scopeOf outer ((key, value) :: attributes)) =
        scopeOf (outer.declare key value) attributes := rfl
    rw [hfirst, ih, lookup_declare, List.reverse_cons, List.lookup_append, Option.or_assoc,
      lookup_cons_eq]
    by_cases hkey : key = declarationKey pre
    · rw [if_pos hkey, if_pos hkey.symm, Option.some_or]
    · rw [if_neg hkey, if_neg (Ne.symm hkey), List.lookup_nil, Option.none_or]

/-- In the scope inside some elements the nearest declarations count. -/
theorem lookup_scopeInside (es : List Element) (pre : Option String) :
    (scopeInside es).bindings.lookup pre = nearest? (declarationKey pre) es := by
  induction es with
  | nil => rfl
  | cons e es ih =>
    rw [scopeInside, lookup_scopeOf, ih, nearest?, nearest?, List.findSome?_cons,
      Element.lastValue?]
    cases e.attributes.reverse.lookup (declarationKey pre) <;> rfl

/-- A name that is resolved in the scope inside some elements is resolved lexically. -/
theorem nameOf_scopeInside (es : List Element) (written : String) :
    nameOf (scopeInside es) written = lexicalName es written := by
  have hdefault : (scopeInside es).default = (nearest? "xmlns" es).getD "" :=
    congrArg (Option.getD · "") (lookup_scopeInside es none)
  have hpre : ∀ pre, (scopeInside es).spaceOf? pre =
      (nearest? ("xmlns:" ++ pre) es).or (if pre = "xml" then some xmlNamespace else none) :=
    fun pre => congrArg (Option.or · _) (lookup_scopeInside es (some pre))
  rw [nameOf, Scope.resolve, lexicalName]
  cases Text.cut ':' written with
  | none => rw [hdefault]
  | some parts =>
    obtain ⟨pre, localName⟩ := parts
    dsimp only
    rw [hpre]
    cases (nearest? ("xmlns:" ++ pre) es).or (if pre = "xml" then some xmlNamespace else none) with
    | none => rfl
    | some space => rfl

/-! ### The names of a document -/

/-- **Names are resolved by lexical scoping.**  For every text, the name of every element of its
tree is the one that its tag's name stands for by the declarations of the element and of those
around it, whatever is declared anywhere else. -/
theorem name_of_lineage {text : String} {e : Element} {around : List Element}
    (h : Lineage (read text) (e :: around)) :
    ∃ tag, tagAt? text e.span.start = some tag ∧ e.attributes = tag.attributes ∧
      e.name = lexicalName (e :: around) tag.name := by
  obtain ⟨⟨tag, hopening, hattributes, hname⟩, -⟩ := h.tagged
  refine ⟨tag, tagAt?_of_opening hopening, hattributes, ?_⟩
  rw [← nameOf_scopeInside]
  exact hname

/-- The first child of the root declares the prefix again, twice, and has ended when the second one
starts; the child inside it has no default namespace. -/
theorem name_of_lineage_redeclared :
    let text := "<p:r xmlns:p='u' xmlns='d'><p:a xmlns:p='' xmlns:p='v'><b xmlns=''></p:a><c><p:e/>"
    ∃ root a c e, root.children = [a, c] ∧ Lineage (read text) [e, c, root] ∧
      a.name = ⟨"v", "a"⟩ ∧ a.children.map (·.name) = [⟨"", "b"⟩] ∧ c.name = ⟨"d", "c"⟩ ∧
      e.name = ⟨"u", "e"⟩ ∧
      ∃ tag, tagAt? text e.span.start = some tag ∧ e.attributes = tag.attributes ∧
        e.name = lexicalName [e, c, root] tag.name := by
  intro text
  have hread : (read text).map (fun root =>
      root.children.map fun c => (c.name, c.children.map (·.name))) =
      some [(⟨"v", "a"⟩, [⟨"", "b"⟩]), (⟨"d", "c"⟩, [⟨"u", "e"⟩])] := by decide +kernel
  obtain ⟨root, hroot, hshape⟩ := Option.map_eq_some_iff.1 hread
  obtain ⟨a, cs, hchildren, ha, hshape⟩ := List.map_eq_cons_iff.1 hshape
  obtain ⟨c, rfl, hc⟩ := List.map_eq_singleton_iff.1 hshape
  obtain ⟨haname, hinside⟩ := Prod.mk.inj ha
  obtain ⟨hcname, hinside'⟩ := Prod.mk.inj hc
  obtain ⟨e, hgrandchildren, hename⟩ := List.map_eq_singleton_iff.1 hinside'
  have hlineage : Lineage (read text) [c, root] :=
    (Lineage.root hroot).child (by simp [Element.HasChild, hchildren])
  have hlineage' : Lineage (read text) [e, c, root] :=
    hlineage.child (by simp [Element.HasChild, hgrandchildren])
  exact ⟨root, a, c, e, hchildren, hlineage', haname, hinside, hcname, hename,
    name_of_lineage hlineage'⟩

end Document
end SchemaAssist
