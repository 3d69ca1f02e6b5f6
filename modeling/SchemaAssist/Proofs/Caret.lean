/-
# What the caret does not look at

A text that ends at the caret and a text that goes on after it close the same elements in different
ways: by their end tags, at an end tag further out, at the end of the text or where reading stops.
At the caret they look alike (`sightAt_read_append`), as long as the caret is outside all markup.  So
what is offered at the caret depends on the text before it only (`candidatesAt_read_append`).
-/

import SchemaAssist.Completion.Candidates
import SchemaAssist.Proofs.Cuts
import SchemaAssist.Proofs.Sight

namespace SchemaAssist
namespace Document

/-! ### The tags of a text that ends early -/

/-- The bytes that the markup of a text takes up. -/
def markup (text : String) : List (Nat × Nat) :=
  let cs := dropMark text.toList
  markupFrom (byteLength cs) cs

/-- The offset at which what follows a text starts, in the count of the tags: a byte order mark at
the start of the text has no place in it. -/
def position (text : String) : Nat := byteLength (dropMark text.toList)

/-- Without a byte order mark it is the number of bytes. -/
theorem position_eq {text : String} (h : text.toList.head? ≠ some '\ufeff') :
    position text = text.utf8ByteSize := by
  rw [position, ← byteLength_toList]
  unfold dropMark
  split
  · next hmark => exact absurd (congrArg List.head? hmark) h
  · rfl

theorem position_le (text : String) : position text ≤ text.utf8ByteSize := by
  rw [position, ← byteLength_toList]
  unfold dropMark
  split
  · next cs hmark =>
    rw [hmark, byteLength]
    exact Nat.le_add_left _ _
  · exact Nat.le_refl _

/-- A byte order mark is at the start of a text or further on it is none. -/
theorem exists_dropMark_append (bs as : List Char) :
    ∃ as', dropMark (bs ++ as) = dropMark bs ++ as' := by
  match bs with
  | [] => exact ⟨dropMark as, rfl⟩
  | b :: bs =>
    by_cases hb : b = '\ufeff'
    · subst hb
      exact ⟨as, rfl⟩
    · have hno : ∀ cs, dropMark (b :: cs) = b :: cs := fun cs => by
        unfold dropMark
        split
        · next hcs => exact absurd (List.cons.inj hcs).1 hb
        · rfl
      exact ⟨as, by rw [List.cons_append, hno, hno, List.cons_append]⟩

theorem exists_events_append {before after : String}
    (h : Outside (position before) (markup (before ++ after))) :
    ∃ later, events (before ++ after) = events before ++ later ∧
      ∀ e ∈ later, e.After (position before) := by
  obtain ⟨as, has⟩ := exists_dropMark_append before.toList after.toList
  rw [markup, String.toList_append, has] at h
  have hposition : byteLength (dropMark before.toList ++ as) - byteLength as = position before := by
    rw [byteLength_append, Nat.add_sub_cancel_right, position]
  obtain ⟨later, hevents, hlater⟩ :=
    exists_eventsFrom_append (Nat.le_refl _) (by rw [hposition]; exact h)
  rw [hposition] at hevents hlater
  refine ⟨later, ?_, fun e he => ?_⟩
  · rw [events, String.toList_append, has]
    exact hevents
  · obtain ⟨hfirst, hstop⟩ := hlater e he
    exact ⟨hfirst, Nat.lt_of_le_of_lt hfirst hstop⟩

theorem charAt?_append {cs ds : List Char} {n : Nat} (h : n < byteLength cs) :
    charAt? (cs ++ ds) n = charAt? cs n := by
  induction cs generalizing n with
  | nil => cases h
  | cons c cs ih =>
    cases n with
    | zero => rfl
    | succ n =>
      simp only [List.cons_append, charAt?]
      split
      · next hsize =>
        rw [byteLength] at h
        exact ih (by omega)
      · rfl

/-- Whether a tag is still being typed shows in the text up to its end. -/
theorem Event.typed_append {e : Event} {cs ds : List Char} (hpos : 0 < e.stop)
    (hstop : e.stop ≤ byteLength cs) : e.typed (cs ++ ds) = e.typed cs := by
  have hchar : charAt? (cs ++ ds) (e.stop - 1) = charAt? cs (e.stop - 1) :=
    charAt?_append (by omega)
  cases e with
  | finish first stop name => rfl
  | start first stop tag =>
    rw [Event.typed, Event.typed, hchar]
    all_goals exact nofun
  | empty first stop tag =>
    rw [Event.typed, Event.typed, hchar]
    all_goals exact nofun

/-- The tags of a text that are not still being typed, up to the first that is. -/
def tags (text : String) : List Event := (events text).takeWhile (Event.typed text.toList)

theorem read_eq (text : String) :
    read text = ((tags text).foldl Unfinished.take .empty).finish text.utf8ByteSize := rfl

theorem bounds_of_mem_tags {text : String} {e : Event} (he : e ∈ tags text) :
    e.first < position text ∧ e.stop ≤ position text := by
  obtain ⟨-, hlt, hle⟩ :=
    bounds_of_mem_eventsFrom (Nat.le_refl _) ((List.takeWhile_prefix _).subset he)
  exact ⟨Nat.lt_of_lt_of_le hlt hle, hle⟩

/-- Reading on only adds to what is taken while a condition holds. -/
theorem exists_takeWhile_append {p q : Event → Bool} {es : List Event} (later : List Event)
    (h : ∀ e ∈ es, p e = q e) :
    ∃ later', (es ++ later).takeWhile p = es.takeWhile q ++ later' ∧ later' ⊆ later := by
  induction es with
  | nil => exact ⟨later.takeWhile p, rfl, (List.takeWhile_prefix p).subset⟩
  | cons e es ih =>
    rw [List.forall_mem_cons] at h
    rw [List.cons_append, List.takeWhile_cons, List.takeWhile_cons, h.1]
    split
    · obtain ⟨later', htaken, hsubset⟩ := ih h.2
      exact ⟨later', congrArg (e :: ·) htaken, hsubset⟩
    · exact ⟨[], rfl, List.nil_subset _⟩

theorem exists_tags_append {before after : String}
    (h : Outside (position before) (markup (before ++ after))) :
    ∃ later, tags (before ++ after) = tags before ++ later ∧
      ∀ e ∈ later, e.After (position before) := by
  obtain ⟨later, hevents, hlater⟩ := exists_events_append h
  have htyped : ∀ e ∈ events before,
      e.typed (before ++ after).toList = e.typed before.toList := fun e he => by
    obtain ⟨-, hlt, hle⟩ := bounds_of_mem_eventsFrom (Nat.le_refl _) he
    rw [String.toList_append]
    refine Event.typed_append (Nat.zero_lt_of_lt hlt) (Nat.le_trans hle ?_)
    rw [byteLength_toList]
    exact position_le before
  obtain ⟨later', htags, hsubset⟩ := exists_takeWhile_append later htyped
  exact ⟨later', by rw [tags, hevents, htags, tags], fun e he => hlater e (hsubset he)⟩

/-- **At the caret a text looks as if it ended there.** -/
theorem sightAt_read_append {before after : String}
    (h : Outside (position before) (markup (before ++ after))) :
    sightAt (read (before ++ after)) (position before) =
      sightAt (read before) (position before) := by
  obtain ⟨later, htags, hlater⟩ := exists_tags_append h
  have hnested := (Unfinished.before_foldl_take (fun e he => bounds_of_mem_tags he)
    (Unfinished.before_empty (position before))).nested
  have hlong : position before ≤ (before ++ after).utf8ByteSize :=
    Nat.le_trans (position_le before) (by rw [String.utf8ByteSize_append]; omega)
  have hended := Unfinished.sight_finish hnested (List.forall_mem_nil _) (position_le before)
  rw [read_eq, read_eq, htags, List.foldl_append, Unfinished.sight_finish hnested hlater hlong]
  exact hended.symm

end Document

/-! ### What is offered -/

open Document

namespace Asking

theorem resolveFrom_congr {es es' : List Element} (d : Declaration)
    (h : es.map (·.name) = es'.map (·.name)) : resolveFrom d es = resolveFrom d es' := by
  induction es generalizing d es' with
  | nil =>
    obtain rfl := List.map_eq_nil_iff.1 h.symm
    rfl
  | cons e es ih =>
    obtain ⟨e', es', rfl, hname, hes⟩ := List.map_eq_cons_iff.1 h.symm
    rw [resolveFrom, resolveFrom, hname, funext fun d => ih d hes.symm]

/-- A path leads by the names on it. -/
theorem resolvePath_congr {es es' : List Element} (h : es.map (·.name) = es'.map (·.name)) :
    resolvePath es = resolvePath es' := by
  cases es with
  | nil =>
    obtain rfl := List.map_eq_nil_iff.1 h.symm
    rfl
  | cons e es =>
    obtain ⟨e', es', rfl, hname, hes⟩ := List.map_eq_cons_iff.1 h.symm
    rw [resolvePath, resolvePath, hname, funext fun d => resolveFrom_congr d hes.symm]

end Asking

/-- The path and the closed children of its last element are part of what is seen. -/
theorem path_of_sightAt {root root' : Option Element} {offset : Nat}
    (h : sightAt root offset = sightAt root' offset) :
    (pathAt root offset).map (·.name) = (pathAt root' offset).map (·.name) ∧
      (pathAt root offset).getLast?.map (·.closedBefore offset) =
        (pathAt root' offset).getLast?.map (·.closedBefore offset) := by
  rw [sightAt_eq, sightAt_eq] at h
  constructor
  · have hnames := congrArg (List.map Prod.fst) h
    rwa [List.map_map, List.map_map] at hnames
  · have hlast := congrArg (fun path => path.getLast?.map Prod.snd) h
    rwa [List.getLast?_map, List.getLast?_map, Option.map_map, Option.map_map] at hlast

/-- What is offered depends on what is seen only. -/
theorem Asking.candidatesAt_congr (g : Grammar) {root root' : Option Element} {offset : Nat}
    (h : sightAt root offset = sightAt root' offset) :
    candidatesAt g root offset = candidatesAt g root' offset := by
  obtain ⟨hnames, hclosed⟩ := path_of_sightAt h
  rw [candidatesAt, candidatesAt, resolvePath_congr hnames]
  cases hlast : (pathAt root offset).getLast? with
  | none =>
    rw [hlast, Option.map_none, eq_comm, Option.map_eq_none_iff] at hclosed
    rw [hclosed]
  | some parent =>
    rw [hlast, Option.map_some, eq_comm, Option.map_eq_some_iff] at hclosed
    obtain ⟨parent', hlast', hclosed⟩ := hclosed
    rw [hlast']
    simp only [hclosed]

/-- **The text after the caret makes no difference.**  For every text and every cut of it outside
all markup, the elements around the cut have the same names in the whole text and in the text before
the cut, the innermost of them has the same closed children before it, and whatever the grammar,
the same is offered.  The cut is at the byte where the text before it ends, a byte order mark not
counted. -/
theorem candidatesAt_read_append (before after : String)
    (h : Outside (position before) (markup (before ++ after))) :
    (pathAt (read (before ++ after)) (position before)).map (·.name) =
        (pathAt (read before) (position before)).map (·.name) ∧
      (pathAt (read (before ++ after)) (position before)).getLast?.map
          (·.closedBefore (position before)) =
        (pathAt (read before) (position before)).getLast?.map
          (·.closedBefore (position before)) ∧
      (∀ g : Grammar, Asking.candidatesAt g (read (before ++ after)) (position before) =
        Asking.candidatesAt g (read before) (position before)) ∧
      (before.toList.head? ≠ some '\ufeff' → position before = before.utf8ByteSize) := by
  have hsight := sightAt_read_append h
  obtain ⟨hnames, hclosed⟩ := path_of_sightAt hsight
  exact ⟨hnames, hclosed, fun g => Asking.candidatesAt_congr g hsight, position_eq⟩

/-- In one text the element around the caret is ended by an end tag further out, in the other by the
end of the text. -/
theorem candidatesAt_read_append_unclosed :
    let before := "<r><a>1</a><b><c/><d><!-- > --></b><e>"
    let after := "<f></r>"
    Outside (position before) (markup (before ++ after)) ∧
      (pathAt (read before) (position before)).map (·.name.localName) = ["r", "e"] ∧
      (pathAt (read (before ++ after)) (position before)).map (·.name) =
        (pathAt (read before) (position before)).map (·.name) ∧
      (∀ g : Grammar, Asking.candidatesAt g (read (before ++ after)) (position before) =
        Asking.candidatesAt g (read before) (position before)) := by
  intro before after
  have houtside : Outside (position before) (markup (before ++ after)) := by decide +kernel
  have hnames : (pathAt (read before) (position before)).map (·.name.localName) = ["r", "e"] := by
    decide +kernel
  obtain ⟨hpath, -, hoffered, -⟩ := candidatesAt_read_append before after houtside
  exact ⟨houtside, hnames, hpath, hoffered⟩

end SchemaAssist
