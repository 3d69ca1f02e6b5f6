/-
# What the check compares

The check for ambiguity compares lists of leaves.  Two leaves compete exactly if they read letters
that contest (`Symbol.competes_iff`), and the leaves that it takes for the beginning of a particle
read exactly the letters that its words begin with (`Node.mem_starts_iff`).  The leaves that it
takes for the end of a particle read letters that its words go on with, but not always all of them:
it overlooks what a choice without elements can still begin with, and what exact bounds allow after
fewer occurrences (`Node.blunt`).
-/

import SchemaAssist.Proofs.Criterion

namespace SchemaAssist

/-- A namespace that is none of finitely many. -/
theorem exists_space_notMem (spaces : List String) : ∃ space, space ∉ spaces := by
  obtain ⟨space, h⟩ := Infinite.exists_notMem_finset spaces.toFinset
  exact ⟨space, fun hmem => h (List.mem_toFinset.2 hmem)⟩

/-- Two constraints overlap if some namespace is admitted by both. -/
theorem Spaces.overlaps_iff {a b : Spaces} :
    a.overlaps b = true ↔ ∃ space, a.allows space = true ∧ b.allows space = true := by
  have hlist : ∀ (spaces : List String) (c : Spaces), spaces.any c.allows = true ↔
      ∃ space, (only spaces).allows space = true ∧ c.allows space = true :=
    fun spaces c => by simp [allows]
  -- a constraint that is no list leaves out finitely many namespaces
  have hfinite : ∀ c : Spaces, (∃ spaces, c = only spaces) ∨
      ∃ out : List String, ∀ space, space ∉ out → c.allows space = true := by
    rintro (- | target | spaces | spaces)
    · exact Or.inr ⟨[], fun _ _ => rfl⟩
    · refine Or.inr ⟨"" :: target.toList, fun space h => ?_⟩
      rw [List.mem_cons, not_or, Option.mem_toList] at h
      simp only [allows, Bool.and_eq_true, bne_iff_ne]
      exact ⟨h.1, fun htarget => h.2 htarget⟩
    · exact Or.inl ⟨spaces, rfl⟩
    · exact Or.inr ⟨spaces, fun space h => by simpa [allows] using h⟩
  rcases hfinite a with ⟨spaces, rfl⟩ | ⟨out, ha⟩
  · rw [← hlist]
    rfl
  · rcases hfinite b with ⟨spaces, rfl⟩ | ⟨out', hb⟩
    · have hswap : a.overlaps (only spaces) = spaces.any a.allows := by
        cases a with
        | only spaces' =>
          rw [Bool.eq_iff_iff, hlist]
          rw [overlaps, hlist]
          simp only [and_comm]
        | _ => rfl
      rw [hswap, hlist]
      simp only [and_comm]
    · obtain ⟨space, h⟩ := exists_space_notMem (out ++ out')
      rw [List.mem_append, not_or] at h
      have hcommon := And.intro (ha space h.1) (hb space h.2)
      refine iff_of_true ?_ ⟨space, hcommon⟩
      cases a with
      | only spaces => exact (hlist spaces b).2 ⟨space, hcommon⟩
      | _ =>
        cases b with
        | only spaces => exact (hlist spaces _).2 ⟨space, hcommon.symm⟩
        | _ => rfl

namespace ContentModel

/-- Two leaves of different numbers compete if they read letters that contest. -/
theorem Symbol.competes_iff {version : Version} {s t : Symbol} (hleaf : s.leaf ≠ t.leaf) :
    s.competes version t = true ↔
      ∃ a b, s.Reads a ∧ t.Reads b ∧ Letter.Contests version a b := by
  have hne : s.toLeaf ≠ t.toLeaf := fun h => hleaf (congrArg Leaf.number h)
  have hletters : (∃ a b, s.Reads a ∧ t.Reads b ∧ Letter.Contests version a b) ↔
      (version = .v10 ∨ s.matcher.isWildcard = t.matcher.isWildcard) ∧
        ∃ name, s.matcher.matchesName name = true ∧ t.matcher.matchesName name = true := by
    constructor
    · rintro ⟨a, b, ⟨ha, hs⟩, ⟨hb, ht⟩, hname, -, hkind⟩
      rw [hs, ht] at hkind
      exact ⟨hkind, a.1, ha, hname ▸ hb⟩
    · rintro ⟨hkind, name, ha, hb⟩
      exact ⟨(name, s.toLeaf), (name, t.toLeaf), ⟨ha, rfl⟩, ⟨hb, rfl⟩, rfl, hne, hkind⟩
  rw [hletters, competes, bne_iff_ne.2 hleaf, Bool.true_and]
  cases s.matcher with
  | names accepts =>
    cases t.matcher with
    | names accepts' => simp [Matcher.competes, Matcher.isWildcard, Matcher.matchesName]
    | spaces spaces => simp [Matcher.competes, Matcher.isWildcard, Matcher.matchesName]
  | spaces spaces =>
    cases t.matcher with
    | names accepts =>
      simp [Matcher.competes, Matcher.isWildcard, Matcher.matchesName, and_comm]
    | spaces spaces' =>
      simp only [Matcher.competes, Matcher.isWildcard, Matcher.matchesName, Spaces.overlaps_iff]
      constructor
      · rintro ⟨space, h⟩
        exact ⟨Or.inr trivial, ⟨space, ""⟩, h⟩
      · rintro ⟨-, name, h⟩
        exact ⟨name.space, h⟩

theorem conflict?_eq_none_iff {version : Version} {c : Compositor} {xs ys : List Symbol} :
    conflict? version c xs ys = none ↔ ∀ x ∈ xs, ∀ y ∈ ys, x.competes version y = false := by
  simp [conflict?, List.findSome?_eq_none_iff]

namespace Node

/-- A letter is read by one of several leaves. -/
def ReadBy (ss : List Symbol) (a : Letter) : Prop := ∃ s ∈ ss, s.Reads a

@[simp] theorem readBy_nil {a : Letter} : ¬ ReadBy [] a := nofun

theorem readBy_append {ss ts : List Symbol} {a : Letter} :
    ReadBy (ss ++ ts) a ↔ ReadBy ss a ∨ ReadBy ts a := by
  simp only [ReadBy, List.mem_append, or_and_right, exists_or]

/-- Leaves of one tree with the same number are the same. -/
theorem Proper.eq_of_leaf_eq {n : Node} (hn : n.Proper) {s t : Symbol} (hs : s ∈ n.symbols)
    (ht : t ∈ n.symbols) (h : s.leaf = t.leaf) : s = t :=
  List.inj_on_of_nodup_map hn.numbered hs ht h

/-! ### Beginnings -/

theorem eachFirstSymbols_eq (cs : List Node) : eachFirstSymbols cs = cs.flatMap firstSymbols := by
  induction cs with
  | nil => rfl
  | cons c cs ih => rw [eachFirstSymbols, ih, List.flatMap_cons]

theorem readBy_flatMap {cs : List Node} {f : Node → List Symbol} {a : Letter} :
    ReadBy (cs.flatMap f) a ↔ ∃ m ∈ cs, ReadBy (f m) a := by
  simp only [ReadBy, List.mem_flatMap]
  constructor
  · rintro ⟨s, ⟨m, hm, hs⟩, ha⟩
    exact ⟨m, hm, s, hs, ha⟩
  · rintro ⟨m, hm, s, hs, ha⟩
    exact ⟨s, ⟨m, hm, hs⟩, ha⟩

/-- A choice begins with what any of its particles begins with. -/
theorem mem_starts_choice_iff {ls : List (Language Letter)} {a : Letter} :
    a ∈ starts (Compositor.choice.combine ls) ↔ ∃ l ∈ ls, a ∈ starts l := by
  constructor
  · rintro ⟨v, hv⟩
    rcases mem_combine_choice.1 hv with ⟨-, hv⟩ | ⟨l, hl, hv⟩
    · cases hv
    · exact ⟨l, hl, v, hv⟩
  · rintro ⟨l, hl, v, hv⟩
    exact ⟨v, mem_combine_choice.2 (Or.inr ⟨l, hl, hv⟩)⟩

/-- An unordered group begins with what any of its particles begins with. -/
theorem mem_starts_foldr_shuffle_iff {ls : List (Language Letter)} {a : Letter}
    (hls : ∀ l ∈ ls, ∃ w, w ∈ l) :
    a ∈ starts (ls.foldr shuffle 1) ↔ ∃ l ∈ ls, a ∈ starts l := by
  induction ls with
  | nil =>
    refine iff_of_false ?_ (by simp)
    rintro ⟨v, hv⟩
    cases hv
  | cons l ls ih =>
    rw [List.forall_mem_cons] at hls
    rw [List.foldr_cons, starts_shuffle hls.1 (exists_mem_foldr_shuffle hls.2), Set.mem_union,
      ih hls.2, List.exists_mem_cons_iff]

/-- A sequence begins with what those of its particles do before which all others may be left
out. -/
theorem mem_starts_prod_iff {cs : List Node} {a : Letter} (hn : ∀ m ∈ cs, m.Proper)
    (hcs : ∀ m ∈ cs, a ∈ starts m.words ↔ ReadBy m.firstSymbols a) :
    a ∈ starts (wordsOf cs).prod ↔ ReadBy (sequenceFirstSymbols cs) a := by
  induction cs with
  | nil =>
    refine iff_of_false ?_ readBy_nil
    rintro ⟨v, hv⟩
    cases hv
  | cons c cs ih =>
    rw [List.forall_mem_cons] at hn hcs
    have hlater : ∃ w, w ∈ (wordsOf cs).prod := exists_mem_prod <| by
      rw [wordsOf_eq, List.forall_mem_map]
      exact fun m hm => (hn.2 m hm).exists_mem_words
    have hstarts : starts (wordsOf (c :: cs)).prod =
        starts c.words ∪ {a | [] ∈ c.words ∧ a ∈ starts (wordsOf cs).prod} := starts_mul hlater
    rw [hstarts, Set.mem_union, hcs.1, Set.mem_ofPred_eq, nil_mem_words_iff hn.1.ordered,
      ih hn.2 hcs.2, sequenceFirstSymbols, readBy_append]
    cases c.nullable <;> simp

/-- **The leaves taken for the beginning of a tree read what its words begin with.** -/
theorem mem_starts_iff {n : Node} (hn : n.Proper) {a : Letter} :
    a ∈ starts n.occurrence ↔ ReadBy n.firstSymbols a := by
  induction n using Node.induct with
  | leaf n s hs =>
    have hfirst : n.firstSymbols = [s] := by cases n <;> cases hs <;> rfl
    rw [occurrence_of_leaf hs, hfirst]
    constructor
    · rintro ⟨v, b, hb, hv⟩
      obtain ⟨rfl, -⟩ := List.cons.inj hv
      exact ⟨s, List.mem_singleton_self s, hb⟩
    · rintro ⟨t, ht, ha⟩
      exact ⟨[], a, List.mem_singleton.1 ht ▸ ha, rfl⟩
  | group o c cs ih =>
    have hcs : ∀ m ∈ cs, a ∈ starts m.words ↔ ReadBy m.firstSymbols a := fun m hm => by
      rw [words, starts_words (hn.of_mem hm).ordered.valid (hn.trimmed.never_eq_false hm)
        (hn.of_mem hm).exists_mem_occurrence]
      exact ih m hm (hn.of_mem hm)
    have heach : (∃ l ∈ wordsOf cs, a ∈ starts l) ↔ ReadBy (eachFirstSymbols cs) a := by
      rw [eachFirstSymbols_eq, readBy_flatMap, wordsOf_eq]
      simp only [List.mem_map, exists_exists_and_eq_and]
      exact exists_congr fun m => and_congr_right (hcs m)
    rw [occurrence]
    cases c with
    | sequence => exact mem_starts_prod_iff (fun m hm => hn.of_mem hm) hcs
    | choice => exact mem_starts_choice_iff.trans heach
    | all => exact (mem_starts_foldr_shuffle_iff hn.exists_mem_of_mem_wordsOf).trans heach

theorem mem_starts_words_iff {n : Node} (hn : n.Proper) (hmax : n.occurs.never = false)
    {a : Letter} : a ∈ starts n.words ↔ ReadBy n.firstSymbols a := by
  rw [words, starts_words hn.ordered.valid hmax hn.exists_mem_occurrence, mem_starts_iff hn]

end Node
end ContentModel
end SchemaAssist
