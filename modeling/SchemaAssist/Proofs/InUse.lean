/-
# Declarations in use

Questions take declarations into use, each once, and remember what they read of them
(`Session.Sound`).  None of this shows in an answer: a question is answered in the same way after any
other questions, as long as the grammar is there (`Question.alike_after`).
-/

import SchemaAssist.Proofs.Answers
import Mathlib.Data.List.Perm.Subperm

namespace SchemaAssist

open ContentModel (Term)

/-- All that is remembered of a declaration is what the grammar says of it. -/
structure Memory.Agrees (m : Memory) (g : Grammar) (e : Declaration) : Prop where
  documentation : ∀ a, m.documentation? = some a → a = e.documentationIn g
  attributes : ∀ a, m.attributes? = some a → a = e.attributesIn g
  children : ∀ a, m.children? = some a → a = g.staticChildren e.type
  enumeration : ∀ a, m.enumeration? = some a → a = e.enumerationIn g

theorem Memory.agrees_empty (g : Grammar) (e : Declaration) : Memory.Agrees {} g e :=
  ⟨nofun, nofun, nofun, nofun⟩

namespace Session

variable {g : Grammar} {s s' s'' : Session} {d : ElementId} {e : Declaration}

/-- The grammar is there, each declaration in use has one place of its own, without gaps, and what is
remembered is what the grammar says. -/
structure Sound (g : Grammar) (s : Session) : Prop where
  grammar? : s.grammar? = some g
  nodup : (s.cache.places.map (·.1)).Nodup
  places : (s.cache.places.map (·.2)).Perm (List.range s.size)
  memory : ∀ i w, s.wrapper? i = some w → w.memory.Agrees g w.declaration

/-- Declarations stay in use at their places. -/
structure Grows (s s' : Session) : Prop where
  place? : ∀ d i, s.cache.place? d = some i → s'.cache.place? d = some i
  size : s.size ≤ s'.size

theorem Grows.refl (s : Session) : Grows s s := ⟨fun _ _ h => h, Nat.le_refl _⟩

theorem Grows.trans (h : Grows s s') (h' : Grows s' s'') : Grows s s'' :=
  ⟨fun d i hi => h'.place? d i (h.place? d i hi), Nat.le_trans h.size h'.size⟩

theorem sound_ofGrammar (g : Grammar) : (ofGrammar g).Sound g :=
  ⟨rfl, List.nodup_nil, .refl _, fun i w hw => by simp [wrapper?, ofGrammar] at hw⟩

theorem Sound.grammar_eq (h : s.Sound g) : s.grammar = g := (grammar?_eq_some.1 h.grammar?).1

theorem use_of_get {i? : Option Nat} (h : s.cache.get s.grammar d = (i?, s.cache)) :
    s.use d = (i?, s) := by
  obtain ⟨g, alive, cache, declares⟩ := s
  simp only [use] at h ⊢
  simp only [h]

/-- A declaration comes into use at the next place, unless it is in use already. -/
theorem Sound.use (h : s.Sound g) (d : ElementId) : (s.use d).2.Sound g ∧ s.Grows (s.use d).2 := by
  rcases s.cache.get_cases s.grammar d with ⟨i, -, hget⟩ | ⟨hnone, ⟨e, he, hget⟩ | ⟨-, hget⟩⟩
  · rw [use_of_get hget]
    exact ⟨h, .refl s⟩
  · have hcache : (s.use d).2.cache = s.cache.add d e := congrArg Prod.snd hget
    have hsize : (s.use d).2.size = s.size + 1 := by
      rw [size, hcache, DeclarationCache.add, Array.size_push, size]
    refine ⟨⟨h.grammar?, ?_, ?_, ?_⟩, ?_, ?_⟩
    · rw [hcache, DeclarationCache.add, List.map_cons, List.nodup_cons]
      refine ⟨fun hmem => ?_, h.nodup⟩
      obtain ⟨p, hp, rfl⟩ := List.mem_map.1 hmem
      have hne := List.lookup_eq_none_iff.1 hnone p hp
      exact bne_iff_ne.1 hne rfl
    · rw [hsize, hcache, DeclarationCache.add, List.map_cons, List.range_succ]
      exact (h.places.cons _).trans (List.perm_append_singleton _ _).symm
    · intro i w hw
      rw [wrapper?, hcache, DeclarationCache.add, Array.getElem?_push] at hw
      split at hw
      · rw [← Option.some.inj hw]
        exact Memory.agrees_empty _ _
      · exact h.memory i w hw
    · intro d' i hi
      rw [hcache, DeclarationCache.place?_add]
      split
      · next hd =>
        subst hd
        rw [hnone] at hi
        cases hi
      · exact hi
    · omega
  · rw [use_of_get hget]
    exact ⟨h, .refl s⟩

theorem use_of_place? {i : Nat} (h : s.cache.place? d = some i) : (s.use d).1 = some i := by
  change (s.cache.get s.grammar d).1 = some i
  rw [DeclarationCache.get, h]

/-- A declaration is at its place once it has been asked for, if the grammar has it. -/
theorem use_cases (s : Session) (d : ElementId) :
    (∃ i, (s.use d).1 = some i ∧ (s.use d).2.cache.place? d = some i) ∨
      (s.use d).1 = none ∧ Declaration.ofGrammar? s.grammar d = none := by
  rcases s.cache.get_cases s.grammar d with ⟨i, hi, hget⟩ | ⟨-, ⟨e, -, hget⟩ | ⟨he, hget⟩⟩
  · exact Or.inl ⟨i, use_of_place? hi, (congrArg (·.2.place? d) hget).trans hi⟩
  · refine Or.inl ⟨s.size, congrArg Prod.fst hget, (congrArg (·.2.place? d) hget).trans ?_⟩
    exact (s.cache.place?_add d d e).trans (if_pos rfl)
  · exact Or.inr ⟨congrArg Prod.fst hget, he⟩

/-- What is remembered of a declaration is what the grammar says of it. -/
theorem Sound.memory_agrees (h : s.Sound g) (he : Declaration.ofGrammar? g d = some e) :
    (s.memory d).Agrees g e := by
  obtain ⟨rfl, -⟩ := grammar?_eq_some.1 h.grammar?
  rw [Session.memory]
  cases hplace : s.cache.place? d with
  | none => exact Memory.agrees_empty _ _
  | some i =>
    obtain ⟨w, hw, hdeclared⟩ := s.declares d i hplace
    obtain rfl : w.declaration = e := Option.some.inj (hdeclared.symm.trans he)
    have hfound : ((some i).bind s.wrapper?).map (·.memory) = some w.memory := by
      rw [Option.bind_some, wrapper?, hw, Option.map_some]
    rw [hfound]
    exact h.memory i w hw

/-- More may be remembered of a declaration. -/
theorem Sound.remember (h : s.Sound g) (he : Declaration.ofGrammar? g d = some e)
    {f : Memory → Memory} (hf : ∀ m : Memory, m.Agrees g e → (f m).Agrees g e) :
    (s.remember d f).Sound g ∧ s.Grows (s.remember d f) := by
  rw [Session.remember]
  split
  · next i hi =>
    obtain ⟨rfl, -⟩ := grammar?_eq_some.1 h.grammar?
    obtain ⟨w, hw, hdeclared⟩ := s.declares d i hi
    obtain rfl : w.declaration = e := Option.some.inj (hdeclared.symm.trans he)
    have hsize : (s.cache.remember i f).wrappers.size = s.size := Array.size_modify
    refine ⟨⟨h.grammar?, h.nodup, ?_, fun j w' hw' => ?_⟩, fun _ _ hd => hd, Nat.le_of_eq hsize.symm⟩
    · change (s.cache.places.map (·.2)).Perm (List.range (s.cache.remember i f).wrappers.size)
      rw [hsize]
      exact h.places
    · change (s.cache.wrappers.modify i _)[j]? = some w' at hw'
      rw [Array.getElem?_modify] at hw'
      split at hw'
      · next hij =>
        subst hij
        rw [hw, Option.map_some] at hw'
        rw [← Option.some.inj hw']
        exact hf _ (h.memory i w hw)
      · exact h.memory j w' hw'
  · exact ⟨h, .refl s⟩

/-- No more declarations are in use than the grammar has. -/
theorem Sound.size_le (h : s.Sound g) : s.size ≤ g.elements.size := by
  obtain ⟨rfl, -⟩ := grammar?_eq_some.1 h.grammar?
  have hlength : (s.cache.places.map (·.1)).length = s.size := by
    have hplaces := h.places.length_eq
    rw [List.length_map, List.length_range] at hplaces
    rwa [List.length_map]
  have hsubset : s.cache.places.map (·.1) ⊆ (List.range s.grammar.elements.size).map ElementId.mk := by
    intro d hd
    obtain ⟨⟨d, i⟩, hp, rfl⟩ := List.mem_map.1 hd
    obtain ⟨w, -, hdeclared⟩ := s.declares d i ((lookup_eq_some_iff_mem h.nodup).2 hp)
    obtain ⟨e, he, -⟩ := Option.bind_eq_some_iff.1 hdeclared
    exact List.mem_map.2 ⟨d.index, List.mem_range.2 (Array.getElem?_eq_some_iff.1 he).1, rfl⟩
  have hle := (List.subperm_of_subset h.nodup hsubset).length_le
  rwa [hlength, List.length_map, List.length_range] at hle

end Session

/-! ### Questions whose answer does not depend on what is in use -/

/-- A declaration is what a grammar declares of an element. -/
def Declaration.IsOf (e : Declaration) (g : Grammar) : Prop :=
  Declaration.ofGrammar? g e.id = some e

theorem Declaration.isOf_of_ofGrammar? {g : Grammar} {d : ElementId} {e : Declaration}
    (h : ofGrammar? g d = some e) : e.IsOf g := by
  rwa [IsOf, Grammar.id_of_ofGrammar? h]

namespace Asking

variable {α β : Type} {g : Grammar} {e : Declaration} {P : α → Prop} {Q : β → Prop}

/-- A question has one answer, which is of a kind, whatever is in use and remembered, and leaves that
sound. -/
def Settled (g : Grammar) (x : Asking α) (P : α → Prop) : Prop :=
  ∃ a, P a ∧ ∀ s : Session, s.Sound g →
    (x.run s).1 = a ∧ (x.run s).2.Sound g ∧ s.Grows (x.run s).2

namespace Settled

theorem pure {a : α} (h : P a) : Settled g (pure a) P := ⟨a, h, fun s hs => ⟨rfl, hs, .refl s⟩⟩

theorem bind {x : Asking α} {f : α → Asking β} (hx : Settled g x P)
    (hf : ∀ a, P a → Settled g (f a) Q) : Settled g (x >>= f) Q := by
  obtain ⟨a, hkind, ha⟩ := hx
  obtain ⟨b, hkind', hb⟩ := hf a hkind
  refine ⟨b, hkind', fun s hs => ?_⟩
  obtain ⟨hanswer, hsound, hgrows⟩ := ha s hs
  have hrun : (x >>= f).run s = (f (x.run s).1).run (x.run s).2 := rfl
  obtain ⟨hanswer', hsound', hgrows'⟩ := hb _ hsound
  rw [hrun, hanswer]
  exact ⟨hanswer', hsound', hgrows.trans hgrows'⟩

theorem mono {x : Asking α} {P' : α → Prop} (hx : Settled g x P) (h : ∀ a, P a → P' a) :
    Settled g x P' := by
  obtain ⟨a, hkind, ha⟩ := hx
  exact ⟨a, h a hkind, ha⟩

theorem mapM {f : α → Asking β} (h : ∀ a, Settled g (f a) Q) (as : List α) :
    Settled g (as.mapM f) (∀ b ∈ ·, Q b) := by
  induction as with
  | nil => exact .pure fun _ hb => nomatch hb
  | cons a as ih =>
    rw [List.mapM_cons]
    exact (h a).bind fun b hb => ih.bind fun bs hbs => .pure (List.forall_mem_cons.2 ⟨hb, hbs⟩)

end Settled

theorem settled_grammar? : Settled g grammar? (· = some g) :=
  ⟨some g, rfl, fun s hs => ⟨hs.grammar?, hs, .refl s⟩⟩

theorem Settled.withGrammar {without : α} {answer : Grammar → Asking α}
    (h : Settled g (answer g) P) : Settled g (withGrammar without answer) P :=
  settled_grammar?.bind fun _ hg? => by
    subst hg?
    exact h

theorem settled_declaration? (d : ElementId) :
    Settled g (declaration? d) (∀ e ∈ ·, Declaration.IsOf e g) := by
  refine ⟨Declaration.ofGrammar? g d, fun e => Declaration.isOf_of_ofGrammar?,
    fun s hs => ⟨(gets_declaration? g d s hs.grammar?).1, ?_⟩⟩
  rw [run_declaration? hs.grammar?]
  exact hs.use d

theorem settled_declarations (ds : List ElementId) :
    Settled g (declarations ds) (∀ e ∈ ·, Declaration.IsOf e g) :=
  (Settled.mapM settled_declaration? ds).bind fun found hfound => .pure fun e he => by
    obtain ⟨e?, he?, rfl⟩ := List.mem_filterMap.1 he
    exact hfound _ he? e rfl

theorem settled_global? (n : Name) :
    Settled g (global? n) (∀ e ∈ ·, Declaration.IsOf e g) :=
  settled_grammar?.bind fun g? _ => by
    cases g?.bind (·.globalElements.find? n) with
    | none => exact .pure fun _ he => nomatch he
    | some d => exact settled_declaration? d

theorem settled_globals : Settled g globals (∀ e ∈ ·, Declaration.IsOf e g) :=
  settled_grammar?.bind fun _ _ => settled_declarations _

/-- What is read of a declaration is remembered or read from the grammar, which is the same. -/
theorem settled_firstRead (he : e.IsOf g) (known : Memory → Option α) (fromGrammar : Grammar → α)
    (empty : α) (put : α → Memory → Memory)
    (hknown : ∀ m : Memory, m.Agrees g e → ∀ a, known m = some a → a = fromGrammar g)
    (hput : ∀ m : Memory, m.Agrees g e → (put (fromGrammar g) m).Agrees g e) :
    Settled g (do
      firstRead (known ((← get).memory e.id)) fromGrammar empty fun a =>
        modify (·.remember e.id (put a))) fun _ => True := by
  refine ⟨fromGrammar g, trivial, fun s hs => ?_⟩
  have hrun : (do
      firstRead (known ((← get).memory e.id)) fromGrammar empty fun a =>
        modify (·.remember e.id (put a)) : Asking α).run s =
      (known (s.memory e.id)).elim ((s.grammar?.map fromGrammar).getD empty,
        s.remember e.id (put ((s.grammar?.map fromGrammar).getD empty))) fun a => (a, s) := by
    change (firstRead (known (s.memory e.id)) fromGrammar empty fun a =>
      modify (·.remember e.id (put a)) : Asking α).run s = _
    cases known (s.memory e.id) <;> rfl
  rw [hrun]
  cases hmemory : known (s.memory e.id) with
  | some a => exact ⟨hknown _ (hs.memory_agrees he) a hmemory, hs, .refl s⟩
  | none =>
    rw [Option.elim_none, hs.grammar?, Option.map_some, Option.getD_some]
    exact ⟨rfl, hs.remember he hput⟩

theorem settled_documentation? (he : e.IsOf g) : Settled g (documentation? e) fun _ => True :=
  settled_firstRead he (·.documentation?) e.documentationIn none
    (fun a m => { m with documentation? := some a }) (fun _ hm => hm.documentation) fun _ hm =>
      { hm with documentation := fun _ ha => (Option.some.inj ha).symm }

theorem settled_attributes (he : e.IsOf g) : Settled g (attributes e) fun _ => True :=
  settled_firstRead he (·.attributes?) e.attributesIn []
    (fun a m => { m with attributes? := some a }) (fun _ hm => hm.attributes) fun _ hm =>
      { hm with attributes := fun _ ha => (Option.some.inj ha).symm }

theorem settled_enumeration (he : e.IsOf g) : Settled g (enumeration e) fun _ => True :=
  settled_firstRead he (·.enumeration?) e.enumerationIn []
    (fun a m => { m with enumeration? := some a }) (fun _ hm => hm.enumeration) fun _ hm =>
      { hm with enumeration := fun _ ha => (Option.some.inj ha).symm }

theorem settled_childIds (he : e.IsOf g) : Settled g (childIds e) fun _ => True :=
  settled_firstRead he (·.children?) (·.staticChildren e.type) []
    (fun a m => { m with children? := some a }) (fun _ hm => hm.children) fun _ hm =>
      { hm with children := fun _ ha => (Option.some.inj ha).symm }

theorem settled_children (he : e.IsOf g) :
    Settled g (children e) (∀ c ∈ ·, Declaration.IsOf c g) :=
  .withGrammar ((settled_childIds he).bind fun _ _ => settled_declarations _)

theorem settled_child? (he : e.IsOf g) (localName : String) (space? : Option String) :
    Settled g (child? e localName space?) (∀ c ∈ ·, Declaration.IsOf c g) :=
  (settled_children he).bind fun _ hfound => .pure fun c hc =>
    hfound c (List.mem_of_find?_eq_some hc)

theorem settled_attribute? (he : e.IsOf g) (localName : String) :
    Settled g (attribute? e localName) fun _ => True :=
  (settled_attributes he).bind fun _ _ => .pure trivial

theorem settled_location? : Settled g (location? e) fun _ => True :=
  settled_grammar?.bind fun _ _ => .pure trivial

theorem settled_addTerms (found : List Declaration) (terms : List Term) :
    Settled g (addTerms g found terms) fun _ => True := by
  induction terms generalizing found with
  | nil => exact .pure trivial
  | cons t terms ih =>
    cases t with
    | element d => exact (settled_declarations _).bind fun _ _ => ih _
    | wildcard p =>
      cases p with
      | strict => exact settled_globals.bind fun _ _ => ih _
      | lax => exact .pure trivial
      | skip => exact .pure trivial

theorem settled_guidedAfter (t : TypeId) (closed : List Name) :
    Settled g (guidedAfter g t closed) fun _ => True := by
  rw [guidedAfter]
  split
  · split
    · exact (settled_addTerms [] _).bind fun _ _ => .pure trivial
    · exact .pure trivial
  · exact .pure trivial
  · exact .pure trivial

theorem settled_staticCandidates (t : TypeId) :
    Settled g (staticCandidates g t) fun _ => True := by
  rw [staticCandidates]
  split
  · exact .pure trivial
  · exact (settled_declarations _).bind fun _ _ => .pure trivial

theorem settled_candidatesAfter (t : TypeId) (closed : List Name) :
    Settled g (candidatesAfter g t closed) fun _ => True :=
  (settled_guidedAfter t closed).bind fun guided _ => by
    rcases guided with (_ | _ | _) | c
    · exact settled_staticCandidates t
    · exact .pure trivial
    · exact settled_staticCandidates t
    · exact .pure trivial

theorem settled_rootCandidates : Settled g rootCandidates fun _ => True :=
  settled_globals.bind fun _ _ => .pure trivial

theorem settled_resolveFrom (steps : List Document.Element) (he : e.IsOf g) :
    Settled g (resolveFrom e steps) (∀ c ∈ ·, Declaration.IsOf c g) := by
  induction steps generalizing e with
  | nil => exact .pure fun c hc => Option.some.inj hc ▸ he
  | cons step steps ih =>
    rw [resolveFrom]
    refine (settled_child? he _ _).bind fun c? hc? => ?_
    have hnext {next : Option Declaration → Asking (Option Declaration)}
        (hnone : next none = Pure.pure none) (hsome : ∀ c, next (some c) = resolveFrom c steps)
        (found? : Option Declaration) (hfound? : ∀ c ∈ found?, c.IsOf g) :
        Settled g (next found?) (∀ c ∈ ·, Declaration.IsOf c g) := by
      cases found? with
      | none => exact hnone ▸ .pure fun _ hc => by cases hc
      | some c => exact hsome c ▸ ih (hfound? c rfl)
    cases c? with
    | none => exact (settled_global? step.name).bind (hnext rfl fun _ => rfl)
    | some c => exact (Settled.pure hc?).bind (hnext rfl fun _ => rfl)

theorem settled_resolvePath (path : List Document.Element) :
    Settled g (resolvePath path) (∀ c ∈ ·, Declaration.IsOf c g) := by
  cases path with
  | nil => exact .pure fun _ hc => nomatch hc
  | cons root steps =>
    refine (settled_global? root.name).bind fun e? he? => ?_
    cases e? with
    | none => exact .pure fun _ hc => nomatch hc
    | some e => exact settled_resolveFrom steps (he? e rfl)

theorem settled_candidatesAt (root : Option Document.Element) (offset : Nat) :
    Settled g (candidatesAt g root offset) fun _ => True := by
  rw [candidatesAt]
  split
  · exact settled_rootCandidates
  · refine (settled_resolvePath _).bind fun e? _ => ?_
    cases e? with
    | none => exact .pure trivial
    | some e => exact settled_candidatesAfter _ _

end Asking

/-! ### Any questions in turn -/

/-- What may be asked of a grammar in use, and of its declarations. -/
inductive Question (g : Grammar) : Type → Type where
  | declaration (d : ElementId) : Question g (Option Declaration)
  | global (n : Name) : Question g (Option Declaration)
  | globals : Question g (List Declaration)
  | guidedAfter (t : TypeId) (closed : List Name) : Question g (Except Unguided Candidates)
  | candidatesAfter (t : TypeId) (closed : List Name) : Question g Candidates
  | staticCandidates (t : TypeId) : Question g Candidates
  | rootCandidates : Question g Candidates
  | candidatesAt (root : Option Document.Element) (offset : Nat) : Question g Candidates
  | declarationAt (root : Option Document.Element) (offset : Nat) : Question g (Option Declaration)
  | members (head : ElementId) : Question g (List Declaration)
  | allMembers (head : ElementId) : Question g (List Declaration)
  | documentation (e : Declaration) (h : e.IsOf g) : Question g (Option String)
  | attributes (e : Declaration) (h : e.IsOf g) : Question g (List AttributeDecl)
  | children (e : Declaration) (h : e.IsOf g) : Question g (List Declaration)
  | enumeration (e : Declaration) (h : e.IsOf g) : Question g (List String)
  | childNamed (e : Declaration) (h : e.IsOf g) (localName : String) (space? : Option String) :
      Question g (Option Declaration)
  | attributeNamed (e : Declaration) (h : e.IsOf g) (localName : String) :
      Question g (Option AttributeDecl)
  | location (e : Declaration) (h : e.IsOf g) : Question g (Option Location)

namespace Question

variable {α : Type} {g : Grammar}

/-- Asks a question. -/
def ask : Question g α → Asking α
  | declaration d => Asking.declaration? d
  | global n => Asking.global? n
  | globals => Asking.globals
  | guidedAfter t closed => Asking.guidedAfter g t closed
  | candidatesAfter t closed => Asking.candidatesAfter g t closed
  | staticCandidates t => Asking.staticCandidates g t
  | rootCandidates => Asking.rootCandidates
  | candidatesAt root offset => Asking.candidatesAt g root offset
  | declarationAt root offset => Asking.declarationAt root offset
  | members head => Asking.declarations (g.members head)
  | allMembers head => Asking.declarations (g.allMembers head)
  | documentation e _ => Asking.documentation? e
  | attributes e _ => Asking.attributes e
  | children e _ => Asking.children e
  | enumeration e _ => Asking.enumeration e
  | childNamed e _ localName space? => Asking.child? e localName space?
  | attributeNamed e _ localName => Asking.attribute? e localName
  | location e _ => Asking.location? e

theorem settled (q : Question g α) : Asking.Settled g q.ask fun _ => True := by
  cases q with
  | declaration d => exact (Asking.settled_declaration? d).mono fun _ _ => trivial
  | global n => exact (Asking.settled_global? n).mono fun _ _ => trivial
  | globals => exact Asking.settled_globals.mono fun _ _ => trivial
  | guidedAfter t closed => exact Asking.settled_guidedAfter t closed
  | candidatesAfter t closed => exact Asking.settled_candidatesAfter t closed
  | staticCandidates t => exact Asking.settled_staticCandidates t
  | rootCandidates => exact Asking.settled_rootCandidates
  | candidatesAt root offset => exact Asking.settled_candidatesAt root offset
  | declarationAt root offset => exact (Asking.settled_resolvePath _).mono fun _ _ => trivial
  | members head => exact (Asking.settled_declarations _).mono fun _ _ => trivial
  | allMembers head => exact (Asking.settled_declarations _).mono fun _ _ => trivial
  | documentation e h => exact Asking.settled_documentation? h
  | attributes e h => exact Asking.settled_attributes h
  | children e h => exact (Asking.settled_children h).mono fun _ _ => trivial
  | enumeration e h => exact Asking.settled_enumeration h
  | childNamed e h localName space? => exact (Asking.settled_child? h _ _).mono fun _ _ => trivial
  | attributeNamed e h localName => exact Asking.settled_attribute? h localName
  | location e h => exact Asking.settled_location?

/-- What is in use after some questions in turn. -/
def afterFrom (s : Session) (qs : List (Σ α, Question g α)) : Session :=
  qs.foldl (fun s q => (q.2.ask.run s).2) s

/-- What is in use once a grammar has been asked some questions in turn. -/
def after (g : Grammar) (qs : List (Σ α, Question g α)) : Session := afterFrom (.ofGrammar g) qs

theorem after_append (qs qs' : List (Σ α, Question g α)) :
    after g (qs ++ qs') = afterFrom (after g qs) qs' := List.foldl_append

theorem sound_afterFrom {s : Session} (hs : s.Sound g) (qs : List (Σ α, Question g α)) :
    (afterFrom s qs).Sound g ∧ s.Grows (afterFrom s qs) := by
  induction qs generalizing s with
  | nil => exact ⟨hs, .refl s⟩
  | cons q qs ih =>
    obtain ⟨_, -, hq⟩ := q.2.settled
    obtain ⟨-, hsound, hgrows⟩ := hq s hs
    obtain ⟨hsound', hgrows'⟩ := ih hsound
    exact ⟨hsound', hgrows.trans hgrows'⟩

theorem sound_after (g : Grammar) (qs : List (Σ α, Question g α)) : (after g qs).Sound g :=
  (sound_afterFrom (Session.sound_ofGrammar g) qs).1

theorem grows_after_append (qs qs' : List (Σ α, Question g α)) :
    (after g qs).Grows (after g (qs ++ qs')) := by
  rw [after_append]
  exact (sound_afterFrom (sound_after g qs) qs').2

/-- What is in use for an element carries the element and what the grammar declares of it. -/
theorem exists_wrapper_after {qs : List (Σ α, Question g α)} {d : ElementId} {i : Nat}
    (h : (d, i) ∈ (after g qs).cache.places) :
    ∃ w e t definition, (after g qs).wrapper? i = some w ∧ g.element? d = some e ∧
      e.type? = some t ∧ g.type? t = some definition ∧ w.declaration = {
        id := d
        name := e.name
        type := t
        category := definition.category
        kind := definition.contentKind
        isAbstract := e.isAbstract
        nillable := e.nillable } := by
  have hsound := sound_after g qs
  have hplace := (lookup_eq_some_iff_mem hsound.nodup).2 h
  obtain ⟨w, hw, hdeclared⟩ := (after g qs).declares d i hplace
  rw [hsound.grammar_eq, Declaration.ofGrammar?] at hdeclared
  obtain ⟨e, he, hdeclared⟩ := Option.bind_eq_some_iff.1 hdeclared
  obtain ⟨t, ht, hdeclared⟩ := Option.bind_eq_some_iff.1 hdeclared
  obtain ⟨definition, hdefinition, hdeclared⟩ := Option.bind_eq_some_iff.1 hdeclared
  exact ⟨w, e, t, definition, hw, he, ht, hdefinition, (Option.some.inj hdeclared).symm⟩

/-- A declaration is found at one place, from when it is first asked for. -/
theorem place?_after_append (qs qs' : List (Σ α, Question g α)) (d : ElementId) :
    ((Asking.place? d).run (after g (qs ++ ⟨_, declaration d⟩ :: qs'))).1 =
      ((Asking.place? d).run (after g qs)).1 := by
  have hsound := sound_after g qs
  have hsound' := sound_after g (qs ++ ⟨_, declaration d⟩ :: qs')
  have hlater : ((after g qs).use d).2.Grows (after g (qs ++ ⟨_, declaration d⟩ :: qs')) := by
    have hasked : (Asking.declaration? d).run (after g qs) = _ :=
      Asking.run_declaration? hsound.grammar? d
    have hgrows := (sound_afterFrom (hsound.use d).1 qs').2
    rw [after_append]
    rwa [← congrArg Prod.snd hasked] at hgrows ⊢
  rw [Asking.run_place? hsound.grammar?, Asking.run_place? hsound'.grammar?]
  rcases (after g qs).use_cases d with ⟨i, hi, hplace⟩ | ⟨hnone, hdeclared⟩
  · rw [hi, Session.use_of_place? (hlater.place? d i hplace)]
  · rw [hnone]
    rcases Session.use_cases (after g (qs ++ ⟨_, declaration d⟩ :: qs')) d with
      ⟨i, hi, hplace⟩ | ⟨hnone', -⟩
    · obtain ⟨w, -, hdeclared'⟩ := Session.declares _ d i hplace
      rw [(hsound'.use d).1.grammar_eq, ← hsound.grammar_eq, hdeclared] at hdeclared'
      cases hdeclared'
    · exact hnone'

/-- **What has been asked before makes no difference.**  A question has the same answer after any two
lists of questions; the declarations in use are then at the places before `size`, each at one place
of its own, where the element and what the grammar declares of it are found; a declaration stays at
its place, where it is found again by every later question for it; and as more is asked, the
declarations in use get no fewer, but never more than the grammar has elements. -/
theorem alike_after (g : Grammar) (qs qs' : List (Σ α, Question g α)) :
    let s := after g qs
    (∀ {α : Type} (q : Question g α), (q.ask.run s).1 = (q.ask.run (after g qs')).1) ∧
      (s.cache.places.map (·.1)).Nodup ∧
      (s.cache.places.map (·.2)).Perm (List.range s.size) ∧
      (∀ d i, (d, i) ∈ s.cache.places →
        ∃ w e t definition, s.wrapper? i = some w ∧ g.element? d = some e ∧ e.type? = some t ∧
          g.type? t = some definition ∧ w.declaration = {
            id := d
            name := e.name
            type := t
            category := definition.category
            kind := definition.contentKind
            isAbstract := e.isAbstract
            nillable := e.nillable }) ∧
      (∀ d i, s.cache.place? d = some i → (after g (qs ++ qs')).cache.place? d = some i) ∧
      (∀ d, ((Asking.place? d).run (after g (qs ++ ⟨_, declaration d⟩ :: qs'))).1 =
        ((Asking.place? d).run s).1) ∧
      s.size ≤ (after g (qs ++ qs')).size ∧ s.size ≤ g.elements.size := by
  have hsound := sound_after g qs
  have hgrows := grows_after_append qs qs'
  refine ⟨fun q => ?_, hsound.nodup, hsound.places, fun d i => exists_wrapper_after,
    hgrows.place?, place?_after_append qs qs', hgrows.size, hsound.size_le⟩
  obtain ⟨a, -, hq⟩ := q.settled
  rw [(hq _ hsound).1, (hq _ (sound_after g qs')).1]

end Question
end SchemaAssist
