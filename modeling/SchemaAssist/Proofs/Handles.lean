/-
# Declarations whose grammar is gone

A declaration in use outlives its grammar.  Its documentation, attributes and listed values are kept
from when they are first read; its children and its location are looked up in the grammar each time.
So every field is answered from the grammar as long as that is there, and afterwards as well if it is
kept and was read in time; otherwise it is empty, and stays so (`Event.answers_after`).

What a question does to a declaration in use is to fill in the fields that it reads of it, no others
(`Question.spares`).
-/

import SchemaAssist.Proofs.InUse
import SchemaAssist.Proofs.Integrity
import Mathlib.Data.List.Induction

namespace SchemaAssist

open ContentModel (Term)

/-- A field of a declaration that is read from its grammar. -/
inductive Field where
  | documentation
  | attributes
  | children
  | enumeration
  | location
  deriving DecidableEq, Repr

namespace Field

/-- What is read from a field. -/
abbrev Value : Field → Type
  | documentation => Option String
  | attributes => List AttributeDecl
  | children => List Declaration
  | enumeration => List String
  | location => Option Location

/-- What is read from a field without a grammar. -/
def empty : (f : Field) → f.Value
  | documentation => none
  | attributes => []
  | children => []
  | enumeration => []
  | location => none

/-- What a grammar says in a field of a declaration. -/
def valueIn (g : Grammar) (e : Declaration) : (f : Field) → f.Value
  | documentation => e.documentationIn g
  | attributes => e.attributesIn g
  | children => g.declared (g.staticChildren e.type)
  | enumeration => e.enumerationIn g
  | location => g.locationOf? e.id

/-- Reads a field of a declaration. -/
def read (e : Declaration) : (f : Field) → Asking f.Value
  | documentation => Asking.documentation? e
  | attributes => Asking.attributes e
  | children => Asking.children e
  | enumeration => Asking.enumeration e
  | location => Asking.location? e

/-- What is read first from the field is kept. -/
def isKept : Field → Bool
  | documentation | attributes | enumeration => true
  | children | location => false

/-- What is kept of a field. -/
def kept? : (f : Field) → Memory → Option f.Value
  | documentation, m => m.documentation?
  | attributes, m => m.attributes?
  | enumeration, m => m.enumeration?
  | children, _ => none
  | location, _ => none

/-- Keeps what has been read from a field. -/
def keep : (f : Field) → f.Value → Memory → Memory
  | documentation, a, m => { m with documentation? := some a }
  | attributes, a, m => { m with attributes? := some a }
  | enumeration, a, m => { m with enumeration? := some a }
  | children, _, m => m
  | location, _, m => m

theorem kept?_empty (f : Field) : f.kept? {} = none := by cases f <;> rfl

theorem kept?_keep {f : Field} (hf : f.isKept = true) (a : f.Value) (m : Memory) :
    f.kept? (f.keep a m) = some a := by
  cases f with
  | children => cases hf
  | location => cases hf
  | _ => rfl

theorem kept?_keep_of_ne {f f' : Field} (h : f ≠ f') (a : f.Value) (m : Memory) :
    f'.kept? (f.keep a m) = f'.kept? m := by
  cases f <;> cases f' <;> first | rfl | exact absurd rfl h

end Field

namespace Session

variable {s s' s'' : Session} {read? : Option (ElementId × Field)} {d d' : ElementId}

/-- Taking a declaration into use changes nothing of what has been read. -/
theorem memory_use (s : Session) (d' d : ElementId) : (s.use d').2.memory d = s.memory d := by
  rcases s.cache.get_cases s.grammar d' with ⟨i, -, hget⟩ | ⟨hnone, ⟨e, he, hget⟩ | ⟨-, hget⟩⟩
  · rw [use_of_get hget]
  · have hcache : (s.use d').2.cache = s.cache.add d' e := congrArg Prod.snd hget
    have hwrapper (i : Nat) : (s.use d').2.wrapper? i = (s.cache.add d' e).wrappers[i]? :=
      congrArg (·.wrappers[i]?) hcache
    rw [memory, memory, hcache, DeclarationCache.place?_add]
    split
    · next hd =>
      rw [hd, hnone, Option.bind_some, hwrapper, DeclarationCache.add, Array.getElem?_push_size]
      rfl
    · cases hplace : s.cache.place? d with
      | none => rfl
      | some i =>
        obtain ⟨w, hw, -⟩ := s.declares d i hplace
        have hlt := (Array.getElem?_eq_some_iff.1 hw).1
        rw [Option.bind_some, Option.bind_some, hwrapper, DeclarationCache.add,
          Array.getElem?_push_lt hlt, wrapper?, hw, (Array.getElem?_eq_some_iff.1 hw).2]
  · rw [use_of_get hget]

theorem place?_remember (s : Session) (d d' : ElementId) (p : Memory → Memory) :
    (s.remember d p).cache.place? d' = s.cache.place? d' := by
  rw [remember]
  cases s.cache.place? d <;> rfl

theorem wrapper?_remember {j : Nat} (h : s.cache.place? d = some j) (p : Memory → Memory) (i : Nat) :
    (s.remember d p).wrapper? i =
      if j = i then (s.wrapper? i).map fun w => { w with memory := p w.memory }
      else s.wrapper? i := by
  rw [remember, h]
  exact Array.getElem?_modify

/-- What has been read of a declaration in use is changed. -/
theorem memory_remember {j : Nat} (h : s.cache.place? d = some j) (p : Memory → Memory) :
    (s.remember d p).memory d = p (s.memory d) := by
  obtain ⟨w, hw, -⟩ := s.declares d j h
  have hfound : s.wrapper? j = some w := hw
  rw [memory, memory, place?_remember, h, Option.bind_some, Option.bind_some,
    wrapper?_remember h, if_pos rfl, hfound]
  rfl

/-- What has been read of other declarations stays: they are at other places. -/
theorem memory_remember_of_ne (h : d ≠ d') (p : Memory → Memory) :
    (s.remember d p).memory d' = s.memory d' := by
  cases hplace : s.cache.place? d with
  | none => rw [remember, hplace]
  | some j =>
    rw [memory, memory, place?_remember]
    cases hplace' : s.cache.place? d' with
    | none => rfl
    | some i =>
      have hne : j ≠ i := by
        rintro rfl
        obtain ⟨w, hw, hdeclared⟩ := s.declares d j hplace
        obtain ⟨w', hw', hdeclared'⟩ := s.declares d' j hplace'
        obtain rfl := Option.some.inj (hw.symm.trans hw')
        exact h ((Grammar.id_of_ofGrammar? hdeclared).symm.trans
          (Grammar.id_of_ofGrammar? hdeclared'))
      rw [Option.bind_some, Option.bind_some, wrapper?_remember hplace, if_neg hne]

/-- What a step leaves alone that reads one field of a declaration, or none: declarations stay at
their places, and what is kept of all other fields stays. -/
structure Spares (read? : Option (ElementId × Field)) (s s' : Session) : Prop where
  grammar : s'.grammar = s.grammar
  alive : s'.alive = s.alive
  place? : ∀ d i, s.cache.place? d = some i → s'.cache.place? d = some i
  kept? : ∀ d f, read? ≠ some (d, f) → f.kept? (s'.memory d) = f.kept? (s.memory d)

namespace Spares

theorem refl (read? : Option (ElementId × Field)) (s : Session) : s.Spares read? s :=
  ⟨rfl, rfl, fun _ _ h => h, fun _ _ _ => rfl⟩

theorem trans (h : s.Spares read? s') (h' : s'.Spares read? s'') : s.Spares read? s'' where
  grammar := h'.grammar.trans h.grammar
  alive := h'.alive.trans h.alive
  place? d i hi := h'.place? d i (h.place? d i hi)
  kept? d f hf := (h'.kept? d f hf).trans (h.kept? d f hf)

theorem use (s : Session) (d : ElementId) : s.Spares read? (s.use d).2 where
  grammar := rfl
  alive := rfl
  place? d' i hi := by
    rcases s.cache.get_cases s.grammar d with ⟨j, -, hget⟩ | ⟨hnone, ⟨e, -, hget⟩ | ⟨-, hget⟩⟩
    · rwa [use_of_get hget]
    · have hcache : (s.use d).2.cache = s.cache.add d e := congrArg Prod.snd hget
      have hne : d' ≠ d := by
        rintro rfl
        rw [hnone] at hi
        cases hi
      rwa [hcache, DeclarationCache.place?_add, if_neg hne]
    · rwa [use_of_get hget]
  kept? d' f _ := by rw [memory_use]

/-- Keeping something of one field leaves the others alone. -/
theorem remember (s : Session) {d : ElementId} {p : Memory → Memory}
    (hp : ∀ f, read? ≠ some (d, f) → ∀ m, f.kept? (p m) = f.kept? m) :
    s.Spares read? (s.remember d p) where
  grammar := by
    rw [Session.remember]
    cases s.cache.place? d <;> rfl
  alive := by
    rw [Session.remember]
    cases s.cache.place? d <;> rfl
  place? d' i hi := (place?_remember s d d' p).trans hi
  kept? d' f hf := by
    by_cases hd : d = d'
    · subst hd
      cases hplace : s.cache.place? d with
      | none => rw [Session.remember, hplace]
      | some i => rw [memory_remember hplace, hp f hf]
    · rw [memory_remember_of_ne hd]

end Spares
end Session

namespace Asking

variable {α β : Type} {g : Grammar} {e : Declaration} {read? : Option (ElementId × Field)}

/-- A question that reads one field of a declaration, or none. -/
def Spares (read? : Option (ElementId × Field)) (x : Asking α) : Prop :=
  ∀ s : Session, s.Spares read? (x.run s).2

namespace Spares

theorem pure {a : α} : Spares read? (pure a) := fun s => .refl read? s

theorem bind {x : Asking α} {f : α → Asking β} (hx : Spares read? x)
    (hf : ∀ a, Spares read? (f a)) : Spares read? (x >>= f) := by
  intro s
  have hrun : (x >>= f).run s = (f (x.run s).1).run (x.run s).2 := rfl
  rw [hrun]
  exact (hx s).trans (hf _ _)

theorem mapM {f : α → Asking β} (h : ∀ a, Spares read? (f a)) (as : List α) :
    Spares read? (as.mapM f) := by
  induction as with
  | nil => exact .pure
  | cons a as ih =>
    rw [List.mapM_cons]
    exact (h a).bind fun b => ih.bind fun bs => .pure

theorem get : Spares read? (get : Asking Session) := fun s => .refl read? s

theorem grammar? : Spares read? grammar? := get.bind fun _ => .pure

theorem withGrammar {without : α} {answer : Grammar → Asking α}
    (h : ∀ g, Spares read? (answer g)) : Spares read? (withGrammar without answer) :=
  grammar?.bind fun g? => by
    cases g? with
    | none => exact .pure
    | some g => exact h g

theorem declaration? (d : ElementId) : Spares read? (declaration? d) := by
  have hplace : Spares read? (place? d) := withGrammar fun _ s => .use s d
  refine hplace.bind fun i? => ?_
  cases i? with
  | none => exact .pure
  | some i => exact get.bind fun _ => .pure

theorem declarations (ds : List ElementId) : Spares read? (declarations ds) :=
  (mapM declaration? ds).bind fun _ => .pure

theorem global? (n : Name) : Spares read? (global? n) :=
  grammar?.bind fun g? => by
    cases g?.bind (·.globalElements.find? n) with
    | none => exact .pure
    | some d => exact declaration? d

theorem globals : Spares read? globals := grammar?.bind fun _ => declarations _

/-- Reading a field from the grammar or from what is kept fills in that field. -/
theorem firstRead {known : Option α} {fromGrammar : Grammar → α} {empty : α}
    {keep : α → Asking Unit} (h : ∀ a, Spares read? (keep a)) :
    Spares read? (firstRead known fromGrammar empty keep) := by
  cases known with
  | some a => exact .pure
  | none => exact grammar?.bind fun _ => (h _).bind fun _ => .pure

theorem children (e : Declaration) : Spares read? (children e) :=
  withGrammar fun _ => by
    have hids : Spares read? (childIds e) := get.bind fun _ => firstRead fun _ s =>
      .remember s fun f _ _ => by cases f <;> rfl
    exact hids.bind fun _ => declarations _

theorem child? (e : Declaration) (localName : String) (space? : Option String) :
    Spares read? (child? e localName space?) :=
  (children e).bind fun _ => .pure

/-- Reading a field fills in that field. -/
theorem read (e : Declaration) (f : Field) : Spares (some (e.id, f)) (f.read e) := by
  have hkeep (f : Field) (a : f.Value) :
      Spares (some (e.id, f)) (modify (·.remember e.id (f.keep a))) :=
    fun s => .remember s fun f' hf' => Field.kept?_keep_of_ne (fun h => hf' (by rw [h])) a
  cases f with
  | documentation => exact get.bind fun _ => firstRead (hkeep .documentation)
  | attributes => exact get.bind fun _ => firstRead (hkeep .attributes)
  | enumeration => exact get.bind fun _ => firstRead (hkeep .enumeration)
  | children => exact children e
  | location => exact grammar?.bind fun _ => .pure

theorem addTerms (found : List Declaration) (terms : List Term) :
    Spares read? (addTerms g found terms) := by
  induction terms generalizing found with
  | nil => exact .pure
  | cons t terms ih =>
    cases t with
    | element d => exact (declarations _).bind fun _ => ih _
    | wildcard p =>
      cases p with
      | strict => exact globals.bind fun _ => ih _
      | lax => exact .pure
      | skip => exact .pure

theorem guidedAfter (t : TypeId) (closed : List Name) :
    Spares read? (guidedAfter g t closed) := by
  rw [Asking.guidedAfter]
  split
  · split
    · exact (addTerms [] _).bind fun _ => .pure
    · exact .pure
  · exact .pure
  · exact .pure

theorem staticCandidates (t : TypeId) : Spares read? (staticCandidates g t) := by
  rw [Asking.staticCandidates]
  split
  · exact .pure
  · exact (declarations _).bind fun _ => .pure

theorem candidatesAfter (t : TypeId) (closed : List Name) :
    Spares read? (candidatesAfter g t closed) :=
  (guidedAfter t closed).bind fun guided => by
    rcases guided with (_ | _ | _) | c
    · exact staticCandidates t
    · exact .pure
    · exact staticCandidates t
    · exact .pure

theorem rootCandidates : Spares read? rootCandidates := globals.bind fun _ => .pure

theorem resolveFrom (e : Declaration) (steps : List Document.Element) :
    Spares read? (resolveFrom e steps) := by
  induction steps generalizing e with
  | nil => exact .pure
  | cons step steps ih =>
    rw [Asking.resolveFrom]
    refine (child? e _ _).bind fun c? => ?_
    have hnext {next : Option Declaration → Asking (Option Declaration)}
        (hnone : next none = Pure.pure none)
        (hsome : ∀ c, next (some c) = Asking.resolveFrom c steps)
        (found? : Option Declaration) : Spares read? (next found?) := by
      cases found? with
      | none => exact hnone ▸ .pure
      | some c => exact hsome c ▸ ih c
    cases c? with
    | none => exact (global? step.name).bind (hnext rfl fun _ => rfl)
    | some c => exact Spares.pure.bind (hnext rfl fun _ => rfl)

theorem resolvePath (path : List Document.Element) : Spares read? (resolvePath path) := by
  cases path with
  | nil => exact .pure
  | cons root steps =>
    refine (global? root.name).bind fun e? => ?_
    cases e? with
    | none => exact .pure
    | some e => exact resolveFrom e steps

theorem candidatesAt (root : Option Document.Element) (offset : Nat) :
    Spares read? (candidatesAt g root offset) := by
  rw [Asking.candidatesAt]
  split
  · exact rootCandidates
  · refine (resolvePath _).bind fun e? => ?_
    cases e? with
    | none => exact .pure
    | some e => exact candidatesAfter _ _

end Spares

/-- Reading a field that is kept: what is kept is the answer, and the answer is kept. -/
theorem run_read {f : Field} (hf : f.isKept = true) (e : Declaration) (s : Session) :
    (f.read e).run s =
      (f.kept? (s.memory e.id)).elim
        ((s.grammar?.map fun g => f.valueIn g e).getD f.empty,
          s.remember e.id (f.keep ((s.grammar?.map fun g => f.valueIn g e).getD f.empty)))
        fun a => (a, s) := by
  have hfirst {known : Option f.Value} {fromGrammar : Grammar → f.Value} :
      (firstRead known fromGrammar f.empty fun a => modify (·.remember e.id (f.keep a))).run s =
        known.elim ((s.grammar?.map fromGrammar).getD f.empty,
          s.remember e.id (f.keep ((s.grammar?.map fromGrammar).getD f.empty))) fun a => (a, s) := by
    cases known <;> rfl
  cases f with
  | documentation => exact hfirst
  | attributes => exact hfirst
  | enumeration => exact hfirst
  | children => cases hf
  | location => cases hf

end Asking

namespace Question

variable {α : Type} {g : Grammar}

/-- The field that a question reads, of a declaration that is given. -/
def field? : Question g α → Option (ElementId × Field)
  | documentation e _ => some (e.id, .documentation)
  | attributes e _ => some (e.id, .attributes)
  | attributeNamed e _ _ => some (e.id, .attributes)
  | children e _ => some (e.id, .children)
  | childNamed e _ _ _ => some (e.id, .children)
  | enumeration e _ => some (e.id, .enumeration)
  | location e _ => some (e.id, .location)
  | _ => none

/-- A question fills in the field that it reads, no others. -/
theorem spares (q : Question g α) : Asking.Spares q.field? q.ask := by
  cases q with
  | declaration d => exact .declaration? d
  | global n => exact .global? n
  | globals => exact .globals
  | guidedAfter t closed => exact .guidedAfter t closed
  | candidatesAfter t closed => exact .candidatesAfter t closed
  | staticCandidates t => exact .staticCandidates t
  | rootCandidates => exact .rootCandidates
  | candidatesAt root offset => exact .candidatesAt root offset
  | declarationAt root offset => exact .resolvePath _
  | members head => exact .declarations _
  | allMembers head => exact .declarations _
  | documentation e _ => exact .read e .documentation
  | attributes e _ => exact .read e .attributes
  | children e _ => exact .read e .children
  | enumeration e _ => exact .read e .enumeration
  | childNamed e _ localName space? => exact .child? e localName space?
  | attributeNamed e _ localName => exact (Asking.Spares.read e .attributes).bind fun _ => .pure
  | location e _ => exact .read e .location

/-- A question that reads a field of a declaration leaves behind what reading the field does. -/
theorem run_ask_of_field? {q : Question g α} {e : Declaration} (he : e.IsOf g) {f : Field}
    (hf : f.isKept = true) (h : q.field? = some (e.id, f)) (s : Session) :
    (q.ask.run s).2 = ((f.read e).run s).2 := by
  have hsame {e' : Declaration} (he' : e'.IsOf g) {f' : Field}
      (h : some (e'.id, f') = some (e.id, f)) : e' = e ∧ f' = f := by
    obtain ⟨hid, rfl⟩ := Prod.mk.inj (Option.some.inj h)
    refine ⟨Option.some.inj (he'.symm.trans ?_), rfl⟩
    rw [hid]
    exact he
  cases q with
  | documentation e' he' => obtain ⟨rfl, rfl⟩ := hsame he' h; rfl
  | attributes e' he' => obtain ⟨rfl, rfl⟩ := hsame he' h; rfl
  | attributeNamed e' he' localName => obtain ⟨rfl, rfl⟩ := hsame he' h; rfl
  | enumeration e' he' => obtain ⟨rfl, rfl⟩ := hsame he' h; rfl
  | children e' he' => obtain ⟨-, rfl⟩ := hsame he' h; cases hf
  | childNamed e' he' localName space? => obtain ⟨-, rfl⟩ := hsame he' h; cases hf
  | location e' he' => obtain ⟨-, rfl⟩ := hsame he' h; cases hf
  | _ => cases h

theorem after_concat (qs : List (Σ α, Question g α)) (q : Σ α, Question g α) :
    after g (qs ++ [q]) = (q.2.ask.run (after g qs)).2 := after_append qs [q]

/-- A declaration that comes into use has nothing kept of it yet. -/
theorem kept?_of_new {q : Question g α} {e : Declaration} (he : e.IsOf g) {f : Field}
    (hf : f.isKept = true) {s : Session} (hnew : s.cache.place? e.id = none)
    (huse : (q.ask.run s).2.cache.place? e.id ≠ none) :
    f.kept? ((q.ask.run s).2.memory e.id) = none := by
  have hnone : f.kept? (s.memory e.id) = none := by
    rw [Session.memory, hnew]
    exact f.kept?_empty
  by_cases hfield : q.field? = some (e.id, f)
  · -- what is read of a declaration that is not in use does not take it into use
    refine absurd ?_ huse
    rw [run_ask_of_field? he hf hfield, Asking.run_read hf, hnone]
    exact (Session.place?_remember s e.id e.id _).trans hnew
  · rw [(q.spares s).kept? e.id f hfield, hnone]

end Question

/-- What happens to a grammar in use: it is asked something, or it goes. -/
inductive Event (g : Grammar) where
  | ask (question : Σ α, Question g α)
  | drop

namespace Event

variable {g : Grammar} {e : Declaration} {i : Nat} {events : List (Event g)}

/-- The grammar stays. -/
def stays : Event g → Bool
  | ask _ => true
  | drop => false

/-- The field that is read, of a declaration that is given. -/
def field? : Event g → Option (ElementId × Field)
  | ask q => q.2.field?
  | drop => none

/-- What is in use after an event. -/
def step (s : Session) : Event g → Session
  | ask q => (q.2.ask.run s).2
  | drop => s.drop

/-- What is in use after some events in turn. -/
def run (s : Session) (events : List (Event g)) : Session := events.foldl step s

/-- The grammar is still there after some events. -/
def allStay (events : List (Event g)) : Bool := events.all stays

/-- A field has been read while the grammar was there. -/
def readInTime (d : ElementId) (f : Field) (events : List (Event g)) : Bool :=
  (events.takeWhile stays).any (·.field? = some (d, f))

/-- What is read from a field of a declaration after some events: what the grammar says if it is
still there, or if the field is kept and has been read while it was; else nothing. -/
def answer (e : Declaration) (f : Field) (events : List (Event g)) : f.Value :=
  if allStay events || f.isKept && readInTime e.id f events then f.valueIn g e else f.empty

theorem run_append (s : Session) (events later : List (Event g)) :
    run s (events ++ later) = run (run s events) later := List.foldl_append

theorem allStay_concat (events : List (Event g)) (x : Event g) :
    allStay (events ++ [x]) = (allStay events && x.stays) := by
  rw [allStay, allStay, List.all_append, List.all_cons, List.all_nil, Bool.and_true]

theorem readInTime_ask (d : ElementId) (f : Field) (q : Σ α, Question g α) (later : List (Event g)) :
    readInTime d f (.ask q :: later) = (q.2.field? = some (d, f) || readInTime d f later) := rfl

/-- Later events read a field in time if the grammar is there. -/
theorem readInTime_append (d : ElementId) (f : Field) (events later : List (Event g)) :
    readInTime d f (events ++ later) =
      (readInTime d f events || allStay events && readInTime d f later) := by
  induction events with
  | nil => rfl
  | cons x events ih =>
    cases x with
    | drop => rfl
    | ask q =>
      have hstays : allStay (.ask q :: events) = allStay events := rfl
      rw [List.cons_append, readInTime_ask, readInTime_ask, hstays, ih, Bool.or_assoc]

theorem readInTime_concat (d : ElementId) (f : Field) (events : List (Event g)) (x : Event g) :
    readInTime d f (events ++ [x]) =
      (readInTime d f events || allStay events && x.field? = some (d, f)) := by
  have hone : readInTime d f [x] = decide (x.field? = some (d, f)) := by
    cases x with
    | ask q => exact Bool.or_false _
    | drop => rfl
  rw [readInTime_append, hone]

theorem answer_of_allStay (h : allStay events = true) (f : Field) :
    answer e f events = f.valueIn g e := by
  rw [answer, h, Bool.true_or, if_pos rfl]

theorem answer_of_readInTime {f : Field} (hf : f.isKept = true)
    (h : readInTime e.id f events = true) : answer e f events = f.valueIn g e := by
  rw [answer, hf, h, Bool.true_and, Bool.or_true, if_pos rfl]

theorem answer_of_late {f : Field} (hstay : allStay events = false)
    (h : f.isKept = false ∨ readInTime e.id f events = false) : answer e f events = f.empty := by
  have hlate : (f.isKept && readInTime e.id f events) = false := Bool.and_eq_false_iff.2 h
  rw [answer, hstay, hlate, Bool.or_false, if_neg Bool.false_ne_true]

/-- A field that is kept says the same ever after it has been read. -/
theorem answer_of_read {before later : List (Event g)} {q : Σ α, Question g α} {f : Field}
    (hf : f.isKept = true) (h : q.2.field? = some (e.id, f)) :
    answer e f (before ++ .ask q :: later) = answer e f before := by
  have hread : readInTime e.id f (before ++ .ask q :: later) =
      (readInTime e.id f before || allStay before) := by
    rw [readInTime_append, readInTime_ask, decide_eq_true h, Bool.true_or, Bool.and_true]
  cases hstay : allStay before with
  | true =>
    rw [answer_of_allStay hstay, answer_of_readInTime hf]
    rw [hread, hstay, Bool.or_true]
  | false =>
    have hgone : allStay (before ++ .ask q :: later) = false := by
      rw [allStay, List.all_append, ← allStay, hstay, Bool.false_and]
    rw [answer, answer, hread, hstay, hgone, Bool.or_false]

/-- While the grammar is there, a field says what the grammar does. -/
theorem run_read_of_sound {s : Session} (hs : s.Sound g) (he : e.IsOf g) (f : Field) :
    ((f.read e).run s).1 = f.valueIn g e := by
  have hsettled : Asking.Settled g (f.read e) fun _ => True := by
    cases f with
    | documentation => exact Asking.settled_documentation? he
    | attributes => exact Asking.settled_attributes he
    | children => exact (Asking.settled_children he).mono fun _ _ => trivial
    | enumeration => exact Asking.settled_enumeration he
    | location => exact Asking.settled_location?
  -- the answer is the one that is given before anything is in use
  have hfirst : ((f.read e).run (.ofGrammar g)).1 = f.valueIn g e := by
    cases f with
    | children => exact (Asking.gets_declarations g (g.staticChildren e.type) (.ofGrammar g) rfl).1
    | _ => rfl
  obtain ⟨a, -, ha⟩ := hsettled
  rw [(ha s hs).1, ← (ha _ (Session.sound_ofGrammar g)).1, hfirst]

/-- A declaration that is in use after some events, and what is kept of it: what the grammar says in
fields that were read in time, nothing in others, or nothing to be read in them. -/
structure Holds (g : Grammar) (e : Declaration) (i : Nat) (events : List (Event g)) (s : Session) :
    Prop where
  grammar : s.grammar = g
  alive : s.alive = allStay events
  sound : allStay events = true → s.Sound g
  place? : s.cache.place? e.id = some i
  inTime : ∀ f, f.isKept = true → readInTime e.id f events = true →
    f.kept? (s.memory e.id) = some (f.valueIn g e)
  late : ∀ f, f.isKept = true → readInTime e.id f events = false →
    f.kept? (s.memory e.id) = none ∨
      allStay events = false ∧ f.kept? (s.memory e.id) = some f.empty

namespace Holds

variable {s : Session}

/-- A field is answered from the grammar, or else from what is kept. -/
theorem read (h : Holds g e i events s) (he : e.IsOf g) (f : Field) :
    ((f.read e).run s).1 = answer e f events := by
  cases hstay : allStay events with
  | true => rw [run_read_of_sound (h.sound hstay) he, answer_of_allStay hstay]
  | false =>
    have hgone : s.grammar? = none := by
      rw [Session.grammar?, h.alive, hstay, if_neg Bool.false_ne_true]
    cases hf : f.isKept with
    | true =>
      rw [Asking.run_read hf, hgone]
      cases hread : readInTime e.id f events with
      | true => rw [h.inTime f hf hread, answer_of_readInTime hf hread]; rfl
      | false =>
        rw [answer_of_late hstay (.inr hread)]
        rcases h.late f hf hread with hkept | ⟨-, hkept⟩ <;> rw [hkept] <;> rfl
    | false =>
      rw [answer_of_late hstay (.inl hf)]
      have hwithout {α : Type} (a : α) (answer : Grammar → Asking α) :
          (Asking.withGrammar a answer).run s = (a, s) := by
        have hrun : Asking.grammar?.run s = (none, s) := congrArg (·, s) hgone
        rw [Asking.withGrammar, Asking.run_bind, hrun]
        rfl
      cases f with
      | children => exact congrArg Prod.fst (hwithout [] _)
      | location =>
        change s.grammar?.bind (·.locationOf? e.id) = none
        rw [hgone]
        rfl
      | _ => cases hf

/-- What is read from a field that is kept is kept. -/
theorem kept?_read (h : Holds g e i events s) {f : Field} (hf : f.isKept = true) :
    f.kept? (((f.read e).run s).2.memory e.id) = some ((f.read e).run s).1 := by
  rw [Asking.run_read hf]
  cases hkept : f.kept? (s.memory e.id) with
  | some a => exact hkept
  | none =>
    change f.kept? ((s.remember e.id _).memory e.id) = _
    rw [Session.memory_remember h.place?, Field.kept?_keep hf]
    rfl

theorem ask (h : Holds g e i events s) (he : e.IsOf g) (q : Σ α, Question g α) :
    Holds g e i (events ++ [.ask q]) (q.2.ask.run s).2 := by
  have hspares := q.2.spares s
  have hstay : allStay (events ++ [.ask q]) = allStay events := by
    rw [allStay_concat, stays, Bool.and_true]
  have hfilled {f : Field} (hf : f.isKept = true) (hfield : q.2.field? = some (e.id, f)) :
      f.kept? ((q.2.ask.run s).2.memory e.id) = some (answer e f events) := by
    rw [Question.run_ask_of_field? he hf hfield, h.kept?_read hf, h.read he]
  refine ⟨hspares.grammar.trans h.grammar, ?_, ?_, hspares.place? _ _ h.place?, ?_, ?_⟩
  · rw [hstay]
    exact hspares.alive.trans h.alive
  · intro hstays
    obtain ⟨_, -, hq⟩ := q.2.settled
    exact (hq s (h.sound (hstay ▸ hstays))).2.1
  · intro f hf hread
    rw [readInTime_concat] at hread
    by_cases hfield : q.2.field? = some (e.id, f)
    · rw [hfilled hf hfield]
      cases hread' : readInTime e.id f events with
      | true => rw [answer_of_readInTime hf hread']
      | false =>
        rw [hread', Bool.false_or, Bool.and_eq_true] at hread
        rw [answer_of_allStay hread.1]
    · rw [hspares.kept? _ _ hfield]
      exact h.inTime f hf (by simpa [field?, hfield] using hread)
  · intro f hf hread
    rw [readInTime_concat, Bool.or_eq_false_iff] at hread
    by_cases hfield : q.2.field? = some (e.id, f)
    · have hgone : allStay events = false := by simpa [field?, hfield] using hread.2
      rw [hfilled hf hfield, answer_of_late hgone (.inr hread.1)]
      exact .inr ⟨hstay.trans hgone, rfl⟩
    · rw [hspares.kept? _ _ hfield, hstay]
      exact h.late f hf hread.1

theorem drop (h : Holds g e i events s) : Holds g e i (events ++ [.drop]) s.drop := by
  have hstay : allStay (events ++ [.drop]) = false := by
    rw [allStay_concat, stays, Bool.and_false]
  have hread (f : Field) : readInTime e.id f (events ++ [.drop]) = readInTime e.id f events := by
    rw [readInTime_concat]
    simp [field?]
  refine ⟨h.grammar, hstay.symm, fun hstays => ?_, h.place?, fun f hf hf' => ?_, fun f hf hf' => ?_⟩
  · rw [hstay] at hstays
    cases hstays
  · exact h.inTime f hf (hread f ▸ hf')
  · rw [hread] at hf'
    exact (h.late f hf hf').imp_right fun hkept => ⟨hstay, hkept.2⟩

theorem run (h : Holds g e i [] s) (he : e.IsOf g) (events : List (Event g)) :
    Holds g e i events (Event.run s events) := by
  induction events using List.reverseRecOn with
  | nil => exact h
  | append_singleton events x ih =>
    rw [run_append]
    cases x with
    | ask q => exact ih.ask he q
    | drop => exact ih.drop

end Holds

/-- The declaration at a place is what the grammar declares, and is at that place only. -/
theorem place?_of_wrapper? {s : Session} (hs : s.Sound g)
    (h : (s.wrapper? i).map (·.declaration) = some e) :
    e.IsOf g ∧ s.cache.place? e.id = some i := by
  obtain ⟨w, hw, rfl⟩ := Option.map_eq_some_iff.1 h
  have hi : i ∈ s.cache.places.map (·.2) :=
    hs.places.mem_iff.2 (List.mem_range.2 (Array.getElem?_eq_some_iff.1 hw).1)
  obtain ⟨⟨d, i⟩, hplaces, rfl⟩ := List.mem_map.1 hi
  have hplace := (lookup_eq_some_iff_mem hs.nodup).2 hplaces
  obtain ⟨w', hw', hdeclared⟩ := s.declares d i hplace
  obtain rfl := Option.some.inj (hw.symm.trans hw')
  rw [hs.grammar_eq] at hdeclared
  refine ⟨Declaration.isOf_of_ofGrammar? hdeclared, ?_⟩
  rw [Grammar.id_of_ofGrammar? hdeclared]
  exact hplace

/-- A declaration that has come into use, before anything else happens. -/
theorem holds_new {α : Type} {s : Session} (hs : s.Sound g) {q : Question g α}
    (hnew : s.cache.place? e.id = none)
    (hkept : ((q.ask.run s).2.wrapper? i).map (·.declaration) = some e) :
    e.IsOf g ∧ Holds g e i [] (q.ask.run s).2 := by
  obtain ⟨_, -, hq⟩ := q.settled
  have hsound := (hq s hs).2.1
  obtain ⟨he, hplace⟩ := place?_of_wrapper? hsound hkept
  have huse : (q.ask.run s).2.cache.place? e.id ≠ none := hplace ▸ Option.some_ne_none i
  refine ⟨he, hsound.grammar_eq, (Session.grammar?_eq_some.1 hsound.grammar?).2, fun _ => hsound,
    hplace, ?_, fun f hf _ => .inl (Question.kept?_of_new he hf hnew huse)⟩
  exact fun f _ hread => absurd hread Bool.false_ne_true

/-- The declaration stays in use as it is. -/
theorem Holds.declaration {s : Session} (h : Holds g e i events s) (he : e.IsOf g) :
    (s.wrapper? i).map (·.declaration) = some e := by
  obtain ⟨w, hw, hdeclared⟩ := s.declares e.id i h.place?
  rw [h.grammar, he] at hdeclared
  have hfound : s.wrapper? i = some w := hw
  rw [hfound, Option.map_some, hdeclared]

/-- **What is left of a declaration when its grammar goes.**  Let a declaration come into use by some
question, after any others, and let any questions follow, of it or not, with the grammar gone at any
point.  Then each of its fields says what the grammar does, as long as that is there; afterwards a
field still does if it is kept and was read in time, and is empty otherwise.  What has been read from
a field that is kept is read again whenever it is read later.  The name, the type, the category, the
kind of content and the two flags stay as they are. -/
theorem answers_after {qs : List (Σ α, Question g α)} {q : Σ α, Question g α}
    (hnew : (Question.after g qs).cache.place? e.id = none)
    (hkept : ((Question.after g (qs ++ [q])).wrapper? i).map (·.declaration) = some e)
    (events : List (Event g)) :
    let s := Question.after g (qs ++ [q])
    (∀ f, ((f.read e).run (run s events)).1 = answer e f events) ∧
      (∀ f, f.isKept = true → ∀ before q' later, events = before ++ .ask q' :: later →
        q'.2.field? = some (e.id, f) →
          ((f.read e).run (run s events)).1 = ((f.read e).run (run s before)).1) ∧
      ((run s events).wrapper? i).map (·.declaration) = some e := by
  rw [Question.after_concat] at hkept ⊢
  obtain ⟨he, hstart⟩ := holds_new (Question.sound_after g qs) hnew hkept
  refine ⟨fun f => (hstart.run he events).read he f, ?_, (hstart.run he events).declaration he⟩
  rintro f hf before q' later rfl hread
  rw [(hstart.run he _).read he f, (hstart.run he before).read he f, answer_of_read hf hread]

/-- A lamp, which has an attribute and a child. -/
def lamp : Submission where
  text := "<s:schema xmlns:s='http://www.w3.org/2001/XMLSchema'><s:element name='lamp'>" ++
    "<s:complexType><s:sequence><s:element name='bulb'/></s:sequence>" ++
    "<s:attribute name='watts'/></s:complexType></s:element></s:schema>"
  location := .path "lamp.xsd"

/-- If its attributes are read before its grammar goes, a lamp keeps them, but no child; if they are
read for the first time after that, it has none, and has none ever after. -/
theorem answers_after_lamp :
    ∃ g e, ∃ he : e.IsOf g, ((Components.empty .v10 {}).after [lamp]).build = .ok g ∧
      e.attributesIn g ≠ [] ∧ g.staticChildren e.type ≠ [] ∧
      let s := Question.after g ([] ++ [⟨_, .declaration e.id⟩])
      ((Asking.attributes e).run (run s [.ask ⟨_, .attributes e he⟩, .drop])).1 = e.attributesIn g ∧
        ((Asking.children e).run (run s [.ask ⟨_, .attributes e he⟩, .drop])).1 = [] ∧
        ((Asking.attributes e).run (run s [.drop, .ask ⟨_, .attributes e he⟩])).1 = [] ∧
        ((run s [.drop, .ask ⟨_, .attributes e he⟩]).wrapper? 0).map (·.declaration) = some e := by
  have hbuilt : ∃ g ∈ ((Components.empty .v10 {}).after [lamp]).build.toOption,
      ∃ e ∈ Declaration.ofGrammar? g ⟨1⟩,
        e.attributesIn g ≠ [] ∧ g.staticChildren e.type ≠ [] := by
    decide +kernel
  obtain ⟨g, hg, e, hdeclared, hattributes, hchildren⟩ := hbuilt
  have he : e.IsOf g := Declaration.isOf_of_ofGrammar? hdeclared
  have hkept : ((Question.after g ([] ++ [⟨_, .declaration e.id⟩])).wrapper? 0).map
      (·.declaration) = some e := by
    have hget : DeclarationCache.get {} g e.id = (some 0, DeclarationCache.add {} e.id e) := by
      have hplace : DeclarationCache.place? {} e.id = none := rfl
      rw [DeclarationCache.get, hplace, show Declaration.ofGrammar? g e.id = some e from he]
      rfl
    have hafter : Question.after g ([] ++ [⟨_, .declaration e.id⟩]) =
        ((Session.ofGrammar g).use e.id).2 :=
      congrArg Prod.snd (Asking.run_declaration? (s := .ofGrammar g) rfl e.id)
    rw [hafter]
    change ((DeclarationCache.get {} g e.id).2.wrappers[0]?).map _ = _
    rw [hget]
    rfl
  have hanswers := answers_after rfl hkept
  have hread : readInTime e.id .attributes [.ask ⟨_, .attributes e he⟩, .drop] = true := by
    rw [readInTime_ask, Question.field?, decide_eq_true rfl, Bool.true_or]
  refine ⟨g, e, he, Components.build_of_mem hg, hattributes, hchildren, ?_, ?_, ?_, ?_⟩
  · exact ((hanswers _).1 .attributes).trans (answer_of_readInTime rfl hread)
  · exact ((hanswers _).1 .children).trans (answer_of_late rfl (.inl rfl))
  · exact ((hanswers _).1 .attributes).trans (answer_of_late rfl (.inr rfl))
  · exact (hanswers _).2.2

end Event
end SchemaAssist
