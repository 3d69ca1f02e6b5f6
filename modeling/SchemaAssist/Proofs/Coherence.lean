/-
# Kept grammars while files change

Between requests files are written, and every location that leads to a written file is declared to
have changed before the next request (`World.Announced`).  A grammar is forgotten once one of its
documents is declared to have changed.  So each document that a kept grammar is built from reads as
it did when the grammar was loaded (`World.coherent_run`).

Documents that were left out of a grammar are not among those that it is built from.  If one of them
is written later, with its location declared to have changed, the grammar is kept all the same: it is
then not the one that would be loaded now (`World.not_answersAsNew_lateRun`).  Nothing else goes
wrong (`World.answer_run`).
-/

import SchemaAssist.Registry
import SchemaAssist.Proofs.Loads
import SchemaAssist.Proofs.Writing

namespace SchemaAssist

open Loading

namespace Registry

/-- What is answered to a request: the grammar, without the number that it is kept by. -/
def answer (r : Registry) (fs : Files) (ls : List Location) : Except LoadError Grammar :=
  (r.load (m := Id) fs.reader ls : Except LoadError KeptGrammar × Registry).1.map KeptGrammar.grammar

/-- A request finds a kept grammar, or a load fails, or the grammar that is loaded is kept. -/
theorem load_cases (r : Registry) (fs : Files) (ls : List Location) :
    (∃ k, r.kept.lookup (r.keyOf ls) = some k ∧ r.load fs.reader ls = (.ok k, r)) ∨
      (∃ e, Grammar.load fs.reader r.limits (r.keyOf ls).version ls = .error e ∧
        r.load fs.reader ls = (.error e, r)) ∨
      ∃ g, Grammar.load fs.reader r.limits (r.keyOf ls).version ls = .ok g ∧
        r.load fs.reader ls = (.ok (r.keep (r.keyOf ls) g).1, (r.keep (r.keyOf ls) g).2) ∧
          r.kept.lookup (r.keyOf ls) = none := by
  cases hkept : r.kept.lookup (r.keyOf ls) with
  | some k =>
    refine Or.inl ⟨k, rfl, ?_⟩
    rw [load]
    simp only [pure, hkept]
  | none =>
    right
    cases hload : Grammar.load fs.reader r.limits (r.keyOf ls).version ls with
    | error e =>
      refine Or.inl ⟨e, rfl, ?_⟩
      rw [load]
      simp only [bind, pure, hkept, hload]
    | ok g =>
      refine Or.inr ⟨g, rfl, ?_, rfl⟩
      rw [load]
      simp only [bind, pure, hkept, hload]

theorem answer_clear (r : Registry) (fs : Files) (ls : List Location) :
    r.clear.answer fs ls = Grammar.load fs.reader r.limits (r.keyOf ls).version ls := by
  rcases r.clear.load_cases fs ls with ⟨k, hk, -⟩ | ⟨e, he, hload⟩ | ⟨g, hg, hload, -⟩
  · cases hk
  · rw [answer, hload]
    exact he.symm
  · rw [answer, hload]
    exact hg.symm

end Registry

/-- Files and a registry, with what has been asked of it and is to be declared to it. -/
structure World where
  files : Files
  registry : Registry
  /-- The requests so far, the last first, each with the files as they were. -/
  loads : List (Files × List Location) := []
  /-- The locations that lead to written files and are still to be declared to have changed. -/
  due : List Location := []

namespace World

/-- What happens. -/
inductive Event where
  /-- A grammar is asked for. -/
  | load (locations : List Location)
  | write (path : String) (content : FileContent)
  /-- Documents are declared to have changed. -/
  | invalidate (locations : List Location)

/-- Nothing is kept at first. -/
def start (files : Files) (limits : Limits) (settings : Settings) : World :=
  { files, registry := { limits, settings } }

/-- The locations of the documents that requests asked for or that documents referred to. -/
def consulted (w : World) : List Location :=
  w.loads.flatMap fun l => (visits l.1.reader w.registry.limits l.2).map Visit.location

/-- What comes of an event. -/
def step (w : World) : Event → World
  | .load ls =>
    { w with
      registry := (w.registry.load (m := Id) w.files.reader ls : _ × Registry).2
      loads := (w.files, ls) :: w.loads }
  | .write path content =>
    let files := w.files.write path content
    { w with files, due := w.due ++ w.consulted.filter (·.leadsTo files (Files.names path)) }
  | .invalidate ls =>
    { w with
      registry := (w.registry.invalidate ls).2
      due := w.due.filter fun l => !ls.any l.same }

/-- What comes of some events. -/
def run (w : World) (es : List Event) : World := es.foldl step w

/-- A grammar is asked for when all that is written has been declared, and no file is written where
a directory stands. -/
def Allows (w : World) : Event → Prop
  | .load _ => w.due = []
  | .write path _ => w.files.Writable path
  | .invalidate _ => True

/-- All that is written is declared to have changed before the next request. -/
def Announced : World → List Event → Prop
  | _, [] => True
  | w, e :: es => w.Allows e ∧ (w.step e).Announced es

/-- A request is answered as if nothing had been kept. -/
def AnswersAsNew (w : World) (ls : List Location) : Prop :=
  w.registry.answer w.files ls = w.registry.clear.answer w.files ls

variable {w : World} {e : Event} {es es' : List Event} {ls : List Location}

theorem announced_append : w.Announced (es ++ es') ↔ w.Announced es ∧ (w.run es).Announced es' := by
  induction es generalizing w with
  | nil => simp [Announced, run]
  | cons e es ih =>
    rw [List.cons_append, Announced, Announced, ih, and_assoc]
    rfl

/-- What is recorded of a request are the files as they were then. -/
theorem exists_load_of_mem_loads {l : Files × List Location} (hl : l ∈ (w.run es).loads) :
    l ∈ w.loads ∨ ∃ before after, es = before ++ .load l.2 :: after ∧ l.1 = (w.run before).files := by
  induction es generalizing w with
  | nil => exact Or.inl hl
  | cons e es ih =>
    rcases ih (w := w.step e) hl with hl | ⟨before, after, rfl, hfiles⟩
    · cases e with
      | load ls =>
        rcases List.mem_cons.1 hl with rfl | hl
        · exact Or.inr ⟨[], es, rfl, rfl⟩
        · exact Or.inl hl
      | write path content => exact Or.inl hl
      | invalidate ls => exact Or.inl hl
    · exact Or.inr ⟨e :: before, after, rfl, hfiles⟩

theorem limits_step (w : World) (e : Event) : (w.step e).registry.limits = w.registry.limits := by
  cases e with
  | load ls =>
    rw [step]
    rcases w.registry.load_cases w.files ls with ⟨k, -, hload⟩ | ⟨e, -, hload⟩ | ⟨g, -, hload, -⟩
    all_goals rw [hload]
    rfl
  | write path content => rfl
  | invalidate ls => rfl

theorem limits_run (w : World) (es : List Event) : (w.run es).registry.limits = w.registry.limits := by
  induction es generalizing w with
  | nil => rfl
  | cons e es ih => exact (ih (w.step e)).trans (limits_step w e)

/-! ### What a kept grammar was loaded from -/

/-- A grammar that is kept was loaded from these files: of the documents that it is built from, each
reads as it did unless it is still to be declared to have changed. -/
structure Origin (w : World) (e : GrammarKey × KeptGrammar) (fs : Files) (ls : List Location) :
    Prop where
  asked : (fs, ls) ∈ w.loads
  key : e.1 = w.registry.keyOf ls
  grammar : Grammar.load fs.reader w.registry.limits e.1.version ls = .ok e.2.grammar
  current : ∀ v ∈ visits fs.reader w.registry.limits ls, v.isKept = true →
    v.location.load w.files.reader w.registry.limits = v.text ∨ v.location ∈ w.due

/-- Every kept grammar has an origin. -/
def Coherent (w : World) : Prop := ∀ e ∈ w.registry.kept, ∃ fs ls, w.Origin e fs ls

theorem coherent_start (files : Files) (limits : Limits) (settings : Settings) :
    (start files limits settings).Coherent := nofun

/-- A request keeps what is kept, and may add a grammar that is loaded from the files as they are. -/
theorem Coherent.load (h : w.Coherent) (ls : List Location) : (w.step (.load ls)).Coherent := by
  have hold : ∀ e ∈ w.registry.kept, ∃ fs ls',
      Origin { w with loads := (w.files, ls) :: w.loads } e fs ls' := by
    intro e he
    obtain ⟨fs, ls', ho⟩ := h e he
    exact ⟨fs, ls', { ho with asked := List.mem_cons_of_mem _ ho.asked }⟩
  intro e he
  rw [step] at he ⊢
  rcases w.registry.load_cases w.files ls with ⟨k, -, hload⟩ | ⟨err, -, hload⟩ | ⟨g, hg, hload, -⟩
  · rw [hload] at he ⊢
    exact hold e he
  · rw [hload] at he ⊢
    exact hold e he
  · rw [hload] at he ⊢
    rcases List.mem_append.1 he with he | he
    · obtain ⟨fs, ls', ho⟩ := hold e he
      exact ⟨fs, ls', ho.asked, ho.key, ho.grammar, ho.current⟩
    · obtain rfl := List.mem_singleton.1 he
      refine ⟨w.files, ls, List.mem_cons_self, rfl, hg, fun v hv _ => Or.inl ?_⟩
      exact congrArg Visit.text (exists_referrer hv).1

/-- A document that reads otherwise after a write is to be declared to have changed. -/
theorem Coherent.write (h : w.Coherent) {path : String} (hw : w.files.Writable path)
    (content : FileContent) : (w.step (.write path content)).Coherent := by
  intro e he
  obtain ⟨fs, ls, ho⟩ := h e he
  refine ⟨fs, ls, ho.asked, ho.key, ho.grammar, fun v hv hkept => ?_⟩
  rcases ho.current v hv hkept with hsame | hdue
  · -- a document that led to the written file was consulted when the grammar was loaded
    cases hleads : v.location.leadsTo (w.files.write path content) (Files.names path) with
    | true =>
      have hconsulted : v.location ∈ w.consulted :=
        List.mem_flatMap.2 ⟨(fs, ls), ho.asked, List.mem_map_of_mem hv⟩
      exact Or.inr (List.mem_append_right _ (List.mem_filter.2 ⟨hconsulted, hleads⟩))
    | false =>
      obtain ⟨text, htext⟩ := Visit.exists_text_of_isKept hkept
      rw [htext] at hsame ⊢
      exact Or.inl (Location.load_write_of_not_leadsTo hw hsame hleads)
  · exact Or.inr (List.mem_append_left _ hdue)

/-- What is still kept is built from no document that is declared to have changed. -/
theorem Coherent.invalidate (h : w.Coherent) (ls : List Location) :
    (w.step (.invalidate ls)).Coherent := by
  intro e he
  obtain ⟨he, hunused⟩ := List.mem_filter.1 he
  obtain ⟨fs, ls', ho⟩ := h e he
  refine ⟨fs, ls', ho.asked, ho.key, ho.grammar, fun v hv hkept => ?_⟩
  refine (ho.current v hv hkept).imp_right fun hdue => List.mem_filter.2 ⟨hdue, ?_⟩
  have hlocation : v.location ∈ e.2.grammar.locations := by
    rw [(Grammar.holds_of_load ho.grammar).1, List.mem_toArray]
    exact List.mem_map_of_mem (List.mem_filter.2 ⟨hv, hkept⟩)
  rw [Bool.not_eq_true'] at hunused ⊢
  have hnone := Array.any_eq_false'.1 hunused _ hlocation
  exact Bool.eq_false_iff.2 hnone

theorem Coherent.step (h : w.Coherent) (ha : w.Allows e) : (w.step e).Coherent := by
  cases e with
  | load ls => exact h.load ls
  | write path content => exact h.write ha content
  | invalidate ls => exact h.invalidate ls

/-- **Kept grammars stay up to date** in the documents that they are built from. -/
theorem coherent_run (h : w.Coherent) (ha : w.Announced es) : (w.run es).Coherent := by
  induction es generalizing w with
  | nil => exact h
  | cons e es ih => exact ih (h.step ha.1) ha.2

/-! ### What is answered -/

/-- When nothing is still to be declared, all documents that a grammar is built from read as they
did. -/
theorem Origin.current_of_settled {e : GrammarKey × KeptGrammar} {fs : Files}
    (ho : w.Origin e fs ls) (hdue : w.due = []) :
    ∀ v ∈ visits fs.reader w.registry.limits ls, v.isKept = true →
      v.location.load w.files.reader w.registry.limits = v.text := by
  intro v hv hkept
  refine (ho.current v hv hkept).resolve_right fun hmem => ?_
  rw [hdue] at hmem
  cases hmem

/-- If what was left out reads as it did too, the same grammar would be loaded again. -/
theorem Origin.load_eq {e : GrammarKey × KeptGrammar} {fs : Files} (ho : w.Origin e fs ls)
    (hdue : w.due = [])
    (hleft : ∀ v ∈ visits fs.reader w.registry.limits ls, v.isKept = false →
      v.location.load w.files.reader w.registry.limits = v.text) :
    Grammar.load w.files.reader w.registry.limits e.1.version ls = .ok e.2.grammar := by
  have hall : ∀ v ∈ visits fs.reader w.registry.limits ls,
      v.location.load w.files.reader w.registry.limits = v.text := by
    intro v hv
    cases hkept : v.isKept with
    | true => exact ho.current_of_settled hdue v hv hkept
    | false => exact hleft v hv hkept
  exact (Grammar.load_congr hall e.1.version).trans ho.grammar

/-- A request is answered as if nothing had been kept, or by a grammar that is kept. -/
theorem Coherent.answer_cases (h : w.Coherent) (ls : List Location) :
    w.AnswersAsNew ls ∨ ∃ k fs₀ ls₀, w.Origin (w.registry.keyOf ls, k) fs₀ ls₀ ∧
      w.registry.answer w.files ls = .ok k.grammar := by
  rcases w.registry.load_cases w.files ls with ⟨k, hk, hload⟩ | ⟨e, he, hload⟩ | ⟨g, hg, hload, -⟩
  · obtain ⟨kept, kept', hkept, -⟩ := List.lookup_eq_some_iff.1 hk
    have hmem : (w.registry.keyOf ls, k) ∈ w.registry.kept :=
      hkept ▸ List.mem_append_right _ List.mem_cons_self
    obtain ⟨fs₀, ls₀, ho⟩ := h _ hmem
    refine Or.inr ⟨k, fs₀, ls₀, ho, ?_⟩
    rw [Registry.answer, hload]
    rfl
  · left
    rw [AnswersAsNew, Registry.answer_clear, he, Registry.answer, hload]
    rfl
  · left
    rw [AnswersAsNew, Registry.answer_clear, hg, Registry.answer, hload]
    rfl

/-- **What is answered** to a request is the grammar that would be loaded now, or else one that was
loaded at an earlier request for the same documents.  Each document that this one is built from
still reads as it did then; so either the locations were written otherwise, or what is found at the
location of a document that was left out has changed. -/
theorem answer_run {files : Files} {limits : Limits} {settings : Settings}
    (ha : (start files limits settings).Announced (es ++ .load ls :: es')) :
    let w := (start files limits settings).run es
    w.AnswersAsNew ls ∨
      ∃ before ls₀ after, es = before ++ .load ls₀ :: after ∧
        let fs₀ := ((start files limits settings).run before).files
        ls₀.map Location.key = ls.map Location.key ∧
          w.registry.answer w.files ls = w.registry.clear.answer fs₀ ls₀ ∧
          (∀ v ∈ visits fs₀.reader w.registry.limits ls₀, v.isKept = true →
            v.location.load w.files.reader w.registry.limits = v.text) ∧
          (ls₀ = ls → ∃ v ∈ visits fs₀.reader w.registry.limits ls₀, v.isKept = false ∧
            v.location.load w.files.reader w.registry.limits ≠ v.text) := by
  intro w
  obtain ⟨hbefore, hdue, -⟩ := announced_append.1 ha
  have hcoherent : w.Coherent := coherent_run (coherent_start files limits settings) hbefore
  rcases hcoherent.answer_cases ls with hnew | ⟨k, fs₀, ls₀, ho, hanswer⟩
  · exact Or.inl hnew
  · have hkey : w.registry.keyOf ls = w.registry.keyOf ls₀ := ho.key
    -- where nothing left out has changed either, the grammar would be loaded again as it is
    by_cases hleft : ls₀ = ls ∧ ∀ v ∈ visits fs₀.reader w.registry.limits ls₀, v.isKept = false →
        v.location.load w.files.reader w.registry.limits = v.text
    · obtain ⟨rfl, hleft⟩ := hleft
      left
      rw [AnswersAsNew, Registry.answer_clear, hanswer]
      exact (ho.load_eq hdue hleft).symm
    · rcases exists_load_of_mem_loads ho.asked with hnil | ⟨before, after, hes, hfiles⟩
      · cases hnil
      · have hfiles : ((start files limits settings).run before).files = fs₀ := hfiles.symm
        refine Or.inr ⟨before, ls₀, after, hes, ?_⟩
        rw [hfiles]
        refine ⟨(congrArg GrammarKey.locations hkey).symm, ?_, ho.current_of_settled hdue,
          fun hls => ?_⟩
        · rw [hanswer, Registry.answer_clear, ← ho.grammar, hkey]
        · by_contra hnone
          refine hleft ⟨hls, fun v hv hkept => ?_⟩
          by_contra hne
          exact hnone ⟨v, hv, hkept, hne⟩

/-! ### A document that is written late -/

instance (w : World) (e : Event) : Decidable (w.Allows e) :=
  match e with
  | .load _ => inferInstanceAs (Decidable (w.due = []))
  | .write path _ => inferInstanceAs (Decidable (w.files.Writable path))
  | .invalidate _ => inferInstanceAs (Decidable True)

/-- Whether all that is written is declared can be found out by following the events. -/
instance decidableAnnounced : (w : World) → (es : List Event) → Decidable (w.Announced es)
  | _, [] => inferInstanceAs (Decidable True)
  | w, e :: es =>
    have := decidableAnnounced (w.step e) es
    inferInstanceAs (Decidable (w.Allows e ∧ (w.step e).Announced es))

/-- A document that includes another one, which is not there. -/
def lateFiles : Files := ({} : Files).write "main.xsd" (.text
  "<schema xmlns='http://www.w3.org/2001/XMLSchema'><include schemaLocation='part.xsd'/></schema>")

/-- The included document is written after a request, and declared to have changed. -/
def lateEvents : List Event :=
  [.load [.path "main.xsd"],
    .write "part.xsd" (.text
      "<schema xmlns='http://www.w3.org/2001/XMLSchema'><element name='part'/></schema>"),
    .invalidate [.path "part.xsd"]]

/-- Files and registry after that. -/
def lateWorld : World := (start lateFiles {} {}).run lateEvents

theorem announced_lateEvents :
    (start lateFiles {} {}).Announced (lateEvents ++ [.load [.path "main.xsd"]]) := by
  decide +kernel

/-- Whether a grammar is found that declares the late element. -/
def declaresPart : Except LoadError Grammar → Bool
  | .ok g => g.globalElements.has ⟨"", "part"⟩
  | .error _ => false

theorem answer_lateWorld :
    declaresPart (lateWorld.registry.answer lateWorld.files [.path "main.xsd"]) = false ∧
      declaresPart (lateWorld.registry.clear.answer lateWorld.files [.path "main.xsd"]) = true := by
  decide +kernel

theorem not_answersAsNew_lateWorld : ¬ lateWorld.AnswersAsNew [.path "main.xsd"] := by
  intro hnew
  obtain ⟨hanswer, hclear⟩ := answer_lateWorld
  rw [AnswersAsNew] at hnew
  rw [hnew, hclear] at hanswer
  cases hanswer

/-- Of the grammar that is answered late, the document that was left out has changed. -/
theorem answer_run_lateRun :
    (start lateFiles {} {}).Announced (lateEvents ++ [.load [.path "main.xsd"]]) ∧
      ∃ v ∈ visits lateFiles.reader {} [.path "main.xsd"], v.isKept = false ∧
        v.location.load lateWorld.files.reader {} ≠ v.text := by
  refine ⟨announced_lateEvents, ?_⟩
  have hlimits : lateWorld.registry.limits = {} := limits_run _ lateEvents
  rcases answer_run announced_lateEvents with hnew | ⟨before, ls₀, after, hes, -, -, -, hleft⟩
  · exact absurd hnew not_answersAsNew_lateWorld
  · cases before with
    | nil =>
      obtain ⟨hload, -⟩ := List.cons.inj hes
      obtain ⟨v, hv, hkept, hne⟩ := hleft (Event.load.inj hload).symm
      rw [← Event.load.inj hload] at hv
      change v ∈ visits lateFiles.reader lateWorld.registry.limits _ at hv
      change v.location.load lateWorld.files.reader lateWorld.registry.limits ≠ _ at hne
      rw [hlimits] at hv hne
      exact ⟨v, hv, hkept, hne⟩
    | cons e before => simp [lateEvents, List.cons_eq_append_iff] at hes

/-- **A document that is written late stays unseen**, though its location is declared to have
changed. -/
theorem not_answersAsNew_lateRun :
    (start lateFiles {} {}).Announced (lateEvents ++ [.load [.path "main.xsd"]]) ∧
      ¬ ((start lateFiles {} {}).run lateEvents).AnswersAsNew [.path "main.xsd"] :=
  ⟨announced_lateEvents, not_answersAsNew_lateWorld⟩

end World
end SchemaAssist
