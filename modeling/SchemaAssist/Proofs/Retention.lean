/-
# What a registry keeps

A registry is asked for grammars, told that documents have changed, cleared and given other
settings, in any order, while files change as they like.  What it keeps for some locations and a
version is what it answered to the last request for them, unless that has been dropped since
(`Registry.mem_kept_run`).  A grammar that is loaded afresh gets a number that no grammar answered
before has.  So as long as nothing drops a grammar it is answered again, and after that another one
is (`Registry.retains_run`).
-/

import SchemaAssist.Proofs.Coherence

namespace SchemaAssist

namespace Registry

/-- What is asked of a registry. -/
inductive Request where
  /-- The grammar of some documents, with the files as they are then. -/
  | load (files : Files) (locations : List Location)
  /-- Documents have changed. -/
  | invalidate (locations : List Location)
  | clear
  /-- Other settings hold from now on. -/
  | configure (settings : Settings)

/-- A registry that nothing has been asked of. -/
def start (limits : Limits) (settings : Settings) : Registry := { limits, settings }

/-- The registry after a request. -/
def step (r : Registry) : Request → Registry
  | .load fs ls => (r.load (m := Id) fs.reader ls : Except LoadError KeptGrammar × Registry).2
  | .invalidate ls => (r.invalidate ls).2
  | .clear => r.clear
  | .configure settings => { r with settings }

/-- The registry after some requests. -/
def run (r : Registry) (qs : List Request) : Registry := qs.foldl step r

/-- The grammar that is answered to a request, with its number. -/
def answered? (r : Registry) : Request → Option KeptGrammar
  | .load fs ls => (r.load (m := Id) fs.reader ls : Except LoadError KeptGrammar × Registry).1.toOption
  | _ => none

/-- What the grammar asked for is kept by. -/
def asked? (r : Registry) : Request → Option GrammarKey
  | .load _ ls => some (r.keyOf ls)
  | _ => none

/-- All grammars that are answered to some requests. -/
def answers (r : Registry) : List Request → List KeptGrammar
  | [] => []
  | q :: qs => (r.answered? q).toList ++ (r.step q).answers qs

/-- Whether a request drops a grammar: one of its documents has changed, or all are dropped. -/
def Request.drops (k : KeptGrammar) : Request → Bool
  | .invalidate ls => KeptGrammar.uses k ls
  | .clear => true
  | _ => false

/-- Some of the requests was answered by a grammar that no later one drops. -/
def Loaded (r : Registry) (qs : List Request) (key : GrammarKey) (k : KeptGrammar) : Prop :=
  ∃ before q after, qs = before ++ q :: after ∧ (r.run before).asked? q = some key ∧
    (r.run before).answered? q = some k ∧ ∀ p ∈ after, p.drops k = false

variable {r : Registry} {q : Request} {qs : List Request} {key : GrammarKey} {k : KeptGrammar}

theorem run_append (r : Registry) (qs qs' : List Request) :
    r.run (qs ++ qs') = (r.run qs).run qs' := List.foldl_append

/-- No grammar that is dropped is answered at the same time. -/
theorem asked?_of_drops (h : q.drops k = true) : r.asked? q = none := by
  cases q with
  | load fs ls => cases h
  | invalidate ls => rfl
  | clear => rfl
  | configure settings => cases h

/-! ### One request -/

/-- No two grammars are kept by the same key, and the number of the next one is new. -/
structure Tidy (r : Registry) : Prop where
  nodup : (r.kept.map (·.1)).Nodup
  id_lt : ∀ e ∈ r.kept, e.2.id < r.next

theorem tidy_start (limits : Limits) (settings : Settings) : (start limits settings).Tidy :=
  ⟨List.nodup_nil, nofun⟩

/-- **What is kept after a request**: the grammar that it answers, and all that it does not drop. -/
theorem mem_kept_step : (key, k) ∈ (r.step q).kept ↔
    r.asked? q = some key ∧ r.answered? q = some k ∨ (key, k) ∈ r.kept ∧ q.drops k = false := by
  cases q with
  | load fs ls =>
    rw [step, asked?, answered?]
    rcases r.load_cases fs ls with ⟨k', hk, hload⟩ | ⟨e, -, hload⟩ | ⟨g, -, hload, -⟩
    · obtain ⟨before, after, hkept, -⟩ := List.lookup_eq_some_iff.1 hk
      have hmem : (r.keyOf ls, k') ∈ r.kept := hkept ▸ List.mem_append_right _ List.mem_cons_self
      rw [hload]
      constructor
      · exact fun h => Or.inr ⟨h, rfl⟩
      · rintro (⟨hkey, hk⟩ | ⟨h, -⟩)
        · cases hkey
          cases hk
          exact hmem
        · exact h
    · rw [hload]
      exact ⟨fun h => Or.inr ⟨h, rfl⟩, fun h => h.elim (fun h => nomatch h.2) (·.1)⟩
    · rw [hload]
      have hkept : (r.keep (r.keyOf ls) g).2.kept = r.kept ++ [(r.keyOf ls, ⟨r.next, g⟩)] := rfl
      have hloaded : (r.keep (r.keyOf ls) g).1 = ⟨r.next, g⟩ := rfl
      rw [hkept, hloaded, List.mem_append, List.mem_singleton, Prod.mk.injEq, or_comm]
      simp [Except.toOption, Request.drops, eq_comm]
  | invalidate ls =>
    have hkept : (r.step (.invalidate ls)).kept =
        r.kept.filter fun e => !KeptGrammar.uses e.2 ls := rfl
    rw [hkept, List.mem_filter, Request.drops]
    simp [asked?]
  | clear =>
    have hkept : (r.step .clear).kept = [] := rfl
    rw [hkept]
    simp [asked?, Request.drops]
  | configure settings =>
    have hkept : (r.step (.configure settings)).kept = r.kept := rfl
    rw [hkept]
    simp [asked?, Request.drops]

theorem Tidy.step (h : r.Tidy) (q : Request) : (r.step q).Tidy := by
  cases q with
  | load fs ls =>
    rw [Registry.step]
    rcases r.load_cases fs ls with ⟨k', -, hload⟩ | ⟨e, -, hload⟩ | ⟨g, -, hload, hnone⟩
    · rw [hload]
      exact h
    · rw [hload]
      exact h
    · rw [hload]
      constructor
      · have hkeys : (r.keep (r.keyOf ls) g).2.kept.map (·.1) = r.kept.map (·.1) ++ [r.keyOf ls] :=
          List.map_append
        rw [hkeys, List.nodup_append]
        refine ⟨h.nodup, List.nodup_singleton _, fun a ha b hb => ?_⟩
        rw [List.mem_singleton.1 hb]
        rintro rfl
        obtain ⟨e, he, hkey⟩ := List.mem_map.1 ha
        have hne := List.lookup_eq_none_iff.1 hnone e he
        exact absurd hkey.symm (bne_iff_ne.1 hne)
      · intro e he
        rcases List.mem_append.1 he with he | he
        · exact Nat.lt_succ_of_lt (h.id_lt e he)
        · rw [List.mem_singleton.1 he]
          exact Nat.lt_succ_self r.next
  | invalidate ls =>
    have hsub : (r.step (.invalidate ls)).kept.Sublist r.kept := List.filter_sublist
    exact ⟨h.nodup.sublist (hsub.map _), fun e he => h.id_lt e (hsub.subset he)⟩
  | clear => exact ⟨List.nodup_nil, nofun⟩
  | configure settings => exact ⟨h.nodup, h.id_lt⟩

/-- A grammar that is answered is kept already, or has the next number. -/
theorem answered?_cases (h : r.answered? q = some k) :
    (∃ key, r.asked? q = some key ∧ (key, k) ∈ r.kept) ∨
      k.id = r.next ∧ (r.step q).next = r.next + 1 := by
  cases q with
  | load fs ls =>
    rw [answered?] at h
    rw [step]
    rcases r.load_cases fs ls with ⟨k', hk, hload⟩ | ⟨e, -, hload⟩ | ⟨g, -, hload, -⟩
    · rw [hload] at h
      cases h
      obtain ⟨before, after, hkept, -⟩ := List.lookup_eq_some_iff.1 hk
      exact Or.inl ⟨_, rfl, hkept ▸ List.mem_append_right _ List.mem_cons_self⟩
    · rw [hload] at h
      cases h
    · rw [hload] at h ⊢
      cases h
      exact Or.inr ⟨rfl, rfl⟩
  | invalidate ls => cases h
  | clear => cases h
  | configure settings => cases h

theorem next_le_step (r : Registry) (q : Request) : r.next ≤ (r.step q).next := by
  cases q with
  | load fs ls =>
    rw [step]
    rcases r.load_cases fs ls with ⟨k', -, hload⟩ | ⟨e, -, hload⟩ | ⟨g, -, hload, -⟩
    · rw [hload]
    · rw [hload]
    · rw [hload]
      exact Nat.le_succ r.next
  | invalidate ls => exact Nat.le_refl _
  | clear => exact Nat.le_refl _
  | configure settings => exact Nat.le_refl _

theorem Tidy.answered?_lt (h : r.Tidy) (hk : r.answered? q = some k) : k.id < (r.step q).next := by
  rcases answered?_cases hk with ⟨key, -, hmem⟩ | ⟨hid, hnext⟩
  · exact Nat.lt_of_lt_of_le (h.id_lt _ hmem) (next_le_step r q)
  · omega

/-- A grammar that is kept is answered. -/
theorem answered?_of_mem (h : r.Tidy) {fs : Files} {ls : List Location}
    (hk : (r.keyOf ls, k) ∈ r.kept) : r.answered? (.load fs ls) = some k := by
  have hlookup : r.kept.lookup (r.keyOf ls) = some k := (lookup_eq_some_iff_mem h.nodup).2 hk
  rw [answered?]
  rcases r.load_cases fs ls with ⟨k', hk', hload⟩ | ⟨e, he, hload⟩ | ⟨g, -, -, hnone⟩
  · rw [hload]
    exact hk'.symm.trans hlookup
  · rw [load, hlookup] at hload
    cases hload
  · rw [hnone] at hlookup
    cases hlookup

/-! ### Runs -/

theorem Tidy.run (h : r.Tidy) (qs : List Request) : (r.run qs).Tidy := by
  induction qs generalizing r with
  | nil => exact h
  | cons q qs ih => exact ih (h.step q)

theorem next_le_run (r : Registry) (qs : List Request) : r.next ≤ (r.run qs).next := by
  induction qs generalizing r with
  | nil => exact Nat.le_refl _
  | cons q qs ih => exact Nat.le_trans (next_le_step r q) (ih (r.step q))

/-- Whatever has been answered has a smaller number than the next grammar. -/
theorem Tidy.answers_lt (h : r.Tidy) (qs : List Request) :
    ∀ k ∈ r.answers qs, k.id < (r.run qs).next := by
  induction qs generalizing r with
  | nil => exact nofun
  | cons q qs ih =>
    intro k hk
    rcases List.mem_append.1 hk with hk | hk
    · exact Nat.lt_of_lt_of_le (h.answered?_lt (Option.mem_toList.1 hk)) (next_le_run _ qs)
    · exact ih (h.step q) k hk

/-- What is kept after some requests was kept before, or has a number that was not in use. -/
theorem mem_or_next_le_of_mem_kept_run (r : Registry) (qs : List Request)
    (h : (key, k) ∈ (r.run qs).kept) : (key, k) ∈ r.kept ∨ r.next ≤ k.id := by
  induction qs generalizing r with
  | nil => exact Or.inl h
  | cons q qs ih =>
    rcases ih (r.step q) h with hmem | hle
    · rcases mem_kept_step.1 hmem with ⟨hkey, hk⟩ | ⟨hmem, -⟩
      · rcases answered?_cases hk with ⟨key', hkey', hmem⟩ | ⟨hid, -⟩
        · obtain rfl := Option.some.inj (hkey.symm.trans hkey')
          exact Or.inl hmem
        · exact Or.inr hid.ge
      · exact Or.inl hmem
    · exact Or.inr (Nat.le_trans (next_le_step r q) hle)

theorem loaded_concat : r.Loaded (qs ++ [q]) key k ↔
    (r.run qs).asked? q = some key ∧ (r.run qs).answered? q = some k ∨
      r.Loaded qs key k ∧ q.drops k = false := by
  constructor
  · rintro ⟨before, q', after, hqs, hkey, hk, hafter⟩
    rcases List.eq_nil_or_concat' after with rfl | ⟨after, q'', rfl⟩
    · obtain ⟨rfl, hq⟩ := List.append_inj' hqs rfl
      obtain rfl := List.singleton_inj.1 hq
      exact Or.inl ⟨hkey, hk⟩
    · rw [← List.cons_append, ← List.append_assoc] at hqs
      obtain ⟨rfl, hq⟩ := List.append_inj' hqs rfl
      obtain rfl := List.singleton_inj.1 hq
      rw [List.forall_mem_append] at hafter
      exact Or.inr ⟨⟨before, q', after, rfl, hkey, hk, hafter.1⟩,
        hafter.2 q List.mem_cons_self⟩
  · rintro (⟨hkey, hk⟩ | ⟨⟨before, q', after, rfl, hkey, hk, hafter⟩, hq⟩)
    · exact ⟨qs, q, [], rfl, hkey, hk, nofun⟩
    · refine ⟨before, q', after ++ [q], by simp, hkey, hk, ?_⟩
      exact List.forall_mem_append.2 ⟨hafter, List.forall_mem_singleton.2 hq⟩

/-- **What is kept after some requests** is what they were answered and have not dropped. -/
theorem mem_kept_run (hr : r.kept = []) :
    (key, k) ∈ (r.run qs).kept ↔ r.Loaded qs key k := by
  induction qs using List.reverseRecOn generalizing key k with
  | nil =>
    rw [show (r.run []).kept = [] from hr]
    refine ⟨nofun, ?_⟩
    rintro ⟨before, q, after, hqs, -⟩
    simp at hqs
  | append_singleton qs q ih =>
    rw [run_append, loaded_concat, ← ih]
    exact mem_kept_step

/-- After a grammar has been dropped, one of another number is kept for its key, if any. -/
theorem next_le_of_dropped (h : r.Tidy) (hk : (key, k) ∈ r.kept) (hq : q.drops k = true)
    {k' : KeptGrammar} (hk' : (key, k') ∈ (r.run (q :: qs)).kept) : (r.step q).next ≤ k'.id := by
  rcases mem_or_next_le_of_mem_kept_run _ qs hk' with hmem | hle
  · rcases mem_kept_step.1 hmem with ⟨hkey, -⟩ | ⟨hmem, hdrops⟩
    · rw [asked?_of_drops hq] at hkey
      cases hkey
    · have hsame := (lookup_eq_some_iff_mem h.nodup).2 hmem
      rw [(lookup_eq_some_iff_mem h.nodup).2 hk] at hsame
      cases hsame
      rw [hq] at hdrops
      cases hdrops
  · exact hle

/-! ### The store -/

section Store

variable {r₀ : Registry} {before between : List Request} {fs fs' : Files} {ls ls' : List Location}
  {k' : KeptGrammar}

/-- A grammar that nothing has dropped is answered again. -/
theorem eq_of_answered? (h : r₀.Tidy) (hr : r₀.kept = [])
    (hasked : (r₀.run before).asked? q = some ((r₀.run (before ++ q :: between)).keyOf ls'))
    (hk : (r₀.run before).answered? q = some k)
    (hk' : (r₀.run (before ++ q :: between)).answered? (.load fs' ls') = some k')
    (hbetween : ∀ p ∈ between, p.drops k = false) : k' = k := by
  have hmem := (mem_kept_run hr).2 ⟨before, q, between, rfl, hasked, hk, hbetween⟩
  rw [answered?_of_mem (h.run _) hmem] at hk'
  exact (Option.some.inj hk').symm

/-- Once a grammar has been dropped, another one is answered, which none before was. -/
theorem id_ne_of_dropped (h : r₀.Tidy) (hk : ((r₀.run (before ++ q :: between)).keyOf ls', k) ∈
      (r₀.run before).kept) (hq : q.drops k = true)
    (hk' : (r₀.run (before ++ q :: between)).answered? (.load fs' ls') = some k') :
    ∀ k'' ∈ r₀.answers before, k''.id ≠ k'.id := by
  intro k'' hk''
  rw [run_append] at hk hk'
  have hlt := h.answers_lt before k'' hk''
  have hle := next_le_step (r₀.run before) q
  rcases answered?_cases hk' with ⟨key, hkey, hmem⟩ | ⟨hid, -⟩
  · obtain rfl := Option.some.inj hkey
    have hge := next_le_of_dropped (h.run before) hk hq hmem
    omega
  · have hge := next_le_run (r₀.run before) (q :: between)
    omega

/-- Where nothing is kept, a grammar is answered that none before was. -/
theorem id_ne_of_not_loaded (h : r₀.Tidy) (hr : r₀.kept = [])
    (hk : (r₀.run qs).answered? (.load fs ls) = some k)
    (hnone : ∀ k', ¬ r₀.Loaded qs ((r₀.run qs).keyOf ls) k') : ∀ k' ∈ r₀.answers qs, k'.id ≠ k.id := by
  intro k' hk'
  have hlt := h.answers_lt qs k' hk'
  rcases answered?_cases hk with ⟨key, hkey, hmem⟩ | ⟨hid, -⟩
  · obtain rfl := Option.some.inj hkey
    exact absurd ((mem_kept_run hr).1 hmem) (hnone k)
  · exact hid ▸ Nat.ne_of_lt hlt

theorem mem_kept_invalidate {e : GrammarKey × KeptGrammar} : e ∈ (r.invalidate ls).2.kept ↔
    e ∈ r.kept ∧ ¬ ∃ l ∈ e.2.grammar.locations, ∃ l' ∈ ls, l.key = l'.key := by
  have huses : (!KeptGrammar.uses e.2 ls) = true ↔
      ¬ ∃ l ∈ e.2.grammar.locations, ∃ l' ∈ ls, l.key = l'.key := by
    rw [Bool.not_eq_true', ← Bool.not_eq_true, KeptGrammar.uses, Array.any_eq_true']
    simp only [List.any_eq_true, Location.same, decide_eq_true_eq]
  rw [invalidate, List.mem_filter, huses]

theorem count_invalidate (r : Registry) (ls : List Location) : (r.invalidate ls).1 =
    (r.kept.filter fun e => KeptGrammar.uses e.2 ls).length := by
  have hcount : (r.invalidate ls).1 =
    r.kept.length - (r.kept.filter fun e => !KeptGrammar.uses e.2 ls).length := rfl
  have hlength := List.length_eq_length_filter_add (l := r.kept) fun e => KeptGrammar.uses e.2 ls
  omega

/-- A request that fails leaves the registry as it was. -/
theorem step_of_answered?_eq_none (h : r.answered? (.load fs ls) = none) :
    r.step (.load fs ls) = r := by
  rw [answered?] at h
  rw [step]
  rcases r.load_cases fs ls with ⟨k, -, hload⟩ | ⟨e, -, hload⟩ | ⟨g, -, hload, -⟩
  · rw [hload] at h
    cases h
  · rw [hload]
  · rw [hload] at h
    cases h

/-- There are as many grammars as keys that have been answered and not dropped since. -/
theorem size_run (h : r₀.Tidy) (hr : r₀.kept = []) (qs : List Request) :
    (r₀.run qs).size = {key | ∃ k, r₀.Loaded qs key k}.ncard := by
  have hkeys : {key | ∃ k, r₀.Loaded qs key k} =
      (((r₀.run qs).kept.map (·.1)).toFinset : Set GrammarKey) := by
    ext key
    rw [Set.mem_ofPred_eq, List.coe_toFinset, Set.mem_ofPred_eq, List.mem_map]
    constructor
    · rintro ⟨k, hk⟩
      exact ⟨(key, k), (mem_kept_run hr).2 hk, rfl⟩
    · rintro ⟨e, he, rfl⟩
      exact ⟨e.2, (mem_kept_run hr).1 he⟩
  rw [hkeys, Set.ncard_coe_finset, List.toFinset_card_of_nodup (h.run qs).nodup, List.length_map,
    size]

end Store

/-- **A registry is a faithful store over whole runs.**  A grammar that has been answered is answered
again to requests for the same locations by the same version; once it has been dropped, one is
answered whose number none before had, as it is where nothing is kept.  Declaring documents changed
forgets the grammars built from them and no others, a request that fails and other settings change
nothing, and there are as many grammars as keys that have been answered and not dropped since. -/
theorem retains_run (limits : Limits) (settings : Settings) (qs : List Request) :
    let r₀ := start limits settings
    let r := r₀.run qs
    (∀ before fs ls between fs' ls' k k', qs = before ++ .load fs ls :: between →
      (r₀.run before).answered? (.load fs ls) = some k → r.answered? (.load fs' ls') = some k' →
      ls.map Location.key = ls'.map Location.key →
      (r₀.run before).settings.schemaVersion.rules = r.settings.schemaVersion.rules →
        ((∀ q ∈ between, q.drops k = false) → k' = k) ∧
          ∀ between₁ q between₂, between = between₁ ++ q :: between₂ →
            (∀ p ∈ between₁, p.drops k = false) → q.drops k = true →
              ∀ k'' ∈ r₀.answers (before ++ .load fs ls :: between₁), k''.id ≠ k'.id) ∧
      (∀ fs ls k, r.answered? (.load fs ls) = some k → (∀ k', ¬ r₀.Loaded qs (r.keyOf ls) k') →
        ∀ k' ∈ r₀.answers qs, k'.id ≠ k.id) ∧
      (∀ ls, (∀ e, e ∈ (r.invalidate ls).2.kept ↔
          e ∈ r.kept ∧ ¬ ∃ l ∈ e.2.grammar.locations, ∃ l' ∈ ls, l.key = l'.key) ∧
        (r.invalidate ls).1 = (r.kept.filter fun e => KeptGrammar.uses e.2 ls).length) ∧
      (∀ fs ls, r.answered? (.load fs ls) = none → r.step (.load fs ls) = r) ∧
      (∀ settings', (r.step (.configure settings')).kept = r.kept) ∧
      r.size = {key | ∃ k, r₀.Loaded qs key k}.ncard := by
  intro r₀ r
  have htidy : r₀.Tidy := tidy_start limits settings
  refine ⟨?_, fun fs ls k hk hnone => id_ne_of_not_loaded htidy rfl hk hnone,
    fun ls => ⟨fun e => mem_kept_invalidate, count_invalidate r ls⟩,
    fun fs ls h => step_of_answered?_eq_none h, fun _ => rfl, size_run htidy rfl qs⟩
  intro before fs ls between fs' ls' k k' hqs hk hk' hlocations hversion
  have hasked : (r₀.run before).asked? (.load fs ls) = some (r.keyOf ls') := by
    rw [asked?, keyOf, keyOf, hlocations, hversion]
  subst hqs
  refine ⟨eq_of_answered? htidy rfl hasked hk hk', ?_⟩
  rintro between₁ q between₂ rfl hfirst hq
  have hmem := (mem_kept_run rfl).2 ⟨before, _, between₁, rfl, hasked, hk, hfirst⟩
  have hassoc : before ++ Request.load fs ls :: (between₁ ++ q :: between₂) =
      before ++ Request.load fs ls :: between₁ ++ q :: between₂ := by simp
  have hrun : r = r₀.run (before ++ Request.load fs ls :: between₁ ++ q :: between₂) :=
    congrArg r₀.run hassoc
  rw [hrun] at hk' hmem
  exact id_ne_of_dropped htidy hmem hq hk'

/-- A document that includes another one. -/
def pairFiles : Files :=
  (({} : Files).write "main.xsd" (.text
    "<schema xmlns='http://www.w3.org/2001/XMLSchema'><include schemaLocation='part.xsd'/></schema>")).write
    "part.xsd" (.text
      "<schema xmlns='http://www.w3.org/2001/XMLSchema'><element name='part'/></schema>")

/-- A grammar of both documents is kept over other settings of the same version, and dropped when the
included document has changed. -/
theorem retains_run_included :
    let r₀ := start {} {}
    let request : Request := .load pairFiles [.path "main.xsd"]
    let settings : Request := .configure { schemaVersion := .v10Extended }
    let change : Request := .invalidate [.path "./part.xsd", .path "part.xsd"]
    ∃ k k', (r₀.run []).answered? request = some k ∧
      (r₀.run [request, settings]).answered? request = some k ∧
      (r₀.run [request, settings, change]).answered? request = some k' ∧ k.id ≠ k'.id := by
  intro r₀ request settings change
  have hfirst : ((r₀.run []).answered? request).isSome = true := by decide +kernel
  have hsecond : ((r₀.run [request, settings]).answered? request).isSome = true := by decide +kernel
  have hthird : ((r₀.run [request, settings, change]).answered? request).isSome = true := by
    decide +kernel
  have hdrops : ((r₀.run []).answered? request).map change.drops = some true := by decide +kernel
  obtain ⟨k, hk⟩ := Option.isSome_iff_exists.1 hfirst
  obtain ⟨k₂, hk₂⟩ := Option.isSome_iff_exists.1 hsecond
  obtain ⟨k', hk'⟩ := Option.isSome_iff_exists.1 hthird
  rw [hk] at hdrops
  obtain ⟨hagain, -⟩ := (retains_run {} {} [request, settings]).1 [] pairFiles [.path "main.xsd"]
    [settings] pairFiles [.path "main.xsd"] k k₂ rfl hk hk₂ rfl rfl
  obtain ⟨-, hfresh⟩ := (retains_run {} {} [request, settings, change]).1 [] pairFiles
    [.path "main.xsd"] [settings, change] pairFiles [.path "main.xsd"] k k' rfl hk hk' rfl rfl
  have hsettings : ∀ q ∈ [settings], q.drops k = false := by simp [settings, Request.drops]
  rw [hagain hsettings] at hk₂
  refine ⟨k, k', hk, hk₂, hk', hfresh [settings] change [] rfl hsettings
    (Option.some.inj hdrops) k ?_⟩
  exact List.mem_append_left _ (Option.mem_toList.2 hk)

end Registry
end SchemaAssist
