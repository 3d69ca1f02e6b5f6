/-
# Only steady trees keep what can be done

A run through a tree that is not steady comes to a group whose particles are steady while its own
occurrences go on with what they begin with (`Node.exists_unsteady`).  If the run kept whatever
could be done, what is left after going on would end the occurrence and leave what may follow one
(`Retains`).  But where something has to follow, going on costs an occurrence, and where nothing has
to, letters are left over.
-/

import SchemaAssist.Proofs.Losses
import SchemaAssist.Proofs.Surroundings

namespace SchemaAssist

open Computability

section Retains

variable {α : Type*} {l k : Language α}

/-- Where a word of `l` can go on with what a word of `k` begins with, the rest of that is an end of
the former and again a word of `k`. -/
def Retains (l k : Language α) : Prop :=
  ∀ u ∈ l, ∀ a v, u ++ a :: v ∈ l → ∀ w, a :: w ∈ k →
    ∃ v', u ++ a :: v' ∈ l ∧ ∃ w' ∈ k, v' ++ w' = w

/-- Going on must not cost a word where one has to follow. -/
theorem Retains.exists_blank (h : Retains l k) (hk : Around l k) (hcostly : [] ∉ l → Costly l) :
    ∃ w ∈ k, Blank (letters l) w := by
  by_contra hnone
  have hled : ∀ w ∈ k, ∃ u w', u ∈ l ∧ u ≠ [] ∧ w = u ++ w' ∧ ∀ u' ∈ l, u' ++ w' ∈ k :=
    fun w hw => (hk.led w hw).resolve_left fun hblank => hnone ⟨w, hw, hblank⟩
  have hnil : [] ∉ l := by
    intro hnil
    obtain ⟨w, hw, hleast⟩ := exists_lightest (fun _ => 1) hk.nonempty
    obtain ⟨u, w', -, hne, rfl, hother⟩ := hled w hw
    -- without its first word it would be a lighter one
    have hle := hleast w' (hother [] hnil)
    obtain ⟨a, u, rfl⟩ := List.exists_cons_of_ne_nil hne
    rw [weight_append, weight_cons] at hle
    omega
  obtain ⟨ω, hω, a, z, ⟨u, hu, v, hv⟩, hz, hlight⟩ := hcostly hnil
  obtain ⟨w, hw, hleast⟩ := exists_lightest ω hk.nonempty
  obtain ⟨t, w', ht, -, rfl, hother⟩ := hled w hw
  obtain ⟨v', -, w'', hw'', heq⟩ := h u hu a v hv (z ++ w') (hother _ hz)
  have hpos := hω a
  have hlight := hlight t ht
  have hle := hleast w'' hw''
  have hsum := congrArg (weight ω) heq
  rw [weight_append, weight_append] at hsum
  rw [weight_append] at hle
  rw [weight_cons] at hlight
  omega

/-- Going on must not waste letters where nothing has to follow. -/
theorem Retains.not_wasteful (h : Retains l k) (hk : Around l k) {w : List α}
    (hblank : Blank (letters l) w) (hw : ∀ u ∈ l, u ++ w ∈ k) : ¬ Wasteful l := by
  rintro ⟨u, a, z, hu, ⟨v, hv⟩, hz, hwaste⟩
  obtain ⟨v', hv', w', hw', heq⟩ := h u hu a v hv (z ++ w) (hw _ hz)
  obtain ⟨x, y, hx, hy, rfl⟩ := hk.parts w' hw'
  have hrest : ∀ b ∈ v' ++ x, b ∈ letters l := by
    intro b hb
    rcases List.mem_append.1 hb with hb | hb
    · exact ⟨_, hv', by simp [hb]⟩
    · exact letters_kstar_subset ⟨x, hx, hb⟩
  have hz' : ∀ b ∈ z, b ∈ letters l := fun b hb => ⟨_, hz, List.mem_cons_of_mem a hb⟩
  rw [← List.append_assoc] at heq
  exact hwaste v' hv' x hx (Blank.append_inj hrest hz' hy hblank heq)

end Retains

namespace Occurs

variable {α : Type*} {o : Occurs} {l : Language α}

/-- Where one word is enough and more are allowed, one more may follow. -/
theorem le_further_one (ho : o.Valid) (hmultiple : o.multiple = true)
    (h : o.min ≤ 1 ∨ [] ∈ l) : l ≤ o.further 1 l := by
  intro w hw
  obtain ⟨k, hk⟩ := ho.exists_allows_of_multiple hmultiple
  rcases h with hmin | hnil
  · refine ⟨1, ⟨by omega, Occurs.Within.mono hk.2 (by omega)⟩, ?_⟩
    rwa [pow_one]
  · refine ⟨k + 1, by rwa [Nat.add_comm 1, Nat.add_assoc], ?_⟩
    exact pow_mono_of_nil_mem hnil (Nat.le_add_left 1 k) (by rwa [pow_one])

end Occurs

namespace ContentModel
namespace Node

variable {n : Node} {o : Occurs} {c : Compositor} {cs : List Node} {x : List Letter}
  {k : Language Letter}

/-- What a word begins with leads to a state that leaves its end. -/
def Keeps (n : Node) : Prop :=
  ∀ u v st, u ++ v ∈ n.words → along n.step .fresh u = some st → v ∈ n.rest st

/-- A group with steady particles inside a tree that keeps what can be done retains what may follow
one of its occurrences. -/
theorem Keeps.retains (h : n.Keeps) (hn : (group o c cs).Proper) (hmax : o.never = false)
    (hsteady : ∀ m ∈ cs, m.Steady)
    (hseparate : Separate (Letter.Contests .v10) (group o c cs).occurrence)
    (hsurrounds : Surrounds n (group o c cs) x k) :
    Retains (group o c cs).occurrence (o.further 1 (group o c cs).occurrence * k) := by
  intro u hu a v hv w hw
  have hone := hn.ordered.valid.within_one hmax
  obtain ⟨z, hz⟩ := Occurs.nonempty_further hn.ordered.valid hone hn.exists_mem_occurrence
  obtain ⟨b, y, hy⟩ := List.exists_cons_of_ne_nil (show u ++ [a] ≠ [] by simp)
  have huv : b :: y ++ v ∈ (group o c cs).occurrence := by
    rw [← hy]
    simpa using hv
  obtain ⟨st, hrun, -, hcount, hinside⟩ := exists_along_inside hn hmax hsteady hseparate huv
  have hword : b :: y ++ (v ++ z) ∈ (group o c cs).words := by
    rw [← List.append_assoc]
    exact append_mem_words huv hz
  obtain ⟨st', hrun', hrest⟩ := hsurrounds.run _ _ st (List.cons_ne_nil b y) hword hrun
  have hfollowed : x ++ (b :: y) ++ w ∈ n.words := by
    obtain ⟨f, hf, g, hg, hfg⟩ := Language.mem_mul.1 hw
    have hwords := Language.append_mem_mul (append_mem_words hu hf) hg
    have h := hsurrounds.words _ hwords
    rw [List.append_assoc u, hfg] at h
    rw [← hy]
    simpa using h
  have hleft := hrest _ (h _ _ st' hfollowed hrun')
  rw [rest, hcount, mul_assoc] at hleft
  obtain ⟨v', hv', w', hw', rfl⟩ := Language.mem_mul.1 hleft
  have hend := hinside v' hv'
  rw [← hy] at hend
  exact ⟨v', by simpa using hend, w', hw', rfl⟩

/-- The first of several trees that is not steady. -/
theorem exists_first_unsteady (h : ¬ ∀ m ∈ cs, m.Steady) :
    ∃ ds d es, cs = ds ++ d :: es ∧ (∀ m ∈ ds, m.Steady) ∧ ¬ d.Steady := by
  induction cs with
  | nil => exact absurd nofun h
  | cons d cs ih =>
    by_cases hd : d.Steady
    · obtain ⟨ds, d', es, rfl, hds, hd'⟩ := ih fun hcs => h (List.forall_mem_cons.2 ⟨hd, hcs⟩)
      exact ⟨d :: ds, d', es, rfl, List.forall_mem_cons.2 ⟨hd, hds⟩, hd'⟩
    · exact ⟨[], d, cs, rfl, nofun, hd⟩

theorem Surrounds.nonempty {m : Node} (h : Surrounds n m x k) (hm : m.Proper) : ∃ w, w ∈ k := by
  have hnone : letters (0 : Language Letter) = ∅ :=
    Set.eq_empty_of_forall_notMem fun a ⟨w, hw, _⟩ => Language.notMem_zero w hw
  refine (h.around 0 (hnone ▸ Set.empty_subset _) ?_).1.nonempty
  exact .of_disjoint hm.exists_mem_words (hnone ▸ Set.empty_disjoint _)

/-- A tree that is not steady surrounds a group that is not while its particles are. -/
theorem exists_unsteady (hn : n.Proper) (hranked : n.Ranked) (hmax : n.occurs.never = false)
    (h : Separate (Letter.Contests .v10) n.words) (hsteady : ¬ n.Steady) :
    ∃ o c cs x k, Surrounds n (group o c cs) x k ∧ (group o c cs).Proper ∧
      (group o c cs).Ranked ∧ o.never = false ∧
      Separate (Letter.Contests .v10) (group o c cs).words ∧ (∀ m ∈ cs, m.Steady) ∧
      ¬ (group o c cs).Steady := by
  induction n using Node.induct with
  | leaf n s hs => exact absurd (by cases n <;> cases hs <;> exact trivial) hsteady
  | group o c cs ih =>
    by_cases hcs : ∀ m ∈ cs, m.Steady
    · exact ⟨o, c, cs, [], 1, .refl _, hn, hranked, hmax, h, hcs, hsteady⟩
    obtain ⟨ds, d, es, rfl, hds, hd⟩ := exists_first_unsteady hcs
    have hmem : d ∈ ds ++ d :: es := by simp
    have hterm := h.of_words hn.ordered.valid hmax hn.exists_mem_occurrence
    obtain ⟨heach, -⟩ := Separate.of_combine hn.exists_mem_of_mem_wordsOf hterm
    rw [wordsOf_eq, List.forall_mem_map] at heach
    obtain ⟨o', c', cs', y, k, hsurrounds, hproper, hrest⟩ := ih d hmem (hn.of_mem hmem)
      (hranked.of_mem hmem) (hn.trimmed.never_eq_false hmem) (heach d hmem) hd
    have hk := hsurrounds.nonempty hproper
    cases c with
    | sequence =>
      obtain ⟨x, houter⟩ := surrounds_sequence hn hmax hds h
      exact ⟨o', c', cs', _, _, houter.trans hsurrounds hk, hproper, hrest⟩
    | choice =>
      have houter := surrounds_choice hn hmax h
      exact ⟨o', c', cs', _, _, houter.trans hsurrounds hk, hproper, hrest⟩
    | all => exact absurd rfl hranked.ne_all

/-- **An unambiguous tree without unordered groups that keeps what can be done is steady.** -/
theorem Keeps.steady (h : n.Keeps) (hn : n.Proper) (hranked : n.Ranked)
    (hmax : n.occurs.never = false) (hseparate : Separate (Letter.Contests .v10) n.words) :
    n.Steady := by
  by_contra hunsteady
  obtain ⟨o, c, cs, x, k, hsurrounds, hn, hranked, hmax, hseparate, hcs, hbad⟩ :=
    exists_unsteady hn hranked hmax hseparate hunsteady
  rw [Steady, steadyEach_iff, not_and] at hbad
  obtain ⟨hmultiple, hbad⟩ := Classical.not_imp.1 (hbad hcs)
  rw [not_or] at hbad
  obtain ⟨hgoes, hbad⟩ := hbad
  have hretains := h.retains hn hmax hcs
    (hseparate.of_words hn.ordered.valid hmax hn.exists_mem_occurrence) hsurrounds
  have hone := hn.ordered.valid.within_one hmax
  have hself : Around (group o c cs).occurrence (group o c cs).occurrence :=
    .self hn.exists_mem_occurrence
  have hfurther := hself.further
    (Occurs.nonempty_further hn.ordered.valid hone hn.exists_mem_occurrence)
  have hletters : letters (group o c cs).occurrence ⊆ letters (group o c cs).words := by
    rintro a ⟨w, hw, ha⟩
    obtain ⟨z, hz⟩ := hfurther.nonempty
    exact ⟨w ++ z, append_mem_words hw hz, List.mem_append_left z ha⟩
  have haround := hfurther.mul (hsurrounds.around _ hletters (hself.words hn.ordered.valid)).1
  obtain ⟨w, hw, hblank⟩ := hretains.exists_blank haround fun hnil =>
    costly_occurrence hn hranked hnil hgoes
  -- nothing has to follow the group, so one occurrence is enough
  obtain ⟨f, hf, z, hz, rfl⟩ := Language.mem_mul.1 hw
  obtain rfl : f = [] := by
    obtain ⟨j, -, hf⟩ := hf
    cases f with
    | nil => rfl
    | cons a f =>
      have ha : a ∈ letters (group o c cs).occurrence := letters_kstar_subset
        ⟨_, mem_kstar_of_mem_pow hf, List.mem_cons_self⟩
      exact absurd ha (hblank a _ rfl)
  have hnil := (Occurs.nil_mem_further hn.ordered.valid hone).1 hf
  have heach : ¬ AbsorbentEach c cs := fun heach =>
    hbad ⟨(onceIsEnough_iff hn.ordered).2 hnil, heach⟩
  refine hretains.not_wasteful haround hblank (fun u hu => ?_) ?_
  · exact Language.append_mem_mul (Occurs.le_further_one hn.ordered.valid hmultiple hnil hu) hz
  · refine wasteful_occurrence hn hranked.ne_all (fun m hm => ?_) heach
    exact wasteful_words (hn.of_mem hm) (hn.trimmed.never_eq_false hm) (hranked.of_mem hm)
      (hcs m hm)

end Node
end ContentModel
end SchemaAssist
