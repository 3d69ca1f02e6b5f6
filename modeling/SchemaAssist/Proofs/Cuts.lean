/-
# Texts that are cut

A piece of markup is read up to its end, and what follows it makes no difference
(`exists_taken_of_lexeme`); a syntax error stays one when the text ends earlier
(`lexeme_of_append`).  So a text that ends at a place outside all markup has the tags that the
whole text has before that place, at the same offsets (`eventsFrom_append`).
-/

import SchemaAssist.Document.Event

namespace SchemaAssist
namespace Document

open Text

/-! ### Numbers of bytes -/

theorem byteLength_append (cs ds : List Char) :
    byteLength (cs ++ ds) = byteLength cs + byteLength ds := by
  induction cs with
  | nil => exact (Nat.zero_add _).symm
  | cons c cs ih => rw [List.cons_append, byteLength, byteLength, ih, Nat.add_assoc]

theorem byteLength_cons_pos (c : Char) (cs : List Char) : 0 < byteLength (c :: cs) :=
  Nat.lt_of_lt_of_le c.utf8Size_pos (Nat.le_add_right _ _)

theorem eq_nil_of_byteLength {cs : List Char} (h : byteLength cs = 0) : cs = [] := by
  cases cs with
  | nil => rfl
  | cons c cs => exact absurd h (Nat.ne_of_gt (byteLength_cons_pos c cs))

theorem byteLength_toList (s : String) : byteLength s.toList = s.utf8ByteSize := by
  suffices ∀ cs, byteLength cs = (String.ofList cs).utf8ByteSize by rw [this, String.ofList_toList]
  intro cs
  induction cs with
  | nil => rfl
  | cons c cs ih =>
    rw [byteLength, ih, ← List.singleton_append, String.ofList_append, String.utf8ByteSize_append,
      ← String.singleton_eq_ofList, String.utf8ByteSize_singleton]

/-- Of two ends of a text the longer one ends with the other. -/
theorem exists_append_of_suffix {bs as rest : List Char} (h : rest <:+ bs ++ as)
    (hlength : byteLength as ≤ byteLength rest) : ∃ rest', rest = rest' ++ as := by
  rcases List.suffix_or_suffix_of_suffix h (List.suffix_append bs as) with ⟨t, ht⟩ | ⟨t, ht⟩
  · have hempty : byteLength t = 0 := by
      have := congrArg byteLength ht
      rw [byteLength_append] at this
      omega
    rw [eq_nil_of_byteLength hempty, List.nil_append] at ht
    exact ⟨[], ht⟩
  · exact ⟨t, ht.symm⟩

/-! ### What is taken by a piece of markup -/

theorem cutList_of_taken {mark : Char} {cs before rest : List Char}
    (h : cutList mark cs = some (before, rest)) :
    cs = before ++ mark :: rest ∧
      ∀ rest', cutList mark (before ++ mark :: rest') = some (before, rest') := by
  obtain ⟨hcs, hmark⟩ := cutList_eq_some_iff.1 h
  exact ⟨hcs, fun rest' => cutList_eq_some_iff.2 ⟨rfl, hmark⟩⟩

theorem cutTag_of_taken {quote : Option Char} {cs tag rest : List Char}
    (h : cutTag quote cs = some (tag, rest)) :
    cs = tag ++ '>' :: rest ∧
      ∀ rest', cutTag quote (tag ++ '>' :: rest') = some (tag, rest') := by
  fun_induction cutTag quote cs generalizing tag with
  | case1 => cases h
  | case2 =>
    cases h
    exact ⟨rfl, fun _ => rfl⟩
  | case3 c cs hc ih =>
    obtain ⟨⟨t, r⟩, ht, he⟩ := Option.map_eq_some_iff.1 h
    cases he
    obtain ⟨hcs, hread⟩ := ih ht
    refine ⟨congrArg (c :: ·) hcs, fun rest' => ?_⟩
    rw [List.cons_append, cutTag, if_neg hc, hread]
    rfl
  | case4 q c cs ih =>
    obtain ⟨⟨t, r⟩, ht, he⟩ := Option.map_eq_some_iff.1 h
    cases he
    obtain ⟨hcs, hread⟩ := ih ht
    refine ⟨congrArg (c :: ·) hcs, fun rest' => ?_⟩
    rw [List.cons_append, cutTag, hread]
    rfl

theorem cutBalanced_of_taken {depth : Nat} {cs inside rest : List Char}
    (h : cutBalanced depth cs = some (inside, rest)) :
    cs = inside ++ '>' :: rest ∧
      ∀ rest', cutBalanced depth (inside ++ '>' :: rest') = some (inside, rest') := by
  induction cs generalizing depth inside with
  | nil => cases h
  | cons c cs ih =>
    rw [cutBalanced] at h
    split at h
    · next hend =>
      cases h
      obtain ⟨rfl, rfl⟩ := hend
      exact ⟨rfl, fun _ => rfl⟩
    · next hend =>
      obtain ⟨⟨t, r⟩, ht, he⟩ := Option.map_eq_some_iff.1 h
      cases he
      obtain ⟨hcs, hread⟩ := ih ht
      refine ⟨congrArg (c :: ·) hcs, fun rest' => ?_⟩
      rw [List.cons_append, cutBalanced, if_neg hend]
      exact congrArg (Option.map _) (hread rest')

/-- What is taken up to a mark holds the whole mark, so that no longer text has the mark earlier. -/
theorem exists_taken_of_afterMark {mark cs rest : List Char} (hmark : mark ≠ [])
    (h : afterMark mark cs = some rest) :
    ∃ taken, mark.length ≤ taken.length ∧ cs = taken ++ rest ∧
      ∀ rest', afterMark mark (taken ++ rest') = some rest' := by
  induction cs with
  | nil => cases h
  | cons c cs ih =>
    rw [afterMark] at h
    split at h
    · next hprefix =>
      obtain ⟨after, hafter⟩ := List.isPrefixOf_iff_prefix.1 hprefix
      cases h
      refine ⟨mark, Nat.le_refl _, ?_, fun rest' => ?_⟩
      · rw [← hafter, List.drop_left]
      · obtain ⟨d, ds, rfl⟩ := List.exists_cons_of_ne_nil hmark
        have hself : (d :: ds).isPrefixOf (d :: (ds ++ rest')) = true :=
          List.isPrefixOf_iff_prefix.2 (List.prefix_append (d :: ds) rest')
        rw [List.cons_append, afterMark, if_pos hself]
        exact congrArg some List.drop_left
    · next hprefix =>
      obtain ⟨taken, hlength, hcs, hread⟩ := ih h
      refine ⟨c :: taken, Nat.le_succ_of_le hlength, congrArg (c :: ·) hcs, fun rest' => ?_⟩
      have hnot : ¬ mark.isPrefixOf (c :: (taken ++ rest')) = true := by
        intro hlonger
        have hshort : mark <+: c :: taken :=
          List.prefix_of_prefix_length_le (List.isPrefixOf_iff_prefix.1 hlonger)
            (List.prefix_append (c :: taken) rest') (Nat.le_succ_of_le hlength)
        exact hprefix (List.isPrefixOf_iff_prefix.2
          (hcs ▸ hshort.trans (List.prefix_append (c :: taken) rest)))
      rw [List.cons_append, afterMark, if_neg hnot, hread]

theorem afterWord_of_taken {word cs rest : List Char} (h : afterWord word cs = some rest) :
    ∃ taken, cs = taken ++ rest ∧ taken.map Char.toUpper = word ∧
      ∀ rest', afterWord word (taken ++ rest') = some rest' := by
  rw [afterWord] at h
  split at h
  · next hword =>
    cases h
    refine ⟨cs.take word.length, (List.take_append_drop _ _).symm, hword, fun rest' => ?_⟩
    have hlength : (cs.take word.length).length = word.length := by
      have := congrArg List.length hword
      rwa [List.length_map] at this
    rw [afterWord, List.take_left' hlength, List.drop_left' hlength, if_pos hword]
  · cases h

/-- A bracket is no small letter's capital. -/
theorem eq_of_toUpper_eq_bracket {c : Char} (h : c.toUpper = '[') : c = '[' := by
  delta Char.toUpper at h
  split at h
  · next hsmall =>
    have hval : c.val = '['.val - ('A'.val - 'a'.val) := by
      rw [← congrArg Char.val h, UInt32.add_sub_cancel]
    rw [hval] at hsmall
    exact absurd hsmall.2 (by decide)
  · exact h

theorem exists_taken_of_afterDeclaration {cs rest : List Char}
    (h : afterDeclaration cs = some rest) :
    ∃ taken, cs = taken ++ rest ∧ ∀ rest', afterDeclaration (taken ++ rest') = some rest' := by
  unfold afterDeclaration at h
  split at h
  · obtain ⟨taken, -, hcs, hread⟩ := exists_taken_of_afterMark (by decide) h
    exact ⟨'-' :: '-' :: taken, congrArg (['-', '-'] ++ ·) hcs, hread⟩
  · obtain ⟨r, hr, hmark⟩ := Option.bind_eq_some_iff.1 h
    obtain ⟨word, hcs, hword, hread⟩ := afterWord_of_taken hr
    obtain ⟨taken, -, rfl, hread'⟩ := exists_taken_of_afterMark (by decide) hmark
    have hletters : "[CDATA[".toList = '[' :: "CDATA[".toList := by decide
    obtain ⟨b, letters, rfl, hb, -⟩ := List.map_eq_cons_iff.1 (hword.trans hletters)
    obtain rfl : b = '[' := eq_of_toUpper_eq_bracket hb
    refine ⟨'[' :: letters ++ taken, hcs.trans (List.append_assoc ..).symm, fun rest' => ?_⟩
    rw [List.append_assoc, List.cons_append, afterDeclaration, ← List.cons_append, hread]
    exact hread' rest'
  · obtain ⟨r, hr, hinside⟩ := Option.bind_eq_some_iff.1 h
    obtain ⟨⟨inside, r'⟩, hr', hend⟩ := Option.bind_eq_some_iff.1 hinside
    obtain ⟨word, hcs, hword, hread⟩ := afterWord_of_taken hr
    obtain ⟨rfl, hread'⟩ := cutBalanced_of_taken hr'
    have hletters : "DOCTYPE".toList = 'D' :: "OCTYPE".toList := by decide
    obtain ⟨d, letters, rfl, hd, -⟩ := List.map_eq_cons_iff.1 (hword.trans hletters)
    dsimp only at hend
    split at hend <;> cases hend
    next hblank =>
    refine ⟨d :: letters ++ inside ++ ['>'], ?_, fun rest' => ?_⟩
    · rw [hcs, List.append_assoc, List.append_assoc]
      rfl
    · have htext : d :: letters ++ inside ++ ['>'] ++ rest' =
          d :: (letters ++ (inside ++ '>' :: rest')) := by simp
      have hafter : afterWord "DOCTYPE".toList (d :: (letters ++ (inside ++ '>' :: rest'))) =
          some (inside ++ '>' :: rest') := hread _
      rw [htext, afterDeclaration, hafter, Option.bind_some, hread', Option.bind_some]
      · exact if_neg hblank
      · rintro ds hds
        obtain rfl : d = '-' := (List.cons.inj hds).1
        exact absurd hd (by decide)
      · rintro ds hds
        obtain rfl : d = '[' := (List.cons.inj hds).1
        exact absurd hd (by decide)

theorem exists_taken_of_afterInstruction {cs rest : List Char}
    (h : afterInstruction cs = some rest) :
    ∃ taken, cs = taken ++ rest ∧ ∀ rest', afterInstruction (taken ++ rest') = some rest' := by
  obtain ⟨⟨inside, r⟩, hr, hend⟩ := Option.bind_eq_some_iff.1 h
  obtain ⟨rfl, hread⟩ := cutList_of_taken hr
  dsimp only at hend
  split at hend <;> cases hend
  next hmark =>
  refine ⟨inside ++ ['>'], by simp, fun rest' => ?_⟩
  rw [List.append_assoc, List.singleton_append, afterInstruction, hread]
  exact if_pos hmark

/-- What a piece of markup is does not depend on what follows it. -/
theorem exists_taken_of_lexeme {first : Nat} {cs rest : List Char} {event : Option Event}
    (h : lexeme first cs = (event, some rest)) :
    ∃ taken, taken ≠ [] ∧ cs = taken ++ rest ∧
      ∀ rest', lexeme first (taken ++ rest') = (event, some rest') := by
  unfold lexeme at h
  split at h
  · cases h
  · obtain ⟨rfl, hrest⟩ := Prod.mk.inj h
    obtain ⟨taken, rfl, hread⟩ := exists_taken_of_afterDeclaration hrest
    exact ⟨'!' :: taken, nofun, rfl, fun rest' => congrArg (Prod.mk none) (hread rest')⟩
  · obtain ⟨rfl, hrest⟩ := Prod.mk.inj h
    obtain ⟨taken, rfl, hread⟩ := exists_taken_of_afterInstruction hrest
    exact ⟨'?' :: taken, nofun, rfl, fun rest' => congrArg (Prod.mk none) (hread rest')⟩
  · split at h
    · next name r hname =>
      cases h
      obtain ⟨rfl, hread⟩ := cutList_of_taken hname
      refine ⟨'/' :: (name ++ ['>']), nofun, by simp, fun rest' => ?_⟩
      rw [List.cons_append, List.append_assoc, List.singleton_append, lexeme, hread]
    · cases h
  · next c cs hdeclaration hinstruction hslash =>
    dsimp only at h
    split at h
    · next tag r htag =>
      cases h
      obtain ⟨hcs, hread⟩ := cutTag_of_taken htag
      obtain ⟨taken, htaken⟩ : ∃ taken, tag ++ ['>'] = c :: taken := by
        cases tag with
        | nil =>
          obtain ⟨rfl, -⟩ := List.cons.inj hcs
          exact ⟨[], rfl⟩
        | cons d ds =>
          obtain ⟨rfl, -⟩ := List.cons.inj hcs
          exact ⟨ds ++ ['>'], rfl⟩
      refine ⟨c :: taken, nofun, by simp [hcs, ← htaken], fun rest' => ?_⟩
      have hread' : cutTag none (c :: (taken ++ rest')) = some (tag, rest') := by
        rw [← List.cons_append, ← htaken, List.append_assoc]
        exact hread rest'
      rw [List.cons_append, lexeme, hread'] <;> assumption
    · cases h

/-- Only a declaration, an instruction or the end of the text is no tag. -/
theorem lexeme_fst_eq_none_iff {first : Nat} {cs : List Char} :
    (lexeme first cs).1 = none ↔ ∀ c ∈ cs.head?, c = '!' ∨ c = '?' := by
  unfold lexeme
  split
  · simp
  · simp
  · simp
  · split <;> simp
  · next c cs hdeclaration hinstruction _ =>
    have hc : ¬ (c = '!' ∨ c = '?') := by
      rintro (rfl | rfl)
      · exact hdeclaration rfl
      · exact hinstruction rfl
    dsimp only
    split <;> simp [hc]

/-- A syntax error stays one when the text ends earlier. -/
theorem lexeme_of_append {first : Nat} {cs more : List Char}
    (h : lexeme first (cs ++ more) = (none, none)) : lexeme first cs = (none, none) := by
  have hhead : ∀ c ∈ cs.head?, c = '!' ∨ c = '?' := by
    intro c hc
    refine lexeme_fst_eq_none_iff.1 (congrArg Prod.fst h) c ?_
    cases cs with
    | nil => cases hc
    | cons d ds => exact hc
  refine Prod.ext (lexeme_fst_eq_none_iff.2 hhead) (Option.eq_none_iff_forall_ne_some.2 ?_)
  intro rest hrest
  obtain ⟨taken, -, hcs, hread⟩ := exists_taken_of_lexeme (Prod.ext rfl hrest)
  rw [hcs, List.append_assoc, hread] at h
  cases (Prod.mk.inj h).2

/-- A tag starts with its opening bracket and ends where the text is read on, or else in the text. -/
theorem bounds_of_lexeme {first : Nat} {cs : List Char} {e : Event} {rest? : Option (List Char)}
    (h : lexeme first cs = (some e, rest?)) :
    e.first = first ∧ first < e.stop ∧
      e.stop + byteLength (rest?.getD []) ≤ first + 1 + byteLength cs := by
  have hslash : ('/' : Char).utf8Size = 1 := by decide
  have hbracket : ('>' : Char).utf8Size = 1 := by decide
  unfold lexeme at h
  split at h
  · cases h
  · cases h
  · cases h
  · split at h
    · next name rest hname =>
      cases h
      refine ⟨rfl, ?_⟩
      rw [(cutList_of_taken hname).1]
      simp only [Event.stop, byteLength, byteLength_append, Option.getD_some]
      omega
    · cases h
      refine ⟨rfl, ?_⟩
      simp only [Event.stop, byteLength, Option.getD_none]
      omega
  · dsimp only at h
    split at h
    · next tag rest htag =>
      cases h
      rw [(cutTag_of_taken htag).1]
      split <;>
      · refine ⟨rfl, ?_⟩
        simp only [Event.stop, byteLength, byteLength_append, Option.getD_some]
        omega
    · cases h
      split <;>
      · refine ⟨rfl, ?_⟩
        simp only [Event.stop, byteLength, Option.getD_none]
        omega

/-! ### The tags of a text and its markup -/

section

variable {total : Nat} {cs before rest : List Char} {event : Option Event}

theorem eventsFrom_eq (total : Nat) (cs : List Char) :
    eventsFrom total cs =
      match cutList '<' cs with
      | none => []
      | some (_, rest) =>
        match lexeme (total - byteLength rest - 1) rest with
        | (event, none) => event.toList
        | (event, some rest') => event.toList ++ eventsFrom total rest' := by
  rw [eventsFrom]
  split
  · next hopen => rw [hopen]
  · next hopen =>
    simp only [hopen]
    split
    · next hlexeme => rw [hlexeme]
    · next hlexeme => rw [hlexeme]

theorem eventsFrom_of_last (hopen : cutList '<' cs = some (before, rest))
    (hlexeme : lexeme (total - byteLength rest - 1) rest = (event, none)) :
    eventsFrom total cs = event.toList := by
  rw [eventsFrom_eq, hopen]
  dsimp only
  rw [hlexeme]

theorem eventsFrom_of_next {rest' : List Char} (hopen : cutList '<' cs = some (before, rest))
    (hlexeme : lexeme (total - byteLength rest - 1) rest = (event, some rest')) :
    eventsFrom total cs = event.toList ++ eventsFrom total rest' := by
  rw [eventsFrom_eq, hopen]
  dsimp only
  rw [hlexeme]

/-- Text in front of the first opening bracket makes no difference. -/
theorem eventsFrom_append_of_not_mem {as bs : List Char} (hbs : '<' ∉ bs) :
    eventsFrom total (bs ++ as) = eventsFrom total as := by
  cases has : cutList '<' as with
  | none =>
    have hboth : cutList '<' (bs ++ as) = none := by
      rw [cutList_eq_none_iff] at has ⊢
      simp [hbs, has]
    rw [eventsFrom_eq, eventsFrom_eq total as, has, hboth]
  | some cut =>
    obtain ⟨before, rest⟩ := cut
    obtain ⟨rfl, hbefore⟩ := cutList_eq_some_iff.1 has
    have hboth : cutList '<' (bs ++ (before ++ '<' :: rest)) = some (bs ++ before, rest) :=
      cutList_eq_some_iff.2 ⟨(List.append_assoc ..).symm, by simp [hbs, hbefore]⟩
    rw [eventsFrom_eq, eventsFrom_eq total (before ++ _), has, hboth]

/-- A tag of the end of a text lies in it. -/
theorem bounds_of_mem_eventsFrom (hcs : byteLength cs ≤ total) {e : Event}
    (he : e ∈ eventsFrom total cs) :
    total - byteLength cs ≤ e.first ∧ e.first < e.stop ∧ e.stop ≤ total := by
  have hbracket : ('<' : Char).utf8Size = 1 := by decide
  fun_induction eventsFrom total cs with
  | case1 => cases he
  | case2 cs before rest hopen event hlexeme =>
    obtain ⟨rfl, -⟩ := cutList_eq_some_iff.1 hopen
    obtain rfl := Option.mem_toList.1 he
    obtain ⟨hfirst, hstop, hend⟩ := bounds_of_lexeme hlexeme
    simp only [byteLength_append, byteLength, Option.getD_none] at hcs hfirst hstop hend ⊢
    omega
  | case3 cs before rest hopen event rest' hlexeme hlength ih =>
    obtain ⟨rfl, -⟩ := cutList_eq_some_iff.1 hopen
    obtain ⟨taken, -, rfl, -⟩ := exists_taken_of_lexeme hlexeme
    simp only [byteLength_append, byteLength] at hcs ⊢
    rcases List.mem_append.1 he with he | he
    · obtain rfl := Option.mem_toList.1 he
      obtain ⟨hfirst, hstop, hend⟩ := bounds_of_lexeme hlexeme
      simp only [byteLength_append, Option.getD_some] at hfirst hstop hend
      omega
    · obtain ⟨hfirst, hstop⟩ := ih (by omega) he
      omega

/-- The bytes that the markup of the part `cs` at the end of a text of `total` bytes takes up: of
each tag, comment, section of character data, processing instruction and document type declaration,
up to the first syntax error.  A tag that does not end takes the rest of the text. -/
def markupFrom (total : Nat) (cs : List Char) : List (Nat × Nat) :=
  match hopen : Text.cutList '<' cs with
  | none => []
  | some (_, rest) =>
    match hlexeme : lexeme (total - byteLength rest - 1) rest with
    | (none, none) => []
    | (some _, none) => [(total - byteLength rest - 1, total)]
    | (_, some rest') =>
      have : rest'.length < cs.length :=
        Nat.lt_of_le_of_lt (suffix_of_lexeme hlexeme).length_le (length_lt_of_cutList hopen)
      (total - byteLength rest - 1, total - byteLength rest') :: markupFrom total rest'
termination_by cs.length

theorem markupFrom_eq (total : Nat) (cs : List Char) :
    markupFrom total cs =
      match cutList '<' cs with
      | none => []
      | some (_, rest) =>
        match lexeme (total - byteLength rest - 1) rest with
        | (none, none) => []
        | (some _, none) => [(total - byteLength rest - 1, total)]
        | (_, some rest') =>
          (total - byteLength rest - 1, total - byteLength rest') :: markupFrom total rest' := by
  rw [markupFrom]
  split
  · next hopen => rw [hopen]
  · next hopen =>
    simp only [hopen]
    split
    · next hlexeme => rw [hlexeme]
    · next hlexeme => rw [hlexeme]
    · next event _ hlexeme =>
      rw [hlexeme]
      cases event <;> rfl

theorem markupFrom_of_last {e : Event} (hopen : cutList '<' cs = some (before, rest))
    (hlexeme : lexeme (total - byteLength rest - 1) rest = (some e, none)) :
    markupFrom total cs = [(total - byteLength rest - 1, total)] := by
  rw [markupFrom_eq, hopen]
  dsimp only
  rw [hlexeme]

theorem markupFrom_of_next {rest' : List Char} (hopen : cutList '<' cs = some (before, rest))
    (hlexeme : lexeme (total - byteLength rest - 1) rest = (event, some rest')) :
    markupFrom total cs =
      (total - byteLength rest - 1, total - byteLength rest') :: markupFrom total rest' := by
  rw [markupFrom_eq, hopen]
  dsimp only
  rw [hlexeme]
  cases event <;> rfl

/-- A place in a text is outside some pieces of markup: none starts before it and ends after it. -/
def Outside (offset : Nat) (spans : List (Nat × Nat)) : Prop :=
  ∀ s ∈ spans, offset ≤ s.1 ∨ s.2 ≤ offset

instance (offset : Nat) (spans : List (Nat × Nat)) : Decidable (Outside offset spans) :=
  inferInstanceAs (Decidable (∀ s ∈ spans, _))

end

/-- **A text that ends outside all markup has the tags that the whole text has up to there.**  What
follows has its own tags in the whole text, unless reading ends before it. -/
theorem eventsFrom_append {total : Nat} {bs as : List Char}
    (htotal : byteLength (bs ++ as) ≤ total)
    (hcut : Outside (total - byteLength as) (markupFrom total (bs ++ as))) :
    eventsFrom total (bs ++ as) = eventsFrom (total - byteLength as) bs ∨
      eventsFrom total (bs ++ as) = eventsFrom (total - byteLength as) bs ++ eventsFrom total as := by
  have hbracket : ('<' : Char).utf8Size = 1 := by decide
  induction hlength : bs.length using Nat.strongRecOn generalizing bs with
  | _ length ih =>
  subst hlength
  cases hbs : cutList '<' bs with
  | none =>
    right
    rw [eventsFrom_append_of_not_mem (cutList_eq_none_iff.1 hbs), eventsFrom_eq _ bs, hbs]
    rfl
  | some cut =>
    obtain ⟨before, rest⟩ := cut
    obtain ⟨rfl, hbefore⟩ := cutList_eq_some_iff.1 hbs
    have hboth : cutList '<' (before ++ '<' :: rest ++ as) = some (before, rest ++ as) :=
      cutList_eq_some_iff.2 ⟨List.append_assoc .., hbefore⟩
    have hfirst : total - byteLength (rest ++ as) - 1 =
        total - byteLength as - byteLength rest - 1 := by
      rw [byteLength_append]
      omega
    rcases hlexeme : lexeme (total - byteLength (rest ++ as) - 1) (rest ++ as) with ⟨event, _ | rest'⟩
    · left
      cases event with
      | none =>
        have hshort := lexeme_of_append hlexeme
        rw [hfirst] at hshort
        rw [eventsFrom_of_last hboth hlexeme, eventsFrom_of_last hbs hshort]
      | some e =>
        -- the tag takes the rest of the text, so that nothing is cut off
        rw [markupFrom_of_last hboth hlexeme] at hcut
        have hend := hcut _ List.mem_cons_self
        obtain rfl : as = [] := eq_nil_of_byteLength (by
          simp only [byteLength_append, byteLength] at htotal hend ⊢
          omega)
        simp [byteLength]
    · rw [markupFrom_of_next hboth hlexeme] at hcut
      have hend := hcut _ List.mem_cons_self
      have hsuffix := suffix_of_lexeme hlexeme
      obtain ⟨rest', rfl⟩ := exists_append_of_suffix hsuffix (by
        simp only [byteLength_append, byteLength] at htotal hend ⊢
        omega)
      obtain ⟨taken, htaken, hcs, hread⟩ := exists_taken_of_lexeme hlexeme
      obtain rfl : rest = taken ++ rest' := by
        rw [← List.append_assoc] at hcs
        exact List.append_cancel_right hcs
      have hshort := hread rest'
      rw [hfirst] at hshort
      rw [eventsFrom_of_next hboth hlexeme, eventsFrom_of_next hbs hshort, List.append_assoc,
        List.append_right_inj, List.append_right_inj]
      exact ih rest'.length (by simp; omega) (by
        simp only [byteLength_append, byteLength] at htotal ⊢
        omega) (fun s hs => hcut s (List.mem_cons_of_mem _ hs)) rfl

/-- So the whole text has further tags only behind the place. -/
theorem exists_eventsFrom_append {total : Nat} {bs as : List Char}
    (htotal : byteLength (bs ++ as) ≤ total)
    (hcut : Outside (total - byteLength as) (markupFrom total (bs ++ as))) :
    ∃ later, eventsFrom total (bs ++ as) = eventsFrom (total - byteLength as) bs ++ later ∧
      ∀ e ∈ later, total - byteLength as ≤ e.first ∧ e.first < e.stop := by
  rcases eventsFrom_append htotal hcut with hevents | hevents
  · exact ⟨[], by rw [hevents, List.append_nil], nofun⟩
  · refine ⟨eventsFrom total as, hevents, fun e he => ?_⟩
    rw [byteLength_append] at htotal
    obtain ⟨hfirst, hstop, -⟩ := bounds_of_mem_eventsFrom (by omega) he
    exact ⟨hfirst, hstop⟩

end Document
end SchemaAssist
