/-
# Start tags in a text

A start tag goes from its opening bracket to the first closing bracket outside quotes
(`cutTag_eq_some_iff`).  Without one it is still being typed.  Then it is given a single byte, its
opening bracket, and since that is no closing bracket nothing from there on is an element, also where
the text breaks off in a quoted value and ends with a closing bracket.  So the start tag of each
element of a document is found in the text, whole, at the offsets of the element
(`startTag_read`).

The offsets of the tags do not count a byte order mark at the start of the text; they are offsets in
the text if there is none (`position_eq`).
-/

import SchemaAssist.Proofs.Tagging
import Mathlib.Data.List.TakeWhile

namespace SchemaAssist
namespace Document

open Text

/-! ### Quotes -/

/-- The quote that is open after one more character of a tag. -/
def nextQuote : Option Char → Char → Option Char
  | none, c => if isQuote c then some c else none
  | some q, c => if c = q then none else some q

/-- The quote that is open after some characters of a tag, given the one before them. -/
def openQuote (quote : Option Char) (cs : List Char) : Option Char := cs.foldl nextQuote quote

/-- All closing brackets among some characters are in quotes. -/
def BracketsQuoted (quote : Option Char) (cs : List Char) : Prop :=
  ∀ before after, cs = before ++ '>' :: after → (openQuote quote before).isSome

/-- What follows an opening bracket is a start tag up to the end of the text, without its closing
bracket. -/
def HalfTyped (rest : List Char) : Prop :=
  (rest.head? ≠ some '!' ∧ rest.head? ≠ some '?' ∧ rest.head? ≠ some '/') ∧
    BracketsQuoted none rest

/-- The start tag of an element stands in a text at the offsets of the element: it ends with the
first closing bracket outside quotes. -/
def HasStartTag (text : String) (e : Element) : Prop :=
  ∃ before inside after, text.toList = before ++ '<' :: (inside ++ '>' :: after) ∧
    e.span.start = byteLength before ∧
    e.span.startTagEnd = e.span.start + byteLength ('<' :: (inside ++ ['>'])) ∧
    openQuote none inside = none ∧ BracketsQuoted none inside

section

variable {quote : Option Char} {c : Char} {cs tag rest : List Char}

theorem bracketsQuoted_nil (quote : Option Char) : BracketsQuoted quote [] := by
  intro before after h
  simp at h

theorem bracketsQuoted_cons : BracketsQuoted quote (c :: cs) ↔
    (c = '>' → quote.isSome) ∧ BracketsQuoted (nextQuote quote c) cs := by
  constructor
  · intro h
    refine ⟨fun hc => h [] cs (by rw [hc]; rfl), fun before after hcs => ?_⟩
    exact h (c :: before) after (congrArg (c :: ·) hcs)
  · rintro ⟨hfirst, hrest⟩ before after hcs
    cases before with
    | nil => exact hfirst (List.cons.inj hcs).1
    | cons d before =>
      obtain ⟨rfl, htail⟩ := List.cons.inj hcs
      exact hrest before after htail

theorem cutTag_cons (quote : Option Char) (c : Char) (cs : List Char) :
    cutTag quote (c :: cs) =
      if quote = none ∧ c = '>' then some ([], cs)
      else (cutTag (nextQuote quote c) cs).map fun (tag, rest) => (c :: tag, rest) := by
  cases quote with
  | none => by_cases hc : c = '>' <;> simp [cutTag, nextQuote, hc]
  | some q => simp [cutTag, nextQuote]

/-- A character that does not end a tag is no closing bracket or in quotes. -/
theorem isSome_of_inside (h : ¬ (quote = none ∧ c = '>')) (hc : c = '>') : quote.isSome :=
  Option.isSome_iff_ne_none.2 fun hquote => h ⟨hquote, hc⟩

/-- A tag is cut at the first closing bracket outside quotes. -/
theorem cutTag_eq_some_iff : cutTag quote cs = some (tag, rest) ↔
    cs = tag ++ '>' :: rest ∧ openQuote quote tag = none ∧ BracketsQuoted quote tag := by
  induction cs generalizing quote tag with
  | nil => simp [cutTag]
  | cons c cs ih =>
    rw [cutTag_cons]
    split
    · next hend =>
      obtain ⟨rfl, rfl⟩ := hend
      constructor
      · intro h
        cases h
        exact ⟨rfl, rfl, bracketsQuoted_nil none⟩
      · rintro ⟨hcs, -, hquoted⟩
        cases tag with
        | nil => rw [(List.cons.inj hcs).2]
        | cons d tag =>
          obtain ⟨rfl, -⟩ := List.cons.inj hcs
          cases (bracketsQuoted_cons.1 hquoted).1 rfl
    · next hinside =>
      rw [Option.map_eq_some_iff]
      constructor
      · rintro ⟨⟨tag', rest'⟩, hcut, hparts⟩
        obtain ⟨rfl, rfl⟩ := Prod.mk.inj hparts
        obtain ⟨rfl, hclosed, hquoted⟩ := ih.1 hcut
        exact ⟨rfl, hclosed, bracketsQuoted_cons.2 ⟨isSome_of_inside hinside, hquoted⟩⟩
      · rintro ⟨hcs, hclosed, hquoted⟩
        cases tag with
        | nil =>
          have hquote : quote = none := hclosed
          exact absurd ⟨hquote, (List.cons.inj hcs).1⟩ hinside
        | cons d tag =>
          obtain ⟨rfl, htail⟩ := List.cons.inj hcs
          exact ⟨(tag, rest), ih.2 ⟨htail, hclosed, (bracketsQuoted_cons.1 hquoted).2⟩, rfl⟩

/-- A tag is not cut if all closing brackets are in quotes. -/
theorem cutTag_eq_none_iff : cutTag quote cs = none ↔ BracketsQuoted quote cs := by
  induction cs generalizing quote with
  | nil => exact iff_of_true (by rw [cutTag]) (bracketsQuoted_nil quote)
  | cons c cs ih =>
    rw [cutTag_cons, bracketsQuoted_cons, ← ih]
    split
    · next hend =>
      obtain ⟨rfl, hc⟩ := hend
      exact iff_of_false (Option.some_ne_none _) fun h => Bool.false_ne_true (h.1 hc)
    · next hinside =>
      rw [Option.map_eq_none_iff]
      exact (and_iff_right (isSome_of_inside hinside)).symm

instance (quote : Option Char) (cs : List Char) : Decidable (BracketsQuoted quote cs) :=
  decidable_of_iff _ cutTag_eq_none_iff

instance (rest : List Char) : Decidable (HalfTyped rest) := inferInstanceAs (Decidable (_ ∧ _))

end

/-! ### Tags in a text -/

section

variable {total first : Nat} {cs rest : List Char} {e : Event} {tag : Tag}

/-- A tag that opens an element ends with its closing bracket, or has one byte. -/
theorem stop_of_lexeme (h : (lexeme first cs).1 = some e) (htag : e.tag? = some tag) :
    (∃ inside after, cutTag none cs = some (inside, after) ∧
        e.stop = first + 2 + byteLength inside) ∨
      cutTag none cs = none ∧ e.stop = first + 1 := by
  unfold lexeme at h
  split at h
  · cases h
  · cases h
  · cases h
  · split at h <;> cases h <;> cases htag
  · dsimp only at h
    split at h
    · next inside after hcut =>
      left
      refine ⟨inside, after, hcut, ?_⟩
      split at h <;> cases h <;> rfl
    · next hcut =>
      right
      refine ⟨hcut, ?_⟩
      split at h <;> cases h <;> rfl

/-- A half-typed tag is the last one and has one byte. -/
theorem lexeme_of_halfTyped (first : Nat) (h : HalfTyped rest) :
    (lexeme first rest).2 = none ∧
      ∀ e ∈ (lexeme first rest).1, e.tag?.isSome ∧ e.stop = first + 1 := by
  obtain ⟨hhead, hquoted⟩ := h
  have hcut := cutTag_eq_none_iff.2 hquoted
  unfold lexeme
  split
  · exact ⟨rfl, nofun⟩
  · exact absurd rfl hhead.1
  · exact absurd rfl hhead.2.1
  · exact absurd rfl hhead.2.2
  · dsimp only
    rw [hcut]
    refine ⟨rfl, fun e he => ?_⟩
    dsimp only at he
    split at he <;> cases he <;> exact ⟨rfl, rfl⟩

/-- A tag of a text stands somewhere in it. -/
theorem exists_of_mem_eventsFrom (he : e ∈ eventsFrom total cs) :
    ∃ before rest, cs = before ++ '<' :: rest ∧
      (lexeme (total - byteLength rest - 1) rest).1 = some e := by
  fun_induction eventsFrom total cs with
  | case1 => cases he
  | case2 cs before rest hopen event hlexeme =>
    obtain ⟨rfl, -⟩ := cutList_eq_some_iff.1 hopen
    exact ⟨before, rest, rfl, by rw [hlexeme]; exact Option.mem_toList.1 he⟩
  | case3 cs before rest hopen event rest' hlexeme _ ih =>
    obtain ⟨rfl, -⟩ := cutList_eq_some_iff.1 hopen
    rcases List.mem_append.1 he with he | he
    · exact ⟨before, rest, rfl, by rw [hlexeme]; exact Option.mem_toList.1 he⟩
    · obtain ⟨before', rest'', rfl, hlexeme'⟩ := ih he
      obtain ⟨taken, -, rfl, -⟩ := exists_taken_of_lexeme hlexeme
      exact ⟨before ++ '<' :: (taken ++ before'), rest'', by simp, hlexeme'⟩

/-- An opening bracket is at the offset that the characters in front of it take up. -/
theorem byteLength_before {before : List Char} (hsplit : cs = before ++ '<' :: rest) :
    byteLength cs - byteLength rest - 1 = byteLength before := by
  have hbracket : ('<' : Char).utf8Size = 1 := by decide
  rw [hsplit, byteLength_append, byteLength]
  omega

/-- The character behind some others is at the offset that they take up. -/
theorem charAt?_byteLength (before : List Char) (c : Char) (after : List Char) :
    charAt? (before ++ c :: after) (byteLength before) = some c := by
  induction before with
  | nil => rfl
  | cons b before ih =>
    have hsize := b.utf8Size_pos
    have hskip : byteLength (b :: before) - b.utf8Size = byteLength before := by
      rw [byteLength, Nat.add_sub_cancel_left]
    have hle : b.utf8Size ≤ byteLength (b :: before) := Nat.le_add_right _ _
    rw [List.cons_append, charAt?, if_pos hle, hskip, ih]
    exact fun hzero => absurd (hzero ▸ hle) (Nat.not_le.2 hsize)

end

/-! ### Elements in a text -/

/-- Offsets that count all bytes of a text leave no byte order mark out. -/
theorem dropMark_of_exact {text : String} (hexact : position text = text.utf8ByteSize) :
    dropMark text.toList = text.toList := by
  have hmark : ∀ cs, dropMark cs = cs ∨ cs = '\ufeff' :: dropMark cs := fun cs => by
    unfold dropMark
    split
    · exact Or.inr rfl
    · exact Or.inl rfl
  rcases hmark text.toList with hsame | hmarked
  · exact hsame
  · have hpos := ('\ufeff' : Char).utf8Size_pos
    have hlength := congrArg byteLength hmarked
    rw [position] at hexact
    rw [byteLength, byteLength_toList] at hlength
    omega

/-- An event that opens an element is accepted if it ends with a closing bracket. -/
theorem Event.typed_of_tag? {e : Event} {tag : Tag} (htag : e.tag? = some tag) (cs : List Char) :
    e.typed cs = (charAt? cs (e.stop - 1) == some '>') := by
  cases e with
  | finish => cases htag
  | start => rfl
  | empty => rfl

section

variable {text : String} {e : Element} {tag : Tag}

theorem events_of_exact (hexact : position text = text.utf8ByteSize) :
    events text = eventsFrom (byteLength text.toList) text.toList := by
  rw [events, dropMark_of_exact hexact]

/-- A tag that opens an element of a text ends with the first closing bracket outside quotes. -/
theorem hasStartTag_of_opening (hexact : position text = text.utf8ByteSize)
    (h : e.opening tag ∈ tags text) : HasStartTag text e := by
  have hbracket : ('<' : Char).utf8Size = 1 := by decide
  have hclosing : ('>' : Char).utf8Size = 1 := by decide
  have hevent := (List.takeWhile_prefix _).subset h
  rw [events_of_exact hexact] at hevent
  have htyped := List.mem_takeWhile_imp h
  rw [Event.typed_of_tag? (e.tag?_opening tag), beq_iff_eq, e.stop_opening] at htyped
  obtain ⟨before, rest, hsplit, hlexeme⟩ := exists_of_mem_eventsFrom hevent
  rw [byteLength_before hsplit] at hlexeme
  have hstart := (bounds_of_lexeme (Prod.ext hlexeme rfl)).1
  have hstop := stop_of_lexeme hlexeme (e.tag?_opening tag)
  rw [e.first_opening] at hstart
  rw [e.stop_opening] at hstop
  rcases hstop with ⟨inside, after, hcut, hstop⟩ | ⟨-, hstop⟩
  · obtain ⟨rfl, hclosed, hquoted⟩ := cutTag_eq_some_iff.1 hcut
    refine ⟨before, inside, after, hsplit, hstart, ?_, hclosed, hquoted⟩
    simp only [byteLength, byteLength_append]
    omega
  · -- a tag of one byte would end with its opening bracket
    rw [hstop, Nat.add_sub_cancel, hsplit, charAt?_byteLength] at htyped
    exact absurd htyped (by decide)

end

/-- Where characters break off in a start tag, all tags of theirs are before that one. -/
theorem first_lt_of_halfTyped {cs before rest : List Char} (hsplit : cs = before ++ '<' :: rest)
    (hcut : Outside (byteLength before) (markupFrom (byteLength cs) cs)) (hrest : HalfTyped rest)
    {event : Event} (hevent : event ∈ eventsFrom (byteLength cs) cs) (htyped : event.typed cs = true) :
    event.first < byteLength before := by
  have hoffset : byteLength cs - byteLength ('<' :: rest) = byteLength before := by
    rw [hsplit, byteLength_append, Nat.add_sub_cancel_right]
  have hfirst := byteLength_before hsplit
  have hbefore : ∀ event ∈ eventsFrom (byteLength before) before,
      event.first < byteLength before := fun event h => by
    obtain ⟨-, hlt, hle⟩ := bounds_of_mem_eventsFrom (Nat.le_refl _) h
    exact Nat.lt_of_lt_of_le hlt hle
  have happend := @eventsFrom_append (byteLength cs) before ('<' :: rest)
  rw [← hsplit, hoffset] at happend
  rcases happend (Nat.le_refl _) hcut with hevents | hevents
  · exact hbefore event (hevents ▸ hevent)
  rw [hevents] at hevent
  rcases List.mem_append.1 hevent with hevent | hevent
  · exact hbefore event hevent
  -- it would be the one that is being typed, which has a single byte
  obtain ⟨hlast, hbyte⟩ := lexeme_of_halfTyped (byteLength before) hrest
  have hopen : cutList '<' ('<' :: rest) = some ([], rest) :=
    cutList_eq_some_iff.2 ⟨rfl, List.not_mem_nil⟩
  rw [eventsFrom_of_last hopen (Prod.ext rfl (hfirst ▸ hlast)), hfirst] at hevent
  obtain ⟨htag, hstop⟩ := hbyte event (Option.mem_toList.1 hevent)
  obtain ⟨tag, htag⟩ := Option.isSome_iff_exists.1 htag
  rw [Event.typed_of_tag? htag, hstop, Nat.add_sub_cancel, hsplit, charAt?_byteLength] at htyped
  exact absurd htyped (by decide)

/-- **A start tag that is still being typed is no element.**  Where the offsets of a text count all
its bytes, every element of its tree has its whole start tag in the text, from the opening bracket to
the first closing bracket outside quotes.  Of a text that breaks off in a start tag, in a quoted
value or not, nothing from that tag on is an element. -/
theorem startTag_read {text : String} (hexact : position text = text.utf8ByteSize) :
    (∀ e, Has (read text) e → HasStartTag text e) ∧
      ∀ before rest, text.toList = before ++ '<' :: rest →
        Outside (byteLength before) (markup text) → HalfTyped rest →
          ∀ e, Has (read text) e → e.span.start < byteLength before := by
  have hopening : ∀ e, Has (read text) e → ∃ tag, e.opening tag ∈ tags text := by
    rintro e ⟨around, h⟩
    obtain ⟨⟨tag, hopening, -⟩, -⟩ := h.tagged
    exact ⟨tag, hopening⟩
  refine ⟨fun e he => ?_, fun before rest hsplit hcut hrest e he => ?_⟩
  · obtain ⟨tag, h⟩ := hopening e he
    exact hasStartTag_of_opening hexact h
  · obtain ⟨tag, h⟩ := hopening e he
    have hevent := (List.takeWhile_prefix _).subset h
    rw [events_of_exact hexact] at hevent
    rw [markup, dropMark_of_exact hexact] at hcut
    have hlt := first_lt_of_halfTyped hsplit hcut hrest hevent (List.mem_takeWhile_imp h)
    rwa [e.first_opening] at hlt

/-- The closing bracket in the quoted value of the second tag does not end it, and the last tag
breaks off behind one in a quoted value. -/
theorem startTag_read_quoted :
    let text := "<r><a k='>'/><b k=\"<c>"
    position text = text.utf8ByteSize ∧
      (read text).map (fun root => root.children.map (·.name.localName)) = some ["a"] ∧
      ∀ e, Has (read text) e → HasStartTag text e ∧ e.span.start < 13 := by
  intro text
  have hexact : position text = text.utf8ByteSize := by decide +kernel
  obtain ⟨htags, hbefore⟩ := startTag_read hexact
  have hrest : HalfTyped "b k=\"<c>".toList := by decide +kernel
  have hcut : Outside (byteLength "<r><a k='>'/>".toList) (markup text) := by decide +kernel
  refine ⟨hexact, by decide +kernel, fun e he => ⟨htags e he, ?_⟩⟩
  exact hbefore "<r><a k='>'/>".toList _ (by decide +kernel) hcut hrest e he

/-- The offsets have to be those of the text: with a byte order mark in front, which they do not
count, another bracket is taken for the end of the tag that is being typed. -/
example : (read "\ufeff>xx<a b").isSome := by decide +kernel

end Document
end SchemaAssist
