/-
# What is seen from an offset

Of a document around an offset, completion looks at the elements whose content the offset is in, and
of each at the names of the children that are closed before it: this is the sight of the document
(`Element.sight`).  While a document is read, the elements that are still open have a sight already
(`Unfinished.sight`).

Once all tags before an offset have been taken, no tag after it changes the sight, whether it opens
an element, is an empty tag, ends open elements or matches none, and neither does the end of the text
(`Unfinished.sight_finish`).  An element that ends after the offset is seen as it was while it was
open: what ends without an end tag is not closed, and what is closed ends after the offset.
-/

import SchemaAssist.Document.Caret

namespace SchemaAssist
namespace Document

variable {offset : Nat}

namespace Element

/-- The names of the closed ones of some elements, up to the first that ends after an offset. -/
def closedIn (offset : Nat) (es : List Element) : List Name :=
  ((es.takeWhile (·.span.stop ≤ offset)).filter (·.closed)).map (·.name)

/-- The elements whose content an offset is in, the outermost first, with the names of their closed
children before it. -/
def sight (offset : Nat) (e : Element) : List (Name × List Name) :=
  (e.path offset).map fun e => (e.name, e.closedBefore offset)

/-- The sight of the first of some elements that an offset is in. -/
def sightIn (offset : Nat) (es : List Element) : List (Name × List Name) :=
  (pathIn offset es).map fun e => (e.name, e.closedBefore offset)

variable {e : Element} {es : List Element}

theorem path_eq (offset : Nat) (e : Element) :
    e.path offset = if e.containsContent offset then e :: pathIn offset e.children else [] := by
  obtain ⟨name, attributes, span, closed, selfClosing, children⟩ := e
  rw [path]

theorem sight_of_contains (h : e.containsContent offset = true) :
    e.sight offset = (e.name, closedIn offset e.children) :: sightIn offset e.children := by
  rw [sight, path_eq, if_pos h]
  rfl

theorem sight_eq_nil (h : e.containsContent offset = false) : e.sight offset = [] := by
  rw [sight, path_eq, h]
  rfl

theorem sightIn_nil (offset : Nat) : sightIn offset [] = [] := by
  rw [sightIn, pathIn]
  rfl

/-- The first element that is seen hides those after it. -/
theorem sightIn_cons (offset : Nat) (e : Element) (es : List Element) :
    sightIn offset (e :: es) = if e.sight offset = [] then sightIn offset es else e.sight offset := by
  rw [sightIn, pathIn, sight]
  cases hpath : e.path offset with
  | nil => rfl
  | cons f fs => rfl

/-- A last element that is not seen changes nothing. -/
theorem sightIn_concat_of_nil (h : e.sight offset = []) :
    sightIn offset (es ++ [e]) = sightIn offset es := by
  induction es with
  | nil => rw [List.nil_append, sightIn_cons, if_pos h]
  | cons f es ih => rw [List.cons_append, sightIn_cons, sightIn_cons, ih]

/-- A last element is seen if none before it is. -/
theorem sightIn_concat (h : sightIn offset es = []) :
    sightIn offset (es ++ [e]) = e.sight offset := by
  induction es with
  | nil =>
    rw [List.nil_append, sightIn_cons, sightIn_nil]
    split
    · next hnone => exact hnone.symm
    · rfl
  | cons f es ih =>
    rw [sightIn_cons] at h
    rw [List.cons_append, sightIn_cons]
    split at h
    · next hnone => rw [if_pos hnone, ih h]
    · next hsome => exact absurd h hsome

/-- A last element counts only if it is closed and ends before the offset. -/
theorem closedIn_concat (h : e.closed = true → offset < e.span.stop) :
    closedIn offset (es ++ [e]) = closedIn offset es := by
  induction es with
  | nil =>
    rw [List.nil_append, closedIn, List.takeWhile_cons]
    split
    · next hstop =>
      have hopen : e.closed = false := by
        rw [Bool.eq_false_iff]
        intro hclosed
        have := h hclosed
        simp only [decide_eq_true_eq] at hstop
        omega
      simp [closedIn, hopen]
    · rfl
  | cons f es ih =>
    rw [closedIn, closedIn, List.cons_append, List.takeWhile_cons, List.takeWhile_cons]
    split
    · simp only [List.filter_cons]
      split
      · exact congrArg (f.name :: ·) ih
      · exact ih
    · rfl

end Element

/-- The sight of a document: nothing if it has no root. -/
def sightAt (root : Option Element) (offset : Nat) : List (Name × List Name) :=
  (root.map (Element.sight offset)).getD []

/-- The names of a path, and the closed children of its last element, show in the sight. -/
theorem sightAt_eq (root : Option Element) (offset : Nat) :
    sightAt root offset = (pathAt root offset).map fun e => (e.name, e.closedBefore offset) := by
  cases root with
  | none => rfl
  | some e => rfl

/-! ### Open elements -/

namespace OpenElement

/-- The start tag of an element ends before an offset. -/
def Begun (offset : Nat) (o : OpenElement) : Prop := o.element.span.startTagEnd ≤ offset

instance (offset : Nat) (o : OpenElement) : Decidable (o.Begun offset) := Nat.decLe _ _

/-- What is seen of an open element whose start tag ends before an offset. -/
def sight (offset : Nat) (o : OpenElement) : List (Name × List Name) :=
  (o.element.name, Element.closedIn offset o.element.children) ::
    Element.sightIn offset o.element.children

/-- What is seen of some open elements, the innermost first. -/
def sightOf (offset : Nat) : List OpenElement → List (Name × List Name)
  | [] => []
  | o :: os => sightOf offset os ++ if o.Begun offset then o.sight offset else []

/-- An element with one more child. -/
def push (o : OpenElement) (e : Element) : OpenElement :=
  { o with element := { o.element with children := o.element.children ++ [e] } }

/-- An open element as it ends at or after an offset: it is not closed before the offset. -/
structure EndsAs (offset : Nat) (o : OpenElement) (e : Element) : Prop where
  name : e.name = o.element.name
  children : e.children = o.element.children
  startTagEnd : e.span.startTagEnd = o.element.span.startTagEnd
  selfClosing : e.selfClosing = o.element.selfClosing
  contentEnd : offset ≤ e.span.contentEnd
  closed : e.closed = true → offset < e.span.stop

variable {o : OpenElement} {e : Element}

/-- What is seen of an element that ends after an offset is what was seen of it while it was open. -/
theorem EndsAs.sight (h : EndsAs offset o e) (htag : o.element.selfClosing = false) :
    e.sight offset = if o.Begun offset then o.sight offset else [] := by
  by_cases hbegun : o.Begun offset
  · have hcontains : e.containsContent offset = true := by
      rw [Element.containsContent, h.selfClosing, htag, h.startTagEnd]
      simp [h.contentEnd, show o.element.span.startTagEnd ≤ offset from hbegun]
    rw [if_pos hbegun, Element.sight_of_contains hcontains, h.name, h.children]
    rfl
  · have hcontains : e.containsContent offset = false := by
      rw [Element.containsContent, h.startTagEnd]
      simp [show ¬ o.element.span.startTagEnd ≤ offset from hbegun]
    rw [if_neg hbegun, Element.sight_eq_nil hcontains]

end OpenElement

open OpenElement

/-! ### Tags after the offset -/

/-- A tag after an offset. -/
def Event.After (offset : Nat) (e : Event) : Prop := offset ≤ e.first ∧ offset < e.stop

namespace Unfinished

variable {p : Unfinished} {o : OpenElement} {os : List OpenElement} {e : Element} {root : Option Element}

/-- What is seen of a document read in part. -/
def sight (offset : Nat) (p : Unfinished) : List (Name × List Name) :=
  match p.root with
  | some e => e.sight offset
  | none => sightOf offset p.stack

/-- The open elements whose start tags end before an offset are around the others, and none but the
innermost of them has a child that the offset is in. -/
structure Nested (offset : Nat) (p : Unfinished) : Prop where
  unended : ∀ o ∈ p.stack, o.element.selfClosing = false ∧ o.element.closed = false
  around : p.stack.Pairwise fun o o' => o.Begun offset →
    o'.Begun offset ∧ Element.sightIn offset o'.element.children = []

theorem attach_cons (root : Option Element) (o : OpenElement) (os : List OpenElement) (e : Element) :
    (⟨root, o :: os⟩ : Unfinished).attach e = ⟨root, o.push e :: os⟩ := rfl

theorem Nested.of_cons (h : Nested offset ⟨root, o :: os⟩) : Nested offset ⟨root, os⟩ :=
  ⟨fun o' ho' => h.unended o' (List.mem_cons_of_mem _ ho'), (List.pairwise_cons.1 h.around).2⟩

theorem Nested.push (h : Nested offset ⟨root, o :: os⟩) (e : Element) :
    Nested offset ⟨root, o.push e :: os⟩ := by
  obtain ⟨htop, hrest⟩ := List.pairwise_cons.1 h.around
  refine ⟨fun o' ho' => ?_, List.pairwise_cons.2 ⟨htop, hrest⟩⟩
  rcases List.mem_cons.1 ho' with rfl | ho'
  · exact h.unended o List.mem_cons_self
  · exact h.unended o' (List.mem_cons_of_mem _ ho')

/-- An element that is neither seen nor closed before the offset changes nothing. -/
theorem Nested.attach (h : Nested offset p) (hsight : e.sight offset = [])
    (hclosed : e.closed = true → offset < e.span.stop) :
    Nested offset (p.attach e) ∧ (p.attach e).sight offset = p.sight offset := by
  obtain ⟨root, stack⟩ := p
  cases stack with
  | nil =>
    refine ⟨⟨nofun, List.Pairwise.nil⟩, ?_⟩
    cases root with
    | none => exact hsight
    | some r => rfl
  | cons o os =>
    rw [attach_cons]
    refine ⟨h.push e, ?_⟩
    have htop : (o.push e).sight offset = o.sight offset := by
      have hnames : Element.closedIn offset (o.push e).element.children =
          Element.closedIn offset o.element.children := Element.closedIn_concat hclosed
      have hinside : Element.sightIn offset (o.push e).element.children =
          Element.sightIn offset o.element.children := Element.sightIn_concat_of_nil hsight
      rw [OpenElement.sight, OpenElement.sight, hnames, hinside]
      rfl
    cases root with
    | none =>
      change sightOf offset os ++ (if o.Begun offset then (o.push e).sight offset else []) = _
      rw [htop]
      rfl
    | some r => rfl

/-- The innermost open element may end: it is seen as before. -/
theorem Nested.attach_top (h : Nested offset ⟨root, o :: os⟩) (hends : EndsAs offset o e) :
    Nested offset ((⟨root, os⟩ : Unfinished).attach e) ∧
      ((⟨root, os⟩ : Unfinished).attach e).sight offset = sight offset ⟨root, o :: os⟩ := by
  have hseen := hends.sight (h.unended o List.mem_cons_self).1
  by_cases hbegun : o.Begun offset
  · rw [if_pos hbegun] at hseen
    cases os with
    | nil =>
      refine ⟨⟨nofun, List.Pairwise.nil⟩, ?_⟩
      cases root with
      | none =>
        change e.sight offset = [] ++ if o.Begun offset then o.sight offset else []
        rw [hseen, if_pos hbegun, List.nil_append]
      | some r => rfl
    | cons o' os =>
      rw [attach_cons]
      refine ⟨h.of_cons.push e, ?_⟩
      obtain ⟨htop, -⟩ := List.pairwise_cons.1 h.around
      obtain ⟨hbegun', hnone⟩ := htop o' List.mem_cons_self hbegun
      have hpush : (o'.push e).sight offset = o'.sight offset ++ o.sight offset := by
        have hnames : Element.closedIn offset (o'.push e).element.children =
            Element.closedIn offset o'.element.children := Element.closedIn_concat hends.closed
        have hinside : Element.sightIn offset (o'.push e).element.children = o.sight offset :=
          (Element.sightIn_concat hnone).trans hseen
        have hold : o'.sight offset =
            [(o'.element.name, Element.closedIn offset o'.element.children)] := by
          rw [OpenElement.sight, hnone]
        rw [OpenElement.sight, hnames, hinside, hold]
        rfl
      cases root with
      | none =>
        change sightOf offset os ++ (if o'.Begun offset then (o'.push e).sight offset else []) =
          (sightOf offset os ++ if o'.Begun offset then o'.sight offset else []) ++
            if o.Begun offset then o.sight offset else []
        rw [if_pos hbegun', if_pos hbegun', if_pos hbegun, hpush, List.append_assoc]
      | some r => rfl
  · rw [if_neg hbegun] at hseen
    obtain ⟨hnested, hsame⟩ := h.of_cons.attach hseen hends.closed
    refine ⟨hnested, hsame.trans ?_⟩
    cases root with
    | none =>
      change sightOf offset os = sightOf offset os ++ if o.Begun offset then o.sight offset else []
      rw [if_neg hbegun, List.append_nil]
    | some r => rfl

/-- The innermost open element may end without an end tag. -/
theorem Nested.cutOff (h : Nested offset p) {n : Nat} (hn : offset ≤ n) :
    Nested offset (p.cutOff n) ∧ (p.cutOff n).sight offset = p.sight offset := by
  obtain ⟨root, stack⟩ := p
  cases stack with
  | nil => exact ⟨h, rfl⟩
  | cons o os =>
    refine h.attach_top ⟨rfl, rfl, rfl, rfl, hn, fun hclosed => ?_⟩
    have hopen : (o.cutOff n).closed = false := (h.unended o List.mem_cons_self).2
    rw [hopen] at hclosed
    cases hclosed

/-- Several of the innermost open elements may end without end tags. -/
theorem Nested.cutOffMany (h : Nested offset p) {n : Nat} (hn : offset ≤ n) (count : Nat) :
    Nested offset (p.cutOffMany n count) ∧
      (p.cutOffMany n count).sight offset = p.sight offset := by
  induction count generalizing p with
  | zero => exact ⟨h, rfl⟩
  | succ count ih =>
    obtain ⟨hnested, hsame⟩ := h.cutOff hn
    obtain ⟨hnested', hsame'⟩ := ih hnested
    exact ⟨hnested', hsame'.trans hsame⟩

/-- The innermost open element may end by an end tag after the offset. -/
theorem Nested.close (h : Nested offset p) {first stop : Nat} (hfirst : offset ≤ first)
    (hstop : offset < stop) :
    Nested offset (p.close first stop) ∧ (p.close first stop).sight offset = p.sight offset := by
  obtain ⟨root, stack⟩ := p
  cases stack with
  | nil => exact ⟨h, rfl⟩
  | cons o os => exact h.attach_top ⟨rfl, rfl, rfl, rfl, hfirst, fun _ => hstop⟩

/-- A tag after the offset changes nothing of what is seen. -/
theorem Nested.take (h : Nested offset p) {e : Event} (he : e.After offset) :
    Nested offset (p.take e) ∧ (p.take e).sight offset = p.sight offset := by
  obtain ⟨hfirst, hstop⟩ := he
  cases e with
  | start first stop tag =>
    have hnot : ¬ (OpenElement.ofTag p.scope first stop tag).Begun offset := Nat.not_le.2 hstop
    refine ⟨⟨fun o ho => ?_, List.pairwise_cons.2 ⟨fun o' _ hbegun => absurd hbegun hnot, h.around⟩⟩,
      ?_⟩
    · rcases List.mem_cons.1 ho with rfl | ho
      · exact ⟨rfl, rfl⟩
      · exact h.unended o ho
    · rw [Unfinished.take, sight, sight]
      cases p.root with
      | some r => rfl
      | none => exact (congrArg (sightOf offset p.stack ++ ·) (if_neg hnot)).trans (List.append_nil _)
  | empty first stop tag => exact h.attach (Element.sight_eq_nil rfl) fun _ => hstop
  | finish first stop name =>
    rw [Unfinished.take]
    split
    · exact ⟨h, rfl⟩
    · next depth _ =>
      obtain ⟨hnested, hsame⟩ := h.cutOffMany hfirst depth
      obtain ⟨hnested', hsame'⟩ := hnested.close hfirst hstop
      exact ⟨hnested', hsame'.trans hsame⟩

theorem Nested.foldl_take (h : Nested offset p) {es : List Event}
    (hes : ∀ e ∈ es, e.After offset) :
    Nested offset (es.foldl Unfinished.take p) ∧
      (es.foldl Unfinished.take p).sight offset = p.sight offset := by
  induction es generalizing p with
  | nil => exact ⟨h, rfl⟩
  | cons e es ih =>
    rw [List.forall_mem_cons] at hes
    obtain ⟨hnested, hsame⟩ := h.take hes.1
    obtain ⟨hnested', hsame'⟩ := ih hnested hes.2
    exact ⟨hnested', hsame'.trans hsame⟩

/-! ### The end of the text -/

theorem length_stack_cutOff (p : Unfinished) (n : Nat) :
    (p.cutOff n).stack.length = p.stack.length - 1 := by
  obtain ⟨root, stack⟩ := p
  match stack with
  | [] => rfl
  | [o] => rfl
  | o :: o' :: os => rfl

theorem stack_cutOffMany (p : Unfinished) (n : Nat) {count : Nat} (h : p.stack.length ≤ count) :
    (p.cutOffMany n count).stack = [] := by
  induction count generalizing p with
  | zero => exact List.length_eq_zero_iff.1 (Nat.le_zero.1 h)
  | succ count ih =>
    rw [Unfinished.cutOffMany]
    refine ih _ ?_
    rw [length_stack_cutOff]
    omega

theorem sight_of_stack_nil (h : p.stack = []) : p.sight offset = sightAt p.root offset := by
  rw [sight, h, sightAt]
  cases p.root with
  | none => rfl
  | some r => rfl

/-- **What is read later does not change the sight.**  Of a document read up to an offset, what is
seen at the offset is the same whichever tags follow and wherever the text ends. -/
theorem sight_finish (h : Nested offset p) {es : List Event} (hes : ∀ e ∈ es, e.After offset)
    {n : Nat} (hn : offset ≤ n) :
    sightAt ((es.foldl Unfinished.take p).finish n) offset = p.sight offset := by
  obtain ⟨hnested, hsame⟩ := h.foldl_take hes
  rw [finish, ← sight_of_stack_nil (stack_cutOffMany _ n (Nat.le_refl _)),
    (hnested.cutOffMany hn _).2, hsame]

/-! ### Tags before the offset -/

/-- A document read up to an offset: all open elements are begun, and the offset is in none of their
children. -/
def Before (offset : Nat) (p : Unfinished) : Prop :=
  ∀ o ∈ p.stack, (o.element.selfClosing = false ∧ o.element.closed = false) ∧ o.Begun offset ∧
    Element.sightIn offset o.element.children = []

theorem Before.nested (h : Before offset p) : Nested offset p :=
  ⟨fun o ho => (h o ho).1, List.pairwise_of_forall_mem_list fun _ _ o' ho' _ => (h o' ho').2⟩

theorem Before.attach (h : Before offset p) (hsight : e.sight offset = []) :
    Before offset (p.attach e) := by
  obtain ⟨root, stack⟩ := p
  cases stack with
  | nil => exact nofun
  | cons o os =>
    rw [attach_cons]
    intro o' ho'
    rcases List.mem_cons.1 ho' with rfl | ho'
    · obtain ⟨htags, hbegun, hnone⟩ := h o List.mem_cons_self
      exact ⟨htags, hbegun, (Element.sightIn_concat_of_nil hsight).trans hnone⟩
    · exact h o' (List.mem_cons_of_mem _ ho')

/-- Open elements may end before the offset. -/
theorem Before.cutOffMany (h : Before offset p) {n : Nat} (hn : n < offset) (count : Nat) :
    Before offset (p.cutOffMany n count) := by
  induction count generalizing p with
  | zero => exact h
  | succ count ih =>
    refine ih ?_
    obtain ⟨root, stack⟩ := p
    cases stack with
    | nil => exact h
    | cons o os =>
      have hend : (o.cutOff n).containsContent offset = false := by
        simp [Element.containsContent, OpenElement.cutOff, Nat.not_le.2 hn]
      exact Before.attach (fun o' ho' => h o' (List.mem_cons_of_mem _ ho'))
        (Element.sight_eq_nil hend)

theorem Before.close (h : Before offset p) {first stop : Nat} (hfirst : first < offset) :
    Before offset (p.close first stop) := by
  obtain ⟨root, stack⟩ := p
  cases stack with
  | nil => exact h
  | cons o os =>
    have hend : (o.close first stop).containsContent offset = false := by
      simp [Element.containsContent, OpenElement.close, Nat.not_le.2 hfirst]
    exact Before.attach (fun o' ho' => h o' (List.mem_cons_of_mem _ ho')) (Element.sight_eq_nil hend)

/-- A tag before the offset opens an element that is begun, or ends some before the offset. -/
theorem Before.take (h : Before offset p) {e : Event} (hfirst : e.first < offset)
    (hstop : e.stop ≤ offset) : Before offset (p.take e) := by
  cases e with
  | start first stop tag =>
    intro o ho
    rcases List.mem_cons.1 ho with rfl | ho
    · exact ⟨⟨rfl, rfl⟩, hstop, Element.sightIn_nil offset⟩
    · exact h o ho
  | empty first stop tag => exact h.attach (Element.sight_eq_nil rfl)
  | finish first stop name =>
    rw [Unfinished.take]
    split
    · exact h
    · exact (h.cutOffMany hfirst _).close hfirst

/-- When only tags before an offset have been taken, the document is read up to the offset. -/
theorem before_foldl_take {es : List Event} (hes : ∀ e ∈ es, e.first < offset ∧ e.stop ≤ offset)
    (h : Before offset p) : Before offset (es.foldl Unfinished.take p) := by
  induction es generalizing p with
  | nil => exact h
  | cons e es ih =>
    rw [List.forall_mem_cons] at hes
    exact ih hes.2 (h.take hes.1.1 hes.1.2)

theorem before_empty (offset : Nat) : Before offset .empty := nofun

end Unfinished
end Document
end SchemaAssist
