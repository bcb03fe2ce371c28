import Negentropy.Lib.Rbsr.Message

/-! What can be said of the reply to any message whose ranges are in order: its ranges are in
order too, and its fingerprints are over the elements of their ranges, except for the last
one of a reply that drops a split. -/

namespace Rbsr

open Sorted

variable {α ι : Type} [LinearOrder α]

/-- Every fingerprint is over the elements of its range. -/
def Truthful (A : List α) : α → List (Range α ι) → Prop
  | _, [] => True
  | l, ⟨u, .fingerprint X⟩ :: rs => X = within A l u ∧ Truthful A u rs
  | _, ⟨u, _⟩ :: rs => Truthful A u rs

/-- The upper ends do not decrease. -/
def Ascending : α → List (Range α ι) → Prop
  | _, [] => True
  | l, r :: rs => l ≤ r.upper ∧ Ascending r.upper rs

/-- They do not decrease, but may jump to `top`. -/
def Ordered (top : α) : α → List (Range α ι) → Prop
  | _, [] => True
  | l, r :: rs => (l ≤ r.upper ∨ r.upper = top) ∧ Ordered top r.upper rs

/-- Where a list of ranges from `l` on ends. -/
def endOf : α → List (Range α ι) → α
  | l, [] => l
  | _, r :: rs => endOf r.upper rs

omit [LinearOrder α] in
theorem endOf_append (l : α) (rs rs' : List (Range α ι)) : endOf l (rs ++ rs') = endOf (endOf l rs) rs' := by
  induction rs generalizing l with
  | nil => rfl
  | cons r rs ih => exact ih _

/-! ### Ranges one by one -/

/-- `p` holds of each range and the two bounds it lies between. -/
def Each (p : α → α → Payload α ι → Prop) : α → List (Range α ι) → Prop
  | _, [] => True
  | l, r :: rs => p l r.upper r.payload ∧ Each p r.upper rs

section
variable {p p' : α → α → Payload α ι → Prop} {l : α} {rs rs' : List (Range α ι)}

omit [LinearOrder α] in
theorem each_append : Each p l (rs ++ rs') ↔ Each p l rs ∧ Each p (endOf l rs) rs' := by
  induction rs generalizing l with
  | nil => simp [Each, endOf]
  | cons r rs ih => simp [Each, endOf, ih, and_assoc]

omit [LinearOrder α] in
theorem Each.and (h : Each p l rs) (h' : Each p' l rs) : Each (fun l u payload => p l u payload ∧ p' l u payload) l rs := by
  induction rs generalizing l with
  | nil => trivial
  | cons r rs ih => exact ⟨⟨h.1, h'.1⟩, ih h.2 h'.2⟩

/-- What is compared: the fingerprints of the message, each with the elements of its range. -/
theorem Reply.compared_each {A : List α} {id : α → ι} {top : α} {cmp : List ι → List α → List ι × List ι} {client limited started : Prop}
    {last : α} {out : List (Range α ι)} {hs ns : List ι} {c : List (Comparison α)} {d : Option (Drop α)}
    (h : Reply A id top cmp client limited started last l rs out hs ns c d) (hrs : Each p l rs) :
    ∀ x ∈ c, ∃ l u, p l u (.fingerprint x.theirs) ∧ x.ours = within A l u := by
  induction h with
  | done => exact fun x hx => absurd hx List.not_mem_nil
  | skip _ ih => exact ih hrs.2
  | agree _ ih => exact List.forall_mem_cons.mpr ⟨⟨_, _, hrs.1, rfl⟩, ih hrs.2⟩
  | split _ _ _ ih => exact List.forall_mem_cons.mpr ⟨⟨_, _, hrs.1, rfl⟩, ih hrs.2⟩
  | cutSplit _ _ => exact List.forall_mem_singleton.mpr ⟨_, _, hrs.1, rfl⟩
  | report _ _ _ ih => exact ih hrs.2
  | answer _ _ _ ih => exact ih hrs.2
  | cutAnswer _ _ _ _ _ _ => exact fun x hx => absurd hx List.not_mem_nil

omit [LinearOrder α] in
theorem Flush.each {last l : α} {fl : List (Range α ι)} (h : Flush last l fl) (hp : ∀ l u, p l u .skip) : Each p last fl := by
  cases h with
  | none => trivial
  | skip => exact ⟨hp _ _, trivial⟩

end

theorem truthful_append {A : List α} {l : α} {rs rs' : List (Range α ι)} :
    Truthful A l (rs ++ rs') ↔ Truthful A l rs ∧ Truthful A (endOf l rs) rs' := by
  induction rs generalizing l with
  | nil => simp [Truthful, endOf]
  | cons r rs ih =>
    obtain ⟨u, payload⟩ := r
    cases payload <;> simp [Truthful, endOf, ih, and_assoc]

theorem ordered_append {top l : α} {rs rs' : List (Range α ι)} :
    Ordered top l (rs ++ rs') ↔ Ordered top l rs ∧ Ordered top (endOf l rs) rs' := by
  induction rs generalizing l with
  | nil => simp [Ordered, endOf]
  | cons r rs ih => simp [Ordered, endOf, ih, and_assoc]

theorem ascending_append {l : α} {rs rs' : List (Range α ι)} :
    Ascending l (rs ++ rs') ↔ Ascending l rs ∧ Ascending (endOf l rs) rs' := by
  induction rs generalizing l with
  | nil => simp [Ascending, endOf]
  | cons r rs ih => simp [Ascending, endOf, ih, and_assoc]

section
variable {A : List α} {id : α → ι} {top : α}

omit [LinearOrder α] in
theorem Flush.endOf_eq {last l : α} {fl : List (Range α ι)} (h : Flush last l fl) : endOf last fl = l := by
  cases h <;> rfl

theorem Flush.truthful {last l : α} {fl : List (Range α ι)} (h : Flush last l fl) : Truthful A last fl := by
  cases h <;> trivial

theorem Flush.ordered {last l : α} {fl : List (Range α ι)} (h : Flush last l fl) (hle : last ≤ l) :
    Ordered top last fl := by
  cases h with
  | none => trivial
  | skip => exact ⟨.inl hle, trivial⟩

theorem Buckets.endOf_eq {n : ℕ} {l u : α} {rs : List (Range α ι)} (h : Buckets A n l u rs) : endOf l rs = u := by
  induction h with
  | last => rfl
  | cons _ _ _ _ ih => exact ih

theorem Split.endOf_eq {l u : α} {rs : List (Range α ι)} (h : Split A id l u rs) : endOf l rs = u := by
  cases h with
  | idList => rfl
  | buckets hb => exact hb.endOf_eq

theorem Split.truthful {l u : α} {rs : List (Range α ι)} (h : Split A id l u rs) : Truthful A l rs := by
  cases h with
  | idList => trivial
  | buckets hb =>
    generalize (within A l u).length = n at hb
    induction hb with
    | last => exact ⟨rfl, trivial⟩
    | cons _ _ _ _ ih => exact ⟨rfl, ih⟩

theorem Split.ordered {l u : α} {rs : List (Range α ι)} (h : Split A id l u rs) (hle : l ≤ u) :
    Ordered top l rs := by
  cases h with
  | idList => exact ⟨.inl hle, trivial⟩
  | buckets hb =>
    generalize (within A l u).length = n at hb
    clear hle
    induction hb with
    | last h _ _ => exact ⟨.inl h, trivial⟩
    | cons h _ _ _ ih => exact ⟨.inl h, ih⟩

variable {cmp : List ι → List α → List ι × List ι} {client limited : Prop}

/-- A reply in which no split is dropped is truthful. -/
theorem Reply.truthful {started : Prop} {last l : α} {q out : List (Range α ι)} {hs ns : List ι}
    {c : List (Comparison α)} (h : Reply A id top cmp client limited started last l q out hs ns c none) :
    Truthful A last out := by
  generalize hd : (none : Option (Drop α)) = d at h
  induction h with
  | done => trivial
  | skip _ ih => exact ih hd
  | agree _ ih => exact ih hd
  | split hf hsp _ ih =>
    rw [truthful_append, hf.endOf_eq, truthful_append, hsp.endOf_eq]
    exact ⟨hf.truthful, hsp.truthful, ih hd⟩
  | cutSplit _ _ => cases hd
  | report _ _ _ ih => exact ih hd
  | answer _ hf _ ih =>
    rw [truthful_append, hf.endOf_eq]
    exact ⟨hf.truthful, ih hd⟩
  | cutAnswer _ _ hf _ _ _ =>
    rw [truthful_append, hf.endOf_eq]
    exact ⟨hf.truthful, rfl, trivial⟩

/-- A reply in which a split is dropped is truthful up to its last fingerprint, which leaves out
what lies between the end of the written ranges and that of the split. -/
theorem Reply.truthful_dropped {started : Prop} {last l : α} {q out : List (Range α ι)} {hs ns : List ι}
    {c : List (Comparison α)} {x : Drop α}
    (h : Reply A id top cmp client limited started last l q out hs ns c (some x)) :
    ∃ pre, out = pre ++ [⟨top, .fingerprint (within A x.upper top)⟩] ∧ Truthful A last pre ∧
      endOf last pre = x.last := by
  generalize hd : some x = d at h
  induction h with
  | done => cases hd
  | skip _ ih => exact ih hd
  | agree _ ih => exact ih hd
  | @split _ _ _ _ _ _ fl rs _ _ _ _ _ hf hsp _ ih =>
    obtain ⟨pre, rfl, ht, he⟩ := ih hd
    refine ⟨fl ++ (rs ++ pre), by simp, ?_, ?_⟩
    · rw [truthful_append, hf.endOf_eq, truthful_append, hsp.endOf_eq]
      exact ⟨hf.truthful, hsp.truthful, ht⟩
    · rw [endOf_append, hf.endOf_eq, endOf_append, hsp.endOf_eq, he]
  | cutSplit _ _ =>
    cases hd
    exact ⟨[], rfl, trivial, rfl⟩
  | report _ _ _ ih => exact ih hd
  | @answer _ _ l u _ _ fl _ _ _ _ _ _ hf _ ih =>
    obtain ⟨pre, rfl, ht, he⟩ := ih hd
    refine ⟨fl ++ ⟨u, .idList ((within A l u).map id)⟩ :: pre, by simp, ?_, ?_⟩
    · rw [truthful_append, hf.endOf_eq]
      exact ⟨hf.truthful, ht⟩
    · rw [endOf_append, hf.endOf_eq]
      exact he
  | cutAnswer _ _ _ _ _ _ => cases hd

theorem Reply.ordered {started : Prop} {last l : α} {q out : List (Range α ι)} {hs ns : List ι}
    {c : List (Comparison α)} {d : Option (Drop α)}
    (h : Reply A id top cmp client limited started last l q out hs ns c d) (hq : Ascending l q) (hle : last ≤ l) :
    Ordered top last out := by
  induction h with
  | done => trivial
  | skip _ ih => exact ih hq.2 (hle.trans hq.1)
  | agree _ ih => exact ih hq.2 (hle.trans hq.1)
  | split hf hsp _ ih =>
    rw [ordered_append, hf.endOf_eq, ordered_append, hsp.endOf_eq]
    exact ⟨hf.ordered hle, hsp.ordered hq.1, ih hq.2 le_rfl⟩
  | cutSplit _ _ => exact ⟨.inr rfl, trivial⟩
  | report _ _ _ ih => exact ih hq.2 (hle.trans hq.1)
  | answer _ hf _ ih =>
    rw [ordered_append, hf.endOf_eq]
    exact ⟨hf.ordered hle, .inl hq.1, ih hq.2 le_rfl⟩
  | cutAnswer _ _ hf hlv _ _ =>
    rw [ordered_append, hf.endOf_eq]
    exact ⟨hf.ordered hle, .inl hlv, .inr rfl, trivial⟩

end

/-! ### Lists of identifiers -/

/-- Every list of identifiers is that of the elements of its range. -/
def Listed (A : List α) (id : α → ι) : α → List (Range α ι) → Prop
  | _, [] => True
  | l, ⟨u, .idList ids⟩ :: rs => ids = (within A l u).map id ∧ Listed A id u rs
  | _, ⟨u, _⟩ :: rs => Listed A id u rs

section
variable {A : List α} {id : α → ι} {top last l u : α} {rs rs' fl : List (Range α ι)}

theorem listed_append : Listed A id l (rs ++ rs') ↔ Listed A id l rs ∧ Listed A id (endOf l rs) rs' := by
  induction rs generalizing l with
  | nil => simp [Listed, endOf]
  | cons r rs ih =>
    obtain ⟨u, payload⟩ := r
    cases payload <;> simp [Listed, endOf, ih, and_assoc]

theorem Flush.listed (h : Flush last l fl) : Listed A id last fl := by
  cases h <;> trivial

theorem Split.listed (h : Split A id l u rs) : Listed A id l rs := by
  cases h with
  | idList => exact ⟨rfl, trivial⟩
  | buckets hb =>
    generalize (within A l u).length = n at hb
    induction hb with
    | last => trivial
    | cons _ _ _ _ ih => exact ih

/-- Whatever is answered, dropped or cut, the lists that are sent are complete. -/
theorem Reply.listed {cmp : List ι → List α → List ι × List ι} {client limited started : Prop}
    {q out : List (Range α ι)} {hs ns : List ι} {c : List (Comparison α)} {d : Option (Drop α)}
    (h : Reply A id top cmp client limited started last l q out hs ns c d) : Listed A id last out := by
  induction h with
  | done => trivial
  | skip _ ih => exact ih
  | agree _ ih => exact ih
  | split hf hsp _ ih =>
    rw [listed_append, hf.endOf_eq, listed_append, hsp.endOf_eq]
    exact ⟨hf.listed, hsp.listed, ih⟩
  | cutSplit _ _ => trivial
  | report _ _ _ ih => exact ih
  | answer _ hf _ ih =>
    rw [listed_append, hf.endOf_eq]
    exact ⟨hf.listed, rfl, ih⟩
  | cutAnswer _ _ hf _ _ _ =>
    rw [listed_append, hf.endOf_eq]
    exact ⟨hf.listed, rfl, trivial⟩

end

/-! ### Sizes -/

/-- Every list of identifiers has at most `n` of them. -/
def Short (n : ℕ) (rs : List (Range α ι)) : Prop :=
  ∀ r ∈ rs, ∀ ids, r.payload = .idList ids → ids.length ≤ n

theorem within_short (A : List α) (id : α → ι) (l u : α) : ((within A l u).map id).length ≤ A.length := by
  rw [List.length_map]
  exact List.length_filter_le _ _

omit [LinearOrder α] in
theorem Flush.short {n : ℕ} {last l : α} {fl : List (Range α ι)} (h : Flush last l fl) : Short n fl := by
  cases h <;> simp [Short]

theorem Split.short {A : List α} {id : α → ι} {l u : α} {rs : List (Range α ι)} (h : Split A id l u rs) :
    Short A.length rs := by
  cases h with
  | idList =>
    intro r hr ids hids
    rw [List.mem_singleton.mp hr] at hids
    cases hids
    exact within_short A id l u
  | buckets hb =>
    generalize (within A l u).length = n at hb
    induction hb with
    | last => simp [Short]
    | cons _ _ _ _ ih =>
      rintro r hr ids hids
      rcases List.mem_cons.mp hr with rfl | hr
      · cases hids
      · exact ih r hr ids hids

/-- A reply holds at most as many identifiers in a range as the party has elements. -/
theorem Reply.short {A : List α} {id : α → ι} {top : α} {cmp : List ι → List α → List ι × List ι}
    {client limited started : Prop} {last l : α} {q out : List (Range α ι)} {hs ns : List ι}
    {c : List (Comparison α)} {d : Option (Drop α)}
    (h : Reply A id top cmp client limited started last l q out hs ns c d) : Short A.length out := by
  induction h with
  | done => simp [Short]
  | skip _ ih => exact ih
  | agree _ ih => exact ih
  | split hf hsp _ ih =>
    intro r hr
    rcases List.mem_append.mp hr with hr | hr
    · exact hf.short r hr
    · exact (List.mem_append.mp hr).elim (hsp.short r) (ih r)
  | cutSplit _ _ => simp [Short]
  | report _ _ _ ih => exact ih
  | @answer _ _ l u _ _ _ _ _ _ _ _ _ hf _ ih =>
    intro r hr
    rcases List.mem_append.mp hr with hr | hr
    · exact hf.short r hr
    · rcases List.mem_cons.mp hr with rfl | hr
      · rintro ids ⟨⟩
        exact within_short A id l u
      · exact ih r hr
  | @cutAnswer _ _ l _ v _ _ _ _ _ hf _ _ _ =>
    intro r hr
    rcases List.mem_append.mp hr with hr | hr
    · exact hf.short r hr
    · rcases List.mem_cons.mp hr with rfl | hr
      · rintro ids ⟨⟩
        exact within_short A id l v
      · rw [List.mem_singleton.mp hr]
        rintro ids ⟨⟩

/-! ### Order -/

/-- The ranges are in order, and none ends beyond `top`. -/
def Spans (top : α) : α → List (Range α ι) → Prop := Each fun l u _ => l ≤ u ∧ u ≤ top

section
variable {A B : List α} {id : α → ι} {top last l u p : α} {rs out : List (Range α ι)}

theorem Spans.ascending (h : Spans top l rs) : Ascending l rs := by
  induction rs generalizing l with
  | nil => trivial
  | cons r rs ih => exact ⟨h.1.1, ih h.2⟩

theorem Spans.le_of_open (h : Spans top l rs) (hp : Open l rs p) : l ≤ p := by
  induction rs generalizing l with
  | nil => exact hp.elim
  | cons r rs ih =>
    obtain ⟨⟨hle, -⟩, h⟩ := h
    obtain ⟨u, payload⟩ := r
    cases payload with
    | skip => exact hle.trans (ih h hp)
    | fingerprint X => exact hp.elim And.left fun hp => hle.trans (ih h hp)
    | idList ids => exact hp.elim And.left fun hp => hle.trans (ih h hp)

theorem Spans.lt_top_of_open (h : Spans top l rs) (hp : Open l rs p) : p < top := by
  induction rs generalizing l with
  | nil => exact hp.elim
  | cons r rs ih =>
    obtain ⟨⟨-, hle⟩, h⟩ := h
    obtain ⟨u, payload⟩ := r
    cases payload with
    | skip => exact ih h hp
    | fingerprint X => exact hp.elim (fun hp => hp.2.trans_le hle) (ih h)
    | idList ids => exact hp.elim (fun hp => hp.2.trans_le hle) (ih h)

theorem Buckets.spans {n : ℕ} (h : Buckets A n l u rs) (hu : u ≤ top) : Spans top l rs := by
  induction h with
  | last hle _ _ => exact ⟨⟨hle, hu⟩, trivial⟩
  | cons hle _ _ hrs ih => exact ⟨⟨hle, hrs.le.trans hu⟩, ih hu⟩

theorem Split.spans (h : Split A id l u rs) (hle : l ≤ u) (hu : u ≤ top) : Spans top l rs := by
  cases h with
  | idList => exact ⟨⟨hle, hu⟩, trivial⟩
  | buckets h => exact h.spans hu

theorem Flush.spans {fl : List (Range α ι)} (h : Flush last l fl) (hle : last ≤ l) (hu : l ≤ top) : Spans top last fl := by
  cases h with
  | none => trivial
  | skip => exact ⟨⟨hle, hu⟩, trivial⟩

/-- So are those of a reply, whatever the message says. -/
theorem Reply.spans {cmp : List ι → List α → List ι × List ι} {client limited started : Prop} {q : List (Range α ι)}
    {hs ns : List ι} {c : List (Comparison α)} {d : Option (Drop α)}
    (h : Reply A id top cmp client limited started last l q out hs ns c d) (hq : Spans top l q) (hle : last ≤ l)
    (hl : l ≤ top) : Spans top last out := by
  induction h with
  | done => trivial
  | skip _ ih => exact ih hq.2 (hle.trans hq.1.1) hq.1.2
  | agree _ ih => exact ih hq.2 (hle.trans hq.1.1) hq.1.2
  | split hf hsp _ ih =>
    rw [Spans, each_append, hf.endOf_eq, each_append, hsp.endOf_eq]
    exact ⟨hf.spans hle hl, hsp.spans hq.1.1 hq.1.2, ih hq.2 le_rfl hq.1.2⟩
  | cutSplit _ _ => exact ⟨⟨hle.trans hl, le_rfl⟩, trivial⟩
  | report _ _ _ ih => exact ih hq.2 (hle.trans hq.1.1) hq.1.2
  | answer _ hf _ ih =>
    rw [Spans, each_append, hf.endOf_eq]
    exact ⟨hf.spans hle hl, hq.1, ih hq.2 le_rfl hq.1.2⟩
  | cutAnswer _ _ hf hlv hvu _ =>
    rw [Spans, each_append, hf.endOf_eq]
    have hv := hvu.trans hq.1.2
    exact ⟨hf.spans hle hl, ⟨hlv, hv⟩, ⟨hv, le_rfl⟩, trivial⟩

theorem Honest.spans {lossy idle : Prop} (h : Honest A B id top lossy idle l rs) : Spans top l rs := by
  induction h with
  | nil => trivial
  | tail h h' _ => exact ⟨⟨h.trans h', le_rfl⟩, trivial⟩
  | skip h hr ih => exact ⟨⟨h, hr.le_top⟩, ih⟩
  | fingerprint h _ hr ih => exact ⟨⟨h, hr.le_top⟩, ih⟩
  | idList h _ hr ih => exact ⟨⟨h, hr.le_top⟩, ih⟩

end

theorem Honest.ascending {A B : List α} {id : α → ι} {top l : α} {lossy idle : Prop} {rs : List (Range α ι)}
    (h : Honest A B id top lossy idle l rs) : Ascending l rs :=
  h.spans.ascending

end Rbsr
