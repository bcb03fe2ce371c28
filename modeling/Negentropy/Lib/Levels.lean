import Mathlib.Algebra.GroupWithZero.Nat
import Mathlib.Data.List.Basic
import Mathlib.Data.Multiset.MapFold
import Mathlib.Tactic.Common

/-! A balanced search tree as the list of its levels. A level is a list of entries, and its
entries split the level below it among them; the lowest level splits the elements. The nodes of
a level form a doubly linked list. -/

namespace Levels

variable {α ν : Type}

/-- What an entry points to: an entry of the level below or, at the lowest level, an element
(under the id 0); `below` lists the elements it stands for. -/
structure Child (α : Type) where
  id : ℕ
  below : List α

structure Entry (α : Type) where
  id : ℕ
  children : List (Child α)

def Child.leaf (x : α) : Child α := ⟨0, [x]⟩

/-- The elements under some children. -/
def items (cs : List (Child α)) : List α := cs.flatMap Child.below

/-- The children of a level. -/
def children (L : List (Entry α)) : List (Child α) := L.flatMap Entry.children

/-- An entry, as a child of the level above. -/
def Entry.toChild (e : Entry α) : Child α := ⟨e.id, items e.children⟩

@[simp] theorem items_nil : items ([] : List (Child α)) = [] := rfl
@[simp] theorem items_cons (c : Child α) (cs : List (Child α)) : items (c :: cs) = c.below ++ items cs := rfl
@[simp] theorem items_append (cs ds : List (Child α)) : items (cs ++ ds) = items cs ++ items ds := List.flatMap_append
@[simp] theorem children_nil : children ([] : List (Entry α)) = [] := rfl
@[simp] theorem children_cons (e : Entry α) (L : List (Entry α)) : children (e :: L) = e.children ++ children L := rfl
@[simp] theorem children_append (L M : List (Entry α)) : children (L ++ M) = children L ++ children M :=
  List.flatMap_append
@[simp] theorem toChild_id (e : Entry α) : e.toChild.id = e.id := rfl
@[simp] theorem toChild_below (e : Entry α) : e.toChild.below = items e.children := rfl
@[simp] theorem leaf_id (x : α) : (Child.leaf x).id = 0 := rfl
@[simp] theorem leaf_below (x : α) : (Child.leaf x).below = [x] := rfl

@[simp] theorem items_leaf (xs : List α) : items (xs.map Child.leaf) = xs := by
  induction xs with
  | nil => rfl
  | cons x xs ih => simp [ih]

@[simp] theorem items_toChild (L : List (Entry α)) : items (L.map Entry.toChild) = items (children L) := by
  induction L with
  | nil => rfl
  | cons e L ih => simp [ih]

theorem items_ne_nil {cs : List (Child α)} (hcs : cs ≠ []) (h : ∀ c ∈ cs, c.below ≠ []) : items cs ≠ [] := by
  obtain ⟨c, cs, rfl⟩ := List.exists_cons_of_ne_nil hcs
  simp [h c List.mem_cons_self]

/-! ### Occupancy -/

/-- No entry of a level is empty or above `hi`, and only the last may be below `lo`. -/
structure Fits (lo hi : ℕ) (L : List (Entry α)) : Prop where
  ne_nil : ∀ e ∈ L, e.children ≠ []
  le : ∀ e ∈ L, e.children.length ≤ hi
  ge : ∀ e ∈ L.dropLast, lo ≤ e.children.length

variable {lo hi : ℕ}

theorem fits_nil : Fits lo hi ([] : List (Entry α)) := ⟨by simp, by simp, by simp⟩

/-- A level in two parts. -/
theorem fits_append {L M : List (Entry α)} (hM : M ≠ []) :
    Fits lo hi (L ++ M) ↔ (∀ e ∈ L, e.children ≠ [] ∧ lo ≤ e.children.length ∧ e.children.length ≤ hi) ∧ Fits lo hi M := by
  constructor
  · rintro ⟨hne, hle, hge⟩
    rw [List.dropLast_append_of_ne_nil hM] at hge
    refine ⟨fun e he => ⟨hne e ?_, hge e ?_, hle e ?_⟩, fun e he => hne e ?_, fun e he => hle e ?_,
      fun e he => hge e ?_⟩ <;> simp [he]
  · rintro ⟨hL, hne, hle, hge⟩
    refine ⟨fun e he => ?_, fun e he => ?_, fun e he => ?_⟩
    · rcases List.mem_append.mp he with he | he
      · exact (hL e he).1
      · exact hne e he
    · rcases List.mem_append.mp he with he | he
      · exact (hL e he).2.2
      · exact hle e he
    · rw [List.dropLast_append_of_ne_nil hM] at he
      rcases List.mem_append.mp he with he | he
      · exact (hL e he).2.1
      · exact hge e he

/-- An entry and what follows it. -/
theorem fits_cons {e : Entry α} {M : List (Entry α)} :
    Fits lo hi (e :: M) ↔ e.children ≠ [] ∧ e.children.length ≤ hi ∧ (M ≠ [] → lo ≤ e.children.length) ∧ Fits lo hi M := by
  rcases eq_or_ne M [] with rfl | hM
  · constructor
    · rintro ⟨hne, hle, -⟩
      exact ⟨hne e (by simp), hle e (by simp), fun h => absurd rfl h, fits_nil⟩
    · rintro ⟨hne, hle, -, -⟩
      exact ⟨by simpa using hne, by simpa using hle, by simp⟩
  · rw [show e :: M = [e] ++ M from rfl, fits_append hM]
    simp [hM]
    tauto

/-- All of a level but its end. -/
theorem Fits.left {L M : List (Entry α)} (h : Fits lo hi (L ++ M)) : Fits lo hi L where
  ne_nil e he := h.ne_nil e (by simp [he])
  le e he := h.le e (by simp [he])
  ge e he := by
    rcases eq_or_ne M [] with rfl | hM
    · exact h.ge e (by simpa using he)
    · exact (((fits_append hM).mp h).1 e (List.dropLast_subset L he)).2.1

/-- Some entries take the place of others. -/
theorem Fits.splice {left mid right es : List (Entry α)} {e : Entry α} (h : Fits lo hi (left ++ e :: (mid ++ right)))
    (hes : Fits lo hi es) (hlast : right ≠ [] → ∀ e ∈ es, lo ≤ e.children.length) : Fits lo hi (left ++ es ++ right) := by
  obtain ⟨hleft, h'⟩ := (fits_append (List.cons_ne_nil e _)).mp h
  obtain ⟨-, -, -, hright⟩ := fits_cons.mp h'
  rcases eq_or_ne right [] with rfl | hne
  · rw [List.append_nil]
    rcases eq_or_ne es [] with rfl | hes'
    · simpa using h.left
    · exact (fits_append hes').mpr ⟨hleft, hes⟩
  · refine (fits_append hne).mpr ⟨fun d hd => ?_, ((fits_append hne).mp hright).2⟩
    rcases List.mem_append.mp hd with hd | hd
    · exact hleft d hd
    · exact ⟨hes.ne_nil d hd, hlast hne d hd, hes.le d hd⟩

theorem Fits.replace {left right es : List (Entry α)} {e : Entry α} (h : Fits lo hi (left ++ e :: right))
    (hes : Fits lo hi es) (hlast : right ≠ [] → ∀ e ∈ es, lo ≤ e.children.length) : Fits lo hi (left ++ es ++ right) :=
  @Fits.splice _ _ _ left [] right es e h hes hlast

/-- An entry in its level. -/
theorem Fits.mid {left right : List (Entry α)} {e : Entry α} (h : Fits lo hi (left ++ e :: right)) :
    e.children ≠ [] ∧ e.children.length ≤ hi ∧ (right ≠ [] → lo ≤ e.children.length) := by
  obtain ⟨-, h'⟩ := (fits_append (List.cons_ne_nil e right)).mp h
  obtain ⟨hne, hle, hge, -⟩ := fits_cons.mp h'
  exact ⟨hne, hle, hge⟩

/-! ### Trees -/

/-- The levels of a tree, the highest first, from its top down to its base. -/
def Stack (lo hi : ℕ) : List (Child α) → List (List (Entry α)) → List (Child α) → Prop
  | top, [], base => top = base
  | top, L :: Ls, base => L.map Entry.toChild = top ∧ Fits lo hi L ∧ Stack lo hi (children L) Ls base

theorem Stack.items_eq {top base : List (Child α)} {Ls : List (List (Entry α))} (h : Stack lo hi top Ls base) :
    items top = items base := by
  induction Ls generalizing top with
  | nil => exact congrArg items h
  | cons L Ls ih =>
    obtain ⟨rfl, -, h⟩ := h
    rw [items_toChild, ih h]

/-- No child stands for nothing. -/
theorem Stack.below_ne_nil {top base : List (Child α)} {Ls : List (List (Entry α))} (h : Stack lo hi top Ls base)
    (hbase : ∀ c ∈ base, c.below ≠ []) : ∀ c ∈ top, c.below ≠ [] := by
  induction Ls generalizing top with
  | nil => exact fun c hc => hbase c (h ▸ hc)
  | cons L Ls ih =>
    obtain ⟨rfl, hfits, h⟩ := h
    intro c hc
    obtain ⟨e, he, rfl⟩ := List.mem_map.mp hc
    exact items_ne_nil (hfits.ne_nil e he) fun d hd => ih h d (List.mem_flatMap.mpr ⟨e, he, hd⟩)

/-- Under an empty top there is nothing. -/
theorem Stack.of_top_nil {base : List (Child α)} {Ls : List (List (Entry α))} (h : Stack lo hi [] Ls base) :
    base = [] ∧ ∀ L ∈ Ls, L = [] := by
  induction Ls with
  | nil => exact ⟨h.symm, by simp⟩
  | cons L Ls ih =>
    obtain ⟨hL, -, h⟩ := h
    obtain rfl := List.map_eq_nil_iff.mp hL
    obtain ⟨hbase, hLs⟩ := ih h
    exact ⟨hbase, by simpa using hLs⟩

/-- Under a top that is not empty no level is. -/
theorem Stack.ne_nil {top base : List (Child α)} {Ls : List (List (Entry α))} (h : Stack lo hi top Ls base)
    (htop : top ≠ []) : base ≠ [] ∧ ∀ L ∈ Ls, L ≠ [] := by
  induction Ls generalizing top with
  | nil => exact ⟨h ▸ htop, by simp⟩
  | cons L Ls ih =>
    obtain ⟨rfl, hfits, h⟩ := h
    obtain ⟨e, L, rfl⟩ := List.exists_cons_of_ne_nil fun hnil => htop (List.map_eq_nil_iff.mpr hnil)
    have hchildren : children (e :: L) ≠ [] := by simp [hfits.ne_nil e]
    obtain ⟨hbase, hLs⟩ := ih h hchildren
    exact ⟨hbase, by simpa using hLs⟩

/-! ### Sizes -/

/-- All entries but the last have `lo` children. -/
theorem Fits.lt_length_children {L : List (Entry α)} (h : Fits lo hi L) (hL : L ≠ []) :
    lo * L.length < (children L).length + lo := by
  induction L with
  | nil => exact absurd rfl hL
  | cons e L ih =>
    obtain ⟨hne, -, hge, hfits⟩ := fits_cons.mp h
    have hpos := List.length_pos_iff.mpr hne
    rw [children_cons, List.length_append, List.length_cons, Nat.mul_succ]
    rcases eq_or_ne L [] with rfl | hL
    · simp only [List.length_nil, children_nil, Nat.mul_zero]
      omega
    · have hrest := ih hfits hL
      have hhead := hge hL
      omega

/-- Below more than `k` children there are, so many levels down, more than `k` times that power of `lo`. -/
theorem Stack.pow_mul_lt {top base : List (Child α)} {Ls : List (List (Entry α))} (h : Stack lo hi top Ls base) {k : ℕ}
    (hk : k < top.length) : lo ^ Ls.length * k < base.length := by
  induction Ls generalizing top k with
  | nil =>
    obtain rfl := h
    simpa using hk
  | cons L Ls ih =>
    obtain ⟨rfl, hfits, h⟩ := h
    rw [List.length_map] at hk
    have hlt := hfits.lt_length_children (List.ne_nil_of_length_pos (Nat.zero_lt_of_lt hk))
    have hmul : lo * (k + 1) ≤ lo * L.length := Nat.mul_le_mul_left lo hk
    have hchildren : lo * k < (children L).length := by
      rw [Nat.mul_succ] at hmul
      omega
    rw [List.length_cons, Nat.pow_succ, Nat.mul_assoc]
    exact ih h hchildren

/-- The entries of all levels are fewer than the elements, up to one for each level. -/
theorem Stack.mul_sum_length_le {l : ℕ} {top base : List (Child α)} {Ls : List (List (Entry α))}
    (h : Stack (l + 1) hi top Ls base) (htop : top ≠ []) :
    l * (Ls.map List.length).sum + top.length ≤ base.length + l * Ls.length := by
  induction Ls generalizing top with
  | nil =>
    obtain rfl := h
    simp
  | cons L Ls ih =>
    obtain ⟨rfl, hfits, h⟩ := h
    have hL : L ≠ [] := fun hnil => htop (List.map_eq_nil_iff.mpr hnil)
    have hlt := hfits.lt_length_children hL
    have hchildren : children L ≠ [] := by
      obtain ⟨e, L, rfl⟩ := List.exists_cons_of_ne_nil hL
      simp [hfits.ne_nil e]
    have hrest := ih h hchildren
    rw [Nat.add_mul, Nat.one_mul] at hlt
    rw [List.map_cons, List.sum_cons, List.length_map, List.length_cons, Nat.mul_add, Nat.mul_succ]
    omega

/-! ### Paths -/

/-- A level with one child of one entry singled out. -/
structure Focus (α : Type) where
  left : List (Entry α)
  id : ℕ
  before : List (Child α)
  child : Child α
  after : List (Child α)
  right : List (Entry α)

def Focus.entry (f : Focus α) : Entry α := ⟨f.id, f.before ++ f.child :: f.after⟩
def Focus.level (f : Focus α) : List (Entry α) := f.left ++ f.entry :: f.right

@[simp] theorem Focus.entry_id (f : Focus α) : f.entry.id = f.id := rfl

/-- The levels above the child `c`, which has the children `B` to its left and `C` to its right:
each focus, the lowest first, singles out the one below it. -/
def Path (lo hi : ℕ) : List (Child α) → Child α → List (Child α) → List (Focus α) → Prop
  | B, _, C, [] => B = [] ∧ C = []
  | B, c, C, f :: fs =>
      f.child = c ∧ B = children f.left ++ f.before ∧ C = f.after ++ children f.right ∧ Fits lo hi f.level ∧
        Path lo hi (f.left.map Entry.toChild) f.entry.toChild (f.right.map Entry.toChild) fs

/-- One level further down. -/
theorem Path.descend {A Z before after : List (Child α)} {c d : Child α} {fs : List (Focus α)} {L : List (Entry α)}
    {left right : List (Entry α)} {e : Entry α} (h : Path lo hi A c Z fs) (hL : L = left ++ e :: right)
    (hA : left.map Entry.toChild = A) (hc : e.toChild = c) (hZ : right.map Entry.toChild = Z) (hfits : Fits lo hi L)
    (he : e.children = before ++ d :: after) :
    Path lo hi (children left ++ before) d (after ++ children right) (⟨left, e.id, before, d, after, right⟩ :: fs) := by
  have hentry : Focus.entry ⟨left, e.id, before, d, after, right⟩ = e := by
    rw [Focus.entry, ← he]
  refine ⟨rfl, rfl, rfl, ?_, ?_⟩
  · rw [Focus.level, hentry]
    exact hL ▸ hfits
  · rw [hentry, hA, hc, hZ]
    exact h

/-! ### Linked levels -/

/-- The first id of a level, or what comes after it. -/
def headId : List (Entry α) → ℕ → ℕ
  | [], next => next
  | e :: _, _ => e.id

/-- The last id of a level, or what comes before it. -/
def lastId : ℕ → List (Entry α) → ℕ
  | prev, [] => prev
  | _, e :: es => lastId e.id es

/-- The nodes of a stretch of a level, between the ids `prev` and `next`; `mk` builds a node from
its entry and the ids of its siblings. -/
def segment (mk : Entry α → ℕ → ℕ → ν) : ℕ → List (Entry α) → ℕ → Multiset (ℕ × ν)
  | _, [], _ => 0
  | prev, e :: es, next => (e.id, mk e prev (headId es next)) ::ₘ segment mk e.id es next

@[simp] theorem headId_nil (next : ℕ) : headId ([] : List (Entry α)) next = next := rfl
@[simp] theorem headId_cons (e : Entry α) (es : List (Entry α)) (next : ℕ) : headId (e :: es) next = e.id := rfl
@[simp] theorem lastId_nil (prev : ℕ) : lastId prev ([] : List (Entry α)) = prev := rfl
@[simp] theorem lastId_concat (prev : ℕ) (es : List (Entry α)) (e : Entry α) : lastId prev (es ++ [e]) = e.id := by
  induction es generalizing prev with
  | nil => rfl
  | cons d es ih => exact ih _

theorem headId_append (L M : List (Entry α)) (next : ℕ) : headId (L ++ M) next = headId L (headId M next) := by
  cases L <;> rfl

variable {mk : Entry α → ℕ → ℕ → ν}

@[simp] theorem segment_nil (prev next : ℕ) : segment mk prev [] next = 0 := rfl
@[simp] theorem segment_cons (prev : ℕ) (e : Entry α) (es : List (Entry α)) (next : ℕ) :
    segment mk prev (e :: es) next = (e.id, mk e prev (headId es next)) ::ₘ segment mk e.id es next := rfl

theorem segment_append (prev : ℕ) (L M : List (Entry α)) (next : ℕ) :
    segment mk prev (L ++ M) next = segment mk prev L (headId M next) + segment mk (lastId prev L) M next := by
  induction L generalizing prev with
  | nil => simp
  | cons e L ih => simp [ih, headId_append, lastId]

/-- One node of a stretch, and the stretches around it. -/
theorem segment_split (prev : ℕ) (L : List (Entry α)) (e : Entry α) (M : List (Entry α)) (next : ℕ) :
    segment mk prev (L ++ e :: M) next =
      (e.id, mk e (lastId prev L) (headId M next)) ::ₘ (segment mk prev L e.id + segment mk e.id M next) := by
  rw [segment_append, segment_cons, headId_cons, Multiset.add_cons]

/-- The nodes of a stretch are those of its entries. -/
theorem map_fst_segment (prev : ℕ) (L : List (Entry α)) (next : ℕ) :
    (segment mk prev L next).map Prod.fst = (L.map Entry.id : Multiset ℕ) := by
  induction L generalizing prev with
  | nil => rfl
  | cons e L ih => simp [ih]

theorem card_segment (prev : ℕ) (L : List (Entry α)) (next : ℕ) : (segment mk prev L next).card = L.length := by
  rw [← Multiset.card_map Prod.fst, map_fst_segment, Multiset.coe_card, List.length_map]

variable (mk) in
theorem mem_segment (prev : ℕ) {L : List (Entry α)} (next : ℕ) {e : Entry α} (he : e ∈ L) :
    ∃ p n, (e.id, mk e p n) ∈ segment mk prev L next := by
  induction L generalizing prev with
  | nil => simp at he
  | cons d L ih =>
    rw [segment_cons]
    rcases List.mem_cons.mp he with rfl | he
    · exact ⟨_, _, Multiset.mem_cons_self _ _⟩
    · obtain ⟨p, n, hmem⟩ := ih d.id he
      exact ⟨p, n, Multiset.mem_cons_of_mem hmem⟩

/-- A node of a stretch knows the entries around its own. -/
theorem mem_segment_iff {prev next id : ℕ} {L : List (Entry α)} {node : ν} :
    (id, node) ∈ segment mk prev L next ↔
      ∃ A e B, L = A ++ e :: B ∧ id = e.id ∧ node = mk e (lastId prev A) (headId B next) := by
  constructor
  · induction L generalizing prev with
    | nil => simp
    | cons d L ih =>
      rw [segment_cons, Multiset.mem_cons, Prod.mk.injEq]
      rintro (⟨rfl, rfl⟩ | hmem)
      · exact ⟨[], d, L, rfl, rfl, rfl⟩
      · obtain ⟨A, e, B, rfl, rfl, rfl⟩ := ih hmem
        exact ⟨d :: A, e, B, rfl, rfl, rfl⟩
  · rintro ⟨A, e, B, rfl, rfl, rfl⟩
    rw [segment_split]
    exact Multiset.mem_cons_self _ _

theorem lastId_eq (L : List (Entry α)) : lastId 0 L = (L.map Entry.id).getLast?.getD 0 := by
  rcases List.eq_nil_or_concat L with rfl | ⟨L, e, rfl⟩
  · rfl
  · simp

theorem headId_eq (L : List (Entry α)) : headId L 0 = (L.map Entry.id).head?.getD 0 := by
  cases L <;> rfl

end Levels
