import Negentropy.Storage.BTree.Core

/-! The slots of a node: an array that holds the node's keys in front and zero keys behind
them. What the copies of `core.h` do to such an array is said by the keys alone. -/

namespace NE.BTree

/-- An array of slots that starts with these keys. -/
def pad (cfg : Config) (ks : List Key) : List Key := ks ++ List.replicate (cfg.MAX_ITEMS + 1 - ks.length) Key.zero

variable {cfg : Config} {ks kl kr : List Key}

theorem pad_take (cfg) (ks : List Key) : (pad cfg ks).take ks.length = ks := by simp [pad]

@[simp] theorem pad_length (h : ks.length ≤ cfg.MAX_ITEMS + 1) : (pad cfg ks).length = cfg.MAX_ITEMS + 1 := by
  simp [pad]
  omega

theorem getElem?_pad (cfg : Config) (ks : List Key) (i : ℕ) :
    (pad cfg ks)[i]? = if i < ks.length then ks[i]? else if i < cfg.MAX_ITEMS + 1 then some Key.zero else none := by
  rw [pad, List.getElem?_append, List.getElem?_replicate]
  split_ifs <;> first | rfl | omega

theorem pad_getD (i : ℕ) : (pad cfg ks).getD i Key.zero = ks.getD i Key.zero := by
  rw [List.getD_eq_getElem?_getD, List.getD_eq_getElem?_getD, getElem?_pad]
  split_ifs with h1
  · rfl
  · rw [List.getElem?_eq_none (by omega)]
    rfl
  · rw [List.getElem?_eq_none (by omega)]

theorem pad_set {i : ℕ} (hi : i < ks.length) (k : Key) : (pad cfg ks).set i k = pad cfg (ks.set i k) := by
  rw [pad, List.set_append_left _ _ hi, pad, List.length_set]

/-- A key goes into the first free slot. -/
theorem pad_concat (h : ks.length ≤ cfg.MAX_ITEMS) (k : Key) : (pad cfg ks).set ks.length k = pad cfg (ks ++ [k]) := by
  obtain ⟨m, hm⟩ : ∃ m, cfg.MAX_ITEMS + 1 - ks.length = m + 1 := ⟨cfg.MAX_ITEMS - ks.length, by omega⟩
  have hm' : cfg.MAX_ITEMS + 1 - (ks ++ [k]).length = m := by simp; omega
  rw [pad, pad, hm, hm', List.set_append_right _ _ le_rfl]
  simp [List.replicate_succ]

theorem copyKeys_length {dst src : List Key} {p s n : ℕ} (hd : p + n ≤ dst.length) (hs : s + n ≤ src.length) :
    (copyKeys dst p src s n).length = dst.length := by
  simp [copyKeys]
  omega

theorem getElem?_copyKeys {dst src : List Key} {p s n : ℕ} (hd : p + n ≤ dst.length) (hs : s + n ≤ src.length) (i : ℕ) :
    (copyKeys dst p src s n)[i]? = if p ≤ i ∧ i < p + n then src[s + (i - p)]? else dst[i]? := by
  have h1 : (dst.take p).length = p := by simp; omega
  have h2 : ((src.drop s).take n).length = n := by simp; omega
  rw [copyKeys, List.append_assoc, List.getElem?_append, h1]
  split_ifs with h3 h4 h4
  · omega
  · rw [List.getElem?_take_of_lt h3]
  · rw [List.getElem?_append, h2, if_pos (by omega), List.getElem?_take_of_lt (by omega), List.getElem?_drop]
  · rw [List.getElem?_append, h2, if_neg (by omega), List.getElem?_drop]
    congr 1
    omega

theorem getElem?_zeroKeys {dst : List Key} {b e : ℕ} (hbe : b ≤ e) (he : e ≤ dst.length) (i : ℕ) :
    (zeroKeys dst b e)[i]? = if b ≤ i ∧ i < e then some Key.zero else dst[i]? := by
  rw [zeroKeys, getElem?_copyKeys (by omega) (by simp)]
  by_cases h : b ≤ i ∧ i < e
  · rw [if_pos (by omega), if_pos h, List.getElem?_replicate, if_pos (by omega)]
  · rw [if_neg (by omega), if_neg h]

theorem mergeKey_pad (h : ks.length ≤ cfg.MAX_ITEMS) (k : Key) :
    mergeKey (pad cfg ks) ks.length k = pad cfg (List.merge ks [k] (fun a b => !decide (b < a))) := by
  have hdrop : (pad cfg ks).drop (ks.length + 1) = List.replicate (cfg.MAX_ITEMS + 1 - (ks.length + 1)) Key.zero := by
    rw [pad, List.drop_append, List.drop_eq_nil_of_le (by omega), List.nil_append, List.drop_replicate]
    congr 1
    omega
  rw [mergeKey, pad_take, hdrop, pad]
  simp [List.length_merge]

/-- A stable merge puts the new key behind those that are not greater. -/
theorem merge_singleton {as cs : List Key} {k : Key} (has : ∀ a ∈ as, ¬ k < a) (hcs : ∀ c ∈ cs, k < c) :
    List.merge (as ++ cs) [k] (fun a b => !decide (b < a)) = as ++ k :: cs := by
  induction as with
  | nil =>
    cases cs with
    | nil => simp
    | cons c cs => simp [hcs c (by simp)]
  | cons a as ih =>
    have hrec := ih fun x hx => has x (by simp [hx])
    simp [has a (by simp), hrec]

theorem copyKeys_concat {m : ℕ} (hm : m ≤ kr.length) (h : kl.length + m ≤ cfg.MAX_ITEMS + 1)
    (hr : kr.length ≤ cfg.MAX_ITEMS + 1) :
    copyKeys (pad cfg kl) kl.length (pad cfg kr) 0 m = pad cfg (kl ++ kr.take m) := by
  have hl : (pad cfg kl).length = _ := pad_length (by omega)
  have hr := pad_length hr
  apply List.ext_getElem?
  intro i
  simp only [getElem?_copyKeys (show kl.length + m ≤ (pad cfg kl).length by omega) (show 0 + m ≤ (pad cfg kr).length by omega), getElem?_pad]
  grind

theorem copyKeys_front {m n : ℕ} (hn : n + m = kl.length) (h : m + kr.length ≤ cfg.MAX_ITEMS + 1)
    (hl : kl.length ≤ cfg.MAX_ITEMS + 1) :
    copyKeys (copyKeys (pad cfg kr) m (pad cfg kr) 0 kr.length) 0 (pad cfg kl) n m = pad cfg (kl.drop n ++ kr) := by
  have hl := pad_length hl
  have hr : (pad cfg kr).length = _ := pad_length (by omega)
  have hc : (copyKeys (pad cfg kr) m (pad cfg kr) 0 kr.length).length = _ := copyKeys_length (by omega) (by omega)
  apply List.ext_getElem?
  intro i
  rw [getElem?_copyKeys (by omega) (by omega), getElem?_copyKeys (by omega) (by omega)]
  simp only [getElem?_pad]
  grind

theorem copyKeys_fresh {m n : ℕ} (hn : n + m = kl.length) (h : kl.length ≤ cfg.MAX_ITEMS + 1) :
    copyKeys (pad cfg []) 0 (pad cfg kl) n m = pad cfg (kl.drop n) := by
  have hl := pad_length h
  have hr : (pad cfg []).length = _ := pad_length (by simp)
  apply List.ext_getElem?
  intro i
  rw [getElem?_copyKeys (by omega) (by omega)]
  simp only [getElem?_pad]
  grind

theorem zeroKeys_take {n : ℕ} (hn : n ≤ kl.length) (h : kl.length ≤ cfg.MAX_ITEMS + 1) :
    zeroKeys (pad cfg kl) n kl.length = pad cfg (kl.take n) := by
  have hl := pad_length h
  apply List.ext_getElem?
  intro i
  rw [getElem?_zeroKeys hn (by omega)]
  simp only [getElem?_pad]
  grind

theorem zeroKeys_drop {m : ℕ} (hm : m ≤ kr.length) (h : kr.length ≤ cfg.MAX_ITEMS + 1) :
    zeroKeys (copyKeys (pad cfg kr) 0 (pad cfg kr) m (kr.length - m)) (kr.length - m) kr.length = pad cfg (kr.drop m) := by
  have hr := pad_length h
  have hc : (copyKeys (pad cfg kr) 0 (pad cfg kr) m (kr.length - m)).length = _ := copyKeys_length (by omega) (by omega)
  apply List.ext_getElem?
  intro i
  rw [getElem?_zeroKeys (by omega) (by omega), getElem?_copyKeys (by omega) (by omega)]
  simp only [getElem?_pad]
  grind

theorem erase_pad {i : ℕ} (hi : i < ks.length) (h : ks.length ≤ cfg.MAX_ITEMS + 1) :
    (copyKeys (pad cfg ks) i (pad cfg ks) (i + 1) (ks.length - (i + 1))).set (ks.length - 1) Key.zero =
      pad cfg (ks.eraseIdx i) := by
  have hr := pad_length h
  have hc : (copyKeys (pad cfg ks) i (pad cfg ks) (i + 1) (ks.length - (i + 1))).length = _ :=
    copyKeys_length (by omega) (by omega)
  apply List.ext_getElem?
  intro j
  rw [List.getElem?_set, getElem?_copyKeys (by omega) (by omega)]
  simp only [getElem?_pad, List.getElem?_eraseIdx, List.length_eraseIdx]
  grind

end NE.BTree
