import Mathlib.Order.Lattice
import Negentropy.Encoding

/-! The data types of `types.h`: items and bounds with their order, fingerprints,
and the 256-bit accumulator. A byte array of fixed length is a list that carries
its length, and a `Bound` carries its zero padding, so that only values the
constructors can build exist. -/

namespace NE

def ID_SIZE : ℕ := 32
def FINGERPRINT_SIZE : ℕ := 16
def MAX_U64 : UInt64 := 0xFFFFFFFFFFFFFFFF

/-! The two frame size limits of the examples pass the constructor's check. -/

theorem limit_ok_none : (0 : ℕ) = 0 ∨ 4096 ≤ 0 := .inl rfl
theorem limit_ok_least : (4096 : ℕ) = 0 ∨ 4096 ≤ 4096 := .inr (Nat.le_refl _)

inductive Mode where
  | skip
  | fingerprint
  | idList
  deriving DecidableEq, Repr

def Mode.toU64 : Mode → UInt64
  | .skip => 0
  | .fingerprint => 1
  | .idList => 2

/-- `Mode(n)`: the value is converted to the enumeration's underlying 32-bit
`int` before it is compared with the enumerators. -/
def Mode.ofU64 (n : UInt64) : Option Mode :=
  match n.toUInt32 with
  | 0 => some .skip
  | 1 => some .fingerprint
  | 2 => some .idList
  | _ => none

@[simp] theorem Mode.ofU64_toU64 (m : Mode) : Mode.ofU64 m.toU64 = some m := by
  cases m <;> rfl

/-! ### Identifiers -/

theorem length_zeros : (List.replicate ID_SIZE (0 : UInt8)).length = ID_SIZE := List.length_replicate

@[ext] structure ItemId where
  bytes : Bytes
  length_eq : bytes.length = ID_SIZE
  deriving DecidableEq

namespace ItemId

def zero : ItemId := ⟨List.replicate ID_SIZE 0, length_zeros⟩

/-- `std::string_view` compares like `memcmp`: lexically, by unsigned bytes. -/
instance : LT ItemId := ⟨fun a b => a.bytes < b.bytes⟩
instance : LE ItemId := ⟨fun a b => a.bytes ≤ b.bytes⟩

instance : DecidableLT ItemId := fun a b => inferInstanceAs (Decidable (a.bytes < b.bytes))
instance : DecidableLE ItemId := fun a b => inferInstanceAs (Decidable (a.bytes ≤ b.bytes))

theorem lt_def {a b : ItemId} : a < b ↔ a.bytes < b.bytes := Iff.rfl

theorem lt_iff_le_not_ge (a b : ItemId) : a < b ↔ a ≤ b ∧ ¬ b ≤ a := by
  constructor
  · intro h
    exact ⟨List.le_of_lt h, fun hba => hba h⟩
  · rintro ⟨-, h⟩
    exact List.not_le.mp h

instance : LinearOrder ItemId where
  le_refl a := List.le_refl a.bytes
  le_trans _ _ _ h h' := List.le_trans h h'
  le_antisymm _ _ h h' := ItemId.ext (List.le_antisymm h h')
  le_total a b := List.le_total a.bytes b.bytes
  lt_iff_le_not_ge := lt_iff_le_not_ge
  toDecidableLE := inferInstance
  toDecidableLT := inferInstance
  toDecidableEq := inferInstance

end ItemId

/-! ### Items -/

@[ext] structure Item where
  timestamp : UInt64 := 0
  id : ItemId := ItemId.zero
  deriving DecidableEq

namespace Item

theorem id_length (item : Item) : item.id.bytes.length = ID_SIZE := item.id.length_eq

instance : LT Item := ⟨fun a b =>
  if a.timestamp ≠ b.timestamp then a.timestamp < b.timestamp else a.id < b.id⟩
instance : LE Item := ⟨fun a b =>
  if a.timestamp ≠ b.timestamp then a.timestamp ≤ b.timestamp else a.id ≤ b.id⟩

instance : DecidableLT Item := fun a b => inferInstanceAs (Decidable
  (if a.timestamp ≠ b.timestamp then a.timestamp < b.timestamp else a.id < b.id))
instance : DecidableLE Item := fun a b => inferInstanceAs (Decidable
  (if a.timestamp ≠ b.timestamp then a.timestamp ≤ b.timestamp else a.id ≤ b.id))

theorem lt_iff {a b : Item} :
    a < b ↔ a.timestamp < b.timestamp ∨ a.timestamp = b.timestamp ∧ a.id < b.id := by
  change (if a.timestamp ≠ b.timestamp then _ else _) ↔ _
  by_cases h : a.timestamp = b.timestamp
  · simp [h]
  · simp [h]

theorem le_iff {a b : Item} :
    a ≤ b ↔ a.timestamp < b.timestamp ∨ a.timestamp = b.timestamp ∧ a.id ≤ b.id := by
  change (if a.timestamp ≠ b.timestamp then _ else _) ↔ _
  by_cases h : a.timestamp = b.timestamp
  · simp [h]
  · simp only [ne_eq, h, not_false_eq_true, if_true, false_and, or_false]
    exact ⟨fun hle => UInt64.lt_of_le_of_ne hle h, UInt64.le_of_lt⟩

/-- The order of `operator<` and `operator<=` is the lexicographic one. -/
instance : LinearOrder Item where
  le_refl a := le_iff.mpr (Or.inr ⟨rfl, le_refl _⟩)
  le_trans a b c hab hbc := by
    rw [le_iff] at *
    rcases hab with hab | ⟨hab, hab'⟩ <;> rcases hbc with hbc | ⟨hbc, hbc'⟩
    · exact Or.inl (UInt64.lt_trans hab hbc)
    · exact Or.inl (hbc ▸ hab)
    · exact Or.inl (hab ▸ hbc)
    · exact Or.inr ⟨hab.trans hbc, hab'.trans hbc'⟩
  le_antisymm a b hab hba := by
    rw [le_iff] at *
    rcases hab with hab | ⟨hab, hab'⟩ <;> rcases hba with hba | ⟨hba, hba'⟩
    · exact absurd (UInt64.lt_trans hab hba) (UInt64.lt_irrefl _)
    · exact absurd (hba ▸ hab) (UInt64.lt_irrefl _)
    · exact absurd (hab ▸ hba) (UInt64.lt_irrefl _)
    · exact Item.ext hab (le_antisymm hab' hba')
  le_total a b := by
    rw [le_iff, le_iff]
    by_cases h : a.timestamp = b.timestamp
    · simp only [h, UInt64.lt_irrefl, false_or, true_and]
      exact le_total a.id b.id
    · rcases UInt64.le_total a.timestamp b.timestamp with hle | hle
      · exact Or.inl (Or.inl (UInt64.lt_of_le_of_ne hle h))
      · exact Or.inr (Or.inl (UInt64.lt_of_le_of_ne hle (Ne.symm h)))
  lt_iff_le_not_ge a b := by
    rw [lt_iff, le_iff, le_iff]
    by_cases h : a.timestamp = b.timestamp
    · simp only [h, UInt64.lt_irrefl, false_or, true_and]
      exact ItemId.lt_iff_le_not_ge a.id b.id
    · simp only [h, Ne.symm h, false_and, or_false]
      exact ⟨fun hlt => ⟨hlt, UInt64.lt_asymm hlt⟩, fun hlt => hlt.1⟩
  toDecidableLE := inferInstance
  toDecidableLT := inferInstance
  toDecidableEq := inferInstance

theorem timestamp_le {a b : Item} (h : a ≤ b) : a.timestamp ≤ b.timestamp := by
  rcases le_iff.mp h with h | ⟨h, -⟩
  · exact UInt64.le_of_lt h
  · exact h ▸ UInt64.le_refl _

theorem lt_of_timestamp_lt {a b : Item} (h : a.timestamp < b.timestamp) : a < b :=
  lt_iff.mpr (Or.inl h)

end Item

/-! ### Bounds -/

/-- `idLen` bytes of the item's id are sent, the others are zero. -/
@[ext] structure Bound where
  item : Item
  idLen : ℕ
  idLen_le : idLen ≤ ID_SIZE
  zero_padded : item.id.bytes.drop idLen = List.replicate (ID_SIZE - idLen) 0
  deriving DecidableEq

/-- An id prefix copied over 32 zero bytes. -/
def ItemId.ofPrefix (id : Bytes) (h : id.length ≤ ID_SIZE) : ItemId where
  bytes := id ++ List.replicate (ID_SIZE - id.length) 0
  length_eq := by simp [Nat.add_sub_cancel' h]

namespace Bound

/-- `Bound(timestamp, id)` once its length check has passed. -/
def ofPrefix (timestamp : UInt64) (id : Bytes) (h : id.length ≤ ID_SIZE) : Bound where
  item := ⟨timestamp, ItemId.ofPrefix id h⟩
  idLen := id.length
  idLen_le := h
  zero_padded := by simp [ItemId.ofPrefix]

/-- `Bound(timestamp, id)`. -/
def make (timestamp : UInt64) (id : Bytes) : Except Err Bound :=
  if h : id.length ≤ ID_SIZE then .ok (ofPrefix timestamp id h)
  else .error (.err "bad id size for Bound")

/-- `Bound(timestamp)`. -/
def ofTimestamp (timestamp : UInt64) : Bound := ofPrefix timestamp [] (Nat.zero_le _)

/-- `Bound(item)`. -/
def ofItem (item : Item) : Bound where
  item := item
  idLen := ID_SIZE
  idLen_le := Nat.le_refl _
  zero_padded := by simp [List.drop_eq_nil_iff, item.id.length_eq]

def zero : Bound := ofTimestamp 0
def infinity : Bound := ofTimestamp MAX_U64

@[simp] theorem ofItem_item (item : Item) : (ofItem item).item = item := rfl
@[simp] theorem ofTimestamp_timestamp (t : UInt64) : (ofTimestamp t).item.timestamp = t := rfl

/-- `operator==` looks at the items only. -/
def sameItem (a b : Bound) : Bool := a.item == b.item

/-- The bytes of the id that are sent. -/
def idPrefix (b : Bound) : Bytes := b.item.id.bytes.take b.idLen

theorem idPrefix_length (b : Bound) : b.idPrefix.length = b.idLen := by
  have h := b.idLen_le
  simp [idPrefix, b.item.id.length_eq, h]

/-- A bound is what the constructor builds from its timestamp and id prefix. -/
theorem make_idPrefix (b : Bound) : make b.item.timestamp b.idPrefix = .ok b := by
  have hlen : b.idPrefix.length ≤ ID_SIZE := b.idPrefix_length ▸ b.idLen_le
  rw [make, dif_pos hlen]
  congr 1
  apply Bound.ext
  · apply Item.ext
    · rfl
    · apply ItemId.ext
      change b.idPrefix ++ List.replicate (ID_SIZE - b.idPrefix.length) 0 = b.item.id.bytes
      rw [idPrefix_length, ← b.zero_padded, idPrefix, List.take_append_drop]
  · exact b.idPrefix_length

end Bound

theorem not_lt_replicate_zero (l : Bytes) : ¬ l < List.replicate l.length 0 := by
  induction l with
  | nil => exact List.not_lt_nil _
  | cons b l ih =>
    rw [List.length_cons, List.replicate_succ, List.cons_lt_cons_iff]
    rintro (hb | ⟨-, hl⟩)
    · exact UInt8.not_lt_zero hb
    · exact ih hl

theorem ItemId.zero_le (id : ItemId) : ItemId.zero ≤ id := by
  refine le_of_not_gt fun h => ?_
  have := not_lt_replicate_zero id.bytes
  rw [id.length_eq] at this
  exact this h

/-- No item is below the zero bound. -/
theorem Bound.zero_le (x : Item) : Bound.zero.item ≤ x := by
  rw [Item.le_iff]
  by_cases h : x.timestamp = 0
  · exact Or.inr ⟨h.symm, ItemId.zero_le x.id⟩
  · exact Or.inl (UInt64.pos_iff_ne_zero.mpr h)

/-- Every item that is not at the reserved timestamp is below the infinity bound. -/
theorem Bound.lt_infinity {x : Item} (h : x.timestamp < MAX_U64) : x < Bound.infinity.item :=
  Item.lt_of_timestamp_lt h

/-! ### Fingerprints and accumulators -/

@[ext] structure Fingerprint where
  buf : Bytes
  length_eq : buf.length = FINGERPRINT_SIZE
  deriving DecidableEq

/-- OpenSSL's `SHA256`. -/
class Sha256 where
  sha256 : Bytes → Bytes
  length_sha256 : ∀ input, (sha256 input).length = 32

@[ext] structure Accumulator where
  buf : Bytes
  length_eq : buf.length = ID_SIZE
  deriving DecidableEq

/-- A little-endian load of up to eight bytes. -/
def loadLE (bs : Bytes) : UInt64 := bs.foldr (fun b w => b.toUInt64 + 256 * w) 0

/-- The `n` low bytes of a word, least significant first. -/
def storeLE : ℕ → UInt64 → Bytes
  | 0, _ => []
  | n + 1, w => w.toUInt8 :: storeLE n (w >>> 8)

@[simp] theorem storeLE_length (n : ℕ) (w : UInt64) : (storeLE n w).length = n := by
  induction n generalizing w with
  | zero => rfl
  | succ n ih => simp [storeLE, ih]

namespace Accumulator

/-- The loop of `Accumulator::add` over the remaining 64-bit limbs. -/
def addLimbs : ℕ → UInt64 → Bytes → Bytes → Bytes
  | 0, _, _, _ => []
  | limbs + 1, currCarry, p, po =>
      let orig := loadLE (p.take 8)
      let otherV := loadLE (po.take 8)
      let next := orig + currCarry
      let nextCarry : UInt64 := if next < orig then 1 else 0
      let next := next + otherV
      let nextCarry := if next < otherV then 1 else nextCarry
      storeLE 8 next ++ addLimbs limbs nextCarry (p.drop 8) (po.drop 8)

theorem addLimbs_length (limbs : ℕ) (carry : UInt64) (p po : Bytes) :
    (addLimbs limbs carry p po).length = 8 * limbs := by
  induction limbs generalizing carry p po with
  | zero => rfl
  | succ limbs ih =>
    simp only [addLimbs, List.length_append, storeLE_length, ih]
    omega

def setToZero : Accumulator := ⟨List.replicate ID_SIZE 0, length_zeros⟩

/-- `add(const uint8_t *)`, on any 32 bytes. -/
def addBuf (acc : Accumulator) (otherBuf : Bytes) : Accumulator :=
  ⟨addLimbs 4 0 acc.buf otherBuf, addLimbs_length 4 0 acc.buf otherBuf⟩

def add (acc other : Accumulator) : Accumulator := acc.addBuf other.buf
def addItem (acc : Accumulator) (item : Item) : Accumulator := acc.addBuf item.id.bytes

def negate (acc : Accumulator) : Accumulator :=
  addBuf ⟨acc.buf.map (~~~ ·), by simpa using acc.length_eq⟩ (1 :: List.replicate 31 0)

def subBuf (acc : Accumulator) (otherBuf : Bytes) (h : otherBuf.length = ID_SIZE) : Accumulator :=
  acc.add (negate ⟨otherBuf, h⟩)

def sub (acc other : Accumulator) : Accumulator := acc.subBuf other.buf other.length_eq
def subItem (acc : Accumulator) (item : Item) : Accumulator :=
  acc.subBuf item.id.bytes item.id.length_eq

/-- The first bytes of the hash of the sum and the number of items. -/
def getFingerprint [Sha256] (acc : Accumulator) (n : UInt64) : Fingerprint where
  buf := (Sha256.sha256 (acc.buf ++ encodeVarInt n)).take FINGERPRINT_SIZE
  length_eq := by simp [Sha256.length_sha256, FINGERPRINT_SIZE]

end Accumulator

/-! ### Sample items -/

section Example

theorem sampleId_length (timestamp n : ℕ) :
    (UInt8.ofNat timestamp :: (List.replicate 30 0 ++ [UInt8.ofNat n])).length = ID_SIZE := by
  simp [ID_SIZE]

/-- An item with a small timestamp and an id that starts with it and ends with `n`. -/
def sampleItem (timestamp n : ℕ) : Item where
  timestamp := UInt64.ofNat timestamp
  id := ⟨UInt8.ofNat timestamp :: (List.replicate 30 0 ++ [UInt8.ofNat n]), sampleId_length timestamp n⟩

def itemsAt (timestamps : List ℕ) : List Item := timestamps.map (sampleItem · 0)

theorem sampleItem_lt {t t' n n' : ℕ} (ht : t' < 256) (hn : n' < 256) (h : t < t' ∨ t = t' ∧ n < n') :
    sampleItem t n < sampleItem t' n' := by
  rw [Item.lt_iff]
  rcases h with h | ⟨rfl, h⟩
  · refine .inl (UInt64.lt_iff_toNat_lt.mpr ?_)
    simp only [sampleItem, UInt64.toNat_ofNat']
    omega
  · have hbyte : [UInt8.ofNat n] < [UInt8.ofNat n'] := by
      refine List.Lex.rel (UInt8.lt_iff_toNat_lt.mpr ?_)
      simp only [UInt8.toNat_ofNat']
      omega
    have hid : (UInt8.ofNat t :: List.replicate 30 0) ++ [UInt8.ofNat n] < (UInt8.ofNat t :: List.replicate 30 0) ++ [UInt8.ofNat n'] :=
      List.append_left_lt hbyte
    exact .inr ⟨rfl, hid⟩

/-- The timestamp is the first byte of the id. -/
def SmallTimestamp (x : Item) : Prop := x.timestamp = (x.id.bytes.headD 0).toUInt64

theorem SmallTimestamp.toNat_lt {x : Item} (h : SmallTimestamp x) : x.timestamp.toNat < 256 := by
  rw [h, UInt8.toNat_toUInt64]
  exact UInt8.toNat_lt _

theorem SmallTimestamp.lt_max {x : Item} (h : SmallTimestamp x) : x.timestamp < MAX_U64 :=
  UInt64.lt_iff_toNat_lt.mpr (h.toNat_lt.trans (by decide))

theorem sampleItem_small {t : ℕ} (n : ℕ) (ht : t < 256) : SmallTimestamp (sampleItem t n) := by
  apply UInt64.toNat_inj.mp
  simp only [sampleItem, List.headD_cons, UInt8.toNat_toUInt64, UInt8.toNat_ofNat', UInt64.toNat_ofNat']
  omega

section
variable {ts ns : List ℕ} (hts : ts.Pairwise (· < ·)) (ht : ∀ t ∈ ts, t < 256) (hns : ns.Pairwise (· < ·)) (hn : ∀ n ∈ ns, n < 256)

include hts ht in
theorem itemsAt_sorted : (itemsAt ts).Pairwise (· < ·) :=
  List.pairwise_map.mpr (hts.imp_of_mem fun _ ht' h => sampleItem_lt (ht _ ht') (by decide) (.inl h))

include ht in
theorem itemsAt_small : ∀ x ∈ itemsAt ts, SmallTimestamp x := by
  intro x hx
  obtain ⟨t, htm, rfl⟩ := List.mem_map.mp hx
  exact sampleItem_small 0 (ht t htm)

include hts ht hns hn in
/-- As many items at each of the timestamps. -/
theorem samples_sorted : (ts.flatMap fun t => ns.map (sampleItem t)).Pairwise (· < ·) := by
  refine List.pairwise_flatMap.mpr ⟨fun t htm => List.pairwise_map.mpr ?_, ?_⟩
  · exact hns.imp_of_mem fun _ hn' h => sampleItem_lt (ht t htm) (hn _ hn') (.inr ⟨rfl, h⟩)
  · refine hts.imp_of_mem fun {t t'} _ ht' h x hx y hy => ?_
    obtain ⟨n, -, rfl⟩ := List.mem_map.mp hx
    obtain ⟨n', hn', rfl⟩ := List.mem_map.mp hy
    exact sampleItem_lt (ht t' ht') (hn n' hn') (.inl h)

theorem samples_length (ts ns : List ℕ) : (ts.flatMap fun t => ns.map (sampleItem t)).length = ts.length * ns.length := by
  induction ts with
  | nil => exact (Nat.zero_mul _).symm
  | cons t ts ih => rw [List.flatMap_cons, List.length_append, List.length_map, ih, List.length_cons, Nat.succ_mul, Nat.add_comm]

include ht in
theorem samples_small : ∀ x ∈ ts.flatMap (fun t => ns.map (sampleItem t)), SmallTimestamp x := by
  intro x hx
  obtain ⟨t, htm, hx⟩ := List.mem_flatMap.mp hx
  obtain ⟨n, -, rfl⟩ := List.mem_map.mp hx
  exact sampleItem_small n (ht t htm)

end

end Example

end NE
