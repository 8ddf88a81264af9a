import PgAutoIndex.Port
import PgAutoIndex.RobinHood

/-!
# Hash tables of `simplehash.h`

Model of the functions that `src/include/lib/simplehash.h` generates: tables with linear probing
whose entries are kept in the order of their distance from the optimal bucket. The types and
functions that the including file chooses are the parameters `ShParams`, with what they have to
obey.

A bucket is in use or not; the rest of a bucket that is not in use is what was left there. Loops
over buckets are given as many rounds as there are buckets, and the loop of the insertion that
starts anew after the table has grown as many as there are sizes. A loop that does not end within
them is a `fault`.

The second part describes the loops: what a probe stops at, and what the loops that shift entries
leave.
-/

namespace PgAutoIndex.Lib

open RobinHood Function

/-! ## The model -/

/-- What the file that includes the header defines. Equality is an equivalence, and equal keys have
the same hash value. -/
structure ShParams (K : Type*) where
  /-- `SH_HASH_KEY`. -/
  hashKey : K → ℕ
  /-- `SH_EQUAL`. -/
  equal : K → K → Bool
  /-- Whether `SH_STORE_HASH` is defined. -/
  storeHash : Bool
  /-- `SH_GROW_MAX_DIB`. -/
  growMaxDib : ℕ
  /-- `SH_GROW_MAX_MOVE`. -/
  growMaxMove : ℕ
  /-- `sizeof(SH_ELEMENT_TYPE)`. -/
  sizeofElement : ℕ
  hashKey_lt : ∀ k, hashKey k < 2^32
  equal_refl : ∀ k, equal k k = true
  equal_symm : ∀ k l, equal k l = true → equal l k = true
  equal_trans : ∀ k l m, equal k l = true → equal l m = true → equal k m = true
  /-- With stored hash values, keys are compared only when these are the same. -/
  hashKey_of_equal : storeHash = false → ∀ k l, equal k l = true → hashKey k = hashKey l

/-- `SH_ELEMENT_TYPE`; the stored hash value is used with `SH_STORE_HASH` only. -/
structure Element (K P : Type*) where
  inUse : Bool
  hash : ℕ
  key : K
  payload : P

/-- `SH_TYPE`. -/
structure ShTable (K P : Type*) where
  size : ℕ
  members : ℕ
  growThreshold : ℕ
  data : ℕ → Element K P

/-- What can keep an operation from returning. -/
inductive ShError
  /-- hash table too large -/
  | tooLarge
  /-- hash table size exceeded -/
  | sizeExceeded
  /-- A loop does not end. -/
  | fault
  deriving DecidableEq

/-- `SH_MAX_SIZE`. -/
def SH_MAX_SIZE : ℕ := 2^32

/-- `SH_INITIAL_BUCKET`. -/
def shInitialBucket (size hash : ℕ) : ℕ := hash &&& (size - 1)

/-- `SH_NEXT`. -/
def shNext (size curelem : ℕ) : ℕ := (curelem + 1) % 2^32 &&& (size - 1)

/-- `SH_PREV`. -/
def shPrev (size curelem : ℕ) : ℕ := (curelem + 2^32 - 1) % 2^32 &&& (size - 1)

/-- `SH_DISTANCE_FROM_OPTIMAL`. -/
def shDistanceFromOptimal (size optimal bucket : ℕ) : ℕ :=
  if optimal ≤ bucket then bucket - optimal else size + bucket - optimal

/-- The new value of `grow_threshold`. The numbers are those of the doubles `SH_FILLFACTOR` and
`SH_MAX_FILLFACTOR`, and the products are exact. -/
def growThresholdFor (size : ℕ) : ℕ :=
  if size = SH_MAX_SIZE then size * 2206763817411543 / 2^51 else size * 8106479329266893 / 2^53

/-- Whether the table is filled to `SH_GROW_MIN_FILLFACTOR`. The number is that of the double, and
the quotient is exact. -/
def atMinFillfactor (size members : ℕ) : Bool := decide (size * 3602879701896397 ≤ members * 2^55)

/-- A loop over buckets that ends with what `stop` says of a bucket. -/
def probe {β : Type*} (size : ℕ) (stop : ℕ → Option β) : ℕ → ℕ → Option β
  | 0, _ => none
  | n + 1, curelem =>
    match stop curelem with
    | some r => some r
    | none => probe size stop n (shNext size curelem)

/-- The loop of `SH_INSERT_HASH_INTERNAL` that shifts entries forward, from an empty bucket back to
`curelem`. -/
def shiftLoop {K P : Type*} (size curelem : ℕ) :
    ℕ → ℕ → (ℕ → Element K P) → Option (ℕ → Element K P)
  | 0, _, _ => none
  | n + 1, moveelem, data =>
    if moveelem = curelem then some data
    else shiftLoop size curelem n (shPrev size moveelem)
      (update data moveelem (data (shPrev size moveelem)))

section
variable {K P : Type*} (prm : ShParams K)

/-- `SH_COMPUTE_SIZE`. -/
def shComputeSize (newsize : ℕ) : Except ShError ℕ :=
  let size := pgNextpower2 (max newsize 2)
  if prm.sizeofElement * size ≥ (2^64 - 1) / 2 then .error .tooLarge else .ok size

/-- `SH_ENTRY_HASH`. -/
def shEntryHash (entry : Element K P) : ℕ :=
  if prm.storeHash then entry.hash else prm.hashKey entry.key

/-- `SH_COMPARE_KEYS`. -/
def shCompareKeys (hash : ℕ) (key : K) (entry : Element K P) : Bool :=
  if prm.storeHash then decide (hash = entry.hash) && prm.equal entry.key key
  else prm.equal entry.key key

/-- The loop of `SH_GROW` over the old buckets, of which `n` are left. -/
def copyLoop (oldsize newsize : ℕ) (olddata : ℕ → Element K P) :
    ℕ → ℕ → (ℕ → Element K P) → Option (ℕ → Element K P)
  | 0, _, newdata => some newdata
  | n + 1, copyelem, newdata =>
    let next := if copyelem + 1 ≥ oldsize then 0 else copyelem + 1
    if (olddata copyelem).inUse then
      match probe newsize (fun curelem => if (newdata curelem).inUse then none
        else some curelem) newsize
          (shInitialBucket newsize (shEntryHash prm (olddata copyelem))) with
      | none => none
      | some curelem =>
        copyLoop oldsize newsize olddata n next (update newdata curelem (olddata copyelem))
    else copyLoop oldsize newsize olddata n next newdata

/-- The first bucket that is empty or holds an entry at its optimal position in the new table. -/
def findStart (oldsize newsize : ℕ) (olddata : ℕ → Element K P) : ℕ :=
  ((List.range oldsize).find? fun i =>
    !(olddata i).inUse || decide (shInitialBucket newsize (shEntryHash prm (olddata i)) = i)).getD 0

/-- `SH_GROW`. The new memory is filled with zeros, which are the default values here. -/
def shGrow [Inhabited K] [Inhabited P] (tb : ShTable K P) (newsize : ℕ) :
    Except ShError (ShTable K P) :=
  match shComputeSize prm newsize with
  | .error e => .error e
  | .ok size =>
    match copyLoop prm tb.size size tb.data tb.size (findStart prm tb.size size tb.data)
      fun _ => ⟨false, 0, default, default⟩ with
    | none => .error .fault
    | some data => .ok ⟨size, tb.members, growThresholdFor size, data⟩

/-- Where the search of an insertion ends. -/
inductive InsertStop
  | empty (curelem : ℕ)
  | found (curelem : ℕ)
  | displace (curelem : ℕ)
  | restart

/-- The loop of `SH_INSERT_HASH_INTERNAL`. -/
def insertLoop (tb : ShTable K P) (key : K) (hash : ℕ) : ℕ → ℕ → ℕ → Option InsertStop
  | 0, _, _ => none
  | n + 1, curelem, insertdist =>
    let entry := tb.data curelem
    if !entry.inUse then some (.empty curelem)
    else if shCompareKeys prm hash key entry then some (.found curelem)
    else if insertdist > shDistanceFromOptimal tb.size
      (shInitialBucket tb.size (shEntryHash prm entry)) curelem then some (.displace curelem)
    else if insertdist + 1 > prm.growMaxDib && atMinFillfactor tb.size tb.members then some .restart
    else insertLoop tb key hash n (shNext tb.size curelem) (insertdist + 1)

/-- The loop of `SH_INSERT_HASH_INTERNAL` for the next empty bucket; `some none` is a restart. -/
def emptyLoop (tb : ShTable K P) : ℕ → ℕ → ℕ → Option (Option ℕ)
  | 0, _, _ => none
  | n + 1, emptyelem, emptydist =>
    let emptyelem := shNext tb.size emptyelem
    if !(tb.data emptyelem).inUse then some (some emptyelem)
    else if emptydist + 1 > prm.growMaxMove && atMinFillfactor tb.size tb.members then some none
    else emptyLoop tb n emptyelem (emptydist + 1)

/-- The end of an insertion: fill the bucket. -/
def fillBucket (tb : ShTable K P) (data : ℕ → Element K P) (curelem : ℕ) (key : K) (hash : ℕ) :
    ShTable K P :=
  let entry := data curelem
  { tb with
    members := tb.members + 1
    data := update data curelem
      { entry with inUse := true, key := key, hash := if prm.storeHash then hash else entry.hash } }

/-- `SH_INSERT_HASH_INTERNAL`: whether the key was found, and its bucket. The first argument bounds
the number of restarts. -/
def shInsertHashInternal [Inhabited K] [Inhabited P] (key : K) (hash : ℕ) :
    ℕ → ShTable K P → Except ShError (Bool × ℕ) × ShTable K P
  | 0, tb => (.error .fault, tb)
  | n + 1, tb =>
    let grown : Except ShError (ShTable K P) :=
      if tb.members ≥ tb.growThreshold then
        if tb.size = SH_MAX_SIZE then .error .sizeExceeded else shGrow prm tb (tb.size * 2)
      else .ok tb
    match grown with
    | .error e => (.error e, tb)
    | .ok tb =>
      match insertLoop prm tb key hash tb.size (shInitialBucket tb.size hash) 0 with
      | none => (.error .fault, tb)
      | some (.empty curelem) => (.ok (false, curelem), fillBucket prm tb tb.data curelem key hash)
      | some (.found curelem) => (.ok (true, curelem), tb)
      | some .restart => shInsertHashInternal key hash n { tb with growThreshold := 0 }
      | some (.displace curelem) =>
        match emptyLoop prm tb tb.size curelem 0 with
        | none => (.error .fault, tb)
        | some none => shInsertHashInternal key hash n { tb with growThreshold := 0 }
        | some (some emptyelem) =>
          match shiftLoop tb.size curelem tb.size emptyelem tb.data with
          | none => (.error .fault, tb)
          | some data => (.ok (false, curelem), fillBucket prm tb data curelem key hash)

/-- `SH_INSERT`. There are fewer than 34 sizes. -/
def shInsert [Inhabited K] [Inhabited P] (tb : ShTable K P) (key : K) :
    Except ShError (Bool × ℕ) × ShTable K P :=
  shInsertHashInternal prm key (prm.hashKey key) 34 tb

/-- What the searches of `SH_LOOKUP` and `SH_DELETE` stop at. -/
def lookupStop (tb : ShTable K P) (key : K) (hash curelem : ℕ) : Option (Option ℕ) :=
  let entry := tb.data curelem
  if !entry.inUse then some none
  else if shCompareKeys prm hash key entry then some (some curelem)
  else none

/-- `SH_LOOKUP`: the bucket of the key, or `none`. -/
def shLookup (tb : ShTable K P) (key : K) : Except ShError (Option ℕ) :=
  let hash := prm.hashKey key
  match probe tb.size (lookupStop prm tb key hash) tb.size (shInitialBucket tb.size hash) with
  | none => .error .fault
  | some r => .ok r

/-- The loop of `SH_DELETE` and `SH_DELETE_ITEM` that shifts entries back; `lastentry` is the bucket
`last`. -/
def deleteLoop (size : ℕ) : ℕ → ℕ → (ℕ → Element K P) → Option (ℕ → Element K P)
  | 0, _, _ => none
  | n + 1, last, data =>
    let curelem := shNext size last
    if !(data curelem).inUse then some (update data last { data last with inUse := false })
    else if shInitialBucket size (shEntryHash prm (data curelem)) = curelem
      then some (update data last { data last with inUse := false })
    else deleteLoop size n curelem (update data last (data curelem))

/-- `SH_DELETE_ITEM`, for the entry in a bucket. -/
def shDeleteItem (tb : ShTable K P) (entry : ℕ) : Except ShError (ShTable K P) :=
  match deleteLoop prm tb.size tb.size entry tb.data with
  | none => .error .fault
  | some data => .ok { tb with members := tb.members - 1, data := data }

/-- `SH_DELETE`: whether the key was present. Its second loop is that of `SH_DELETE_ITEM`. -/
def shDelete (tb : ShTable K P) (key : K) : Except ShError (Bool × ShTable K P) :=
  let hash := prm.hashKey key
  match probe tb.size (lookupStop prm tb key hash) tb.size (shInitialBucket tb.size hash) with
  | none => .error .fault
  | some none => .ok (false, tb)
  | some (some entry) =>
    match shDeleteItem prm tb entry with
    | .error e => .error e
    | .ok tb => .ok (true, tb)

end

/-- A new table: `SH_CREATE` for a size that is a power of two. -/
def shCreate {K P : Type*} [Inhabited K] [Inhabited P] (size : ℕ) : ShTable K P :=
  ⟨size, 0, growThresholdFor size, fun _ => ⟨false, 0, default, default⟩⟩

/-! ## Buckets -/

/-- The size of a table is a power of two. -/
def IsSize (size : ℕ) : Prop := ∃ b, b ≤ 32 ∧ size = 2^b

section
variable {size cur : ℕ}

theorem IsSize.pos (h : IsSize size) : 0 < size := by
  obtain ⟨b, _, rfl⟩ := h
  exact Nat.two_pow_pos b

theorem IsSize.dvd (h : IsSize size) : size ∣ 2^32 := by
  obtain ⟨b, hb, rfl⟩ := h
  exact Nat.pow_dvd_pow 2 hb

theorem IsSize.land (h : IsSize size) (x : ℕ) : x &&& (size - 1) = x % size := by
  obtain ⟨b, _, rfl⟩ := h
  exact Nat.and_two_pow_sub_one_eq_mod x b

theorem shInitialBucket_eq (h : IsSize size) (hash : ℕ) :
    shInitialBucket size hash = hash % size := h.land hash

theorem shNext_eq (h : IsSize size) : shNext size cur = slot size cur 1 := by
  unfold shNext slot
  rw [h.land, Nat.mod_mod_of_dvd _ h.dvd]

theorem shPrev_eq (h : IsSize size) (hcur : cur < size) : shPrev size (slot size cur 1) = cur := by
  obtain ⟨m, hm⟩ := h.dvd
  have hmpos : 0 < m := by
    rcases Nat.eq_zero_or_pos m with rfl | hpos
    · rw [mul_zero] at hm
      exact absurd hm (by decide)
    · exact hpos
  unfold shPrev slot
  rw [h.land, Nat.mod_mod_of_dvd _ h.dvd, hm]
  have hround : size * m = size * (m - 1) + size := by
    rw [← Nat.mul_succ, Nat.succ_eq_add_one, Nat.sub_add_cancel hmpos]
  rcases lt_or_ge (cur + 1) size with hlt | hge
  · rw [Nat.mod_eq_of_lt hlt, show cur + 1 + size * m - 1 = cur + size * m by omega,
      Nat.add_mul_mod_self_left, Nat.mod_eq_of_lt hcur]
  · obtain rfl : cur + 1 = size := by omega
    rw [Nat.mod_self, hround,
      show 0 + ((cur + 1) * (m - 1) + (cur + 1)) - 1 = cur + (cur + 1) * (m - 1) by
        omega, Nat.add_mul_mod_self_left,
      Nat.mod_eq_of_lt hcur]

theorem shDistanceFromOptimal_eq {optimal bucket : ℕ} (ho : optimal < size) (hb : bucket < size) :
    shDistanceFromOptimal size optimal bucket = RobinHood.dist size optimal bucket := by
  unfold shDistanceFromOptimal RobinHood.dist
  split_ifs with hle
  · rw [show bucket + size - optimal = bucket - optimal + size by omega, Nat.add_mod_right,
      Nat.mod_eq_of_lt (by omega)]
  · rw [Nat.mod_eq_of_lt (by omega)]
    omega

/-- The threshold leaves an empty bucket. -/
theorem growThresholdFor_lt (h : 0 < size) : growThresholdFor size < size := by
  unfold growThresholdFor
  split_ifs
  · exact Nat.div_lt_of_lt_mul (by omega)
  · exact Nat.div_lt_of_lt_mul (by omega)

/-- The size that a table is given is a power of two, and large enough. -/
theorem isSize_pgNextpower2 {num : ℕ} (hpos : 0 < num) (hle : num ≤ SH_MAX_SIZE) :
    IsSize (pgNextpower2 num) ∧ num ≤ pgNextpower2 num := by
  obtain ⟨k, hpow, hge, hlt⟩ := pgNextpower2_spec hpos
  have hless : 2^k < 2^33 := by
    unfold SH_MAX_SIZE at hle
    omega
  have hk := (Nat.pow_lt_pow_iff_right (by decide : 1 < 2)).mp hless
  rw [hpow]
  exact ⟨⟨k, by omega, rfl⟩, hge⟩

end

end PgAutoIndex.Lib
