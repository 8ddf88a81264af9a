import PgAutoIndex.Runs
import PgAutoIndex.Lib.SimpleHash

/-!
# Hash tables of `simplehash.h` are maps

The slots of a table are seen as in the library `RobinHood`: each holds an entry or none. `ShOk` is
what holds of a table between two calls: the entries are in the order of their distances, no two
have the same key, there is an empty bucket. Each function is described by what it does to the
contents, a list of entries up to its order: growing keeps them, an insertion adds one entry if no
entry has the key, a deletion takes one away. That there is an empty bucket ends every search, and
that the size doubles ends the restarts of an insertion.

`Represents` then connects the contents with a map, and `simplehash_refines_map` follows the map
along every sequence of calls.
-/

namespace PgAutoIndex.Lib

open RobinHood Function List Option

variable {i j newsize p size z : ℕ}

section
variable {K P : Type*} (prm : ShParams K) {e : Element K P} {data : ℕ → Element K P}
  {l : List (Element K P)}
  {m : K → Option P} {key : K}

/-! ## Keys and entries -/

/-- Keys that the table does not tell apart. -/
def same (k l : K) : Bool := decide (prm.hashKey k = prm.hashKey l) && prm.equal k l

variable {prm}

theorem same_iff {k l : K} :
    same prm k l = true ↔ prm.hashKey k = prm.hashKey l ∧ prm.equal k l = true := by
  rw [same, Bool.and_eq_true, decide_eq_true_eq]

theorem same_refl (k : K) : same prm k k = true := same_iff.mpr ⟨rfl, prm.equal_refl k⟩

theorem same_symm {k l : K} (h : same prm k l = true) : same prm l k = true :=
  same_iff.mpr ⟨(same_iff.mp h).1.symm, prm.equal_symm k l (same_iff.mp h).2⟩

theorem same_trans {k l m : K} (h : same prm k l = true) (h' : same prm l m = true) :
    same prm k m = true :=
  same_iff.mpr ⟨(same_iff.mp h).1.trans (same_iff.mp h').1,
    prm.equal_trans k l m (same_iff.mp h).2 (same_iff.mp h').2⟩

/-- A key is the same as all or none of those that are the same. -/
theorem same_congr {k l m : K} (h : same prm k l = true) : same prm m k = same prm m l :=
  Bool.eq_iff_iff.mpr ⟨fun hm => same_trans hm h, fun hm => same_trans hm (same_symm h)⟩

theorem same_comm (k l : K) : same prm k l = same prm l k :=
  Bool.eq_iff_iff.mpr ⟨same_symm, same_symm⟩

variable (prm)

/-- The stored hash value of an entry is that of its key. -/
def HashOk (e : Element K P) : Prop := prm.storeHash = true → e.hash = prm.hashKey e.key

/-- The optimal bucket of an entry. -/
def home (size : ℕ) (e : Element K P) : ℕ := prm.hashKey e.key % size

/-- The entries of the buckets that are in use. -/
def slots (data : ℕ → Element K P) (i : ℕ) : Option (Element K P) :=
  if (data i).inUse then some (data i) else none

variable {prm}

theorem shEntryHash_eq (h : HashOk prm e) : shEntryHash prm e = prm.hashKey e.key := by
  unfold shEntryHash
  split_ifs with hstore
  · exact h hstore
  · rfl

/-- The comparison of a key with an entry tells whether they are the same. -/
theorem shCompareKeys_eq (h : HashOk prm e) (key : K) :
    shCompareKeys prm (prm.hashKey key) key e = same prm key e.key := by
  unfold shCompareKeys
  split_ifs with hstore
  · have hequal : prm.equal e.key key = prm.equal key e.key :=
      Bool.eq_iff_iff.mpr ⟨prm.equal_symm _ _, prm.equal_symm _ _⟩
    rw [h hstore, hequal]
    rfl
  · -- Without stored hash values, equal keys have the same one.
    have hstore' : prm.storeHash = false := by simpa using hstore
    refine Bool.eq_iff_iff.mpr ⟨fun hcmp => ?_, fun hsame =>
      prm.equal_symm _ _ (same_iff.mp hsame).2⟩
    exact same_iff.mpr ⟨(prm.hashKey_of_equal hstore' _ _ hcmp).symm, prm.equal_symm _ _ hcmp⟩

theorem home_lt (h : IsSize size) (e : Element K P) : home prm size e < size := Nat.mod_lt _ h.pos

theorem slots_eq_some : slots data i = some e ↔ (data i).inUse = true ∧ data i = e := by
  unfold slots
  split_ifs with h
  · rw [some.injEq]
    exact ⟨fun he => ⟨h, he⟩, fun he => he.2⟩
  · exact ⟨False.elim, fun he => absurd he.1 h⟩

theorem slots_eq_none : slots data i = none ↔ (data i).inUse = false := by
  unfold slots
  split_ifs with h
  · exact ⟨False.elim, fun he => absurd (h.symm.trans he) (by decide)⟩
  · exact ⟨fun _ => by simpa using h, fun _ => rfl⟩

/-- A bucket that is filled or emptied. -/
theorem slots_update :
    slots (update data i e) = update (slots data) i (if e.inUse then some e else none) :=
  comp_update (fun e : Element K P => if e.inUse then some e else none) data i e

/-! ## The invariant -/

/-- The entries of a table. -/
def entries (tb : ShTable K P) : List (Element K P) := contents tb.size (slots tb.data)

variable (prm)

/-- What holds of the buckets of a table. -/
structure BucketsOk (tb : ShTable K P) : Prop where
  size : IsSize tb.size
  hash : ∀ e ∈ entries tb, HashOk prm e
  ordered : Ordered tb.size (home prm tb.size) (slots tb.data)
  distinct : (entries tb).Pairwise fun e f => same prm e.key f.key = false
  members : tb.members = (entries tb).length
  /-- There is an empty bucket. -/
  room : tb.members < tb.size

/-- What holds of a table between two calls. -/
structure ShOk (tb : ShTable K P) : Prop extends BucketsOk prm tb where
  threshold : tb.growThreshold ≤ growThresholdFor tb.size

variable {prm}
variable {tb : ShTable K P}

/-- Keys that are told apart, as a relation between entries. -/
theorem distinct_symm {e f : Element K P} (h : same prm e.key f.key = false) :
    same prm f.key e.key = false := (same_comm _ _).trans h

/-- What holds of the entries in any order. -/
theorem bucketsOk_of_perm (hperm : entries tb ~ l) (hsize : IsSize tb.size)
    (hhash : ∀ e ∈ l, HashOk prm e)
    (hordered : Ordered tb.size (home prm tb.size) (slots tb.data))
    (hdistinct : l.Pairwise fun e f => same prm e.key f.key = false)
    (hmembers : tb.members = l.length) (hroom : tb.members < tb.size) : BucketsOk prm tb :=
  ⟨hsize, fun e he => hhash e (hperm.mem_iff.mp he), hordered,
    (hperm.pairwise_iff distinct_symm).mpr hdistinct,
    hmembers.trans hperm.length_eq.symm, hroom⟩

section
variable (h : BucketsOk prm tb)
include h

theorem BucketsOk.mem (hi : i < tb.size) (he : slots tb.data i = some e) : HashOk prm e :=
  h.hash e (mem_contents.mpr ⟨i, hi, he⟩)

/-- A bucket in use, and what the comparison with its entry says. -/
theorem BucketsOk.used (hi : i < tb.size) (huse : ¬ (!(tb.data i).inUse) = true) (key : K) :
    slots tb.data i = some (tb.data i) ∧ shCompareKeys prm (prm.hashKey key) key (tb.data i) =
      same prm key (tb.data i).key := by
  have he : slots tb.data i = some (tb.data i) := slots_eq_some.mpr ⟨by simpa using huse, rfl⟩
  exact ⟨he, shCompareKeys_eq (h.mem hi he) key⟩

theorem BucketsOk.empty : ∃ z, z < tb.size ∧ slots tb.data z = none := by
  refine exists_empty ?_
  have := h.room
  rw [h.members] at this
  exact this

/-- An empty bucket, seen from any bucket. -/
theorem BucketsOk.empty_from (hp : p < tb.size) :
    ∃ d, d < tb.size ∧ slots tb.data (slot tb.size p d) = none := by
  obtain ⟨z, hz, hempty⟩ := h.empty
  exact ⟨_, RobinHood.dist_lt h.size.pos, by rwa [slot_dist hp hz]⟩

/-- An empty bucket after one that is in use. -/
theorem BucketsOk.empty_after (hp : p < tb.size) (he : slots tb.data p = some e) :
    ∃ d, 0 < d ∧ d < tb.size ∧ slots tb.data (slot tb.size p d) = none := by
  obtain ⟨d, hd, hempty⟩ := h.empty_from hp
  refine ⟨d, Nat.pos_of_ne_zero ?_, hd, hempty⟩
  rintro rfl
  rw [slot_zero hp, he] at hempty
  cases hempty

/-- The initial bucket of an entry of the table. -/
theorem BucketsOk.initial (hi : i < tb.size) (he : slots tb.data i = some e) :
    shInitialBucket tb.size (shEntryHash prm e) = home prm tb.size e := by
  rw [shInitialBucket_eq h.size, shEntryHash_eq (h.mem hi he)]
  rfl

/-- A key that a search passing `j` buckets would have met by then is not in the table. -/
theorem BucketsOk.absent
    (hpassed : ∀ i, i < j →
      ∃ b, slots tb.data (slot tb.size (prm.hashKey key % tb.size) i) = some b ∧
        same prm key b.key = false)
    (hstop : ∀ b, slots tb.data (slot tb.size (prm.hashKey key % tb.size) j) = some b →
      RobinHood.dist tb.size (home prm tb.size b)
        (slot tb.size (prm.hashKey key % tb.size) j) < j) :
    ∀ e ∈ entries tb, same prm key e.key = false := by
  intro e he
  rw [Bool.eq_false_iff]
  intro hsame
  obtain ⟨i, hi, hei⟩ := mem_contents.mp he
  have hhome : prm.hashKey key % tb.size = home prm tb.size e := by
    rw [(same_iff.mp hsame).1]
    rfl
  rw [hhome] at hpassed hstop
  -- The buckets from that of the key to that of the entry are in use, by entries that are as far
  -- from their own.
  rcases lt_or_ge (RobinHood.dist tb.size (home prm tb.size e) i) j with hdj | hdj
  · obtain ⟨b, hb, hne⟩ := hpassed _ hdj
    rw [slot_dist (home_lt h.size e) hi, hei] at hb
    cases hb
    rw [hsame] at hne
    cases hne
  · obtain ⟨b, hb, hle⟩ := h.ordered.run (home_lt h.size) hi hei j hdj
    have := hstop b hb
    omega

end

/-! ## Searches -/

/-- A loop over buckets stops at the first bucket where it may, if it gets to one. -/
theorem probe_spec {β : Type*} (hsize : IsSize size) (stop : ℕ → Option β) {d n s : ℕ}
    (hs : s < size) (hn : d < n) (hstop : stop (slot size s d) ≠ none) :
    ∃ j r, j < n ∧ (∀ i, i < j → stop (slot size s i) = none) ∧ stop (slot size s j) = some r ∧
      probe size stop n s = some r := by
  induction n generalizing d s with
  | zero => omega
  | succ n ih =>
    rw [probe]
    cases hfirst : stop s with
    | some r => exact ⟨0, r, Nat.succ_pos n, nofun, by rw [slot_zero hs, hfirst], rfl⟩
    | none =>
      have hnext : ∀ i, slot size s (i + 1) = slot size (slot size s 1) i := fun i => by
        rw [slot_slot, add_comm]
      obtain _ | d := d
      · rw [slot_zero hs] at hstop
        exact absurd hfirst hstop
      rw [hnext] at hstop
      obtain ⟨j, r, hj, hbefore, hr, hprobe⟩ := ih (slot_lt hsize.pos) (by omega) hstop
      rw [shNext_eq hsize]
      refine ⟨j + 1, r, by omega, fun i hi => ?_, by rw [hnext, hr], hprobe⟩
      obtain _ | i := i
      · rw [slot_zero hs, hfirst]
      · rw [hnext]
        exact hbefore i (by omega)

/-- What a search for a key finds. -/
theorem lookup_spec (h : BucketsOk prm tb) (key : K) :
    ∃ r, probe tb.size (lookupStop prm tb key (prm.hashKey key)) tb.size
      (shInitialBucket tb.size (prm.hashKey key)) = some r ∧
      match r with
      | none => ∀ e ∈ entries tb, same prm key e.key = false
      | some i => i < tb.size ∧ ∃ e, slots tb.data i = some e ∧ same prm key e.key = true := by
  have hs : prm.hashKey key % tb.size < tb.size := Nat.mod_lt _ h.size.pos
  obtain ⟨z, hz, hempty⟩ := h.empty_from hs
  have hstopz : lookupStop prm tb key (prm.hashKey key)
      (slot tb.size (prm.hashKey key % tb.size) z) ≠ none := by
    rw [lookupStop, slots_eq_none.mp hempty]
    exact some_ne_none _
  rw [shInitialBucket_eq h.size]
  obtain ⟨j, r, _, hbefore, hr, hprobe⟩ := probe_spec h.size _ hs hz hstopz
  have hslot : ∀ i, slot tb.size (prm.hashKey key % tb.size) i < tb.size :=
    fun _ => slot_lt h.size.pos
  refine ⟨r, hprobe, ?_⟩
  unfold lookupStop at hr
  dsimp only at hr
  split_ifs at hr with hfree hcmp
  · cases hr
    -- An entry with the key would be in a bucket that was passed, or its search would not have met
    -- the empty bucket.
    refine h.absent (j := j) (fun i hi => ?_) fun b hb => ?_
    · have hnone := hbefore i hi
      unfold lookupStop at hnone
      dsimp only at hnone
      split_ifs at hnone with hused hcmp
      obtain ⟨he, hsame⟩ := h.used (hslot i) hused key
      exact ⟨_, he, by simpa [hsame] using hcmp⟩
    · rw [slots_eq_none.mpr (by simpa using hfree)] at hb
      cases hb
  · cases hr
    obtain ⟨he, hsame⟩ := h.used (hslot j) hfree key
    exact ⟨hslot j, _, he, hsame ▸ hcmp⟩

/-! ## Insertion -/

/-- The first `j` buckets from that of a key on hold entries with other keys, at least as far from
their own buckets. -/
def Passed (prm : ShParams K) (tb : ShTable K P) (key : K) (j : ℕ) : Prop :=
  ∀ i, i < j → ∃ b, slots tb.data (slot tb.size (prm.hashKey key % tb.size) i) = some b ∧
    same prm key b.key = false ∧
    i ≤ RobinHood.dist tb.size (home prm tb.size b) (slot tb.size (prm.hashKey key % tb.size) i)

/-- What the search of an insertion says when it ends. -/
def StopOk (prm : ShParams K) (tb : ShTable K P) (key : K) : InsertStop → Prop
  | .empty curelem =>
    ∃ j, j < tb.size ∧ curelem = slot tb.size (prm.hashKey key % tb.size) j ∧ Passed prm tb key j ∧
      slots tb.data curelem = none
  | .found curelem =>
    curelem < tb.size ∧ ∃ b, slots tb.data curelem = some b ∧ same prm key b.key = true
  | .displace curelem =>
    ∃ j b, j < tb.size ∧ curelem = slot tb.size (prm.hashKey key % tb.size) j ∧
      Passed prm tb key j ∧
      slots tb.data curelem = some b ∧ same prm key b.key = false ∧
      RobinHood.dist tb.size (home prm tb.size b) curelem < j
  | .restart => True

/-- The search of an insertion ends, at the latest at an empty bucket. -/
theorem insertLoop_spec (h : BucketsOk prm tb) (key : K) (hz : z < tb.size)
    (hempty : slots tb.data (slot tb.size (prm.hashKey key % tb.size) z) = none) (n j : ℕ)
    (hj : j ≤ z) (hjn : z < j + n) (hpassed : Passed prm tb key j) :
    ∃ r, insertLoop prm tb key (prm.hashKey key) n (slot tb.size (prm.hashKey key % tb.size) j) j =
      some r ∧ StopOk prm tb key r := by
  have hpos := h.size.pos
  induction n generalizing j with
  | zero => omega
  | succ n ih =>
    have hcur : slot tb.size (prm.hashKey key % tb.size) j < tb.size := slot_lt hpos
    rw [insertLoop]
    by_cases hfree : (!(tb.data (slot tb.size (prm.hashKey key % tb.size) j)).inUse) = true
    · rw [if_pos hfree]
      exact ⟨_, rfl, j, by omega, rfl, hpassed, slots_eq_none.mpr (by simpa using hfree)⟩
    obtain ⟨he, hsame⟩ := h.used hcur hfree key
    rw [if_neg hfree, hsame, h.initial hcur he, shDistanceFromOptimal_eq (home_lt h.size _) hcur]
    split_ifs with hcmp hdist hgrow
    · exact ⟨_, rfl, hcur, _, he, hcmp⟩
    · exact ⟨_, rfl, j, _, by omega, rfl, hpassed, he, by simpa using hcmp, hdist⟩
    · exact ⟨_, rfl, trivial⟩
    · have hne : j ≠ z := by
        rintro rfl
        rw [hempty] at he
        cases he
      rw [shNext_eq h.size, slot_slot]
      refine ih (j + 1) (by omega) (by omega) fun i hi => ?_
      rcases Nat.lt_succ_iff_lt_or_eq.mp hi with hlt | rfl
      · exact hpassed i hlt
      · exact ⟨_, he, by simpa using hcmp, by omega⟩

/-- The search for the next empty bucket ends. -/
theorem emptyLoop_spec (h : BucketsOk prm tb) (hz : z < tb.size)
    (hempty : slots tb.data (slot tb.size p z) = none) (n j emptydist : ℕ) (hj : j < z)
    (hjn : z ≤ j + n)
    (hpassed : ∀ i, 1 ≤ i → i ≤ j → ∃ b, slots tb.data (slot tb.size p i) = some b) :
    ∃ r, emptyLoop prm tb n (slot tb.size p j) emptydist = some r ∧
      ∀ emptyelem, r = some emptyelem →
      ∃ len, 1 ≤ len ∧ len < tb.size ∧ emptyelem = slot tb.size p len ∧
        slots tb.data emptyelem = none ∧
        ∀ i, 1 ≤ i → i < len → ∃ b, slots tb.data (slot tb.size p i) = some b := by
  induction n generalizing j emptydist with
  | zero => omega
  | succ n ih =>
    rw [emptyLoop, shNext_eq h.size, slot_slot]
    split_ifs with hfree hgrow
    · refine ⟨_, rfl, fun emptyelem heq => ?_⟩
      cases heq
      exact ⟨j + 1, by omega, by omega, rfl, slots_eq_none.mpr (by simpa using hfree),
        fun i hi hij => hpassed i hi (by omega)⟩
    · exact ⟨_, rfl, nofun⟩
    · have he : slots tb.data (slot tb.size p (j + 1)) = some _ :=
        slots_eq_some.mpr ⟨by simpa using hfree, rfl⟩
      have hne : j + 1 ≠ z := by
        rintro rfl
        rw [hempty] at he
        cases he
      refine ih (j + 1) _ (by omega) (by omega) fun i hi hij => ?_
      rcases lt_or_ge i (j + 1) with hlt | hge
      · exact hpassed i hi (by omega)
      · obtain rfl : i = j + 1 := by omega
        exact ⟨_, he⟩

/-- The buckets after `p`, up to the one where the loop starts, hold what was in the ones before
them. -/
theorem shiftLoop_spec (hsize : IsSize size) (hp : p < size) (m n : ℕ) (hn : m < n) (hm : m < size)
    (data : ℕ → Element K P) :
    ∃ data', shiftLoop size p n (slot size p m) data = some data' ∧ ∀ i, i < size →
      data' (slot size p i) = if 1 ≤ i ∧ i ≤ m then data (slot size p (i - 1))
        else data (slot size p i) := by
  have hpos := hsize.pos
  induction m generalizing n data with
  | zero =>
    obtain _ | n := n
    · omega
    rw [shiftLoop, if_pos (slot_zero hp)]
    exact ⟨data, rfl, fun i _ => by rw [if_neg (by omega)]⟩
  | succ m ih =>
    obtain _ | n := n
    · omega
    have hprev : shPrev size (slot size p (m + 1)) = slot size p m := by
      rw [← slot_slot]
      exact shPrev_eq hsize (slot_lt hpos)
    rw [shiftLoop, if_neg (slot_ne hp hm (Nat.succ_pos m)), hprev]
    obtain ⟨data', hrun, hdata'⟩ :=
      ih n (by omega) (by omega) (update data (slot size p (m + 1)) (data (slot size p m)))
    refine ⟨data', hrun, fun i hi => ?_⟩
    have hother : ∀ i, i < size → i ≠ m + 1 → slot size p i ≠ slot size p (m + 1) :=
      fun i hi hne heq => hne (slot_inj hp hi hm heq)
    rw [hdata' i hi]
    by_cases him : i = m + 1
    · subst him
      rw [if_neg (by omega), if_pos (by omega), update_self, Nat.add_sub_cancel]
    · rw [update_of_ne (hother i hi him)]
      split_ifs with h₁ h₂ h₂
      · rw [update_of_ne (hother (i - 1) (by omega) (by omega))]
      · omega
      · omega
      · rfl

/-- The table after an entry was put where the search of its insertion ended. -/
theorem fillBucket_spec (h : BucketsOk prm tb) (hroom : tb.members + 1 < tb.size) {len : ℕ}
    (hj : j < tb.size) (hp : p = slot tb.size (prm.hashKey key % tb.size) j)
    (hpassed : Passed prm tb key j) (hlen : len < tb.size)
    (hstop : ∀ b, slots tb.data p = some b → RobinHood.dist tb.size (home prm tb.size b) p < j)
    (hoccupied : ∀ i, i < len → ∃ b, slots tb.data (slot tb.size p i) = some b)
    (hempty : slots tb.data (slot tb.size p len) = none)
    (hdata : ∀ i, i < tb.size → data (slot tb.size p i) =
      if 1 ≤ i ∧ i ≤ len then tb.data (slot tb.size p (i - 1)) else tb.data (slot tb.size p i)) :
    BucketsOk prm (fillBucket prm tb data p key (prm.hashKey key)) ∧
      (∀ e ∈ entries tb, same prm key e.key = false) ∧
      ∃ e, e.key = key ∧ slots (fillBucket prm tb data p key (prm.hashKey key)).data p = some e ∧
        entries (fillBucket prm tb data p key (prm.hashKey key)) ~ e :: entries tb := by
  have hpos := h.size.pos
  have hs : prm.hashKey key % tb.size < tb.size := Nat.mod_lt _ hpos
  have hpsize : p < tb.size := hp ▸ slot_lt hpos
  have habsent : ∀ e ∈ entries tb, same prm key e.key = false := by
    refine h.absent (fun i hi => ?_) (hp ▸ hstop)
    obtain ⟨b, hb, hne, _⟩ := hpassed i hi
    exact ⟨b, hb, hne⟩
  obtain ⟨e, hkey, hinUse, hhash, hfill⟩ : ∃ e : Element K P, e.key = key ∧ e.inUse = true ∧
      HashOk prm e ∧ fillBucket prm tb data p key (prm.hashKey key) =
        { tb with members := tb.members + 1, data := update data p e } :=
    ⟨_, rfl, rfl, fun hstore => if_pos hstore, rfl⟩
  have hhome : home prm tb.size e = prm.hashKey key % tb.size := by rw [home, hkey]
  -- The buckets are those of the table into which the entry was put.
  have hslots : ∀ q, q < tb.size →
      slots (update data p e) q = insertAt tb.size (slots tb.data) p len e q := by
    intro q hq
    obtain ⟨i, hi, rfl⟩ := exists_slot hpsize hq
    rw [slots_update, if_pos hinUse]
    cases i with
    | zero => rw [insertAt_slot_zero hpsize, slot_zero hpsize, update_self]
    | succ i =>
      rw [update_of_ne (slot_ne hpsize hi (Nat.succ_pos i))]
      rcases lt_or_ge len (i + 1) with hlt | hge
      · have hkept : data (slot tb.size p (i + 1)) = tb.data (slot tb.size p (i + 1)) := by
          rw [hdata _ hi, if_neg (by omega)]
        rw [insertAt_slot_kept hpsize hi hlt, slots, slots, hkept]
      · have hmoved : data (slot tb.size p (i + 1)) = tb.data (slot tb.size p i) := by
          rw [hdata _ hi, if_pos (by omega), Nat.add_sub_cancel]
        rw [insertAt_slot_moved hpsize hi hge, slots, slots, hmoved]
  have hperm : contents tb.size (slots (update data p e)) ~ e :: entries tb := by
    rw [contents_congr hslots]
    exact contents_insertAt hpsize hlen hempty
  have hfits : Fits tb.size (home prm tb.size) (slots tb.data) e p := by
    intro i hi
    rw [hhome, hp, dist_slot hs hj] at hi
    obtain ⟨b, hb, _, hle⟩ := hpassed i hi
    rw [hhome]
    exact ⟨b, hb, hle⟩
  have hordered : Ordered tb.size (home prm tb.size) (slots (update data p e)) := by
    refine Ordered.congr (h.ordered.insertAt (home_lt h.size) hpsize hlen hfits hoccupied hempty
      fun _ b hb => ?_)
      fun q hq => congrArg _ (hslots q hq)
    rw [hhome, hp, dist_slot hs hj, ← hp]
    exact hstop b hb
  rw [hfill]
  refine ⟨bucketsOk_of_perm hperm h.size (forall_mem_cons.mpr ⟨hhash, h.hash⟩) hordered
    (pairwise_cons.mpr ⟨?_, h.distinct⟩)
    (congrArg (· + 1) h.members) hroom, habsent, e, hkey, ?_, hperm⟩
  · rwa [hkey]
  · rw [slots_update, if_pos hinUse, update_self]

/-! ## Growing -/

/-- The loop that copies the buckets. -/
theorem copyLoop_spec (h : BucketsOk prm tb) {s : ℕ} (hnew : IsSize newsize)
    (hdvd : tb.size ∣ newsize) (hs : s < tb.size)
    (hcut : ∀ e, slots tb.data s = some e → home prm tb.size e = s) (n q : ℕ)
    (newdata : ℕ → Element K P) (hq : n + q = tb.size)
    (hcopied : Copied tb.size newsize s (home prm newsize) (slots tb.data) (slots newdata) q) :
    ∃ data, copyLoop prm tb.size newsize tb.data n (slot tb.size s q) newdata = some data ∧
        Copied tb.size newsize s (home prm newsize) (slots tb.data) (slots data) tb.size := by
  have hpos := h.size.pos
  have hhome : (fun e : Element K P => home prm newsize e % tb.size) = home prm tb.size := by
    funext e
    exact Nat.mod_mod_of_dvd _ hdvd
  have hcut' : ∀ e, slots tb.data s = some e → home prm newsize e % tb.size = s :=
    fun e he => (congrFun hhome e).trans (hcut e he)
  have hordered := h.ordered
  rw [← hhome] at hordered
  induction n generalizing q newdata with
  | zero =>
    rw [zero_add] at hq
    subst hq
    exact ⟨newdata, rfl, hcopied⟩
  | succ n ih =>
    have hnext : (if slot tb.size s q + 1 ≥ tb.size then 0 else slot tb.size s q + 1) =
        slot tb.size s (q + 1) := by
      have hlt : slot tb.size s q < tb.size := slot_lt hpos
      rw [← slot_slot]
      generalize slot tb.size s q = c at hlt
      unfold slot
      split_ifs with hwrap
      · rw [show c + 1 = tb.size by omega, Nat.mod_self]
      · rw [Nat.mod_eq_of_lt (by omega)]
    rw [copyLoop, hnext]
    split_ifs with huse
    · obtain ⟨e, hentry⟩ : ∃ e, tb.data (slot tb.size s q) = e := ⟨_, rfl⟩
      have he : slots tb.data (slot tb.size s q) = some e := slots_eq_some.mpr ⟨huse, hentry⟩
      rw [hentry] at huse ⊢
      have hinitial : shInitialBucket newsize (shEntryHash prm e) = home prm newsize e := by
        rw [shInitialBucket_eq hnew, shEntryHash_eq (h.mem (slot_lt hpos) he)]
        rfl
      -- There is an empty bucket for the entry.
      obtain ⟨_, _, hroom⟩ :=
        hcopied.room hdvd hs hnew.pos (home_lt hnew) hordered hcut' (show q < tb.size by omega) he
      rw [← slot_dist (home_lt hnew e) (slot_lt hnew.pos)] at hroom
      obtain ⟨j, r, hj, hbefore, hr, hprobe⟩ :=
        probe_spec hnew (fun curelem => if (newdata curelem).inUse then none else some curelem)
        (home_lt hnew e) (RobinHood.dist_lt hnew.pos)
        (by rw [slots_eq_none.mp hroom]; exact some_ne_none _)
      rw [hinitial, hprobe]
      split_ifs at hr with hfree
      cases hr
      refine ih (q + 1) _ (by omega) ?_
      rw [slots_update, if_pos huse]
      refine hcopied.place hdvd hs hnew.pos (home_lt hnew) hordered hcut' (by omega) he hj
        (fun i hi hnone => ?_) (slots_eq_none.mpr (by simpa using hfree))
      have := hbefore i hi
      rw [slots_eq_none.mp hnone] at this
      cases this
    · exact ih (q + 1) newdata (by omega) (hcopied.skip (slots_eq_none.mpr (by simpa using huse)))

/-- The copy starts at a bucket that is empty or holds an entry at its place. -/
theorem findStart_spec (h : BucketsOk prm tb) (hnew : IsSize newsize) (hdvd : tb.size ∣ newsize) :
    findStart prm tb.size newsize tb.data < tb.size ∧
      ∀ e, slots tb.data (findStart prm tb.size newsize tb.data) = some e →
        home prm tb.size e = findStart prm tb.size newsize tb.data := by
  obtain ⟨z, hz, hempty⟩ := h.empty
  unfold findStart
  cases hfind : (range tb.size).find? fun i =>
    !(tb.data i).inUse || decide (shInitialBucket newsize (shEntryHash prm (tb.data i)) = i) with
  | none =>
    have := find?_eq_none.mp hfind z (mem_range.mpr hz)
    rw [slots_eq_none.mp hempty] at this
    exact absurd rfl this
  | some s =>
    have hs : s < tb.size := mem_range.mp (mem_of_find?_eq_some hfind)
    have hcond := find?_some hfind
    rw [getD_some]
    refine ⟨hs, fun e he => ?_⟩
    obtain ⟨huse, rfl⟩ := slots_eq_some.mp he
    rw [huse, Bool.not_true, Bool.false_or, decide_eq_true_eq, shInitialBucket_eq hnew,
      shEntryHash_eq (h.mem hs he)] at hcond
    calc home prm tb.size (tb.data s) = prm.hashKey (tb.data s).key % newsize % tb.size :=
      (Nat.mod_mod_of_dvd _ hdvd).symm
      _ = s % tb.size := by rw [hcond]
      _ = s := Nat.mod_eq_of_lt hs

/-- A grown table has the same entries. -/
theorem shGrow_spec [Inhabited K] [Inhabited P] (h : BucketsOk prm tb) (hless : tb.size < newsize)
    (hle : newsize ≤ SH_MAX_SIZE) :
    shGrow prm tb newsize = .error .tooLarge ∨ ∃ tb', shGrow prm tb newsize = .ok tb' ∧
    ShOk prm tb' ∧ entries tb' ~ entries tb ∧
      tb'.members = tb.members ∧ newsize ≤ tb'.size := by
  obtain ⟨hnew, hlarge⟩ :=
    isSize_pgNextpower2 (show 0 < max newsize 2 by omega) (max_le hle (by decide))
  have hnewsize : newsize ≤ pgNextpower2 (max newsize 2) := (le_max_left _ _).trans hlarge
  unfold shGrow shComputeSize
  dsimp only
  generalize pgNextpower2 (max newsize 2) = size at hnew hnewsize ⊢
  have hdvd : tb.size ∣ size := by
    obtain ⟨b, hb, hbsize⟩ := h.size
    obtain ⟨c, hc, rfl⟩ := hnew
    rw [hbsize]
    refine Nat.pow_dvd_pow 2 ((Nat.pow_le_pow_iff_right (by decide : 1 < 2)).mp ?_)
    omega
  split_ifs with hlimit
  · exact .inl rfl
  · obtain ⟨hstart, hcut⟩ := findStart_spec h hnew hdvd
    have hzero : Copied tb.size size (findStart prm tb.size size tb.data) (home prm size)
      (slots tb.data)
        (slots fun _ => (⟨false, 0, default, default⟩ : Element K P)) 0 := copied_zero
    obtain ⟨data, hcopy, hcopied⟩ := copyLoop_spec h hnew hdvd hstart hcut tb.size 0 _ rfl hzero
    rw [slot_zero hstart] at hcopy
    have hperm : contents size (slots data) ~ entries tb :=
      hcopied.contents.trans (contents_from hstart).symm
    dsimp only
    rw [hcopy]
    exact .inr ⟨_, rfl,
      ⟨bucketsOk_of_perm hperm hnew h.hash hcopied.ordered h.distinct h.members
        (h.room.trans (hless.trans_le hnewsize)), le_rfl⟩,
      hperm, rfl, hnewsize⟩

/-! ## The operations -/

/-- What an insertion does. -/
def InsertOk (prm : ShParams K) (tb : ShTable K P) (key : K) :
    Except ShError (Bool × ℕ) × ShTable K P → Prop
  | (.error e, tb') => e ≠ .fault ∧ List.Perm (entries tb') (entries tb)
  | (.ok (true, i), tb') =>
    List.Perm (entries tb') (entries tb) ∧ i < tb'.size ∧ ∃ e, slots tb'.data i = some e ∧
      same prm key e.key = true
  | (.ok (false, i), tb') => (∀ e ∈ entries tb, same prm key e.key = false) ∧ i < tb'.size ∧
      ∃ e, e.key = key ∧ slots tb'.data i = some e ∧ List.Perm (entries tb') (e :: entries tb)

/-- Only the entries of the table count. -/
theorem InsertOk.congr {tb₂ : ShTable K P} (hperm : entries tb₂ ~ entries tb)
    {r : Except ShError (Bool × ℕ) × ShTable K P}
    (h : InsertOk prm tb₂ key r) : InsertOk prm tb key r := by
  match r with
  | (.error _, _) => exact ⟨h.1, h.2.trans hperm⟩
  | (.ok (true, _), _) => exact ⟨h.1.trans hperm, h.2⟩
  | (.ok (false, _), _) =>
    obtain ⟨habsent, hi, e, hkey, he, hperm'⟩ := h
    exact ⟨fun f hf => habsent f (hperm.mem_iff.mpr hf), hi, e, hkey, he,
      hperm'.trans (hperm.cons e)⟩

section
variable [Inhabited K] [Inhabited P]

/-- The size from which an insertion starts its search. -/
def sizeAhead (tb : ShTable K P) : ℕ :=
  if tb.members ≥ tb.growThreshold then tb.size * 2 else tb.size

/-- The table with which an insertion starts its search has two empty buckets. -/
theorem grown_spec (h : ShOk prm tb) :
    ∃ grown, (if tb.members ≥ tb.growThreshold then if tb.size = SH_MAX_SIZE
      then Except.error ShError.sizeExceeded else shGrow prm tb (tb.size * 2)
        else .ok tb) = grown ∧
      match grown with
      | .error e => e ≠ .fault
      | .ok tb' =>
        ShOk prm tb' ∧ entries tb' ~ entries tb ∧ tb'.members + 1 < tb'.size ∧
          sizeAhead tb ≤ tb'.size := by
  refine ⟨_, rfl, ?_⟩
  have hpos := h.size.pos
  unfold sizeAhead
  split_ifs with hfull hmax
  · exact ShError.noConfusion
  · have hle : tb.size * 2 ≤ SH_MAX_SIZE := by
      obtain ⟨b, hb, hbsize⟩ := h.size
      have hb' : b < 32 := lt_of_le_of_ne hb fun heq => hmax (by rw [hbsize, heq]; rfl)
      rw [hbsize, ← pow_succ]
      exact Nat.pow_le_pow_right (by decide) hb'
    rcases shGrow_spec h.toBucketsOk (show tb.size < tb.size * 2 by omega) hle with herr |
      ⟨tb', hok, hok', hperm, hmembers, hsize⟩
    · rw [herr]
      exact ShError.noConfusion
    · rw [hok]
      have := h.room
      exact ⟨hok', hperm, by omega, hsize⟩
  · have hlt := growThresholdFor_lt hpos
    have := h.threshold
    exact ⟨h, List.Perm.refl _, by omega, le_rfl⟩

/-- An insertion ends with the key in the table: each restart is with a table twice as large. -/
theorem shInsertHashInternal_spec (key : K) (n : ℕ) (h : ShOk prm tb)
    (hn : SH_MAX_SIZE < sizeAhead tb * 2^n) :
    ShOk prm (shInsertHashInternal prm key (prm.hashKey key) (n + 1) tb).2 ∧
      InsertOk prm tb key (shInsertHashInternal prm key (prm.hashKey key) (n + 1) tb) := by
  induction n using Nat.strong_induction_on generalizing tb with
  | _ n ih =>
    rw [shInsertHashInternal]
    obtain ⟨grown, hgrown, hspec⟩ := grown_spec h
    rw [hgrown]
    match grown, hspec with
    | .error e, hspec => exact ⟨h, hspec, List.Perm.refl _⟩
    | .ok tb', ⟨h', hperm, hroom, hsize⟩ =>
      obtain ⟨n, rfl⟩ : ∃ m, n = m + 1 := by
        refine Nat.exists_eq_succ_of_ne_zero fun hzero => ?_
        -- There is no larger table.
        obtain ⟨b, hb, hbsize⟩ := h'.size
        have : 2^b ≤ 2^32 := Nat.pow_le_pow_right (by decide) hb
        rw [hzero] at hn
        unfold SH_MAX_SIZE at hn
        omega
      have ih := @ih n n.lt_succ_self
      have hpos := h'.size.pos
      have hs : prm.hashKey key % tb'.size < tb'.size := Nat.mod_lt _ hpos
      have hagain :=
        ih (show ShOk prm { tb' with growThreshold := 0 } from ⟨{ h' with }, Nat.zero_le _⟩) (by
        rw [sizeAhead, if_pos (Nat.zero_le _)]
        calc SH_MAX_SIZE < sizeAhead tb * 2^(n + 1) := hn
          _ ≤ tb'.size * 2^(n + 1) := Nat.mul_le_mul_right _ hsize
          _ = tb'.size * 2 * 2^n := by rw [Nat.pow_succ, Nat.mul_assoc, Nat.mul_comm 2])
      obtain ⟨z, hz, hempty⟩ := h'.empty_from hs
      obtain ⟨r, hloop, hstop⟩ :=
        insertLoop_spec h'.toBucketsOk key hz hempty tb'.size 0 (Nat.zero_le _) (by omega) nofun
      rw [slot_zero hs] at hloop
      dsimp only
      rw [shInitialBucket_eq h'.size, hloop]
      match r, hstop with
      | .empty p, ⟨j, hj, hp, hpassed, hfree⟩ =>
        have hpsize : p < tb'.size := hp ▸ slot_lt hpos
        obtain ⟨hok, habsent, e, hkey, he, hnew⟩ :=
          fillBucket_spec h'.toBucketsOk hroom hj hp hpassed hpos
          (fun b hb => absurd (hfree.symm.trans hb) (some_ne_none b).symm) nofun
          (by rw [slot_zero hpsize]; exact hfree) fun i _ => by rw [if_neg (by omega)]
        exact ⟨⟨hok, h'.threshold⟩, InsertOk.congr hperm ⟨habsent, hpsize, e, hkey, he, hnew⟩⟩
      | .found p, hfound => exact ⟨h', hperm, hfound⟩
      | .restart, _ => exact ⟨hagain.1, InsertOk.congr hperm hagain.2⟩
      | .displace p, ⟨j, b, hj, hp, hpassed, hb, _, hless⟩ =>
        have hpsize : p < tb'.size := hp ▸ slot_lt hpos
        -- The bucket is in use, so that the empty one is another.
        obtain ⟨d, hd, hdsize, hafter⟩ := h'.empty_after hpsize hb
        obtain ⟨r, hloop', hr⟩ :=
          emptyLoop_spec h'.toBucketsOk hdsize hafter tb'.size 0 0 hd (by omega) fun i hi hi' => by
            omega
        rw [slot_zero hpsize] at hloop'
        dsimp only
        rw [hloop']
        match r, hr with
        | none, _ => exact ⟨hagain.1, InsertOk.congr hperm hagain.2⟩
        | some emptyelem, hr =>
          obtain ⟨len, hlen, hlensize, rfl, hfree, hoccupied⟩ := hr emptyelem rfl
          obtain ⟨data, hshift, hdata⟩ :=
            shiftLoop_spec h'.size hpsize len tb'.size hlensize hlensize tb'.data
          dsimp only
          rw [hshift]
          obtain ⟨hok, habsent, e, hkey, he, hnew⟩ :=
            fillBucket_spec h'.toBucketsOk hroom hj hp hpassed hlensize
            (fun b' hb' => by rw [hb] at hb'; cases hb'; exact hless)
            (fun i hi => by
              rcases Nat.eq_zero_or_pos i with rfl | hi'
              · exact ⟨b, by rw [slot_zero hpsize]; exact hb⟩
              · exact hoccupied i hi' hi) hfree hdata
          exact ⟨⟨hok, h'.threshold⟩, InsertOk.congr hperm ⟨habsent, hpsize, e, hkey, he, hnew⟩⟩

theorem shInsert_spec (h : ShOk prm tb) (key : K) :
    ShOk prm (shInsert prm tb key).2 ∧ InsertOk prm tb key (shInsert prm tb key) := by
  refine shInsertHashInternal_spec key 33 h ?_
  have hpos := h.size.pos
  unfold sizeAhead SH_MAX_SIZE
  split_ifs <;> omega

end

/-- The loop that shifts entries back after a bucket. -/
theorem deleteLoop_spec (hsize : IsSize size) (n p : ℕ) (data : ℕ → Element K P) (hp : p < size)
    (hn : z < n) (hz : z < size) (hz0 : 0 < z)
    (hhash : ∀ q, q < size → ∀ e, slots data q = some e → HashOk prm e)
    (hempty : slots data (slot size p z) = none) :
    ∃ data' len, deleteLoop prm size n p data = some data' ∧ 1 ≤ len ∧ len ≤ z ∧
      (∀ i, 1 ≤ i → i < len → ∃ b, slots data (slot size p i) = some b ∧
        home prm size b ≠ slot size p i) ∧
      (∀ b, slots data (slot size p len) = some b → home prm size b = slot size p len) ∧
      ∀ q, q < size → slots data' q = removeAt size (slots data) p len q := by
  have hpos := hsize.pos
  induction z generalizing n p data with
  | zero => exact absurd hz0 (lt_irrefl 0)
  | succ z ih =>
    obtain _ | n := n
    · omega
    have hnext : slot size p 1 < size := slot_lt hpos
    -- Emptying the bucket takes out its entry.
    have hclear : ∀ q, q < size →
        slots (update data p { data p with inUse := false }) q =
          removeAt size (slots data) p 1 q := by
      intro q hq
      obtain ⟨i, hi, rfl⟩ := exists_slot hp hq
      rw [slots_update, if_neg Bool.false_ne_true]
      cases i with
      | zero => rw [removeAt_slot_last hp hi rfl, slot_zero hp, update_self]
      | succ i =>
        rw [removeAt_slot_kept hp hi (by omega), update_of_ne (slot_ne hp hi (Nat.succ_pos i))]
    rw [deleteLoop, shNext_eq hsize]
    by_cases hfree : (!(data (slot size p 1)).inUse) = true
    · rw [if_pos hfree]
      refine ⟨_, 1, rfl, Nat.le_refl 1, by omega, fun i hi hi' => by omega, fun b hb => ?_, hclear⟩
      rw [slots_eq_none.mpr (by simpa using hfree)] at hb
      cases hb
    have huse : (data (slot size p 1)).inUse = true := by simpa using hfree
    have he : slots data (slot size p 1) = some (data (slot size p 1)) :=
      slots_eq_some.mpr ⟨huse, rfl⟩
    rw [if_neg hfree, shInitialBucket_eq hsize, shEntryHash_eq (hhash _ hnext _ he)]
    split_ifs with hhome
    · refine ⟨_, 1, rfl, Nat.le_refl 1, by omega, fun i hi hi' => by omega, fun b hb => ?_, hclear⟩
      cases he.symm.trans hb
      exact hhome
    · have hz' : 0 < z := by
        rcases Nat.eq_zero_or_pos z with rfl | hz'
        · rw [zero_add, he] at hempty
          cases hempty
        · exact hz'
      have hshift : ∀ i, slot size (slot size p 1) i = slot size p (i + 1) := fun i => by
        rw [slot_slot, add_comm]
      have hupdate : ∀ i, i + 1 < size →
          slots (update data p (data (slot size p 1))) (slot size p (i + 1)) =
            slots data (slot size p (i + 1)) := by
        intro i hi
        rw [slots_update]
        exact update_of_ne (slot_ne hp hi (Nat.succ_pos i)) _ _
      obtain ⟨data', len, hloop, hlen, hlenz, haway, hstop, hslots⟩ :=
        ih n (slot size p 1) (update data p (data (slot size p 1))) hnext (by omega)
        (by omega) hz' (fun q hq e heq => by
          rw [slots_update, if_pos huse] at heq
          by_cases hqp : q = p
          · rw [hqp, update_self] at heq
            exact hhash _ hnext _ (he.trans heq)
          · rw [update_of_ne hqp] at heq
            exact hhash q hq e heq)
        (by rw [hshift, hupdate z hz]; exact hempty)
      refine ⟨data', len + 1, hloop, by omega, by omega, fun i hi hi' => ?_, fun b hb => ?_,
        fun q hq => ?_⟩
      · rcases lt_or_ge 1 i with hlt | hge
        · obtain _ | i := i
          · omega
          obtain ⟨b, hb, hne⟩ := haway i (by omega) (by omega)
          rw [hshift] at hne
          rw [hshift, hupdate i (by omega)] at hb
          exact ⟨b, hb, hne⟩
        · obtain rfl : i = 1 := by omega
          exact ⟨_, he, hhome⟩
      · have := hstop b (by rw [hshift, hupdate len (by omega)]; exact hb)
        rwa [hshift] at this
      · rw [hslots q hq, slots_update, if_pos huse, ← he]
        exact removeAt_succ hp hlen (by omega) hq

/-- A deletion takes out the entry of a bucket. -/
theorem shDeleteItem_spec (h : ShOk prm tb) (hp : p < tb.size) (he : slots tb.data p = some e) :
    ∃ tb', shDeleteItem prm tb p = .ok tb' ∧ ShOk prm tb' ∧ entries tb ~ e :: entries tb' := by
  obtain ⟨z, hz0, hz, hempty⟩ := h.empty_after hp he
  obtain ⟨data, len, hloop, hlen, hlenz, haway, hstop, hslots⟩ :=
    deleteLoop_spec h.size tb.size p tb.data hp hz hz hz0
    (fun q hq f hf => h.mem hq hf) hempty
  have hlensize : len < tb.size := hlenz.trans_lt hz
  have hperm : entries tb ~ e :: contents tb.size (slots data) := by
    rw [contents_congr hslots]
    exact contents_removeAt hp he hlen hlensize
  have hdistinct := (hperm.pairwise_iff distinct_symm).mp h.distinct
  have hlength : (entries tb).length = (contents tb.size (slots data)).length + 1 := hperm.length_eq
  have hmembers := h.members
  have hroom := h.room
  refine ⟨{ tb with members := tb.members - 1, data := data }, by rw [shDeleteItem, hloop],
    ⟨⟨h.size, fun f hf => ?_, ?_, ?_, ?_, ?_⟩, h.threshold⟩, hperm⟩
  · exact h.hash f (hperm.mem_iff.mpr (mem_cons_of_mem e hf))
  · exact (h.ordered.removeAt (home_lt h.size) hp he hlen hlensize haway hstop).congr
      fun q hq => congrArg _ (hslots q hq)
  · exact (pairwise_cons.mp hdistinct).2
  · show tb.members - 1 = (contents tb.size (slots data)).length
    omega
  · show tb.members - 1 < tb.size
    omega

/-! ## The map -/

/-- The map with the value of a key set or removed. -/
def mapSet (prm : ShParams K) (m : K → Option P) (key : K) (v : Option P) (k : K) : Option P :=
  if same prm k key then v else m k

/-- Entries represent a map. -/
def Represents (prm : ShParams K) (l : List (Element K P)) (m : K → Option P) : Prop :=
  ∀ k v, m k = some v ↔ ∃ e ∈ l, same prm k e.key = true ∧ e.payload = v

theorem mapSet_congr (m : K → Option P) {key key' : K} (h : same prm key key' = true)
    (v : Option P) : mapSet prm m key v = mapSet prm m key' v := by
  funext k
  rw [mapSet, mapSet, same_congr h]

theorem mapSet_mapSet (m : K → Option P) (key : K) (v w : Option P) :
    mapSet prm (mapSet prm m key v) key w = mapSet prm m key w := by
  funext k
  unfold mapSet
  split_ifs <;> rfl

theorem Represents.perm {l l' : List (Element K P)} (h : Represents prm l m) (hperm : l' ~ l) :
    Represents prm l' m := by
  intro k v
  simp only [h k v, hperm.mem_iff]

/-- A key that no entry has is not in the map. -/
theorem Represents.none_iff (h : Represents prm l m) (k : K) :
    m k = none ↔ ∀ e ∈ l, same prm k e.key = false := by
  constructor
  · intro hnone e he
    rw [Bool.eq_false_iff]
    intro hsame
    have := (h k e.payload).mpr ⟨e, he, hsame, rfl⟩
    rw [hnone] at this
    cases this
  · intro hall
    rw [eq_none_iff_forall_ne_some]
    intro v hv
    obtain ⟨e, he, hsame, _⟩ := (h k v).mp hv
    rw [hall e he] at hsame
    cases hsame

/-- One more entry. -/
theorem Represents.cons (h : Represents prm l m)
    (hnew : ∀ f ∈ l, same prm e.key f.key = false) : Represents prm (e :: l)
    (mapSet prm m e.key (some e.payload)) := by
  intro k v
  unfold mapSet
  split_ifs with hk
  · rw [some.injEq]
    constructor
    · rintro rfl
      exact ⟨e, mem_cons_self, hk, rfl⟩
    · rintro ⟨f, hf, hsame, hv⟩
      rcases List.mem_cons.mp hf with rfl | hold
      · exact hv
      · rw [same_comm, same_congr hk, distinct_symm (hnew f hold)] at hsame
        cases hsame
  · rw [h k v, exists_mem_cons_iff, or_iff_right fun hsame => hk hsame.1]

/-- One entry less. -/
theorem Represents.tail (h : Represents prm (e :: l) m)
    (hdistinct : (e :: l).Pairwise fun e f => same prm e.key f.key = false) :
    Represents prm l (mapSet prm m e.key none) := by
  have hother := (pairwise_cons.mp hdistinct).1
  intro k v
  unfold mapSet
  split_ifs with hk
  · refine ⟨False.elim, fun ⟨f, hf, hsame, _⟩ => ?_⟩
    rw [same_comm, same_congr hk, distinct_symm (hother f hf)] at hsame
    cases hsame
  · rw [h k v, exists_mem_cons_iff, or_iff_right fun hsame => hk hsame.1]

/-- The caller of an insertion writes to the entry it is given. -/
def setPayload (tb : ShTable K P) (i : ℕ) (payload : P) : ShTable K P :=
  { tb with data := update tb.data i { tb.data i with payload := payload } }

/-- The write changes the value of the entry's key. -/
theorem setPayload_spec (h : ShOk prm tb) (hi : i < tb.size) (he : slots tb.data i = some e)
    (payload : P)
    (hm : Represents prm (entries tb) m) :
    ShOk prm (setPayload tb i payload) ∧ Represents prm (entries (setPayload tb i payload))
      (mapSet prm m e.key (some payload)) := by
  obtain ⟨huse, rfl⟩ := slots_eq_some.mp he
  obtain ⟨rest, hold, hnew⟩ := contents_update hi he { tb.data i with payload := payload }
  have hslots : slots (setPayload tb i payload).data =
      update (slots tb.data) i (some { tb.data i with payload := payload }) :=
    slots_update.trans (by rw [if_pos huse])
  rw [← hslots] at hnew
  have hdistinct := (hold.pairwise_iff distinct_symm).mp h.distinct
  refine ⟨⟨bucketsOk_of_perm hnew h.size
    (forall_mem_cons.mpr ⟨(h.mem hi he : HashOk prm (tb.data i)), fun f hf => ?_⟩) ?_
    (pairwise_cons.mpr (pairwise_cons.mp hdistinct)) (h.members.trans hold.length_eq) h.room,
      h.threshold⟩, ?_⟩
  · exact h.hash f (hold.mem_iff.mpr (mem_cons_of_mem _ hf))
  · rw [hslots]
    exact h.ordered.update he rfl
  · have htail := (hm.perm hold.symm).tail hdistinct
    have hcons :=
      htail.cons (e := { tb.data i with payload := payload }) (pairwise_cons.mp hdistinct).1
    rw [mapSet_mapSet] at hcons
    exact hcons.perm hnew

/-! ## Sequences of calls -/

/-- The calls that change a table. -/
inductive ShOp (K P : Type*)
  /-- `SH_INSERT` by a caller that writes a payload to a new entry, and if it likes to one that was
  found. -/
  | insert (key : K) (payload : P) (overwrite : Bool)
  | delete (key : K)
  /-- `SH_DELETE_ITEM` for the entry in a bucket. -/
  | deleteItem (entry : ℕ)
  | grow (newsize : ℕ)

variable [Inhabited K] [Inhabited P]

/-- A call, on the table and on the map. An entry that is to be deleted is in use, and a table grows
to a size that it can have. -/
def shStep (prm : ShParams K) :
    ShTable K P × (K → Option P) → ShOp K P → Option (ShTable K P × (K → Option P))
  | (tb, m), .insert key payload overwrite =>
    match shInsert prm tb key with
    | (.error _, tb') => some (tb', m)
    | (.ok (found, i), tb') =>
      some (if found && !overwrite then tb' else setPayload tb' i payload,
        if (m key).isSome && !overwrite then m else mapSet prm m key (some payload))
  | (tb, m), .delete key =>
    match shDelete prm tb key with
    | .error _ => some (tb, m)
    | .ok (_, tb') => some (tb', mapSet prm m key none)
  | (tb, m), .deleteItem entry =>
    if entry < tb.size ∧ (tb.data entry).inUse then
      match shDeleteItem prm tb entry with
      | .error _ => some (tb, m)
      | .ok tb' => some (tb', mapSet prm m (tb.data entry).key none)
    else none
  | (tb, m), .grow newsize =>
    if tb.size < newsize ∧ newsize ≤ SH_MAX_SIZE then
      match shGrow prm tb newsize with
      | .error _ => some (tb, m)
      | .ok tb' => some (tb', m)
    else none

omit [Inhabited K] [Inhabited P] in
/-- `SH_DELETE` takes out the entry of its key, and says whether there was one. -/
theorem shDelete_spec (h : ShOk prm tb) (key : K) (hm : Represents prm (entries tb) m) :
    ∃ tb', shDelete prm tb key = .ok ((m key).isSome, tb') ∧ ShOk prm tb' ∧
      Represents prm (entries tb') (mapSet prm m key none) := by
  obtain ⟨r, hprobe, hr⟩ := lookup_spec h.toBucketsOk key
  unfold shDelete
  dsimp only
  rw [hprobe]
  match r, hr with
  | none, hr =>
    have hnone := (hm.none_iff key).mpr hr
    have hmap : mapSet prm m key none = m := by
      funext k
      unfold mapSet
      split_ifs with hk
      · refine ((hm.none_iff k).mpr fun e he => ?_).symm
        rw [same_comm, same_congr hk, same_comm]
        exact hr e he
      · rfl
    refine ⟨tb, by rw [hnone]; rfl, h, ?_⟩
    rw [hmap]
    exact hm
  | some i, ⟨hi, e, he, hsame⟩ =>
    obtain ⟨tb', hdel, hok, hperm⟩ := shDeleteItem_spec h hi he
    have hsome : m key = some e.payload :=
      (hm key _).mpr ⟨e, mem_contents.mpr ⟨i, hi, he⟩, hsame, rfl⟩
    dsimp only
    rw [hdel]
    refine ⟨tb', by rw [hsome]; rfl, hok, ?_⟩
    rw [mapSet_congr m hsame]
    exact (hm.perm hperm.symm).tail ((hperm.pairwise_iff distinct_symm).mp h.distinct)

/-- What an insertion reports and what the map is after it. -/
theorem insert_spec (h : ShOk prm tb) (key : K) (payload : P) (overwrite : Bool)
    (hm : Represents prm (entries tb) m) :
    ∃ s, shStep prm (tb, m) (.insert key payload overwrite) = some s ∧ ShOk prm s.1 ∧
      Represents prm (entries s.1) s.2 := by
  have hspec := shInsert_spec h key
  simp only [shStep]
  revert hspec
  generalize shInsert prm tb key = r
  intro hspec
  match r, hspec with
  | (.error _, tb'), ⟨hok, _, hperm⟩ => exact ⟨_, rfl, hok, hm.perm hperm⟩
  | (.ok (true, i), tb'), ⟨hok, hperm, hi, e, he, hsame⟩ =>
    refine ⟨_, rfl, ?_⟩
    have hm' := hm.perm hperm
    have hsome : m key = some e.payload :=
      (hm' key _).mpr ⟨e, mem_contents.mpr ⟨i, hi, he⟩, hsame, rfl⟩
    rw [hsome]
    cases overwrite with
    | false => exact ⟨hok, hm'⟩
    | true =>
      have hset := setPayload_spec hok hi he payload hm'
      rw [← mapSet_congr m hsame] at hset
      exact hset
  | (.ok (false, i), tb'), ⟨hok, habsent, hi, e, hkey, he, hperm⟩ =>
    refine ⟨_, rfl, ?_⟩
    have hnone := (hm.none_iff key).mpr habsent
    have hm' := (hm.cons (e := e) (by rw [hkey]; exact habsent)).perm hperm
    have hset := setPayload_spec hok hi he payload hm'
    rw [mapSet_mapSet, hkey] at hset
    rw [hnone]
    exact hset

/-- Every call keeps the invariant and the map. -/
theorem shStep_keeps {s t : ShTable K P × (K → Option P)} {op : ShOp K P} (h : ShOk prm s.1)
    (hm : Represents prm (entries s.1) s.2)
    (hstep : shStep prm s op = some t) : ShOk prm t.1 ∧ Represents prm (entries t.1) t.2 := by
  obtain ⟨tb, m⟩ := s
  cases op with
  | insert key payload overwrite =>
    obtain ⟨s', hs', hkeep⟩ := insert_spec h key payload overwrite hm
    rw [hs'] at hstep
    cases hstep
    exact hkeep
  | delete key =>
    obtain ⟨tb', hdel, hkeep⟩ := shDelete_spec h key hm
    simp only [shStep] at hstep
    rw [hdel] at hstep
    cases hstep
    exact hkeep
  | deleteItem entry =>
    simp only [shStep] at hstep
    split_ifs at hstep with hentry
    obtain ⟨tb', hdel, hok, hperm⟩ :=
      shDeleteItem_spec h hentry.1 (slots_eq_some.mpr ⟨hentry.2, rfl⟩)
    rw [hdel] at hstep
    cases hstep
    exact ⟨hok, (hm.perm hperm.symm).tail ((hperm.pairwise_iff distinct_symm).mp h.distinct)⟩
  | grow newsize =>
    simp only [shStep] at hstep
    split_ifs at hstep with hsize
    rcases shGrow_spec h.toBucketsOk hsize.1 hsize.2 with herr | ⟨tb', hok, hok', hperm, _⟩
    · rw [herr] at hstep
      cases hstep
      exact ⟨h, hm⟩
    · rw [hok] at hstep
      cases hstep
      exact ⟨hok', hm.perm hperm⟩

/-- A new table is empty. -/
theorem shCreate_ok (prm : ShParams K) (P : Type*) [Inhabited P] (hsize : IsSize size) :
    ShOk prm (shCreate size : ShTable K P) ∧ entries (shCreate size : ShTable K P) = [] := by
  have hempty : entries (shCreate size : ShTable K P) = [] :=
    filterMap_eq_nil_iff.mpr fun _ _ => rfl
  refine ⟨⟨⟨hsize, ?_, ordered_empty, ?_, ?_, hsize.pos⟩, le_rfl⟩, hempty⟩
  · rw [hempty]
    exact nofun
  · rw [hempty]
    exact List.Pairwise.nil
  · rw [hempty]
    rfl

/-- The table is a map. After every sequence of calls from an empty table no key is in two buckets,
the number of members is that of the buckets in use, and the entries are in the order of their
distances. `SH_LOOKUP` finds exactly the keys of the map, with their payload. `SH_INSERT` reports
exactly whether its key is in the map, and raises an error only when the table cannot grow.
`SH_DELETE` reports the same, and no loop fails to end. -/
theorem simplehash_refines_map (prm : ShParams K) {size : ℕ} (hsize : IsSize size)
    {ops : List (ShOp K P)} {tb : ShTable K P} {m : K → Option P}
    (run : Runs.Run (shStep prm) (fun _ _ => True) (shCreate size, fun _ => none) ops (tb, m)) :
    (∀ i j, i < tb.size → j < tb.size → (tb.data i).inUse = true → (tb.data j).inUse = true →
      same prm (tb.data i).key (tb.data j).key = true → i = j) ∧
    tb.members = (range tb.size).countP (fun i => (tb.data i).inUse) ∧
    Ordered tb.size (home prm tb.size) (slots tb.data) ∧
    (∀ key, ∃ r, shLookup prm tb key = .ok r ∧
      match r with
      | none => m key = none
      | some i =>
        i < tb.size ∧ (tb.data i).inUse = true ∧ same prm key (tb.data i).key = true ∧
          m key = some (tb.data i).payload) ∧
    (∀ key,
      match shInsert prm tb key with
      | (.error e, _) => e ≠ .fault
      | (.ok (found, i), tb') =>
        found = (m key).isSome ∧ i < tb'.size ∧ (tb'.data i).inUse = true ∧
          same prm key (tb'.data i).key = true ∧
          (∀ v, m key = some v → (tb'.data i).payload = v)) ∧
    (∀ key, ∃ tb', shDelete prm tb key = .ok ((m key).isSome, tb')) ∧
    (∀ i, i < tb.size → (tb.data i).inUse = true → ∃ tb', shDeleteItem prm tb i = .ok tb') ∧
    (∀ newsize, tb.size < newsize → newsize ≤ SH_MAX_SIZE →
      shGrow prm tb newsize ≠ .error .fault) := by
  obtain ⟨h, hm⟩ : ShOk prm tb ∧ Represents prm (entries tb) m := by
    refine run.invariant (fun s => ShOk prm s.1 ∧ Represents prm (entries s.1) s.2)
      ⟨(shCreate_ok prm P hsize).1, ?_⟩
      fun a op b ha _ hb => shStep_keeps ha.1 ha.2 hb
    intro k v
    rw [(shCreate_ok prm P hsize).2]
    exact ⟨nofun, fun ⟨e, he, _⟩ => absurd he List.not_mem_nil⟩
  refine ⟨fun i j hi hj hiuse hjuse hsame => ?_, ?_, h.ordered,
    fun key => ?_, fun key => ?_, fun key => ?_, fun i hi huse => ?_,
    fun newsize hless hle => ?_⟩
  · by_contra hne
    have := contents_pairwise (fun e f => distinct_symm) h.distinct hi hj hne
      (slots_eq_some.mpr ⟨hiuse, rfl⟩) (slots_eq_some.mpr ⟨hjuse, rfl⟩)
    rw [hsame] at this
    cases this
  · rw [h.members]
    unfold entries contents
    rw [length_filterMap_eq_countP]
    refine countP_congr fun i _ => ?_
    unfold slots
    split_ifs with huse
    · exact ⟨fun _ => huse, fun _ => rfl⟩
    · exact ⟨nofun, fun hfalse => absurd hfalse huse⟩
  · obtain ⟨r, hprobe, hr⟩ := lookup_spec h.toBucketsOk key
    refine ⟨r, by rw [shLookup, hprobe], ?_⟩
    match r, hr with
    | none, hr => exact (hm.none_iff key).mpr hr
    | some i, ⟨hi, e, he, hsame⟩ =>
      obtain ⟨huse, rfl⟩ := slots_eq_some.mp he
      exact ⟨hi, huse, hsame, (hm key _).mpr ⟨_, mem_contents.mpr ⟨i, hi, he⟩, hsame, rfl⟩⟩
  · have hspec := (shInsert_spec h key).2
    revert hspec
    generalize shInsert prm tb key = r
    intro hspec
    match r, hspec with
    | (.error _, _), hspec => exact hspec.1
    | (.ok (true, i), tb'), ⟨hperm, hi, e, he, hsame⟩ =>
      obtain ⟨huse, rfl⟩ := slots_eq_some.mp he
      have hsome := (hm.perm hperm key _).mpr ⟨_, mem_contents.mpr ⟨i, hi, he⟩, hsame, rfl⟩
      refine ⟨by rw [hsome]; rfl, hi, huse, hsame, fun v hv => ?_⟩
      rw [hsome] at hv
      exact some.inj hv
    | (.ok (false, i), tb'), ⟨habsent, hi, e, hkey, he, _⟩ =>
      obtain ⟨huse, rfl⟩ := slots_eq_some.mp he
      have hnone := (hm.none_iff key).mpr habsent
      refine ⟨by rw [hnone]; rfl, hi, huse, by rw [hkey]; exact same_refl key, fun v hv => ?_⟩
      rw [hnone] at hv
      cases hv
  · obtain ⟨tb', hdel, _⟩ := shDelete_spec h key hm
    exact ⟨tb', hdel⟩
  · obtain ⟨tb', hdel, _⟩ := shDeleteItem_spec h hi (slots_eq_some.mpr ⟨huse, rfl⟩)
    exact ⟨tb', hdel⟩
  · rcases shGrow_spec h.toBucketsOk hless hle with herr | ⟨tb', hok, _⟩
    · rw [herr]
      exact nofun
    · rw [hok]
      exact nofun

end

/-- A table of numbers. -/
def numberParams : ShParams ℕ where
  hashKey k := k % 2^32
  equal k l := k == l
  storeHash := false
  growMaxDib := 25
  growMaxMove := 150
  sizeofElement := 16
  hashKey_lt k := Nat.mod_lt k (by decide)
  equal_refl k := beq_self_eq_true k
  equal_symm k l h := by rw [beq_iff_eq] at h ⊢; exact h.symm
  equal_trans k l m h h' := by rw [beq_iff_eq] at h h' ⊢; exact h.trans h'
  hashKey_of_equal _ k l h := by rw [beq_iff_eq.mp h]

/-- Two insertions into a table with two buckets, which grows, and a deletion. -/
theorem simplehash_refines_map_numbers : IsSize 2 ∧ ∃ tb m, Runs.Run (shStep numberParams)
    (fun _ _ => True) (shCreate 2, fun _ => none)
    [.insert 3 30 true, .insert 5 50 true, .delete (3 : ℕ)]
    (tb, m) ∧ tb.members = (range tb.size).countP (fun i => (tb.data i).inUse) ∧
      m 5 = some 50 := by
  have hsize : IsSize 2 := ⟨1, by decide, rfl⟩
  have run₁ : Runs.Run (shStep numberParams) (fun _ _ => True) (shCreate 2, fun _ => none)
      ([] ++ [ShOp.insert 3 30 true]) _ := .concat .nil trivial rfl
  have run₂ := run₁.concat (l := ShOp.insert 5 50 true) trivial rfl
  have run := run₂.concat (l := ShOp.delete 3) trivial rfl
  exact ⟨hsize, _, _, run, (simplehash_refines_map numberParams hsize run).2.1, rfl⟩

end PgAutoIndex.Lib
