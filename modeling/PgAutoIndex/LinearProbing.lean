import Mathlib.Data.Set.Card
import Mathlib.Tactic.Abel

/-!
# Linear probing in a table of fixed size

A table of `n` slots holds values that carry their own key. A probe for a key starts at the slot
that the key hashes to and walks the slots in cyclic order: it stops at the first empty slot, or at
the first slot whose value has the key, or when it is back where it started. `probe_means` says what
each of the three outcomes means in terms of the cyclic distance from the start, and the rest of
the module works with distances only.

A table is `Sound` when every value is where the probe for its key ends. A sound table holds no key
twice, and `lookup` reads it as a finite map (`Sound.lookup_eq_some_iff`). Filling the empty slot
that a probe ended at keeps a table sound, and so does replacing a value by one with the same key.
Emptying slots does not in general: `Sound.clear_iff` says that it does exactly when no emptied slot
lies before a remaining value on the path of that value's probe.
-/

namespace LinearProbing

open Function Option

variable {n : ℕ} {K V : Type*}

/-- Where a probe ends: at an empty slot, at a slot that holds the key, or back at its start. -/
inductive Outcome (n : ℕ) where
  /-- The probe met an empty slot. -/
  | free (i : Fin n)
  /-- The probe met the key. -/
  | hit (i : Fin n)
  /-- The probe went round the whole table. -/
  | full
  deriving DecidableEq

/-- The slot holds a value with another key than `k`, so that a probe for `k` walks past it. -/
def Passes (t : Fin n → Option V) (key : V → K) (k : K) (i : Fin n) : Prop :=
  ∃ v, t i = some v ∧ key v ≠ k

variable {t : Fin n → Option V} {key : V → K} {k : K} {i start : Fin n} {v : V}

/-- A slot that a probe for `k` walks past is not empty. -/
theorem Passes.ne_none (h : Passes t key k i) : t i ≠ none := by
  obtain ⟨v, hv, -⟩ := h
  simp [hv]

/-- A slot that a probe for `k` walks past does not hold `k`. -/
theorem Passes.key_ne (h : Passes t key k i) (hv : t i = some v) : key v ≠ k := by
  obtain ⟨w, hw, hne⟩ := h
  rw [hv] at hw
  cases hw
  exact hne

variable [NeZero n]

/-- The probe loop from slot `idx`, `none` while it has not ended after `fuel` slots. -/
def probeLoop [DecidableEq K] (t : Fin n → Option V) (key : V → K) (k : K) (start : Fin n) :
    ℕ → Fin n → Option (Outcome n)
  | 0, _ => none
  | fuel + 1, idx =>
    match t idx with
    | none => some (.free idx)
    | some v =>
      if key v = k then some (.hit idx)
      else if idx + 1 = start then some .full
      else probeLoop t key k start fuel (idx + 1)

/-- The probe for `k` from slot `start`. The loop ends before it comes to a slot for the second time
(`probeLoop_eq`). -/
def probe [DecidableEq K] (t : Fin n → Option V) (key : V → K) (k : K) (start : Fin n) :
    Outcome n :=
  (probeLoop t key k start n start).getD .full

/-- The slot `i` comes before the slot `j` on a probe from `start`. -/
def Before (start i j : Fin n) : Prop := (i - start).val < (j - start).val

/-- The probe order is decidable. -/
instance (start i j : Fin n) : Decidable (Before start i j) :=
  inferInstanceAs (Decidable ((i - start).val < (j - start).val))

/-- One step of the walk adds one to the distance, unless it closes the circle. -/
theorem dist_succ {idx : Fin n} (h : idx + 1 ≠ start) :
    (idx + 1 - start).val = (idx - start).val + 1 := by
  have hsplit : idx + 1 - start = (idx - start) + 1 := by abel
  rcases lt_or_ge ((idx - start).val + 1) n with hn | hn
  · rw [hsplit, Fin.val_add, Fin.val_one', Nat.add_mod_mod, Nat.mod_eq_of_lt hn]
  · exfalso
    apply h
    have hzero : (idx - start) + 1 = 0 := by
      apply Fin.ext
      rw [Fin.val_add, Fin.val_one', Nat.add_mod_mod,
        show (idx - start).val + 1 = n by omega, Nat.mod_self]
      rfl
    rw [← sub_eq_zero, hsplit, hzero]

/-- The step that closes the circle is taken from the last slot. -/
theorem dist_last {idx : Fin n} (h : idx + 1 = start) : (idx - start).val + 1 = n := by
  have hzero : (idx - start) + 1 = 0 := by rw [← h]; abel
  have hval := congrArg Fin.val hzero
  rw [Fin.val_add, Fin.val_one', Nat.add_mod_mod] at hval
  by_contra hne
  rw [Nat.mod_eq_of_lt (by omega)] at hval
  simp at hval

/-- A slot is determined by its distance from the start. -/
theorem eq_of_dist_eq {start : Fin n} {j : Fin n} (h : (i - start).val = (j - start).val) : i = j :=
  sub_left_injective (Fin.ext h)

/-- What an outcome of the probe for `k` from `start` says about the table. -/
def Outcome.Means (t : Fin n → Option V) (key : V → K) (k : K) (start : Fin n) :
    Outcome n → Prop
  | .free i => t i = none ∧ ∀ j, Before start j i → Passes t key k j
  | .hit i => (∃ v, t i = some v ∧ key v = k) ∧ ∀ j, Before start j i → Passes t key k j
  | .full => ∀ j, Passes t key k j

omit [NeZero n] in
/-- A probe that does not go round ends at the first slot that it does not walk past, and the slot
decides how. -/
theorem Outcome.Means.stop {a : Outcome n} (h : a.Means t key k start) :
    (a = .full ∧ ∀ j, Passes t key k j) ∨ ∃ i, a = (if (t i).isNone then .free i else .hit i) ∧
      ¬ Passes t key k i ∧ ∀ j, Before start j i → Passes t key k j := by
  cases a with
  | free i => exact .inr ⟨i, by simp [h.1], fun hp => hp.ne_none h.1, h.2⟩
  | hit i =>
    obtain ⟨⟨v, hv, hk⟩, hbefore⟩ := h
    exact .inr ⟨i, by simp [hv], fun hp => hp.key_ne hv hk, hbefore⟩
  | full => exact .inl ⟨rfl, h⟩

/-- Only one outcome fits the table. -/
theorem Outcome.Means.unique {a b : Outcome n} (ha : a.Means t key k start)
    (hb : b.Means t key k start) : a = b := by
  rcases ha.stop with ⟨rfl, hi⟩ | ⟨i, rfl, hni, hi⟩ <;> rcases hb.stop with ⟨rfl, hj⟩ |
    ⟨j, rfl, hnj, hj⟩
  · rfl
  · exact absurd (hi j) hnj
  · exact absurd (hj i) hni
  · -- Of two slots where the walk ends, neither comes before the other.
    rcases lt_trichotomy (i - start).val (j - start).val with hlt | heq | hgt
    · exact absurd (hj i hlt) hni
    · rw [eq_of_dist_eq heq]
    · exact absurd (hi j hgt) hnj

variable [DecidableEq K]

/-- The loop from a slot that the probe has reached ends, with fuel for the slots that are left. -/
theorem probeLoop_means {t : Fin n → Option V} {key : V → K} {k : K} {start : Fin n} :
    ∀ (fuel : ℕ) (idx : Fin n), (idx - start).val + fuel = n →
      (∀ j, Before start j idx → Passes t key k j) →
      ∃ a, probeLoop t key k start fuel idx = some a ∧ a.Means t key k start
  | 0, idx, hfuel, _ => by
    omega
  | fuel + 1, idx, hfuel, hprev => by
    cases ht : t idx with
    | none =>
      simp only [probeLoop, ht]
      exact ⟨_, rfl, ht, hprev⟩
    | some v =>
      -- When `idx` holds another key, the probe walks past it and past all slots before it.
      have hupto : key v ≠ k → ∀ j, (j - start).val ≤ (idx - start).val → Passes t key k j := by
        intro hk j hj
        rcases lt_or_eq_of_le hj with hlt | heq
        · exact hprev j hlt
        · exact eq_of_dist_eq heq ▸ ⟨v, ht, hk⟩
      simp only [probeLoop, ht]
      split_ifs with hk hwrap
      · exact ⟨_, rfl, ⟨v, ht, hk⟩, hprev⟩
      · -- The circle closes: no slot is farther from the start than `idx`.
        refine ⟨_, rfl, fun j => ?_⟩
        have hlast := dist_last hwrap
        exact hupto hk j (by omega)
      · have hstep := dist_succ hwrap
        refine probeLoop_means fuel (idx + 1) (by omega) ?_
        intro j hj
        unfold Before at hj
        exact hupto hk j (by omega)

/-- The loop from the start ends, with an outcome that says what it means. -/
theorem probeLoop_start (t : Fin n → Option V) (key : V → K) (k : K) (start : Fin n) :
    ∃ a, probeLoop t key k start n start = some a ∧ a.Means t key k start := by
  refine probeLoop_means n start (by simp) ?_
  intro j hj
  simp [Before] at hj

/-- The probe is the outcome of the loop. -/
theorem probeLoop_eq : probeLoop t key k start n start = some (probe t key k start) := by
  obtain ⟨a, ha, -⟩ := probeLoop_start t key k start
  rw [probe, ha, getD_some]

/-- The outcome of a probe says what it means. -/
theorem probe_means (t : Fin n → Option V) (key : V → K) (k : K) (start : Fin n) :
    (probe t key k start).Means t key k start := by
  obtain ⟨a, ha, hmeans⟩ := probeLoop_start t key k start
  rwa [probe, ha, getD_some]

/-- A probe ends with the outcome that fits the table. -/
theorem probe_eq_iff {a : Outcome n} : probe t key k start = a ↔ a.Means t key k start := by
  constructor
  · rintro rfl
    exact probe_means t key k start
  · intro h
    exact (probe_means t key k start).unique h

/-! ## Sound tables -/

section Hashed

variable (key : V → K) (hash : K → Fin n)

/-- The probe for `k` from the slot that `k` hashes to. -/
def find (t : Fin n → Option V) (k : K) : Outcome n := probe t key k (hash k)

/-- Every value is where the probe for its key ends. -/
def Sound (t : Fin n → Option V) : Prop :=
  ∀ i v, t i = some v → find key hash t (key v) = .hit i

/-- The value that the probe for `k` finds. -/
def lookup (t : Fin n → Option V) (k : K) : Option V :=
  match find key hash t k with
  | .hit i => t i
  | _ => none

/-- The table with the slots of `S` emptied. -/
def clear (t : Fin n → Option V) (S : Fin n → Prop) [DecidablePred S] : Fin n → Option V :=
  fun i => if S i then none else t i

variable {key hash} {t : Fin n → Option V}

/-- The probe for `k` ends at a value with key `k` when every slot before it holds another key. -/
theorem find_eq_hit_iff : find key hash t k = .hit i ↔
    (∃ v, t i = some v ∧ key v = k) ∧ ∀ j, Before (hash k) j i → Passes t key k j :=
  probe_eq_iff

/-- The probe for `k` ends at an empty slot when every slot before it holds another key. -/
theorem find_eq_free_iff : find key hash t k = .free i ↔
    t i = none ∧ ∀ j, Before (hash k) j i → Passes t key k j :=
  probe_eq_iff

/-- No slot comes before the first. -/
theorem not_before_start (start i : Fin n) : ¬ Before start i start := by
  unfold Before
  rw [sub_self]
  exact Nat.not_lt_zero _

/-- The probe for `k` ends at once at an empty first slot. -/
theorem find_eq_free_of_home (h : t (hash k) = none) :
    find key hash t k = .free (hash k) :=
  find_eq_free_iff.mpr ⟨h, fun j hj => absurd hj (not_before_start _ j)⟩

/-- The probe for `k` ends at once at a first slot that holds `k`. -/
theorem find_eq_hit_of_home (hv : t (hash k) = some v) (hk : key v = k) :
    find key hash t k = .hit (hash k) :=
  find_eq_hit_iff.mpr ⟨⟨v, hv, hk⟩, fun j hj => absurd hj (not_before_start _ j)⟩

/-- The probe for `k` goes round when every slot holds another key. -/
theorem find_eq_full_iff : find key hash t k = .full ↔ ∀ j, Passes t key k j :=
  probe_eq_iff

/-- The empty table is sound. -/
theorem sound_empty : Sound key hash (fun _ : Fin n => (none : Option V)) := by
  intro i v hv
  cases hv

section
variable (h : Sound key hash t)
include h

/-- In a sound table the probe for `k` ends at a value with key `k` wherever that value is. -/
theorem Sound.find_eq_hit (hv : t i = some v) (hk : key v = k) : find key hash t k = .hit i :=
  hk ▸ h i v hv

/-- A sound table holds no key twice. -/
theorem Sound.slot_unique {j : Fin n} {w : V} (hv : t i = some v)
    (hw : t j = some w) (hk : key v = key w) : i = j := by
  have hi := h.find_eq_hit hv hk
  rw [h j w hw] at hi
  cases hi
  rfl

/-- A sound table read as a map: the value under `k` is the value with key `k` in some slot. -/
theorem Sound.lookup_eq_some_iff :
    lookup key hash t k = some v ↔ ∃ i, t i = some v ∧ key v = k := by
  constructor
  · intro hl
    unfold lookup at hl
    cases hf : find key hash t k with
    | free i => simp [hf] at hl
    | full => simp [hf] at hl
    | hit i =>
      simp only [hf] at hl
      obtain ⟨⟨w, hw, hk⟩, -⟩ := find_eq_hit_iff.mp hf
      rw [hw] at hl
      cases hl
      exact ⟨i, hw, hk⟩
  · rintro ⟨i, hv, hk⟩
    simp only [lookup, h.find_eq_hit hv hk]
    exact hv

/-- A sound table read as a map: there is no value under `k` when no slot holds `k`. -/
theorem Sound.lookup_eq_none_iff :
    lookup key hash t k = none ↔ ∀ i v, t i = some v → key v ≠ k := by
  rw [eq_none_iff_forall_ne_some]
  constructor
  · intro hn i v hv hk
    exact hn v (h.lookup_eq_some_iff.mpr ⟨i, hv, hk⟩)
  · intro hn v hl
    obtain ⟨i, hv, hk⟩ := h.lookup_eq_some_iff.mp hl
    exact hn i v hv hk

/-- Writing a value with key `k` into the slot where the probe for `k` ended, whether that slot was
empty or held `k`, keeps the table sound. -/
theorem Sound.put
    (hi : find key hash t k = .free i ∨ find key hash t k = .hit i) (hk : key v = k) :
    Sound key hash (update t i (some v)) := by
  have hbefore : ∀ j, Before (hash k) j i → Passes t key k j := by
    rcases hi with hi | hi
    · exact (find_eq_free_iff.mp hi).2
    · exact (find_eq_hit_iff.mp hi).2
  intro j w hw
  rw [find_eq_hit_iff]
  by_cases hji : j = i
  · -- The written value: the slots before it are as they were.
    subst hji
    rw [update_self] at hw
    cases hw
    refine ⟨⟨v, update_self .., rfl⟩, ?_⟩
    intro l hl
    have hlj : l ≠ j := by
      rintro rfl
      exact absurd hl (lt_irrefl _)
    obtain ⟨u, hu, hne⟩ := hbefore l (hk ▸ hl)
    exact ⟨u, by rw [update_of_ne hlj, hu], hk ▸ hne⟩
  · rw [update_of_ne hji] at hw
    -- Another value cannot have the key `k`: the probe for `k` would have ended at it.
    have hwk : key w ≠ k := by
      intro hwk
      have hhit := h.find_eq_hit hw hwk
      rcases hi with hi | hi
      · rw [hi] at hhit
        cases hhit
      · rw [hi] at hhit
        cases hhit
        exact hji rfl
    obtain ⟨-, hpath⟩ := find_eq_hit_iff.mp (h j w hw)
    refine ⟨⟨w, by rw [update_of_ne hji, hw], rfl⟩, ?_⟩
    intro l hl
    by_cases hli : l = i
    · -- The path of `w` may cross the written slot, which now holds `k`.
      subst hli
      exact ⟨v, update_self .., fun hvw => hwk (by rw [← hvw, hk])⟩
    · obtain ⟨u, hu, hne⟩ := hpath l hl
      exact ⟨u, by rw [update_of_ne hli, hu], hne⟩

/-- Writing a value with key `k` where the probe for `k` ended changes the map at `k` only. -/
theorem Sound.lookup_put
    (hi : find key hash t k = .free i ∨ find key hash t k = .hit i) (hk : key v = k) :
    lookup key hash (update t i (some v)) =
      update (lookup key hash t) k (some v) := by
  have h' := h.put hi hk
  funext k'
  by_cases hkk : k' = k
  · subst hkk
    rw [update_self]
    exact h'.lookup_eq_some_iff.mpr ⟨i, update_self .., hk⟩
  · rw [update_of_ne hkk]
    apply ext
    intro w
    rw [h'.lookup_eq_some_iff, h.lookup_eq_some_iff]
    constructor
    · rintro ⟨j, hj, hwk⟩
      by_cases hji : j = i
      · subst hji
        rw [update_self] at hj
        cases hj
        exact absurd (hwk.symm.trans hk) hkk
      · rw [update_of_ne hji] at hj
        exact ⟨j, hj, hwk⟩
    · rintro ⟨j, hj, hwk⟩
      -- The slot written was empty or held `k`, so that no other key's value is overwritten.
      have hji : j ≠ i := by
        rintro rfl
        rcases hi with hi | hi
        · rw [(find_eq_free_iff.mp hi).1] at hj
          cases hj
        · obtain ⟨⟨u, hu, huk⟩, -⟩ := find_eq_hit_iff.mp hi
          rw [hu] at hj
          cases hj
          exact hkk (hwk.symm.trans huk)
      exact ⟨j, by rw [update_of_ne hji, hj], hwk⟩

/-- Emptying slots keeps a sound table sound exactly when no emptied slot comes before a remaining
value on the path of that value's probe. -/
theorem Sound.clear_iff (S : Fin n → Prop) [DecidablePred S] :
    Sound key hash (clear t S) ↔
      ∀ i j v, S i → ¬ S j → t j = some v → ¬ Before (hash (key v)) i j := by
  constructor
  · -- The probe for a remaining value would stop at an emptied slot on its path.
    intro hc i j v hi hj hv hbefore
    have hvc : clear t S j = some v := by rw [clear, if_neg hj, hv]
    obtain ⟨-, hpath⟩ := find_eq_hit_iff.mp (hc j v hvc)
    exact (hpath i hbefore).ne_none (if_pos hi)
  · intro hcond j v hvc
    obtain ⟨hj, hv⟩ : ¬ S j ∧ t j = some v := by simpa [clear] using hvc
    rw [find_eq_hit_iff]
    refine ⟨⟨v, hvc, rfl⟩, ?_⟩
    -- The slots on the path of a remaining value are not emptied, and hold what they held.
    intro l hl
    have hlS : ¬ S l := fun hlS => hcond l j v hlS hj hv hl
    obtain ⟨w, hw, hne⟩ := (find_eq_hit_iff.mp (h j v hv)).2 l hl
    exact ⟨w, by rw [clear, if_neg hlS, hw], hne⟩

end

/-- The map of a table with emptied slots, when it is sound: the values that remain. -/
theorem Sound.lookup_clear_eq_some_iff {S : Fin n → Prop} [DecidablePred S]
    (hc : Sound key hash (clear t S)) :
    lookup key hash (clear t S) k = some v ↔ ∃ i, ¬ S i ∧ t i = some v ∧ key v = k := by
  rw [hc.lookup_eq_some_iff]
  constructor
  · rintro ⟨i, hv, hk⟩
    unfold clear at hv
    split_ifs at hv with hi
    exact ⟨i, hi, hv, hk⟩
  · rintro ⟨i, hi, hv, hk⟩
    exact ⟨i, by rw [clear, if_neg hi, hv], hk⟩

/-- A sound table has as many keys as occupied slots. -/
theorem Sound.ncard_keys (h : Sound key hash t) :
    {k | lookup key hash t k ≠ none}.ncard = {i | t i ≠ none}.ncard := by
  -- Keys and occupied slots correspond through the key of the slot's value.
  have himage : some '' {k | lookup key hash t k ≠ none} =
      (fun i => (t i).map key) '' {i | t i ≠ none} := by
    ext o
    constructor
    · rintro ⟨k, hk, rfl⟩
      obtain ⟨v, hv⟩ := ne_none_iff_exists'.mp hk
      obtain ⟨i, hi, hvk⟩ := h.lookup_eq_some_iff.mp hv
      exact ⟨i, by simp [hi], by simp [hi, hvk]⟩
    · rintro ⟨i, hi, rfl⟩
      obtain ⟨v, hv⟩ := ne_none_iff_exists'.mp hi
      refine ⟨key v, ?_, by simp [hv]⟩
      have := h.lookup_eq_some_iff.mpr ⟨i, hv, rfl⟩
      simp [this]
  have hinj : Set.InjOn (fun i => (t i).map key) {i | t i ≠ none} := by
    intro i hi j hj hij
    obtain ⟨v, hv⟩ := ne_none_iff_exists'.mp hi
    obtain ⟨w, hw⟩ := ne_none_iff_exists'.mp hj
    simp only [hv, hw, map_some, some.injEq] at hij
    exact h.slot_unique hv hw hij
  rw [← Set.ncard_image_of_injective _ (some_injective K), himage,
    hinj.ncard_image]

/-- A sound table in which a probe goes round has a key in every slot. -/
theorem Sound.ncard_keys_of_full (h : Sound key hash t) (hf : find key hash t k = .full) :
    {k | lookup key hash t k ≠ none}.ncard = n := by
  rw [h.ncard_keys]
  have huniv : {i | t i ≠ none} = Set.univ := by
    ext i
    simpa using (find_eq_full_iff.mp hf i).ne_none
  rw [huniv, Set.ncard_univ, Nat.card_fin]

/-- A sound table in which a probe meets an empty slot has fewer keys than slots. -/
theorem Sound.ncard_keys_of_free (h : Sound key hash t) (hf : find key hash t k = .free i) :
    {k | lookup key hash t k ≠ none}.ncard < n := by
  rw [h.ncard_keys]
  have hss : {i | t i ≠ none} ⊂ (Set.univ : Set (Fin n)) := by
    rw [Set.ssubset_univ_iff]
    intro huniv
    have hi : i ∈ {i | t i ≠ none} := huniv ▸ Set.mem_univ i
    exact hi (find_eq_free_iff.mp hf).1
  have hlt := Set.ncard_lt_ncard hss
  rwa [Set.ncard_univ, Nat.card_fin] at hlt

end Hashed

end LinearProbing
