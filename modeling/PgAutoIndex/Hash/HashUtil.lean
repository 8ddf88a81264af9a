import PgAutoIndex.Interleaved

/-!
# Split points of a hash index

Model of `_hash_spareindex` and `_hash_get_totalbuckets` in `src/backend/access/hash/hashutil.c`.
Buckets are added in groups that double their number. A group of more than 512 buckets comes in four
phases of equal size. `_hash_get_totalbuckets` counts the buckets up to a phase, and
`_hash_spareindex` gives the phase in which the last one of so many buckets is added: the first
phase whose count reaches it (`hashSpareindex_inGroup`).
-/

namespace PgAutoIndex.Hash

/-- `HASH_SPLITPOINT_PHASE_BITS`. -/
def HASH_SPLITPOINT_PHASE_BITS : ℕ := 2

/-- `HASH_SPLITPOINT_PHASE_MASK`. -/
def HASH_SPLITPOINT_PHASE_MASK : ℕ := 3

/-- `HASH_SPLITPOINT_GROUPS_WITH_ONE_PHASE`. -/
def HASH_SPLITPOINT_GROUPS_WITH_ONE_PHASE : ℕ := 10

/-- `pg_ceil_log2_32`. -/
def pgCeilLog2 (num : ℕ) : ℕ := if num < 2 then 0 else Nat.log2 (num - 1) + 1

/-- `_hash_spareindex`. -/
def hashSpareindex (numBucket : ℕ) : ℕ :=
  let splitpointGroup := pgCeilLog2 numBucket
  if splitpointGroup < HASH_SPLITPOINT_GROUPS_WITH_ONE_PHASE then splitpointGroup
  else
    -- Account for single-phase groups, multi-phase groups before this one, and phases within it.
    HASH_SPLITPOINT_GROUPS_WITH_ONE_PHASE
      + ((splitpointGroup - HASH_SPLITPOINT_GROUPS_WITH_ONE_PHASE) <<< HASH_SPLITPOINT_PHASE_BITS)
      + (((numBucket - 1) >>> (splitpointGroup - (HASH_SPLITPOINT_PHASE_BITS + 1))) &&&
        HASH_SPLITPOINT_PHASE_MASK)

/-- `_hash_get_totalbuckets`. -/
def hashGetTotalbuckets (splitpointPhase : ℕ) : ℕ :=
  if splitpointPhase < HASH_SPLITPOINT_GROUPS_WITH_ONE_PHASE then 1 <<< splitpointPhase
  else
    let splitpointGroup := HASH_SPLITPOINT_GROUPS_WITH_ONE_PHASE
      + ((splitpointPhase - HASH_SPLITPOINT_GROUPS_WITH_ONE_PHASE) >>> HASH_SPLITPOINT_PHASE_BITS)
    let phasesWithinSplitpointGroup :=
      ((splitpointPhase - HASH_SPLITPOINT_GROUPS_WITH_ONE_PHASE) &&& HASH_SPLITPOINT_PHASE_MASK) + 1
    ((1 <<< (splitpointGroup - 1))
      + ((1 <<< (splitpointGroup - 1)) >>> HASH_SPLITPOINT_PHASE_BITS) *
        phasesWithinSplitpointGroup) % 2^32

/-! ## Phases -/

/-- Every phase adds buckets. -/
theorem hashGetTotalbuckets_succ : ∀ p :
    Fin 97, hashGetTotalbuckets p.val < hashGetTotalbuckets (p.val + 1) := by decide +kernel

theorem hashGetTotalbuckets_last : hashGetTotalbuckets 97 = 2^31 := by decide +kernel

/-- The groups of one phase. -/
theorem hashGetTotalbuckets_single : ∀ g : Fin 10, hashGetTotalbuckets g.val = 2^g.val := by
  decide +kernel

/-- The phases of a group of four, in quarters of the buckets that are there before. -/
theorem hashGetTotalbuckets_phase : ∀ (g : Fin 22) (q : Fin 4),
    hashGetTotalbuckets (10 + g.val * 4 + q.val) = 2^(g.val + 7) * (5 + q.val) ∧
      hashGetTotalbuckets (10 + g.val * 4 + q.val - 1) = 2^(g.val + 7) * (4 + q.val) := by
  decide +kernel

/-- The number of buckets grows from phase to phase. -/
theorem hashGetTotalbuckets_lt {i j : ℕ} (hij : i < j) (hj : j ≤ 97) :
    hashGetTotalbuckets i < hashGetTotalbuckets j := by
  induction j with
  | zero => omega
  | succ j ih =>
    have hstep := hashGetTotalbuckets_succ ⟨j, by omega⟩
    rcases Nat.lt_succ_iff_lt_or_eq.mp hij with hlt | rfl
    · exact (ih hlt (by omega)).trans hstep
    · exact hstep

theorem hashGetTotalbuckets_mono : Interleaved.MonoUpTo hashGetTotalbuckets 97 := by
  intro i j hij hj
  rcases hij.lt_or_eq with hlt | rfl
  · exact le_of_lt (hashGetTotalbuckets_lt hlt hj)
  · exact le_rfl

/-- A phase that reaches a bucket while the phase before it does not is the first one. -/
theorem inGroup_of_prev {n k : ℕ} (hk : k ≤ 97) (hle : n ≤ hashGetTotalbuckets k)
    (hprev : 0 < k → hashGetTotalbuckets (k - 1) < n) :
    Interleaved.InGroup hashGetTotalbuckets n k :=
  ⟨hle, fun j hj =>
    lt_of_le_of_lt (hashGetTotalbuckets_mono j (k - 1) (by omega) (by omega)) (hprev (by omega))⟩

/-- The logarithm, rounded up. -/
theorem pgCeilLog2_bounds {num : ℕ} (h : 2 ≤ num) :
    0 < pgCeilLog2 num ∧ 2^(pgCeilLog2 num - 1) < num ∧ num ≤ 2^pgCeilLog2 num := by
  unfold pgCeilLog2
  rw [if_neg (by omega), Nat.add_sub_cancel]
  have hlow : 2^(Nat.log2 (num - 1)) ≤ num - 1 := Nat.log2_self_le (by omega)
  have hhigh : num - 1 < 2^(Nat.log2 (num - 1) + 1) := Nat.lt_log2_self
  exact ⟨by omega, by omega, by omega⟩

/-- `_hash_spareindex` is the first phase that reaches so many buckets. -/
theorem hashSpareindex_inGroup {n : ℕ} (hpos : 1 ≤ n) (hle : n ≤ 2^31) :
    Interleaved.InGroup hashGetTotalbuckets n (hashSpareindex n) ∧ hashSpareindex n ≤ 97 := by
  rcases hpos.eq_or_lt with rfl | hn
  · exact ⟨⟨by decide, nofun⟩, by decide⟩
  obtain ⟨hg, hlow, hhigh⟩ := pgCeilLog2_bounds hn
  unfold hashSpareindex
  dsimp only
  have hlast : pgCeilLog2 n - 1 < 31 :=
    (Nat.pow_lt_pow_iff_right (a := 2) (by decide)).mp (lt_of_lt_of_le hlow hle)
  generalize pgCeilLog2 n = g at hg hlow hhigh hlast ⊢
  split_ifs with hsingle
  · -- A group of one phase.
    have hsingle : g < 10 := hsingle
    refine ⟨inGroup_of_prev (by omega) ?_ fun _ => ?_, by omega⟩
    · rwa [show hashGetTotalbuckets g = 2^g from hashGetTotalbuckets_single ⟨g, hsingle⟩]
    · rwa [show hashGetTotalbuckets (g - 1) = 2^(g - 1) from hashGetTotalbuckets_single
        ⟨g - 1, by omega⟩]
  · -- One of four phases: the bits below the highest one tell the quarter.
    have hmulti : 10 ≤ g := not_lt.mp hsingle
    have hfour : 2^(g - 1) = 4 * 2^(g - 3) := by
      rw [show g - 1 = 2 + (g - 3) by omega, Nat.pow_add]
    have height : 2^g = 8 * 2^(g - 3) := by
      conv_lhs => rw [show g = 3 + (g - 3) by omega, Nat.pow_add]
    have hpow : 0 < 2^(g - 3) := Nat.pow_pos (by decide)
    show Interleaved.InGroup hashGetTotalbuckets n
      (10 + ((g - 10) <<< 2) + (((n - 1) >>> (g - 3)) &&& 3)) ∧
      10 + ((g - 10) <<< 2) + (((n - 1) >>> (g - 3)) &&& 3) ≤ 97
    rw [Nat.shiftLeft_eq, Nat.shiftRight_eq_div_pow, show (3 : ℕ) = 2^2 - 1 by decide,
      Nat.and_two_pow_sub_one_eq_mod]
    have hw4 : 4 ≤ (n - 1) / 2^(g - 3) := (Nat.le_div_iff_mul_le hpow).mpr (by omega)
    have hw8 : (n - 1) / 2^(g - 3) < 8 := (Nat.div_lt_iff_lt_mul hpow).mpr (by omega)
    have hdivle : (n - 1) / 2^(g - 3) * 2^(g - 3) ≤ n - 1 := Nat.div_mul_le_self _ _
    have hdivlt : n - 1 < 2^(g - 3) * ((n - 1) / 2^(g - 3) + 1) := Nat.lt_mul_div_succ _ hpow
    generalize (n - 1) / 2^(g - 3) = w at hw4 hw8 hdivle hdivlt ⊢
    obtain ⟨q, rfl, hq⟩ : ∃ q, w = 4 + q ∧ q < 4 := ⟨w - 4, by omega, by omega⟩
    have hmod : (4 + q) % 2^2 = q := by omega
    rw [hmod]
    obtain ⟨htotal, hprev⟩ := hashGetTotalbuckets_phase ⟨g - 10, by omega⟩ ⟨q, hq⟩
    dsimp only at htotal hprev
    rw [show g - 10 + 7 = g - 3 by omega] at htotal hprev
    refine ⟨inGroup_of_prev (by omega) ?_ fun _ => ?_, by omega⟩
    · rw [htotal, show 5 + q = 4 + q + 1 by omega]
      omega
    · rw [hprev, mul_comm]
      omega

/-- One more bucket is in the same phase or in the next one. -/
theorem hashSpareindex_succ_le {n : ℕ} (hpos : 1 ≤ n) (hlt : n < 2^31) :
    hashSpareindex (n + 1) ≤ hashSpareindex n + 1 := by
  obtain ⟨hgroup, hle⟩ := hashSpareindex_inGroup hpos (by omega)
  obtain ⟨hgroup', hle'⟩ := hashSpareindex_inGroup (n := n + 1) (by omega) (by omega)
  by_contra hgap
  have hbetween := hgroup'.lt (hashSpareindex n + 1) (by omega)
  have hgrow : hashGetTotalbuckets (hashSpareindex n) <
      hashGetTotalbuckets (hashSpareindex n + 1) :=
    hashGetTotalbuckets_lt (Nat.lt_succ_self _) (by omega)
  have := hgroup.le
  omega

theorem hashSpareindex_mono {m n : ℕ} (hpos : 1 ≤ m) (hmn : m ≤ n) (hle : n ≤ 2^31) :
    hashSpareindex m ≤ hashSpareindex n :=
  (hashSpareindex_inGroup hpos (by omega)).1.mono (hashSpareindex_inGroup (by omega) hle).1 hmn

end PgAutoIndex.Hash
