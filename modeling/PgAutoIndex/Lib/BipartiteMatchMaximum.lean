import Mathlib.Order.Interval.Finset.Nat
import PgAutoIndex.Lib.BipartiteMatch

/-!
# Bipartite matching: augmenting and the maximum

A depth-first search from `u` goes from distance to distance, so it meets no vertex twice. When it
is successful, the pairs it leaves are a matching except that the previous partner of `u` is not yet
told (`Pairs`): its caller gives that partner to the vertex before. When it is not, it has only
removed vertices from the layers, and with each vertex all vertices of the next layer that can be
reached from it (`Removed`).

So a phase without success would remove, layer by layer, every vertex that the breadth-first search
has reached, also the one for an unmatched vertex of the right side, which is never removed
(`phase_augments`). And when the breadth-first search does not reach that one, the vertices it
reaches show that the matching is a maximum one (`maximum_of_layered`).
-/

namespace PgAutoIndex.Lib

open Function

variable {k u v : ℕ} {st₀ : MatchState}

section
variable {st st' st'' : MatchState}

/-! ## Pairs -/

/-- The entries of the adjacency lists are vertices of the right side. -/
def AdjacencyOk (st : MatchState) : Prop :=
  ∀ u, 1 ≤ u → u ≤ st.uSize → ∀ v ∈ st.neighbours u, 1 ≤ v ∧ v ≤ st.vSize

/-- The pairs are mutually inverse and are edges, except that nothing is said about `pair_vu` of
`w`, which is no vertex's partner. -/
structure Pairs (st : MatchState) (w : ℕ) : Prop where
  inverse : ∀ u v, 1 ≤ u → 1 ≤ v → (st.pairUv u = v ↔ v ≠ w ∧ st.pairVu v = u)
  edge : ∀ u, 1 ≤ u → st.pairUv u ≠ 0 → st.pairUv u ∈ st.neighbours u
  pairVu_le : ∀ v, st.pairVu v ≤ st.uSize
  pairUv_zero : st.pairUv 0 = 0

/-- An unmatched vertex of the right side is no vertex's partner. -/
theorem Pairs.unmatched (h : Pairs st 0) (hv : st.pairVu v = 0) : Pairs st v := by
  refine ⟨fun u v' hu hv' => ?_, h.edge, h.pairVu_le, h.pairUv_zero⟩
  rw [h.inverse u v' hu hv']
  refine and_congr_left fun hpair => ⟨fun _ => ?_, fun _ => by omega⟩
  rintro rfl
  omega

/-- Match `u` with `v`. -/
def MatchState.pair (st : MatchState) (u v : ℕ) : MatchState :=
  { st with pairVu := update st.pairVu v u, pairUv := update st.pairUv u v }

/-- When `u` takes `v`, which is no vertex's partner, then the previous partner of `u` is none's. -/
theorem Pairs.pair (h : Pairs st v) (hu : 1 ≤ u) (hule : u ≤ st.uSize) (hv : 1 ≤ v)
    (hedge : v ∈ st.neighbours u) :
    Pairs (st.pair u v) (st.pairUv u) := by
  have hfresh : ∀ u', 1 ≤ u' → st.pairUv u' ≠ v :=
    fun u' hu' heq => ((h.inverse u' v hu' hv).mp heq).1 rfl
  refine ⟨fun u' v' hu' hv' => ?_, fun u' hu' => ?_, fun v' => ?_, ?_⟩
  · unfold MatchState.pair
    dsimp only
    by_cases huu : u' = u <;> by_cases hvv : v' = v
    · subst huu hvv
      rw [update_self, update_self]
      exact ⟨fun _ => ⟨fun heq => hfresh u' hu heq.symm, rfl⟩, fun _ => rfl⟩
    · -- The previous partner of `u`, if it has one, still has `u` in `pair_vu`.
      subst huu
      rw [update_self, update_of_ne hvv]
      refine ⟨fun heq => absurd heq.symm hvv, ?_⟩
      rintro ⟨hne, hpair⟩
      exact absurd ((h.inverse u' v' hu hv').mpr ⟨hvv, hpair⟩).symm hne
    · subst hvv
      rw [update_of_ne huu, update_self]
      exact ⟨fun heq => absurd heq (hfresh u' hu'), fun hpair => absurd hpair.2.symm huu⟩
    · rw [update_of_ne huu, update_of_ne hvv, h.inverse u' v' hu' hv']
      refine and_congr_left fun hpair => ⟨fun _ => ?_, fun _ => hvv⟩
      rintro rfl
      exact huu (hpair.symm.trans ((h.inverse u _ hu hv').mp rfl).2)
  · show update st.pairUv u v u' ≠ 0 → update st.pairUv u v u' ∈ st.neighbours u'
    rw [update_apply]
    split_ifs with huu
    · exact fun _ => huu ▸ hedge
    · exact h.edge u' hu'
  · show update st.pairVu v u v' ≤ st.uSize
    rw [update_apply]
    split_ifs
    · exact hule
    · exact h.pairVu_le v'
  · exact (update_of_ne (ne_of_lt hu) _ _).trans h.pairUv_zero

/-! ## Searches that fail -/

/-- The graph and the pairs are the same. -/
structure SamePairs (st st' : MatchState) : Prop where
  uSize : st'.uSize = st.uSize
  vSize : st'.vSize = st.vSize
  adjacency : st'.adjacency = st.adjacency
  matching : st'.matching = st.matching
  pairUv : st'.pairUv = st.pairUv
  pairVu : st'.pairVu = st.pairVu

/-- Vertices at distance `k` and more are removed from the layers, each with those of the next layer
that can be reached from it. -/
structure Removed (k : ℕ) (st st' : MatchState) : Prop extends SamePairs st st' where
  distance : ∀ x, st'.distance x = st.distance x ∨
    (st'.distance x = HK_INFINITY ∧ x ≠ 0 ∧ k ≤ st.distance x)
  next : ∀ y, st.distance y ≠ HK_INFINITY → st'.distance y = HK_INFINITY →
    ∀ v ∈ st.neighbours y, st.distance (st.pairVu v) = st.distance y + 1 →
    st'.distance (st.pairVu v) = HK_INFINITY

/-- The neighbours stay. -/
theorem SamePairs.neighbours (h : SamePairs st st') (u : ℕ) :
    st'.neighbours u = st.neighbours u := by
  unfold MatchState.neighbours
  rw [h.adjacency]

/-- Pairs stay along two steps. -/
theorem SamePairs.trans (h : SamePairs st st') (h' : SamePairs st' st'') : SamePairs st st'' :=
  ⟨h'.uSize.trans h.uSize, h'.vSize.trans h.vSize, h'.adjacency.trans h.adjacency,
    h'.matching.trans h.matching, h'.pairUv.trans h.pairUv,
    h'.pairVu.trans h.pairVu⟩

/-- Pairs stay pairs. -/
theorem SamePairs.pairs (h : SamePairs st st') {w : ℕ} (hpairs : Pairs st w) : Pairs st' w := by
  refine ⟨?_, fun u hu => ?_, ?_, ?_⟩
  · rw [h.pairUv, h.pairVu]
    exact hpairs.inverse
  · rw [h.pairUv, h.neighbours]
    exact hpairs.edge u hu
  · rw [h.pairVu, h.uSize]
    exact hpairs.pairVu_le
  · rw [h.pairUv]
    exact hpairs.pairUv_zero

/-- Nothing is removed. -/
theorem Removed.refl (k : ℕ) (st : MatchState) : Removed k st st :=
  { uSize := rfl, vSize := rfl, adjacency := rfl, matching := rfl, pairUv := rfl, pairVu := rfl,
    distance := fun _ => .inl rfl, next := fun _ hne heq => absurd heq hne }

/-- A vertex that is removed stays so. -/
theorem Removed.infinite (h : Removed k st st') {x : ℕ} (hx : st.distance x = HK_INFINITY) :
    st'.distance x = HK_INFINITY := by
  rcases h.distance x with heq | ⟨heq, _⟩
  · rw [heq, hx]
  · exact heq

/-- Removals one after the other. -/
theorem Removed.trans (h : Removed k st st') (h' : Removed k st' st'') : Removed k st st'' := by
  refine { h.toSamePairs.trans h'.toSamePairs with
    distance := fun x => ?_
    next := fun y hne heq v hv hdist => ?_ }
  · rcases h.distance x with hx | ⟨hx, hpos, hk⟩
    · rw [← hx]
      exact h'.distance x
    · exact .inr ⟨h'.infinite hx, hpos, hk⟩
  · by_cases hy : st'.distance y = HK_INFINITY
    · exact h'.infinite (h.next y hne hy v hv hdist)
    · have hsame : st'.distance y = st.distance y := (h.distance y).resolve_right fun hr => hy hr.1
      rcases h.distance (st.pairVu v) with hv' | ⟨hv', _⟩
      · have := h'.next y hy heq v (by rwa [h.neighbours]) (by rw [h.pairVu, hv', hsame, hdist])
        rwa [h.pairVu] at this
      · exact h'.infinite hv'

theorem Removed.mono {k' : ℕ} (h : Removed k st st') (hk : k' ≤ k) : Removed k' st st' :=
  { h with distance := fun x => (h.distance x).imp_right fun hr => ⟨hr.1, hr.2.1, hk.trans hr.2.2⟩ }

/-! ## Searches that succeed -/

/-- The vertex `u` has a partner, its previous one is none's, and the vertices at smaller distances
have kept theirs. -/
structure Augmented (u : ℕ) (st st' : MatchState) : Prop where
  uSize : st'.uSize = st.uSize
  vSize : st'.vSize = st.vSize
  adjacency : st'.adjacency = st.adjacency
  matching : st'.matching = st.matching
  /-- The previous partner, when there is one, or any unmatched vertex when `u` is 0. -/
  pairs : ∀ v, 1 ≤ v → st.pairVu v = u → Pairs st' v
  pairs_of_unmatched : st.pairUv u = 0 → Pairs st' 0
  matched : ∀ x, 1 ≤ x → (st'.pairUv x ≠ 0 ↔ x = u ∨ st.pairUv x ≠ 0)
  kept : ∀ x, 1 ≤ x → st.distance x < st.distance u → st'.pairUv x = st.pairUv x
  distance : ∀ x, st'.distance x = st.distance x ∨ st'.distance x = HK_INFINITY

/-- What a search from `u` comes to. -/
def DepthResult (u : ℕ) (st : MatchState) : Bool × MatchState → Prop
  | (true, st') => Augmented u st st'
  | (false, st') => Removed (st.distance u) st st' ∧ st'.distance u = HK_INFINITY

/-- The search of the next layer finds a partner for the previous partner of `v`, so `u` can take
`v`. -/
theorem Augmented.pair (hpairs : Pairs st 0) (hu : 1 ≤ u) (hule : u ≤ st.uSize) (hv : 1 ≤ v)
    (hedge : v ∈ st.neighbours u) (hdist : st.distance (st.pairVu v) = st.distance u + 1)
    (h : Augmented (st.pairVu v) st st') : Augmented u st (st'.pair u v) := by
  have hkept : st'.pairUv u = st.pairUv u := h.kept u hu (by omega)
  have hedge' : v ∈ st'.neighbours u := by
    unfold MatchState.neighbours at hedge ⊢
    rwa [h.adjacency]
  have hpairs' := (h.pairs v hv rfl).pair hu (by rwa [h.uSize]) hv hedge'
  rw [hkept] at hpairs'
  refine ⟨h.uSize, h.vSize, h.adjacency, h.matching, fun w hw hpair => ?_, fun hfree =>
    hfree ▸ hpairs', fun x hx => ?_, fun x hx hless => ?_,
    h.distance⟩
  · rwa [(hpairs.inverse u w hu hw).mpr ⟨by omega, hpair⟩] at hpairs'
  · show update st'.pairUv u v x ≠ 0 ↔ _
    by_cases hxu : x = u
    · rw [hxu, update_self]
      exact ⟨fun _ => .inl rfl, fun _ => by omega⟩
    · rw [update_of_ne hxu, h.matched x hx]
      -- The vertex from which the search started was matched before, or is 0.
      have hstart : x = st.pairVu v → st.pairUv x ≠ 0 := by
        intro heq
        rw [(hpairs.inverse x v hx hv).mpr ⟨by omega, heq.symm⟩]
        omega
      rw [or_iff_right hxu, or_iff_right_of_imp hstart]
  · have hxu : x ≠ u := by
      rintro rfl
      exact lt_irrefl _ hless
    exact (update_of_ne hxu _ _).trans (h.kept x hx (by omega))

/-- After vertices were removed, a search comes to the same as before. -/
theorem Augmented.of_removed (hremoved : Removed k st st') (hk : st.distance u < k)
    (h : Augmented u st' st'') :
    Augmented u st st'' := by
  have hu : st'.distance u = st.distance u := (hremoved.distance u).resolve_right fun hr => by omega
  refine ⟨h.uSize.trans hremoved.uSize, h.vSize.trans hremoved.vSize,
    h.adjacency.trans hremoved.adjacency, h.matching.trans hremoved.matching, ?_, ?_, ?_,
    fun x hx hless => ?_, fun x => ?_⟩
  · rw [← hremoved.pairVu]
    exact h.pairs
  · rw [← hremoved.pairUv]
    exact h.pairs_of_unmatched
  · rw [← hremoved.pairUv]
    exact h.matched
  · have hx' : st'.distance x = st.distance x := (hremoved.distance x).resolve_right fun hr => by
      omega
    rw [h.kept x hx (by omega), hremoved.pairUv]
  · rcases h.distance x with heq | heq
    · rw [heq]
      exact (hremoved.distance x).imp_right And.left
    · exact .inr heq

/-! ## The search -/

/-- What the searches need of a state. -/
structure Ready (st : MatchState) : Prop where
  pairs : Pairs st 0
  adjacency : AdjacencyOk st
  distance_le : ∀ x, x ≤ st.uSize → st.distance x ≤ HK_INFINITY

/-- Only sizes and edges matter. -/
theorem AdjacencyOk.congr (h : AdjacencyOk st) (huSize : st'.uSize = st.uSize)
    (hvSize : st'.vSize = st.vSize) (hadj : st'.adjacency = st.adjacency) :
    AdjacencyOk st' := by
  unfold AdjacencyOk MatchState.neighbours at *
  rw [huSize, hvSize, hadj]
  exact h

theorem Ready.removed (h : Ready st) (hremoved : Removed k st st') : Ready st' := by
  refine ⟨hremoved.pairs h.pairs,
    h.adjacency.congr hremoved.uSize hremoved.vSize hremoved.adjacency, fun x hx => ?_⟩
  rcases hremoved.distance x with heq | ⟨heq, _⟩
  · rw [heq]
    exact h.distance_le x (hremoved.uSize ▸ hx)
  · exact le_of_eq heq

/-- The loop over the neighbours `vs` of `u` that are left, when those before have been searched in
vain. -/
theorem depthLoop_spec {search : MatchState → ℕ → Option (Bool × MatchState)} (hu : 1 ≤ u)
    (hule : u ≤ st₀.uSize) (hfinite : st₀.distance u ≠ HK_INFINITY)
    (hsearch : ∀ st x, Ready st → x ≤ st.uSize → st.distance x = st₀.distance u + 1 →
      ∃ r, search st x = some r ∧ DepthResult x st r)
    (hready : Ready st₀) (hremoved : Removed (st₀.distance u + 1) st₀ st) {vs : List ℕ}
    (hvs : ∀ v ∈ vs, v ∈ st₀.neighbours u)
    (hdone : ∀ v ∈ st₀.neighbours u, v ∉ vs → st₀.distance (st₀.pairVu v) = st₀.distance u + 1 →
      st.distance (st₀.pairVu v) = HK_INFINITY) :
    ∃ r, depthLoop search u (st₀.distance u + 1) vs st = some r ∧ DepthResult u st₀ r := by
  induction vs generalizing st with
  | nil =>
    refine ⟨_, rfl, { hremoved.toSamePairs with
      distance := fun x => ?_
      next := fun y hne heq v hv hdist => ?_ }, update_self _ _ _⟩
    · dsimp only
      by_cases hxu : x = u
      · subst hxu
        rw [update_self]
        exact .inr ⟨rfl, by omega, le_rfl⟩
      · rw [update_of_ne hxu]
        exact (hremoved.mono (Nat.le_succ _)).distance x
    · dsimp only at heq ⊢
      by_cases hpair : st₀.pairVu v = u
      · rw [hpair, update_self]
      rw [update_of_ne hpair]
      by_cases hyu : y = u
      · subst hyu
        exact hdone v hv List.not_mem_nil hdist
      · rw [update_of_ne hyu] at heq
        exact hremoved.next y hne heq v hv hdist
  | cons v vs ih =>
    obtain ⟨hmem, hvs⟩ := List.forall_mem_cons.mp hvs
    have hu' : st.distance u = st₀.distance u := (hremoved.distance u).resolve_right fun hr => by
      omega
    have hpairv : st.pairVu v = st₀.pairVu v := by rw [hremoved.pairVu]
    rw [depthLoop]
    by_cases hnext : st.distance (st.pairVu v) = st₀.distance u + 1
    · have hready' := hready.removed hremoved
      obtain ⟨⟨b, st'⟩, hr, hresult⟩ :=
        hsearch st (st.pairVu v) hready' (hready'.pairs.pairVu_le v) hnext
      rw [if_pos hnext, hr]
      cases b with
      | true =>
        refine ⟨_, rfl, Augmented.of_removed hremoved (Nat.lt_succ_self _) ?_⟩
        exact Augmented.pair hready'.pairs hu (by rwa [hremoved.uSize])
          (hready.adjacency u hu hule v hmem).1
          (by rwa [hremoved.neighbours]) (by omega) hresult
      | false =>
        have hboth := hremoved.trans (hnext ▸ hresult.1)
        refine ih hboth hvs fun w hw hwvs hdist => ?_
        by_cases hwv : w = v
        · subst hwv
          rw [← hpairv]
          exact hresult.2
        · exact hresult.1.infinite (hdone w hw (List.not_mem_cons_of_ne_of_not_mem hwv hwvs) hdist)
    · rw [if_neg hnext]
      refine ih hremoved hvs fun w hw hwvs hdist => ?_
      by_cases hwv : w = v
      · subst hwv
        -- The vertex had the right distance and does not any more.
        rw [hpairv] at hnext
        rcases hremoved.distance (st₀.pairVu w) with heq | ⟨heq, _⟩
        · exact absurd (heq.trans hdist) hnext
        · exact heq
      · exact hdone w hw (List.not_mem_cons_of_ne_of_not_mem hwv hwvs) hdist

/-- The search has a result when its recursion may be as deep as there are distances left. -/
theorem hkDepthSearch_spec {n : ℕ} (h : Ready st) (hu : u ≤ st.uSize)
    (hn : HK_INFINITY < n + st.distance u) :
    ∃ r, hkDepthSearch n st u = some r ∧ DepthResult u st r := by
  induction n generalizing st u with
  | zero =>
    have := h.distance_le u hu
    omega
  | succ n ih =>
    rw [hkDepthSearch]
    by_cases hzero : u = 0
    · subst hzero
      exact ⟨_, rfl, ⟨rfl, rfl, rfl, rfl, fun v _ hv => h.pairs.unmatched hv, fun _ => h.pairs,
        fun x hx => ⟨fun hne => .inr hne, fun hor => hor.resolve_left (by omega)⟩, fun _ _ _ => rfl,
          fun _ => .inl rfl⟩⟩
    · rw [if_neg hzero]
      split_ifs with hinf
      · exact ⟨_, rfl, Removed.refl _ st, hinf⟩
      · exact depthLoop_spec (Nat.pos_of_ne_zero hzero) hu hinf
          (fun st' x hready hx hdist => ih hready hx (by omega)) h
          (Removed.refl _ st) (fun _ hv => hv) fun v hv hnot => absurd hv hnot

/-! ## A phase -/

/-- The matched vertices of the left side. -/
def matchedU (st : MatchState) : Finset ℕ := (Finset.Icc 1 st.uSize).filter fun u => st.pairUv u ≠ 0

/-- The matched vertices. -/
theorem mem_matchedU : u ∈ matchedU st ↔ (1 ≤ u ∧ u ≤ st.uSize) ∧ st.pairUv u ≠ 0 := by
  rw [matchedU, Finset.mem_filter, Finset.mem_Icc]

/-- There are at most `uSize`. -/
theorem card_matchedU_le (st : MatchState) : (matchedU st).card ≤ st.uSize := by
  refine (Finset.card_filter_le _ _).trans ?_
  rw [Nat.card_Icc, Nat.add_sub_cancel]

/-- What holds between two phases, and within them. -/
structure MatchOk (st : MatchState) : Prop where
  pairs : Pairs st 0
  adjacency : AdjacencyOk st
  matching_eq : st.matching = (matchedU st).card

/-- A search from an unmatched vertex that succeeds makes the matching larger by one. -/
theorem Augmented.card_matchedU (h : Augmented u st st') (hu : 1 ≤ u) (hule : u ≤ st.uSize)
    (hfree : st.pairUv u = 0) :
    (matchedU st').card = (matchedU st).card + 1 := by
  have hinsert : matchedU st' = insert u (matchedU st) := by
    ext x
    rw [Finset.mem_insert, mem_matchedU, mem_matchedU, h.uSize]
    constructor
    · rintro ⟨hx, hne⟩
      exact ((h.matched x hx.1).mp hne).imp_right fun hne => ⟨hx, hne⟩
    · rintro (rfl | ⟨hx, hne⟩)
      · exact ⟨⟨hu, hule⟩, (h.matched x hu).mpr (.inl rfl)⟩
      · exact ⟨hx, (h.matched x hx.1).mpr (.inr hne)⟩
  rw [hinsert, Finset.card_insert_of_notMem fun hmem => (mem_matchedU.mp hmem).2 hfree]

/-- What holds in a phase that started with `st₀`, before vertex `k`. -/
structure PhaseInv (st₀ : MatchState) (k : ℕ) (st : MatchState) : Prop where
  ready : Ready st
  uSize : st.uSize = st₀.uSize
  vSize : st.vSize = st₀.vSize
  adjacency : st.adjacency = st₀.adjacency
  matching_eq : st.matching = (matchedU st).card
  le : st₀.matching ≤ st.matching
  /-- Without success, every unmatched vertex has been removed. -/
  failed : st.matching = st₀.matching → Removed 0 st₀ st ∧ ∀ u, 1 ≤ u → u < k → st₀.pairUv u = 0 →
    st.distance u = HK_INFINITY

/-- One vertex of a phase whose search fails. -/
theorem PhaseInv.removed (h : PhaseInv st₀ k st) (hresult : DepthResult k st (false, st')) :
    PhaseInv st₀ (k + 1) st' := by
  obtain ⟨hremoved, hinf⟩ := hresult
  refine ⟨h.ready.removed hremoved, hremoved.uSize.trans h.uSize, hremoved.vSize.trans h.vSize,
    hremoved.adjacency.trans h.adjacency, ?_,
    by rw [hremoved.matching]; exact h.le, fun heq => ?_⟩
  · rw [hremoved.matching, h.matching_eq, matchedU, matchedU, hremoved.uSize, hremoved.pairUv]
  · rw [hremoved.matching] at heq
    obtain ⟨hbefore, hall⟩ := h.failed heq
    refine ⟨hbefore.trans (hremoved.mono (Nat.zero_le _)), fun u hu hlt hfree => ?_⟩
    rcases Nat.lt_or_eq_of_le (Nat.le_of_lt_succ hlt) with hlt | rfl
    · exact hremoved.infinite (hall u hu hlt hfree)
    · exact hinf

/-- One vertex of a phase whose search succeeds. -/
theorem PhaseInv.augmented (h : PhaseInv st₀ k st) (hk : 1 ≤ k) (hkle : k ≤ st.uSize)
    (hfree : st.pairUv k = 0) (haug : Augmented k st st') :
    PhaseInv st₀ (k + 1) { st' with matching := st'.matching + 1 } := by
  have hpairs := haug.pairs_of_unmatched hfree
  have hle := h.le
  have hmatching := haug.matching
  refine ⟨⟨⟨hpairs.inverse, hpairs.edge, hpairs.pairVu_le, hpairs.pairUv_zero⟩,
    h.ready.adjacency.congr haug.uSize haug.vSize haug.adjacency, fun x hx => ?_⟩,
    haug.uSize.trans h.uSize, haug.vSize.trans h.vSize, haug.adjacency.trans h.adjacency, ?_, ?_,
    fun heq => ?_⟩
  · rcases haug.distance x with heq | heq
    · exact (le_of_eq heq).trans (h.ready.distance_le x (haug.uSize ▸ hx))
    · exact le_of_eq heq
  · show st'.matching + 1 = (matchedU st').card
    rw [haug.card_matchedU hk hkle hfree, hmatching, h.matching_eq]
  · show st₀.matching ≤ st'.matching + 1
    omega
  · dsimp only at heq
    omega

/-- The loop over the vertices. -/
theorem phaseLoop_spec (st₀ : MatchState) {n : ℕ} (hk : 1 ≤ k) (hkn : k + n = st₀.uSize + 1)
    (h : PhaseInv st₀ k st) :
    ∃ st', phaseLoop (List.range' k n) st = some st' ∧ PhaseInv st₀ (st₀.uSize + 1) st' := by
  induction n generalizing k st with
  | zero =>
    obtain rfl : k = st₀.uSize + 1 := by omega
    exact ⟨st, rfl, h⟩
  | succ n ih =>
    have hkle : k ≤ st.uSize := by
      rw [h.uSize]
      omega
    rw [List.range'_succ, phaseLoop]
    by_cases hfree : st.pairUv k = 0
    · obtain ⟨⟨b, st'⟩, hr, hresult⟩ :=
        hkDepthSearch_spec h.ready hkle (n := HK_INFINITY + 1) (by omega)
      rw [if_pos hfree, hr]
      cases b with
      | true => exact ih (by omega) (by omega) (h.augmented hk hkle hfree hresult)
      | false => exact ih (by omega) (by omega) (h.removed hresult)
    · rw [if_neg hfree]
      refine ih (by omega) (by omega) { h with failed := fun heq => ?_ }
      obtain ⟨hremoved, hall⟩ := h.failed heq
      refine ⟨hremoved, fun u hu hlt hfree₀ => ?_⟩
      rcases lt_or_eq_of_le (Nat.le_of_lt_succ hlt) with hlt | rfl
      · exact hall u hu hlt hfree₀
      · rw [hremoved.pairUv] at hfree
        exact absurd hfree₀ hfree

/-- When the breadth-first search has found an augmenting path, a phase makes the matching larger:
otherwise it would have removed all layers. -/
theorem phase_augments (hlayered : Layered st₀) (hfound : st₀.distance 0 ≠ HK_INFINITY)
    (h : PhaseInv st₀ (st₀.uSize + 1) st) :
    st₀.matching < st.matching := by
  refine lt_of_le_of_ne h.le fun heq => ?_
  obtain ⟨hremoved, hall⟩ := h.failed heq.symm
  have hlayers : ∀ d x, x ≤ st₀.uSize → st₀.distance x = d → d ≠ HK_INFINITY →
      st.distance x = HK_INFINITY := by
    intro d
    induction d with
    | zero =>
      intro x hx hdist hne
      rcases hlayered.reached x hx (hdist ▸ hne) with ⟨hpos, hfree, _⟩ |
        ⟨_, _, _, _, _, _, _, hsucc⟩
      · exact hall x hpos (by omega) hfree
      · omega
    | succ d ih =>
      intro x hx hdist hne
      rcases hlayered.reached x hx (hdist ▸ hne) with ⟨_, _, hzero⟩ |
        ⟨u, v, _, hule, hv, rfl, hfinite, hsucc⟩
      · omega
      · have hud : st₀.distance u = d := by omega
        exact hremoved.next u hfinite (ih u hule hud (hud ▸ hfinite)) v hv hsucc
  rcases hremoved.distance 0 with hsame | ⟨_, hne, _⟩
  · exact hfound (hsame.symm.trans (hlayers _ 0 (Nat.zero_le _) rfl hfound))
  · exact hne rfl

/-! ## The maximum -/

/-- The edges of the graph. -/
def Edge (uSize : ℕ) (adjacency : ℕ → Option (List ℕ)) (u v : ℕ) : Prop :=
  (1 ≤ u ∧ u ≤ uSize) ∧ ∃ vs, adjacency u = some vs ∧ v ∈ vs

/-- The neighbours by the edge lists. -/
theorem mem_neighbours : v ∈ st.neighbours u ↔ ∃ vs, st.adjacency u = some vs ∧ v ∈ vs := by
  unfold MatchState.neighbours
  rw [List.mem_reverse]
  cases hadj : st.adjacency u with
  | none =>
    exact ⟨nofun, nofun⟩
  | some vs =>
    constructor
    · exact fun hv => ⟨vs, rfl, hv⟩
    · rintro ⟨_, heq, hv⟩
      cases heq
      exact hv

/-- The pairs of `pair_uv`. -/
def pairSet (st : MatchState) : Finset (ℕ × ℕ) := (matchedU st).image fun u => (u, st.pairUv u)

/-- The pairs of the matching. -/
theorem mem_pairSet {p : ℕ × ℕ} : p ∈ pairSet st ↔ p.1 ∈ matchedU st ∧ st.pairUv p.1 = p.2 := by
  unfold pairSet
  rw [Finset.mem_image]
  constructor
  · rintro ⟨u, hu, rfl⟩
    exact ⟨hu, rfl⟩
  · rintro ⟨hu, heq⟩
    exact ⟨p.1, hu, Prod.ext rfl heq⟩

/-- One pair for each matched vertex. -/
theorem card_pairSet (st : MatchState) : (pairSet st).card = (matchedU st).card :=
  Finset.card_image_of_injective _ fun _ _ heq => congrArg Prod.fst heq

/-- When the breadth-first search finds no augmenting path, no matching has more edges. -/
theorem maximum_of_layered (hlayered : Layered st) (hpairs : Pairs st 0) (hadj : AdjacencyOk st)
    (hnone : st.distance 0 = HK_INFINITY)
    {T : Finset (ℕ × ℕ)} (hT : Matching.IsMatching (Edge st.uSize st.adjacency) T) :
      T.card ≤ (matchedU st).card := by
  rw [← card_pairSet]
  refine hT.card_le_of_closed (Finset.Icc 1 st.uSize)
    ((Finset.Icc 1 st.uSize).filter fun u => st.distance u ≠ HK_INFINITY)
    (fun u v he => Finset.mem_Icc.mpr he.1) (fun u hu hnot => ?_) fun u hu v he => ?_
  · -- A vertex that is not reached is matched, since the search starts from the others.
    rw [Finset.mem_Icc] at hu
    have hmatched : st.pairUv u ≠ 0 := fun hfree =>
      hnot (Finset.mem_filter.mpr ⟨Finset.mem_Icc.mpr hu, hlayered.free u hu.1 hu.2 hfree⟩)
    exact ⟨st.pairUv u, mem_pairSet.mpr ⟨mem_matchedU.mpr ⟨hu, hmatched⟩, rfl⟩⟩
  · obtain ⟨⟨hpos, hle⟩, hmem⟩ := he
    have hv := mem_neighbours.mpr hmem
    have hreached := hlayered.closed hnone u hle (Finset.mem_filter.mp hu).2 v hv
    have hpartner : 1 ≤ st.pairVu v := by
      refine Nat.pos_of_ne_zero fun hzero => hreached ?_
      rw [hzero, hnone]
    have hvpos := (hadj u hpos hle v hv).1
    have hpair : st.pairUv (st.pairVu v) = v :=
      (hpairs.inverse _ v hpartner hvpos).mpr ⟨by omega, rfl⟩
    have hrange : 1 ≤ st.pairVu v ∧ st.pairVu v ≤ st.uSize := ⟨hpartner, hpairs.pairVu_le v⟩
    refine ⟨st.pairVu v, Finset.mem_filter.mpr ⟨Finset.mem_Icc.mpr hrange, hreached⟩,
      mem_pairSet.mpr ⟨mem_matchedU.mpr ⟨hrange, ?_⟩, hpair⟩⟩
    show st.pairUv (st.pairVu v) ≠ 0
    omega

/-- The loop ends, since every phase makes the matching larger, and it ends with a maximum. -/
theorem matchLoop_spec (queue : ℕ → ℕ) {n : ℕ} (hsize : st.uSize < SHRT_MAX) (h : MatchOk st)
    (hn : st.uSize < n + st.matching) :
    ∃ st', matchLoop queue n st = some st' ∧ MatchOk st' ∧ st'.uSize = st.uSize ∧
      st'.vSize = st.vSize ∧ st'.adjacency = st.adjacency ∧
      Layered st' ∧ st'.distance 0 = HK_INFINITY := by
  induction n generalizing st with
  | zero =>
    have := card_matchedU_le st
    rw [h.matching_eq] at hn
    omega
  | succ n ih =>
    obtain ⟨distance, hsearch, hlayered⟩ := hkBreadthSearch_spec hsize h.pairs.pairVu_le queue
    have hpairs : Pairs { st with distance := distance } 0 :=
      ⟨h.pairs.inverse, h.pairs.edge, h.pairs.pairVu_le, h.pairs.pairUv_zero⟩
    rw [matchLoop, hsearch]
    by_cases hnone : distance 0 = HK_INFINITY
    · rw [decide_eq_false (not_not.mpr hnone)]
      exact ⟨_, rfl, ⟨hpairs, h.adjacency, h.matching_eq⟩, rfl, rfl, rfl, hlayered, hnone⟩
    · rw [decide_eq_true hnone]
      dsimp only
      obtain ⟨st', hphase, hinv⟩ :=
        phaseLoop_spec { st with distance := distance } le_rfl (add_comm _ _)
        ⟨⟨hpairs, h.adjacency, hlayered.distance_le⟩, rfl, rfl, rfl, h.matching_eq, le_rfl,
          fun _ => ⟨Removed.refl _ _, fun u hu hlt => absurd hlt (not_lt.mpr hu)⟩⟩
      have hmore := phase_augments hlayered hnone hinv
      dsimp only at hmore
      have huSize : st'.uSize = st.uSize := hinv.uSize
      obtain ⟨st'', hloop, hok, hu'', hv'', hadj'', hrest⟩ :=
        ih (huSize.symm ▸ hsize) ⟨hinv.ready.pairs, hinv.ready.adjacency, hinv.matching_eq⟩
          (by omega)
      refine ⟨st'', ?_, hok, hu''.trans hinv.uSize, hv''.trans hinv.vSize,
        hadj''.trans hinv.adjacency, hrest⟩
      rw [hphase]
      exact hloop

end

/-- `BipartiteMatch` returns, without a fault in the queue, pairs that are mutually inverse and a
maximum matching. -/
theorem bipartiteMatch_maximum (uSize vSize : ℕ) (huSize : uSize < SHRT_MAX)
    (hvSize : vSize < SHRT_MAX) (adjacency : ℕ → Option (List ℕ))
    (hadj : ∀ u v, Edge uSize adjacency u v → 1 ≤ v ∧ v ≤ vSize) (distance queue : ℕ → ℕ) :
    ∃ st, bipartiteMatch uSize vSize adjacency distance queue = .ok st ∧
      (∀ u, 1 ≤ u → u ≤ uSize → st.pairUv u ≠ 0 →
        Edge uSize adjacency u (st.pairUv u) ∧ st.pairVu (st.pairUv u) = u) ∧
      (∀ v, 1 ≤ v → v ≤ vSize → st.pairVu v ≠ 0 →
        Edge uSize adjacency (st.pairVu v) v ∧ st.pairUv (st.pairVu v) = v) ∧
      st.matching = ((Finset.Icc 1 uSize).filter fun u => st.pairUv u ≠ 0).card ∧
      ∀ T : Finset (ℕ × ℕ), Matching.IsMatching (Edge uSize adjacency) T →
        T.card ≤ st.matching := by
  -- At the start, nothing is matched.
  have hstart : MatchOk ⟨uSize, vSize, adjacency, 0, fun _ => 0, fun _ => 0, distance⟩ := by
    refine ⟨⟨fun u v hu hv => ?_, fun u _ hne => absurd rfl hne, fun _ => Nat.zero_le _, rfl⟩,
      fun u hu hule v hv => ?_, ?_⟩
    · show 0 = v ↔ v ≠ 0 ∧ 0 = u
      omega
    · exact hadj u v ⟨⟨hu, hule⟩, mem_neighbours.mp hv⟩
    · refine (Finset.card_eq_zero.mpr ?_).symm
      exact Finset.filter_false_of_mem fun _ _ hne => hne rfl
  obtain ⟨st, hloop, hok, hu, hv, hadjacency, hlayered, hnone⟩ :=
    matchLoop_spec queue huSize hstart (Nat.lt_succ_self uSize)
  subst hu hv hadjacency
  have hedge : ∀ u, 1 ≤ u → u ≤ st.uSize → st.pairUv u ≠ 0 →
      Edge st.uSize st.adjacency u (st.pairUv u) := fun u hpos hle hne =>
    ⟨⟨hpos, hle⟩, mem_neighbours.mp (hok.pairs.edge u hpos hne)⟩
  refine ⟨st, ?_, fun u hpos hle hne => ?_, fun v hpos hle hne => ?_, hok.matching_eq,
    fun T hT => ?_⟩
  · unfold bipartiteMatch
    rw [if_neg (by omega), Int.toNat_natCast, Int.toNat_natCast, hloop]
  · exact ⟨hedge u hpos hle hne, ((hok.pairs.inverse u _ hpos (Nat.pos_of_ne_zero hne)).mp rfl).2⟩
  · have hpair : st.pairUv (st.pairVu v) = v :=
      (hok.pairs.inverse _ v (Nat.pos_of_ne_zero hne) hpos).mpr ⟨by omega, rfl⟩
    have := hedge (st.pairVu v) (Nat.pos_of_ne_zero hne) (hok.pairs.pairVu_le v) (by omega)
    rw [hpair] at this
    exact ⟨this, hpair⟩
  · rw [hok.matching_eq]
    exact maximum_of_layered hlayered hok.pairs hok.adjacency hnone hT

/-- Two vertices on the left, both with the same neighbour on the right and one with another one. -/
def twoEdges : ℕ → Option (List ℕ)
  | 1 => some [2, 1]
  | 2 => some [1]
  | _ => none

theorem bipartiteMatch_maximum_two : ∃ st, bipartiteMatch 2 2 twoEdges (fun _ => 0)
    (fun _ => 0) = .ok st ∧ st.matching = 2 ∧
    ∀ T : Finset (ℕ × ℕ), Matching.IsMatching (Edge 2 twoEdges) T → T.card ≤ 2 := by
  obtain ⟨st, hst, _, _, _, hmax⟩ := bipartiteMatch_maximum 2 2 (by decide) (by decide) twoEdges (by
    rintro u v ⟨⟨hpos, hle⟩, vs, heq, hmem⟩
    obtain rfl | rfl : u = 1 ∨ u = 2 := by omega
    · cases heq
      revert v
      decide
    · cases heq
      revert v
      decide) (fun _ => 0) (fun _ => 0)
  have hmatching : (bipartiteMatch 2 2 twoEdges (fun _ => 0) (fun _ => 0)).map MatchState.matching =
      .ok 2 := by decide +kernel
  have htwo : st.matching = 2 := by
    rw [show bipartiteMatch 2 2 twoEdges (fun _ => 0) (fun _ => 0) = .ok st from hst] at hmatching
    exact Except.ok.inj hmatching
  exact ⟨st, hst, htwo, fun T hT => htwo ▸ hmax T hT⟩

end PgAutoIndex.Lib
