import PgAutoIndex.Matching

/-!
# Bipartite matching: the breadth-first search

Model of `src/backend/lib/bipartite_match.c`, the algorithm of Hopcroft and Karp. The two sides of
the graph are the numbers `1..u_size` and `1..v_size`, and 0 stands for no partner. It is also a
vertex of its own for the searches: the partner of every unmatched vertex of the right side.

A search that would write past the end of the queue, a distance that is no `short`, and a loop that
does not end within the rounds it is given, are the result `none`. The rest of this module shows
that the breadth-first search has a result: its queue holds no vertex twice, so that it has at most
`u_size + 1` entries, and the distance of an entry is at most its index. `Layered` says what the
distances are.
-/

namespace PgAutoIndex.Lib

open Function

/-! ## The model -/

/-- `SHRT_MAX`. -/
def SHRT_MAX : ℕ := 32767

/-- `HK_INFINITY`. -/
def HK_INFINITY : ℕ := SHRT_MAX

/-- The parts of `BipartiteMatchState` that outlive a search. In `adjacency`, a null pointer is
`none` and `[k, v1, .., vk]` is the list of its `k` entries. -/
structure MatchState where
  uSize : ℕ
  vSize : ℕ
  adjacency : ℕ → Option (List ℕ)
  matching : ℕ
  pairUv : ℕ → ℕ
  pairVu : ℕ → ℕ
  distance : ℕ → ℕ

/-- The entries of `adjacency[u]` in the order in which the loops visit them, from the last to the
first. -/
def MatchState.neighbours (st : MatchState) (u : ℕ) : List ℕ := ((st.adjacency u).getD []).reverse

/-- The distances and the queue of `hk_breadth_search`. -/
structure Bfs where
  distance : ℕ → ℕ
  queue : ℕ → ℕ
  qhead : ℕ

/-- Give a vertex its distance and put it into the queue. The queue has `u_size + 2` slots, and a
distance is a `short`. -/
def enqueue (uSize : ℕ) (s : Bfs) (u d : ℕ) : Option Bfs :=
  if s.qhead < uSize + 2 ∧ d ≤ SHRT_MAX then
    some ⟨Function.update s.distance u d, Function.update s.queue s.qhead u, s.qhead + 1⟩
  else none

/-- The first loop of `hk_breadth_search`, over the vertices of the left side. -/
def initLoop (st : MatchState) : List ℕ → Bfs → Option Bfs
  | [], s => some s
  | u :: us, s =>
    if st.pairUv u = 0 then
      match enqueue st.uSize s u 0 with
      | none => none
      | some s => initLoop st us s
    else initLoop st us { s with distance := Function.update s.distance u HK_INFINITY }

/-- The inner loop of `hk_breadth_search`, over the neighbours of `u`. -/
def visitLoop (st : MatchState) (u : ℕ) : List ℕ → Bfs → Option Bfs
  | [], s => some s
  | v :: vs, s =>
    if s.distance (st.pairVu v) = HK_INFINITY then
      match enqueue st.uSize s (st.pairVu v) (1 + s.distance u) with
      | none => none
      | some s => visitLoop st u vs s
    else visitLoop st u vs s

/-- The second loop of `hk_breadth_search`; the first argument bounds its rounds. -/
def queueLoop (st : MatchState) : ℕ → ℕ → Bfs → Option Bfs
  | 0, _, _ => none
  | n + 1, qtail, s =>
    if qtail < s.qhead then
      let u := s.queue qtail
      if s.distance u < s.distance 0 then
        match visitLoop st u (st.neighbours u) s with
        | none => none
        | some s => queueLoop st n (qtail + 1) s
      else queueLoop st n (qtail + 1) s
    else some s

/-- `hk_breadth_search`. The contents of the queue's memory do not matter. -/
def hkBreadthSearch (st : MatchState) (queue : ℕ → ℕ) : Option (Bool × MatchState) :=
  match initLoop st (List.range' 1 st.uSize)
    ⟨Function.update st.distance 0 HK_INFINITY, queue, 0⟩ with
  | none => none
  | some s =>
    match queueLoop st (st.uSize + 2) 0 s with
    | none => none
    | some s => some (decide (s.distance 0 ≠ HK_INFINITY), { st with distance := s.distance })

/-- The loop of `hk_depth_search` over the neighbours of `u`; `search` is the search itself, for the
vertices at the next distance. -/
def depthLoop (search : MatchState → ℕ → Option (Bool × MatchState)) (u nextdist : ℕ) :
    List ℕ → MatchState → Option (Bool × MatchState)
  | [], st => some (false, { st with distance := Function.update st.distance u HK_INFINITY })
  | v :: vs, st =>
    if st.distance (st.pairVu v) = nextdist then
      match search st (st.pairVu v) with
      | none => none
      | some (true, st) =>
        some (true, { st with
          pairVu := Function.update st.pairVu v u
          pairUv := Function.update st.pairUv u v })
      | some (false, st) => depthLoop search u nextdist vs st
    else depthLoop search u nextdist vs st

/-- `hk_depth_search`; the first argument bounds the depth of its recursion. -/
def hkDepthSearch : ℕ → MatchState → ℕ → Option (Bool × MatchState)
  | 0, _, _ => none
  | n + 1, st, u =>
    if u = 0 then some (true, st)
    else if st.distance u = HK_INFINITY then some (false, st)
    else depthLoop (hkDepthSearch n) u (st.distance u + 1) (st.neighbours u) st

/-- The loop over the unmatched vertices in the body of `BipartiteMatch`'s loop. -/
def phaseLoop : List ℕ → MatchState → Option MatchState
  | [], st => some st
  | u :: us, st =>
    if st.pairUv u = 0 then
      match hkDepthSearch (HK_INFINITY + 1) st u with
      | none => none
      | some (true, st) => phaseLoop us { st with matching := st.matching + 1 }
      | some (false, st) => phaseLoop us st
    else phaseLoop us st

/-- The loop of `BipartiteMatch`; the first argument bounds its rounds. -/
def matchLoop (queue : ℕ → ℕ) : ℕ → MatchState → Option MatchState
  | 0, _ => none
  | n + 1, st =>
    match hkBreadthSearch st queue with
    | none => none
    | some (false, st) => some st
    | some (true, st) =>
      match phaseLoop (List.range' 1 st.uSize) st with
      | none => none
      | some st => matchLoop queue n st

/-- What can keep `BipartiteMatch` from returning. -/
inductive MatchError
  /-- invalid set size for BipartiteMatch -/
  | invalidSetSize
  /-- A write past the end of the queue, a distance that is no `short`, or a loop that does not end.
  -/
  | fault
  deriving DecidableEq

/-- `BipartiteMatch`, with the contents of the memory for the distances and the queue. -/
def bipartiteMatch (uSize vSize : ℤ) (adjacency : ℕ → Option (List ℕ)) (distance queue : ℕ → ℕ) :
    Except MatchError MatchState :=
  if uSize < 0 ∨ uSize ≥ SHRT_MAX ∨ vSize < 0 ∨ vSize ≥ SHRT_MAX then .error .invalidSetSize
  else
    match matchLoop queue (uSize.toNat + 1)
      ⟨uSize.toNat, vSize.toNat, adjacency, 0, fun _ => 0, fun _ => 0, distance⟩ with
    | none => .error .fault
    | some st => .ok st

/-! ## The queue -/

section
variable {st : MatchState} {s : Bfs}

/-- What the queue holds: the vertices with a distance, each once, and with a distance of at most
its index. -/
structure QueueOk (st : MatchState) (s : Bfs) : Prop where
  inj : ∀ i j, i < s.qhead → j < s.qhead → s.queue i = s.queue j → i = j
  vertex : ∀ j, j < s.qhead → s.queue j ≤ st.uSize
  mem_iff : ∀ x, x ≤ st.uSize → (s.distance x ≠ HK_INFINITY ↔ ∃ j, j < s.qhead ∧ s.queue j = x)
  distance_le : ∀ j, j < s.qhead → s.distance (s.queue j) ≤ j

section
variable {queue : ℕ → ℕ} {qhead x : ℕ}

/-- The entries after one is appended. -/
theorem update_lt_succ (queue : ℕ → ℕ) (x : ℕ) {j : ℕ} (hj : j < qhead + 1) :
    (j < qhead ∧ update queue qhead x j = queue j) ∨ (j = qhead ∧ update queue qhead x j = x) := by
  rcases lt_or_eq_of_le (Nat.le_of_lt_succ hj) with hj | rfl
  · exact .inl ⟨hj, update_of_ne (ne_of_lt hj) _ _⟩
  · exact .inr ⟨rfl, update_self _ _ _⟩

/-- With a new entry, the queue still holds no vertex twice. -/
theorem inj_update (hinj : ∀ i j, i < qhead → j < qhead → queue i = queue j → i = j)
    (hout : ∀ j, j < qhead → queue j ≠ x) (i j : ℕ) (hi : i < qhead + 1) (hj : j < qhead + 1)
    (heq : update queue qhead x i = update queue qhead x j) : i = j := by
  rcases update_lt_succ queue x hi with ⟨hi, hi'⟩ | ⟨rfl, hi'⟩ <;>
    rcases update_lt_succ queue x hj with ⟨hj, hj'⟩ | ⟨hj, hj'⟩ <;> rw [hi', hj'] at heq
  · exact hinj i j hi hj heq
  · exact absurd heq (hout i hi)
  · exact absurd heq.symm (hout j hj)
  · exact hj.symm

/-- There are no more entries than vertices. -/
theorem qhead_le_of_inj (hinj : ∀ i j, i < qhead → j < qhead → queue i = queue j → i = j)
    (hle : ∀ j, j < qhead → queue j ≤ st.uSize) : qhead ≤ st.uSize + 1 := by
  have hcard : (Finset.range qhead).card ≤ (Finset.range (st.uSize + 1)).card := by
    refine Finset.card_le_card_of_injOn queue (fun j hj => ?_) fun i hi j hj heq => ?_
    · exact Finset.mem_coe.mpr
        (Finset.mem_range.mpr (Nat.lt_succ_of_le (hle j (Finset.mem_range.mp hj))))
    · exact hinj i j (Finset.mem_range.mp hi) (Finset.mem_range.mp hj) heq
  rwa [Finset.card_range, Finset.card_range] at hcard

end

/-- A vertex without a distance can be put into the queue, with a distance that is at most its index
there. -/
theorem QueueOk.enqueue (h : QueueOk st s) (hsize : st.uSize < SHRT_MAX) {x d : ℕ}
    (hx : x ≤ st.uSize) (hnew : s.distance x = HK_INFINITY)
    (hd : d ≤ s.qhead) :
    ∃ s', Lib.enqueue st.uSize s x d = some s' ∧ QueueOk st s' ∧
      s'.distance = update s.distance x d ∧ d < HK_INFINITY ∧
      s'.queue = update s.queue s.qhead x ∧ s'.qhead = s.qhead + 1 := by
  have hout : ∀ j, j < s.qhead → s.queue j ≠ x :=
    fun j hj heq => (h.mem_iff x hx).mpr ⟨j, hj, heq⟩ hnew
  have hinj := inj_update h.inj hout
  have hvertex : ∀ j, j < s.qhead + 1 → update s.queue s.qhead x j ≤ st.uSize := by
    intro j hj
    rcases update_lt_succ s.queue x hj with ⟨hj, heq⟩ | ⟨-, heq⟩ <;> rw [heq]
    · exact h.vertex j hj
    · exact hx
  have hhead := qhead_le_of_inj hinj hvertex
  have hdlt : d < HK_INFINITY := by
    unfold HK_INFINITY
    omega
  refine ⟨_, if_pos ⟨by omega, le_of_lt hdlt⟩, ⟨hinj, hvertex, fun y hy => ?_, fun j hj => ?_⟩, rfl,
    hdlt, rfl, rfl⟩
  · by_cases hyx : y = x
    · subst hyx
      dsimp only
      rw [update_self]
      exact ⟨fun _ => ⟨s.qhead, Nat.lt_succ_self _, update_self _ _ _⟩, fun _ => ne_of_lt hdlt⟩
    · dsimp only
      rw [update_of_ne hyx, h.mem_iff y hy]
      constructor
      · rintro ⟨j, hj, heq⟩
        exact ⟨j, Nat.lt_succ_of_lt hj, (update_of_ne (ne_of_lt hj) _ _).trans heq⟩
      · rintro ⟨j, hj, heq⟩
        rcases update_lt_succ s.queue x hj with ⟨hj, hold⟩ | ⟨-, hnew⟩
        · exact ⟨j, hj, hold.symm.trans heq⟩
        · exact absurd (heq.symm.trans hnew) hyx
  · dsimp only at hj ⊢
    rcases update_lt_succ s.queue x hj with ⟨hj, heq⟩ | ⟨rfl, heq⟩
    · rw [heq, update_of_ne (hout j hj)]
      exact h.distance_le j hj
    · rw [heq, update_self]
      exact hd

/-! ## What the distances are -/

/-- Every vertex with a distance is unmatched and has distance 0, or is the partner of a neighbour
of a vertex at the distance before. -/
def Reached (st : MatchState) (distance : ℕ → ℕ) : Prop :=
  ∀ x, x ≤ st.uSize → distance x ≠ HK_INFINITY →
    (1 ≤ x ∧ st.pairUv x = 0 ∧ distance x = 0) ∨
    ∃ u v, 1 ≤ u ∧ u ≤ st.uSize ∧ v ∈ st.neighbours u ∧ st.pairVu v = x ∧ distance u ≠ HK_INFINITY ∧
      distance x = distance u + 1

/-- What holds in the second loop, before slot `qtail` of the queue is read. -/
structure Searched (st : MatchState) (qtail : ℕ) (s : Bfs) : Prop where
  queue : QueueOk st s
  reached : Reached st s.distance
  /-- Every unmatched vertex has a distance. -/
  free : ∀ u, 1 ≤ u → u ≤ st.uSize → st.pairUv u = 0 → s.distance u ≠ HK_INFINITY
  /-- While no augmenting path is found, the neighbours of all entries that were read have been
  visited. -/
  closed : s.distance 0 = HK_INFINITY → ∀ j, j < qtail →
    ∀ v ∈ st.neighbours (s.queue j), s.distance (st.pairVu v) ≠ HK_INFINITY
  distance_le : ∀ x, x ≤ st.uSize → s.distance x ≤ HK_INFINITY

/-- A vertex that is given a distance keeps the others'. -/
theorem Reached.update {distance : ℕ → ℕ} (h : Reached st distance) {u v d : ℕ} (hu : 1 ≤ u)
    (hule : u ≤ st.uSize) (hv : v ∈ st.neighbours u)
    (hfinite : distance u ≠ HK_INFINITY) (hnew : distance (st.pairVu v) = HK_INFINITY)
    (hd : d = 1 + distance u) :
    Reached st (Function.update distance (st.pairVu v) d) := by
  have hother : ∀ y, distance y ≠ HK_INFINITY →
      Function.update distance (st.pairVu v) d y = distance y := by
    intro y hy
    refine Function.update_of_ne ?_ _ _
    rintro rfl
    exact hy hnew
  intro x hx hxfinite
  by_cases hxv : x = st.pairVu v
  · subst hxv
    refine .inr ⟨u, v, hu, hule, hv, rfl, ?_, ?_⟩
    · rwa [hother u hfinite]
    · rw [Function.update_self, hother u hfinite, hd, add_comm]
  · rw [Function.update_of_ne hxv] at hxfinite ⊢
    rcases h x hx hxfinite with hfree | ⟨u', v', hu', hule', hv', hpair, hfinite', hdist⟩
    · exact .inl hfree
    · exact .inr ⟨u', v', hu', hule', hv', hpair, by rwa [hother u' hfinite'],
        by rwa [hother u' hfinite']⟩

/-- The inner loop gives distances to the partners of the neighbours, and keeps the ones there are.
-/
theorem visitLoop_spec (hsize : st.uSize < SHRT_MAX) (hpair : ∀ v, st.pairVu v ≤ st.uSize)
    {u qtail : ℕ} (hu : 1 ≤ u) (hule : u ≤ st.uSize)
    {vs : List ℕ} (hvs : ∀ v ∈ vs, v ∈ st.neighbours u) (hq : QueueOk st s)
    (hr : Reached st s.distance)
    (hle : ∀ x, x ≤ st.uSize → s.distance x ≤ HK_INFINITY) (htail : qtail < s.qhead)
    (hentry : s.queue qtail = u) :
      ∃ s', visitLoop st u vs s = some s' ∧ QueueOk st s' ∧ Reached st s'.distance ∧
        (∀ x, x ≤ st.uSize → s'.distance x ≤ HK_INFINITY) ∧
        s.qhead ≤ s'.qhead ∧ (∀ j, j < s.qhead → s'.queue j = s.queue j) ∧
        (∀ x, s.distance x ≠ HK_INFINITY → s'.distance x = s.distance x) ∧
        ∀ v ∈ vs, s'.distance (st.pairVu v) ≠ HK_INFINITY := by
  induction vs generalizing s with
  | nil => exact ⟨s, rfl, hq, hr, hle, le_rfl, fun _ _ => rfl, fun _ _ => rfl, nofun⟩
  | cons v vs ih =>
    obtain ⟨hmem, hvs⟩ := List.forall_mem_cons.mp hvs
    have hfinite : s.distance u ≠ HK_INFINITY := (hq.mem_iff u hule).mpr ⟨qtail, htail, hentry⟩
    rw [visitLoop]
    by_cases hnew : s.distance (st.pairVu v) = HK_INFINITY
    · -- A new vertex: its distance is at most the index of `u` and one more.
      have hd : 1 + s.distance u ≤ s.qhead := by
        have := hq.distance_le qtail htail
        rw [hentry] at this
        omega
      obtain ⟨s₁, hs₁, hq₁, hdist₁, hdlt, hqueue₁, hhead₁⟩ := hq.enqueue hsize (hpair v) hnew hd
      have hkept : ∀ x, s.distance x ≠ HK_INFINITY → s₁.distance x = s.distance x := by
        intro x hx
        rw [hdist₁]
        refine update_of_ne ?_ _ _
        rintro rfl
        exact hx hnew
      obtain ⟨s', hs', hq', hr', hle', hhead', hqueue', hdist', hall'⟩ := ih hvs hq₁
        (hdist₁ ▸ hr.update hu hule hmem hfinite hnew rfl)
        (fun x hx => by
          rw [hdist₁, update_apply]
          split_ifs
          · exact le_of_lt hdlt
          · exact hle x hx)
        (by omega) (by rw [hqueue₁, update_of_ne (ne_of_lt htail), hentry])
      have hnowfinite : s₁.distance (st.pairVu v) ≠ HK_INFINITY := by
        rw [hdist₁, update_self]
        exact ne_of_lt hdlt
      refine ⟨s', ?_, hq', hr', hle', by omega, fun j hj => ?_,
        fun x hx => ?_, List.forall_mem_cons.mpr ⟨?_, hall'⟩⟩
      · rw [if_pos hnew, hs₁]
        exact hs'
      · rw [hqueue' j (by omega), hqueue₁, update_of_ne (ne_of_lt hj)]
      · rw [hdist' x (by rwa [hkept x hx]), hkept x hx]
      · rwa [hdist' _ hnowfinite]
    · obtain ⟨s', hs', hq', hr', hle', hhead', hqueue', hdist', hall'⟩ :=
        ih hvs hq hr hle htail hentry
      refine ⟨s', ?_, hq', hr', hle', hhead', hqueue', hdist', List.forall_mem_cons.mpr ⟨?_, hall'⟩⟩
      · rw [if_neg hnew]
        exact hs'
      · rwa [hdist' _ hnew]

/-- The second loop reads every entry of the queue and ends. -/
theorem queueLoop_spec (hsize : st.uSize < SHRT_MAX) (hpair : ∀ v, st.pairVu v ≤ st.uSize)
    {n qtail : ℕ} (h : Searched st qtail s)
    (hle : qtail ≤ s.qhead) (hn : st.uSize + 2 ≤ n + qtail) :
      ∃ s', queueLoop st n qtail s = some s' ∧ Searched st s'.qhead s' := by
  induction n generalizing qtail s with
  | zero =>
    have := qhead_le_of_inj h.queue.inj h.queue.vertex
    omega
  | succ n ih =>
    rw [queueLoop]
    split_ifs with htail
    · have hvertex := h.queue.vertex qtail htail
      have hfinite : s.distance (s.queue qtail) ≠ HK_INFINITY :=
        (h.queue.mem_iff _ hvertex).mpr ⟨qtail, htail, rfl⟩
      by_cases hless : s.distance (s.queue qtail) < s.distance 0
      · have hpos : 1 ≤ s.queue qtail := by
          refine Nat.pos_of_ne_zero fun hzero => ?_
          rw [hzero] at hless
          exact lt_irrefl _ hless
        obtain ⟨s', hs', hq', hr', hle', hhead', hqueue', hdist', hall'⟩ :=
          visitLoop_spec hsize hpair hpos hvertex
            (fun _ hv => hv) h.queue h.reached h.distance_le htail rfl
        rw [if_pos hless, hs']
        refine ih ⟨hq', hr', fun u hu hule hfree => ?_, fun hinf j hj v hv => ?_, hle'⟩
          (by omega) (by omega)
        · have := h.free u hu hule hfree
          rwa [hdist' u this]
        · have hinf₀ : s.distance 0 = HK_INFINITY := by
            by_contra hne
            exact hne ((hdist' 0 hne).symm.trans hinf)
          rw [hqueue' j (by omega)] at hv
          -- The entry was read before, or it is the one that was read now.
          rcases lt_or_ge j qtail with hlt | hge
          · have := h.closed hinf₀ j hlt v hv
            rwa [hdist' _ this]
          · obtain rfl : j = qtail := by omega
            exact hall' v hv
      · rw [if_neg hless]
        refine ih { h with closed := fun hinf => ?_ } (by omega) (by omega)
        have := h.distance_le _ hvertex
        omega
    · obtain rfl : qtail = s.qhead := by omega
      exact ⟨s, rfl, h⟩

/-- What holds in the first loop, before vertex `k`. -/
structure Started (st : MatchState) (k : ℕ) (s : Bfs) : Prop where
  inj : ∀ i j, i < s.qhead → j < s.qhead → s.queue i = s.queue j → i = j
  entry : ∀ j, j < s.qhead → 1 ≤ s.queue j ∧ s.queue j < k ∧ st.pairUv (s.queue j) = 0
  free : ∀ x, 1 ≤ x → x < k → st.pairUv x = 0 → s.distance x = 0 ∧ ∃ j, j < s.qhead ∧ s.queue j = x
  matched : ∀ x, 1 ≤ x → x < k → st.pairUv x ≠ 0 → s.distance x = HK_INFINITY
  zero : s.distance 0 = HK_INFINITY

/-- The first loop puts the unmatched vertices into the queue. -/
theorem initLoop_spec {n k : ℕ} (hk : 1 ≤ k) (hkn : k + n = st.uSize + 1) (h : Started st k s) :
    ∃ s', initLoop st (List.range' k n) s = some s' ∧ Started st (st.uSize + 1) s' := by
  induction n generalizing k s with
  | zero =>
    obtain rfl : k = st.uSize + 1 := by omega
    exact ⟨s, rfl, h⟩
  | succ n ih =>
    rw [List.range'_succ, initLoop]
    by_cases hfree : st.pairUv k = 0
    · -- The entries are smaller than `k`, so there is a slot left.
      have hhead : s.qhead ≤ st.uSize + 1 := qhead_le_of_inj h.inj fun j hj => by
        have := (h.entry j hj).2.1
        omega
      rw [if_pos hfree, enqueue, if_pos ⟨by omega, Nat.zero_le _⟩]
      refine ih (by omega) (by omega) ⟨?_, ?_, ?_, ?_, ?_⟩
      · exact inj_update h.inj fun j hj => Nat.ne_of_lt (h.entry j hj).2.1
      · intro j hj
        dsimp only at hj ⊢
        rcases update_lt_succ s.queue k hj with ⟨hj, heq⟩ | ⟨-, heq⟩ <;> rw [heq]
        · exact (h.entry j hj).imp_right (.imp_left Nat.lt_succ_of_lt)
        · exact ⟨hk, Nat.lt_succ_self k, hfree⟩
      · intro x hx hxk hpair
        by_cases heq : x = k
        · subst heq
          exact ⟨update_self _ _ _, s.qhead, Nat.lt_succ_self _, update_self _ _ _⟩
        · obtain ⟨hdist, j, hj, hqueue⟩ := h.free x hx (by omega) hpair
          exact ⟨(update_of_ne heq _ _).trans hdist, j, Nat.lt_succ_of_lt hj,
            (update_of_ne (ne_of_lt hj) _ _).trans hqueue⟩
      · intro x hx hxk hpair
        by_cases heq : x = k
        · exact absurd (heq ▸ hfree) hpair
        · exact (update_of_ne heq _ _).trans (h.matched x hx (by omega) hpair)
      · exact (update_of_ne (by omega) _ _).trans h.zero
    · rw [if_neg hfree]
      refine ih (by omega) (by omega) ⟨h.inj, fun j hj =>
        (h.entry j hj).imp_right (.imp_left Nat.lt_succ_of_lt),
        fun x hx hxk hpair => ?_, fun x hx hxk hpair => ?_, ?_⟩
      · have heq : x ≠ k := by
          rintro rfl
          exact hfree hpair
        obtain ⟨hdist, hqueue⟩ := h.free x hx (by omega) hpair
        exact ⟨(update_of_ne heq _ _).trans hdist, hqueue⟩
      · by_cases heq : x = k
        · subst heq
          exact update_self _ _ _
        · exact (update_of_ne heq _ _).trans (h.matched x hx (by omega) hpair)
      · exact (update_of_ne (by omega) _ _).trans h.zero

/-- After the first loop, the second one can start. -/
theorem Started.searched (h : Started st (st.uSize + 1) s) : Searched st 0 s := by
  have hinf : (0 : ℕ) ≠ HK_INFINITY := by decide
  -- A vertex is unmatched with distance 0, or it has no distance.
  have hcases : ∀ x, x ≤ st.uSize → (1 ≤ x ∧ st.pairUv x = 0 ∧ s.distance x = 0) ∨
      s.distance x = HK_INFINITY := by
    intro x hx
    rcases Nat.eq_zero_or_pos x with rfl | hpos
    · exact .inr h.zero
    · by_cases hfree : st.pairUv x = 0
      · exact .inl ⟨hpos, hfree, (h.free x hpos (by omega) hfree).1⟩
      · exact .inr (h.matched x hpos (by omega) hfree)
  refine ⟨⟨h.inj, fun j hj => ?_, fun x hx => ⟨fun hne => ?_, ?_⟩, fun j hj => ?_⟩,
    fun x hx hne => ?_, fun u hu hule hfree => ?_, ?_, fun x hx => ?_⟩
  · have := (h.entry j hj).2.1
    omega
  · rcases hcases x hx with ⟨hpos, hfree, _⟩ | hnone
    · exact (h.free x hpos (by omega) hfree).2
    · exact absurd hnone hne
  · rintro ⟨j, hj, rfl⟩
    obtain ⟨hpos, hlt, hfree⟩ := h.entry j hj
    rw [(h.free _ hpos hlt hfree).1]
    exact hinf
  · obtain ⟨hpos, hlt, hfree⟩ := h.entry j hj
    rw [(h.free _ hpos hlt hfree).1]
    exact Nat.zero_le j
  · exact .inl ((hcases x hx).resolve_right hne)
  · rw [(h.free u hu (by omega) hfree).1]
    exact hinf
  · exact nofun
  · rcases hcases x hx with ⟨_, _, hzero⟩ | hnone
    · rw [hzero]
      exact Nat.zero_le _
    · exact Nat.le_of_eq hnone

/-- What the breadth-first search leaves. -/
structure Layered (st : MatchState) : Prop where
  reached : Reached st st.distance
  free : ∀ u, 1 ≤ u → u ≤ st.uSize → st.pairUv u = 0 → st.distance u ≠ HK_INFINITY
  /-- When there is no augmenting path, every neighbour of a vertex with a distance is matched with
  one. -/
  closed : st.distance 0 = HK_INFINITY → ∀ u, u ≤ st.uSize → st.distance u ≠ HK_INFINITY →
    ∀ v ∈ st.neighbours u,
    st.distance (st.pairVu v) ≠ HK_INFINITY
  distance_le : ∀ x, x ≤ st.uSize → st.distance x ≤ HK_INFINITY

/-- The breadth-first search has a result. -/
theorem hkBreadthSearch_spec (hsize : st.uSize < SHRT_MAX) (hpair : ∀ v, st.pairVu v ≤ st.uSize)
    (queue : ℕ → ℕ) :
    ∃ distance, hkBreadthSearch st queue =
      some (decide (distance 0 ≠ HK_INFINITY), { st with distance := distance }) ∧
      Layered { st with distance := distance } := by
  have hstart : Started st 1 ⟨update st.distance 0 HK_INFINITY, queue, 0⟩ :=
    ⟨nofun, nofun, fun x hx hlt => absurd hlt (not_lt.mpr hx),
      fun x hx hlt => absurd hlt (not_lt.mpr hx), update_self 0 HK_INFINITY st.distance⟩
  obtain ⟨s, hinit, hstarted⟩ := initLoop_spec le_rfl (add_comm _ _) hstart
  obtain ⟨s', hloop, hsearched⟩ :=
    queueLoop_spec hsize hpair hstarted.searched (Nat.zero_le _) (Nat.le_refl _)
  refine ⟨s'.distance, ?_, hsearched.reached, hsearched.free, fun hinf u hu hne v hv => ?_,
    hsearched.distance_le⟩
  · unfold hkBreadthSearch
    rw [hinit]
    dsimp only
    rw [hloop]
  · obtain ⟨j, hj, rfl⟩ := (hsearched.queue.mem_iff u hu).mp hne
    exact hsearched.closed hinf j hj v hv

end

end PgAutoIndex.Lib
