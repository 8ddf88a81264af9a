import PgAutoIndex.Common.PgLzcompress

/-!
# The history table of pglz

The entries in use are linked into one list for each hash value, both ways, with the newest position
first. Taking an entry off its list and putting it at the head of another one keep that
(`Chains.delink`, `Chains.link`), so that along a list the positions decrease, whatever has been
recycled. Hence a search ends within the fuel it is given, and every match it finds lies before the
position searched for.
-/

namespace PgAutoIndex.Common

@[simp] theorem History.setEntry_start (h : History) (i : ℕ) (e : HistEntry) :
    (h.setEntry i e).start = h.start := rfl

@[simp] theorem History.setStart_entries (h : History) (k i : ℕ) :
    (h.setStart k i).entries = h.entries := rfl

@[simp] theorem History.setEntry_entries (h : History) (i j : ℕ) (e : HistEntry) :
    (h.setEntry i e).entries j = if j = i then e else h.entries j := by
  simp [History.setEntry, Function.update_apply]

@[simp] theorem History.setStart_start (h : History) (k i j : ℕ) :
    (h.setStart k i).start j = if j = k then i else h.start j := by
  simp [History.setStart, Function.update_apply]

/-- The lists of the table: `L` are the entries in use, `size` the number of lists, and all
positions lie before `dp`. -/
structure Chains (h : History) (L : ℕ → Prop) (size dp : ℕ) : Prop where
  ne_zero : ∀ i, L i → i ≠ 0
  pos : ∀ i, L i → (h.entries i).pos < dp
  hindex : ∀ i, L i → (h.entries i).hindex < size
  start : ∀ k < size, h.start k = 0 ∨ (L (h.start k) ∧ (h.entries (h.start k)).prev = none ∧
    (h.entries (h.start k)).hindex = k)
  next : ∀ i, L i → (h.entries i).next = 0 ∨ (L (h.entries i).next ∧
    (h.entries (h.entries i).next).prev = some i ∧
    (h.entries (h.entries i).next).hindex = (h.entries i).hindex ∧
    (h.entries (h.entries i).next).pos < (h.entries i).pos)
  head : ∀ i, L i → (h.entries i).prev = none → h.start (h.entries i).hindex = i
  prev : ∀ i j, L i → (h.entries i).prev = some j → L j ∧ (h.entries j).next = i

variable {h : History} {L : ℕ → Prop} {dp size slen x : ℕ}

section
variable (hc : Chains h L size dp)
include hc

/-- The entry behind an entry in use, if there is one, is in use and older. -/
theorem Chains.next_ne_self (hx : L x) : (h.entries x).next ≠ x := by
  intro heq
  rcases hc.next x hx with h0 | ⟨-, -, -, hlt⟩
  · exact hc.ne_zero x hx (heq ▸ h0)
  · rw [heq] at hlt
    exact lt_irrefl _ hlt

/-- The predecessor of an entry is neither the entry nor the one behind it. -/
theorem Chains.prev_ne {j : ℕ} (hx : L x) (hp : (h.entries x).prev = some j) :
    x ≠ j ∧ (h.entries x).next ≠ j := by
  obtain ⟨hj, hjx⟩ := hc.prev x j hx hp
  constructor
  · rintro rfl
    exact hc.next_ne_self hx hjx
  · rintro rfl
    rcases hc.next x hx with h0 | ⟨-, -, -, hlt⟩
    · exact hc.ne_zero _ hj h0
    · rcases hc.next _ hj with h0 | ⟨-, -, -, hlt'⟩
      · exact hc.ne_zero x hx (hjx.symm.trans h0)
      · rw [hjx] at hlt'
        omega

/-- Delinking takes one entry out of use. -/
theorem Chains.delink (hx : L x) : Chains (histDelink h x) (fun i => L i ∧ i ≠ x) size dp := by
  have hne := fun j => hc.prev_ne (j := j) hx
  have hnx := hc.next_ne_self hx
  have hhead := hc.head x hx
  have hprev := fun j => hc.prev x j hx
  have hnext := hc.next x hx
  have hentries : ∀ i, (histDelink h x).entries i =
      if i = (h.entries x).next then { h.entries i with prev := (h.entries x).prev }
      else if (h.entries x).prev = some i then { h.entries i with next := (h.entries x).next }
        else h.entries i := by
    intro i
    cases hp : (h.entries x).prev with
    | none => grind [histDelink, History.setEntry_entries, History.setStart_entries]
    | some j => grind [histDelink, History.setEntry_entries]
  have hstarts : ∀ k, (histDelink h x).start k =
      if (h.entries x).prev = none ∧ k = (h.entries x).hindex then (h.entries x).next
      else h.start k := by
    intro k
    cases hp : (h.entries x).prev <;> simp [histDelink, hp]
  -- Only its predecessor or its list points to the entry, and only the entry to the one behind it.
  constructor
  · exact fun i hi => hc.ne_zero i hi.1
  · intro i hi
    have := hc.pos i hi.1
    grind
  · intro i hi
    have := hc.hindex i hi.1
    grind
  · intro k hk
    have := hc.start k hk
    grind
  · intro i hi
    have := hc.next i hi.1
    have := hprev i
    have := hc.ne_zero x hx
    simp only [hentries]
    grind
  · intro i hi
    have := hc.head i hi.1
    have := hc.ne_zero i hi.1
    grind
  · intro i j hi
    have := hc.prev i j hi.1
    grind

/-- Linking takes an unused entry into use, for the newest position. -/
theorem Chains.link {k : ℕ} (hx : ¬L x) (hx0 : x ≠ 0) (hk : k < size) :
    Chains (histLink h x k dp) (fun i => L i ∨ i = x) size (dp + 1) := by
  generalize hhead : h.start k = head
  have hstartk := hc.start k hk
  rw [hhead] at hstartk
  have hne : head ≠ x := by
    rintro rfl
    rcases hstartk with h0 | ⟨hl, -⟩
    · exact hx0 h0
    · exact hx hl
  have hentries : ∀ i, (histLink h x k dp).entries i =
      if i = head then { h.entries head with prev := some x }
      else if i = x then ⟨head, none, k, dp⟩ else h.entries i := by
    intro i
    simp [histLink, hhead, hne]
  have hstarts : ∀ i, (histLink h x k dp).start i = if i = k then x else h.start i := by
    intro i
    simp [histLink]
  have hpos := hc.pos head
  constructor
  · rintro i (hi | rfl)
    · exact hc.ne_zero i hi
    · exact hx0
  · intro i hi
    have := hc.pos i
    grind
  · intro i hi
    have := hc.hindex i
    grind
  · intro j hj
    have := hc.start j hj
    grind
  · intro i hi
    have := hc.next i
    grind
  · intro i hi
    have := hc.head i
    grind
  · intro i j hi
    have := hc.prev i j
    grind

/-- The lists do not depend on which entry comes next. -/
theorem Chains.congr {h' : History} {L' : ℕ → Prop}
    (hstart : h'.start = h.start) (hentries : h'.entries = h.entries) (hL : ∀ i, L' i ↔ L i) :
    Chains h' L' size dp := by
  obtain rfl : L' = L := funext fun i => propext (hL i)
  cases h
  cases h'
  dsimp only at hstart hentries
  subst hstart hentries
  exact { hc with }

end

/-! ## Adding to the history -/

/-- The entries in use: those before `hist_next`, and all once entries are recycled. -/
def Live (h : History) (i : ℕ) : Prop :=
  1 ≤ i ∧ i ≤ PGLZ_HISTORY_SIZE ∧ (h.recycle = true ∨ i < h.histNext)

/-- The invariant of the table, with all positions before `dp` added. -/
structure HistOk (h : History) (size dp : ℕ) : Prop where
  next_pos : 1 ≤ h.histNext
  next_le : h.histNext ≤ PGLZ_HISTORY_SIZE
  chains : Chains h (Live h) size dp

/-- The table at the beginning, whatever the entries hold. -/
theorem histOk_init (h : History) (size : ℕ) (hnext : h.histNext = 1) (hrecycle : h.recycle = false)
    (hstart : ∀ k < size, h.start k = 0) : HistOk h size 0 := by
  have hnone : ∀ i, ¬Live h i := by
    rintro i ⟨hpos, -, hlt⟩
    rw [hrecycle, hnext] at hlt
    rcases hlt with hlt | hlt
    · cases hlt
    · omega
  refine ⟨by omega, by rw [hnext]; decide, ?_⟩
  exact
    { ne_zero := fun i hi => absurd hi (hnone i)
      pos := fun i hi => absurd hi (hnone i)
      hindex := fun i hi => absurd hi (hnone i)
      start := fun k hk => .inl (hstart k hk)
      next := fun i hi => absurd hi (hnone i)
      head := fun i hi => absurd hi (hnone i)
      prev := fun i j hi => absurd hi (hnone i) }

theorem histDelink_counters (h : History) (i : ℕ) :
    (histDelink h i).histNext = h.histNext ∧ (histDelink h i).recycle = h.recycle := by
  unfold histDelink
  cases (h.entries i).prev <;> exact ⟨rfl, rfl⟩

/-- The hash of a position is the number of a list. -/
theorem histIdx_lt (widen : UInt8 → BitVec 32) (source : List UInt8) (s slen : ℕ) :
    histIdx widen source s (hashSize slen - 1) < hashSize slen := by
  have hsize : 0 < hashSize slen ∧ hashSize slen ≤ 8192 := by
    unfold hashSize
    split_ifs <;> omega
  have hmask : (BitVec.ofNat 32 (hashSize slen - 1)).toNat = hashSize slen - 1 := by
    exact Nat.mod_eq_of_lt (by omega)
  exact lt_of_le_of_lt Nat.and_le_right (by omega)

/-- Adding the next position keeps the invariant. -/
theorem histAdd_ok (widen : UInt8 → BitVec 32) (source : List UInt8)
    (hok : HistOk h (hashSize slen) dp) :
    HistOk (histAdd widen source (hashSize slen - 1) h dp) (hashSize slen) (dp + 1) := by
  obtain ⟨hpos, hle, hc⟩ := hok
  generalize hx : h.histNext = x
  rw [hx] at hpos hle
  -- After the entry is off its old list, if it was in use, the others still are.
  obtain ⟨h', hh', hnext', hrecycle', hc'⟩ : ∃ h', h' = (if h.recycle then histDelink h x else h) ∧
      h'.histNext = x ∧ h'.recycle = h.recycle ∧
      Chains h' (fun i => Live h i ∧ i ≠ x) (hashSize slen) dp := by
    refine ⟨_, rfl, ?_⟩
    cases hr : h.recycle with
    | true =>
      have hlive : Live h x := ⟨hpos, hle, .inl hr⟩
      obtain ⟨hn, hr'⟩ := histDelink_counters h x
      exact ⟨hn.trans hx, hr'.trans hr, hc.delink hlive⟩
    | false =>
      refine ⟨hx, hr, hc.congr rfl rfl fun i => and_iff_left_of_imp ?_⟩
      rintro ⟨-, -, hlt⟩
      rw [hr, hx] at hlt
      rcases hlt with hlt | hlt
      · cases hlt
      · omega
  have hlink := hc'.link (x := x) (fun h => h.2 rfl) (by omega)
    (histIdx_lt widen source dp slen)
  rw [histAdd, hx, ← hh']
  generalize hh'' : histLink h' x (histIdx widen source dp (hashSize slen - 1)) dp = h'' at hlink ⊢
  have hnext'' : h''.histNext = x := by rw [← hh'']; exact hnext'
  have hrecycle'' : h''.recycle = h.recycle := by rw [← hh'']; exact hrecycle'
  unfold histAdvance
  rw [hnext'']
  split_ifs with hlast
  · refine ⟨Nat.le_refl 1, (by decide : 1 ≤ PGLZ_HISTORY_SIZE), hlink.congr rfl rfl fun i => ?_⟩
    simp only [Live, hx, true_or, and_true]
    omega
  · refine ⟨Nat.le_add_left 1 x, by show x + 1 ≤ PGLZ_HISTORY_SIZE; omega,
      hlink.congr rfl rfl fun i => ?_⟩
    simp only [Live, hx, hrecycle'']
    cases h.recycle <;> simp <;> omega

/-- Adding the positions of a match keeps the invariant. -/
theorem histAddMany_ok (widen : UInt8 → BitVec 32) (source : List UInt8) (len : ℕ)
    (hok : HistOk h (hashSize slen) dp) :
    HistOk (histAddMany widen source (hashSize slen - 1) h dp len) (hashSize slen) (dp + len) := by
  induction len generalizing h dp with
  | zero => exact hok
  | succ len ih =>
    have := ih (histAdd_ok widen source hok)
    rwa [add_right_comm, add_assoc] at this

/-! ## Searching the history -/

/-- A match of length `len` at `off` characters before `input`. -/
structure Match (source : List UInt8) (input len off : ℕ) : Prop where
  len_le : len ≤ PGLZ_MAX_MATCH
  off_pos : 0 < off
  off_lt : off < 0x0fff
  off_le : off ≤ input
  fits : input + len ≤ source.length
  same : ∀ i < len, source[input + i]? = source[input + i - off]?

/-- The comparison loop stops within its room, inside the source, after characters that agree. -/
theorem matchLength_spec (source : List UInt8) (ip hp room : ℕ) (hip : ip ≤ source.length) :
    matchLength source ip hp room ≤ room ∧ ip + matchLength source ip hp room ≤ source.length ∧
      ∀ i < matchLength source ip hp room, source[ip + i]? = source[hp + i]? := by
  induction room generalizing ip hp with
  | zero => exact ⟨Nat.le_refl 0, hip, nofun⟩
  | succ room ih =>
    rw [matchLength]
    split_ifs with hsame
    · obtain ⟨hroom, hfits, hall⟩ := ih (ip + 1) (hp + 1) hsame.1
      refine ⟨by omega, by omega, fun i hi => ?_⟩
      cases i with
      | zero => exact hsame.2
      | succ i =>
        have := hall i (by omega)
        rwa [add_right_comm, add_assoc, add_right_comm hp, add_assoc hp] at this
    · exact ⟨Nat.zero_le _, hip, nofun⟩

/-- So does the comparison that starts with `memcmp` over the best length so far. -/
theorem thisLength_spec {source : List UInt8} {ip : ℕ} (hp : ℕ) {len : ℕ}
    (hlen : len ≤ PGLZ_MAX_MATCH)
    (hip : ip + len ≤ source.length) :
    thisLength source ip hp len ≤ PGLZ_MAX_MATCH ∧ ip + thisLength source ip hp len ≤
      source.length ∧
      ∀ i < thisLength source ip hp len, source[ip + i]? = source[hp + i]? := by
  unfold thisLength
  split_ifs with hlong hsame
  · obtain ⟨hroom, hfits, hall⟩ :=
      matchLength_spec source (ip + len) (hp + len) (PGLZ_MAX_MATCH - len) hip
    refine ⟨by omega, by omega, fun i hi => ?_⟩
    rcases lt_or_ge i len with hi' | hi'
    · have := congrArg (·[i]?) hsame
      simpa [List.getElem?_take_of_lt hi'] using this
    · have := hall (i - len) (by omega)
      rwa [add_assoc, Nat.add_sub_cancel' hi', add_assoc, Nat.add_sub_cancel' hi'] at this
  · exact ⟨Nat.zero_le _, by omega, nofun⟩
  · exact matchLength_spec source ip hp PGLZ_MAX_MATCH (by omega)

/-- The search ends, with a match or with length 0. The fuel left and the offset of the entry looked
at together exceed the largest offset, since offsets grow along a list. -/
theorem findMatchLoop_spec {source : List UInt8} {input : ℕ} (hok : HistOk h size input)
    (hinput : input ≤ source.length) (goodDrop : ℤ) {fuel hent : ℕ} (goodMatch : ℤ) {len off : ℕ}
    (hent_ok : hent = INVALID_ENTRY ∨ Live h hent) (hfuel : 0 < fuel)
    (hmore : hent ≠ INVALID_ENTRY → 0x0fff < input - (h.entries hent).pos + fuel)
    (hbest : len = 0 ∨ Match source input len off) :
    ∃ len' off', findMatchLoop source h.entries input goodDrop fuel hent goodMatch len off =
      some (len', off') ∧ (len' = 0 ∨ Match source input len' off') := by
  induction fuel generalizing hent goodMatch len off with
  | zero => exact absurd hfuel (lt_irrefl 0)
  | succ fuel ih =>
    unfold findMatchLoop
    by_cases hend : hent = INVALID_ENTRY
    · rw [if_pos hend]
      exact ⟨len, off, rfl, hbest⟩
    rw [if_neg hend]
    have hlive := hent_ok.resolve_left hend
    have hbefore := hok.chains.pos hent hlive
    have hmore' := hmore hend
    by_cases hfar : input - (h.entries hent).pos ≥ 0x0fff
    · simp only [if_pos hfar]
      exact ⟨len, off, rfl, hbest⟩
    simp only [if_neg hfar]
    -- The entry looked at gives a match of its own length.
    have hlen : len ≤ PGLZ_MAX_MATCH ∧ input + len ≤ source.length := by
      rcases hbest with rfl | hm
      · exact ⟨Nat.zero_le _, hinput⟩
      · exact ⟨hm.len_le, hm.fits⟩
    obtain ⟨hmax, hfits, hsame⟩ :=
      thisLength_spec (h.entries hent).pos hlen.1 hlen.2
    have hthis : Match source input (thisLength source input (h.entries hent).pos len)
        (input - (h.entries hent).pos) :=
      { len_le := hmax
        off_pos := by omega
        off_lt := by omega
        off_le := Nat.sub_le _ _
        fits := hfits
        same := fun i hi => by
          rw [hsame i hi]
          congr 1
          omega }
    generalize hbest₁ : (if thisLength source input (h.entries hent).pos len > len then _
      else (len, off)) = best
    obtain ⟨len₁, off₁⟩ := best
    have hok₁ : len₁ = 0 ∨ Match source input len₁ off₁ := by
      split_ifs at hbest₁ <;> cases hbest₁
      · exact .inr hthis
      · exact hbest
    have hnext := hok.chains.next hent hlive
    split
    · exact ⟨len₁, off₁, rfl, hok₁⟩
    · apply ih
      · exact hnext.imp id fun h => h.1
      · omega
      · intro hne
        rcases hnext with h0 | ⟨-, -, -, hlt⟩
        · exact absurd h0 hne
        · omega
      · exact hok₁

/-- `pglz_find_match` ends, and what it finds is a match of at least three characters. -/
theorem findMatch_spec (widen : UInt8 → BitVec 32) (source : List UInt8)
    (hok : HistOk h (hashSize slen) dp) (hdp : dp ≤ source.length) (goodMatch goodDrop : ℤ) :
    ∃ result, findMatch widen source h dp (hashSize slen - 1) goodMatch goodDrop = some result ∧
      ∀ len off, result = some (len, off) → 3 ≤ len ∧ Match source dp len off := by
  have hstart := hok.chains.start _ (histIdx_lt widen source dp slen)
  have hmore : h.start (histIdx widen source dp (hashSize slen - 1)) ≠ INVALID_ENTRY →
      0x0fff < dp - (h.entries (h.start (histIdx widen source dp (hashSize slen - 1)))).pos +
        (PGLZ_HISTORY_SIZE + 1) := by
    intro _
    show 4095 < _ + 4097
    omega
  obtain ⟨len, off, hloop, hm⟩ := findMatchLoop_spec hok hdp goodDrop goodMatch
    (hstart.imp id fun h => h.1) (Nat.succ_pos _) hmore (.inl rfl)
  unfold findMatch
  rw [hloop]
  refine ⟨_, rfl, fun len' off' hresult => ?_⟩
  simp only at hresult
  split_ifs at hresult with hlong
  cases hresult
  refine ⟨hlong, hm.resolve_left ?_⟩
  omega

end PgAutoIndex.Common
