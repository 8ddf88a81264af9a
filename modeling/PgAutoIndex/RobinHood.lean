import Mathlib.Algebra.GroupWithZero.Nat
import Mathlib.Algebra.BigOperators.Group.Finset.Basic

/-!
# Robin Hood hashing

A table of `n` slots in a circle holds values, and every value has a home slot. Along a run of
occupied slots, the homes come in the order of the slots. This is said locally (`Ordered`): the
value in a slot is at home, or the slot before it is occupied and the distance from home grows by at
most one from that slot to this one. What a search needs follows by going back from a value to its
home (`Ordered.run`): every slot on the way is occupied, by a value at least as far from its own
home as the search has come.

A value that is put into a slot where a search for it may stop keeps the order, after the values
from there to the next empty slot have moved on by one (`Ordered.insertAt`), and so does taking out
a value when the values after it move back, up to one that is at home (`Ordered.removeAt`). What the
table holds is a list up to permutation (`contents`). Filling a larger table in the order of the
slots, from one that no run crosses, needs no moves (`Copied.place`).
-/

namespace RobinHood

open List

/-! ## Slots in a circle -/

/-- The slot `i` places after `s`. -/
def slot (n s i : ℕ) : ℕ := (s + i) % n

/-- How far the slot `p` is after `h`. -/
def dist (n h p : ℕ) : ℕ := (p + n - h) % n

section
variable {n s h p i j : ℕ}

/-- Slots are in the table. -/
theorem slot_lt (hn : 0 < n) : slot n s i < n := Nat.mod_lt _ hn

/-- Distances are below the size. -/
theorem dist_lt (hn : 0 < n) : dist n h p < n := Nat.mod_lt _ hn

/-- No step stays. -/
theorem slot_zero (hs : s < n) : slot n s 0 = s := Nat.mod_eq_of_lt hs

/-- Steps add up. -/
theorem slot_slot (n s i j : ℕ) : slot n (slot n s i) j = slot n s (i + j) := by
  unfold slot
  rw [Nat.mod_add_mod, add_assoc]

/-- Going all the way round. -/
theorem slot_self (hs : s < n) : slot n s n = s := by
  unfold slot
  rw [Nat.add_mod_right, Nat.mod_eq_of_lt hs]

/-- The distance of a slot. -/
theorem dist_slot (hs : s < n) (hi : i < n) : dist n s (slot n s i) = i := by
  unfold dist slot
  rcases lt_or_ge (s + i) n with hlt | hge
  · rw [Nat.mod_eq_of_lt hlt, show s + i + n - s = i + n by omega, Nat.add_mod_right,
      Nat.mod_eq_of_lt hi]
  · rw [Nat.mod_eq_sub_mod hge, Nat.mod_eq_of_lt (show s + i - n < n by omega),
      show s + i - n + n - s = i by omega, Nat.mod_eq_of_lt hi]

/-- The slot at a distance. -/
theorem slot_dist (hh : h < n) (hp : p < n) : slot n h (dist n h p) = p := by
  unfold slot dist
  rw [Nat.add_mod_mod, show h + (p + n - h) = p + n by omega, Nat.add_mod_right,
    Nat.mod_eq_of_lt hp]

/-- Home is at distance zero. -/
theorem dist_self (hh : h < n) : dist n h h = 0 := by
  have := dist_slot hh (show 0 < n by omega)
  rwa [slot_zero hh] at this

/-- Only home is at distance zero. -/
theorem eq_of_dist_eq_zero (hh : h < n) (hp : p < n) (hzero : dist n h p = 0) : h = p := by
  have := slot_dist hh hp
  rwa [hzero, slot_zero hh] at this

/-- Going on from a slot adds to the distance, as long as it does not go round. -/
theorem dist_add (hh : h < n) (hp : p < n) (hi : dist n h p + i < n) :
    dist n h (slot n p i) = dist n h p + i := by
  calc dist n h (slot n p i)
      = dist n h (slot n (slot n h (dist n h p)) i) := by rw [slot_dist hh hp]
    _ = dist n h (slot n h (dist n h p + i)) := by rw [slot_slot]
    _ = dist n h p + i := dist_slot hh hi

/-- One step before a slot away from home. -/
theorem dist_succ (hh : h < n) (hp : p < n) (hne : h ≠ slot n p 1) :
    dist n h (slot n p 1) = dist n h p + 1 := by
  have hlt := dist_lt (h := h) (p := p) (show 0 < n by omega)
  rcases lt_or_ge (dist n h p + 1) n with hless | hge
  · exact dist_add hh hp hless
  · -- The step would lead home.
    refine absurd ?_ hne
    calc h = slot n h n := (slot_self hh).symm
      _ = slot n h (dist n h p + 1) := by rw [show dist n h p + 1 = n by omega]
      _ = slot n (slot n h (dist n h p)) 1 := (slot_slot n h _ 1).symm
      _ = slot n p 1 := by rw [slot_dist hh hp]

/-- Different steps reach different slots. -/
theorem slot_inj (hs : s < n) (hi : i < n) (hj : j < n)
    (heq : slot n s i = slot n s j) : i = j := by
  rw [← dist_slot hs hi, heq, dist_slot hs hj]

/-- Fewer steps than there are slots do not lead back. -/
theorem slot_ne (hs : s < n) (hi : i < n) (hpos : 0 < i) : slot n s i ≠ s := fun heq =>
  ne_of_gt hpos (slot_inj hs hi (by omega) (heq.trans (slot_zero hs).symm))

/-- Every slot is some steps after any other. -/
theorem exists_slot (hs : s < n) (hp : p < n) : ∃ i, i < n ∧ p = slot n s i :=
  ⟨dist n s p, dist_lt (by omega), (slot_dist hs hp).symm⟩

/-- As many steps from different slots end apart. -/
theorem slot_right_cancel {s' : ℕ} (hs : s < n) (hs' : s' < n) (hi : i < n)
    (heq : slot n s i = slot n s' i) : s = s' := by
  -- The rest of the way round leads back.
  calc s = slot n s n := (slot_self hs).symm
    _ = slot n (slot n s i) (n - i) := by rw [slot_slot, show i + (n - i) = n by omega]
    _ = slot n (slot n s' i) (n - i) := by rw [heq]
    _ = slot n s' n := by rw [slot_slot, show i + (n - i) = n by omega]
    _ = s' := slot_self hs'

/-- The slots from any slot on are all slots. -/
theorem map_slot_perm (hs : s < n) : List.Perm ((range n).map (slot n s)) (range n) := by
  refine (subperm_of_subset ?_ fun q hq => ?_).perm_of_length_le ?_
  · refine List.Nodup.map_on (fun i hi j hj heq => ?_) nodup_range
    exact slot_inj hs (mem_range.mp hi) (mem_range.mp hj) heq
  · obtain ⟨i, _, rfl⟩ := mem_map.mp hq
    exact mem_range.mpr (slot_lt (by omega))
  · rw [length_map]

end

/-! ## The order -/

variable {i len p q : ℕ}

section
variable {α : Type*} {n : ℕ} {home : α → ℕ} {t : ℕ → Option α} {a : α}

/-- A value is at home, or its distance from home is at most one more than that of the value before
it. -/
def Ordered (n : ℕ) (home : α → ℕ) (t : ℕ → Option α) : Prop :=
  ∀ p, p < n → ∀ a, t (slot n p 1) = some a →
    home a = slot n p 1 ∨ ∃ b, t p = some b ∧ dist n (home a) (slot n p 1) ≤ dist n (home b) p + 1

/-- The order at two slots in the numbering from some slot on. -/
theorem Ordered.step (h : Ordered n home t) (hn : 0 < n) (ha : t (slot n p (i + 1)) = some a) :
    home a = slot n p (i + 1) ∨
      ∃ b, t (slot n p i) = some b ∧ dist n (home a) (slot n p (i + 1)) ≤
        dist n (home b) (slot n p i) + 1 := by
  rw [← slot_slot] at ha ⊢
  exact h _ (slot_lt hn) a ha

/-- The empty table is in order. -/
theorem ordered_empty : Ordered n home fun _ => none := by
  intro p _ a ha
  cases ha

section
variable (h : Ordered n home t) (hhome : ∀ a, home a < n)
include h hhome

/-- From a value back to its home all slots are occupied, by values at least as far from their own
homes. -/
theorem Ordered.run (hp : p < n) (ha : t p = some a) (j : ℕ) (hj : j ≤ dist n (home a) p) :
    ∃ b, t (slot n (home a) j) = some b ∧ j ≤ dist n (home b) (slot n (home a) j) := by
  have hn : 0 < n := by omega
  -- By induction on the number of steps back from `p`.
  induction hj using Nat.decreasingInduction with
  | self =>
    rw [slot_dist (hhome a) hp]
    exact ⟨a, ha, le_rfl⟩
  | of_succ k hk ih =>
    obtain ⟨b, hb, hle⟩ := ih
    rcases h.step hn hb with hzero | ⟨c, hc, hstep⟩
    · rw [hzero, dist_self (slot_lt hn)] at hle
      omega
    · exact ⟨c, hc, by omega⟩

/-- With an empty slot, a value that moves on by one gets farther from home. -/
theorem Ordered.dist_next {z : ℕ} (hz : z < n) (hempty : t z = none) (hp : p < n)
    (ha : t p = some a) :
    dist n (home a) (slot n p 1) = dist n (home a) p + 1 := by
  have hzlt := dist_lt (h := home a) (p := z) (show 0 < n by omega)
  refine dist_add (hhome a) hp ?_
  by_contra hnot
  obtain ⟨b, hb, _⟩ := h.run hhome hp ha (dist n (home a) z) (by omega)
  rw [slot_dist (hhome a) hz, hempty] at hb
  cases hb

end

/-- A search for `a` may come as far as the slot `p`: the slots before are occupied by values at
least as far from home. -/
def Fits (n : ℕ) (home : α → ℕ) (t : ℕ → Option α) (a : α) (p : ℕ) : Prop :=
  ∀ i, i < dist n (home a) p → ∃ b, t (slot n (home a) i) = some b ∧
    i ≤ dist n (home b) (slot n (home a) i)

/-- The slot before one that a search for `a` has come to. -/
theorem Fits.before (h : Fits n home t a p) (hhome : ∀ a, home a < n) (hq : q < n)
    (hp : p = slot n q 1) (hne : home a ≠ p) :
    ∃ b, t q = some b ∧ dist n (home a) p ≤ dist n (home b) q + 1 := by
  have hsucc : dist n (home a) p = dist n (home a) q + 1 := by
    rw [hp]
    exact dist_succ (hhome a) hq (hp ▸ hne)
  obtain ⟨b, hb, hle⟩ := h (dist n (home a) q) (by omega)
  rw [slot_dist (hhome a) hq] at hb hle
  exact ⟨b, hb, by omega⟩

/-- Put `a` into the slot `p`, after the values in the `len` slots from there on have moved on by
one. -/
def insertAt (n : ℕ) (t : ℕ → Option α) (p len : ℕ) (a : α) (q : ℕ) : Option α :=
  if q = p then some a else if dist n p q ≤ len then t (slot n p (dist n p q - 1)) else t q

/-- The new element is put in its slot. -/
theorem insertAt_slot_zero (hp : p < n) : insertAt n t p len a (slot n p 0) = some a := by
  rw [slot_zero hp, insertAt, if_pos rfl]

/-- The elements behind it move on by one. -/
theorem insertAt_slot_moved (hp : p < n) (hi : i + 1 < n) (hlen : i + 1 ≤ len) :
    insertAt n t p len a (slot n p (i + 1)) = t (slot n p i) := by
  rw [insertAt, if_neg (slot_ne hp hi (Nat.succ_pos i)), dist_slot hp hi, if_pos hlen,
    Nat.add_sub_cancel]

/-- Others stay. -/
theorem insertAt_slot_kept (hp : p < n) (hi : i < n) (hlen : len < i) :
    insertAt n t p len a (slot n p i) = t (slot n p i) := by
  rw [insertAt, if_neg (slot_ne hp hi (by omega)), dist_slot hp hi, if_neg (by omega)]

/-- Putting a value where a search for it may stop keeps the order. -/
theorem Ordered.insertAt (h : Ordered n home t) (hhome : ∀ a, home a < n) (hp : p < n)
    (hlen : len < n) (hfits : Fits n home t a p)
    (hoccupied : ∀ i, i < len → ∃ b, t (slot n p i) = some b) (hempty : t (slot n p len) = none)
    (hless : 0 < len → ∀ b, t p = some b → dist n (home b) p < dist n (home a) p) :
      Ordered n home (RobinHood.insertAt n t p len a) := by
  have hn : 0 < n := by omega
  intro q hq c hc
  obtain ⟨i, hi, rfl⟩ := exists_slot hp hq
  rw [slot_slot] at hc ⊢
  rcases lt_or_ge (i + 1) n with hin | hin
  · rcases lt_or_ge len (i + 1) with hend | hmoved
    · rw [insertAt_slot_kept hp hin hend] at hc
      rcases lt_or_eq_of_le (Nat.le_of_lt_succ hend) with hbeyond | rfl
      · -- Behind the moved values nothing has changed.
        rw [insertAt_slot_kept hp hi hbeyond]
        exact h.step hn hc
      · -- The slot before was empty.
        rcases h.step hn hc with hzero | ⟨b, hb, _⟩
        · exact .inl hzero
        · rw [hempty] at hb
          cases hb
    · -- Both values have moved, or the new one is before.
      rw [insertAt_slot_moved hp hin hmoved] at hc
      have hdist := h.dist_next hhome (slot_lt hn) hempty (slot_lt hn) hc
      rw [slot_slot] at hdist
      cases i with
      | zero =>
        rw [insertAt_slot_zero hp, hdist]
        rw [slot_zero hp] at hc ⊢
        exact .inr ⟨a, rfl, Nat.succ_le_succ (le_of_lt (hless (by omega) c hc))⟩
      | succ i =>
        obtain ⟨b, hb⟩ := hoccupied i (by omega)
        have hdistb := h.dist_next hhome (slot_lt hn) hempty (slot_lt hn) hb
        rw [slot_slot] at hdistb
        rw [insertAt_slot_moved hp hi (by omega), hdist]
        refine .inr ⟨b, hb, ?_⟩
        rcases h.step hn hc with hzero | ⟨b', hb', hle⟩
        · rw [hzero, dist_self (slot_lt hn)]
          omega
        · rw [hb] at hb'
          cases hb'
          omega
  · -- The next slot is `p` itself.
    have hlast : i + 1 = n := by omega
    rw [hlast, slot_self hp] at hc ⊢
    rw [RobinHood.insertAt, if_pos rfl] at hc
    cases hc
    by_cases hhere : home a = p
    · exact .inl hhere
    · obtain ⟨b, hb, hle⟩ :=
        hfits.before hhome (slot_lt hn)
          (show p = slot n (slot n p i) 1 by rw [slot_slot, hlast, slot_self hp]) hhere
      refine .inr ⟨b, ?_, hle⟩
      rcases lt_or_ge len i with hbeyond | hge
      · rwa [insertAt_slot_kept hp hi hbeyond]
      · obtain rfl : i = len := by omega
        rw [hempty] at hb
        cases hb

/-- Take the value out of the slot `p`, and let the values in the slots after it move back by one,
up to the slot at distance `len`. -/
def removeAt (n : ℕ) (t : ℕ → Option α) (p len : ℕ) (q : ℕ) : Option α :=
  if dist n p q + 1 < len then t (slot n q 1) else if dist n p q + 1 = len then none else t q

/-- The elements behind it move back by one. -/
theorem removeAt_slot_moved (hp : p < n) (hi : i < n) (hlen : i + 1 < len) :
    removeAt n t p len (slot n p i) = t (slot n p (i + 1)) := by
  rw [removeAt, dist_slot hp hi, if_pos hlen, slot_slot]

/-- The last slot of the run gets free. -/
theorem removeAt_slot_last (hp : p < n) (hi : i < n) (hlen : i + 1 = len) :
    removeAt n t p len (slot n p i) = none := by
  rw [removeAt, dist_slot hp hi, if_neg (by omega), if_pos hlen]

/-- Others stay. -/
theorem removeAt_slot_kept (hp : p < n) (hi : i < n) (hlen : len ≤ i) :
    removeAt n t p len (slot n p i) = t (slot n p i) := by
  rw [removeAt, dist_slot hp hi, if_neg (by omega), if_neg (by omega)]

/-- Taking out a value keeps the order, when those after it that are not at home move back. -/
theorem Ordered.removeAt (h : Ordered n home t) (hhome : ∀ a, home a < n) (hp : p < n)
    (ha : t p = some a) (hlen : 1 ≤ len) (hlenn : len < n)
    (haway : ∀ i, 1 ≤ i → i < len → ∃ b, t (slot n p i) = some b ∧ home b ≠ slot n p i)
    (hstop : ∀ b, t (slot n p len) = some b → home b = slot n p len) :
      Ordered n home (RobinHood.removeAt n t p len) := by
  have hn : 0 < n := by omega
  -- The distance of a value that moves back.
  have hback : ∀ i b, home b ≠ slot n p (i + 1) →
      dist n (home b) (slot n p (i + 1)) = dist n (home b) (slot n p i) + 1 := by
    intro i b hne
    rw [← slot_slot] at hne ⊢
    exact dist_succ (hhome b) (slot_lt hn) hne
  intro q hq c hc
  obtain ⟨i, hi, rfl⟩ := exists_slot hp hq
  rw [slot_slot] at hc ⊢
  rcases lt_or_ge (i + 1) n with hin | hin
  · rcases lt_trichotomy (i + 2) len with hmoved | hlast | hkept
    · -- Both values have moved back.
      rw [removeAt_slot_moved hp hin hmoved] at hc
      rw [removeAt_slot_moved hp hi (by omega)]
      obtain ⟨c', hc', hcaway⟩ := haway (i + 1 + 1) (by omega) (by omega)
      obtain ⟨b, hb, hbaway⟩ := haway (i + 1) (by omega) (by omega)
      rw [hc] at hc'
      cases hc'
      refine .inr ⟨b, hb, ?_⟩
      have hdistc := hback (i + 1) c hcaway
      have hdistb := hback i b hbaway
      rcases h.step hn hc with hzero | ⟨b', hb', hle⟩
      · exact absurd hzero hcaway
      · rw [hb] at hb'
        cases hb'
        omega
    · rw [removeAt_slot_last hp hin (by omega)] at hc
      cases hc
    · rw [removeAt_slot_kept hp hin (by omega)] at hc
      rcases lt_or_eq_of_le (show len ≤ i + 1 by omega) with hbeyond | rfl
      · rw [removeAt_slot_kept hp hi (by omega)]
        exact h.step hn hc
      · exact .inl (hstop c hc)
  · -- The next slot is `p` itself, and what is there now was in the slot after it.
    have hround : i + 1 = n := by omega
    rw [hround, slot_self hp] at hc ⊢
    rw [removeAt_slot_kept hp hi (by omega)]
    have hfirst : RobinHood.removeAt n t p len p = RobinHood.removeAt n t p len (slot n p 0) := by
      rw [slot_zero hp]
    rw [hfirst] at hc
    rcases lt_or_eq_of_le hlen with hmore | rfl
    · rw [removeAt_slot_moved hp hn (by omega)] at hc
      obtain ⟨c', hc', hcaway⟩ := haway 1 le_rfl hmore
      rw [hc] at hc'
      cases hc'
      have hdistc := dist_succ (hhome c) hp hcaway
      by_cases hhere : home c = p
      · exact .inl hhere
      · have hcpos : dist n (home c) p ≠ 0 :=
          fun hzero => hhere (eq_of_dist_eq_zero (hhome c) hp hzero)
        rcases h p hp c hc with hzero | ⟨a', ha', hle⟩
        · exact absurd hzero hcaway
        · rw [ha] at ha'
          cases ha'
          have hpred : slot n (slot n p i) 1 = p := by rw [slot_slot, hround, slot_self hp]
          rcases h _ (slot_lt hn) a (by rw [hpred]; exact ha) with hzero | ⟨b, hb, hle'⟩
          · rw [hpred] at hzero
            rw [hzero, dist_self hp] at hle
            omega
          · rw [hpred] at hle'
            exact .inr ⟨b, hb, by omega⟩
    · rw [removeAt_slot_last hp hn rfl] at hc
      cases hc

/-! ## What the table holds -/

/-- The values of a table, in the order of the slots. -/
def contents (n : ℕ) (t : ℕ → Option α) : List α := (range n).filterMap t

/-- The contents are what the slots hold. -/
theorem mem_contents : a ∈ contents n t ↔ ∃ p, p < n ∧ t p = some a := by
  unfold contents
  rw [mem_filterMap]
  exact ⟨fun ⟨p, hp, ha⟩ => ⟨p, mem_range.mp hp, ha⟩, fun ⟨p, hp, ha⟩ => ⟨p, mem_range.mpr hp, ha⟩⟩

/-- The values of the table, read from the slot `p` on. -/
theorem contents_from (hp : p < n) : List.Perm (contents n t)
    ((range n).filterMap fun i => t (slot n p i)) := by
  have hmap : ((range n).filterMap fun i => t (slot n p i)) =
      ((range n).map (slot n p)).filterMap t := by
    rw [filterMap_map]
    rfl
  rw [hmap]
  exact ((map_slot_perm hp).filterMap t).symm

/-- Functions that agree on a range. -/
theorem filterMap_congr_range {m : ℕ} {f g : ℕ → Option α} (h : ∀ i, i < m → f i = g i) :
    (range m).filterMap f = (range m).filterMap g :=
  filterMap_congr fun i hi => h i (mem_range.mp hi)

/-- The slots up to `m` and those from there on. -/
theorem filterMap_range_add (m r : ℕ) (f : ℕ → Option α) :
    (range (m + r)).filterMap f = (range m).filterMap f ++ (range r).filterMap
      fun i => f (m + i) := by
  rw [range_add, filterMap_append, filterMap_map]
  rfl

/-- The first slot and those after it. -/
theorem filterMap_range_succ (m : ℕ) {f : ℕ → Option α} (hfirst : f 0 = some a) :
    (range (m + 1)).filterMap f = a :: (range m).filterMap fun i => f (i + 1) := by
  rw [range_succ_eq_map, filterMap_cons_some hfirst, filterMap_map]
  rfl

/-- The last slot, when it is empty, and those before it. -/
theorem filterMap_range_none {m : ℕ} {f : ℕ → Option α} (hlast : f m = none) :
    (range (m + 1)).filterMap f = (range m).filterMap f := by
  rw [range_succ, filterMap_append, filterMap_cons_none hlast, filterMap_nil, append_nil]

/-- After a value is put into a table, it holds one value more. -/
theorem contents_insertAt (hp : p < n) (hlen : len < n) (hempty : t (slot n p len) = none) :
    List.Perm (contents n (insertAt n t p len a)) (a :: contents n t) := by
  obtain ⟨r, rfl⟩ : ∃ r, n = len + 1 + r := ⟨n - (len + 1), by omega⟩
  refine (contents_from hp).trans
    (List.Perm.trans (List.Perm.of_eq ?_) ((contents_from hp).symm.cons a))
  have hnew :=
    filterMap_range_succ len (f :=
      fun i => insertAt (len + 1 + r) t p len a (slot (len + 1 + r) p i)) (insertAt_slot_zero hp)
  have hold := filterMap_range_none (f := fun i => t (slot (len + 1 + r) p i)) hempty
  rw [filterMap_range_add (len + 1) r, filterMap_range_add (len + 1) r, hnew, hold, cons_append]
  congr 2
  · exact filterMap_congr_range fun i hi => insertAt_slot_moved hp (by omega) (by omega)
  · exact filterMap_congr_range fun i hi => insertAt_slot_kept hp (by omega) (by omega)

/-- The contents depend on the slots only. -/
theorem contents_congr {u : ℕ → Option α} (hsame : ∀ q, q < n → u q = t q) :
    contents n u = contents n t := filterMap_congr_range hsame

/-- After a value is taken out of a table, it holds one value less. -/
theorem contents_removeAt (hp : p < n) (ha : t p = some a) (hlen : 1 ≤ len)
    (hlenn : len < n) :
    List.Perm (contents n t) (a :: contents n (removeAt n t p len)) := by
  obtain ⟨m, rfl⟩ : ∃ m, len = m + 1 := ⟨len - 1, by omega⟩
  -- Putting the value back gives the table.
  have hback : ∀ q, q < n → t q = insertAt n (removeAt n t p (m + 1)) p m a q := by
    intro q hq
    obtain ⟨i, hi, rfl⟩ := exists_slot hp hq
    cases i with
    | zero => rw [insertAt_slot_zero hp, slot_zero hp, ha]
    | succ i =>
      rcases lt_or_ge m (i + 1) with hkept | hmoved
      · rw [insertAt_slot_kept hp hi hkept, removeAt_slot_kept hp hi hkept]
      · rw [insertAt_slot_moved hp hi hmoved, removeAt_slot_moved hp (by omega) (by omega)]
  rw [contents_congr hback]
  exact contents_insertAt hp (by omega) (removeAt_slot_last hp (by omega) rfl)

/-- A table with fewer values than slots has an empty slot. -/
theorem exists_empty (h : (contents n t).length < n) : ∃ z, z < n ∧ t z = none := by
  by_contra hall
  have hfull : ∀ p ∈ range n, (t p).isSome = true := by
    intro p hp
    refine Option.isSome_iff_ne_none.mpr fun hnone => hall ⟨p, mem_range.mp hp, hnone⟩
  have hlength : (contents n t).length = (range n).length := by
    unfold contents
    rw [length_filterMap_eq_countP]
    exact countP_eq_length.mpr hfull
  rw [length_range] at hlength
  omega

/-- Only the homes of the values count. -/
theorem Ordered.congr {u : ℕ → Option α} (h : Ordered n home t)
    (hsame : ∀ q, q < n → (u q).map home = (t q).map home) :
    Ordered n home u := by
  intro p hp a ha
  have hnext := hsame _ (slot_lt (s := p) (i := 1) (by omega))
  rw [ha] at hnext
  obtain ⟨a', ha', hhome⟩ := Option.map_eq_some_iff.mp hnext.symm
  rcases h p hp a' ha' with hat | ⟨b, hb, hle⟩
  · exact .inl (hhome ▸ hat)
  · have hhere := hsame p hp
    rw [hb] at hhere
    obtain ⟨b', hb', hhome'⟩ := Option.map_eq_some_iff.mp hhere
    exact .inr ⟨b', hb', by rw [hhome', ← hhome]; exact hle⟩

/-- Putting a value into an empty slot moves nothing. -/
theorem insertAt_zero (hp : p < n) (a : α) (hq : q < n) :
    Function.update t p (some a) q = insertAt n t p 0 a q := by
  unfold insertAt
  by_cases hqp : q = p
  · rw [hqp, Function.update_self, if_pos rfl]
  · have hne : dist n p q ≠ 0 := fun hzero => hqp (eq_of_dist_eq_zero hp hq hzero).symm
    rw [Function.update_of_ne hqp, if_neg hqp, if_neg (by omega)]

/-- Two slots hold values that are in the relation, when all pairs of values of the table are. -/
theorem contents_pairwise {R : α → α → Prop} (hsymm : ∀ a b, R a b → R b a)
    (h : (contents n t).Pairwise R) (hp : p < n) (hq : q < n) (hne : p ≠ q) {a b : α}
    (ha : t p = some a) (hb : t q = some b) : R a b := by
  have hslots := pairwise_filterMap.mp h
  have hsymm' : Std.Symm fun p q => ∀ a, t p = some a → ∀ b, t q = some b → R a b :=
    ⟨fun p q hpq b hb a ha => hsymm a b (hpq a ha b hb)⟩
  exact hslots.forall (mem_range.mpr hp) (mem_range.mpr hq) hne a ha b hb

/-- Changing a value in its slot changes no other. -/
theorem contents_update (hp : p < n) (ha : t p = some a) (b : α) :
    ∃ rest, List.Perm (contents n t) (a :: rest) ∧
      List.Perm (contents n (Function.update t p (some b))) (b :: rest) := by
  obtain ⟨m, rfl⟩ : ∃ m, n = m + 1 := ⟨n - 1, by omega⟩
  refine ⟨(range m).filterMap fun i => t (slot (m + 1) p (i + 1)),
    (contents_from hp).trans (List.Perm.of_eq ?_),
    (contents_from hp).trans (List.Perm.of_eq ?_)⟩
  · exact filterMap_range_succ m (f :=
      fun i => t (slot (m + 1) p i)) (by rw [slot_zero hp]; exact ha)
  · rw [filterMap_range_succ m (f :=
      fun i => Function.update t p (some b) (slot (m + 1) p i))
        (by rw [slot_zero hp, Function.update_self])]
    congr 1
    exact filterMap_congr_range fun i hi =>
      Function.update_of_ne (slot_ne hp (by omega) (Nat.succ_pos i)) _ _

/-- Changing a value to one with the same home keeps the order. -/
theorem Ordered.update (h : Ordered n home t) {a b : α} (ha : t p = some a) (hb : home b = home a) :
    Ordered n home (Function.update t p (some b)) := by
  refine h.congr fun q _ => ?_
  by_cases hq : q = p
  · rw [hq, Function.update_self, ha, Option.map_some, Option.map_some, hb]
  · rw [Function.update_of_ne hq]

/-- Taking out a value starts with moving back the one after it. -/
theorem removeAt_succ (hp : p < n) (hlen : 1 ≤ len) (hlenn : len + 1 < n) (hq : q < n) :
    removeAt n (Function.update t p (t (slot n p 1))) (slot n p 1) len q =
      removeAt n t p (len + 1) q := by
  have hn : 0 < n := by omega
  obtain ⟨i, hi, rfl⟩ := exists_slot hp hq
  cases i with
  | zero =>
    -- The first slot is the last one as seen from the second.
    have hround : slot n p 0 = slot n (slot n p 1) (n - 1) := by
      rw [slot_slot, slot_zero hp, show 1 + (n - 1) = n by omega, slot_self hp]
    rw [removeAt_slot_moved hp hi (by omega), hround,
      removeAt_slot_kept (slot_lt hn) (by omega) (by omega), ← hround, slot_zero hp,
      Function.update_self]
  | succ i =>
    have hshift : ∀ j, slot n p (j + 1) = slot n (slot n p 1) j := fun j => by
      rw [slot_slot, add_comm]
    rcases lt_trichotomy (i + 1) len with hlt | heq | hgt
    · rw [removeAt_slot_moved hp hi (by omega), hshift i,
        removeAt_slot_moved (slot_lt hn) (by omega) hlt, ← hshift (i + 1),
        Function.update_of_ne (slot_ne hp (by omega) (Nat.succ_pos _))]
    · rw [removeAt_slot_last hp hi (by omega), hshift i,
        removeAt_slot_last (slot_lt hn) (by omega) heq]
    · rw [removeAt_slot_kept hp hi (by omega), hshift i,
        removeAt_slot_kept (slot_lt hn) (by omega) (by omega), ← hshift i,
        Function.update_of_ne (slot_ne hp hi (Nat.succ_pos i))]

/-! ## Filling a larger table -/

section
variable (h : Ordered n home t) (hhome : ∀ a, home a < n) {s : ℕ} (hs : s < n)
  (hcut : ∀ a, t s = some a → home a = s)
include h hhome hs hcut

/-- From a slot that no run crosses, distances from home do not reach back behind it. -/
theorem Ordered.linear (q : ℕ) (hq : q < n) (a : α) (ha : t (slot n s q) = some a) :
    dist n s (home a) ≤ q ∧ dist n (home a) (slot n s q) = q - dist n s (home a) := by
  have hn : 0 < n := by omega
  have hd : dist n (home a) (slot n s q) ≤ q := by
    induction q generalizing a with
    | zero =>
      rw [slot_zero hs] at ha ⊢
      rw [hcut a ha, dist_self hs]
    | succ q ih =>
      rcases h.step hn ha with hzero | ⟨b, hb, hstep⟩
      · rw [hzero, dist_self (slot_lt hn)]
        exact Nat.zero_le _
      · have := ih (by omega) b hb
        omega
  -- The home is as many slots after `s` as are left.
  have hhomeq : home a = slot n s (q - dist n (home a) (slot n s q)) := by
    refine slot_right_cancel (hhome a) (slot_lt hn)
      (RobinHood.dist_lt (h := home a) (p := slot n s q) hn) ?_
    rw [slot_dist (hhome a) (slot_lt hn), slot_slot,
      show q - dist n (home a) (slot n s q) + dist n (home a) (slot n s q) = q by omega]
  have hr : dist n s (home a) = q - dist n (home a) (slot n s q) := by
    rw [hhomeq, dist_slot hs (by omega), ← hhomeq]
  omega

/-- From a slot that no run crosses, the homes come in order. -/
theorem Ordered.sorted {b : α} (hb : t (slot n s p) = some b) (q : ℕ) (hpq : p < q)
    (hq : q < n) (a : α)
    (ha : t (slot n s q) = some a) : dist n s (home b) ≤ dist n s (home a) := by
  have hn : 0 < n := by omega
  induction q generalizing a with
  | zero => exact absurd hpq (Nat.not_lt_zero p)
  | succ q ih =>
    obtain ⟨hale, hadist⟩ := h.linear hhome hs hcut (q + 1) hq a ha
    obtain ⟨hble, hbdist⟩ := h.linear hhome hs hcut p (by omega) b hb
    rcases h.step hn ha with hzero | ⟨c, hc, hle⟩
    · rw [hzero, dist_slot hs hq]
      omega
    · obtain ⟨hcle, hcdist⟩ := h.linear hhome hs hcut q (by omega) c hc
      have hca : dist n s (home c) ≤ dist n s (home a) := by omega
      rcases lt_or_eq_of_le (Nat.le_of_lt_succ hpq) with hlt | rfl
      · exact (ih hlt (by omega) c hc).trans hca
      · cases hb.symm.trans hc
        exact hca

end

end

/-- The first `q` slots of a table `t` of `n` slots, from `s` on, have been copied to a table `u` of
`N` slots. Each value is in the part of `n` slots, from `s` on, where its home is, and not farther
in it than it was in the old table. -/
structure Copied {α : Type*} (n N s : ℕ) (home : α → ℕ) (t : ℕ → Option α) (u : ℕ → Option α)
    (q : ℕ) : Prop where
  source : ∀ y, y < N → ∀ b, u (slot N s y) = some b →
    ∃ q', q' < q ∧ t (slot n s q') = some b ∧ dist N s (home b) ≤ y ∧
    y / n = dist N s (home b) / n ∧ y % n ≤ q'
  ordered : Ordered N home u
  contents : List.Perm (contents N u) ((range q).filterMap fun i => t (slot n s i))

section
variable {α : Type*} {n N s q : ℕ} {home : α → ℕ} {t u : ℕ → Option α} {a : α}

/-- Nothing is copied at first. -/
theorem copied_zero : Copied n N s home t (fun _ => none) 0 := by
  refine ⟨fun y _ b hb => absurd hb.symm (Option.some_ne_none b), ordered_empty, List.Perm.of_eq ?_⟩
  exact filterMap_eq_nil_iff.mpr fun _ _ => rfl

/-- An empty slot is passed over. -/
theorem Copied.skip (h : Copied n N s home t u q) (hnone : t (slot n s q) = none) :
    Copied n N s home t u (q + 1) := by
  refine ⟨fun y hy b hb => ?_, h.ordered, ?_⟩
  · obtain ⟨q', hq', hrest⟩ := h.source y hy b hb
    exact ⟨q', Nat.lt_succ_of_lt hq', hrest⟩
  · rw [filterMap_range_none (f := fun i => t (slot n s i)) hnone]
    exact h.contents

/-- The homes in the larger table, counted from `s` on, agree with those in the smaller one. -/
theorem dist_mod (hdvd : n ∣ N) (hs : s < n) (hN : 0 < N) {x : ℕ} (hx : x < N) :
    dist N s x % n = dist n s (x % n) := by
  obtain ⟨m, rfl⟩ := hdvd
  have hm : 0 < m := Nat.pos_of_mul_pos_left hN
  unfold dist
  have hsplit : x + n * m - s = x + (n - s) + n * (m - 1) := by
    have : n * m = n * (m - 1) + n := by
      rw [← Nat.mul_succ, Nat.succ_eq_add_one, Nat.sub_add_cancel hm]
    omega
  rw [Nat.mod_mul_right_mod, hsplit, Nat.add_mul_mod_self_left,
    show x % n + n - s = x % n + (n - s) by omega, Nat.mod_add_mod]

section
variable (hdvd : n ∣ N) (hs : s < n) (hN : 0 < N) (hhome : ∀ a, home a < N)
  (hordered : Ordered n (fun a => home a % n) t)
  (hcut : ∀ a, t s = some a → home a % n = s)
include hdvd hs hN hhome hordered hcut

/-- The slot at the same place in its part is empty, so that there is a place for the value there or
before. -/
theorem Copied.room (h : Copied n N s home t u q) (hq : q < n) (ha : t (slot n s q) = some a) :
    dist N s (home a) % n ≤ q ∧ n * (dist N s (home a) / n) + q < N ∧
    u (slot N s (n * (dist N s (home a) / n) + q)) = none := by
  have hn : 0 < n := by omega
  have hr : dist N s (home a) % n ≤ q := by
    rw [dist_mod hdvd hs hN (hhome a)]
    exact (hordered.linear (fun a => Nat.mod_lt _ hn) hs hcut q hq a ha).1
  have hlt : n * (dist N s (home a) / n) + q < N := by
    obtain ⟨m, rfl⟩ := hdvd
    have hpart : dist (n * m) s (home a) / n < m := Nat.div_lt_of_lt_mul (RobinHood.dist_lt hN)
    have := Nat.mul_le_mul_left n (Nat.succ_le_of_lt hpart)
    rw [Nat.succ_eq_add_one, Nat.mul_add, Nat.mul_one] at this
    omega
  refine ⟨hr, hlt, ?_⟩
  cases hu : u (slot N s (n * (dist N s (home a) / n) + q)) with
  | none => rfl
  | some b =>
    obtain ⟨q', hq', _, _, _, hle⟩ := h.source _ hlt b hu
    rw [Nat.mul_add_mod, Nat.mod_eq_of_lt hq] at hle
    omega

/-- The next value is put into the first empty slot from its home on. -/
theorem Copied.place (h : Copied n N s home t u q) (hq : q < n) (ha : t (slot n s q) = some a)
    {j : ℕ} (hj : j < N)
    (hoccupied : ∀ i, i < j → u (slot N (home a) i) ≠ none)
    (hempty : u (slot N (home a) j) = none) :
    Copied n N s home t (Function.update u (slot N (home a) j) (some a)) (q + 1) := by
  have hn : 0 < n := by omega
  have hsN : s < N := lt_of_lt_of_le hs (Nat.le_of_dvd hN hdvd)
  obtain ⟨hr, hlt, hroom⟩ := h.room hdvd hs hN hhome hordered hcut hq ha
  generalize hY : dist N s (home a) = Y
  rw [hY] at hr hlt hroom
  generalize hc : Y / n = c
  generalize hrY : Y % n = r
  have hsplit : n * c + r = Y := by rw [← hc, ← hrY, Nat.div_add_mod]
  rw [hc] at hlt hroom
  have hhomeY : home a = slot N s Y := by rw [← hY, slot_dist hsN (hhome a)]
  have hplace : ∀ i, slot N (home a) i = slot N s (Y + i) := fun i => by rw [hhomeY, slot_slot]
  -- The first empty slot is not behind the place in the part.
  have hjle : Y + j ≤ n * c + q := by
    by_contra hnot
    refine hoccupied (n * c + q - Y) (by omega) ?_
    rw [hplace, show Y + (n * c + q - Y) = n * c + q by omega]
    exact hroom
  have hpart : ∀ i, i ≤ j → (Y + i) / n = c ∧ (Y + i) % n = r + i := by
    intro i hi
    rw [show Y + i = n * c + (r + i) by omega, Nat.mul_add_div hn, Nat.mul_add_mod,
      Nat.div_eq_of_lt (by omega), Nat.mod_eq_of_lt (by omega)]
    exact ⟨add_zero c, rfl⟩
  -- The values before it come from earlier slots of the old table, so their homes are not behind
  -- that of `a`.
  have hfits : Fits N home u a (slot N (home a) j) := by
    intro i hi
    rw [dist_slot (hhome a) hj] at hi
    obtain ⟨b, hb⟩ := Option.ne_none_iff_exists'.mp (hoccupied i hi)
    refine ⟨b, hb, ?_⟩
    rw [hplace] at hb ⊢
    obtain ⟨q', hq', hb', hble, hbpart, _⟩ := h.source (Y + i) (by omega) b hb
    have hsorted := hordered.sorted (fun a => Nat.mod_lt _ hn) hs hcut hb' q hq' hq a ha
    rw [← dist_mod hdvd hs hN (hhome b), ← dist_mod hdvd hs hN (hhome a), hY, hrY] at hsorted
    generalize hZ : dist N s (home b) = Z
    rw [hZ] at hble hbpart hsorted
    rw [(hpart i (by omega)).1] at hbpart
    have hZY : Z ≤ Y := by
      have := Nat.div_add_mod Z n
      rw [← hbpart] at this
      omega
    have hhomeZ : home b = slot N s Z := by rw [← hZ, slot_dist hsN (hhome b)]
    rw [hhomeZ, show Y + i = Z + (Y + i - Z) by omega, ← slot_slot,
      dist_slot (slot_lt hN) (by omega)]
    omega
  have hslot := slot_lt (s := home a) (i := j) hN
  have hempty' : u (slot N (slot N (home a) j) 0) = none := by rwa [slot_zero hslot]
  refine ⟨fun y hy b hb => ?_, ?_, ?_⟩
  · by_cases hyj : y = Y + j
    · subst hyj
      rw [← hplace, Function.update_self] at hb
      cases hb
      refine ⟨q, Nat.lt_succ_self q, ha, ?_, ?_, ?_⟩
      · rw [hY]
        exact Nat.le_add_right Y j
      · rw [hY, hc, (hpart j le_rfl).1]
      · rw [(hpart j le_rfl).2]
        omega
    · rw [hplace, Function.update_of_ne fun heq => hyj (slot_inj hsN hy (by omega) heq)] at hb
      obtain ⟨q', hq', hrest⟩ := h.source y hy b hb
      exact ⟨q', Nat.lt_succ_of_lt hq', hrest⟩
  · refine Ordered.congr ?_ fun p hp => congrArg _ (insertAt_zero hslot a hp)
    exact h.ordered.insertAt hhome hslot hN hfits nofun hempty'
      fun hpos => absurd hpos (lt_irrefl 0)
  · rw [contents_congr fun p hp => insertAt_zero hslot a hp]
    refine (contents_insertAt hslot hN hempty').trans ((h.contents.cons a).trans ?_)
    have hlast := filterMap_cons_some (f := fun i => t (slot n s i)) (l := []) ha
    rw [range_succ, filterMap_append, hlast, filterMap_nil]
    exact (perm_append_singleton a _).symm

end

end

end RobinHood
