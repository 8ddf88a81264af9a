import PgAutoIndex.Ipc.SinvalQueue

/-!
# The invariant of the shared invalidation queue

The buffer holds the published messages from `minMsgNum` to `maxMsgNum`, and no listening backend
that is not in the reset state is behind `minMsgNum`. Numbers are compared with the order of
publication by adding `base`, what wrap-arounds have taken off.

The unlocked `hasMessages` flag needs more. Where it is off, its backend has received everything,
except for a group that is published but whose writer has not yet come to that flag; and the backend
is not in the reset state. While a read is between clearing the flag and its end, the same is known
of the number up to which it will read.

A step is taken by one process and spares the others: they keep their places, their segments and
their locks, and what the flags that are off tell. `Spares.inv` says once that this keeps the
invariant when the process itself keeps what it relies on.
-/

namespace PgAutoIndex.Ipc

open List hiding getElem?_eq_some_iff
open Function

/-! ## Slots -/

/-- Message numbers share a slot when they agree modulo the size of the buffer. -/
theorem slot_eq_iff {a b : ℤ} : slot a = slot b ↔ a % 4096 = b % 4096 := by
  rw [Fin.ext_iff]
  show (a % 4096).toNat = (b % 4096).toNat ↔ _
  omega

/-- A wrap-around does not move a message to another slot. -/
theorem slot_add_of_dvd {a base : ℤ} (h : (4096 : ℤ) ∣ base) : slot (a + base) = slot a := by
  rw [slot_eq_iff]
  omega

/-- Message numbers less than a buffer apart have different slots. -/
theorem slot_ne {a b : ℤ} (hlt : a < b) (hdiff : b < a + 4096) : slot b ≠ slot a := by
  rw [Ne, slot_eq_iff]
  omega

variable {P M : Type} {s s' : State P M} {p q : P} {pc pc' : Pc P M}

/-! ## The invariant -/

/-- An attached backend that receives messages. -/
def Listening (s : State P M) (p : P) : Prop :=
  (s.procState p).active = true ∧ (s.procState p).sendOnly = false

/-- The process is between the update of `maxMsgNum` and the end of its loop over the flags. -/
def Pc.Flagging : Pc P M → Prop
  | insertFlags _ _ => True
  | _ => False

/-- The process has cleared its `hasMessages` flag and not yet decided what to leave in it. -/
def Pc.Cleared : Pc P M → Prop
  | readMax _ _ | readCopy _ _ _ _ => True
  | _ => False

/-- The flag of `p` is still to be set for messages that are published already. -/
def Unflagged (s : State P M) (p : P) : Prop :=
  ∃ w todo data, s.pc w = .insertFlags todo data ∧ p ∈ todo

/-- The counters, and the part of the order that the buffer holds. -/
structure Counters (s : State P M) : Prop where
  min_nonneg : 0 ≤ s.minMsgNum
  min_lt : s.minMsgNum < MSGNUMWRAPAROUND
  min_le : s.minMsgNum ≤ s.maxMsgNum
  max_le : s.maxMsgNum ≤ s.minMsgNum + 4096
  length_log : (s.log.length : ℤ) = s.maxMsgNum + s.base
  dvd_base : (4096 : ℤ) ∣ s.base
  buffer : ∀ i : ℕ, s.minMsgNum + s.base ≤ i → i < s.log.length →
    s.log[i]? = some (s.buffer (slot i))

/-- What the flag of `p` tells when it is off, with `n` the number up to which `p` has read. -/
def UpTo (s : State P M) (p : P) (n : ℤ) : Prop :=
  s.finished ≤ n + s.base ∧ (¬Unflagged s p → n = s.maxMsgNum)

/-- A listening backend: its segment, its place in the queue, and what its flag tells. -/
structure BackendOk (s : State P M) (p : P) : Prop where
  since_le : s.since p ≤ s.log.length
  received : s.received p <+: s.log.drop (s.since p)
  cursor : (s.procState p).resetState = false →
    s.minMsgNum ≤ (s.procState p).nextMsgNum ∧ (s.procState p).nextMsgNum ≤ s.maxMsgNum ∧
      (s.procState p).nextMsgNum + s.base = s.since p + (s.received p).length
  flag : ¬(s.pc p).Cleared → (s.procState p).hasMessages = false →
    (s.procState p).resetState = false ∧ UpTo s p (s.procState p).nextMsgNum

/-- A backend in the copying loop up to `max`. -/
structure CopyOk (s : State P M) (p : P) (before : ℕ) (max : ℤ) (data : List M) : Prop where
  not_reset : (s.procState p).resetState = false
  next_le : (s.procState p).nextMsgNum ≤ max
  max_le : max ≤ s.maxMsgNum
  before_le : before ≤ max + s.base
  data : data <:+ s.received p
  flag : (s.procState p).hasMessages = false → UpTo s p max

/-- What a process relies on where it is. -/
def LocalOk (s : State P M) (p : P) : Pc P M → Prop
  | .insertCheck group _ | .insertRelock group _ => group.length ≤ WRITE_QUANTUM
  | .insertWrite done rest _ max =>
    max = s.maxMsgNum + done.length ∧
      s.maxMsgNum + done.length + rest.length ≤ s.minMsgNum + 4096 ∧
      ∀ (j : ℕ) (m : M), done[j]? = some m → s.buffer (slot (s.log.length + j)) = m
  | .readTest _ | .readLock _ => Listening s p
  | .readClear _ before | .readMax _ before => Listening s p ∧ before ≤ s.log.length
  | .readCopy _ before max data => Listening s p ∧ CopyOk s p before max data
  | .readReturn datasize before (some data) =>
    Listening s p ∧ data <:+ s.received p ∧
      (data.length < datasize → before ≤ s.since p + (s.received p).length)
  | _ => True

/-- The invariant of the queue. -/
structure Inv (s : State P M) : Prop where
  counters : Counters s
  procs_nodup : s.pgprocnos.Nodup
  mem_procs : ∀ p, p ∈ s.pgprocnos ↔ (s.procState p).active = true
  holdsWrite : ∀ p, (s.pc p).HoldsWrite ↔ s.writeLock = some p
  holdsRead : ∀ p, (s.pc p).HoldsRead ↔ p ∈ s.readLock
  readers_nodup : s.readLock.Nodup
  finished_le : s.finished ≤ s.log.length
  finished_eq : (∀ p, ¬(s.pc p).Flagging) → s.finished = s.log.length
  backend : ∀ p, Listening s p → BackendOk s p
  here : ∀ p, LocalOk s p (s.pc p)

/-- At most one process holds the write lock. -/
theorem Inv.writer_unique (hi : Inv s) (hp : (s.pc p).HoldsWrite)
    (hq : (s.pc q).HoldsWrite) : p = q := by
  have hp' := (hi.holdsWrite p).mp hp
  have hq' := (hi.holdsWrite q).mp hq
  rw [hp'] at hq'
  exact Option.some.inj hq'

/-- A process that sets flags holds the write lock. -/
theorem Pc.Flagging.holdsWrite (h : pc.Flagging) : pc.HoldsWrite := by
  cases pc <;> trivial

/-- The invariant holds of the empty queue. -/
theorem inv_init (buffer : Fin MAXNUMMESSAGES → M) : Inv (State.init buffer : State P M) where
  counters :=
    { min_nonneg := Int.le_refl 0
      min_lt := show (0 : ℤ) < MSGNUMWRAPAROUND by decide
      min_le := Int.le_refl 0
      max_le := show (0 : ℤ) ≤ 0 + 4096 by decide
      length_log := rfl
      dvd_base := ⟨0, rfl⟩
      buffer := nofun }
  procs_nodup := nodup_nil
  mem_procs := by simp [State.init]
  holdsWrite := by simp [State.init, Pc.HoldsWrite]
  holdsRead := by simp [State.init, Pc.HoldsRead]
  readers_nodup := nodup_nil
  finished_le := Nat.le_refl 0
  finished_eq := fun _ => rfl
  backend := fun p hp => absurd hp.1 (by simp [State.init])
  here := fun p => trivial

/-! ## What a step leaves to the others -/

/-- What a step of `p` leaves to the others. -/
structure Spares (s s' : State P M) (p : P) : Prop where
  min : s'.minMsgNum = s.minMsgNum
  base : s'.base = s.base
  max_le : s.maxMsgNum ≤ s'.maxMsgNum
  log : s.log <+: s'.log
  /-- Only a writer touches the queue. -/
  queue : (s.pc p).HoldsWrite ∨ s'.buffer = s.buffer ∧ s'.log = s.log ∧ s'.maxMsgNum = s.maxMsgNum
  proc : ∀ q, q ≠ p → s'.procState q = s.procState q ∨
    s'.procState q = { s.procState q with hasMessages := true }
  pc : ∀ q, q ≠ p → s'.pc q = s.pc q
  since : ∀ q, q ≠ p → s'.since q = s.since q
  received : ∀ q, q ≠ p → s'.received q = s.received q
  writers : ∀ q, q ≠ p → (s'.writeLock = some q ↔ s.writeLock = some q)
  readers : ∀ q, q ≠ p → (q ∈ s'.readLock ↔ q ∈ s.readLock)
  upTo : ∀ q, Listening s q → (s'.procState q).hasMessages = false → ∀ n, UpTo s q n → UpTo s' q n

/-- What holds of one process. -/
structure ProcOk (s : State P M) (p : P) : Prop where
  write : (s.pc p).HoldsWrite ↔ s.writeLock = some p
  read : (s.pc p).HoldsRead ↔ p ∈ s.readLock
  backend : Listening s p → BackendOk s p
  here : LocalOk s p (s.pc p)

theorem Inv.proc (hi : Inv s) (p : P) : ProcOk s p :=
  ⟨hi.holdsWrite p, hi.holdsRead p, hi.backend p, hi.here p⟩

namespace Spares

section
variable (hproc : s'.procState q = s.procState q ∨
  s'.procState q = { s.procState q with hasMessages := true })
include hproc

/-- A flag that is set changes nothing else of its backend. -/
theorem listening :
    (Listening s' q ↔ Listening s q) ∧ (s'.procState q).resetState = (s.procState q).resetState ∧
      (s'.procState q).nextMsgNum = (s.procState q).nextMsgNum ∧
      ((s'.procState q).hasMessages = false → (s.procState q).hasMessages = false) := by
  unfold Listening
  rcases hproc with h | h
  · rw [h]
    exact ⟨Iff.rfl, rfl, rfl, id⟩
  · rw [h]
    exact ⟨Iff.rfl, rfl, rfl, nofun⟩

/-- A backend whose own parts are left alone, up to its flag. -/
theorem backendOk (h : Spares s s' p)
    (hsince : s'.since q = s.since q) (hreceived : s'.received q = s.received q)
    (hcleared : (s'.pc q).Cleared ↔ (s.pc q).Cleared)
    (hlisten : Listening s q) (hb : BackendOk s q) : BackendOk s' q := by
  obtain ⟨-, hreset, hnext, hoff⟩ := listening hproc
  have hmax := h.max_le
  refine ⟨?_, ?_, fun hstays => ?_, fun hnot hflag => ?_⟩
  · rw [hsince]
    exact hb.since_le.trans h.log.length_le
  · rw [hsince, hreceived]
    exact hb.received.trans (h.log.drop _)
  · rw [hreset] at hstays
    rw [hnext, h.min, h.base, hsince, hreceived]
    obtain ⟨hmin, hle, hplace⟩ := hb.cursor hstays
    exact ⟨hmin, by omega, hplace⟩
  · rw [hcleared] at hnot
    rw [hreset, hnext]
    obtain ⟨hstays, hup⟩ := hb.flag hnot (hoff hflag)
    exact ⟨hstays, h.upTo q hlisten hflag _ hup⟩

/-- What a process relies on, in a place that is not the copying of messages into the buffer. -/
theorem localOk (h : Spares s s' p)
    (hsince : s'.since q = s.since q) (hreceived : s'.received q = s.received q)
    (hwrite : ∀ done rest data max, pc = .insertWrite done rest data max → LocalOk s' q pc)
    (hl : LocalOk s q pc) : LocalOk s' q pc := by
  obtain ⟨hlisten, hreset, hnext, hoff⟩ := listening hproc
  have hmax := h.max_le
  have hlog := h.log.length_le
  cases pc with
  | insertWrite done rest data max => exact hwrite done rest data max rfl
  | readTest datasize | readLock datasize => exact hlisten.mpr hl
  | readClear datasize before | readMax datasize before => exact ⟨hlisten.mpr hl.1, hl.2.trans hlog⟩
  | readCopy datasize before max data =>
    obtain ⟨hlist, hcopy⟩ := hl
    have hle := hcopy.max_le
    refine ⟨hlisten.mpr hlist, ?_, ?_, by omega, ?_, ?_, fun hflag =>
      h.upTo q hlist hflag _ (hcopy.flag (hoff hflag))⟩
    · rw [hreset]
      exact hcopy.not_reset
    · rw [hnext]
      exact hcopy.next_le
    · rw [h.base]
      exact hcopy.before_le
    · rw [hreceived]
      exact hcopy.data
  | readReturn datasize before result =>
    cases result with
    | none => trivial
    | some data =>
      unfold LocalOk at hl ⊢
      rwa [hlisten, hreceived, hsince]
  | _ => exact hl

end

/-- The other processes keep what holds of them. -/
theorem procOk (h : Spares s s' p) (hi : Inv s) (hq : q ≠ p) : ProcOk s' q := by
  have hpc := h.pc q hq
  refine ⟨?_, ?_, fun hlisten => ?_, ?_⟩
  · rw [hpc, h.writers q hq]
    exact hi.holdsWrite q
  · rw [hpc, h.readers q hq]
    exact hi.holdsRead q
  · have hlisten := (listening (h.proc q hq)).1.mp hlisten
    exact h.backendOk (h.proc q hq) (h.since q hq) (h.received q hq) (by rw [hpc]) hlisten
      (hi.backend q hlisten)
  · rw [hpc]
    refine h.localOk (h.proc q hq) (h.since q hq) (h.received q hq)
      (fun done rest data max hwrite => ?_) (hi.here q)
    -- a process that copies into the buffer is the only writer
    rcases h.queue with hp | ⟨hbuffer, hlog, hmax⟩
    · exact absurd (hi.writer_unique (by rw [hwrite]; trivial) hp) hq
    · have hl := hi.here q
      rw [hwrite] at hl ⊢
      unfold LocalOk at hl ⊢
      rwa [hmax, h.min, hbuffer, hlog]

/-- A step keeps the invariant when the process that takes it keeps what holds of it. -/
theorem inv (h : Spares s s' p) (hi : Inv s) (hown : ProcOk s' p) (hcounters : Counters s')
    (hprocs : s'.pgprocnos.Nodup)
    (hmem : ∀ q, q ∈ s'.pgprocnos ↔ (s'.procState q).active = true) (hnodup : s'.readLock.Nodup)
    (hle : s'.finished ≤ s'.log.length)
    (hfinished : (∀ q, ¬(s'.pc q).Flagging) → s'.finished = s'.log.length) : Inv s' := by
  have hall : ∀ q, ProcOk s' q := fun q => by
    by_cases hq : q = p
    · exact hq ▸ hown
    · exact h.procOk hi hq
  exact ⟨hcounters, hprocs, hmem, fun q => (hall q).write, fun q =>
    (hall q).read, hnodup, hle, hfinished, fun q => (hall q).backend, fun q => (hall q).here⟩

end Spares

variable [DecidableEq P]

/-! ## Steps of one process on its own parts -/

/-- A process moves, and its own parts and the locks change. -/
def State.own (s : State P M) (p : P) (st : ProcState) (since : ℕ) (received : List M) (pc : Pc P M)
    (writeLock : Option P) (readLock : List P) : State P M :=
  { s with
    procState := update s.procState p st
    since := update s.since p since
    received := update s.received p received
    pc := update s.pc p pc
    writeLock := writeLock
    readLock := readLock }

/-- The locks change on behalf of `p`, who comes to `pc`. -/
structure LocksOk (s : State P M) (p : P) (pc : Pc P M) (writeLock : Option P)
    (readLock : List P) : Prop where
  writer : pc.HoldsWrite ↔ writeLock = some p
  writers : ∀ q, q ≠ p → (writeLock = some q ↔ s.writeLock = some q)
  reader : pc.HoldsRead ↔ p ∈ readLock
  readers : ∀ q, q ≠ p → (q ∈ readLock ↔ q ∈ s.readLock)
  nodup : readLock.Nodup

omit [DecidableEq P] in
/-- The locks stay as they are. -/
theorem Inv.sameLocks (hi : Inv s) (hwrite : pc.HoldsWrite ↔ (s.pc p).HoldsWrite)
    (hread : pc.HoldsRead ↔ (s.pc p).HoldsRead) :
    LocksOk s p pc s.writeLock s.readLock :=
  ⟨hwrite.trans (hi.holdsWrite p), fun _ _ => Iff.rfl, hread.trans (hi.holdsRead p),
    fun _ _ => Iff.rfl, hi.readers_nodup⟩

/-- A reader leaves. -/
theorem Inv.leaveRead (hi : Inv s) (hwrite : pc.HoldsWrite ↔ (s.pc p).HoldsWrite)
    (hread : ¬pc.HoldsRead) :
    LocksOk s p pc s.writeLock (s.readLock.erase p) where
  writer := hwrite.trans (hi.holdsWrite p)
  writers _ _ := Iff.rfl
  reader := by simp [hread, hi.readers_nodup.mem_erase_iff]
  readers q hq := by simp [hi.readers_nodup.mem_erase_iff, hq]
  nodup := hi.readers_nodup.erase p

section Own

variable {st : ProcState} {since : ℕ} {received : List M} {writeLock : Option P}
  {readLock procs : List P}

section
variable (hflag : ¬(s.pc p).Flagging) (hflag' : ¬pc.Flagging)
include hflag hflag'

/-- A step between places where no flags are set leaves every pending flag pending. -/
theorem unflagged_goto : Unflagged (s.goto p pc) q ↔ Unflagged s q := by
  have hne : ∀ {pc₀ : Pc P M} {todo data}, ¬pc₀.Flagging → pc₀ ≠ .insertFlags todo data := by
    rintro pc₀ todo data hnot rfl
    exact hnot trivial
  constructor
  · rintro ⟨w, todo, data, hw, hq⟩
    by_cases hwp : w = p
    · subst hwp
      exact absurd ((update_self _ _ _).symm.trans hw) (hne hflag')
    · exact ⟨w, todo, data, (update_of_ne hwp _ _).symm.trans hw, hq⟩
  · rintro ⟨w, todo, data, hw, hq⟩
    have hwp : w ≠ p := by
      rintro rfl
      exact hne hflag hw
    exact ⟨w, todo, data, (update_of_ne hwp _ _).trans hw, hq⟩

theorem upTo_own (n : ℤ) :
    UpTo { s.own p st since received pc writeLock readLock with pgprocnos := procs } q n ↔
    UpTo s q n :=
  and_congr_right fun _ => imp_congr_left (not_congr (unflagged_goto hflag hflag'))

theorem spares_own (hlocks : LocksOk s p pc writeLock readLock) :
    Spares s { s.own p st since received pc writeLock readLock with pgprocnos := procs } p where
  min := rfl
  base := rfl
  max_le := Int.le_refl _
  log := prefix_rfl
  queue := .inr ⟨rfl, rfl, rfl⟩
  proc _ hq := .inl (update_of_ne hq _ _)
  pc _ hq := update_of_ne hq _ _
  since _ hq := update_of_ne hq _ _
  received _ hq := update_of_ne hq _ _
  writers := hlocks.writers
  readers := hlocks.readers
  upTo _ _ _ _ := (upTo_own hflag hflag' _).mpr

end

/-- The array of backends stays as it is. -/
theorem Inv.sameProcs (hi : Inv s) (hactive : st.active = (s.procState p).active) (q : P) :
    q ∈ s.pgprocnos ↔ if q = p then st.active = true else q ∈ s.pgprocnos := by
  split_ifs with hq
  · rw [hq, hactive, hi.mem_procs]
  · rfl

/-- A step of `p` on its own parts keeps the invariant, if it does so for `p`. -/
theorem Inv.own (hi : Inv s) (p : P) (st : ProcState) (since : ℕ) (received : List M) (pc : Pc P M)
    (hs' : s' = { s.own p st since received pc writeLock readLock with pgprocnos := procs })
    (hlocks : LocksOk s p pc writeLock readLock)
    (hflag : ¬(s.pc p).Flagging) (hflag' : ¬pc.Flagging) (hnodup : procs.Nodup)
    (hmem : ∀ q, q ∈ procs ↔ if q = p then st.active = true else q ∈ s.pgprocnos)
    (hb : st.active = true ∧ st.sendOnly = false →
      since ≤ s.log.length ∧ received <+: s.log.drop since ∧
      (st.resetState = false → s.minMsgNum ≤ st.nextMsgNum ∧ st.nextMsgNum ≤ s.maxMsgNum ∧
        st.nextMsgNum + s.base = since + received.length) ∧
      (¬pc.Cleared → st.hasMessages = false → st.resetState = false ∧ UpTo s p st.nextMsgNum))
    (hl : LocalOk { s.own p st since received pc writeLock readLock with pgprocnos :=
      procs } p pc) : Inv s' := by
  obtain ⟨hpc, hproc, hsince, hreceived⟩ : s'.pc p = pc ∧ s'.procState p = st ∧ s'.since p = since ∧
      s'.received p = received := by
    subst hs'
    exact ⟨update_self .., update_self .., update_self .., update_self ..⟩
  subst hs'
  have hspares : Spares s { s.own p st since received pc writeLock readLock with pgprocnos :=
    procs } p := spares_own hflag hflag' hlocks
  refine hspares.inv hi ⟨?_, ?_, fun hlisten => ?_, ?_⟩ { hi.counters with } hnodup
    (fun q => ?_) hlocks.nodup
    hi.finished_le fun hnone => hi.finished_eq fun q => ?_
  · rw [hpc]
    exact hlocks.writer
  · rw [hpc]
    exact hlocks.reader
  · rw [Listening, hproc] at hlisten
    obtain ⟨h₁, h₂, h₃, h₄⟩ := hb hlisten
    refine ⟨?_, ?_, ?_, ?_⟩
    · rwa [hsince]
    · rwa [hsince, hreceived]
    · rwa [hproc, hsince, hreceived]
    · rwa [hpc, hproc, upTo_own hflag hflag']
  · rwa [hpc]
  · rw [hmem q]
    split_ifs with hq
    · rw [hq, hproc]
    · rw [show ({ s.own p st since received pc writeLock readLock with pgprocnos :=
        procs } : State P M).procState q = s.procState q from update_of_ne hq _ _]
      exact hi.mem_procs q
  · by_cases hq : q = p
    · rwa [hq]
    · exact hspares.pc q hq ▸ hnone q

/-- Moving `p` and the locks on its behalf keeps the invariant, if `p` can rely there on what it
relies on. -/
theorem Inv.move (hi : Inv s) (hlocks : LocksOk s p pc writeLock readLock)
    (hflag : ¬(s.pc p).Flagging)
    (hflag' : ¬pc.Flagging) (hcleared : pc.Cleared ↔ (s.pc p).Cleared) (hl : LocalOk s p pc) :
    Inv ({ s with writeLock := writeLock, readLock := readLock }.goto p pc) := by
  refine hi.own p (s.procState p) (s.since p) (s.received p) pc
    (by simp [State.own, State.goto]) hlocks hflag hflag' hi.procs_nodup (hi.sameProcs rfl)
    (fun hlisten => ?_) ?_
  · have hb := hi.backend p hlisten
    exact ⟨hb.since_le, hb.received, hb.cursor, fun hnot => hb.flag fun h => hnot (hcleared.mpr h)⟩
  · refine (spares_own hflag hflag' hlocks).localOk (.inl (update_self _ _ _)) (update_self _ _ _)
      (update_self _ _ _)
      (fun done rest data max hpc => ?_) hl
    subst hpc
    exact hl

end Own

/-- Two places with the same locks and the same duties. -/
structure Pc.Like (pc pc' : Pc P M) : Prop where
  flagging : ¬pc.Flagging ∧ ¬pc'.Flagging
  cleared : pc'.Cleared ↔ pc.Cleared
  write : pc'.HoldsWrite ↔ pc.HoldsWrite
  read : pc'.HoldsRead ↔ pc.HoldsRead

/-- Moving `p` between such places. -/
theorem Inv.goto (hi : Inv s) (hpc : s.pc p = pc) (hlike : pc.Like pc') (hl : LocalOk s p pc') :
    Inv (s.goto p pc') := by
  subst hpc
  exact hi.move (hi.sameLocks hlike.write hlike.read) hlike.flagging.1 hlike.flagging.2
    hlike.cleared hl

/-- Taking the free write lock. -/
theorem Inv.takeWrite (hi : Inv s) (hfree : s.writeLock = none) (hflag' : ¬pc.Flagging)
    (hcleared : pc.Cleared ↔ (s.pc p).Cleared) (hwrite : pc.HoldsWrite)
    (hread : pc.HoldsRead ↔ (s.pc p).HoldsRead) (hl : LocalOk s p pc) :
      Inv ({ s with writeLock := some p }.goto p pc) := by
  -- Nobody sets flags while the write lock is free.
  have hflag : ¬(s.pc p).Flagging := fun h => by
    cases hfree.symm.trans ((hi.holdsWrite p).mp h.holdsWrite)
  refine hi.move ⟨by simp [hwrite],
    fun q hq => ?_, hread.trans (hi.holdsRead p), fun _ _ => Iff.rfl,
    hi.readers_nodup⟩ hflag hflag' hcleared hl
  rw [hfree]
  simp [Ne.symm hq]

/-! ## Reading -/

omit [DecidableEq P] in
/-- A backend at the end of the order has nothing to read. -/
theorem Inv.upTo_max (hi : Inv s) (p : P) : UpTo s p s.maxMsgNum := by
  have hlength := hi.counters.length_log
  have hfinished := hi.finished_le
  exact ⟨by omega, fun _ => rfl⟩

omit [DecidableEq P] in
/-- A listening backend with unread messages finds the next one in its slot. -/
theorem Inv.next_message (hi : Inv s) (hlisten : Listening s p)
    (hreset : (s.procState p).resetState = false)
    (hlt : (s.procState p).nextMsgNum < s.maxMsgNum) :
    (s.log.drop (s.since p))[(s.received p).length]? =
      some (s.buffer (slot (s.procState p).nextMsgNum)) := by
  obtain ⟨hmin, -, hplace⟩ := (hi.backend p hlisten).cursor hreset
  have hlength := hi.counters.length_log
  have hbuffer :=
    hi.counters.buffer (s.since p + (s.received p).length) (by push_cast; omega) (by omega)
  rw [getElem?_drop, hbuffer]
  push_cast
  rw [← hplace, slot_add_of_dvd hi.counters.dvd_base]

section Reading

variable {datasize max : ℤ} {before : ℕ} {data : List M}

/-- The flag is cleared: what it told is no longer asked for. -/
theorem Inv.readClear (hi : Inv s) (hpc : s.pc p = .readClear datasize before) :
    Inv ((s.setProc p { s.procState p with hasMessages := false }).goto p
      (.readMax datasize before)) := by
  obtain ⟨hlisten, hbefore⟩ : LocalOk s p (.readClear datasize before) := hpc ▸ hi.here p
  have hb := hi.backend p hlisten
  refine hi.own p { s.procState p with hasMessages :=
    false } (s.since p) (s.received p) (.readMax datasize before)
      (by simp [State.own, State.goto, State.setProc])
    (hi.sameLocks (by rw [hpc]; rfl) (by rw [hpc]; rfl)) (by rw [hpc]; exact id) id hi.procs_nodup
    (hi.sameProcs rfl) (fun _ => ⟨hb.since_le, hb.received, hb.cursor, ?_⟩) ?_
  · exact fun hnot => absurd trivial hnot
  · simpa [State.own, LocalOk, Listening] using ⟨hlisten, hbefore⟩

theorem readMaxStep_reset (hreset : (s.procState p).resetState = true) :
    readMaxStep s p datasize before = s.own p
      { s.procState p with nextMsgNum := s.maxMsgNum, resetState := false, signaled := false }
      s.log.length []
      (.readReturn datasize before none) s.writeLock (s.readLock.erase p) := by
  simp [readMaxStep, hreset, State.own, State.goto]

theorem readCopyStep_more (hmore : data.length < datasize ∧ (s.procState p).nextMsgNum < max) :
    readCopyStep s p datasize before max data = s.own p { s.procState p with nextMsgNum :=
      (s.procState p).nextMsgNum + 1 } (s.since p)
      (s.received p ++ [s.buffer (slot (s.procState p).nextMsgNum)])
      (.readCopy datasize before max (data ++ [s.buffer (slot (s.procState p).nextMsgNum)]))
        s.writeLock s.readLock := by
  simp [readCopyStep, hmore, State.own, State.goto]

theorem readCopyStep_done (hend : ¬(data.length < datasize ∧ (s.procState p).nextMsgNum < max)) :
    readCopyStep s p datasize before max data = s.own p (if (s.procState p).nextMsgNum ≥ max then
      { s.procState p with signaled := false } else { s.procState p with hasMessages := true })
        (s.since p) (s.received p)
      (.readReturn datasize before (some data)) s.writeLock (s.readLock.erase p) := by
  simp [readCopyStep, hend, State.own, State.goto, State.setProc]

theorem readMaxStep_read (hreset : (s.procState p).resetState = false) :
    readMaxStep s p datasize before = s.goto p (.readCopy datasize before s.maxMsgNum []) := by
  simp [readMaxStep, hreset]

/-- `maxMsgNum` is fetched by a backend in the reset state: it starts a new segment at the end. -/
theorem Inv.readReset (hi : Inv s) (hpc : s.pc p = .readMax datasize before)
    (hreset : (s.procState p).resetState = true) :
    Inv (readMaxStep s p datasize before) := by
  refine hi.own p _ _ _ _ (readMaxStep_reset hreset) (hi.leaveRead (by rw [hpc]; rfl) id)
    (by rw [hpc]; exact id) id hi.procs_nodup (hi.sameProcs rfl)
    (fun _ => ⟨le_rfl, nil_prefix, fun _ => ⟨hi.counters.min_le, Int.le_refl _, ?_⟩,
      fun _ _ => ⟨rfl, hi.upTo_max p⟩⟩) trivial
  simpa using hi.counters.length_log.symm

/-- `maxMsgNum` is fetched by a backend that is not in the reset state. -/
theorem Inv.readMax (hi : Inv s) (hpc : s.pc p = .readMax datasize before)
    (hreset : (s.procState p).resetState = false) :
    Inv (readMaxStep s p datasize before) := by
  obtain ⟨hlisten, hbefore⟩ : LocalOk s p (.readMax datasize before) := hpc ▸ hi.here p
  have hlength := hi.counters.length_log
  rw [readMaxStep_read hreset]
  exact hi.goto hpc ⟨⟨id, id⟩, Iff.rfl, Iff.rfl, Iff.rfl⟩ ⟨hlisten,
    { not_reset := hreset
      next_le := ((hi.backend p hlisten).cursor hreset).2.1
      max_le := Int.le_refl _
      before_le := by omega
      data := nil_suffix
      flag := fun _ => hi.upTo_max p }⟩

/-- A turn of the copying loop. -/
theorem Inv.readCopy (hi : Inv s) (hpc : s.pc p = .readCopy datasize before max data)
    (hmore : data.length < datasize ∧ (s.procState p).nextMsgNum < max) :
    Inv (readCopyStep s p datasize before max data) := by
  obtain ⟨hlisten, hcopy⟩ : LocalOk s p (.readCopy datasize before max data) := hpc ▸ hi.here p
  have hb := hi.backend p hlisten
  obtain ⟨hmin, -, hplace⟩ := hb.cursor hcopy.not_reset
  have hlt : (s.procState p).nextMsgNum < s.maxMsgNum := Int.lt_of_lt_of_le hmore.2 hcopy.max_le
  have hflag : ¬(s.pc p).Flagging := by
    rw [hpc]
    exact id
  refine hi.own p _ _ _ _ (readCopyStep_more hmore)
    (hi.sameLocks (by rw [hpc]; rfl) (by rw [hpc]; rfl)) hflag id hi.procs_nodup (hi.sameProcs rfl)
    (fun _ => ⟨hb.since_le, ?_, fun _ =>
      ⟨by show s.minMsgNum ≤ (s.procState p).nextMsgNum + 1; omega, hlt, ?_⟩,
        fun hnot => absurd trivial hnot⟩) ?_
  · obtain ⟨hroom, hnext⟩ := getElem?_eq_some_iff.mp (hi.next_message hlisten hcopy.not_reset hlt)
    exact hnext ▸ concat_get_prefix hb.received hroom
  · rw [length_append, length_singleton]
    show (s.procState p).nextMsgNum + 1 + s.base = _
    omega
  · have hsuffix : data ++ [s.buffer (slot (s.procState p).nextMsgNum)] <:+ s.received p ++
        [s.buffer (slot (s.procState p).nextMsgNum)] := by
      obtain ⟨t, ht⟩ := hcopy.data
      exact ⟨t, by rw [← ht, append_assoc]⟩
    refine ⟨?_, ?_, ?_, hcopy.max_le, hcopy.before_le, ?_, ?_⟩
    · simpa [State.own, Listening] using hlisten
    · simpa [State.own] using hcopy.not_reset
    · simpa [State.own] using Int.add_one_le_iff.mpr hmore.2
    · simpa [State.own] using hsuffix
    · intro hoff
      rw [upTo_own hflag id]
      exact hcopy.flag (by simpa [State.own] using hoff)

/-- The end of the copying loop. -/
theorem Inv.readDone (hi : Inv s) (hpc : s.pc p = .readCopy datasize before max data)
    (hend : ¬(data.length < datasize ∧ (s.procState p).nextMsgNum < max)) :
    Inv (readCopyStep s p datasize before max data) := by
  obtain ⟨hlisten, hcopy⟩ : LocalOk s p (.readCopy datasize before max data) := hpc ▸ hi.here p
  have hb := hi.backend p hlisten
  have hle := hcopy.next_le
  have hplace := (hb.cursor hcopy.not_reset).2.2
  have hbefore := hcopy.before_le
  obtain ⟨st, hst⟩ : ∃ st, st = if (s.procState p).nextMsgNum ≥ max then
      { s.procState p with signaled := false } else { s.procState p with hasMessages := true } :=
        ⟨_, rfl⟩
  obtain ⟨hactive, hsendOnly, hnext, hreset⟩ : st.active = (s.procState p).active ∧
    st.sendOnly = (s.procState p).sendOnly ∧
      st.nextMsgNum = (s.procState p).nextMsgNum ∧ st.resetState = (s.procState p).resetState := by
    rw [hst]
    split <;> exact ⟨rfl, rfl, rfl, rfl⟩
  refine hi.own p st _ _ _ (hst ▸ readCopyStep_done hend) (hi.leaveRead (by rw [hpc]; rfl) id)
    (by rw [hpc]; exact id) id hi.procs_nodup
    (hi.sameProcs hactive) (fun _ => ⟨hb.since_le, hb.received, ?_, fun _ hoff => ?_⟩) ?_
  · rw [hreset, hnext]
    exact hb.cursor
  · -- A flag left off says that the backend has read up to `max`.
    rw [hreset, hnext]
    by_cases hge : (s.procState p).nextMsgNum ≥ max
    · rw [hst, if_pos hge] at hoff
      have heq : (s.procState p).nextMsgNum = max := by omega
      rw [heq]
      exact ⟨hcopy.not_reset, hcopy.flag hoff⟩
    · rw [hst, if_neg hge] at hoff
      cases hoff
  · refine ⟨?_, ?_, fun hshort => ?_⟩
    · simpa [State.own, Listening, hactive, hsendOnly] using hlisten
    · simpa [State.own] using hcopy.data
    · simp only [State.own, update_self]
      omega

end Reading

/-! ## Inserting -/

section Inserting

variable {done rest data : List M} {m : M} {max : ℤ} {todo : List P} {r : P}

/-- A step of a writer: it may publish messages and set flags. -/
theorem Inv.writerStep (hi : Inv s) (hp : (s.pc p).HoldsWrite) (hcounters : Counters s')
    (hmin : s'.minMsgNum = s.minMsgNum ∧ s'.base = s.base)
    (hmax : s.maxMsgNum ≤ s'.maxMsgNum) (hlog : s.log <+: s'.log)
    (hsame : s'.since = s.since ∧ s'.received = s.received ∧ s'.readLock = s.readLock)
    (hprocs : s'.pgprocnos = s.pgprocnos)
    (hproc : ∀ q, s'.procState q = s.procState q ∨
      s'.procState q = { s.procState q with hasMessages := true })
    (hpc' : s'.pc = update s.pc p pc') (hread : ¬pc'.HoldsRead)
    (hwrite : pc'.HoldsWrite ∧ s'.writeLock = s.writeLock ∨ ¬pc'.HoldsWrite ∧ s'.writeLock = none)
    (hup : ∀ q, Listening s q → (s'.procState q).hasMessages = false → ∀ n, UpTo s q n →
      UpTo s' q n) (hl : LocalOk s' p pc')
    (hle : s'.finished ≤ s'.log.length)
    (hfinished : (∀ q, ¬(s'.pc q).Flagging) → s'.finished = s'.log.length) : Inv s' := by
  obtain ⟨hsince, hreceived, hreaders⟩ := hsame
  have hlock := (hi.holdsWrite p).mp hp
  have hnot : ¬(s.pc p).HoldsRead ∧ ¬(s.pc p).Cleared := by
    generalize s.pc p = pc at hp
    cases pc <;> first | exact hp.elim | exact ⟨id, id⟩
  have hself : s'.pc p = pc' := by rw [hpc', update_self]
  have hspares : Spares s s' p :=
    { min := hmin.1, base := hmin.2, max_le := hmax, log := hlog, queue := .inl hp
      proc := fun q _ => hproc q
      pc := fun q hq => by rw [hpc', update_of_ne hq]
      since := fun _ _ => by rw [hsince]
      received := fun _ _ => by rw [hreceived]
      writers := fun q hq => by
        rcases hwrite with ⟨-, hw⟩ | ⟨-, hw⟩ <;> rw [hw, hlock]
        simp [Ne.symm hq]
      readers := fun _ _ => by rw [hreaders]
      upTo := hup }
  refine hspares.inv hi ⟨?_, ?_, fun hlisten => ?_, by rwa [hself]⟩ hcounters
    (hprocs ▸ hi.procs_nodup) (fun q => ?_) (hreaders ▸ hi.readers_nodup) hle hfinished
  · rw [hself]
    rcases hwrite with ⟨hw, hw'⟩ | ⟨hw, hw'⟩
    · rw [hw', hlock]
      simp [hw]
    · rw [hw']
      simp [hw]
  · rw [hself, hreaders, ← hi.holdsRead p]
    exact iff_of_false hread hnot.1
  · have hlisten := (Spares.listening (hproc p)).1.mp hlisten
    refine hspares.backendOk (hproc p) (by rw [hsince]) (by rw [hreceived]) ?_ hlisten
      (hi.backend p hlisten)
    rw [hself]
    refine iff_of_false (fun hc => hread ?_) hnot.2
    cases pc' <;> trivial
  · rw [hprocs, hi.mem_procs q]
    rcases hproc q with h | h <;> rw [h]

/-- A message copied to a slot beyond `maxMsgNum` disturbs nobody. -/
theorem Inv.writeSlot (hi : Inv s) (hpc : s.pc p = .insertWrite done (m :: rest) data max) :
    Inv ({ s with buffer := update s.buffer (slot max) m }.goto p
      (.insertWrite (done ++ [m]) rest data (max + 1))) := by
  obtain ⟨hmax, hroom, hdone⟩ : LocalOk s p (.insertWrite done (m :: rest) data max) :=
    hpc ▸ hi.here p
  have hc := hi.counters
  have hlength := hc.length_log
  rw [length_cons] at hroom
  have hslot : slot max = slot (s.log.length + done.length) := by
    rw [hlength, hmax, add_right_comm]
    exact (slot_add_of_dvd hc.dvd_base).symm
  -- The slot is that of no message in the queue, and of no message of the group copied before.
  have hqueue : ∀ i : ℕ, s.minMsgNum + s.base ≤ i → (i : ℤ) < s.log.length + done.length →
      update s.buffer (slot max) m (slot i) = s.buffer (slot i) := by
    intro i hlow hhigh
    rw [hslot]
    exact update_of_ne (slot_ne hhigh (by omega)).symm _ _
  have hpending : ∀ q, Unflagged ({ s with buffer := update s.buffer (slot max) m }.goto p
      (.insertWrite (done ++ [m]) rest data (max + 1))) q ↔ Unflagged s q :=
    fun q => unflagged_goto (by rw [hpc]; exact id) id
  refine hi.writerStep (by rw [hpc]; trivial) ?_ ⟨rfl, rfl⟩ (Int.le_refl _) prefix_rfl
    ⟨rfl, rfl, rfl⟩ rfl (fun _ => .inl rfl) rfl id (.inl ⟨trivial, rfl⟩)
    (fun q _ _ n hup => ?_) ⟨?_, ?_, ?_⟩ hi.finished_le fun hnone => hi.finished_eq fun q => ?_
  · refine { hc with buffer := fun i hlow hhigh => ?_ }
    have hhigh' : i < s.log.length := hhigh
    show s.log[i]? = some (update s.buffer (slot max) m (slot i))
    rw [hqueue i hlow (by omega)]
    exact hc.buffer i hlow hhigh
  · exact ⟨hup.1, fun hun => hup.2 fun h => hun ((hpending q).mpr h)⟩
  · rw [hmax, length_append, length_singleton, add_assoc]
    rfl
  · rw [length_append, length_singleton]
    show s.maxMsgNum + _ + _ ≤ s.minMsgNum + 4096
    omega
  · intro j a ha
    show update s.buffer (slot max) m (slot (s.log.length + j)) = a
    rcases lt_or_ge j done.length with hj | hj
    · rw [getElem?_append_left hj] at ha
      have hminmax := hc.min_le
      have hkept := hqueue (s.log.length + j) (by push_cast; omega) (by push_cast; omega)
      push_cast at hkept
      rw [hkept]
      exact hdone j a ha
    · rw [getElem?_append_right hj] at ha
      obtain ⟨hlt, hget⟩ := List.getElem?_eq_some_iff.mp ha
      rw [length_singleton] at hlt
      obtain rfl : j = done.length := by omega
      have hma : m = a := by simpa using hget
      rw [← hslot, update_self, hma]
  · by_cases hq : q = p
    · rw [hq, hpc]
      exact id
    · have hother : _ = s.pc q :=
        update_of_ne hq (.insertWrite (done ++ [m]) rest data (max + 1)) s.pc
      exact hother ▸ hnone q

/-- The update of `maxMsgNum`: the group enters the order, and every flag is pending. -/
theorem Inv.publish (hi : Inv s) (hpc : s.pc p = .insertWrite done [] data max) :
    Inv ({ s with
      maxMsgNum := max
      log := s.log ++ done }.goto p (.insertFlags s.pgprocnos data)) := by
  obtain ⟨hmax, hroom, hdone⟩ : LocalOk s p (.insertWrite done [] data max) := hpc ▸ hi.here p
  have hc := hi.counters
  have hlength := hc.length_log
  have hminmax := hc.min_le
  have hself : ({ s with
      maxMsgNum := max
      log := s.log ++ done }.goto p (.insertFlags s.pgprocnos data)).pc p =
      .insertFlags s.pgprocnos data := update_self _ _ _
  refine hi.writerStep (by rw [hpc]; trivial) ?_ ⟨rfl, rfl⟩ ?_ (prefix_append _ _)
    ⟨rfl, rfl, rfl⟩ rfl (fun _ => .inl rfl) rfl id (.inl ⟨trivial, rfl⟩)
    (fun q hq _ n hup =>
      ⟨hup.1, fun hun => absurd ⟨p, s.pgprocnos, data, hself, (hi.mem_procs q).mpr hq.1⟩ hun⟩)
        trivial ?_ fun hnone => ?_
  · refine ⟨hc.min_nonneg, hc.min_lt, ?_, ?_, ?_, hc.dvd_base, fun i hlow hhigh => ?_⟩
    · show s.minMsgNum ≤ max
      omega
    · show max ≤ s.minMsgNum + 4096
      omega
    · show ((s.log ++ done).length : ℤ) = max + s.base
      rw [length_append]
      omega
    · show (s.log ++ done)[i]? = some (s.buffer (slot i))
      rcases lt_or_ge i s.log.length with hi' | hi'
      · rw [getElem?_append_left hi']
        exact hc.buffer i hlow hi'
      · -- A message of the group lies where it was copied to.
        have hlt : i - s.log.length < done.length := by
          have : i < (s.log ++ done).length := hhigh
          rw [length_append] at this
          omega
        have hget := getElem?_eq_getElem hlt
        have hcopied := hdone (i - s.log.length) _ hget
        rw [getElem?_append_right hi', hget, ← hcopied]
        congr 3
        omega
  · show s.maxMsgNum ≤ max
    omega
  · show s.finished ≤ (s.log ++ done).length
    rw [length_append]
    exact le_trans hi.finished_le (Nat.le_add_right _ _)
  · exact absurd (by rw [hself]; trivial) (hnone p)

/-- One flag is set. -/
theorem Inv.setFlag (hi : Inv s) (hpc : s.pc p = .insertFlags (r :: todo) data) :
    Inv ((s.setProc r { s.procState r with hasMessages := true }).goto p
      (.insertFlags todo data)) := by
  set s' := (s.setProc r { s.procState r with hasMessages := true }).goto p
    (.insertFlags todo data) with hs'
  have hself : s'.pc p = .insertFlags todo data := update_self _ _ _
  have hproc : ∀ q, q ≠ r → s'.procState q = s.procState q := fun q hq => update_of_ne hq _ _
  have hprocr : s'.procState r = { s.procState r with hasMessages := true } := update_self _ _ _
  -- The flags of the others stay as pending as they were.
  have hpending : ∀ q, q ≠ r → ¬Unflagged s' q → ¬Unflagged s q := by
    rintro q hqr hun ⟨w, todo', data', hw, hmem⟩
    apply hun
    by_cases hwp : w = p
    · rw [hwp, hpc] at hw
      cases hw
      exact ⟨p, todo, data, hself, (mem_cons.mp hmem).resolve_left hqr⟩
    · exact ⟨w, todo', data', (update_of_ne hwp _ _).trans hw, hmem⟩
  refine hi.writerStep (by rw [hpc]; trivial) { hi.counters with } ⟨rfl, rfl⟩
    (Int.le_refl _) prefix_rfl ⟨rfl, rfl, rfl⟩ rfl (fun q => ?_) rfl
    id (.inl ⟨trivial, rfl⟩) (fun q _ hoff n hup => ?_) trivial hi.finished_le fun hnone =>
      absurd (by rw [hself]; trivial) (hnone p)
  · by_cases hq : q = r
    · exact .inr (hq ▸ hprocr)
    · exact .inl (hproc q hq)
  · have hqr : q ≠ r := by
      rintro rfl
      rw [hprocr] at hoff
      cases hoff
    exact ⟨hup.1, fun hun => hup.2 (hpending q hqr hun)⟩

/-- All flags are set: the insertion of the group has ended. -/
theorem Inv.flagsDone (hi : Inv s) (hpc : s.pc p = .insertFlags [] data) :
    Inv ({ s with writeLock := none, finished := s.log.length }.goto p (.insertLock data)) := by
  have hlength := hi.counters.length_log
  -- There was no flag left to set.
  have hflagged : ∀ q, ¬Unflagged s q := by
    rintro q ⟨w, todo, data', hw, hmem⟩
    have hwp : w = p := hi.writer_unique (by rw [hw]; trivial) (by rw [hpc]; trivial)
    rw [hwp, hpc] at hw
    cases hw
    cases hmem
  refine hi.writerStep (by rw [hpc]; trivial) { hi.counters with } ⟨rfl, rfl⟩
    (Int.le_refl _) prefix_rfl ⟨rfl, rfl, rfl⟩ rfl (fun _ => .inl rfl)
    rfl id (.inr ⟨id, rfl⟩) (fun q _ _ n hup => ?_) trivial le_rfl fun _ => rfl
  have hn := hup.2 (hflagged q)
  refine ⟨?_, fun _ => hn⟩
  show (s.log.length : ℤ) ≤ n + s.base
  omega

end Inserting

/-! ## Attaching and detaching -/

/-- Attaching or detaching an idle process, by its own parts. -/
theorem Inv.changeProcs (hi : Inv s) (hpc : s.pc p = .idle) (st : ProcState) (since : ℕ)
    (received : List M) {procs : List P}
    (hnodup : procs.Nodup)
    (hmem : ∀ q, q ∈ procs ↔ if q = p then st.active = true else q ∈ s.pgprocnos)
    (hb : st.active = true → st.resetState = false ∧ st.nextMsgNum = s.maxMsgNum ∧
      since = s.log.length ∧ received = []) :
    Inv { s with
      pgprocnos := procs
      procState := update s.procState p st
      since := update s.since p since
      received := update s.received p received } := by
  refine hi.own p st since received (s.pc p) (by simp [State.own]) (hi.sameLocks Iff.rfl Iff.rfl)
    (by rw [hpc]; exact id) (by rw [hpc]; exact id) hnodup hmem
    (fun hlisten => ?_) (by rw [hpc]; trivial)
  obtain ⟨hreset, hnext, rfl, rfl⟩ := hb hlisten.1
  rw [hnext]
  exact ⟨le_rfl, nil_prefix, fun _ =>
    ⟨hi.counters.min_le, Int.le_refl _, by simpa using hi.counters.length_log.symm⟩,
      fun _ _ => ⟨hreset, hi.upTo_max p⟩⟩

/-- A backend attaches at the end of the order. -/
theorem Inv.attach (hi : Inv s) (sendOnly : Bool) (hpc : s.pc p = .idle) :
    Inv (sharedInvalBackendInit s p sendOnly) := by
  unfold sharedInvalBackendInit
  split_ifs with hactive
  · exact hi
  have hout : p ∉ s.pgprocnos := fun h => hactive ((hi.mem_procs p).mp h)
  refine hi.changeProcs hpc _ _ _ ?_ (fun q => ?_) fun _ => ⟨rfl, rfl, rfl, rfl⟩
  · exact nodup_append.mpr ⟨hi.procs_nodup, nodup_singleton p, by
      rintro a ha b hb rfl
      rw [mem_singleton] at hb
      exact hout (hb ▸ ha)⟩
  · by_cases hq : q = p <;> simp [hq]

/-- The loop finds the entry of `p` at its index. -/
theorem removeProc_eq {p : P} {procs : List P} (hnodup : procs.Nodup) {i n : ℕ}
    (hi : procs[i]? = some p) (hin : i < n) (hn : n ≤ procs.length) :
    removeProc p procs n = some (procs.set i (procs.getLast?.getD p)).dropLast := by
  induction n with
  | zero => cases hin
  | succ n ih =>
    unfold removeProc
    by_cases hp : procs[n]? = some p
    · have hni : n = i := by
        have hlt : n < procs.length := hn
        exact (getElem?_inj hlt hnodup).mp (hp.trans hi.symm)
      rw [if_pos hp, hni]
    · rw [if_neg hp]
      have hne : i ≠ n := by
        rintro rfl
        exact hp hi
      exact ih (by omega) (by omega)

/-- Moving the last entry to the place of `p` removes `p` and nothing else. -/
theorem removeProc_spec {p : P} {procs : List P} (hnodup : procs.Nodup) (hp : p ∈ procs) :
    ∃ procs', removeProc p procs procs.length = some procs' ∧ procs'.Nodup ∧
      ∀ q, q ∈ procs' ↔ q ∈ procs ∧ q ≠ p := by
  obtain ⟨l₁, l₂, rfl⟩ := append_of_mem hp
  have hget : (l₁ ++ p :: l₂)[l₁.length]? = some p := by simp
  have heq := removeProc_eq hnodup hget (by simp) le_rfl
  rw [nodup_middle, nodup_cons] at hnodup
  obtain ⟨hout, hnodup⟩ := hnodup
  -- What is left are the other entries, in another order.
  obtain ⟨procs', hprocs', hperm⟩ : ∃ procs', removeProc p (l₁ ++ p :: l₂) (l₁ ++ p :: l₂).length =
      some procs' ∧ procs' ~ l₁ ++ l₂ := by
    rcases eq_nil_or_concat' l₂ with rfl | ⟨l₃, last, rfl⟩
    · exact ⟨l₁, by rw [heq]; simp, by simp⟩
    · refine ⟨l₁ ++ last :: l₃, ?_,
        (perm_append_left_iff l₁).mpr (perm_append_singleton last l₃).symm⟩
      have hset : (l₁ ++ p :: (l₃ ++ [last])).set l₁.length last =
          (l₁ ++ last :: l₃) ++ [last] := by simp
      have hlast : (l₁ ++ p :: (l₃ ++ [last])).getLast?.getD p = last := by
        rw [← cons_append, ← append_assoc, getLast?_concat]
        rfl
      rw [heq, hlast, hset, dropLast_concat]
  refine ⟨procs', hprocs', hperm.nodup_iff.mpr hnodup, fun q => ?_⟩
  rw [hperm.mem_iff, perm_middle.mem_iff, mem_cons, or_comm]
  exact ⟨fun hq => ⟨.inl hq, fun h => hout (h ▸ hq)⟩, fun hq => hq.1.resolve_right hq.2⟩

/-- A backend detaches; its entry is always found. -/
theorem Inv.detach (hi : Inv s) (hpc : s.pc p = .idle) (hactive : (s.procState p).active = true) :
    ∃ s', cleanupInvalidationState s p = some s' ∧ Inv s' := by
  obtain ⟨procs, hremove, hnodup, hmem⟩ :=
    removeProc_spec hi.procs_nodup ((hi.mem_procs p).mpr hactive)
  refine ⟨_, by rw [cleanupInvalidationState, hremove]; rfl, ?_⟩
  have hinv := hi.changeProcs hpc
    { s.procState p with active := false, nextMsgNum := 0, resetState := false, signaled := false }
    (s.since p) (s.received p)
    hnodup (fun q => ?_) nofun
  · simpa only [update_eq_self] using hinv
  · by_cases hq : q = p <;> simp [hmem, hq]

end PgAutoIndex.Ipc
