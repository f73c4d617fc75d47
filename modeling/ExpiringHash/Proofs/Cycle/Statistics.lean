import ExpiringHash.Cycle
import Mathlib.Algebra.GroupWithZero.Nat

/-!
# What the statistics of the active cycle say

The durations of the ticks that were completed, in the order in which they ended, fall into blocks of
the length of the window, counted from the first one. The cycle keeps two counters beside its
statistics: how far the block under way has come, and what it sums up to. From these the average of
each block is taken as it ends. Sums are those of words, so the average is a mean as long as the
block sums up to less than a word can hold.
-/
namespace ExpiringHash

/-- A call that begins a tick or ends one. -/
inductive CycleCall where
  | start
  | finish (elapsed : Option UInt64)
deriving DecidableEq, Repr

/-- How long the tick took that a call completes. -/
def CycleCall.elapsed? : CycleCall → Option UInt64
  | start => none
  | finish elapsed => elapsed

theorem CycleStats.ext_iff {a b : CycleStats} :
    a = b ↔ a.last = b.last ∧ a.max = b.max ∧ a.average = b.average ∧ a.ticks = b.ticks := by
  cases a
  cases b
  simp

namespace Cycle

variable {c d : Cycle} {es : List UInt64} {k : Nat}

def call (c : Cycle) : CycleCall → Cycle
  | .start => c.start
  | .finish elapsed => c.finish elapsed

/-- The durations of the ticks that were completed. -/
def durations (calls : List CycleCall) : List UInt64 := calls.filterMap CycleCall.elapsed?

/-- The durations of one window, counted from the first tick; the last one may not be complete. -/
def block (es : List UInt64) (k : Nat) : List UInt64 :=
  (es.drop (k * window.toNat)).take window.toNat

/-- Number of windows that are complete. -/
def blocks (es : List UInt64) : Nat := es.length / window.toNat

/-- What durations sum up to. -/
def total (es : List UInt64) : Nat := (es.map UInt64.toNat).sum

theorem toNat_window : window.toNat = 10 := rfl

theorem total_concat (es : List UInt64) (e : UInt64) : total (es ++ [e]) = total es + e.toNat := by
  simp [total]

/-- The mean of durations, rounded down. -/
def mean (es : List UInt64) : Nat := total es / es.length

/-- No duration comes after the block under way. -/
theorem block_eq_nil (h : es.length ≤ k * window.toNat) : block es k = [] := by
  rw [block, List.drop_eq_nil_of_le h, List.take_nil]

/-- One more duration goes to the block under way. -/
theorem block_concat (es : List UInt64) (e : UInt64) :
    block (es ++ [e]) (blocks es) = block es (blocks es) ++ [e] := by
  have hstart : blocks es * window.toNat ≤ es.length := Nat.div_mul_le_self _ _
  have hroom : (es.drop (blocks es * window.toNat)).length < window.toNat := by
    rw [List.length_drop, blocks, toNat_window]
    omega
  rw [block, block, List.drop_append_of_le_length hstart,
    List.take_of_length_le (Nat.le_of_lt hroom), List.take_of_length_le]
  rw [List.length_append]
  exact hroom

/-- One more duration leaves the blocks that are complete. -/
theorem block_concat_of_lt (e : UInt64) (h : k < blocks es) : block (es ++ [e]) k = block es k := by
  rw [blocks, toNat_window] at h
  rw [block, block, toNat_window, List.drop_append_of_le_length (by omega),
    List.take_append_of_le_length (by simp; omega)]

theorem length_block (h : k < blocks es) : (block es k).length = window.toNat := by
  rw [blocks, toNat_window] at h
  rw [block, toNat_window, List.length_take, List.length_drop]
  omega

theorem blocks_concat_of_full (e : UInt64) (h : es.length % window.toNat + 1 = window.toNat) :
    blocks (es ++ [e]) = blocks es + 1 ∧ (es ++ [e]).length = (blocks es + 1) * window.toNat := by
  simp only [blocks, List.length_append, List.length_singleton, toNat_window] at h ⊢
  omega

theorem blocks_concat_of_not_full (e : UInt64) (h : es.length % window.toNat + 1 ≠ window.toNat) :
    blocks (es ++ [e]) = blocks es ∧
      (es ++ [e]).length % window.toNat = es.length % window.toNat + 1 := by
  simp only [blocks, List.length_append, List.length_singleton, toNat_window] at h ⊢
  omega

/-- The number of ticks, the last duration and the longest one are as said. -/
structure Times (c : Cycle) (es : List UInt64) : Prop where
  ticks : c.stats.ticks = .ofNat es.length
  last : c.stats.last = es.getLast?.getD 0
  le_max : ∀ e ∈ es, e ≤ c.stats.max
  max_mem : c.stats.max ∈ es ∨ es = [] ∧ c.stats.max = 0

/-- The average is that of the last complete block, and the counters are those of the one under
way. -/
structure Averages (c : Cycle) (es : List UInt64) : Prop where
  none : blocks es = 0 → c.stats.average = 0
  some : ∀ k, blocks es = k + 1 →
    c.stats.average.toNat = total (block es k) % 2 ^ 64 / window.toNat
  windowTicks : c.windowTicks.toNat = es.length % window.toNat
  windowTotal : c.windowTotal.toNat = total (block es (blocks es)) % 2 ^ 64

/-- The longest duration stays, unless the tick took longer. -/
theorem max_record (c : Cycle) (e : UInt64) :
    (c.record e).stats.max = if c.stats.max ≤ e then e else c.stats.max := rfl

namespace Times

theorem empty : ({} : Cycle).Times [] :=
  ⟨rfl, rfl, fun _ he => absurd he List.not_mem_nil, .inr ⟨rfl, rfl⟩⟩

theorem record (h : c.Times es) (e : UInt64) : (c.record e).Times (es ++ [e]) where
  ticks := by
    change c.stats.ticks + 1 = .ofNat (es ++ [e]).length
    rw [h.ticks, List.length_append, List.length_singleton, UInt64.ofNat_add]
    rfl
  last := by simp [Cycle.record]
  le_max a ha := by
    rw [max_record]
    rcases List.mem_append.mp ha with ha | ha
    · have hle := h.le_max a ha
      split
      · next he => exact UInt64.le_trans hle he
      · exact hle
    · obtain rfl := List.mem_singleton.mp ha
      split
      · exact UInt64.le_refl a
      · next he => exact (UInt64.le_total _ _).resolve_left he
  max_mem := by
    refine .inl (List.mem_append.mpr ?_)
    rw [max_record]
    split
    · exact .inr List.mem_cons_self
    · next he =>
      rcases h.max_mem with hmem | ⟨-, hzero⟩
      · exact .inl hmem
      · rw [hzero] at he
        exact absurd UInt64.zero_le he

end Times

namespace Averages

theorem empty : ({} : Cycle).Averages [] :=
  ⟨fun _ => rfl, fun _ hk => absurd hk (by simp [blocks]), rfl, rfl⟩

theorem toNat_windowTicks_lt (h : c.Averages es) : c.windowTicks.toNat < window.toNat := by
  rw [h.windowTicks]
  exact Nat.mod_lt _ (by decide)

/-- Counting one more tick never wraps around. -/
theorem toNat_windowTicks_succ (h : c.Averages es) :
    (c.windowTicks + 1).toNat = es.length % window.toNat + 1 := by
  have hlt := h.toNat_windowTicks_lt
  rw [toNat_window] at hlt
  rw [← h.windowTicks, UInt64.toNat_add]
  exact Nat.mod_eq_of_lt (by simp; omega)

/-- The counter reaches the window with just those ticks that complete a block. -/
theorem full_eq (h : c.Averages es) :
    (c.windowTicks + 1 == window) = decide (es.length % window.toNat + 1 = window.toNat) := by
  rw [Bool.eq_iff_iff, beq_iff_eq, decide_eq_true_eq, ← UInt64.toNat_inj,
    h.toNat_windowTicks_succ]

theorem toNat_windowTotal_add (h : c.Averages es) (e : UInt64) :
    (c.windowTotal + e).toNat = total (block (es ++ [e]) (blocks es)) % 2 ^ 64 := by
  rw [UInt64.toNat_add, h.windowTotal, block_concat, total_concat, Nat.mod_add_mod]

theorem record_of_full (h : c.Averages es) (e : UInt64)
    (hfull : es.length % window.toNat + 1 = window.toNat) :
    (c.record e).Averages (es ++ [e]) := by
  have hf : (c.windowTicks + 1 == window) = true := by rw [h.full_eq, decide_eq_true hfull]
  obtain ⟨hblocks, hlength⟩ := blocks_concat_of_full e hfull
  simp only [Cycle.record, hf, if_true]
  -- the block that was under way is complete, and the next one is empty
  refine ⟨fun hnone => ?_, fun k hk => ?_, ?_, ?_⟩
  · omega
  · obtain rfl : k = blocks es := by omega
    rw [UInt64.toNat_div, h.toNat_windowTotal_add, h.toNat_windowTicks_succ, hfull]
  · rw [hlength, Nat.mul_mod_left]
    rfl
  · rw [hblocks, block_eq_nil (Nat.le_of_eq hlength)]
    rfl

theorem record_of_not_full (h : c.Averages es) (e : UInt64)
    (hfull : es.length % window.toNat + 1 ≠ window.toNat) :
    (c.record e).Averages (es ++ [e]) := by
  have hf : (c.windowTicks + 1 == window) = false := by rw [h.full_eq, decide_eq_false hfull]
  obtain ⟨hblocks, hticks⟩ := blocks_concat_of_not_full e hfull
  simp only [Cycle.record, hf, Bool.false_eq_true, if_false]
  -- the complete blocks are those there were, and the one under way is longer by one
  refine ⟨fun hnone => h.none (hblocks ▸ hnone), fun k hk => ?_, ?_, ?_⟩
  · rw [hblocks] at hk
    rw [block_concat_of_lt e (by omega)]
    exact h.some k hk
  · rw [h.toNat_windowTicks_succ, hticks]
  · rw [h.toNat_windowTotal_add, hblocks]

theorem record (h : c.Averages es) (e : UInt64) : (c.record e).Averages (es ++ [e]) := by
  by_cases hfull : es.length % window.toNat + 1 = window.toNat
  · exact h.record_of_full e hfull
  · exact h.record_of_not_full e hfull

end Averages

/-- Each call of a series in turn. -/
def callAll (c : Cycle) (calls : List CycleCall) : Cycle := calls.foldl call c

theorem durations_cons (cc : CycleCall) (calls : List CycleCall) :
    durations (cc :: calls) = cc.elapsed?.toList ++ durations calls := by
  rw [durations, List.filterMap_cons]
  cases cc.elapsed? <;> rfl

theorem Times.withState (h : c.Times es) (state : CycleState) :
    ({ c with state } : Cycle).Times es := ⟨h.ticks, h.last, h.le_max, h.max_mem⟩

theorem Averages.withState (h : c.Averages es) (state : CycleState) :
    ({ c with state } : Cycle).Averages es := ⟨h.none, h.some, h.windowTicks, h.windowTotal⟩

/-- Whether a tick is under way is told apart from the durations, and a tick that failed has none. -/
theorem Times.call (h : c.Times es) (cc : CycleCall) :
    (c.call cc).Times (es ++ cc.elapsed?.toList) := by
  rcases cc with _ | _ | e
  · exact (List.append_nil es).symm ▸ h.withState .running
  · exact (List.append_nil es).symm ▸ h.withState .idle
  · exact (h.withState .idle).record e

theorem Averages.call (h : c.Averages es) (cc : CycleCall) :
    (c.call cc).Averages (es ++ cc.elapsed?.toList) := by
  rcases cc with _ | _ | e
  · exact (List.append_nil es).symm ▸ h.withState .running
  · exact (List.append_nil es).symm ▸ h.withState .idle
  · exact (h.withState .idle).record e

/-- What is said of the durations before a series of calls is said of all of them after it. -/
theorem callAll_induction {motive : Cycle → List UInt64 → Prop}
    (hstep : ∀ c es cc, motive c es → motive (c.call cc) (es ++ cc.elapsed?.toList))
    (calls : List CycleCall) (h : motive c es) :
    motive (c.callAll calls) (es ++ durations calls) := by
  induction calls generalizing c es with
  | nil => exact (List.append_nil es).symm ▸ h
  | cons cc calls ih =>
    rw [durations_cons, ← List.append_assoc]
    exact ih (hstep c es cc h)

theorem times_callAll (calls : List CycleCall) :
    (({} : Cycle).callAll calls).Times (durations calls) :=
  callAll_induction (fun _ _ cc h => h.call cc) calls Times.empty

theorem averages_callAll (calls : List CycleCall) :
    (({} : Cycle).callAll calls).Averages (durations calls) :=
  callAll_induction (fun _ _ cc h => h.call cc) calls Averages.empty

theorem Times.max_le (hc : c.Times es) (hd : d.Times es) : c.stats.max ≤ d.stats.max := by
  rcases hc.max_mem with hmem | ⟨-, hzero⟩
  · exact hd.le_max _ hmem
  · rw [hzero]
    exact UInt64.zero_le

theorem Averages.average_eq (hc : c.Averages es) (hd : d.Averages es) :
    c.stats.average = d.stats.average := by
  cases hk : blocks es with
  | zero => rw [hc.none hk, hd.none hk]
  | succ k => rw [← UInt64.toNat_inj, hc.some k hk, hd.some k hk]

/-- The durations alone decide the statistics. -/
theorem stats_callAll_congr {calls others : List CycleCall}
    (h : durations others = durations calls) :
    (({} : Cycle).callAll others).stats = (({} : Cycle).callAll calls).stats := by
  -- both cycles satisfy the same description, which leaves no choice
  have ht := times_callAll others
  have ha := averages_callAll others
  rw [h] at ht ha
  have ht' := times_callAll calls
  refine CycleStats.ext_iff.mpr ⟨?_, ?_, ha.average_eq (averages_callAll calls), ?_⟩
  · rw [ht.last, ht'.last]
  · exact UInt64.le_antisymm (ht.max_le ht') (ht'.max_le ht)
  · rw [ht.ticks, ht'.ticks]

/-- What the statistics are to say of the durations of the ticks that were completed. -/
structure Describes (stats : CycleStats) (es : List UInt64) : Prop where
  ticks : stats.ticks = .ofNat es.length
  toNat_ticks : es.length < 2 ^ 64 → stats.ticks.toNat = es.length
  last : stats.last = es.getLast?.getD 0
  le_max : ∀ e ∈ es, e ≤ stats.max
  max_mem : stats.max ∈ es ∨ es = [] ∧ stats.max = 0
  noAverage : es.length < window.toNat → stats.average = 0
  /-- The average is the mean of the last block that is complete. -/
  average : window.toNat ≤ es.length → total (block es (blocks es - 1)) < 2 ^ 64 →
    (block es (blocks es - 1)).length = window.toNat ∧
      stats.average.toNat = mean (block es (blocks es - 1))

theorem Averages.average_eq_mean (h : c.Averages es) (hlength : window.toNat ≤ es.length)
    (hsum : total (block es (blocks es - 1)) < 2 ^ 64) :
    (block es (blocks es - 1)).length = window.toNat ∧
      c.stats.average.toNat = mean (block es (blocks es - 1)) := by
  have hpos : 0 < blocks es := Nat.div_pos hlength (by decide)
  have hblock : (block es (blocks es - 1)).length = window.toNat :=
    length_block (Nat.sub_lt hpos Nat.one_pos)
  refine ⟨hblock, ?_⟩
  rw [h.some (blocks es - 1) (by omega), Nat.mod_eq_of_lt hsum, mean, hblock]

/-- After any calls on a fresh cycle its statistics describe the ticks that were completed. Calls that
completed the same ticks leave the same statistics, whatever failed in between, and the number of
ticks that the next average is divided by is never 0. -/
theorem stats_describe_completed_ticks (calls : List CycleCall) :
    Describes (({} : Cycle).callAll calls).stats (durations calls) ∧
    (∀ others, durations others = durations calls →
      (({} : Cycle).callAll others).stats = (({} : Cycle).callAll calls).stats) ∧
    (({} : Cycle).callAll calls).windowTicks + 1 ≠ 0 := by
  have ht := times_callAll calls
  have ha := averages_callAll calls
  refine ⟨⟨ht.ticks, fun hlt => ?_, ht.last, ht.le_max, ht.max_mem, fun hlt => ?_,
    fun hlength hsum => ?_⟩, fun others => stats_callAll_congr, fun hzero => ?_⟩
  · rw [ht.ticks]
    exact UInt64.toNat_ofNat_of_lt' hlt
  · exact ha.none (Nat.div_eq_of_lt hlt)
  · exact ha.average_eq_mean hlength hsum
  · have hsucc := ha.toNat_windowTicks_succ
    rw [hzero] at hsucc
    cases hsucc

/-- Of twelve ticks the fifth fails, so that the first block ends with the eleventh. -/
theorem stats_describe_completed_ticks_failed :
    let times := [0, 1, 2, 3, 5, 6, 7, 8, 9, 10, 11]
    let calls := (times.take 4).flatMap (fun e => [.start, .finish (some e)]) ++
      [.start, .finish none] ++ (times.drop 4).flatMap fun e => [.start, .finish (some e)]
    let stats := (({} : Cycle).callAll calls).stats
    Describes stats times ∧ stats = { last := 11, max := 11, average := 5, ticks := 11 } ∧
      (({} : Cycle).callAll (times.map fun e => .finish (some e))).stats = stats := by
  intro times calls stats
  have hcalls : durations calls = times := by decide +kernel
  have h := stats_describe_completed_ticks calls
  rw [hcalls] at h
  exact ⟨h.1, by decide +kernel, h.2.1 _ (by decide +kernel)⟩

end Cycle
end ExpiringHash
