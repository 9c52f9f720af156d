/-
Every valuation has one row.

As long as a word has a bit for each signal of the table, the rows are the words below the table's
number of rows, each once (`mem_rows`, `nodup_rows`). A row that agrees with a valuation has the bits
of the number that the valuation puts into the signals, so it is the row of that number
(`Row.eq_rowOf`), and guards over these signals cannot tell the two apart.
-/
import Mathlib.Data.List.Nodup
import SignalGraph.Proofs.TruthTable

namespace SignalGraph

variable {signals : List SignalId}

theorem mem_rows (hfew : signals.length < 64) {r : Row} :
    r ∈ rows signals ↔ r.signals = signals ∧ r.mask.toNat < 2 ^ signals.length := by
  simp only [rows, List.mem_map, List.mem_range]
  constructor
  · rintro ⟨n, hn, rfl⟩
    exact ⟨rfl, (Word.toNat_ofNat_of_lt_pow (Nat.le_of_lt hfew) hn).symm ▸ hn⟩
  · rintro ⟨rfl, hmask⟩
    exact ⟨r.mask.toNat, hmask, by rw [UInt64.ofNat_toNat]⟩

theorem nodup_rows (hfew : signals.length < 64) : (rows signals).Nodup := by
  refine List.Nodup.map_on (fun m hm n hn hrow => ?_) List.nodup_range
  have hmask : UInt64.ofNat m = UInt64.ofNat n := congrArg Row.mask hrow
  rw [← Word.toNat_ofNat_of_lt_pow (Nat.le_of_lt hfew) (List.mem_range.mp hm), hmask,
    Word.toNat_ofNat_of_lt_pow (Nat.le_of_lt hfew) (List.mem_range.mp hn)]

/-- Only one word has the bits of a valuation. -/
theorem Row.eq_rowOf {r : Row} {v : Valuation} (hinc : Increasing r.signals)
    (hmask : r.mask.toNat < 2 ^ r.signals.length) (hagrees : ∀ s ∈ r.signals, r.valuation s = v s) :
    r = rowOf r.signals v := by
  have hnumber : number v r.signals = r.mask.toNat % 2 ^ r.signals.length := by
    refine number_eq_of_testBit fun i s hs => ?_
    rw [← hagrees s (List.mem_of_getElem? hs), Row.valuation_of_getElem? hinc hs, Word.bit]
  rw [rowOf, hnumber, Nat.mod_eq_of_lt hmask, UInt64.ofNat_toNat]

/-- The rows that agree with a valuation are the row of its number, which is listed once. -/
theorem filter_rows (hinc : Increasing signals) (hfew : signals.length < 64) (v : Valuation) :
    (rows signals).filter (fun r => ∀ s ∈ signals, r.valuation s = v s) = [rowOf signals v] := by
  rw [← List.perm_singleton,
    List.perm_ext_iff_of_nodup ((nodup_rows hfew).filter _) (List.nodup_singleton _)]
  intro r
  rw [List.mem_filter, decide_eq_true_iff, List.mem_singleton]
  constructor
  · rintro ⟨hr, hagrees⟩
    obtain ⟨rfl, hmask⟩ := (mem_rows hfew).mp hr
    exact Row.eq_rowOf hinc hmask hagrees
  · rintro rfl
    exact ⟨rowOf_mem signals v, fun s hs => rowOf_valuation hinc hfew v hs⟩

/-- A test of the guard is about the signal. -/
def Guard.Reads (g : Guard) (s : SignalId) : Prop := ∃ c ∈ g.clauses, ∃ t ∈ c.tests, t.signal = s

/-- **The truth table is complete and repeats nothing.** The signals of guards are those that they test,
in increasing order and so each once. In a table for signals in this order, of which a word has a bit for
each, the search finds each signal at its position. For every valuation just one row of the table agrees
with it on the signals, and guards that read no other signals hold in that row just if they hold for the
valuation. -/
theorem one_row_for_each_valuation (ts : List Transition) (v : Valuation) :
    (Increasing (guardSignals ts) ∧ ∀ s, s ∈ guardSignals ts ↔ ∃ t ∈ ts, t.guard.Reads s) ∧
    ∀ signals, Increasing signals → signals.length < 64 →
      (∀ i s, SignalId.search s signals = some i ↔ signals[i]? = some s) ∧
      ∃ r, (rows signals).filter (fun r => ∀ s ∈ signals, r.valuation s = v s) = [r] ∧
        ∀ g : Guard, (∀ s, g.Reads s → s ∈ signals) → g.holds r.valuation = g.holds v := by
  refine ⟨⟨guardSignals_increasing ts, fun s => ?_⟩, fun signals hinc hfew => ⟨fun i s => ?_, ?_⟩⟩
  · simp only [mem_guardSignals, Guard.mem_signals, Guard.Reads]
  · exact SignalId.search_eq_some_iff hinc
  · refine ⟨rowOf signals v, filter_rows hinc hfew v, fun g hg => Guard.holds_congr fun s hs => ?_⟩
    exact rowOf_valuation hinc hfew v (hg s (Guard.mem_signals.mp hs))

/-- As many signals as a table can have. -/
def widest : List SignalId := (List.range 63).map SignalId.mk

/-- A guard that tests some of them out of order, and the last one twice. -/
def farApart : Guard := .any [[⟨⟨62⟩, true⟩, ⟨⟨61⟩, false⟩], [⟨⟨0⟩, true⟩, ⟨⟨62⟩, false⟩]]

theorem widest_one_row :
    guardSignals [⟨⟨0⟩, ⟨1⟩, farApart, 0⟩] = [⟨0⟩, ⟨61⟩, ⟨62⟩] ∧ Increasing widest ∧ widest.length < 64 ∧
      SignalId.search ⟨62⟩ widest = some 62 ∧
      ∃ r, (rows widest).filter (fun r => ∀ s ∈ widest, r.valuation s = (s.index == 62)) = [r] ∧
        farApart.holds r.valuation = true := by
  obtain ⟨⟨-, hreads⟩, htable⟩ := one_row_for_each_valuation [⟨⟨0⟩, ⟨1⟩, farApart, 0⟩] fun s => s.index == 62
  have hsignals : guardSignals [⟨⟨0⟩, ⟨1⟩, farApart, 0⟩] = [⟨0⟩, ⟨61⟩, ⟨62⟩] := by decide
  have hinc : Increasing widest := by
    unfold Increasing
    decide +kernel
  have hfew : widest.length < 64 := by decide
  obtain ⟨hsearch, r, hr, hguards⟩ := htable widest hinc hfew
  have hlisted : ∀ s, farApart.Reads s → s ∈ widest := by
    intro s hs
    have hmem : s ∈ [⟨0⟩, ⟨61⟩, ⟨62⟩] := hsignals ▸ (hreads s).mpr ⟨_, List.mem_singleton_self _, hs⟩
    exact (by decide : ∀ s ∈ [⟨0⟩, ⟨61⟩, ⟨62⟩], s ∈ widest) s hmem
  refine ⟨hsignals, hinc, hfew, (hsearch 62 ⟨62⟩).mpr (by decide), r, hr, ?_⟩
  rw [hguards farApart hlisted]
  decide

end SignalGraph
