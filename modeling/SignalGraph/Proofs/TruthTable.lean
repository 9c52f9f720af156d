/-
What the truth tables of guards decide.

A guard reads the signals of its tests and nothing else (`Guard.holds_congr`), and for
every valuation the table has a row that agrees with it on the table's signals
(`rowOf_valuation`), each of which is found where it is (`SignalId.search_eq_some_iff`). So a
table that shows no gap leaves none (`anyHolds_of_coversAll`), and what a table shows of its
rows holds of all valuations, if it is made at all (`coversAll_iff`, `isShadowed_iff`).
-/
import SignalGraph.Check
import SignalGraph.Proofs.Numbers

namespace SignalGraph

/-! ## The signals of guards -/

theorem SignalId.mem_insert {s t : SignalId} {l : List SignalId} : t ∈ s.insert l ↔ t = s ∨ t ∈ l := by
  induction l with
  | nil => simp [SignalId.insert]
  | cons u rest ih =>
    unfold SignalId.insert
    split
    · simp
    · split
      · next h => subst h; simp
      · simp only [List.mem_cons, ih]
        exact ⟨fun h => by rcases h with h | h | h <;> simp [h],
          fun h => by rcases h with h | h | h <;> simp [h]⟩

theorem SignalId.mem_sort {t : SignalId} {l : List SignalId} : t ∈ SignalId.sort l ↔ t ∈ l := by
  unfold SignalId.sort
  induction l with
  | nil => simp
  | cons s rest ih => rw [List.foldr_cons, SignalId.mem_insert, ih, List.mem_cons]

/-- Handles in strictly increasing order. -/
def Increasing (l : List SignalId) : Prop := l.Pairwise fun s t => s.index < t.index

theorem Increasing.nodup {l : List SignalId} (h : Increasing l) : l.Nodup := by
  refine List.Pairwise.imp ?_ h
  intro s t hlt he
  exact Nat.lt_irrefl s.index (he ▸ hlt)

theorem SignalId.insert_increasing (s : SignalId) {l : List SignalId} (h : Increasing l) :
    Increasing (s.insert l) := by
  induction l with
  | nil => exact List.pairwise_singleton _ _
  | cons t rest ih =>
    obtain ⟨ht, hrest⟩ := List.pairwise_cons.mp h
    unfold SignalId.insert
    by_cases hlt : s.index < t.index
    · rw [if_pos hlt]
      refine List.pairwise_cons.mpr ⟨?_, h⟩
      intro u hu
      rcases List.mem_cons.mp hu with rfl | hu
      · exact hlt
      · exact Nat.lt_trans hlt (ht u hu)
    rw [if_neg hlt]
    by_cases he : s = t
    · rw [if_pos he]
      exact h
    · rw [if_neg he]
      have hts : t.index < s.index := by
        have hne : s.index ≠ t.index := fun hi => he (congrArg SignalId.mk hi)
        omega
      refine List.pairwise_cons.mpr ⟨?_, ih hrest⟩
      intro u hu
      rcases SignalId.mem_insert.mp hu with rfl | hu
      · exact hts
      · exact ht u hu

theorem SignalId.sort_increasing (l : List SignalId) : Increasing (SignalId.sort l) := by
  unfold SignalId.sort
  induction l with
  | nil => exact .nil
  | cons s rest ih => exact SignalId.insert_increasing s ih

theorem guardSignals_increasing (ts : List Transition) : Increasing (guardSignals ts) :=
  SignalId.sort_increasing _

theorem Guard.mem_signals {g : Guard} {s : SignalId} :
    s ∈ g.signals ↔ ∃ c ∈ g.clauses, ∃ t ∈ c.tests, t.signal = s := by
  unfold Guard.signals
  rw [SignalId.mem_sort]
  simp

theorem mem_guardSignals {ts : List Transition} {s : SignalId} :
    s ∈ guardSignals ts ↔ ∃ t ∈ ts, s ∈ t.guard.signals := by
  unfold guardSignals
  rw [SignalId.mem_sort]
  simp

theorem Clause.holds_congr {c : Clause} {v w : Valuation} (h : ∀ t ∈ c.tests, v t.signal = w t.signal) :
    c.holds v = c.holds w := by
  unfold Clause.holds
  generalize c.tests = tests at h
  induction tests with
  | nil => rfl
  | cons t rest ih =>
    have ht : t.holds v = t.holds w := by
      unfold Test.holds
      rw [h t (by simp)]
    rw [List.all_cons, List.all_cons, ht, ih fun u hu => h u (by simp [hu])]

/-- A guard is decided by the values of the signals that it reads. -/
theorem Guard.holds_congr {g : Guard} {v w : Valuation} (h : ∀ s ∈ g.signals, v s = w s) :
    g.holds v = g.holds w := by
  have hc : ∀ c ∈ g.clauses, c.holds v = c.holds w := fun c hc =>
    Clause.holds_congr fun t ht => h _ (Guard.mem_signals.mpr ⟨c, hc, t, ht, rfl⟩)
  unfold Guard.holds
  congr 1
  generalize g.clauses = clauses at hc
  induction clauses with
  | nil => rfl
  | cons c rest ih =>
    rw [List.any_cons, List.any_cons, hc c (by simp), ih fun u hu => hc u (by simp [hu])]

theorem anyHolds_congr {ts : List Transition} {v w : Valuation} (h : ∀ s ∈ guardSignals ts, v s = w s) :
    anyHolds ts v = anyHolds ts w := by
  have ht : ∀ t ∈ ts, t.guard.holds v = t.guard.holds w := fun t ht =>
    Guard.holds_congr fun s hs => h s (mem_guardSignals.mpr ⟨t, ht, hs⟩)
  unfold anyHolds
  clear h
  induction ts with
  | nil => rfl
  | cons t rest ih =>
    rw [List.any_cons, List.any_cons, ht t (by simp), ih fun u hu => ht u (by simp [hu])]

/-! ## Searching -/

theorem Increasing.index_lt_iff {l : List SignalId} (h : Increasing l) {i j : Nat} {s t : SignalId}
    (hs : l[i]? = some s) (ht : l[j]? = some t) : s.index < t.index ↔ i < j := by
  obtain ⟨hi, rfl⟩ := List.getElem?_eq_some_iff.mp hs
  obtain ⟨hj, rfl⟩ := List.getElem?_eq_some_iff.mp ht
  have hpair := List.pairwise_iff_getElem.mp h
  refine ⟨fun hlt => ?_, fun hlt => hpair i j hi hj hlt⟩
  rcases Nat.lt_trichotomy i j with hij | rfl | hij
  · exact hij
  · exact absurd hlt (Nat.lt_irrefl _)
  · exact absurd hlt (Nat.lt_asymm (hpair j i hj hi hij))

namespace SignalId

variable {s : SignalId} {signals : List SignalId}

/-- What is found is there, in whatever order the list is. -/
theorem getElem?_of_searchBetween {lo hi i : Nat} {hle : hi ≤ signals.length}
    (h : s.searchBetween signals lo hi hle = some i) : signals[i]? = some s := by
  fun_induction searchBetween s signals lo hi hle with
  | case1 lo hi hle hlt mid hmid heq =>
    rw [← Option.some.inj h]
    exact List.getElem?_eq_some_iff.mpr ⟨hmid, heq⟩
  | case2 lo hi hle hlt mid hmid hne hless ih => exact ih h
  | case3 lo hi hle hlt mid hmid hne hless ih => exact ih h
  | case4 => cases h

/-- In an increasing list the side that is given up does not have the handle. -/
theorem searchBetween_of_getElem? (hinc : Increasing signals) {lo hi i : Nat} {hle : hi ≤ signals.length}
    (hlo : lo ≤ i) (hhi : i < hi) (hs : signals[i]? = some s) : s.searchBetween signals lo hi hle = some i := by
  -- Each turn keeps the position between `lo` and `hi`, so they cannot meet before it is found.
  fun_induction searchBetween s signals lo hi hle with
  | case1 lo hi hle hlt mid hmid heq =>
    have hm : signals[mid]? = some s := List.getElem?_eq_some_iff.mpr ⟨hmid, heq⟩
    have hbelow := hinc.index_lt_iff hm hs
    have habove := hinc.index_lt_iff hs hm
    rw [show mid = i by omega]
  | case2 lo hi hle hlt mid hmid hne hless ih =>
    have hright : mid < i := (hinc.index_lt_iff (List.getElem?_eq_getElem hmid) hs).mp hless
    exact ih hright hhi
  | case3 lo hi hle hlt mid hmid hne hless ih =>
    have hright := mt (hinc.index_lt_iff (List.getElem?_eq_getElem hmid) hs).mpr hless
    have hleft : i ≠ mid := by
      rintro rfl
      exact hne (List.getElem?_eq_some_iff.mp hs).2
    exact ih hlo (by omega)
  | case4 => omega

/-- The search of an increasing list finds each handle at its position, and no other. -/
theorem search_eq_some_iff (hinc : Increasing signals) {i : Nat} :
    s.search signals = some i ↔ signals[i]? = some s := by
  refine ⟨getElem?_of_searchBetween, fun hs => ?_⟩
  exact searchBetween_of_getElem? hinc (Nat.zero_le i) (List.getElem?_eq_some_iff.mp hs).1 hs

end SignalId

/-! ## The rows of a table -/

/-- The row that a valuation agrees with. -/
def rowOf (signals : List SignalId) (v : Valuation) : Row := ⟨signals, .ofNat (number v signals)⟩

theorem rowOf_mem (signals : List SignalId) (v : Valuation) : rowOf signals v ∈ rows signals := by
  simp only [rows, List.mem_map, List.mem_range]
  exact ⟨_, number_lt v signals, rfl⟩

theorem Row.valuation_of_getElem? {r : Row} (hinc : Increasing r.signals) {i : Nat} {s : SignalId}
    (hs : r.signals[i]? = some s) : r.valuation s = r.mask.bit i := by
  rw [Row.valuation, (SignalId.search_eq_some_iff hinc).mpr hs]

theorem rowOf_valuation {signals : List SignalId} (hinc : Increasing signals) (hfew : signals.length < 64)
    (v : Valuation) {s : SignalId} (h : s ∈ signals) : (rowOf signals v).valuation s = v s := by
  obtain ⟨i, hs⟩ := List.mem_iff_getElem?.mp h
  rw [Row.valuation_of_getElem? hinc hs, Word.bit, rowOf,
    Word.toNat_ofNat_of_lt_pow (Nat.le_of_lt hfew) (number_lt v signals), testBit_number v hs]

/-- A table that is made has fewer signals than a word has bits. -/
theorem rowOf_valuation_of_le {ts : List Transition} (hfew : (guardSignals ts).length ≤ maxTableSignals)
    (v : Valuation) {s : SignalId} (h : s ∈ guardSignals ts) : (rowOf (guardSignals ts) v).valuation s = v s :=
  rowOf_valuation (guardSignals_increasing ts) (Nat.lt_of_le_of_lt hfew (by decide)) v h

/-- Where the table shows that the guards cover every row, one of them holds whatever the
values are. -/
theorem anyHolds_of_coversAll {ts : List Transition} (h : coversAll ts = true) (v : Valuation) :
    anyHolds ts v = true := by
  simp only [coversAll, Bool.and_eq_true, decide_eq_true_eq, List.all_eq_true] at h
  rw [← h.2 _ (rowOf_mem _ v)]
  exact anyHolds_congr fun s hs => (rowOf_valuation_of_le h.1 v hs).symm

/-- Guards are known to cover everything if they read few enough signals, and do. -/
theorem coversAll_iff {ts : List Transition} :
    coversAll ts = true ↔
      (guardSignals ts).length ≤ maxTableSignals ∧ ∀ v, anyHolds ts v = true := by
  constructor
  · intro h
    refine ⟨?_, anyHolds_of_coversAll h⟩
    simp only [coversAll, Bool.and_eq_true, decide_eq_true_eq] at h
    exact h.1
  · intro h
    simp only [coversAll, Bool.and_eq_true, decide_eq_true_eq, List.all_eq_true]
    exact ⟨h.1, fun r _ => h.2 r.valuation⟩

/-- A transition is known to be shadowed if few enough signals are read, and it is. -/
theorem isShadowed_iff {earlier : List Transition} {t : Transition} :
    isShadowed earlier t = true ↔ (guardSignals (earlier ++ [t])).length ≤ maxTableSignals ∧
      ∀ v, t.guard.holds v = true → anyHolds earlier v = true := by
  simp only [isShadowed, Bool.and_eq_true, decide_eq_true_eq, Bool.not_eq_true', List.any_eq_false,
    Bool.not_eq_true', not_and, Bool.not_eq_false]
  refine and_congr_right fun hfew => ?_
  constructor
  · intro h v hv
    -- The row of `v` agrees with it on the guards of `earlier` and of `t`.
    have hrow : ∀ s ∈ guardSignals (earlier ++ [t]), (rowOf (guardSignals (earlier ++ [t])) v).valuation s = v s :=
      fun s hs => rowOf_valuation_of_le hfew v hs
    have ht : t.guard.holds (rowOf (guardSignals (earlier ++ [t])) v).valuation = t.guard.holds v :=
      Guard.holds_congr fun s hs => hrow s (mem_guardSignals.mpr ⟨t, by simp, hs⟩)
    have hearlier : anyHolds earlier (rowOf (guardSignals (earlier ++ [t])) v).valuation = anyHolds earlier v := by
      refine anyHolds_congr fun s hs => hrow s ?_
      obtain ⟨e, he, hs⟩ := mem_guardSignals.mp hs
      exact mem_guardSignals.mpr ⟨e, by simp [he], hs⟩
    rw [← hearlier]
    exact h _ (rowOf_mem _ v) (ht.trans hv)
  · exact fun h r _ hr => h r.valuation hr

end SignalGraph
