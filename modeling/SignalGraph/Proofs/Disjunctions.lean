/-
Guards joined with `or`.

Joining puts clauses together, so a guard without clauses adds nothing to what it is joined with,
although alone it always holds. Guards that are joined hold where one of them does, if none of
them is of this kind (`Joining.joined_holds_iff`). Where some are, these count only if there are no
others. In no case does it matter in which order guards are joined, or which are joined first.
-/
import SignalGraph.Guard

namespace SignalGraph

/-- Guards to be joined with `or`, two at a time. -/
inductive Joining where
  | guard (g : Guard)
  | or (left right : Joining)

namespace Joining

/-- The guards that are joined, from the left. -/
def parts : Joining → List Guard
  | guard g => [g]
  | or left right => left.parts ++ right.parts

/-- The guard that they become. -/
def joined : Joining → Guard
  | guard g => g
  | or left right => left.joined.or right.joined

theorem clauses_joined (e : Joining) : e.joined.clauses = e.parts.flatMap Guard.clauses := by
  induction e with
  | guard g => simp [joined, parts]
  | or left right ihl ihr =>
    rw [parts, List.flatMap_append, ← ihl, ← ihr]
    rfl

end Joining

namespace Guard

theorem isAlways_iff {g : Guard} : g.isAlways = true ↔ g.clauses = [] := List.isEmpty_iff

theorem holds_of_isAlways {g : Guard} (h : g.isAlways = true) (v : Valuation) : g.holds v = true := by
  rw [holds, h, Bool.true_or]

/-- A guard that can fail holds where one of its clauses does. -/
theorem holds_iff_of_not_isAlways {g : Guard} (h : g.isAlways ≠ true) {v : Valuation} :
    g.holds v = true ↔ ∃ c ∈ g.clauses, c.holds v = true := by
  rw [holds, Bool.eq_false_iff.mpr h, Bool.false_or, List.any_eq_true]

end Guard

namespace Joining

variable {e e' : Joining} {v : Valuation}

theorem joined_isAlways_iff : e.joined.isAlways = true ↔ ∀ g ∈ e.parts, g.isAlways = true := by
  simp only [Guard.isAlways_iff, clauses_joined, List.flatMap_eq_nil_iff]

/-- Guards that are joined hold if none of them can fail, or if one that can does not. -/
theorem joined_holds_iff : e.joined.holds v = true ↔
    (∀ g ∈ e.parts, g.isAlways = true) ∨ ∃ g ∈ e.parts, g.isAlways ≠ true ∧ g.holds v = true := by
  by_cases hall : e.joined.isAlways = true
  · exact iff_of_true (Guard.holds_of_isAlways hall v) (.inl (joined_isAlways_iff.mp hall))
  rw [Guard.holds_iff_of_not_isAlways hall, ← joined_isAlways_iff, or_iff_right hall, clauses_joined]
  refine ⟨fun h => ?_, fun h => ?_⟩
  · obtain ⟨c, hc, hholds⟩ := h
    obtain ⟨g, hg, hc⟩ := List.mem_flatMap.mp hc
    have hg' : g.isAlways ≠ true := fun h => List.not_mem_nil (Guard.isAlways_iff.mp h ▸ hc)
    exact ⟨g, hg, hg', (Guard.holds_iff_of_not_isAlways hg').mpr ⟨c, hc, hholds⟩⟩
  · obtain ⟨g, hg, hg', hholds⟩ := h
    obtain ⟨c, hc, hholds⟩ := (Guard.holds_iff_of_not_isAlways hg').mp hholds
    exact ⟨c, List.mem_flatMap.mpr ⟨g, hg, hc⟩, hholds⟩

/-- The same guards hold together in every order and grouping. -/
theorem joined_holds_perm (h : e.parts.Perm e'.parts) : e.joined.holds v = e'.joined.holds v := by
  rw [Bool.eq_iff_iff, joined_holds_iff, joined_holds_iff]
  simp only [h.mem_iff]

theorem parts_ne_nil (e : Joining) : e.parts ≠ [] := by
  induction e with
  | guard g => exact List.cons_ne_nil g []
  | or left right ihl _ => exact List.append_ne_nil_of_left_ne_nil ihl right.parts

/-- Joined guards are less than their disjunction just where one that always holds is lost among
others, all of which fail. -/
theorem joined_holds_eq_any_iff : e.joined.holds v = e.parts.any (·.holds v) ↔
    ((∃ g ∈ e.parts, g.isAlways = true) →
      (∀ g ∈ e.parts, g.isAlways = true) ∨ ∃ g ∈ e.parts, g.isAlways ≠ true ∧ g.holds v = true) := by
  rw [← joined_holds_iff, Bool.eq_iff_iff, List.any_eq_true]
  refine ⟨fun heq halways => ?_, fun hkeep => ⟨fun h => ?_, fun h => ?_⟩⟩
  · obtain ⟨g, hg, halways⟩ := halways
    exact heq.mpr ⟨g, hg, Guard.holds_of_isAlways halways v⟩
  · rcases joined_holds_iff.mp h with hall | ⟨g, hg, -, hholds⟩
    · obtain ⟨g, hg⟩ := List.exists_mem_of_ne_nil _ e.parts_ne_nil
      exact ⟨g, hg, Guard.holds_of_isAlways (hall g hg) v⟩
    · exact ⟨g, hg, hholds⟩
  · obtain ⟨g, hg, hholds⟩ := h
    by_cases halways : g.isAlways = true
    · exact hkeep ⟨g, hg, halways⟩
    · exact joined_holds_iff.mpr (.inr ⟨g, hg, halways, hholds⟩)

end Joining

namespace Guard

/-- The law of disjunction for two guards, and where it fails. -/
theorem or_holds_eq_iff {g h : Guard} {v : Valuation} : (g.or h).holds v = (g.holds v || h.holds v) ↔
    (g.isAlways = true → h.holds v = true) ∧ (h.isAlways = true → g.holds v = true) := by
  have hlaw := Joining.joined_holds_eq_any_iff (e := .or (.guard g) (.guard h)) (v := v)
  simp only [Joining.joined, Joining.parts, List.cons_append, List.nil_append, List.any_cons, List.any_nil,
    Bool.or_false, List.mem_cons, List.not_mem_nil, or_false, exists_eq_or_imp, exists_eq_left, forall_eq_or_imp,
    forall_eq] at hlaw
  rw [hlaw]
  by_cases hg : g.isAlways = true <;> by_cases hh : h.isAlways = true <;>
    simp [hg, hh, holds_of_isAlways]

/-- **Guards that are joined with `or` are their disjunction, as long as none that always holds is lost.**
The guard without clauses always holds, but among others it counts for nothing: two guards hold together
where one of them does just if, where one is that guard, the other holds as well. For any number of
guards it is the same. In which order and grouping they are joined does not matter. -/
theorem or_is_disjunction_iff (g h : Guard) (e : Joining) (v : Valuation) :
    ((g.or h).holds v = (g.holds v || h.holds v) ↔
      (g.isAlways = true → h.holds v = true) ∧ (h.isAlways = true → g.holds v = true)) ∧
    (e.joined.holds v = e.parts.any (·.holds v) ↔
      ((∃ g ∈ e.parts, g.isAlways = true) →
        (∀ g ∈ e.parts, g.isAlways = true) ∨ ∃ g ∈ e.parts, g.isAlways ≠ true ∧ g.holds v = true)) ∧
    ∀ e' : Joining, e.parts.Perm e'.parts → e.joined.holds v = e'.joined.holds v :=
  ⟨or_holds_eq_iff, Joining.joined_holds_eq_any_iff, fun _ h => Joining.joined_holds_perm h⟩

/-- A guard without clauses, one with a clause without tests, and a test. -/
def mixed : Joining := .or (.or (.guard .always) (.guard (.when ⟨0⟩ true))) (.guard (.any [[]]))

/-- The same guards in another order and grouping. -/
def remixed : Joining := .or (.guard (.any [[]])) (.or (.guard (.when ⟨0⟩ true)) (.guard .always))

theorem mixed_is_disjunction :
    mixed.parts.Perm remixed.parts ∧ mixed.joined.holds (fun _ => false) = remixed.joined.holds (fun _ => false) ∧
      mixed.joined.holds (fun _ => false) = mixed.parts.any (·.holds fun _ => false) ∧
      (always.or (.any [[]])).holds (fun _ => false) =
        (always.holds (fun _ => false) || (any [[]]).holds fun _ => false) := by
  obtain ⟨htwo, hmany, hperm⟩ := or_is_disjunction_iff always (.any [[]]) mixed fun _ => false
  have hmixed : mixed.parts.Perm remixed.parts := by decide
  exact ⟨hmixed, hperm remixed hmixed, hmany.mpr fun _ => .inr ⟨any [[]], by decide⟩, htwo.mpr (by decide)⟩

/-- The guard that always holds, joined with a test, is the test. -/
theorem always_lost_in_or : ¬ ∀ (g h : Guard) (v : Valuation), (g.or h).holds v = (g.holds v || h.holds v) := by
  intro law
  have hfails : (always.or (.when ⟨0⟩ true)).holds (fun _ => false) = false := by decide
  rw [law always (.when ⟨0⟩ true) fun _ => false, holds_of_isAlways rfl] at hfails
  cases hfails

end Guard

end SignalGraph
