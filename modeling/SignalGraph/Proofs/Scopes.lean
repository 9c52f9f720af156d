/-
Scopes that were reserved.

A scope is a kind with a number after it, and nothing between the two. The number is that of the scopes
that were reserved before, so no number comes twice (`Edits.scopes_le`), and scopes of one kind are
different. A kind may end in digits, though. Where these and its number are the digits of a later number,
the two scopes are the same text (`append_toString_eq_iff`), and what is made for a role in one of them
is in the way of the other.
-/
import SignalGraph.Proofs.Naming

namespace SignalGraph

/-! ## Numbers after texts -/

/-- A number is not greater than one that ends in its digits. -/
theorem le_of_toString_eq_append {m n : Nat} {digits : List Char}
    (h : (toString n).toList = digits ++ (toString m).toList) : m ≤ n := by
  rw [toList_toString, toList_toString] at h
  have hvalue := congrArg (Nat.ofDigitChars 10 · 0) h
  simp only [Nat.ofDigitChars_append, Nat.ofDigitChars_ten_toDigits] at hvalue
  rw [Nat.ofDigitChars_eq_ofDigitChars_zero, Nat.ofDigitChars_ten_toDigits] at hvalue
  omega

/-- Texts with different numbers after them are the same just when the one with the smaller number is the
other and some digits, with which the smaller number makes the greater. -/
theorem append_toString_eq_iff {s t : String} {m n : Nat} (h : m < n) :
    s ++ toString m = t ++ toString n ↔ ∃ digits : String, s = t ++ digits ∧ toString n = digits ++ toString m := by
  refine ⟨fun heq => ?_, fun h => ?_⟩
  · have hlist := congrArg String.toList heq
    rw [String.toList_append, String.toList_append] at hlist
    rcases List.append_eq_append_iff.mp hlist with ⟨digits, -, hm⟩ | ⟨digits, hs, hn⟩
    · exact absurd (le_of_toString_eq_append hm) (Nat.not_le.mpr h)
    · refine ⟨.ofList digits, ?_, ?_⟩
      · rw [← String.toList_inj, String.toList_append, String.toList_ofList, hs]
      · rw [← String.toList_inj, String.toList_append, String.toList_ofList, hn]
  · obtain ⟨digits, rfl, hn⟩ := h
    rw [hn, String.append_assoc]

namespace Design

variable {d d' d₁ d₂ d₃ : Design}

/-! ## Reserving -/

theorem Edit.scopes_le (h : Edit d d') : d.scopes ≤ d'.scopes := by
  cases h with
  | scope => exact Nat.le_succ d.scopes
  | signal | zero | constant | state | action | transition | default => exact Nat.le_refl d.scopes

/-- Scopes that were reserved stay so, whatever else is done. -/
theorem Edits.scopes_le (h : Edits d d') : d.scopes ≤ d'.scopes :=
  h.invariant (I := fun e => d.scopes ≤ e.scopes) (fun _ _ he hle => Nat.le_trans hle he.scopes_le) (Nat.le_refl _)

/-! ## Kinds that end in digits -/

/-- The last character of the kind is a digit. -/
def EndsInDigit (kind : String) : Prop := ∃ c ∈ kind.toList.getLast?, c.isDigit = true

/-- A number has more digits than a smaller one that it ends in. -/
theorem digits_ne_nil {digits : String} {m n : Nat} (hlt : m < n) (h : toString n = digits ++ toString m) :
    digits.toList ≠ [] := by
  intro hnil
  have hlist := congrArg String.toList h
  rw [String.toList_append, hnil, List.nil_append] at hlist
  exact Nat.ne_of_gt hlt (toList_toString_inj hlist)

theorem endsInDigit_append (kind : String) {digits : String} {m n : Nat} (hlt : m < n)
    (h : toString n = digits ++ toString m) : EndsInDigit (kind ++ digits) := by
  have hne := digits_ne_nil hlt h
  refine ⟨digits.toList.getLast hne, ?_, isDigit_of_mem_toString (n := n) ?_⟩
  · rw [String.toList_append, List.getLast?_append, List.getLast?_eq_some_getLast hne]
    rfl
  · rw [h, String.toList_append]
    exact List.mem_append_left _ (List.getLast_mem hne)

/-! ## Names in scopes -/

theorem scopedName_inj {scope scope' role : String} :
    scopedName scope role = scopedName scope' role ↔ scope = scope' := by
  simp [scopedName, ← String.toList_inj]

/-- A signal for a role in one scope is in the way of the role in another only if they are the same. -/
theorem freshSignal_after_iff {scope scope' role : String} {s : SignalId} (h : freshSignal scope role d = .ok s d') :
    (∃ t d'', freshSignal scope' role d' = .ok t d'') ↔ scope ≠ scope' ∧ scopedName scope' role ∉ d.names := by
  obtain ⟨-, -, rfl⟩ := freshSignal_eq_ok.mp h
  have hfree : (∃ t d'', freshSignal scope' role (d.pushSignal ⟨scopedName scope role, false, false⟩) = .ok t d'') ↔
      scopedName scope' role ∉ (d.pushSignal ⟨scopedName scope role, false, false⟩).names := by
    simp only [freshSignal_eq_ok]
    exact ⟨fun ⟨_, _, hname, _⟩ => hname, fun hname => ⟨_, _, hname, rfl, rfl⟩⟩
  rw [hfree, mem_names_pushSignal, not_or, scopedName_inj, ne_comm]

/-- **Scopes are different, unless the number of one runs into its kind.** Take two scopes that were
reserved one after the other, whatever was done in between. They are the same just when the earlier kind is
the later one and some digits, which with the earlier number make the later number. So they are
different if the kinds are the same, or if the earlier kind does not end in a digit. Where they are
different, a signal for a role in the one is never in the way of that role in the other. -/
theorem reserved_scopes_clash_iff {kind kind' scope scope' : String} (h : reserveScope kind d = .ok scope d₁)
    (hbetween : Edits d₁ d₂) (h' : reserveScope kind' d₂ = .ok scope' d₃) :
    (scope = scope' ↔ ∃ digits, kind = kind' ++ digits ∧ toString d₂.scopes = digits ++ toString d.scopes) ∧
    (kind = kind' ∨ ¬ EndsInDigit kind → scope ≠ scope') ∧
    ∀ role e s e', freshSignal scope role e = .ok s e' →
      ((∃ t e'', freshSignal scope' role e' = .ok t e'') ↔ scope ≠ scope' ∧ scopedName scope' role ∉ e.names) := by
  obtain ⟨rfl, rfl⟩ := reserveScope_eq_ok.mp h
  obtain ⟨rfl, rfl⟩ := reserveScope_eq_ok.mp h'
  have hlt : d.scopes < d₂.scopes := hbetween.scopes_le
  have hclash := append_toString_eq_iff (s := kind) (t := kind') hlt
  refine ⟨hclash, fun hkinds heq => ?_, fun role e s e' hs => freshSignal_after_iff hs⟩
  obtain ⟨digits, hkind, hnumber⟩ := hclash.mp heq
  rcases hkinds with rfl | hdigit
  · have hlist := congrArg String.toList hkind
    rw [String.toList_append, List.self_eq_append_right] at hlist
    exact digits_ne_nil hlt hnumber hlist
  · exact hdigit (hkind ▸ endsInDigit_append kind' hlt hnumber)

/-- A design in which a scope was reserved, and then a half adder was built, which reserves one too. -/
def oneScopeAndBlock : Design :=
  performAll [.createSignal "a", .halfAdder ⟨0⟩ ⟨0⟩] (after (reserveScope "fa") (.new {}))

theorem namesakes_differ :
    reserveScope "fa" (.new {}) = .ok "fa0" (after (reserveScope "fa") (.new {})) ∧
      reserveScope "fa" oneScopeAndBlock = .ok "fa2" (after (reserveScope "fa") oneScopeAndBlock) ∧ "fa0" ≠ "fa2" ∧
      ∃ s d' t d'', freshSignal "fa0" "sum" oneScopeAndBlock = .ok s d' ∧ freshSignal "fa2" "sum" d' = .ok t d'' := by
  have hfirst : reserveScope "fa" (.new {}) = .ok "fa0" (after (reserveScope "fa") (.new {})) := rfl
  have hsecond : reserveScope "fa" oneScopeAndBlock = .ok "fa2" (after (reserveScope "fa") oneScopeAndBlock) :=
    reserveScope_eq_ok.mpr ⟨by decide +kernel, rfl⟩
  have hmade : freshSignal "fa0" "sum" oneScopeAndBlock = .ok _ _ :=
    freshSignal_eq_ok.mpr ⟨by decide +kernel, rfl, rfl⟩
  obtain ⟨-, hdiffer, hroles⟩ := reserved_scopes_clash_iff hfirst (performAll_edits _ _) hsecond
  obtain ⟨t, d'', hmade'⟩ := (hroles "sum" _ _ _ hmade).mpr ⟨hdiffer (.inl rfl), by decide +kernel⟩
  exact ⟨hfirst, hsecond, hdiffer (.inl rfl), _, _, t, d'', hmade, hmade'⟩

/-- A scope of the caller's own, a signal in it, and nine more scopes. -/
def crowdedCalls : List Call := .freshSignal "ha10" "sum" :: List.replicate 9 (.reserveScope "x")

/-- The scope `ha10` is reserved twice, and for the half adder that reserves it the name of its sum is taken. -/
theorem crowded_scopes_clash :
    ∃ d₁ d₃, reserveScope "ha1" (.new {}) = .ok "ha10" d₁ ∧
      reserveScope "ha" (performAll crowdedCalls d₁) = .ok "ha10" d₃ ∧
      Block.halfAdder ⟨0⟩ ⟨0⟩ (performAll crowdedCalls d₁) = .error (.signalCollision "ha10.sum") d₃ :=
  ⟨_, after (reserveScope "ha") _, rfl, rfl, rfl⟩

end Design

end SignalGraph
