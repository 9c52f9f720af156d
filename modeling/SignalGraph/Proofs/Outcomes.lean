/-
Which blocks can be built.

A block fails only if its operands do not exist or are not what it asks for (`Call.orderly`), and
it is built only if they are (`Call.of_ok`). The two leave a gap for operands that do not exist:
most are looked up only when the block has made signals of its own, and a handle that led nowhere
before may lead to one of these.
-/
import SignalGraph.Proofs.Operands

namespace SignalGraph

/-- The error is about an operand, and not about a name or a state that a block makes. -/
def BuildError.BlamesOperands : BuildError → Prop
  | .unknownSignal _ | .zeroWidth _ | .widthMismatch .. | .operandAlias _ | .constantWrite _
  | .literalOverflow .. => True
  | .signalCollision _ | .unknownState _ | .duplicateDefault _ | .emptySequence | .invalid _ => False

namespace Design

open Block

namespace Call

/-- The operations that build blocks. -/
def builds : Call → Bool
  | halfAdder .. | fullAdder .. | add .. | invert _ | complement _ | subtract .. | increment _ | decrement _ | move ..
  | loadSignal .. | loadRegister .. => true
  | _ => false

/-- The signals that a block is built on. -/
def operands : Call → List SignalId
  | halfAdder a b => [a, b]
  | fullAdder a b carryIn => [a, b, carryIn]
  | add a b carryIn => a.bits ++ b.bits ++ carryIn.toList
  | subtract a b => a.bits ++ b.bits
  | move src dst => src.bits ++ dst.bits
  | invert a | complement a | increment a | decrement a | loadRegister a _ => a.bits
  | loadSignal s _ => [s]
  | _ => []

/-- The operands that are looked up before the block makes signals that can be written. -/
def checkedFirst : Call → List SignalId
  | subtract _ b => b.bits
  | move src dst => src.bits ++ dst.bits
  | invert a | complement a | loadRegister a _ => a.bits
  | loadSignal s _ => [s]
  | _ => []

/-- What a block asks of operands that exist. -/
def Accepted (d : Design) : Call → Prop
  | add a b _ => a.width = b.width ∧ 1 ≤ a.width
  | invert a => ∀ s ∈ a.bits, s ∉ d.fixed
  | complement a | increment a | decrement a => 1 ≤ a.width ∧ ∀ s ∈ a.bits, s ∉ d.fixed
  | subtract a b =>
    a.width = b.width ∧ 1 ≤ a.width ∧ (∀ s ∈ a.bits, s ∉ b.bits) ∧ ∀ s ∈ b.bits, s ∉ d.fixed
  | move src dst =>
    src.width = dst.width ∧ (src.bits = dst.bits ∨ ∀ s ∈ src.bits, s ∉ dst.bits) ∧ ∀ s ∈ dst.bits, s ∉ d.fixed
  | loadSignal s _ => s ∉ d.fixed
  | loadRegister r value => value.toNat < 2 ^ r.width ∧ ∀ s ∈ r.bits, s ∉ d.fixed
  | _ => True

/-- The names that a caller chooses have no dot, and no signal is made in a scope by hand. -/
def Plain : Call → Prop
  | createSignal name | createRegister name _ | createDefaultRegister name => '.' ∉ name.toList
  | freshSignal .. | freshRegister .. => False
  | _ => True

end Call

/-- What a new design can become while callers choose plain names. -/
def PlainlyReachable (d : Design) : Prop :=
  ∃ settings calls, (∀ c ∈ calls, Call.Plain c) ∧ performAll calls (.new settings) = d

variable {d d' : Design} {s : SignalId} {c : Call}

theorem writable_iff : d.Writable s ↔ s.index < d.signals.size ∧ s ∉ d.fixed := by
  refine ⟨fun h => ⟨h.lt, Edits.not_fixed .refl h⟩, fun ⟨hs, hc⟩ => ?_⟩
  have hinfo : d.signal? s = some d.signals[s.index] := Array.getElem?_eq_getElem hs
  exact ⟨_, hinfo, by simpa using fun h => hc ⟨_, hinfo, h⟩⟩

/-! ## A block that was built -/

theorem Call.of_ok (hc : c.builds = true) (hd : Sound d) (h : c.perform d = .ok () d') :
    c.Accepted d ∧ d.Knows c.checkedFirst ∧ d'.Knows c.operands := by
  have he : Edits d d' := c.makes.edits h
  cases c with
  | halfAdder a b =>
    obtain ⟨cell, h⟩ := discard_eq_ok.mp h
    exact ⟨trivial, knows_nil d, halfAdder_knows hd h⟩
  | fullAdder a b carryIn =>
    obtain ⟨cell, h⟩ := discard_eq_ok.mp h
    exact ⟨trivial, knows_nil d, fullAdder_knows hd h⟩
  | add a b carryIn =>
    obtain ⟨adder, h⟩ := discard_eq_ok.mp h
    obtain ⟨hwidth, hpos, -⟩ := add_sum h
    exact ⟨⟨hwidth, hpos⟩, knows_nil d, add_knows hd h⟩
  | invert a =>
    obtain ⟨f, h⟩ := discard_eq_ok.mp h
    have ha := invert_writable hd h
    have hknows : d.Knows a.bits := fun s hs => (ha s hs).lt
    exact ⟨fun s hs => (writable_iff.mp (ha s hs)).2, hknows, hknows.mono he⟩
  | complement a =>
    obtain ⟨f, h⟩ := discard_eq_ok.mp h
    obtain ⟨hpos, ha⟩ := complement_writable hd h
    have hknows : d.Knows a.bits := fun s hs => (ha s hs).lt
    exact ⟨⟨hpos, fun s hs => (writable_iff.mp (ha s hs)).2⟩, hknows, hknows.mono he⟩
  | subtract a b =>
    obtain ⟨f, h⟩ := discard_eq_ok.mp h
    obtain ⟨hwidth, hpos, hdisjoint, hb, ha⟩ := subtract_grounded hd h
    have hknows : d.Knows b.bits := fun s hs => (hb s hs).lt
    refine ⟨⟨hwidth, hwidth ▸ hpos, Register.disjoint_of_overlaps hdisjoint, fun s hs => ?_⟩, hknows, ?_⟩
    · exact (writable_iff.mp (hb s hs)).2
    · exact knows_append.mpr ⟨ha, hknows.mono he⟩
  | increment a =>
    obtain ⟨acc, h⟩ := discard_eq_ok.mp h
    obtain ⟨hpos, hknows, hfixed⟩ := accumulate_grounded (constantRegister_makes 1 a.width) h
    exact ⟨⟨hpos, hfixed⟩, knows_nil d, hknows⟩
  | decrement a =>
    obtain ⟨acc, h⟩ := discard_eq_ok.mp h
    obtain ⟨hpos, hknows, hfixed⟩ := accumulate_grounded (minusOne_makes a.width) h
    exact ⟨⟨hpos, hfixed⟩, knows_nil d, hknows⟩
  | move src dst =>
    obtain ⟨f, h⟩ := discard_eq_ok.mp h
    obtain ⟨hwidth, hcopyable, ⟨hsrc, hdst⟩, -⟩ := move_eq_ok.mp h
    have hknows : d.Knows (src.bits ++ dst.bits) := knows_append.mpr ⟨hsrc, fun s hs => (hdst s hs).lt⟩
    refine ⟨⟨hwidth, hcopyable.imp_right Register.disjoint_of_overlaps, fun s hs => ?_⟩, hknows, hknows.mono he⟩
    exact (writable_iff.mp (hdst s hs)).2
  | loadSignal s value =>
    obtain ⟨f, h⟩ := discard_eq_ok.mp h
    obtain ⟨hs, hfixed⟩ := writable_iff.mp (loadSignal_writable hd h)
    have hknows : d.Knows [s] := by simpa using hs
    exact ⟨hfixed, hknows, hknows.mono he⟩
  | loadRegister r value =>
    obtain ⟨f, h⟩ := discard_eq_ok.mp h
    obtain ⟨hfits, hr⟩ := loadRegister_writable hd h
    have hknows : d.Knows r.bits := fun s hs => (hr s hs).lt
    exact ⟨⟨Word.fits_iff.mp hfits, fun s hs => (writable_iff.mp (hr s hs)).2⟩, hknows, hknows.mono he⟩
  | _ => cases hc

/-! ## A block that cannot be built -/

/-- Operands are to blame, and they are not all as they should be. -/
def Blames (ok : Prop) (e : BuildError) : Prop := e.BlamesOperands ∧ ¬ ok

section

variable {ok : Prop}

theorem Blames.of_imp {P : Prop} (h : ok → P) : P ∨ ∀ e : BuildError, e.BlamesOperands → Blames ok e := by
  by_cases hP : P
  · exact .inl hP
  · exact .inr fun e he => ⟨he, fun hok => hP (h hok)⟩

/-- A check with an error about operands. -/
theorem Blames.check {P : Prop} {e : BuildError} (he : e.BlamesOperands) (h : ok → P) : P ∨ Blames ok e :=
  (Blames.of_imp h).imp_right fun h => h e he

theorem Blames.positive {n : Nat} (h : ok → 0 < n) : 0 < n ∨ ∀ name, Blames ok (.zeroWidth name) :=
  (Blames.of_imp h).imp_right fun h _ => h _ trivial

theorem Blames.reads (h : ok → s.index < d.signals.size) : Reads (Blames ok) d s := Blames.check trivial h

theorem Blames.writes (hs : ok → s.index < d.signals.size) (hc : ok → s ∉ d.fixed) : Writes (Blames ok) d s :=
  (Blames.of_imp fun h => writable_iff.mpr ⟨hs h, hc h⟩).imp_right fun h => ⟨h _ trivial, fun _ => h _ trivial⟩

end

/-- A block is built in order, and fails only if its operands are not as they should be. -/
theorem Call.orderly (hc : c.builds = true) (hd : ConstantsKept d) :
    Orderly (Blames (d.Knows c.operands ∧ c.Accepted d)) c.perform d := by
  cases c with
  | halfAdder a b =>
    refine .discard (halfAdder_orderly (Blames.reads fun h => ?_) (Blames.reads fun h => ?_))
    · exact h.1 a (by simp [operands])
    · exact h.1 b (by simp [operands])
  | fullAdder a b carryIn =>
    refine .discard (fullAdder_orderly (Blames.reads fun h => ?_) (Blames.reads fun h => ?_) (Blames.reads fun h => ?_))
    · exact h.1 a (by simp [operands])
    · exact h.1 b (by simp [operands])
    · exact h.1 carryIn (by simp [operands])
  | add a b carryIn =>
    refine .discard (add_orderly (Blames.positive fun h => h.2.2) (Blames.check trivial fun h => h.2.1) hd ?_ ?_ ?_)
    · exact fun s hs => Blames.reads fun h => h.1 s (by simp [operands, hs])
    · exact fun s hs => Blames.reads fun h => h.1 s (by simp [operands, hs])
    · exact fun s hs => Blames.reads fun h => h.1 s (by simp [operands, Option.mem_def.mp hs])
  | invert a => exact .discard (invert_orderly fun s hs => Blames.writes (fun h => h.1 s hs) fun h => h.2 s hs)
  | complement a =>
    refine .discard (complement_orderly hd (Blames.positive fun h => h.2.1) (fun s hs => ?_)
      (Blames.check trivial fun h => h.1))
    exact Blames.writes (fun h => h.1 s hs) fun h => h.2.2 s hs
  | subtract a b =>
    refine .discard (subtract_orderly hd (Blames.check trivial fun h => h.2.1) (Blames.check trivial fun h => ?_)
      (Blames.positive fun h => h.2.1 ▸ h.2.2.1) (fun s hs => ?_) (fun s hs => ?_) (Blames.check trivial fun h => ?_))
    · exact Register.overlaps_of_disjoint h.2.2.2.1
    · exact Blames.reads fun h => (knows_append.mp h.1).1 s hs
    · exact Blames.writes (fun h => (knows_append.mp h.1).2 s hs) fun h => h.2.2.2.2 s hs
    · exact (knows_append.mp h.1).2
  | increment a =>
    refine .discard (increment_orderly hd (Blames.positive fun h => h.2.1) (fun s hs => ?_)
      (Blames.check trivial fun h => h.1))
    exact Blames.writes (fun h => h.1 s hs) fun h => h.2.2 s hs
  | decrement a =>
    refine .discard (decrement_orderly hd (Blames.positive fun h => h.2.1) (fun s hs => ?_)
      (Blames.check trivial fun h => h.1))
    exact Blames.writes (fun h => h.1 s hs) fun h => h.2.2 s hs
  | move src dst =>
    refine .discard (move_orderly (Blames.check trivial fun h => h.2.1) (Blames.check trivial fun h => ?_)
      (fun s hs => ?_) fun s hs => ?_)
    · exact h.2.2.1.imp_right Register.overlaps_of_disjoint
    · exact Blames.reads fun h => (knows_append.mp h.1).1 s hs
    · exact Blames.writes (fun h => (knows_append.mp h.1).2 s hs) fun h => h.2.2.2 s hs
  | loadSignal s value =>
    exact .discard (loadSignal_orderly (Blames.writes (fun h => h.1 s (by simp [operands])) fun h => h.2))
  | loadRegister r value =>
    refine .discard (loadRegister_orderly (Blames.check trivial fun h => Word.fits_iff.mpr h.2.1) fun s hs => ?_)
    exact Blames.writes (fun h => h.1 s hs) fun h => h.2.2 s hs
  | _ => cases hc

/-- Any operation keeps designs tidy as long as callers choose plain names. -/
theorem Call.tidy (hplain : c.Plain) (hd : ConstantsKept d) (ht : d.Tidy) : (after c.perform d).Tidy := by
  have hreads : ∀ s, Reads (fun _ => True) d s := fun _ => .inr trivial
  have hwrites : ∀ s, Writes (fun _ => True) d s := fun _ => .inr ⟨trivial, fun _ => trivial⟩
  have htidy {α : Type} {x : BuildM α} (h : Orderly (fun _ => True) x d) : (after x d).Tidy := (h ht).1
  cases c with
  | createSignal name => exact htidy (.discard (.addSignal (.chosen hplain) (.inr trivial)))
  | createRegister name width => exact htidy (.discard (.createRegister hplain trivial fun _ => trivial))
  | createDefaultRegister name => exact htidy (.discard (.createRegister hplain trivial fun _ => trivial))
  | reserveScope kind => exact htidy (.discard (.reserveScope kind))
  | freshSignal | freshRegister => exact hplain.elim
  | zeroSignal => exact htidy (.discard .zeroSignal)
  | constantRegister => exact htidy (.discard (.constantRegister (.inr fun _ => trivial) fun _ => .inr trivial))
  | one width => exact htidy (.discard (.one (.inr fun _ => trivial)))
  | minusOne width => exact htidy (.discard (.minusOne (.inr fun _ => trivial)))
  | createState label => exact htidy (.discard (.createState label))
  | drive q s b => exact htidy (.drive (hwrites s) (.inr trivial))
  | copy q s t => exact htidy (.copy (hreads s) (hwrites t) (.inr trivial))
  | connect q p => exact htidy (.connect (.inr ⟨trivial, fun _ => trivial⟩) (.inr trivial))
  | connectWhen q p guard => exact htidy (.connectWhen (fun _ _ t _ => hreads t.signal) (.inr trivial) (.inr trivial))
  | chain first second => exact htidy (.discard (.chain_tidy first second))
  | sequence fragments => exact htidy (.discard (.sequence_tidy fragments))
  | _ => exact (Call.orderly rfl hd ht).1

theorem performAll_tidy : ∀ {calls : List Call} {d : Design}, (∀ c ∈ calls, c.Plain) → ConstantsKept d → d.Tidy →
    (performAll calls d).Tidy
  | [], _, _, _, ht => ht
  | c :: calls, d, hplain, hd, ht => by
    obtain ⟨hc, hcalls⟩ := List.forall_mem_cons.mp hplain
    show (performAll calls (after c.perform d)).Tidy
    exact performAll_tidy hcalls (Edits.constantsKept (c.makes d) hd) (Call.tidy hc hd ht)

theorem Reachable.sound (h : Reachable d) : Sound d := by
  obtain ⟨settings, calls, rfl⟩ := h
  exact (performAll_edits calls _).sound (.new settings)

namespace PlainlyReachable

theorem reachable (h : PlainlyReachable d) : Reachable d := by
  obtain ⟨settings, calls, -, hd⟩ := h
  exact ⟨settings, calls, hd⟩

theorem tidy (h : PlainlyReachable d) : d.Tidy := by
  obtain ⟨settings, calls, hplain, rfl⟩ := h
  exact performAll_tidy hplain (.new settings) (.new settings)

theorem perform (h : PlainlyReachable d) (hc : c.Plain) : (after c.perform d).PlainlyReachable := by
  obtain ⟨settings, calls, hcalls, rfl⟩ := h
  refine ⟨settings, calls ++ [c], List.forall_mem_append.mpr ⟨hcalls, List.forall_mem_singleton.mpr hc⟩, ?_⟩
  rw [performAll, List.foldl_append]
  rfl

/-- A block whose operands exist and are what it asks for is built. -/
theorem exists_perform (h : PlainlyReachable d) (hc : c.builds = true) (hknows : d.Knows c.operands)
    (hacc : c.Accepted d) : ∃ d', c.perform d = .ok () d' := by
  obtain ⟨-, herror⟩ := Call.orderly hc h.reachable.sound.constants h.tidy
  cases hrun : c.perform d with
  | ok u d' => exact ⟨d', rfl⟩
  | error e d' => exact absurd ⟨hknows, hacc⟩ (herror e d' hrun).2

/-- A block fails only because of its operands. Where all of them exist, it is built exactly if they
are what it asks for. -/
theorem builds_iff_accepted (h : PlainlyReachable d) (hc : c.builds = true) :
    (∀ e d', c.perform d = .error e d' → e.BlamesOperands) ∧
      (d.Knows c.operands → ((∃ d', c.perform d = .ok () d') ↔ c.Accepted d)) := by
  have hd := h.reachable.sound
  obtain ⟨-, herror⟩ := Call.orderly hc hd.constants h.tidy
  refine ⟨fun e d' he => (herror e d' he).1, fun hknows => ⟨?_, h.exists_perform hc hknows⟩⟩
  rintro ⟨d', hok⟩
  exact (Call.of_ok hc hd hok).1

/-- A register, a name that is taken, a move onto its own source in another order, and a constant. -/
def hinderedCalls : List Call :=
  [.createRegister "n" 2, .createSignal "n[1]", .move ⟨"n", [⟨0⟩, ⟨1⟩]⟩ ⟨"n", [⟨1⟩, ⟨0⟩]⟩, .zeroSignal]

theorem hindered_builds_iff_accepted :
    PlainlyReachable (performAll hinderedCalls (.new {})) ∧
      (∃ d', (Call.decrement ⟨"n", [⟨0⟩, ⟨1⟩]⟩).perform (performAll hinderedCalls (.new {})) = .ok () d') ∧
      ¬ ∃ d', (Call.decrement ⟨"n", [⟨0⟩, ⟨2⟩]⟩).perform (performAll hinderedCalls (.new {})) = .ok () d' := by
  have hd : PlainlyReachable (performAll hinderedCalls (.new {})) :=
    ⟨{}, hinderedCalls, by simp [hinderedCalls, Call.Plain], rfl⟩
  have hsize : (performAll hinderedCalls (.new {})).signals.size = 3 := by decide +kernel
  refine ⟨hd, ?_, ?_⟩
  · refine ((builds_iff_accepted hd rfl).2 (by simp [Call.operands, hsize])).mpr ⟨by decide, ?_⟩
    decide +kernel
  · refine fun h => (((builds_iff_accepted hd rfl).2 (by simp [Call.operands, hsize])).mp h).2 ⟨2⟩ (by simp) ?_
    decide +kernel

end PlainlyReachable

/-- A block with an operand that does not exist is refused, or else the operand was looked up only
after the block itself had made the signal. -/
theorem unknown_operand_refused (h : Reachable d) (hc : c.builds = true) (hs : s ∈ c.operands) (hnew : s ∉ d.known) :
    (∃ e d', c.perform d = .error e d') ∨ s ∉ c.checkedFirst ∧ s ∈ (after c.perform d).known := by
  cases hrun : c.perform d with
  | error e d' => exact .inl ⟨e, d', rfl⟩
  | ok u d' =>
    obtain ⟨-, hfirst, hknows⟩ := Call.of_ok hc h.sound hrun
    exact .inr ⟨fun hmem => hnew (hfirst s hmem), after_of_ok hrun ▸ hknows s hs⟩

theorem halfAdder_unknown_operand_refused :
    ⟨2⟩ ∉ (new {}).known ∧ ∃ e d', (Call.halfAdder ⟨0⟩ ⟨2⟩).perform (.new {}) = .error e d' := by
  have hnew : ⟨2⟩ ∉ (new {}).known := by decide
  -- A half adder makes two signals, so the third is still missing after it.
  have hmade : ⟨2⟩ ∉ (after (Call.halfAdder ⟨0⟩ ⟨2⟩).perform (.new {})).known := by decide +kernel
  exact ⟨hnew, (unknown_operand_refused ⟨{}, [], rfl⟩ rfl (by decide) hnew).resolve_right fun h => hmade h.2⟩

/-- The outputs of a half adder pass for its operands. -/
theorem unknown_operand_accepted :
    ¬ ∀ d, Reachable d → ∀ c : Call, c.builds = true → ∀ s ∈ c.operands, s ∉ d.known →
      ∃ e d', c.perform d = .error e d' := by
  intro h
  obtain ⟨e, d', he⟩ := h (.new {}) ⟨{}, [], rfl⟩ (.halfAdder ⟨0⟩ ⟨1⟩) rfl ⟨0⟩ (by decide) (by decide)
  have hsum : (result? (halfAdder ⟨0⟩ ⟨1⟩) (.new {})).map (·.sum) = some ⟨0⟩ := by decide +kernel
  obtain ⟨cell, hcell, -⟩ := eq_ok_of_result? hsum
  have hok : (Call.halfAdder ⟨0⟩ ⟨1⟩).perform (.new {}) = .ok () _ := discard_eq_ok.mpr ⟨cell, hcell⟩
  rw [hok] at he
  cases he

end Design

end SignalGraph
