/-
What construction can do to a design.

Every operation on designs, a failed one included, comes down to a run of the eight
changes of `Edit`, each made under the checks that its constructor names
(`Call.edits`). So a property that every edit keeps holds of every design that can be
reached, and nothing about blocks has to be opened to see it.
-/
import Mathlib.Logic.Relation
import SignalGraph.Block.Arithmetic
import SignalGraph.Proofs.Construction

namespace SignalGraph

/-- The signals whose values the action reads. -/
def Action.reads : Action → List SignalId
  | drive _ _ => []
  | copy src _ => [src]

namespace ConstantKey

/-- The number of bits of the constant register. -/
def width : ConstantKey → Nat
  | literal _ width => width
  | ones width => width

/-- The value of a bit of the constant register. -/
def bit : ConstantKey → Nat → Bool
  | literal value _, i => value.bit i
  | ones _, _ => true

end ConstantKey

namespace Design

/-- The register is made of the constant signals that the key asks for. -/
structure Keeps (d : Design) (key : ConstantKey) (r : Register) : Prop where
  name : r.name = key.name
  width : r.bits.length = key.width
  bits : ∀ i s, r.bits[i]? = some s → d.signal? s = some ⟨s!"{key.name}[{i}]", key.bit i, true⟩

/-- One change of a design, with what is checked before it is made. -/
inductive Edit : Design → Design → Prop
  | signal {d : Design} (info : SignalInfo) : info.name ∉ d.names → Edit d (d.pushSignal info)
  | scope {d : Design} : Edit d { d with scopes := d.scopes + 1 }
  | zero {d : Design} {s : SignalId} : d.zero = none →
      d.signal? s = some ⟨"const.zero", false, true⟩ → Edit d { d with zero := some s }
  | constant {d : Design} {key : ConstantKey} {r : Register} : d.constants.lookup key = none →
      d.Keeps key r → Edit d { d with constants := (key, r) :: d.constants }
  | state {d : Design} (label : String) : Edit d (d.pushState label)
  | action {d : Design} {q : StateId} {a : Action} : q.index < d.states.size →
      (∀ s ∈ a.reads, s.index < d.signals.size) → d.Writable a.target →
      Edit d (d.editState q (·.addAction a))
  | transition {d : Design} {q target : StateId} {g : Guard} : q.index < d.states.size →
      target.index < d.states.size → (∀ s ∈ g.signals, s.index < d.signals.size) →
      Edit d (d.editState q (·.addTransition q target g))
  | default {d : Design} {q target : StateId} {n : StateNode} : d.state? q = some n →
      n.defaultTarget = none → target.index < d.states.size →
      Edit d (d.editState q (·.setDefault target))

/-- Any number of changes, one after the other. -/
abbrev Edits : Design → Design → Prop := Relation.ReflTransGen Edit

/-- Whatever a step of construction does, it does by edits. -/
def Makes {α : Type} (x : BuildM α) : Prop := ∀ d, Edits d (after x d)

section

variable {α β : Type}

theorem Makes.edits {x : BuildM α} (hx : Makes x) {a : α} {d d' : Design} (h : x d = .ok a d') :
    Edits d d' := after_of_ok h ▸ hx d

theorem edits_bind {x : BuildM α} {f : α → BuildM β} {d : Design} (hx : Edits d (after x d))
    (hf : ∀ a d₁, x d = .ok a d₁ → Edits d₁ (after (f a) d₁)) : Edits d (after (x >>= f) d) := by
  rw [after_bind]
  split
  · next a d₁ h => exact (after_of_ok h ▸ hx).trans (hf a d₁ h)
  · next h => exact after_of_error h ▸ hx

theorem Makes.pure (a : α) : Makes (pure a) := fun _ => .refl

theorem Makes.throw (e : BuildError) : Makes (throw e : BuildM α) := fun _ => .refl

theorem Makes.bind {x : BuildM α} {f : α → BuildM β} (hx : Makes x) (hf : ∀ a, Makes (f a)) :
    Makes (x >>= f) :=
  fun d => edits_bind (hx d) fun a d₁ _ => hf a d₁

theorem Makes.ite {c : Prop} [Decidable c] {x y : BuildM α} (hx : Makes x) (hy : Makes y) :
    Makes (if c then x else y) := by
  split
  · exact hx
  · exact hy

theorem Makes.discard {x : BuildM α} (hx : Makes x) : Makes (discard x) :=
  fun d => after_discard x d ▸ hx d

theorem Makes.forM {f : α → BuildM PUnit} (hf : ∀ a, Makes (f a)) : ∀ l : List α, Makes (l.forM f)
  | [] => .pure _
  | a :: l => .bind (hf a) fun _ => Makes.forM hf l

theorem Makes.mapM {f : α → BuildM β} (hf : ∀ a, Makes (f a)) (l : List α) : Makes (l.mapM f) := by
  induction l with
  | nil => exact .pure _
  | cons a l ih =>
    rw [List.mapM_cons]
    exact .bind (hf a) fun _ => .bind ih fun _ => .pure _

theorem Makes.foldlM {f : β → α → BuildM β} (hf : ∀ b a, Makes (f b a)) :
    ∀ (l : List α) (b : β), Makes (l.foldlM f b)
  | [], _ => .pure _
  | a :: l, b => by
    rw [List.foldlM_cons]
    exact .bind (hf b a) fun b => Makes.foldlM hf l b

end

/-! ## Checks -/

theorem requireSignal_makes (s : SignalId) : Makes (requireSignal s) := by
  intro d
  have : after (requireSignal s) d = d := by
    unfold after requireSignal
    cases d.signal? s <;> rfl
  rw [this]

theorem requireWritable_makes (s : SignalId) : Makes (requireWritable s) :=
  .bind (requireSignal_makes s) fun _ => .ite (.throw _) (.pure _)

theorem requireState_makes (q : StateId) : Makes (requireState q) := by
  intro d
  have : after (requireState q) d = d := by
    unfold after requireState
    cases d.state? q <;> rfl
  rw [this]

theorem requireNoDefault_makes (q : StateId) : Makes (requireNoDefault q) :=
  .bind (requireState_makes q) fun _ => .ite (.throw _) (.pure _)

theorem requireSameWidth_makes (op : Operation) (a b : Register) : Makes (requireSameWidth op a b) :=
  .ite (.pure _) (.throw _)

theorem requireFits_makes (value : Word) (width : Nat) : Makes (requireFits value width) :=
  .ite (.pure _) (.throw _)

/-! ## States, actions and edges -/

theorem createState_makes (label : String) : Makes (createState label) := fun _ => .single (.state label)

theorem freshState_makes (scope role : String) : Makes (freshState scope role) := createState_makes _

theorem updateState_edits {q : StateId} {change : StateNode → StateNode} {d : Design}
    (h : q.index < d.states.size → Edit d (d.editState q change)) :
    Edits d (after (updateState q change) d) := by
  refine edits_bind (requireState_makes q d) fun n d₁ hq => ?_
  obtain ⟨hn, rfl⟩ := requireState_eq_ok.mp hq
  exact .single (h (Array.getElem?_eq_some_iff.mp hn).1)

theorem drive_makes (q : StateId) (s : SignalId) (b : Bool) : Makes (drive q s b) := by
  intro d
  refine edits_bind (requireWritable_makes s d) fun _ d₁ h => ?_
  obtain ⟨hs, rfl⟩ := requireWritable_eq_ok.mp h
  exact updateState_edits fun hq => .action hq (by simp [Action.reads]) hs

theorem copy_makes (q : StateId) (src dst : SignalId) : Makes (copy q src dst) := by
  intro d
  refine edits_bind (requireSignal_makes src d) fun _ d₁ h => ?_
  obtain ⟨hs, rfl⟩ := requireSignal_eq_ok.mp h
  refine edits_bind (requireWritable_makes dst d) fun _ d₁ h => ?_
  obtain ⟨ht, rfl⟩ := requireWritable_eq_ok.mp h
  exact updateState_edits fun hq => .action hq (by simpa [Action.reads] using signal?_lt hs) ht

theorem connect_makes (source target : StateId) : Makes (connect source target) := by
  intro d
  refine edits_bind (requireState_makes target d) fun _ d₁ h => ?_
  obtain ⟨ht, rfl⟩ := requireState_eq_ok.mp h
  refine edits_bind (requireNoDefault_makes source d) fun _ d₁ h => ?_
  obtain ⟨⟨n, hn, hd⟩, rfl⟩ := requireNoDefault_eq_ok.mp h
  exact updateState_edits fun _ => .default hn hd (Array.getElem?_eq_some_iff.mp ht).1

theorem connectWhen_makes (source target : StateId) (guard : Guard) :
    Makes (connectWhen source target guard) := by
  intro d
  refine edits_bind (requireState_makes target d) fun _ d₁ h => ?_
  obtain ⟨ht, rfl⟩ := requireState_eq_ok.mp h
  refine edits_bind (Makes.forM (fun s => .discard (requireSignal_makes s)) _ d) fun _ d₁ h => ?_
  obtain ⟨hg, rfl⟩ := requireSignals_eq_ok.mp h
  exact updateState_edits fun hs => .transition hs (Array.getElem?_eq_some_iff.mp ht).1 hg

/-! ## Signals, registers and constants -/

theorem addSignal_makes (name : String) (initial constant : Bool) :
    Makes (addSignal name initial constant) := by
  intro d
  unfold after addSignal
  split
  · next h =>
    split at h
    · cases h
    · next hname =>
      cases h
      exact .single (.signal ⟨name, initial, constant⟩ hname)
  · next h =>
    split at h
    · cases h
      exact .refl
    · cases h

theorem createSignal_makes (name : String) : Makes (createSignal name) := addSignal_makes _ _ _

theorem freshSignal_makes (scope role : String) : Makes (freshSignal scope role) := addSignal_makes _ _ _

theorem addBitsFrom_makes (name : String) (initial : Nat → Bool) (constant : Bool) :
    ∀ i count : Nat, Makes (addBitsFrom name initial constant i count)
  | _, 0 => .pure _
  | i, count + 1 => .bind (addSignal_makes _ _ _) fun _ =>
      .bind (addBitsFrom_makes name initial constant (i + 1) count) fun _ => .pure _

theorem addBits_makes (name : String) (width : Nat) (initial : Nat → Bool) (constant : Bool) :
    Makes (addBits name width initial constant) :=
  .bind (addBitsFrom_makes _ _ _ _ _) fun _ => .pure _

theorem createRegister_makes (name : String) (width : Nat) : Makes (createRegister name width) :=
  .ite (.throw _) (addBits_makes _ _ _ _)

theorem createDefaultRegister_makes (name : String) : Makes (createDefaultRegister name) :=
  .bind (fun _ => .refl) fun _ => createRegister_makes _ _

theorem freshRegister_makes (scope role : String) (width : Nat) :
    Makes (freshRegister scope role width) := createRegister_makes _ _

theorem reserveScope_makes (kind : String) : Makes (reserveScope kind) := fun _ => .single .scope

theorem zeroSignal_makes : Makes zeroSignal := by
  intro d
  cases hz : d.zero with
  | some s =>
    have : after zeroSignal d = d := by simp only [after, zeroSignal, hz]
    rw [this]
  | none =>
    have : after zeroSignal d = after addZero d := by simp only [after, zeroSignal, hz]
    rw [this]
    refine edits_bind (addSignal_makes _ _ _ d) fun s d₁ h => ?_
    obtain ⟨-, rfl, rfl⟩ := addSignal_eq_ok.mp h
    exact .single (.zero hz (by simp [signal?, pushSignal]))

theorem keeps_addBits {key : ConstantKey} {r : Register} {d d' : Design}
    (h : addBits key.name key.width key.bit true d = .ok r d') : d'.Keeps key r := by
  obtain ⟨rfl, hd⟩ := addBits_ok h
  refine ⟨rfl, length_handles _ _, fun i s hs => ?_⟩
  obtain ⟨hi, rfl⟩ := getElem?_handles hs
  rw [hd]
  simp [signal?, bitInfos, hi]

theorem addConstant_edits {key : ConstantKey} {d : Design} (h : d.constants.lookup key = none) :
    Edits d (after (addConstant key key.width key.bit) d) := by
  refine edits_bind (addBits_makes _ _ _ _ d) fun r d₁ hr => ?_
  refine .single (.constant ?_ (keeps_addBits hr))
  rw [(addBits_ok hr).2]
  exact h

theorem constantOr_edits {key : ConstantKey} {make : BuildM Register} {d : Design}
    (h : d.constants.lookup key = none → Edits d (after make d)) :
    Edits d (after (constantOr key make) d) := by
  cases hk : d.constants.lookup key with
  | some r =>
    have : after (constantOr key make) d = d := by simp only [after, constantOr, hk]
    rw [this]
  | none =>
    have : after (constantOr key make) d = after make d := by simp only [after, constantOr, hk]
    exact this ▸ h hk

theorem constantRegister_makes (value : Word) (width : Nat) : Makes (constantRegister value width) := by
  refine fun d => constantOr_edits fun hk => ?_
  split
  · exact Makes.throw _ d
  · split
    · exact addConstant_edits hk
    · exact Makes.throw _ d

theorem minusOne_makes (width : Nat) : Makes (minusOne width) :=
  .ite (constantRegister_makes _ _) fun _ => constantOr_edits fun hk => addConstant_edits hk

/-! ## Fragments -/

theorem chain_makes (first second : Fragment) : Makes (chain first second) :=
  .bind (connect_makes _ _) fun _ => .pure _

theorem sequence_makes : ∀ fragments : List Fragment, Makes (sequence fragments)
  | [] => .throw _
  | first :: rest => Makes.foldlM chain_makes rest first

end Design

/-! ## Blocks -/

namespace Block

open Design

theorem halfAdderOfSame_makes (scope : String) (a sum carry : SignalId) :
    Makes (halfAdderOfSame scope a sum carry) :=
  .bind (freshState_makes _ _) fun _ => .bind (freshState_makes _ _) fun _ =>
  .bind (freshState_makes _ _) fun _ => .bind (drive_makes _ _ _) fun _ =>
  .bind (drive_makes _ _ _) fun _ => .bind (connectWhen_makes _ _ _) fun _ =>
  .bind (connect_makes _ _) fun _ => .bind (drive_makes _ _ _) fun _ =>
  .bind (connect_makes _ _) fun _ => .pure _

theorem halfAdderOfDistinct_makes (scope : String) (a b sum carry : SignalId) :
    Makes (halfAdderOfDistinct scope a b sum carry) :=
  .bind (freshState_makes _ _) fun _ => .bind (freshState_makes _ _) fun _ =>
  .bind (freshState_makes _ _) fun _ => .bind (freshState_makes _ _) fun _ =>
  .bind (drive_makes _ _ _) fun _ => .bind (drive_makes _ _ _) fun _ =>
  .bind (connectWhen_makes _ _ _) fun _ => .bind (connectWhen_makes _ _ _) fun _ =>
  .bind (connectWhen_makes _ _ _) fun _ => .bind (connect_makes _ _) fun _ =>
  .bind (drive_makes _ _ _) fun _ => .bind (connect_makes _ _) fun _ =>
  .bind (drive_makes _ _ _) fun _ => .bind (connect_makes _ _) fun _ => .pure _

theorem halfAdder_makes (a b : SignalId) : Makes (halfAdder a b) :=
  .bind (reserveScope_makes _) fun _ => .bind (freshSignal_makes _ _) fun _ =>
  .bind (freshSignal_makes _ _) fun _ =>
  .ite (halfAdderOfSame_makes _ _ _ _) (halfAdderOfDistinct_makes _ _ _ _ _)

theorem fullAdder_makes (a b carryIn : SignalId) : Makes (fullAdder a b carryIn) :=
  .bind (reserveScope_makes _) fun _ => .bind (freshSignal_makes _ _) fun _ =>
  .bind (freshSignal_makes _ _) fun _ => .bind (freshState_makes _ _) fun _ =>
  .bind (drive_makes _ _ _) fun _ => .bind (halfAdder_makes _ _) fun _ =>
  .bind (halfAdder_makes _ _) fun _ => .bind (freshState_makes _ _) fun _ =>
  .bind (freshState_makes _ _) fun _ => .bind (connect_makes _ _) fun _ =>
  .bind (connect_makes _ _) fun _ => .bind (connectWhen_makes _ _ _) fun _ =>
  .bind (connect_makes _ _) fun _ => .bind (drive_makes _ _ _) fun _ =>
  .bind (connect_makes _ _) fun _ => .bind (copy_makes _ _ _) fun _ => .pure _

theorem carryChain_makes : ∀ (last : StateId) (carryIn : SignalId) (slices : List BitSlice),
    Makes (carryChain last carryIn slices)
  | _, _, [] => .pure _
  | _, _, _ :: rest =>
    .bind (fullAdder_makes _ _ _) fun stage => .bind (copy_makes _ _ _) fun _ =>
    .bind (connect_makes _ _) fun _ =>
    .bind (carryChain_makes stage.fragment.exit stage.carry rest) fun _ => .pure _

theorem addWithCarry_makes (a b : Register) (carryIn : SignalId) : Makes (addWithCarry a b carryIn) :=
  .bind (reserveScope_makes _) fun _ => .bind (freshRegister_makes _ _ _) fun _ =>
  .bind (freshSignal_makes _ _) fun _ => .bind (freshState_makes _ _) fun _ =>
  .bind (drive_makes _ _ _) fun _ => .bind (carryChain_makes _ _ _) fun _ =>
  .bind (freshState_makes _ _) fun _ => .bind (freshState_makes _ _) fun _ =>
  .bind (connectWhen_makes _ _ _) fun _ => .bind (connect_makes _ _) fun _ =>
  .bind (drive_makes _ _ _) fun _ => .bind (connect_makes _ _) fun _ => .pure _

theorem signalOrZero_makes : ∀ carryIn : Option SignalId, Makes (signalOrZero carryIn)
  | some _ => .pure _
  | none => zeroSignal_makes

theorem add_makes (a b : Register) (carryIn : Option SignalId) : Makes (add a b carryIn) :=
  .bind (requireSameWidth_makes _ _ _) fun _ => .bind (signalOrZero_makes _) fun _ =>
  addWithCarry_makes _ _ _

theorem invertBit_makes (scope : String) (bit : SignalId) (i : Nat) : Makes (invertBit scope bit i) :=
  .bind (freshState_makes _ _) fun _ => .bind (freshState_makes _ _) fun _ =>
  .bind (freshState_makes _ _) fun _ => .bind (connectWhen_makes _ _ _) fun _ =>
  .bind (connect_makes _ _) fun _ => .bind (drive_makes _ _ _) fun _ =>
  .bind (drive_makes _ _ _) fun _ => .pure _

theorem linkBits_makes (exit : StateId) : ∀ (last : List StateId) (bits : List InvertedBit),
    Makes (linkBits exit last bits)
  | last, [] => .forM (fun _ => connect_makes _ _) last
  | last, _ :: rest =>
    .bind (.forM (fun _ => connect_makes _ _) last) fun _ => linkBits_makes exit _ rest

theorem invert_makes (a : Register) : Makes (invert a) :=
  .bind (reserveScope_makes _) fun _ => .bind (freshState_makes _ _) fun _ =>
  .bind (.mapM (fun _ => invertBit_makes _ _ _) _) fun _ => .bind (freshState_makes _ _) fun _ =>
  .bind (linkBits_makes _ _ _) fun _ => .pure _

theorem move_makes (src dst : Register) : Makes (move src dst) :=
  .bind (requireSameWidth_makes _ _ _) fun _ => .bind (.ite (.pure _) (.throw _)) fun _ =>
  .bind (reserveScope_makes _) fun _ => .bind (freshState_makes _ _) fun _ =>
  .bind (.forM (fun _ => copy_makes _ _ _) _) fun _ => .pure _

theorem loadSignal_makes (signal : SignalId) (value : Bool) : Makes (loadSignal signal value) :=
  .bind (reserveScope_makes _) fun _ => .bind (freshState_makes _ _) fun _ =>
  .bind (drive_makes _ _ _) fun _ => .pure _

theorem loadRegister_makes (r : Register) (value : Word) : Makes (loadRegister r value) :=
  .bind (requireFits_makes _ _) fun _ => .bind (reserveScope_makes _) fun _ =>
  .bind (freshState_makes _ _) fun _ => .bind (.forM (fun _ => drive_makes _ _ _) _) fun _ => .pure _

theorem complement_makes (a : Register) : Makes (complement a) :=
  .bind (constantRegister_makes _ _) fun _ => .bind (invert_makes _) fun _ =>
  .bind (add_makes _ _ _) fun _ => .bind (move_makes _ _) fun _ =>
  .bind (sequence_makes _) fun _ => .pure _

theorem subtract_makes (a b : Register) : Makes (subtract a b) :=
  .bind (requireSameWidth_makes _ _ _) fun _ => .bind (.ite (.throw _) (.pure _)) fun _ =>
  .bind (complement_makes _) fun _ => .bind (add_makes _ _ _) fun _ =>
  .bind (move_makes _ _) fun _ => .bind (sequence_makes _) fun _ => .pure _

theorem accumulate_makes (a b : Register) : Makes (accumulate a b) :=
  .bind (add_makes _ _ _) fun _ => .bind (move_makes _ _) fun _ =>
  .bind (chain_makes _ _) fun _ => .pure _

theorem increment_makes (a : Register) : Makes (increment a) :=
  .bind (constantRegister_makes _ _) fun _ => accumulate_makes _ _

theorem decrement_makes (a : Register) : Makes (decrement a) :=
  .bind (minusOne_makes _) fun _ => accumulate_makes _ _

end Block

/-! ## The designs that can be reached -/

namespace Design

/-- An operation on designs, with its arguments. -/
inductive Call where
  | createSignal (name : String)
  | createRegister (name : String) (width : Nat)
  | createDefaultRegister (name : String)
  | reserveScope (kind : String)
  | freshSignal (scope role : String)
  | freshRegister (scope role : String) (width : Nat)
  | zeroSignal
  | constantRegister (value : Word) (width : Nat)
  | one (width : Nat)
  | minusOne (width : Nat)
  | createState (label : String)
  | drive (state : StateId) (signal : SignalId) (value : Bool)
  | copy (state : StateId) (src dst : SignalId)
  | connect (source target : StateId)
  | connectWhen (source target : StateId) (guard : Guard)
  | chain (first second : Fragment)
  | sequence (fragments : List Fragment)
  | halfAdder (a b : SignalId)
  | fullAdder (a b carryIn : SignalId)
  | add (a b : Register) (carryIn : Option SignalId)
  | invert (a : Register)
  | complement (a : Register)
  | subtract (a b : Register)
  | increment (a : Register)
  | decrement (a : Register)
  | move (src dst : Register)
  | loadSignal (signal : SignalId) (value : Bool)
  | loadRegister (r : Register) (value : Word)

/-- Carries out an operation. What it returns is dropped. -/
def Call.perform : Call → BuildM Unit
  | createSignal name => discard (Design.createSignal name)
  | createRegister name width => discard (Design.createRegister name width)
  | createDefaultRegister name => discard (Design.createDefaultRegister name)
  | reserveScope kind => discard (Design.reserveScope kind)
  | freshSignal scope role => discard (Design.freshSignal scope role)
  | freshRegister scope role width => discard (Design.freshRegister scope role width)
  | zeroSignal => discard Design.zeroSignal
  | constantRegister value width => discard (Design.constantRegister value width)
  | one width => discard (Design.one width)
  | minusOne width => discard (Design.minusOne width)
  | createState label => discard (Design.createState label)
  | drive state signal value => Design.drive state signal value
  | copy state src dst => Design.copy state src dst
  | connect source target => Design.connect source target
  | connectWhen source target guard => Design.connectWhen source target guard
  | chain first second => discard (Design.chain first second)
  | sequence fragments => discard (Design.sequence fragments)
  | halfAdder a b => discard (Block.halfAdder a b)
  | fullAdder a b carryIn => discard (Block.fullAdder a b carryIn)
  | add a b carryIn => discard (Block.add a b carryIn)
  | invert a => discard (Block.invert a)
  | complement a => discard (Block.complement a)
  | subtract a b => discard (Block.subtract a b)
  | increment a => discard (Block.increment a)
  | decrement a => discard (Block.decrement a)
  | move src dst => discard (Block.move src dst)
  | loadSignal signal value => discard (Block.loadSignal signal value)
  | loadRegister r value => discard (Block.loadRegister r value)

/-- What a design becomes by some operations, one after the other. An operation that fails
leaves what it had made before the fault. -/
def performAll (calls : List Call) (d : Design) : Design := calls.foldl (fun d c => after c.perform d) d

/-- What a new design can become. -/
def Reachable (d : Design) : Prop := ∃ settings calls, performAll calls (.new settings) = d

theorem Call.makes (c : Call) : Makes c.perform := by
  cases c with
  | createSignal => exact .discard (createSignal_makes _)
  | createRegister => exact .discard (createRegister_makes _ _)
  | createDefaultRegister => exact .discard (createDefaultRegister_makes _)
  | reserveScope => exact .discard (reserveScope_makes _)
  | freshSignal => exact .discard (freshSignal_makes _ _)
  | freshRegister => exact .discard (freshRegister_makes _ _ _)
  | zeroSignal => exact .discard zeroSignal_makes
  | constantRegister => exact .discard (constantRegister_makes _ _)
  | one => exact .discard (constantRegister_makes _ _)
  | minusOne => exact .discard (minusOne_makes _)
  | createState => exact .discard (createState_makes _)
  | drive => exact drive_makes _ _ _
  | copy => exact copy_makes _ _ _
  | connect => exact connect_makes _ _
  | connectWhen => exact connectWhen_makes _ _ _
  | chain => exact .discard (chain_makes _ _)
  | sequence => exact .discard (sequence_makes _)
  | halfAdder => exact .discard (Block.halfAdder_makes _ _)
  | fullAdder => exact .discard (Block.fullAdder_makes _ _ _)
  | add => exact .discard (Block.add_makes _ _ _)
  | invert => exact .discard (Block.invert_makes _)
  | complement => exact .discard (Block.complement_makes _)
  | subtract => exact .discard (Block.subtract_makes _ _)
  | increment => exact .discard (Block.increment_makes _)
  | decrement => exact .discard (Block.decrement_makes _)
  | move => exact .discard (Block.move_makes _ _)
  | loadSignal => exact .discard (Block.loadSignal_makes _ _)
  | loadRegister => exact .discard (Block.loadRegister_makes _ _)

theorem Edits.invariant {I : Design → Prop} (hedit : ∀ d d', Edit d d' → I d → I d') {d d' : Design}
    (h : Edits d d') (hd : I d) : I d' := by
  induction h with
  | refl => exact hd
  | tail _ he ih => exact hedit _ _ he ih

theorem performAll_edits : ∀ (calls : List Call) (d : Design), Edits d (performAll calls d)
  | [], _ => .refl
  | c :: calls, d => (c.makes d).trans (performAll_edits calls (after c.perform d))

/-- A property that new designs have and every edit keeps holds of every design that can be
reached. -/
theorem Reachable.invariant {I : Design → Prop} (hnew : ∀ settings, I (.new settings))
    (hedit : ∀ d d', Edit d d' → I d → I d') {d : Design} (h : Reachable d) : I d := by
  obtain ⟨settings, calls, rfl⟩ := h
  exact (performAll_edits calls _).invariant hedit (hnew settings)

end Design

end SignalGraph
