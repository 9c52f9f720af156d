/-
The code of each block.

A block takes its new signals from the end of the table, so its code is known from its
operands and from how many signals there were. Building a block adds that code to the table
of states, and nothing else: the proofs follow the construction step by step with the rules
of `Emitted`.
-/
import SignalGraph.Block.Arithmetic
import SignalGraph.Proofs.Layout

namespace SignalGraph.Block

open Design

/-! ## Adders of one bit -/

/-- The step of a half adder of two different signals. -/
def halfAdderStep (a b sum carry : SignalId) : Step where
  actions := [.drive sum false, .drive carry false]
  arms := [⟨[.all [⟨a, true⟩, ⟨b, false⟩], .all [⟨a, false⟩, ⟨b, true⟩]], [.drive sum true]⟩,
    ⟨[.all [⟨a, true⟩, ⟨b, true⟩]], [.drive carry true]⟩]

def halfAdderCode (a b sum carry : SignalId) : Code :=
  if a = b then
    (Code.single [.drive sum false, .drive carry false]).branch (.when a true) [.drive carry true]
  else ⟨[halfAdderStep a b sum carry], []⟩

theorem halfAdderOfSame_emitted {scope : String} {a sum carry : SignalId} {cell : AdderCell} {d d' : Design}
    (h : halfAdderOfSame scope a sum carry d = .ok cell d') :
    Emitted d.states d.signals.size d' [(cell.fragment, halfAdderCode a a sum carry)] ∧
      cell.sum = sum ∧ cell.carry = carry := by
  simp only [halfAdderOfSame, bind_eq_ok, pure_eq_ok] at h
  obtain ⟨entry, d₁, hentry, carryCalc, d₂, hcarryCalc, exit, d₃, hexit, _, d₄, hsum, _, d₅, hcarry,
    _, d₆, h₆, _, d₇, h₇, _, d₈, h₈, _, d₉, h₉, rfl, rfl⟩ := h
  have hstates := (((Emitted.start d).freshState hentry).freshState hcarryCalc).freshState hexit
  have hclear := (hstates.drive hsum).drive hcarry
  rw [halfAdderCode, if_pos rfl]
  exact ⟨hclear.branch h₆ h₇ h₈ h₉, rfl, rfl⟩

/-- The edits that make two arms of two states after the first, and lead both to the last. -/
theorem halfAdderStep_emitted {t : Array StateNode} {n : Nat} {d : Design} {a b sum carry : SignalId}
    {entry sumCalc carryCalc exit : StateId}
    (h : Emitted t n d [(.single entry, .single [.drive sum false, .drive carry false]),
      (.single sumCalc, .single []), (.single carryCalc, .single []), (.single exit, .single [])]) :
    Emitted t n
      (((d.editState entry fun m => (((m.addTransition entry sumCalc
          (.all [⟨a, true⟩, ⟨b, false⟩])).addTransition entry sumCalc
          (.all [⟨a, false⟩, ⟨b, true⟩])).addTransition entry carryCalc
          (.all [⟨a, true⟩, ⟨b, true⟩])).setDefault exit).editState sumCalc
        fun m => (m.addAction (.drive sum true)).setDefault exit).editState carryCalc
        fun m => (m.addAction (.drive carry true)).setDefault exit)
      [(⟨entry, exit, [entry, sumCalc, carryCalc, exit]⟩, ⟨[halfAdderStep a b sum carry], []⟩)] := by
  obtain ⟨rfl, ⟨n₀, hn₀, hact₀, htrans₀, -⟩, hrow⟩ := h.row.single
  obtain ⟨rfl, ⟨n₁, hn₁, hact₁, htrans₁, -⟩, hrow⟩ := hrow.single
  obtain ⟨rfl, ⟨n₂, hn₂, hact₂, htrans₂, -⟩, hrow⟩ := hrow.single
  obtain ⟨rfl, ⟨n₃, hn₃, hact₃, hrest₃⟩, -⟩ := hrow.single
  refine h.of_row (by simp) (by simp) rfl (fun i hi => ?_)
    ⟨rfl, ⟨⟨⟨?_, fun k actions hk => ?_⟩, trivial⟩, ?_⟩, trivial⟩
  · rw [editState_getElem?_of_ne (by dsimp only; omega), editState_getElem?_of_ne (by dsimp only; omega),
      editState_getElem?_of_ne (by dsimp only; omega)]
  · rw [editState_getElem?_of_ne (by dsimp only; omega), editState_getElem?_of_ne (by dsimp only; omega)]
    refine ⟨_, editState_getElem?_self hn₀ _, hact₀, ?_, rfl⟩
    simp [StateNode.setDefault, StateNode.addTransition, htrans₀, halfAdderStep, Step.edges]
  · rcases k with _ | _ | k
    · cases hk
      rw [editState_getElem?_of_ne (by dsimp only; omega)]
      refine ⟨_, editState_getElem?_self ((editState_getElem?_of_ne (by dsimp only; omega) _).trans hn₁) _,
        ?_, htrans₁, rfl⟩
      simp [StateNode.setDefault, StateNode.addAction, hact₁]
    · cases hk
      refine ⟨_, editState_getElem?_self ((editState_getElem?_of_ne (by dsimp only; omega) _).trans
        ((editState_getElem?_of_ne (by dsimp only; omega) _).trans hn₂)) _, ?_, htrans₂, rfl⟩
      simp [StateNode.setDefault, StateNode.addAction, hact₂]
    · cases hk
  · have hlast : t.size + span [halfAdderStep a b sum carry] = t.size + 1 + 1 + 1 := rfl
    refine ⟨n₃, ?_, hact₃, hrest₃⟩
    rw [hlast, editState_getElem?_of_ne (by dsimp only; omega), editState_getElem?_of_ne (by dsimp only; omega),
      editState_getElem?_of_ne (by dsimp only; omega), hn₃]

theorem halfAdderOfDistinct_emitted {scope : String} {a b sum carry : SignalId} {cell : AdderCell}
    {d d' : Design} (h : halfAdderOfDistinct scope a b sum carry d = .ok cell d') (hab : a ≠ b) :
    Emitted d.states d.signals.size d' [(cell.fragment, halfAdderCode a b sum carry)] ∧
      cell.sum = sum ∧ cell.carry = carry := by
  simp only [halfAdderOfDistinct, bind_eq_ok, pure_eq_ok] at h
  obtain ⟨entry, d₁, hentry, sumCalc, d₂, hsumCalc, carryCalc, d₃, hcarryCalc, exit, d₄, hexit, _, d₅, hsum,
    _, d₆, hcarry, h⟩ := h
  have hstates := ((((Emitted.start d).freshState hentry).freshState hsumCalc).freshState hcarryCalc).freshState
    hexit
  have hclear := (hstates.drive hsum).drive hcarry
  simp only [connectWhen_eq_ok, connect_eq_ok, drive_eq_ok] at h
  obtain ⟨_, d₇, ⟨-, -, -, h₇⟩, _, d₈, ⟨-, -, -, h₈⟩, _, d₉, ⟨-, -, -, h₉⟩, _, d₁₀, ⟨-, -, h₁₀⟩,
    _, d₁₁, ⟨-, -, h₁₁⟩, _, d₁₂, ⟨-, -, h₁₂⟩, _, d₁₃, ⟨-, -, h₁₃⟩, _, d₁₄, ⟨-, -, h₁₄⟩, rfl, rfl⟩ := h
  rw [h₁₄, h₁₃, editState_editState, h₁₂, h₁₁, editState_editState, h₁₀, h₉, editState_editState, h₈,
    editState_editState, h₇, editState_editState, halfAdderCode, if_neg hab]
  exact ⟨halfAdderStep_emitted hclear, rfl, rfl⟩

theorem halfAdder_emitted {a b : SignalId} {cell : AdderCell} {d d' : Design}
    (h : halfAdder a b d = .ok cell d') :
    Emitted d.states (d.signals.size + 2) d'
        [(cell.fragment, halfAdderCode a b ⟨d.signals.size⟩ ⟨d.signals.size + 1⟩)] ∧
      cell.sum = ⟨d.signals.size⟩ ∧ cell.carry = ⟨d.signals.size + 1⟩ := by
  simp only [halfAdder, bind_eq_ok] at h
  obtain ⟨scope, d₁, hscope, sum, d₂, hsum, carry, d₃, hcarry, h⟩ := h
  obtain ⟨rfl, h₂⟩ := ((Emitted.start d).reserveScope hscope).freshSignal hsum
  obtain ⟨rfl, h₃⟩ := h₂.freshSignal hcarry
  split at h
  · next hab =>
    subst hab
    obtain ⟨hcell, hs, hc⟩ := halfAdderOfSame_emitted h
    exact ⟨h₃.signals ▸ h₃.append hcell, hs, hc⟩
  · next hab =>
    obtain ⟨hcell, hs, hc⟩ := halfAdderOfDistinct_emitted h hab
    exact ⟨h₃.signals ▸ h₃.append hcell, hs, hc⟩

def fullAdderCode (n : Nat) (a b carryIn : SignalId) : Code :=
  ((((Code.single [.drive ⟨n + 1⟩ false]).andThen (halfAdderCode a b ⟨n + 2⟩ ⟨n + 3⟩)).andThen
    (halfAdderCode ⟨n + 2⟩ carryIn ⟨n + 4⟩ ⟨n + 5⟩)).branch
    (.any [[⟨⟨n + 3⟩, true⟩], [⟨⟨n + 5⟩, true⟩]]) [.drive ⟨n + 1⟩ true]).act (.copy ⟨n + 4⟩ ⟨n⟩)

theorem fullAdder_emitted {a b carryIn : SignalId} {cell : AdderCell} {d d' : Design}
    (h : fullAdder a b carryIn d = .ok cell d') :
    Emitted d.states (d.signals.size + 6) d' [(cell.fragment, fullAdderCode d.signals.size a b carryIn)] ∧
      cell.sum = ⟨d.signals.size⟩ ∧ cell.carry = ⟨d.signals.size + 1⟩ := by
  simp only [fullAdder, bind_eq_ok, pure_eq_ok] at h
  obtain ⟨scope, d₁, hscope, sum, d₂, hsum, carry, d₃, hcarry, entry, d₄, hentry, _, d₅, hclear,
    first, d₆, hfirst, second, d₇, hsecond, carryCalc, d₈, hcarryCalc, exit, d₉, hexit, _, d₁₀, h₁₀, _, d₁₁, h₁₁,
    _, d₁₂, h₁₂, _, d₁₃, h₁₃, _, d₁₄, h₁₄, _, d₁₅, h₁₅, _, d₁₆, h₁₆, rfl, rfl⟩ := h
  obtain ⟨rfl, h₂⟩ := ((Emitted.start d).reserveScope hscope).freshSignal hsum
  obtain ⟨rfl, h₃⟩ := h₂.freshSignal hcarry
  have h₅ := (h₃.freshState hentry).drive hclear
  obtain ⟨hfirst, hfs, hfc⟩ := halfAdder_emitted hfirst
  obtain ⟨hsecond, hss, hsc⟩ := halfAdder_emitted hsecond
  have h₉ := (((h₅.append hfirst).append hsecond).freshState hcarryCalc).freshState hexit
  have hall := (((h₉.connect h₁₀).connect h₁₁).branch h₁₂ h₁₃ h₁₄ h₁₅).copy h₁₆
  simp only [hfs, hfc, hss, hsc, hfirst.signals, h₅.signals] at hall
  exact ⟨hall, rfl, rfl⟩

/-! ## Adders of registers -/

/-- The code `c`, then a full adder for each bit, whose signals start at `n`. -/
def rippleCode (c : Code) (n : Nat) (carryIn : SignalId) : List BitSlice → Code
  | [] => c
  | bit :: rest =>
    rippleCode (c.andThen ((fullAdderCode n bit.a bit.b carryIn).act (.copy ⟨n⟩ bit.sum))) (n + 6) ⟨n + 1⟩ rest

/-- The carry out of the last full adder. -/
def rippleCarry (n : Nat) (carryIn : SignalId) : List BitSlice → SignalId
  | [] => carryIn
  | _ :: rest => rippleCarry (n + 6) ⟨n + 1⟩ rest

theorem carryChain_emitted {t : Array StateNode} : ∀ {bits : List BitSlice} {f : Fragment} {c : Code} {n : Nat}
    {carryIn : SignalId} {chain : CarryChain} {d d' : Design}, Emitted t n d [(f, c)] →
    carryChain f.exit carryIn bits d = .ok chain d' →
    Emitted t (n + 6 * bits.length) d'
        [(⟨f.entry, chain.exit, f.states ++ chain.stages.flatMap (·.fragment.states)⟩,
          rippleCode c n carryIn bits)] ∧
      chain.carry = rippleCarry n carryIn bits
  | [], f, c, n, carryIn, chain, d, d', hf, h => by
    obtain ⟨rfl, rfl⟩ := pure_eq_ok.mp h
    exact ⟨by simpa [rippleCode] using hf, rfl⟩
  | bit :: rest, f, c, n, carryIn, chain, d, d', hf, h => by
    simp only [carryChain, bind_eq_ok, pure_eq_ok] at h
    obtain ⟨stage, d₁, hstage, _, d₂, hcopy, _, d₃, hconnect, chain, d₄, hchain, rfl, rfl⟩ := h
    obtain ⟨hstage, hsum, hcarry⟩ := fullAdder_emitted hstage
    have hnext := (hf.append (hstage.copy hcopy)).connect hconnect
    rw [hsum, hf.signals] at hnext
    rw [hcarry, hf.signals] at hchain
    obtain ⟨hrest, hcarry'⟩ := carryChain_emitted hnext hchain
    refine ⟨?_, hcarry'⟩
    simpa [rippleCode, Fragment.join, Nat.mul_add, Nat.add_assoc, Nat.add_comm] using hrest

/-- The adder of two registers: its sum is `sum`, which starts at `n`, and its carry comes after that. -/
def addCode (n : Nat) (a b sum : Register) (carryIn : SignalId) : Code :=
  (rippleCode (.single [.drive ⟨n + a.width⟩ false]) (n + a.width + 1) carryIn (bitSlices a b sum)).branch
    (.when (rippleCarry (n + a.width + 1) carryIn (bitSlices a b sum)) true) [.drive ⟨n + a.width⟩ true]

/-- How many signals an adder of some width takes. -/
def addSignals (width : Nat) : Nat := 7 * width + 1

theorem addWithCarry_emitted {a b : Register} {carryIn : SignalId} {adder : RippleAdder} {d d' : Design}
    (h : addWithCarry a b carryIn d = .ok adder d') (hwidth : a.width = b.width) :
    Emitted d.states (d.signals.size + addSignals a.width) d'
        [(adder.fragment, addCode d.signals.size a b adder.sum carryIn)] ∧
      adder.sum.bits = handles d.signals.size a.width ∧ adder.carry = ⟨d.signals.size + a.width⟩ ∧
      0 < a.width := by
  simp only [addWithCarry, bind_eq_ok, pure_eq_ok] at h
  obtain ⟨scope, d₁, hscope, sum, d₂, hsum, carry, d₃, hcarry, entry, d₄, hentry, _, d₅, hclear,
    chain, d₆, hchain, carrySet, d₇, hcarrySet, exit, d₈, hexit, _, d₉, h₉, _, d₁₀, h₁₀, _, d₁₁, h₁₁,
    _, d₁₂, h₁₂, rfl, rfl⟩ := h
  obtain ⟨hpos, hbits, h₂⟩ := ((Emitted.start d).reserveScope hscope).freshRegister hsum
  obtain ⟨rfl, h₃⟩ := h₂.freshSignal hcarry
  have h₅ := (h₃.freshState hentry).drive hclear
  obtain ⟨h₆, hcarryOut⟩ := carryChain_emitted h₅ hchain
  have hall := ((h₆.freshState hcarrySet).freshState hexit).branch h₉ h₁₀ h₁₁ h₁₂
  have hlength : (bitSlices a b sum).length = a.width := by
    have : sum.bits.length = a.width := by rw [hbits, length_handles]
    simp only [bitSlices, List.length_zipWith, List.length_zip]
    simp only [Register.width] at hwidth this ⊢
    omega
  rw [hcarryOut, hlength, show d.signals.size + a.width + 1 + 6 * a.width =
    d.signals.size + addSignals a.width by rw [addSignals]; omega] at hall
  exact ⟨hall, hbits, rfl, hpos⟩

/-! ## Inverting -/

def invertStep (bit : SignalId) : Step where
  actions := []
  arms := [⟨[.when bit true], [.drive bit false]⟩]
  otherwise := some [.drive bit true]

def invertCode (bits : List SignalId) : Code := ⟨⟨[], [], none⟩ :: bits.map invertStep, []⟩

/-- The handles that the states of some inverted bits get from the position `lo` on. -/
def invertedBits (lo : Nat) : Nat → List InvertedBit
  | 0 => []
  | count + 1 => ⟨⟨lo⟩, ⟨lo + 1⟩, ⟨lo + 2⟩⟩ :: invertedBits (lo + 3) count

/-- The states of inverted bits before they are linked: no edge leaves a bit. -/
def Drafted (t : Array StateNode) : Nat → List SignalId → Prop
  | _, [] => True
  | lo, bit :: rest =>
    (∃ n, t[lo]? = some n ∧ n.actions = [] ∧
      n.transitions.map (fun e => (e.guard, e.target)) = [(.when bit true, ⟨lo + 1⟩)] ∧
      n.defaultTarget = some ⟨lo + 2⟩) ∧
    (Code.single [.drive bit false]).At t (lo + 1) ∧ (Code.single [.drive bit true]).At t (lo + 2) ∧
    Drafted t (lo + 3) rest

theorem Drafted.congr {t t' : Array StateNode} : ∀ {bits : List SignalId} {lo : Nat}, Drafted t lo bits →
    (∀ i, lo ≤ i → i < lo + 3 * bits.length → t'[i]? = t[i]?) → Drafted t' lo bits
  | [], _, _, _ => trivial
  | bit :: rest, lo, ⟨htest, hclear, hset, hrest⟩, heq => by
    rw [List.length_cons] at heq
    refine ⟨?_, hclear.congr fun i h h' => ?_, hset.congr fun i h h' => ?_, hrest.congr fun i h h' => ?_⟩
    · rw [heq lo (by omega) (by omega)]
      exact htest
    · rw [Code.size_single] at h'
      exact heq i (by omega) (by omega)
    · rw [Code.size_single] at h'
      exact heq i (by omega) (by omega)
    · exact heq i (by omega) (by omega)

theorem invertBit_ok {scope : String} {bit : SignalId} {i : Nat} {r : InvertedBit} {d d' : Design}
    (h : invertBit scope bit i d = .ok r d') :
    r = ⟨⟨d.states.size⟩, ⟨d.states.size + 1⟩, ⟨d.states.size + 2⟩⟩ ∧ d'.signals.size = d.signals.size ∧
      d'.states.size = d.states.size + 3 ∧ (∀ j, j < d.states.size → d'.states[j]? = d.states[j]?) ∧
      Drafted d'.states d.states.size [bit] := by
  simp only [invertBit, bind_eq_ok, pure_eq_ok] at h
  obtain ⟨test, d₁, htest, clear, d₂, hclear, set, d₃, hset, h⟩ := h
  have h₃ := (((Emitted.start d).freshState htest).freshState hclear).freshState hset
  simp only [connectWhen_eq_ok, connect_eq_ok, drive_eq_ok] at h
  obtain ⟨_, d₄, ⟨-, -, -, h₄⟩, _, d₅, ⟨-, -, h₅⟩, _, d₆, ⟨-, -, h₆⟩, _, d₇, ⟨-, -, h₇⟩, rfl, rfl⟩ := h
  obtain ⟨rfl, ⟨n₀, hn₀, hact₀, htrans₀, -⟩, hrow⟩ := RowAt.single h₃.row
  obtain ⟨rfl, ⟨n₁, hn₁, hact₁, hrest₁⟩, hrow⟩ := RowAt.single hrow
  obtain ⟨rfl, ⟨n₂, hn₂, hact₂, hrest₂⟩, -⟩ := RowAt.single hrow
  rw [h₄, editState_editState] at h₅
  subst h₅ h₆ h₇
  refine ⟨rfl, by simpa using h₃.signals, by simpa using h₃.size, fun j hj => ?_, ?_,
    ⟨trivial, ?_⟩, ⟨trivial, ?_⟩, trivial⟩
  · rw [editState_getElem?_of_ne (by dsimp only; omega), editState_getElem?_of_ne (by dsimp only; omega),
      editState_getElem?_of_ne (by dsimp only; omega), h₃.old j hj]
  · rw [editState_getElem?_of_ne (by dsimp only; omega), editState_getElem?_of_ne (by dsimp only; omega)]
    refine ⟨_, editState_getElem?_self hn₀ _, hact₀, ?_, rfl⟩
    simp [StateNode.setDefault, StateNode.addTransition, htrans₀]
  · refine ⟨n₁.addAction (.drive bit false), ?_, by simp [StateNode.addAction, hact₁, Code.single], hrest₁⟩
    refine (editState_getElem?_of_ne (by dsimp only [Code.single, span_nil]; omega) _).trans
      (editState_getElem?_self (q := ⟨d.states.size + 1⟩) ?_ _)
    rw [editState_getElem?_of_ne (by dsimp only; omega), hn₁]
  · refine ⟨n₂.addAction (.drive bit true), ?_, by simp [StateNode.addAction, hact₂, Code.single], hrest₂⟩
    refine editState_getElem?_self (q := ⟨d.states.size + 1 + 1⟩) ?_ _
    rw [editState_getElem?_of_ne (by dsimp only; omega), editState_getElem?_of_ne (by dsimp only; omega), hn₂]

theorem mapM_invertBit_ok {scope : String} :
    ∀ {l : List (SignalId × Nat)} {rs : List InvertedBit} {d d' : Design},
    l.mapM (fun p => invertBit scope p.1 p.2) d = .ok rs d' →
    rs = invertedBits d.states.size l.length ∧ d'.signals.size = d.signals.size ∧
      d'.states.size = d.states.size + 3 * l.length ∧
      (∀ j, j < d.states.size → d'.states[j]? = d.states[j]?) ∧
      Drafted d'.states d.states.size (l.map Prod.fst)
  | [], rs, d, d', h => by
    obtain ⟨rfl, rfl⟩ := pure_eq_ok.mp h
    exact ⟨rfl, rfl, rfl, fun _ _ => rfl, trivial⟩
  | p :: l, rs, d, d', h => by
    rw [List.mapM_cons] at h
    simp only [bind_eq_ok, pure_eq_ok] at h
    obtain ⟨r, d₁, hr, rs, d₂, hrs, rfl, rfl⟩ := h
    obtain ⟨rfl, hsig₁, hsize₁, hold₁, ⟨htest, hclear, hset, -⟩⟩ := invertBit_ok hr
    obtain ⟨rfl, hsig₂, hsize₂, hold₂, hrest⟩ := mapM_invertBit_ok hrs
    rw [hsize₁] at hsize₂ hold₂ hrest
    refine ⟨by rw [hsize₁]; rfl, hsig₂.trans hsig₁, by rw [List.length_cons]; omega, fun j hj => ?_,
      ?_, ?_, ?_, hrest⟩
    · rw [hold₂ j (by omega), hold₁ j hj]
    · rw [hold₂ _ (by omega)]
      exact htest
    · exact hclear.congr fun j _ hj => hold₂ j (by rw [Code.size_single] at hj; omega)
    · exact hset.congr fun j _ hj => hold₂ j (by rw [Code.size_single] at hj; omega)

theorem connectAll_ok {target : StateId} : ∀ {last : List StateId} {u : PUnit} {d d' : Design},
    last.forM (connect · target) d = .ok u d' → d'.signals = d.signals ∧ d'.states.size = d.states.size ∧
      ∀ i : Nat, d'.states[i]? =
        if ⟨i⟩ ∈ last then d.states[i]?.map (·.setDefault target) else d.states[i]?
  | [], u, d, d', h => by
    obtain rfl := forM_nil_eq_ok.mp h
    exact ⟨rfl, rfl, fun i => by simp⟩
  | q :: last, u, d, d', h => by
    obtain ⟨d₁, hq, h⟩ := forM_cons_eq_ok.mp h
    obtain ⟨-, -, rfl⟩ := connect_eq_ok.mp hq
    obtain ⟨hsig, hsize, hstates⟩ := connectAll_ok h
    refine ⟨hsig, by simpa using hsize, fun i => ?_⟩
    have hq : q.index = i ↔ ⟨i⟩ = q := ⟨fun h => by cases q; cases h; rfl, fun h => by rw [← h]⟩
    have htwice : ∀ o : Option StateNode,
        (o.map (·.setDefault target)).map (·.setDefault target) = o.map (·.setDefault target) := fun o => by
      cases o <;> rfl
    rw [hstates, editState_getElem?]
    by_cases h₁ : q.index = i
    · rw [if_pos h₁, htwice, ite_self, if_pos (List.mem_cons.mpr (.inl (hq.mp h₁)))]
    · rw [if_neg h₁]
      simp only [List.mem_cons, mt hq.mpr h₁, false_or]

/-- Linking completes the steps: each open end leads to the first of them, each bit to the next. -/
theorem linkBits_ok {exit : StateId} : ∀ {bits : List SignalId} {lo : Nat} {last : List StateId} {u : Unit}
    {d d' : Design}, linkBits exit last (invertedBits lo bits.length) d = .ok u d' →
    Drafted d.states lo bits → exit = ⟨lo + 3 * bits.length⟩ → (∀ q ∈ last, q.index < lo) →
    d'.signals = d.signals ∧ d'.states.size = d.states.size ∧ StepsAt d'.states lo (bits.map invertStep) ∧
      (∀ i, i < lo → d'.states[i]? =
        if ⟨i⟩ ∈ last then d.states[i]?.map (·.setDefault ⟨lo⟩) else d.states[i]?) ∧
      ∀ i, lo + 3 * bits.length ≤ i → d'.states[i]? = d.states[i]?
  | [], lo, last, u, d, d', h, _, hexit, hlast => by
    obtain ⟨hsig, hsize, hstates⟩ := connectAll_ok h
    rw [hexit] at hstates
    refine ⟨hsig, hsize, trivial, fun i _ => hstates i, fun i hi => ?_⟩
    rw [hstates, if_neg fun hm => absurd (hlast _ hm) (by simpa using hi)]
  | bit :: rest, lo, last, u, d, d', h, ⟨htest, hclear, hset, hrest⟩, hexit, hlast => by
    simp only [List.length_cons, invertedBits, linkBits, bind_eq_ok] at h
    obtain ⟨_, d₁, hconnect, h⟩ := h
    obtain ⟨hsig₁, hsize₁, hstates₁⟩ := connectAll_ok hconnect
    have hafter : ∀ i, lo ≤ i → d₁.states[i]? = d.states[i]? := fun i hi => by
      rw [hstates₁, if_neg fun hm => absurd (hlast _ hm) (by simpa using hi)]
    obtain ⟨hsig, hsize, hsteps, hbefore, hlater⟩ := linkBits_ok h (hrest.congr fun i h _ => hafter i (by omega))
      (by rw [hexit, List.length_cons]; congr 1; omega) (by simp)
    -- The rest of the bits are linked from `clear` and `set`, and touch nothing else of this one.
    have hends : ∀ i, i < lo + 3 → i ≠ lo + 1 → i ≠ lo + 2 → d'.states[i]? = d₁.states[i]? := fun i hi h₁ h₂ => by
      rw [hbefore i hi, if_neg (by simp [h₁, h₂])]
    have hend : ∀ {i : Nat} {actions : List Action}, i = lo + 1 ∨ i = lo + 2 → (Code.single actions).At d.states i →
        ∃ n, d'.states[i]? = some n ∧ n.actions = actions ∧ n.transitions = [] ∧
          n.defaultTarget = some ⟨lo + 3⟩ := fun {i actions} hi hat => by
      obtain ⟨n, hn, hact, htrans, -⟩ := hat.last
      refine ⟨n.setDefault ⟨lo + 3⟩, ?_, hact, htrans, rfl⟩
      rw [hbefore i (by omega), if_pos (by simpa using hi), hafter i (by omega)]
      simp only [Code.single, span_nil, Nat.add_zero] at hn
      rw [hn, Option.map_some]
    refine ⟨hsig.trans hsig₁, hsize.trans hsize₁, ⟨⟨?_, fun k actions hk => ?_⟩, hsteps⟩,
      fun i hi => ?_, fun i hi => ?_⟩
    · rw [hends lo (by omega) (by omega) (by omega), hafter lo (by omega)]
      exact htest
    · rcases k with _ | _ | k
      · cases hk
        exact hend (.inl rfl) hclear
      · cases hk
        exact hend (.inr rfl) hset
      · cases hk
    · rw [hends i (by omega) (by omega) (by omega), hstates₁]
    · rw [List.length_cons] at hi
      rw [hlater i (by omega), hafter i (by omega)]

theorem flatMap_invertedBits : ∀ (count lo : Nat),
    (invertedBits lo count).flatMap (fun b => [b.test, b.clear, b.set]) = stateRange lo (3 * count)
  | 0, _ => rfl
  | count + 1, lo => by
    rw [show 3 * (count + 1) = 3 + 3 * count by omega, ← stateRange_append, ← flatMap_invertedBits count (lo + 3)]
    rfl

theorem span_invertStep (bits : List SignalId) : span (bits.map invertStep) = 3 * bits.length := by
  induction bits with
  | nil => rfl
  | cons bit rest ih =>
    rw [List.map_cons, span_cons, ih, List.length_cons, Nat.mul_add, Nat.add_comm]
    rfl

theorem invert_emitted {a : Register} {f : Fragment} {d d' : Design} (h : invert a d = .ok f d') :
    Emitted d.states d.signals.size d' [(f, invertCode a.bits)] := by
  simp only [invert, bind_eq_ok, pure_eq_ok] at h
  obtain ⟨scope, d₁, hscope, entry, d₂, hentry, bits, d₃, hbits, exit, d₄, hexit, _, d₅, hlink, rfl, rfl⟩ := h
  have h₂ := ((Emitted.start d).reserveScope hscope).freshState hentry
  obtain ⟨rfl, ⟨n, hn, hact, htrans, -⟩, -⟩ := RowAt.single h₂.row
  obtain ⟨rfl, hsig₃, hsize₃, hold₃, hdraft⟩ := mapM_invertBit_ok hbits
  obtain ⟨rfl, rfl⟩ := freshState_eq_ok.mp hexit
  have hsize₂ : d₂.states.size = d.states.size + 1 := h₂.size
  rw [List.length_zipIdx, hsize₂] at hsize₃
  rw [List.length_zipIdx, hsize₂] at hlink
  rw [List.zipIdx_map_fst, hsize₂] at hdraft
  have hpush : ∀ i, i < d₃.states.size → (d₃.pushState (scopedName scope "exit")).states[i]? = d₃.states[i]? :=
    fun i hi => by rw [pushState_getElem?, if_neg (by omega)]
  obtain ⟨hsig, hsize, hsteps, hbefore, hlater⟩ := linkBits_ok hlink
    (hdraft.congr fun i _ hi => hpush i (by omega)) (by rw [hsize₃]) (by simp)
  have hspan : span (invertCode a.bits).steps = 3 * a.bits.length + 1 := by
    rw [invertCode, span_cons, span_invertStep, Nat.add_comm]
    rfl
  refine ⟨?_, ?_, fun i hi => ?_, ?_,
    ⟨⟨⟨⟨n.setDefault ⟨d.states.size + 1⟩, ?_, hact, ?_, rfl⟩, fun k actions hk => ?_⟩, hsteps⟩,
      { label := scopedName scope "exit" }, ?_, rfl, rfl, rfl⟩, trivial⟩
  · rw [hsig, pushState_signals, hsig₃, h₂.signals]
  · rw [hsize, pushState_size, hsize₃, rowSize_cons, rowSize_nil, Code.size, hspan]
    omega
  · rw [hbefore i (by omega), if_neg (by simp; omega), hpush i (by omega), hold₃ i (by omega), h₂.old i hi]
  · rw [flatMap_invertedBits, Code.fragment, Code.size, hspan, List.length_zipIdx, hsize₂, hsize₃,
      show 3 * a.bits.length + 1 + 1 = 1 + 3 * a.bits.length + 1 by omega, ← stateRange_append, ← stateRange_append,
      ← Nat.add_assoc, Nat.add_assoc d.states.size, Nat.add_comm 1]
    rfl
  · rw [hbefore _ (by omega), if_pos (by simp), hpush _ (by omega), hold₃ _ (by omega), hn, Option.map_some]
  · simp [StateNode.setDefault, htrans, Step.edges]
  · simp [Step.bodies] at hk
  · rw [hspan, hlater _ (by omega), pushState_getElem?, if_pos (by omega)]

/-! ## Moving and loading -/

def moveCode (src dst : List SignalId) : Code := .single ((src.zip dst).map fun p => .copy p.1 p.2)

def loadCode (bits : List SignalId) (value : Word) : Code :=
  .single (bits.zipIdx.map fun p => .drive p.1 (value.bit p.2))

theorem requireSameWidth_eq_ok {op : Operation} {a b : Register} {u : Unit} {d d' : Design} :
    requireSameWidth op a b d = .ok u d' ↔ a.width = b.width ∧ d = d' := by
  unfold requireSameWidth
  split <;> simp [pure_eq_ok, throw_eq_ok, *]

theorem requireCopyable_eq_ok {src dst : Register} {u : Unit} {d d' : Design} :
    requireCopyable src dst d = .ok u d' ↔ (src.bits = dst.bits ∨ src.overlaps dst = false) ∧ d = d' := by
  unfold requireCopyable
  split <;> simp_all [pure_eq_ok, throw_eq_ok]

theorem requireDisjoint_eq_ok {op : Operation} {a b : Register} {u : Unit} {d d' : Design} :
    requireDisjoint op a b d = .ok u d' ↔ a.overlaps b = false ∧ d = d' := by
  unfold requireDisjoint
  split <;> simp_all [pure_eq_ok, throw_eq_ok]

theorem move_emitted {src dst : Register} {f : Fragment} {d d' : Design} (h : move src dst d = .ok f d') :
    Emitted d.states d.signals.size d' [(f, moveCode src.bits dst.bits)] ∧ src.width = dst.width ∧
      (src.bits = dst.bits ∨ src.overlaps dst = false) := by
  simp only [move, bind_eq_ok, pure_eq_ok, requireSameWidth_eq_ok, requireCopyable_eq_ok] at h
  obtain ⟨_, _, ⟨hwidth, rfl⟩, _, _, ⟨hcopyable, rfl⟩, scope, d₁, hscope, state, d₂, hstate, _, d₃, hcopies,
    rfl, rfl⟩ := h
  have h₂ := ((Emitted.start d).reserveScope hscope).freshState hstate
  refine ⟨?_, hwidth, hcopyable⟩
  refine Emitted.forM (fun p : SignalId × SignalId => .copy p.1 p.2) (fun p d d' hp => ?_) h₂ hcopies
  exact (copy_eq_ok.mp hp).2.2.2

theorem loadSignal_emitted {s : SignalId} {value : Bool} {f : Fragment} {d d' : Design}
    (h : loadSignal s value d = .ok f d') :
    Emitted d.states d.signals.size d' [(f, .single [.drive s value])] := by
  simp only [loadSignal, bind_eq_ok, pure_eq_ok] at h
  obtain ⟨scope, d₁, hscope, state, d₂, hstate, _, d₃, hdrive, rfl, rfl⟩ := h
  exact (((Emitted.start d).reserveScope hscope).freshState hstate).drive hdrive

theorem loadRegister_emitted {r : Register} {value : Word} {f : Fragment} {d d' : Design}
    (h : loadRegister r value d = .ok f d') :
    Emitted d.states d.signals.size d' [(f, loadCode r.bits value)] := by
  simp only [loadRegister, bind_eq_ok, pure_eq_ok] at h
  obtain ⟨_, d₀, hfits, scope, d₁, hscope, state, d₂, hstate, _, d₃, hdrives, rfl, rfl⟩ := h
  have hd : d = d₀ := by
    unfold requireFits at hfits
    split at hfits
    · exact (pure_eq_ok.mp hfits).2
    · cases throw_eq_ok.mp hfits
  subst hd
  have h₂ := ((Emitted.start d).reserveScope hscope).freshState hstate
  refine Emitted.forM (fun p : SignalId × Nat => .drive p.1 (value.bit p.2)) (fun p d d' hp => ?_) h₂ hdrives
  exact (drive_eq_ok.mp hp).2.2

end SignalGraph.Block
