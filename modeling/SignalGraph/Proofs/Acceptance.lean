/-
Blocks fail for their operands only.

Each block is followed from check to check. What it makes for itself is never in its way: its
names are free since its scope is new, its own signals can be written, and the exits that it
connects have no target yet, which is read off the code that was emitted so far. What is left
are the checks of the operands. Each of them is a hypothesis: the operand is as it should be, or
the error about it is allowed.
-/
import SignalGraph.Proofs.Faults
import SignalGraph.Proofs.Intermediates
import SignalGraph.Proofs.Assembly

namespace SignalGraph

open Design Block

/-! ## Fragments that were emitted -/

section

variable {allowed : BuildError → Prop} {t : Array StateNode} {n : Nat} {d : Design} {f g : Fragment} {c e : Code}
  {l : List (Fragment × Code)} {β : Type}

theorem Emitted.loose (h : Emitted t n d ((f, c) :: l)) : d.Loose f.exit := by
  obtain ⟨node, hn, -, -, hdefault⟩ := h.code.last
  rw [h.fragment]
  exact ⟨node, hn, hdefault⟩

theorem Emitted.entry_lt (h : Emitted t n d ((f, c) :: (g, e) :: l)) : g.entry.index < d.states.size := by
  obtain ⟨-, -, rfl, he, -⟩ := h.row
  have := he.lt_size
  simp only [Code.fragment]
  omega

/-- An edge from one fragment to the next can be made. -/
theorem Emitted.link_orderly (h : Emitted t n d ((f, c) :: (g, e) :: l)) :
    Orderly allowed (Design.connect f.exit g.entry) d :=
  .connect (.inl h.loose) (.inl h.entry_lt)

/-- A branch at the end of a fragment can be made if its guard can be read and its signal can be written. -/
theorem Emitted.branch_orderly {arm exit : StateId} {guard : Guard} {s : SignalId} {b : Bool} {k : BuildM β}
    (h : Emitted t n d [(f, c), (.single arm, .single []), (.single exit, .single [])])
    (hguard : ∀ c ∈ guard.clauses, ∀ t ∈ c.tests, Reads allowed d t.signal) (hs : Writes allowed d s)
    (hk : ∀ d', Emitted t n d' [(⟨f.entry, exit, f.states ++ [arm, exit]⟩, c.branch guard [.drive s b])] →
      d'.signals = d.signals → Orderly allowed k d') :
    Orderly allowed (do
      connectWhen f.exit arm guard
      Design.connect f.exit exit
      Design.drive arm s b
      Design.connect arm exit
      k) d := by
  have hrow := h.row.2.2
  obtain ⟨harm, ⟨armNode, harmNode, -, -, harmDefault⟩, hrow⟩ := hrow.single
  obtain ⟨hexit, ⟨exitNode, hexitNode, -⟩, -⟩ := hrow.single
  have harmLoose : d.Loose arm := by
    rw [harm]
    exact ⟨armNode, harmNode, harmDefault⟩
  have hexitLt : exit.index < d.states.size := by
    rw [hexit]
    exact (Array.getElem?_eq_some_iff.mp hexitNode).1
  have hne : f.exit.index ≠ arm.index := by
    rw [h.fragment, harm]
    simp only [Code.fragment, Code.size]
    omega
  refine .bind (.connectWhen hguard (.inl h.loose.lt) (.inl harmLoose.lt)) fun _ d₁ h₁ => ?_
  obtain ⟨-, -, -, rfl⟩ := connectWhen_eq_ok.mp h₁
  refine .bind (.connect (.inl (by simpa using h.loose)) (.inl (by simpa using hexitLt))) fun _ d₂ h₂ => ?_
  obtain ⟨-, -, rfl⟩ := connect_eq_ok.mp h₂
  refine .bind (.drive (by simpa using hs) (.inl (by simpa using harmLoose.lt))) fun _ d₃ h₃ => ?_
  obtain ⟨-, -, rfl⟩ := drive_eq_ok.mp h₃
  refine .bind (.connect (.inl (by simp [hne, harmLoose])) (.inl (by simpa using hexitLt))) fun _ d₄ h₄ => ?_
  refine hk d₄ (h.branch h₁ h₂ h₃ h₄) ?_
  obtain ⟨-, -, rfl⟩ := connect_eq_ok.mp h₄
  rfl

end

namespace Block

variable {allowed : BuildError → Prop} {d d' : Design} {β : Type}

/-! ## Adders of one bit -/

theorem halfAdderOfSame_orderly {scope : String} {a sum carry : SignalId} (ha : Reads allowed d a)
    (hsum : Writes allowed d sum) (hcarry : Writes allowed d carry) :
    Orderly allowed (halfAdderOfSame scope a sum carry) d := by
  refine .freshState_then (.freshState_then (.freshState_then ?_))
  refine .drive_then (by simpa using hsum) (by simp; omega) ?_
  refine .drive_then (by simpa using hcarry) (by simp; omega) ?_
  refine .connectWhen_then (by simpa [Guard.when, Guard.all] using ha) (by simp; omega) (by simp) ?_
  refine .connect_then (by simp) (by simp) ?_
  refine .drive_then (by simpa using hcarry) (by simp) ?_
  exact .connect_then (by simp) (by simp) (.pure _)

theorem halfAdderOfDistinct_orderly {scope : String} {a b sum carry : SignalId} (ha : Reads allowed d a)
    (hb : Reads allowed d b) (hsum : Writes allowed d sum) (hcarry : Writes allowed d carry) :
    Orderly allowed (halfAdderOfDistinct scope a b sum carry) d := by
  refine .freshState_then (.freshState_then (.freshState_then (.freshState_then ?_)))
  refine .drive_then (by simpa using hsum) (by simp; omega) ?_
  refine .drive_then (by simpa using hcarry) (by simp; omega) ?_
  refine .connectWhen_then (by simp [Guard.all, ha, hb]) (by simp; omega) (by simp) ?_
  refine .connectWhen_then (by simp [Guard.all, ha, hb]) (by simp; omega) (by simp) ?_
  refine .connectWhen_then (by simp [Guard.all, ha, hb]) (by simp; omega) (by simp) ?_
  refine .connect_then (by simp) (by simp) ?_
  refine .drive_then (by simpa using hsum) (by simp) ?_
  refine .connect_then (by simp) (by simp) ?_
  refine .drive_then (by simpa using hcarry) (by simp) ?_
  exact .connect_then (by simp; omega) (by simp) (.pure _)

theorem freshSignal_writable {scope role : String} {s : SignalId} (h : freshSignal scope role d = .ok s d') :
    d'.Writable s := by
  obtain ⟨-, rfl, rfl⟩ := freshSignal_eq_ok.mp h
  exact ⟨⟨scopedName scope role, false, false⟩, by simp [signal?, pushSignal], rfl⟩

/-- The two results of an adder cell get names that are free, and can be written. -/
theorem outputs_orderly {kind : String} (hkind : IsKind kind) {f : String → SignalId → SignalId → BuildM β}
    (hf : ∀ scope sum carry d₁, Edits d d₁ → d₁.Writable sum → d₁.Writable carry →
      Orderly allowed (f scope sum carry) d₁) :
    Orderly allowed (do
      let scope ← reserveScope kind
      let sum ← freshSignal scope "sum"
      let carry ← freshSignal scope "carry"
      f scope sum carry) d := by
  refine .inScope hkind fun scope d₁ he₁ hopen hfree => ?_
  refine .bind (.freshSignal hopen (hfree "sum")) fun sum d₂ hsum => ?_
  have hcarry : d₂.Opened scope ∧ scopedName scope "carry" ∉ d₂.names := by
    obtain ⟨-, -, rfl⟩ := freshSignal_eq_ok.mp hsum
    refine ⟨hopen, fun hmem => ?_⟩
    rcases mem_names_pushSignal.mp hmem with heq | hold
    · simp [scopedName] at heq
    · exact hfree "carry" hold
  refine .bind (.freshSignal hcarry.1 hcarry.2) fun carry d₃ hcarry => ?_
  have he₂ := (freshSignal_makes _ _).edits hsum
  have he₃ := (freshSignal_makes _ _).edits hcarry
  exact hf scope sum carry d₃ ((he₁.trans he₂).trans he₃) (he₃.writable (freshSignal_writable hsum))
    (freshSignal_writable hcarry)

theorem halfAdder_orderly {a b : SignalId} (ha : Reads allowed d a) (hb : Reads allowed d b) :
    Orderly allowed (halfAdder a b) d := by
  refine outputs_orderly (by decide) fun scope sum carry d₁ he hsum hcarry => ?_
  refine .ite (fun _ => ?_) fun _ => ?_
  · exact halfAdderOfSame_orderly (ha.mono he) (.inl hsum) (.inl hcarry)
  · exact halfAdderOfDistinct_orderly (ha.mono he) (hb.mono he) (.inl hsum) (.inl hcarry)

theorem fullAdder_orderly {a b carryIn : SignalId} (ha : Reads allowed d a) (hb : Reads allowed d b)
    (hc : Reads allowed d carryIn) : Orderly allowed (fullAdder a b carryIn) d := by
  refine outputs_orderly (by decide) fun scope sum carry d₁ he hsum hcarry => ?_
  refine .bind (.freshState _ _) fun entry d₂ hentry => ?_
  have h₂ := (Emitted.start d₁).freshState hentry
  have he₂ : Edits d₁ d₂ := (freshState_makes _ _).edits hentry
  refine .bind (.drive (.inl (he₂.writable hcarry)) (.inl h₂.loose.lt)) fun _ d₃ hclear => ?_
  have h₃ := h₂.drive hclear
  have he₃ : Edits d₁ d₃ := he₂.trans ((drive_makes _ _ _).edits hclear)
  refine .bind (halfAdder_orderly (ha.mono (he.trans he₃)) (hb.mono (he.trans he₃))) fun first d₄ hfirst => ?_
  obtain ⟨h₄, hfs, hfc⟩ := halfAdder_emitted hfirst
  have he₄ : Edits d₁ d₄ := he₃.trans ((halfAdder_makes _ _).edits hfirst)
  have hfirstSum : first.sum.index < d₄.signals.size := by
    rw [hfs, h₄.signals]
    exact Nat.lt_add_of_pos_right (by omega)
  refine .bind (halfAdder_orderly (.inl hfirstSum) (hc.mono (he.trans he₄))) fun second d₅ hsecond => ?_
  obtain ⟨h₅, hss, hsc⟩ := halfAdder_emitted hsecond
  have he₅ : Edits d₁ d₅ := he₄.trans ((halfAdder_makes _ _).edits hsecond)
  refine .bind (.freshState _ _) fun carryCalc d₆ hcarryCalc => ?_
  refine .bind (.freshState _ _) fun exit d₇ hexit => ?_
  have h₇ := (((h₃.append h₄).append h₅).freshState hcarryCalc).freshState hexit
  have he₇ : Edits d₁ d₇ :=
    he₅.trans (((freshState_makes _ _).edits hcarryCalc).trans ((freshState_makes _ _).edits hexit))
  refine .bind h₇.link_orderly fun _ d₈ hlink => ?_
  have h₈ := h₇.connect hlink
  have he₈ : Edits d₁ d₈ := he₇.trans ((connect_makes _ _).edits hlink)
  refine .bind h₈.link_orderly fun _ d₉ hlink => ?_
  have h₉ := h₈.connect hlink
  have he₉ : Edits d₁ d₉ := he₈.trans ((connect_makes _ _).edits hlink)
  -- The carries and the sum of the two halves are among the signals that they made.
  have hsize : d₉.signals.size = d₃.signals.size + 4 := by rw [h₉.signals, h₄.signals]
  have hmade : ∀ {s : SignalId} {i : Nat}, s = ⟨d₃.signals.size + i⟩ → i < 4 → s.index < d₉.signals.size := by
    rintro _ i rfl hi
    rw [hsize]
    exact Nat.add_lt_add_left hi _
  rw [h₄.signals] at hss hsc
  refine h₉.branch_orderly ?_ (.inl (he₉.writable hcarry)) fun d₁₀ h₁₀ hsignals => ?_
  · simpa [Guard.any, Reads] using ⟨.inl (hmade (i := 1) hfc (by omega)), .inl (hmade (i := 3) hsc (by omega))⟩
  · have he₁₀ : d₁₀.Writable sum := by
      rw [Writable, signal?, hsignals]
      exact he₉.writable hsum
    refine .bind (.copy (.inl ?_) (.inl he₁₀) (.inl h₁₀.loose.lt)) fun _ _ _ => .pure _
    rw [hsignals]
    exact hmade (i := 2) hss (by omega)

/-! ## Adders of registers -/

/-- The row of full adders can be built after a fragment. -/
theorem carryChain_orderly {t : Array StateNode} : ∀ {bits : List BitSlice} {f : Fragment} {c : Code} {n : Nat}
    {carryIn : SignalId} {d : Design}, Emitted t n d [(f, c)] → Reads allowed d carryIn →
    (∀ bit ∈ bits, Reads allowed d bit.a ∧ Reads allowed d bit.b ∧ d.Writable bit.sum) →
    Orderly allowed (carryChain f.exit carryIn bits) d
  | [], _, _, _, _, _, _, _, _ => .pure _
  | bit :: rest, f, c, n, carryIn, d, hf, hc, hbits => by
    obtain ⟨ha, hb, hsum⟩ := hbits bit (by simp)
    refine .bind (fullAdder_orderly ha hb hc) fun stage d₁ hstage => ?_
    obtain ⟨h₁, hsum₁, hcarry₁⟩ := fullAdder_emitted hstage
    have he₁ : Edits d d₁ := (fullAdder_makes _ _ _).edits hstage
    have hmade : stage.sum.index < d₁.signals.size ∧ stage.carry.index < d₁.signals.size := by
      rw [hsum₁, hcarry₁, h₁.signals]
      exact ⟨Nat.lt_add_of_pos_right (by omega), Nat.add_lt_add_left (by omega) _⟩
    refine .bind (.copy (.inl hmade.1) (.inl (he₁.writable hsum)) (.inl h₁.loose.lt)) fun _ d₂ hcopy => ?_
    have h₂ := hf.append (h₁.copy hcopy)
    have he₂ : Edits d₁ d₂ := (copy_makes _ _ _).edits hcopy
    refine .bind h₂.link_orderly fun _ d₃ hlink => ?_
    have h₃ := h₂.connect hlink
    have he₃ : Edits d₁ d₃ := he₂.trans ((connect_makes _ _).edits hlink)
    refine .bind ?_ fun _ _ _ => .pure _
    refine carryChain_orderly (f := f.join stage.fragment) h₃ (Reads.mono (.inl hmade.2) he₃) fun other hother => ?_
    obtain ⟨ha, hb, hsum⟩ := hbits other (by simp [hother])
    exact ⟨ha.mono (he₁.trans he₃), hb.mono (he₁.trans he₃), Edits.writable (he₁.trans he₃) hsum⟩

/-- A register in a scope leaves the names of other roles free. -/
theorem freshRegister_keeps_free {scope role other : String} {width : Nat} {r : Register} (hopen : d.Opened scope)
    (hother : ∀ j : Nat, other ≠ s!"{role}[{j}]") (hfree : scopedName scope other ∉ d.names)
    (h : freshRegister scope role width d = .ok r d') : d'.Opened scope ∧ scopedName scope other ∉ d'.names := by
  unfold freshRegister createRegister at h
  split at h
  · cases throw_eq_ok.mp h
  have hnames := addBits_names h
  refine ⟨?_, fun hmem => ?_⟩
  · rw [(addBits_ok h).2]
    exact hopen
  · rcases hnames _ hmem with hold | ⟨j, heq⟩
    · exact hfree hold
    · rw [← bitName_scopedName] at heq
      exact hother j (by simpa [scopedName] using heq)

theorem freshRegister_writable {scope role : String} {width : Nat} {r : Register}
    (h : freshRegister scope role width d = .ok r d') : ∀ s ∈ r.bits, d'.Writable s := by
  obtain ⟨-, rfl, hd'⟩ := createRegister_ok h
  intro s hs
  obtain ⟨i, hi⟩ := List.getElem?_of_mem hs
  obtain ⟨hlt, rfl⟩ := getElem?_handles hi
  rw [hd']
  exact ⟨⟨s!"{scopedName scope role}[{i}]", false, false⟩, by simp [signal?, bitInfos, hlt], rfl⟩

theorem mem_bitSlices {a b sum : Register} {bit : BitSlice} (h : bit ∈ bitSlices a b sum) :
    bit.a ∈ a.bits ∧ bit.b ∈ b.bits ∧ bit.sum ∈ sum.bits := by
  rw [bitSlices, ← List.map_uncurry_zip_eq_zipWith] at h
  obtain ⟨⟨⟨x, y⟩, s⟩, hmem, rfl⟩ := List.mem_map.mp h
  obtain ⟨hxy, hs⟩ := List.of_mem_zip hmem
  obtain ⟨hx, hy⟩ := List.of_mem_zip hxy
  exact ⟨hx, hy, hs⟩

theorem addWithCarry_orderly {a b : Register} {carryIn : SignalId}
    (hpos : 0 < a.width ∨ ∀ name, allowed (.zeroWidth name)) (ha : ∀ s ∈ a.bits, Reads allowed d s)
    (hb : ∀ s ∈ b.bits, Reads allowed d s) (hc : Reads allowed d carryIn) :
    Orderly allowed (addWithCarry a b carryIn) d := by
  refine .inScope (by decide) fun scope d₁ he₁ hopen hfree => ?_
  refine .bind (.freshRegister hopen hfree hpos) fun sum d₂ hsum => ?_
  have he₂ : Edits d₁ d₂ := (freshRegister_makes _ _ _).edits hsum
  have hsumW := freshRegister_writable hsum
  have hrole : ∀ j : Nat, "carry" ≠ "sum" ++ "[" ++ toString j ++ "]" := fun j heq => by
    simpa using congrArg String.toList heq
  have hcarry := freshRegister_keeps_free hopen hrole (hfree _) hsum
  obtain ⟨-, hbits, h₂⟩ := (Emitted.start d₁).freshRegister hsum
  refine .bind (.freshSignal hcarry.1 hcarry.2) fun carry d₃ hcarry => ?_
  have he₃ : Edits d₂ d₃ := (freshSignal_makes _ _).edits hcarry
  have hcarryW := freshSignal_writable hcarry
  obtain ⟨-, h₃⟩ := h₂.freshSignal hcarry
  refine .bind (.freshState _ _) fun entry d₄ hentry => ?_
  have h₄ := h₃.freshState hentry
  have he₄ : Edits d₃ d₄ := (freshState_makes _ _).edits hentry
  refine .bind (.drive (.inl (he₄.writable hcarryW)) (.inl h₄.loose.lt)) fun _ d₅ hclear => ?_
  have h₅ := h₄.drive hclear
  have he₅ : Edits d₃ d₅ := he₄.trans ((drive_makes _ _ _).edits hclear)
  have hall₅ : Edits d d₅ := he₁.trans (he₂.trans (he₃.trans he₅))
  refine .bind (carryChain_orderly h₅ (hc.mono hall₅) fun bit hbit => ?_) fun chain d₆ hchain => ?_
  · obtain ⟨hbita, hbitb, hbits⟩ := mem_bitSlices hbit
    exact ⟨(ha _ hbita).mono hall₅, (hb _ hbitb).mono hall₅, Edits.writable (he₃.trans he₅) (hsumW _ hbits)⟩
  obtain ⟨h₆, hcarryOut⟩ := carryChain_emitted h₅ hchain
  have he₆ : Edits d₃ d₆ := he₅.trans ((carryChain_makes _ _ _).edits hchain)
  refine .bind (.freshState _ _) fun carrySet d₇ hcarrySet => ?_
  refine .bind (.freshState _ _) fun exit d₈ hexit => ?_
  have h₈ := (h₆.freshState hcarrySet).freshState hexit
  have he₈ : Edits d₃ d₈ :=
    he₆.trans (((freshState_makes _ _).edits hcarrySet).trans ((freshState_makes _ _).edits hexit))
  have hall₈ : Edits d d₈ := he₁.trans (he₂.trans (he₃.trans he₈))
  have hread : Reads allowed d₈ chain.carry := by
    rw [hcarryOut]
    rcases rippleCarry_mem (bitSlices a b sum) _ carryIn with h | h
    · rw [h]
      exact hc.mono hall₈
    · exact .inl (h₈.signals ▸ h.2)
  refine h₈.branch_orderly ?_ (.inl (he₈.writable hcarryW)) fun _ _ _ => .pure _
  simpa [Guard.when, Guard.all] using hread

theorem add_orderly {a b : Register} {carryIn : Option SignalId}
    (hpos : 0 < a.width ∨ ∀ name, allowed (.zeroWidth name))
    (hwidth : a.width = b.width ∨ allowed (.widthMismatch .add a.width b.width))
    (hd : ConstantsKept d) (ha : ∀ s ∈ a.bits, Reads allowed d s) (hb : ∀ s ∈ b.bits, Reads allowed d s)
    (hc : ∀ s ∈ carryIn, Reads allowed d s) : Orderly allowed (add a b carryIn) d := by
  refine .check_then hwidth fun _ => ?_
  cases carryIn with
  | some s => exact addWithCarry_orderly hpos ha hb (hc s rfl)
  | none =>
    refine .bind .zeroSignal fun zero d₁ hzero => ?_
    have he := zeroSignal_makes.edits hzero
    refine addWithCarry_orderly hpos (fun s hs => (ha s hs).mono he) (fun s hs => (hb s hs).mono he) (.inl ?_)
    exact signal?_lt (zeroSignal_ok hd hzero).2

/-! ## Inverting -/

theorem invertBit_orderly {scope : String} {bit : SignalId} {i : Nat} (h : Writes allowed d bit) :
    Orderly allowed (invertBit scope bit i) d := by
  refine .freshState_then (.freshState_then (.freshState_then ?_))
  refine .connectWhen_then (by simpa [Guard.when, Guard.all] using h.reads) (by simp; omega) (by simp) ?_
  refine .connect_then (by simp) (by simp) ?_
  refine .drive_then (by simpa using h) (by simp) ?_
  exact .drive_then (by simpa using h) (by simp) (.pure _)

theorem connectAll_orderly {target : StateId} : ∀ {last : List StateId} {d : Design}, last.Nodup →
    (∀ q ∈ last, d.Loose q) → target.index < d.states.size → Orderly allowed (last.forM (connect · target)) d
  | [], _, _, _, _ => .pure _
  | q :: last, d, hnodup, hloose, htarget => by
    obtain ⟨hq, hnodup⟩ := List.nodup_cons.mp hnodup
    refine .connect_then (hloose q (by simp)) htarget ?_
    refine connectAll_orderly hnodup (fun p hp => ?_) (by simpa using htarget)
    rw [loose_setDefault]
    refine ⟨fun heq => hq ?_, hloose p (by simp [hp])⟩
    obtain ⟨i⟩ := q
    obtain ⟨j⟩ := p
    cases heq
    exact hp

/-- The states of inverted bits can be linked: nothing leaves `clear` and `set` before. -/
theorem linkBits_orderly {exit : StateId} : ∀ {bits : List SignalId} {lo : Nat} {last : List StateId} {d : Design},
    Drafted d.states lo bits → exit.index < d.states.size → last.Nodup →
    (∀ q ∈ last, q.index < lo ∧ d.Loose q) → Orderly allowed (linkBits exit last (invertedBits lo bits.length)) d
  | [], _, _, _, _, hexit, hnodup, hlast => connectAll_orderly hnodup (fun q hq => (hlast q hq).2) hexit
  | bit :: rest, lo, last, d, ⟨⟨_, hn, _⟩, hclear, hset, hrest⟩, hexit, hnodup, hlast => by
    have hlo : lo < d.states.size := (Array.getElem?_eq_some_iff.mp hn).1
    refine .bind (connectAll_orderly hnodup (fun q hq => (hlast q hq).2) hlo) fun _ d₁ h => ?_
    obtain ⟨-, hsize, hstates⟩ := connectAll_ok h
    have hafter : ∀ i, lo ≤ i → d₁.states[i]? = d.states[i]? := fun i hi => by
      rw [hstates, if_neg fun hm => absurd (hlast _ hm).1 (by simpa using hi)]
    have hend : ∀ {i : Nat} {actions : List Action}, lo ≤ i → (Code.single actions).At d.states i →
        d₁.Loose ⟨i⟩ := fun {i actions} hi hat => by
      obtain ⟨m, hm, -, -, hdefault⟩ := hat.last
      exact ⟨m, (hafter i hi).trans hm, hdefault⟩
    refine linkBits_orderly (hrest.congr fun i hi _ => hafter i (by omega)) (by rw [hsize]; exact hexit) (by simp)
      fun q hq => ?_
    rcases List.mem_pair.mp hq with rfl | rfl
    · exact ⟨by simp, hend (by omega) hclear⟩
    · exact ⟨by simp, hend (by omega) hset⟩

theorem invert_orderly {a : Register} (ha : ∀ s ∈ a.bits, Writes allowed d s) : Orderly allowed (invert a) d := by
  refine .bind (.reserveScope _) fun scope d₁ hscope => ?_
  have he₁ : Edits d d₁ := (reserveScope_makes _).edits hscope
  refine .bind (.freshState _ _) fun entry d₂ hentry => ?_
  have he₂ : Edits d d₂ := he₁.trans ((freshState_makes _ _).edits hentry)
  have h₂ := (Emitted.start d₁).freshState hentry
  refine .bind (.mapM (fun d₃ => Edits d d₃) (fun p hp d₃ he => ?_) (fun p hp r d₃ d₄ he hr => ?_) he₂)
    fun bits d₃ hbits => ?_
  · have hmem : p.1 ∈ a.bits := by
      rw [← List.zipIdx_map_fst 0 a.bits]
      exact List.mem_map_of_mem hp
    exact invertBit_orderly ((ha _ hmem).mono he)
  · exact he.trans ((invertBit_makes _ _ _).edits hr)
  refine .bind (.freshState _ _) fun exit d₄ hexit => ?_
  refine .bind ?_ fun _ _ _ => .pure _
  obtain ⟨rfl, -, hsize, hold, hdraft⟩ := mapM_invertBit_ok hbits
  obtain ⟨rfl, rfl⟩ := freshState_eq_ok.mp hexit
  rw [List.zipIdx_map_fst] at hdraft
  rw [List.length_zipIdx] at hsize ⊢
  have hentryLt := h₂.loose.lt
  have hkept : ∀ i, i < d₃.states.size → (d₃.pushState (scopedName scope "exit")).states[i]? = d₃.states[i]? :=
    fun i hi => by rw [pushState_getElem?, if_neg (by omega)]
  refine linkBits_orderly (hdraft.congr fun i _ hi => hkept i (by omega)) (by simp) (by simp) fun q hq => ?_
  obtain rfl := List.mem_singleton.mp hq
  obtain ⟨n, hn, hdefault⟩ := h₂.loose
  refine ⟨hentryLt, n, ?_, hdefault⟩
  exact (hkept _ (by rw [hsize]; exact Nat.lt_add_right _ hentryLt)).trans ((hold _ hentryLt).trans hn)

/-! ## Moving and loading -/

/-- A block that is one state, with the actions that a loop adds to it. -/
theorem oneState_orderly {α : Type} {kind role : String} {step : StateId → α → BuildM Unit} {l : List α}
    (hmakes : ∀ q x, Makes (step q x))
    (hstep : ∀ x ∈ l, ∀ q d₁, Edits d d₁ → q.index < d₁.states.size → Orderly allowed (step q x) d₁) :
    Orderly allowed (do
      let scope ← reserveScope kind
      let state ← freshState scope role
      l.forM (step state)
      return Fragment.single state) d := by
  refine .bind (.reserveScope _) fun scope d₁ hscope => ?_
  have he₁ : Edits d d₁ := (reserveScope_makes _).edits hscope
  refine .bind (.freshState _ _) fun state d₂ hstate => ?_
  have he₂ : Edits d d₂ := he₁.trans ((freshState_makes _ _).edits hstate)
  have hlt := ((Emitted.start d₁).freshState hstate).loose.lt
  refine .bind (.forM (Edits d₂) (fun x hx d₃ he => ?_) (fun x _ d₃ d₄ he h => ?_) .refl) fun _ _ _ => .pure _
  · exact hstep x hx state d₃ (he₂.trans he) (Nat.lt_of_lt_of_le hlt he.states_size_le)
  · exact he.trans ((hmakes state x).edits h)

theorem move_orderly {src dst : Register}
    (hwidth : src.width = dst.width ∨ allowed (.widthMismatch .move src.width dst.width))
    (hcopyable : (src.bits = dst.bits ∨ src.overlaps dst = false) ∨ allowed (.operandAlias .move))
    (hsrc : ∀ s ∈ src.bits, Reads allowed d s) (hdst : ∀ s ∈ dst.bits, Writes allowed d s) :
    Orderly allowed (move src dst) d := by
  refine .check_then hwidth fun _ => .check_then (hcopyable.imp_left (by simp)) fun _ => ?_
  refine oneState_orderly (fun _ _ => copy_makes _ _ _) fun p hp q d₁ he hq => ?_
  obtain ⟨hs, ht⟩ := List.of_mem_zip hp
  exact .copy ((hsrc _ hs).mono he) ((hdst _ ht).mono he) (.inl hq)

theorem loadSignal_orderly {s : SignalId} {value : Bool} (hs : Writes allowed d s) :
    Orderly allowed (loadSignal s value) d := by
  refine .bind (.reserveScope _) fun scope d₁ hscope => .freshState_then ?_
  exact .drive_then (by simpa using hs.mono ((reserveScope_makes _).edits hscope)) (by simp) (.pure _)

theorem requireFits_eq_ok {value : Word} {width : Nat} {u : Unit} :
    requireFits value width d = .ok u d' ↔ value.fits width = true ∧ d = d' := by
  unfold requireFits
  split <;> simp [pure_eq_ok, throw_eq_ok, *]

theorem loadRegister_orderly {r : Register} {value : Word}
    (hfits : value.fits r.width = true ∨ allowed (.literalOverflow value r.width))
    (hr : ∀ s ∈ r.bits, Writes allowed d s) : Orderly allowed (loadRegister r value) d := by
  refine .check_then hfits fun _ => ?_
  refine oneState_orderly (fun _ _ => drive_makes _ _ _) fun p hp q d₁ he hq => ?_
  have hmem : p.1 ∈ r.bits := by
    rw [← List.zipIdx_map_fst 0 r.bits]
    exact List.mem_map_of_mem hp
  exact .drive ((hr _ hmem).mono he) (.inl hq)

/-! ## Arithmetic in place -/

/-- Fragments that were added one after the other can be put in sequence. -/
theorem sequence_orderly {d₀ : Design} {f : Fragment} {fs : List Fragment} (h : Lays d₀ d (f :: fs)) :
    Orderly allowed (sequence (f :: fs)) d := by
  obtain ⟨l, hfs, -, hl⟩ := h
  cases l with
  | nil => cases hfs
  | cons p l =>
    rw [List.map_cons, List.cons.injEq] at hfs
    obtain ⟨rfl, rfl⟩ := hfs
    obtain ⟨top, d', hs, -⟩ := hl.foldlM_chain
    exact .of_ok hs fun hd => after_of_ok hs ▸ (Orderly.sequence_tidy (p.1 :: l.map Prod.fst) hd).1

theorem chain_orderly {d₀ : Design} {f g : Fragment} (h : Lays d₀ d [f, g]) : Orderly allowed (chain f g) d := by
  obtain ⟨l, hfs, -, hl⟩ := h
  obtain ⟨⟨f, c⟩, rest, rfl, rfl, hrest⟩ := List.map_eq_cons_iff.mp hfs
  obtain ⟨⟨g, e⟩, _, rfl, rfl, -⟩ := List.map_eq_cons_iff.mp hrest
  exact .bind hl.link_orderly fun _ _ _ => .pure _

/-- The sum of an adder is made of new signals. -/
theorem add_sum {a b : Register} {carryIn : Option SignalId} {adder : RippleAdder}
    (h : add a b carryIn d = .ok adder d') : a.width = b.width ∧ 0 < a.width ∧ adder.sum.width = a.width ∧
      ∀ s ∈ adder.sum.bits, d.signals.size ≤ s.index := by
  simp only [add, bind_eq_ok, requireSameWidth_eq_ok] at h
  obtain ⟨_, _, ⟨hwidth, rfl⟩, c, d₁, hcarryIn, h⟩ := h
  have hle := ((signalOrZero_makes carryIn).edits hcarryIn).signals_size_le
  obtain ⟨-, hsum, -, hpos⟩ := addWithCarry_emitted h hwidth
  refine ⟨hwidth, hpos, by rw [Register.width, hsum, length_handles], fun s hs => ?_⟩
  rw [hsum, mem_handles] at hs
  omega

/-- A sum can be moved back into a register that was there before. -/
theorem addBack_orderly {a b r : Register} {k : RippleAdder → Fragment → BuildM β} (hd : ConstantsKept d)
    (hpos : 0 < a.width ∨ ∀ name, allowed (.zeroWidth name)) (hab : a.width = b.width) (har : a.width = r.width)
    (ha : ∀ s ∈ a.bits, Reads allowed d s) (hb : ∀ s ∈ b.bits, Reads allowed d s)
    (hr : ∀ s ∈ r.bits, Writes allowed d s) (hknown : d.Knows r.bits ∨ allowed (.operandAlias .move))
    (hk : ∀ sum back d₁ d₂, add a b none d = .ok sum d₁ → move sum.sum r d₁ = .ok back d₂ →
      Orderly allowed (k sum back) d₂) :
    Orderly allowed (do
      let sum ← add a b
      let back ← move sum.sum r
      k sum back) d := by
  refine .bind (add_orderly hpos (.inl hab) hd ha hb (by simp)) fun sum d₁ hsum => ?_
  obtain ⟨-, -, hwidth, hnew⟩ := add_sum hsum
  have he : Edits d d₁ := (add_makes _ _ _).edits hsum
  refine .bind (move_orderly (.inl (hwidth.trans har)) (hknown.imp_left fun hknown => .inr ?_)
    (fun s hs => .inl (add_knows_sum hsum s hs)) fun s hs => (hr s hs).mono he) fun back d₂ hback => ?_
  · exact Register.overlaps_of_disjoint fun s hs hmem => absurd (hknown s hmem) (Nat.not_lt_of_le (hnew s hs))
  · exact hk sum back d₁ d₂ hsum hback

theorem complement_orderly {a : Register} (hd : ConstantsKept d)
    (hpos : 0 < a.width ∨ ∀ name, allowed (.zeroWidth name)) (ha : ∀ s ∈ a.bits, Writes allowed d s)
    (hknown : d.Knows a.bits ∨ allowed (.operandAlias .move)) : Orderly allowed (complement a) d := by
  refine .bind (.one hpos) fun unit d₁ hunit => ?_
  obtain ⟨-, hkeeps⟩ := constantRegister_ok hd hunit
  have he₁ : Edits d d₁ := (constantRegister_makes 1 a.width).edits hunit
  refine .bind (invert_orderly fun s hs => (ha s hs).mono he₁) fun inverted d₂ hinvert => ?_
  have he₂ : Edits d₁ d₂ := (invert_makes a).edits hinvert
  have ha₂ : ∀ s ∈ a.bits, Writes allowed d₂ s := fun s hs => (ha s hs).mono (he₁.trans he₂)
  refine addBack_orderly ((he₂.constantsKept (he₁.constantsKept hd))) hpos hkeeps.width.symm rfl
    (fun s hs => (ha₂ s hs).reads) (fun s hs => .inl (hkeeps.knows.mono he₂ s hs)) ha₂
    (hknown.imp_left fun h => h.mono (he₁.trans he₂)) fun sum back d₃ d₄ hsum hback => ?_
  have hparts := (invert_lays hinvert).append ((add_lays hsum).append (move_lays hback))
  exact .bind (sequence_orderly hparts) fun _ _ _ => .pure _

theorem subtract_orderly {a b : Register} (hd : ConstantsKept d)
    (hwidth : a.width = b.width ∨ allowed (.widthMismatch .subtract a.width b.width))
    (hdisjoint : a.overlaps b = false ∨ allowed (.operandAlias .subtract))
    (hpos : 0 < b.width ∨ ∀ name, allowed (.zeroWidth name)) (ha : ∀ s ∈ a.bits, Reads allowed d s)
    (hb : ∀ s ∈ b.bits, Writes allowed d s) (hknown : d.Knows b.bits ∨ allowed (.operandAlias .move)) :
    Orderly allowed (subtract a b) d := by
  refine .check_then hwidth fun hab => ?_
  refine .bind (.ite (fun ho => .throw (hdisjoint.resolve_left (by simp [ho]))) fun _ => .pure _) fun _ d₁ h => ?_
  obtain ⟨-, rfl⟩ := requireDisjoint_eq_ok.mp h
  refine .bind (complement_orderly hd hpos hb hknown) fun negated d₁ hnegated => ?_
  have he : Edits d d₁ := (complement_makes b).edits hnegated
  have hb₁ : ∀ s ∈ b.bits, Writes allowed d₁ s := fun s hs => (hb s hs).mono he
  refine addBack_orderly (he.constantsKept hd) (hab ▸ hpos) hab hab (fun s hs => (ha s hs).mono he)
    (fun s hs => (hb₁ s hs).reads) hb₁ (hknown.imp_left fun h => h.mono he) fun sum back d₂ d₃ hsum hback => ?_
  have hparts := (complement_lays hnegated).append ((add_lays hsum).append (move_lays hback))
  exact .bind (sequence_orderly hparts) fun _ _ _ => .pure _

/-- Adding a constant to a register, whichever way the constant is made. -/
theorem accumulate_orderly {a : Register} {make : BuildM Register} (hmakes : Makes make)
    (hmake : Orderly allowed make d)
    (hmade : ∀ r d₁, make d = .ok r d₁ → r.width = a.width ∧ d₁.Knows r.bits) (hd : ConstantsKept d)
    (hpos : 0 < a.width ∨ ∀ name, allowed (.zeroWidth name)) (ha : ∀ s ∈ a.bits, Writes allowed d s)
    (hknown : d.Knows a.bits ∨ allowed (.operandAlias .move)) : Orderly allowed (make >>= accumulate a) d := by
  refine .bind hmake fun b d₁ hb => ?_
  obtain ⟨hwidth, hknows⟩ := hmade b d₁ hb
  have he : Edits d d₁ := hmakes.edits hb
  have ha₁ : ∀ s ∈ a.bits, Writes allowed d₁ s := fun s hs => (ha s hs).mono he
  refine addBack_orderly (he.constantsKept hd) hpos hwidth.symm rfl (fun s hs => (ha₁ s hs).reads)
    (fun s hs => .inl (hknows s hs)) ha₁ (hknown.imp_left fun h => h.mono he) fun sum back d₂ d₃ hsum hback => ?_
  exact .bind (chain_orderly ((add_lays hsum).append (move_lays hback))) fun _ _ _ => .pure _

theorem minusOne_width {width : Nat} {r : Register} (hd : ConstantsKept d) (h : minusOne width d = .ok r d') :
    r.width = width := by
  unfold minusOne at h
  split at h
  · exact (constantRegister_ok hd h).2.width
  · exact (constantOr_ok hd h fun h => @addConstant_ok (.ones width) _ _ _ h).2.width

theorem increment_orderly {a : Register} (hd : ConstantsKept d)
    (hpos : 0 < a.width ∨ ∀ name, allowed (.zeroWidth name)) (ha : ∀ s ∈ a.bits, Writes allowed d s)
    (hknown : d.Knows a.bits ∨ allowed (.operandAlias .move)) : Orderly allowed (increment a) d := by
  refine accumulate_orderly (constantRegister_makes 1 a.width) (.one hpos) (fun r d₁ hr => ?_) hd hpos ha hknown
  obtain ⟨-, hkeeps⟩ := constantRegister_ok hd hr
  exact ⟨hkeeps.width, hkeeps.knows⟩

theorem decrement_orderly {a : Register} (hd : ConstantsKept d)
    (hpos : 0 < a.width ∨ ∀ name, allowed (.zeroWidth name)) (ha : ∀ s ∈ a.bits, Writes allowed d s)
    (hknown : d.Knows a.bits ∨ allowed (.operandAlias .move)) : Orderly allowed (decrement a) d := by
  refine accumulate_orderly (minusOne_makes a.width) (.minusOne hpos) (fun r d₁ hr => ?_) hd hpos ha hknown
  obtain ⟨-, ⟨key, hkeeps⟩, -⟩ := minusOne_ok hd hr
  exact ⟨minusOne_width hd hr, hkeeps.knows⟩

end Block

end SignalGraph
