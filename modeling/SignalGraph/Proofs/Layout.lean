/-
Code in the tables of a design.

`Emitted` says what it is for construction to have added a fragment: the states that were there
stay as they are, and the new ones hold code. Each of the edits that blocks are built with,
one more action at the end, an edge to the next fragment or a branch, turns code in the
table into longer code; a block is a chain of such edits.
-/
import SignalGraph.Proofs.Code
import SignalGraph.Proofs.Sequencing

namespace SignalGraph

/-! ## Edits of code -/

namespace Code.At

variable {t : Array StateNode} {c e : Code} {lo : Nat}

theorem modify (h : c.At t lo) {i : Nat} (hi : i < lo ∨ lo + c.size ≤ i) (change : StateNode → StateNode) :
    c.At (t.modify i change) lo :=
  h.congr fun j _ _ => by rw [Array.getElem?_modify, if_neg (by omega)]

theorem single_push (t : Array StateNode) (label : String) : (single []).At (t.push { label }) t.size :=
  ⟨trivial, { label }, by simp [single], rfl, rfl, rfl⟩

/-- An edit of the last state leaves the steps as they are. -/
theorem steps_modify_last (h : c.At t lo) (change : StateNode → StateNode) :
    StepsAt (t.modify (lo + span c.steps) change) lo c.steps :=
  h.steps.congr fun i _ hi => by rw [Array.getElem?_modify, if_neg (by omega)]

theorem act (h : c.At t lo) (a : Action) :
    (c.act a).At (t.modify (lo + span c.steps) (·.addAction a)) lo := by
  obtain ⟨n, hn, hact, htrans, hdefault⟩ := h.last
  refine ⟨h.steps_modify_last _, n.addAction a, ?_, ?_, htrans, hdefault⟩
  · simp [Code.act, Array.getElem?_modify, hn]
  · simp [Code.act, StateNode.addAction, hact]

/-- An edge from the end of one code to the start of the next makes one code of both. -/
theorem link (h : c.At t lo) (he : e.At t (lo + c.size)) :
    (c.andThen e).At (t.modify (lo + span c.steps) (·.setDefault ⟨lo + c.size⟩)) lo := by
  obtain ⟨n, hn, hact, htrans, -⟩ := h.last
  have he' := he.modify (i := lo + span c.steps) (by rw [size]; omega) (·.setDefault ⟨lo + c.size⟩)
  have hstep : (⟨c.last, [], none⟩ : Step).At
      (t.modify (lo + span c.steps) (·.setDefault ⟨lo + c.size⟩)) (lo + span c.steps) := by
    refine ⟨⟨n.setDefault ⟨lo + c.size⟩, ?_, hact, ?_, rfl⟩, fun k actions hk => ?_⟩
    · simp [Array.getElem?_modify, hn]
    · simp [StateNode.setDefault, htrans, Step.edges]
    · simp [Step.bodies] at hk
  refine ⟨StepsAt.append.mpr ⟨h.steps_modify_last _, hstep, he'.steps⟩, ?_⟩
  obtain ⟨n', hn', hrest⟩ := he'.last
  refine ⟨n', ?_, hrest⟩
  rw [← hn']
  simp only [andThen, span_append, span_cons, Step.size, Step.bodies, size, List.map_nil, Option.toList_none,
    List.nil_append, List.length_nil]
  congr 1
  omega

/-- Two more states after the code, the first of them entered if a guard holds. -/
theorem branch (h : c.At t lo) (harm : (single []).At t (lo + c.size))
    (hexit : (single []).At t (lo + c.size + 1)) (guard : Guard) (a : Action) :
    (c.branch guard [a]).At
      ((((t.modify (lo + span c.steps)
          (·.addTransition ⟨lo + span c.steps⟩ ⟨lo + c.size⟩ guard)).modify (lo + span c.steps)
          (·.setDefault ⟨lo + c.size + 1⟩)).modify (lo + c.size) (·.addAction a)).modify (lo + c.size)
          (·.setDefault ⟨lo + c.size + 1⟩)) lo := by
  obtain ⟨n, hn, hact, htrans, -⟩ := h.last
  obtain ⟨arm, harm, harm_act, harm_trans, -⟩ := harm.last
  obtain ⟨exit, hexit, hexit_act, hexit_rest⟩ := hexit.last
  have hsize : c.size = span c.steps + 1 := rfl
  simp only [single, span_nil, Nat.add_zero] at harm harm_act hexit hexit_act
  refine ⟨StepsAt.append.mpr ⟨?_, ⟨?_, ?_⟩, trivial⟩, exit, ?_, hexit_act, hexit_rest⟩
  · refine h.steps.congr fun i _ hi => ?_
    simp only [Array.getElem?_modify]
    repeat rw [if_neg (by omega)]
  · refine ⟨(n.addTransition ⟨lo + span c.steps⟩ ⟨lo + c.size⟩ guard).setDefault ⟨lo + c.size + 1⟩,
      ?_, hact, ?_, rfl⟩
    · simp [Array.getElem?_modify, hn, hsize]
    · simp [StateNode.setDefault, StateNode.addTransition, htrans, Step.edges, hsize, Nat.add_assoc]
  · intro k actions hk
    have hk' : k = 0 ∧ actions = [a] := by
      cases k with
      | zero => simpa [Step.bodies, eq_comm] using hk
      | succ k => simp [Step.bodies] at hk
    obtain ⟨rfl, rfl⟩ := hk'
    refine ⟨(arm.addAction a).setDefault ⟨lo + c.size + 1⟩, ?_, ?_, harm_trans, ?_⟩
    · simp only [Array.getElem?_modify]
      rw [if_pos (by omega), if_pos (by omega), if_neg (by omega), if_neg (by omega),
        show lo + span c.steps + 1 + 0 = lo + c.size by omega, harm]
      rfl
    · simp [StateNode.setDefault, StateNode.addAction, harm_act]
    · simp [StateNode.setDefault, Step.size, Step.bodies, hsize, Nat.add_assoc]
  · have hlast : lo + span (c.branch guard [a]).steps = lo + c.size + 1 := by
      simp only [Code.branch, span_append, span_cons, span_nil, Step.size, Step.bodies, List.map_cons,
        List.map_nil, Option.toList_none, List.append_nil, List.length_cons, List.length_nil, hsize]
      omega
    simp only [hlast, Array.getElem?_modify]
    rw [if_neg (by omega), if_neg (by omega), if_neg (by omega), if_neg (by omega), hexit]

end Code.At

/-! ## Fragments of code -/

/-- The handles of `count` states from the position `lo` on. -/
def stateRange (lo count : Nat) : List StateId := (List.range' lo count).map StateId.mk

theorem stateRange_append (lo m n : Nat) :
    stateRange lo m ++ stateRange (lo + m) n = stateRange lo (m + n) := by
  simp only [stateRange, ← List.map_append, List.range'_append_1]

theorem mem_stateRange {lo count : Nat} {q : StateId} :
    q ∈ stateRange lo count ↔ lo ≤ q.index ∧ q.index < lo + count := by
  simp only [stateRange, List.mem_map, List.mem_range'_1]
  constructor
  · intro h
    obtain ⟨i, hi, rfl⟩ := h
    exact hi
  · intro h
    exact ⟨q.index, h, rfl⟩

/-- The fragment of code that starts at the position `lo`. -/
def Code.fragment (c : Code) (lo : Nat) : Fragment :=
  ⟨⟨lo⟩, ⟨lo + span c.steps⟩, stateRange lo c.size⟩

theorem Code.fragment_andThen (c e : Code) (lo : Nat) :
    (c.andThen e).fragment lo = (c.fragment lo).join (e.fragment (lo + c.size)) := by
  have hspan : lo + span (c.andThen e).steps = lo + c.size + span e.steps := by
    have := size_andThen c e
    simp only [size] at this ⊢
    omega
  simp only [fragment, Fragment.join, hspan, size_andThen, stateRange_append]

theorem Code.fragment_branch (c : Code) (guard : Guard) (actions : List Action) (lo : Nat) :
    (c.branch guard actions).fragment lo =
      ⟨⟨lo⟩, ⟨lo + c.size + 1⟩, stateRange lo c.size ++ [⟨lo + c.size⟩, ⟨lo + c.size + 1⟩]⟩ := by
  have hspan : lo + span (c.branch guard actions).steps = lo + c.size + 1 := by
    have := size_branch c guard actions
    simp only [size] at this ⊢
    omega
  simp only [fragment, hspan, size_branch, ← stateRange_append]
  rfl

/-- The table holds the codes one after the other from the position `lo` on, each as its fragment. -/
def RowAt (t : Array StateNode) : Nat → List (Fragment × Code) → Prop
  | _, [] => True
  | lo, (f, c) :: rest => f = c.fragment lo ∧ c.At t lo ∧ RowAt t (lo + c.size) rest

/-- How many states some codes have. -/
def rowSize (l : List (Fragment × Code)) : Nat := (l.map fun p => p.2.size).sum

@[simp] theorem rowSize_nil : rowSize [] = 0 := rfl

@[simp] theorem rowSize_cons (f : Fragment) (c : Code) (l : List (Fragment × Code)) :
    rowSize ((f, c) :: l) = c.size + rowSize l := rfl

namespace RowAt

theorem congr {t t' : Array StateNode} : ∀ {l : List (Fragment × Code)} {lo : Nat}, RowAt t lo l →
    (∀ i, lo ≤ i → i < lo + rowSize l → t'[i]? = t[i]?) → RowAt t' lo l
  | [], _, _, _ => trivial
  | (f, c) :: l, lo, ⟨hf, hc, hl⟩, heq => by
    rw [rowSize_cons] at heq
    exact ⟨hf, hc.congr fun i h h' => heq i h (by omega), congr hl fun i h h' => heq i (by omega) (by omega)⟩

theorem append {t : Array StateNode} {l' : List (Fragment × Code)} : ∀ {l : List (Fragment × Code)} {lo : Nat},
    RowAt t lo l → RowAt t (lo + rowSize l) l' → RowAt t lo (l ++ l')
  | [], _, _, hl' => hl'
  | (f, c) :: l, lo, ⟨hf, hc, hl⟩, hl' => by
    rw [rowSize_cons, ← Nat.add_assoc] at hl'
    exact ⟨hf, hc, append hl hl'⟩

theorem single {t : Array StateNode} {q : StateId} {actions : List Action} {l : List (Fragment × Code)} {lo : Nat}
    (h : RowAt t lo ((.single q, .single actions) :: l)) :
    q = ⟨lo⟩ ∧ (∃ n, t[lo]? = some n ∧ n.actions = actions ∧ n.transitions = [] ∧ n.defaultTarget = none) ∧
      RowAt t (lo + 1) l := by
  obtain ⟨hq, hc, hl⟩ := h
  exact ⟨congrArg Fragment.entry hq, hc.last, hl⟩

end RowAt

/-! ## Emission -/

/-- The design has the states `t` and after them codes, one after the other, and it has `n` signals. -/
structure Emitted (t : Array StateNode) (n : Nat) (d : Design) (l : List (Fragment × Code)) : Prop where
  signals : d.signals.size = n
  size : d.states.size = t.size + rowSize l
  old : ∀ i, i < t.size → d.states[i]? = t[i]?
  row : RowAt d.states t.size l

namespace Emitted

open Design

variable {t : Array StateNode} {n : Nat} {d d' : Design} {f g : Fragment} {c e : Code}
  {l : List (Fragment × Code)}

theorem start (d : Design) : Emitted d.states d.signals.size d [] := ⟨rfl, rfl, fun _ _ => rfl, trivial⟩

theorem fragment (h : Emitted t n d ((f, c) :: l)) : f = c.fragment t.size := h.row.1

theorem code (h : Emitted t n d ((f, c) :: l)) : c.At d.states t.size := h.row.2.1

/-- Codes are emitted after those that were emitted before. -/
theorem append {m : Nat} {l' : List (Fragment × Code)} (h : Emitted t n d l) (h' : Emitted d.states m d' l') :
    Emitted t m d' (l ++ l') := by
  have hrow : RowAt d'.states t.size l := h.row.congr fun i _ hi => h'.old i (h.size ▸ hi)
  refine ⟨h'.signals, ?_, fun i hi => ?_, hrow.append (h.size ▸ h'.row)⟩
  · rw [h'.size, h.size]
    simp [rowSize, Nat.add_assoc]
  · rw [h'.old i (by rw [h.size]; omega), h.old i hi]

/-- What leaves the states as they are leaves the codes in them. -/
theorem of_states {m : Nat} (h : Emitted t n d l) (hstates : d'.states = d.states)
    (hsignals : d'.signals.size = m) : Emitted t m d' l :=
  ⟨hsignals, hstates ▸ h.size, hstates ▸ h.old, hstates ▸ h.row⟩

theorem reserveScope {kind scope : String} (h : Emitted t n d l)
    (hs : Design.reserveScope kind d = .ok scope d') : Emitted t n d' l := by
  obtain ⟨-, rfl⟩ := reserveScope_eq_ok.mp hs
  exact h.of_states rfl h.signals

theorem freshSignal {scope role : String} {s : SignalId} (h : Emitted t n d l)
    (hs : Design.freshSignal scope role d = .ok s d') : s = ⟨n⟩ ∧ Emitted t (n + 1) d' l := by
  obtain ⟨-, rfl, rfl⟩ := freshSignal_eq_ok.mp hs
  exact ⟨by rw [h.signals], h.of_states rfl (by rw [pushSignal_size, h.signals])⟩

theorem freshRegister {scope role : String} {width : Nat} {r : Register} (h : Emitted t n d l)
    (hr : Design.freshRegister scope role width d = .ok r d') :
    0 < width ∧ r.bits = handles n width ∧ Emitted t (n + width) d' l := by
  obtain ⟨hpos, rfl, hd⟩ := createRegister_ok hr
  refine ⟨hpos, by rw [h.signals], h.of_states (by rw [hd]) ?_⟩
  rw [hd]
  simp [bitInfos, h.signals]

theorem freshState {scope role : String} {q : StateId} (h : Emitted t n d l)
    (hq : Design.freshState scope role d = .ok q d') :
    Emitted t n d' (l ++ [(.single q, .single [])]) := by
  obtain ⟨rfl, rfl⟩ := freshState_eq_ok.mp hq
  refine h.append ⟨h.signals, by simp, fun i hi => ?_, rfl, .single_push d.states _, trivial⟩
  rw [pushState_getElem?, if_neg (by omega)]

/-- Edits of the new states keep the old ones. -/
theorem of_row {l' : List (Fragment × Code)} (h : Emitted t n d l) (hsignals : d'.signals = d.signals)
    (hsize : d'.states.size = d.states.size) (hl : rowSize l' = rowSize l)
    (hold : ∀ i, i < t.size → d'.states[i]? = d.states[i]?) (hrow : RowAt d'.states t.size l') :
    Emitted t n d' l' :=
  ⟨hsignals ▸ h.signals, by rw [hsize, h.size, hl], fun i hi => (hold i hi).trans (h.old i hi), hrow⟩

theorem addAction (h : Emitted t n d ((f, c) :: l)) (a : Action) :
    Emitted t n (d.editState f.exit (·.addAction a)) ((f, c.act a) :: l) := by
  obtain ⟨hf, hc, hl⟩ := h.row
  subst hf
  refine h.of_row rfl (by simp) rfl (fun i hi => ?_) ⟨rfl, hc.act a, ?_⟩
  · rw [editState_getElem?, if_neg (by simp only [Code.fragment]; omega)]
  · refine hl.congr fun i hi _ => ?_
    rw [editState_getElem?, if_neg (by simp only [Code.fragment, Code.size] at hi ⊢; omega)]

theorem drive {s : SignalId} {b : Bool} {u : Unit} (h : Emitted t n d ((f, c) :: l))
    (hs : Design.drive f.exit s b d = .ok u d') : Emitted t n d' ((f, c.act (.drive s b)) :: l) := by
  obtain ⟨-, -, rfl⟩ := drive_eq_ok.mp hs
  exact h.addAction _

theorem copy {src dst : SignalId} {u : Unit} (h : Emitted t n d ((f, c) :: l))
    (hs : Design.copy f.exit src dst d = .ok u d') : Emitted t n d' ((f, c.act (.copy src dst)) :: l) := by
  obtain ⟨-, -, -, rfl⟩ := copy_eq_ok.mp hs
  exact h.addAction _

/-- A loop that adds actions to the last state. -/
theorem forM {α : Type} {step : α → BuildM Unit} (action : α → Action)
    (hstep : ∀ (x : α) (d d' : Design), step x d = .ok () d' →
      d' = d.editState f.exit (·.addAction (action x))) :
    ∀ {xs : List α} {u : PUnit} {c : Code} {d d' : Design}, Emitted t n d [(f, c)] →
      xs.forM step d = .ok u d' → Emitted t n d' [(f, ⟨c.steps, c.last ++ xs.map action⟩)]
  | [], u, c, d, d', hc, h => by
    obtain rfl := forM_nil_eq_ok.mp h
    simpa using hc
  | x :: xs, u, c, d, d', hc, h => by
    obtain ⟨d₁, hx, h⟩ := forM_cons_eq_ok.mp h
    obtain rfl := hstep x d d₁ hx
    have hrest := forM action hstep (hc.addAction (action x)) h
    simpa [Code.act] using hrest

/-- An edge from the first fragment to the second makes one of both. -/
theorem setDefault (h : Emitted t n d ((f, c) :: (g, e) :: l)) :
    Emitted t n (d.editState f.exit (·.setDefault g.entry)) ((f.join g, c.andThen e) :: l) := by
  obtain ⟨hf, hc, hg, he, hl⟩ := h.row
  subst hf hg
  refine h.of_row rfl (by simp) ?_ (fun i hi => ?_) ⟨?_, hc.link he, ?_⟩
  · simp only [rowSize_cons, Code.size_andThen, Nat.add_assoc]
  · rw [editState_getElem?, if_neg (by simp only [Code.fragment]; omega)]
  · rw [Code.fragment_andThen]
  · rw [Code.size_andThen, ← Nat.add_assoc]
    refine hl.congr fun i hi _ => ?_
    rw [editState_getElem?, if_neg (by simp only [Code.fragment, Code.size] at hi ⊢; omega)]

theorem connect {u : Unit} (h : Emitted t n d ((f, c) :: (g, e) :: l))
    (hs : Design.connect f.exit g.entry d = .ok u d') : Emitted t n d' ((f.join g, c.andThen e) :: l) := by
  obtain ⟨-, -, rfl⟩ := connect_eq_ok.mp hs
  exact h.setDefault

/-- Edges from the first fragment to two single states make a branch of the three. -/
theorem branch {arm exit : StateId} {guard : Guard} {s : SignalId} {b : Bool} {u₁ u₂ u₃ u₄ : Unit}
    {d₁ d₂ d₃ : Design} (h : Emitted t n d [(f, c), (.single arm, .single []), (.single exit, .single [])])
    (h₁ : connectWhen f.exit arm guard d = .ok u₁ d₁) (h₂ : Design.connect f.exit exit d₁ = .ok u₂ d₂)
    (h₃ : Design.drive arm s b d₂ = .ok u₃ d₃) (h₄ : Design.connect arm exit d₃ = .ok u₄ d') :
    Emitted t n d' [(⟨f.entry, exit, f.states ++ [arm, exit]⟩, c.branch guard [.drive s b])] := by
  obtain ⟨-, -, -, rfl⟩ := connectWhen_eq_ok.mp h₁
  obtain ⟨-, -, rfl⟩ := connect_eq_ok.mp h₂
  obtain ⟨-, -, rfl⟩ := drive_eq_ok.mp h₃
  obtain ⟨-, -, rfl⟩ := connect_eq_ok.mp h₄
  obtain ⟨hf, hc, harm, harm', hexit, hexit', -⟩ := h.row
  obtain rfl : arm = ⟨t.size + c.size⟩ := congrArg Fragment.entry harm
  obtain rfl : exit = ⟨t.size + c.size + 1⟩ := congrArg Fragment.entry hexit
  subst hf
  refine h.of_row (by simp) (by simp) ?_ (fun i hi => ?_) ⟨?_, ?_, trivial⟩
  · simp only [rowSize_cons, rowSize_nil, Code.size_branch, Code.size_single]
  · simp only [editState_getElem?, Code.fragment, Code.size]
    rw [if_neg (by omega), if_neg (by omega), if_neg (by omega), if_neg (by omega)]
  · rw [Code.fragment_branch]
    rfl
  · simp only [editState_states]
    exact hc.branch harm' hexit' guard (.drive s b)

theorem chain_ok (h : Emitted t n d ((f, c) :: (g, e) :: l)) :
    chain f g d = .ok (f.join g) (d.editState f.exit (·.setDefault g.entry)) := by
  obtain ⟨hf, hc, hg, he, -⟩ := h.row
  obtain ⟨node, hn, -, -, hdefault⟩ := hc.last
  have hlt := he.lt_size
  subst hf hg
  exact chain_eq_ok.mpr ⟨rfl, by simp only [Code.fragment]; omega, ⟨node, hn, hdefault⟩, rfl⟩

/-- Fragments that were emitted one after the other can be chained, and then are one. -/
theorem foldlM_chain : ∀ {l : List (Fragment × Code)} {f : Fragment} {c : Code} {d : Design},
    Emitted t n d ((f, c) :: l) → ∃ top d', (l.map Prod.fst).foldlM chain f d = .ok top d' ∧
      Emitted t n d' [(top, (l.map Prod.snd).foldl Code.andThen c)]
  | [], f, c, d, h => ⟨f, d, rfl, h⟩
  | (g, e) :: l, f, c, d, h => by
    obtain ⟨top, d', hrun, hemitted⟩ := foldlM_chain h.setDefault
    refine ⟨top, d', ?_, hemitted⟩
    rw [List.map_cons, List.foldlM_cons, bind_eq_ok]
    exact ⟨_, _, h.chain_ok, hrun⟩

theorem sequence {top : Fragment} (h : Emitted t n d ((f, c) :: l))
    (hs : Design.sequence (f :: l.map Prod.fst) d = .ok top d') :
    Emitted t n d' [(top, (l.map Prod.snd).foldl Code.andThen c)] := by
  obtain ⟨top', d'', hrun, hemitted⟩ := h.foldlM_chain
  cases hrun.symm.trans hs
  exact hemitted

end Emitted

theorem Code.exec_foldl_andThen (es : List Code) : ∀ (c : Code) (v : Valuation),
    (es.foldl Code.andThen c).exec v = es.foldl (fun v e => e.exec v) (c.exec v) := by
  induction es with
  | nil => exact fun _ _ => rfl
  | cons e es ih =>
    intro c v
    rw [List.foldl_cons, ih, exec_andThen]
    rfl

end SignalGraph
