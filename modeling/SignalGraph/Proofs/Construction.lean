/-
What a step of construction has done when it succeeds.

A block is a long `do` of small steps. The lemmas here turn the equation of one step into
what was checked and what was changed. The changes are named (`pushSignal`, `pushState`,
`editState`), so that the tables of the last design can be read off without opening a
step again.
-/
import SignalGraph.Design.Compose
import SignalGraph.Proofs.Effects

namespace SignalGraph

/-- The node with a default target. -/
def StateNode.setDefault (n : StateNode) (target : StateId) : StateNode :=
  { n with defaultTarget := some target }

namespace Design

/-! ## The changes -/

/-- The design with one more signal. -/
def pushSignal (d : Design) (info : SignalInfo) : Design :=
  { d with signals := d.signals.push info, names := d.names.insert info.name ⟨d.signals.size⟩ }

/-- The design with one more state, which has no actions and no edges. -/
def pushState (d : Design) (label : String) : Design := { d with states := d.states.push { label } }

/-- The design with one state changed. -/
def editState (d : Design) (q : StateId) (change : StateNode → StateNode) : Design :=
  { d with states := d.states.modify q.index change }

/-- The signal exists and is not constant. -/
def Writable (d : Design) (s : SignalId) : Prop := ∃ info, d.signal? s = some info ∧ info.constant = false

@[simp] theorem pushState_signals (d : Design) (label : String) :
    (d.pushState label).signals = d.signals := rfl

@[simp] theorem pushState_size (d : Design) (label : String) :
    (d.pushState label).states.size = d.states.size + 1 := by
  simp [pushState]

theorem pushState_getElem? (d : Design) (label : String) (i : Nat) :
    (d.pushState label).states[i]? = if i = d.states.size then some { label } else d.states[i]? := by
  simp [pushState, Array.getElem?_push]

theorem editState_states (d : Design) (q : StateId) (change : StateNode → StateNode) :
    (d.editState q change).states = d.states.modify q.index change := rfl

@[simp] theorem editState_signals (d : Design) (q : StateId) (change : StateNode → StateNode) :
    (d.editState q change).signals = d.signals := rfl

@[simp] theorem editState_size (d : Design) (q : StateId) (change : StateNode → StateNode) :
    (d.editState q change).states.size = d.states.size := by
  simp [editState]

theorem editState_getElem? (d : Design) (q : StateId) (change : StateNode → StateNode) (i : Nat) :
    (d.editState q change).states[i]? = if q.index = i then d.states[i]?.map change else d.states[i]? := by
  simp [editState, Array.getElem?_modify]

theorem editState_getElem?_self {d : Design} {q : StateId} {n : StateNode} (h : d.states[q.index]? = some n)
    (change : StateNode → StateNode) : (d.editState q change).states[q.index]? = some (change n) := by
  rw [editState_getElem?, if_pos rfl, h, Option.map_some]

theorem editState_getElem?_of_ne {d : Design} {q : StateId} {i : Nat} (h : q.index ≠ i)
    (change : StateNode → StateNode) : (d.editState q change).states[i]? = d.states[i]? := by
  rw [editState_getElem?, if_neg h]

theorem editState_editState (d : Design) (q : StateId) (change change' : StateNode → StateNode) :
    (d.editState q change).editState q change' = d.editState q fun n => change' (change n) := by
  have : (d.states.modify q.index change).modify q.index change' =
      d.states.modify q.index fun n => change' (change n) := by
    refine Array.ext_getElem? fun i => ?_
    simp only [Array.getElem?_modify]
    split <;> simp [Function.comp_def]
  simp only [editState, this]

@[simp] theorem pushSignal_size (d : Design) (info : SignalInfo) :
    (d.pushSignal info).signals.size = d.signals.size + 1 := by
  simp [pushSignal]

theorem signal?_lt {d : Design} {s : SignalId} {info : SignalInfo} (h : d.signal? s = some info) :
    s.index < d.signals.size :=
  (Array.getElem?_eq_some_iff.mp h).1

theorem Writable.lt {d : Design} {s : SignalId} (h : d.Writable s) : s.index < d.signals.size := by
  obtain ⟨_, h, -⟩ := h
  exact signal?_lt h

/-! ## Checks -/

theorem requireSignal_eq_ok {s : SignalId} {info : SignalInfo} {d d' : Design} :
    requireSignal s d = .ok info d' ↔ d.signal? s = some info ∧ d = d' := by
  unfold requireSignal
  cases d.signal? s <;> simp

theorem requireWritable_eq_ok {s : SignalId} {u : Unit} {d d' : Design} :
    requireWritable s d = .ok u d' ↔ d.Writable s ∧ d = d' := by
  simp only [requireWritable, bind_eq_ok, requireSignal_eq_ok, Writable]
  constructor
  · intro h
    obtain ⟨info, _, ⟨hs, rfl⟩, h⟩ := h
    split at h
    · cases throw_eq_ok.mp h
    · next hc => exact ⟨⟨info, hs, by simpa using hc⟩, (pure_eq_ok.mp h).2⟩
  · intro h
    obtain ⟨⟨info, hs, hc⟩, rfl⟩ := h
    refine ⟨info, d, ⟨hs, rfl⟩, ?_⟩
    rw [if_neg (by simp [hc])]
    rfl

theorem requireState_eq_ok {q : StateId} {n : StateNode} {d d' : Design} :
    requireState q d = .ok n d' ↔ d.state? q = some n ∧ d = d' := by
  unfold requireState
  cases d.state? q <;> simp

theorem requireNoDefault_eq_ok {q : StateId} {u : Unit} {d d' : Design} :
    requireNoDefault q d = .ok u d' ↔ (∃ n, d.state? q = some n ∧ n.defaultTarget = none) ∧ d = d' := by
  simp only [requireNoDefault, bind_eq_ok, requireState_eq_ok]
  constructor
  · intro h
    obtain ⟨n, _, ⟨hn, rfl⟩, h⟩ := h
    split at h
    · cases throw_eq_ok.mp h
    · next hd => exact ⟨⟨n, hn, by simpa using hd⟩, (pure_eq_ok.mp h).2⟩
  · intro h
    obtain ⟨⟨n, hn, hd⟩, rfl⟩ := h
    refine ⟨n, d, ⟨hn, rfl⟩, ?_⟩
    rw [if_neg (by simp [hd])]
    rfl

theorem requireSignals_eq_ok {l : List SignalId} {u : PUnit} {d d' : Design} :
    (l.forM fun s => discard (requireSignal s)) d = .ok u d' ↔
      (∀ s ∈ l, s.index < d.signals.size) ∧ d = d' := by
  induction l with
  | nil => simp only [forM_nil_eq_ok, List.not_mem_nil, false_implies, implies_true, true_and]
  | cons s l ih =>
    simp only [forM_cons_eq_ok, discard_eq_ok, requireSignal_eq_ok, List.forall_mem_cons]
    constructor
    · intro h
      obtain ⟨_, ⟨info, hs, rfl⟩, h⟩ := h
      obtain ⟨hl, rfl⟩ := ih.mp h
      exact ⟨⟨signal?_lt hs, hl⟩, rfl⟩
    · intro h
      obtain ⟨⟨hs, hl⟩, rfl⟩ := h
      exact ⟨d, ⟨_, Array.getElem?_eq_getElem hs, rfl⟩, ih.mpr ⟨hl, rfl⟩⟩

/-! ## States, actions and edges -/

theorem createState_eq_ok {label : String} {q : StateId} {d d' : Design} :
    createState label d = .ok q d' ↔ q = ⟨d.states.size⟩ ∧ d' = d.pushState label := by
  show EStateM.Result.ok _ _ = _ ↔ _
  simp only [EStateM.Result.ok.injEq, eq_comm]
  rfl

theorem freshState_eq_ok {scope role : String} {q : StateId} {d d' : Design} :
    freshState scope role d = .ok q d' ↔
      q = ⟨d.states.size⟩ ∧ d' = d.pushState (scopedName scope role) := createState_eq_ok

theorem updateState_eq_ok {q : StateId} {change : StateNode → StateNode} {u : Unit} {d d' : Design} :
    updateState q change d = .ok u d' ↔ q.index < d.states.size ∧ d' = d.editState q change := by
  simp only [updateState, bind_eq_ok, requireState_eq_ok, modify_eq_ok, state?]
  constructor
  · intro h
    obtain ⟨n, _, ⟨hn, rfl⟩, rfl⟩ := h
    exact ⟨(Array.getElem?_eq_some_iff.mp hn).1, rfl⟩
  · intro h
    obtain ⟨hlt, rfl⟩ := h
    exact ⟨_, d, ⟨Array.getElem?_eq_getElem hlt, rfl⟩, rfl⟩

theorem drive_eq_ok {q : StateId} {s : SignalId} {b : Bool} {u : Unit} {d d' : Design} :
    drive q s b d = .ok u d' ↔
      d.Writable s ∧ q.index < d.states.size ∧ d' = d.editState q (·.addAction (.drive s b)) := by
  simp only [drive, bind_eq_ok, requireWritable_eq_ok, updateState_eq_ok]
  constructor
  · intro h
    obtain ⟨_, _, ⟨hs, rfl⟩, h⟩ := h
    exact ⟨hs, h⟩
  · intro h
    obtain ⟨hs, h⟩ := h
    exact ⟨(), d, ⟨hs, rfl⟩, h⟩

theorem copy_eq_ok {q : StateId} {src dst : SignalId} {u : Unit} {d d' : Design} :
    copy q src dst d = .ok u d' ↔ src.index < d.signals.size ∧ d.Writable dst ∧
      q.index < d.states.size ∧ d' = d.editState q (·.addAction (.copy src dst)) := by
  simp only [copy, bind_eq_ok, requireSignal_eq_ok, requireWritable_eq_ok, updateState_eq_ok]
  constructor
  · intro h
    obtain ⟨_, _, ⟨hs, rfl⟩, _, _, ⟨ht, rfl⟩, h⟩ := h
    exact ⟨signal?_lt hs, ht, h⟩
  · intro h
    obtain ⟨hs, ht, h⟩ := h
    exact ⟨_, d, ⟨Array.getElem?_eq_getElem hs, rfl⟩, (), d, ⟨ht, rfl⟩, h⟩

theorem connect_eq_ok {source target : StateId} {u : Unit} {d d' : Design} :
    connect source target d = .ok u d' ↔ target.index < d.states.size ∧
      (∃ n, d.state? source = some n ∧ n.defaultTarget = none) ∧
      d' = d.editState source (·.setDefault target) := by
  simp only [connect, bind_eq_ok, requireState_eq_ok, requireNoDefault_eq_ok, updateState_eq_ok]
  constructor
  · intro h
    obtain ⟨_, _, ⟨ht, rfl⟩, _, _, ⟨hs, rfl⟩, _, rfl⟩ := h
    exact ⟨(Array.getElem?_eq_some_iff.mp ht).1, hs, rfl⟩
  · intro h
    obtain ⟨ht, ⟨n, hn, hd⟩, rfl⟩ := h
    exact ⟨_, d, ⟨Array.getElem?_eq_getElem ht, rfl⟩, (), d, ⟨⟨n, hn, hd⟩, rfl⟩,
      (Array.getElem?_eq_some_iff.mp hn).1, rfl⟩

theorem connectWhen_eq_ok {source target : StateId} {guard : Guard} {u : Unit} {d d' : Design} :
    connectWhen source target guard d = .ok u d' ↔ target.index < d.states.size ∧
      (∀ s ∈ guard.signals, s.index < d.signals.size) ∧ source.index < d.states.size ∧
      d' = d.editState source (·.addTransition source target guard) := by
  simp only [connectWhen, bind_eq_ok, requireState_eq_ok, requireSignals_eq_ok, updateState_eq_ok]
  constructor
  · intro h
    obtain ⟨_, _, ⟨ht, rfl⟩, _, _, ⟨hg, rfl⟩, h⟩ := h
    exact ⟨(Array.getElem?_eq_some_iff.mp ht).1, hg, h⟩
  · intro h
    obtain ⟨ht, hg, h⟩ := h
    exact ⟨_, d, ⟨Array.getElem?_eq_getElem ht, rfl⟩, ⟨⟩, d, ⟨hg, rfl⟩, h⟩

/-! ## Signals and registers -/

theorem addSignal_eq_ok {name : String} {initial constant : Bool} {s : SignalId} {d d' : Design} :
    addSignal name initial constant d = .ok s d' ↔ name ∉ d.names ∧ s = ⟨d.signals.size⟩ ∧
      d' = d.pushSignal ⟨name, initial, constant⟩ := by
  unfold addSignal
  split
  · next h =>
    refine ⟨fun h' => ?_, fun h' => absurd (Std.TreeMap.mem_iff_contains.mpr h) h'.1⟩
    cases h'
  · next h =>
    simp only [EStateM.Result.ok.injEq]
    exact ⟨fun ⟨hs, hd⟩ => ⟨h, hs.symm, hd.symm⟩, fun ⟨_, hs, hd⟩ => ⟨hs.symm, hd.symm⟩⟩

theorem createSignal_eq_ok {name : String} {s : SignalId} {d d' : Design} :
    createSignal name d = .ok s d' ↔
      name ∉ d.names ∧ s = ⟨d.signals.size⟩ ∧ d' = d.pushSignal ⟨name, false, false⟩ := addSignal_eq_ok

theorem freshSignal_eq_ok {scope role : String} {s : SignalId} {d d' : Design} :
    freshSignal scope role d = .ok s d' ↔ scopedName scope role ∉ d.names ∧
      s = ⟨d.signals.size⟩ ∧ d' = d.pushSignal ⟨scopedName scope role, false, false⟩ := addSignal_eq_ok

theorem reserveScope_eq_ok {kind scope : String} {d d' : Design} :
    reserveScope kind d = .ok scope d' ↔
      scope = kind ++ toString d.scopes ∧ d' = { d with scopes := d.scopes + 1 } := by
  show EStateM.Result.ok _ _ = _ ↔ _
  simp only [EStateM.Result.ok.injEq, eq_comm]

/-- The entries of the signals `name[i]`, `name[i + 1]`, … of a register. -/
def bitInfos (name : String) (initial : Nat → Bool) (constant : Bool) (i count : Nat) : List SignalInfo :=
  (List.range' i count).map fun j => ⟨s!"{name}[{j}]", initial j, constant⟩

/-- The handles of `count` signals from the position `first` on. -/
def handles (first count : Nat) : List SignalId := (List.range' first count).map SignalId.mk

@[simp] theorem length_handles (first count : Nat) : (handles first count).length = count := by
  simp [handles]

theorem mem_handles {first count : Nat} {s : SignalId} :
    s ∈ handles first count ↔ first ≤ s.index ∧ s.index < first + count := by
  simp only [handles, List.mem_map, List.mem_range'_1]
  constructor
  · intro h
    obtain ⟨i, hi, rfl⟩ := h
    exact hi
  · exact fun hs => ⟨s.index, hs, rfl⟩

theorem getElem?_handles {first count i : Nat} {s : SignalId} (h : (handles first count)[i]? = some s) :
    i < count ∧ s = ⟨first + i⟩ := by
  obtain ⟨hi, rfl⟩ := List.getElem?_eq_some_iff.mp h
  rw [length_handles] at hi
  exact ⟨hi, by simp [handles]⟩

theorem nodup_handles (first count : Nat) : (handles first count).Nodup :=
  List.Pairwise.map _ (fun _ _ h he => h (SignalId.mk.inj he)) List.nodup_range'

theorem addBitsFrom_ok {name : String} {initial : Nat → Bool} {constant : Bool} {count : Nat} :
    ∀ {i : Nat} {bits : List SignalId} {d d' : Design},
      addBitsFrom name initial constant i count d = .ok bits d' →
      bits = handles d.signals.size count ∧
        d' = { d with signals := d.signals ++ (bitInfos name initial constant i count).toArray,
                      names := d'.names } := by
  induction count with
  | zero =>
    intro i bits d d' h
    obtain ⟨rfl, rfl⟩ := pure_eq_ok.mp h
    simp [handles, bitInfos]
  | succ count ih =>
    intro i bits d d' h
    simp only [addBitsFrom, bind_eq_ok, addSignal_eq_ok, pure_eq_ok] at h
    obtain ⟨_, _, ⟨-, rfl, rfl⟩, rest, d₁, h, rfl, rfl⟩ := h
    obtain ⟨rfl, hd⟩ := ih h
    refine ⟨by simp [handles, List.range'_succ], ?_⟩
    rw [hd]
    simp [pushSignal, bitInfos, List.range'_succ]

theorem addBits_ok {name : String} {width : Nat} {initial : Nat → Bool} {constant : Bool} {r : Register}
    {d d' : Design} (h : addBits name width initial constant d = .ok r d') :
    r = ⟨name, handles d.signals.size width⟩ ∧
      d' = { d with signals := d.signals ++ (bitInfos name initial constant 0 width).toArray,
                    names := d'.names } := by
  simp only [addBits, bind_eq_ok, pure_eq_ok] at h
  obtain ⟨bits, _, h, rfl, rfl⟩ := h
  obtain ⟨rfl, hd⟩ := addBitsFrom_ok h
  exact ⟨rfl, hd⟩

theorem createRegister_ok {name : String} {width : Nat} {r : Register} {d d' : Design}
    (h : createRegister name width d = .ok r d') :
    0 < width ∧ r = ⟨name, handles d.signals.size width⟩ ∧
      d' = { d with signals := d.signals ++ (bitInfos name (fun _ => false) false 0 width).toArray,
                    names := d'.names } := by
  unfold createRegister at h
  split at h
  · cases throw_eq_ok.mp h
  · exact ⟨by omega, addBits_ok h⟩

/-! ## Finishing -/

/-- What a program that was handed out says about its design. -/
theorem finish_ok {d : Design} {top : Fragment} {p : Program} (h : d.finish top = .ok p) :
    p = d.program top ∧ top.entry.index < d.states.size ∧ top.exit.index < d.states.size ∧
      (d.settings.validateOnFinish = true → p.violations = []) := by
  simp only [finish] at h
  split at h
  · cases h
  next hentry =>
  split at h
  · cases h
  next hexit =>
  have hlt : ∀ {q : StateId}, ¬ (d.state? q).isNone = true → q.index < d.states.size := fun {q} hq => by
    simpa [state?] using hq
  split at h
  · split at h
    · next hv =>
      cases h
      exact ⟨rfl, hlt hentry, hlt hexit, fun _ => hv⟩
    · cases h
  · next hv =>
    cases h
    exact ⟨rfl, hlt hentry, hlt hexit, fun hv' => absurd hv' hv⟩

theorem finish_eq_ok {d : Design} {top : Fragment} {p : Program} :
    d.finish top = .ok p ↔ p = d.program top ∧ top.entry.index < d.states.size ∧
      top.exit.index < d.states.size ∧ (d.settings.validateOnFinish = true → p.violations = []) := by
  refine ⟨finish_ok, fun h => ?_⟩
  obtain ⟨rfl, hentry, hexit, hv⟩ := h
  have hsome : ∀ {q : StateId}, q.index < d.states.size → ¬ (d.state? q).isNone = true := by
    intro q hq
    simpa [state?] using hq
  simp only [finish]
  rw [if_neg (hsome hentry), if_neg (hsome hexit)]
  by_cases hcheck : d.settings.validateOnFinish = true
  · rw [if_pos hcheck, hv hcheck]
  · rw [if_neg hcheck]

end Design

end SignalGraph
