/-
Structured code, and the tables that hold it.

The states of a block form a list of steps: control enters a step's first state, goes through
at most one of the step's arms, and is then before the next step. `Code` writes such a block
down without handles of states, so what it does is a function of valuations (`Code.exec`), and
`Code.At` says that a table holds it from some position on. Control that is before code runs
straight through it (`Code.At.walk`), forward from state to state.
-/
import SignalGraph.Proofs.Walks
import SignalGraph.Proofs.WellFormed

namespace SignalGraph

/-! ## Actions on valuations -/

/-- The valuation with the value of one signal replaced. -/
def Valuation.set (v : Valuation) (s : SignalId) (b : Bool) : Valuation := fun t => if t = s then b else v t

@[simp] theorem Valuation.set_self (v : Valuation) (s : SignalId) (b : Bool) : v.set s b s = b := by
  simp [Valuation.set]

@[simp] theorem Valuation.set_of_ne (v : Valuation) {s t : SignalId} (h : t ≠ s) (b : Bool) :
    v.set s b t = v t := by
  simp [Valuation.set, h]

/-- What the action does to a valuation. -/
def Action.apply (v : Valuation) (a : Action) : Valuation := v.set a.target (a.value v)

/-- What some actions do, one after the other. -/
def Valuation.after (v : Valuation) (actions : List Action) : Valuation := actions.foldl Action.apply v

@[simp] theorem Valuation.after_nil (v : Valuation) : v.after [] = v := rfl

@[simp] theorem Valuation.after_cons (v : Valuation) (a : Action) (actions : List Action) :
    v.after (a :: actions) = (a.apply v).after actions := rfl

@[simp] theorem Valuation.after_append (v : Valuation) (as bs : List Action) :
    v.after (as ++ bs) = (v.after as).after bs := List.foldl_append

@[simp] theorem Action.apply_drive (v : Valuation) (s : SignalId) (b : Bool) :
    (Action.drive s b).apply v = v.set s b := rfl

@[simp] theorem Action.apply_copy (v : Valuation) (src dst : SignalId) :
    (Action.copy src dst).apply v = v.set dst (v src) := rfl

/-- A signal that no action writes keeps its value. -/
theorem Valuation.after_of_not_target {v : Valuation} {s : SignalId} {actions : List Action}
    (h : ∀ a ∈ actions, a.target ≠ s) : v.after actions s = v s := by
  induction actions generalizing v with
  | nil => rfl
  | cons a rest ih =>
    rw [after_cons, ih fun b hb => h b (by simp [hb])]
    exact set_of_ne v (h a (by simp)).symm _

theorem Valuation.ofArray_fire {values : Array Bool} {a : Action} (h : a.target.index < values.size) :
    ofArray (a.fire values) = a.apply (ofArray values) := by
  funext s
  simp only [ofArray, Action.fire, Action.apply, set, Array.getD_eq_getD_getElem?,
    Array.getElem?_setIfInBounds]
  by_cases hs : s = a.target
  · simp [hs, h]
  · have hi : a.target.index ≠ s.index := fun he => hs (by cases s; cases ht : a.target; simp_all)
    simp [hs, hi]

theorem size_foldl_fire (actions : List Action) (values : Array Bool) :
    (actions.foldl Action.fire values).size = values.size := by
  induction actions generalizing values with
  | nil => rfl
  | cons a rest ih => rw [List.foldl_cons, ih, Action.fire, Array.size_setIfInBounds]

theorem Valuation.ofArray_foldl_fire {actions : List Action} {values : Array Bool}
    (h : ∀ a ∈ actions, a.target.index < values.size) :
    ofArray (actions.foldl Action.fire values) = (ofArray values).after actions := by
  induction actions generalizing values with
  | nil => rfl
  | cons a rest ih =>
    have hsize : (a.fire values).size = values.size := by rw [Action.fire, Array.size_setIfInBounds]
    rw [List.foldl_cons, ih fun b hb => hsize ▸ h b (by simp [hb]), ofArray_fire (h a (by simp))]
    rfl

theorem WellFormed.ofArray_fire {signals : Array SignalInfo} {t : Array StateNode} (hwf : WellFormed signals t)
    {i : Nat} {n : StateNode} (hn : t[i]? = some n) {values : Array Bool} (hsize : values.size = signals.size) :
    Valuation.ofArray (n.fire values) = (Valuation.ofArray values).after n.actions := by
  refine Valuation.ofArray_foldl_fire fun a ha => ?_
  obtain ⟨_, hs, -⟩ := (hwf i n hn).writes a ha
  exact hsize ▸ (Array.getElem?_eq_some_iff.mp hs).1

/-! ## Steps -/

/-- A state that some guards lead to. -/
structure Arm where
  guards : List Guard
  actions : List Action

def Arm.holds (arm : Arm) (v : Valuation) : Bool := arm.guards.any (·.holds v)

/-- A state, the arms that can be taken from it, and what is done in one more state if none is. -/
structure Step where
  actions : List Action
  arms : List Arm := []
  otherwise : Option (List Action) := none

namespace Step

/-- The actions of the states after the first. -/
def bodies (s : Step) : List (List Action) := s.arms.map Arm.actions ++ s.otherwise.toList

/-- How many states the step has. -/
def size (s : Step) : Nat := s.bodies.length + 1

def exec (s : Step) (v : Valuation) : Valuation :=
  let u := v.after s.actions
  u.after (s.bodies.getD (s.arms.findIdx (·.holds u)) [])

/-- The first arm that holds, or how many arms there are if none does. -/
def choice (s : Step) (v : Valuation) : Nat := s.arms.findIdx (·.holds (v.after s.actions))

/-- The states that control enters if it chooses the arm `j` in a step at the position `lo`. -/
def route (s : Step) (lo j : Nat) : List StateId :=
  if j < s.bodies.length then [⟨lo⟩, ⟨lo + 1 + j⟩] else [⟨lo⟩]

theorem length_route_le (s : Step) (lo j : Nat) : (s.route lo j).length ≤ s.size := by
  unfold route size
  split
  · simp only [List.length_cons, List.length_nil]
    omega
  · simp

theorem mem_route {s : Step} {lo j : Nat} {q : StateId} (h : q ∈ s.route lo j) :
    lo ≤ q.index ∧ q.index < lo + s.size := by
  unfold route at h
  split at h
  · simp only [List.mem_cons, List.not_mem_nil, or_false] at h
    rcases h with rfl | rfl <;> simp only [size] <;> omega
  · rw [List.mem_singleton.mp h]
    simp [size]

/-- The guarded edges to arms whose states start at the position `k`. -/
def edges : Nat → List Arm → List (Guard × StateId)
  | _, [] => []
  | k, arm :: rest => arm.guards.map (·, ⟨k⟩) ++ edges (k + 1) rest

/-- The table holds the step from the position `lo` on. -/
structure At (s : Step) (t : Array StateNode) (lo : Nat) : Prop where
  first : ∃ n, t[lo]? = some n ∧ n.actions = s.actions ∧
    n.transitions.map (fun e => (e.guard, e.target)) = edges (lo + 1) s.arms ∧
    n.defaultTarget = some ⟨lo + 1 + s.arms.length⟩
  rest : ∀ (k : Nat) (actions : List Action), s.bodies[k]? = some actions → ∃ n, t[lo + 1 + k]? = some n ∧
    n.actions = actions ∧ n.transitions = [] ∧ n.defaultTarget = some ⟨lo + s.size⟩

theorem At.congr {s : Step} {t t' : Array StateNode} {lo : Nat} (h : s.At t lo)
    (heq : ∀ i, lo ≤ i → i < lo + s.size → t'[i]? = t[i]?) : s.At t' lo := by
  refine ⟨?_, fun k actions hk => ?_⟩
  · rw [heq lo (Nat.le_refl _) (by simp [size])]
    exact h.first
  · have hlt := (List.getElem?_eq_some_iff.mp hk).1
    rw [heq (lo + 1 + k) (by omega) (by rw [size]; omega)]
    exact h.rest k actions hk

/-- The first edge that can be taken leads to the first arm that holds. -/
theorem find?_edges (v : Valuation) : ∀ (arms : List Arm) (k : Nat),
    (((edges k arms).find? (·.1.holds v)).map Prod.snd).or (some ⟨k + arms.length⟩) =
      some ⟨k + arms.findIdx (·.holds v)⟩
  | [], k => rfl
  | arm :: rest, k => by
    have hguards : (arm.guards.map (·, StateId.mk k)).find? (·.1.holds v) =
        (arm.guards.find? (·.holds v)).map (·, ⟨k⟩) := List.find?_map
    simp only [edges, List.find?_append, hguards, List.findIdx_cons, Arm.holds]
    cases hfind : arm.guards.find? (·.holds v) with
    | some g =>
      have hg : g.holds v = true := by simpa using List.find?_some hfind
      have : arm.guards.any (·.holds v) = true :=
        List.any_eq_true.mpr ⟨g, List.mem_of_find?_eq_some hfind, hg⟩
      simp [this]
    | none =>
      have : arm.guards.any (·.holds v) = false := by simpa using hfind
      have ih := find?_edges v rest (k + 1)
      simp only [this, Option.map_none, Option.none_or, cond_false, List.length_cons]
      rw [show k + (rest.length + 1) = k + 1 + rest.length by omega, ih]
      simp only [Arm.holds]
      congr 2
      omega

theorem At.next {s : Step} {t : Array StateNode} {lo : Nat} {n : StateNode} (h : s.At t lo)
    (hn : t[lo]? = some n) (v : Valuation) :
    n.next v = some ⟨lo + 1 + s.arms.findIdx (·.holds v)⟩ := by
  obtain ⟨n', hn', -, hedges, hdefault⟩ := h.first
  rw [hn] at hn'
  cases hn'
  rw [← find?_edges, ← hedges, List.find?_map, Option.map_map, StateNode.next, hdefault]
  show _ = Option.or (Option.map Transition.target (n.transitions.find? (·.guard.holds v))) _
  cases n.transitions.find? (·.guard.holds v) <;> rfl

variable {signals : Array SignalInfo} {t : Array StateNode}

/-- Control goes through a step to what comes after it. -/
theorem At.walk (hwf : WellFormed signals t) {s : Step} {lo : Nat} (h : s.At t lo) {v : Array Bool}
    (hv : v.size = signals.size) :
    ∃ w, Walk t ⟨lo⟩ v (s.route lo (s.choice (.ofArray v))) ⟨lo + s.size⟩ w ∧ w.size = signals.size ∧
      Valuation.ofArray w = s.exec (.ofArray v) := by
  obtain ⟨n, hn, hact, -⟩ := h.first
  have hfire := hwf.ofArray_fire hn hv
  rw [hact] at hfire
  have hsize : (n.fire v).size = signals.size := (size_foldl_fire n.actions v).trans hv
  have hnext := h.next hn (.ofArray (n.fire v))
  have hexec : s.exec (.ofArray v) = (Valuation.ofArray (n.fire v)).after
      (s.bodies.getD (s.choice (.ofArray v)) []) := by rw [hfire]; rfl
  have hchoice : s.arms.findIdx (·.holds (.ofArray (n.fire v))) = s.choice (.ofArray v) := by rw [hfire]; rfl
  rw [hchoice] at hnext
  have hle : s.choice (.ofArray v) ≤ s.arms.length := List.findIdx_le_length
  generalize s.choice (.ofArray v) = j at hnext hexec hle
  by_cases hj : j < s.bodies.length
  · have hbody := List.getElem?_eq_getElem hj
    obtain ⟨n', hn', hact', htrans, hdefault⟩ := h.rest j _ hbody
    rw [route, if_pos hj]
    refine ⟨n'.fire (n.fire v), .cons hn hnext (.cons hn' ?_ .nil), ?_, ?_⟩
    · simp [StateNode.next, htrans, hdefault]
    · exact (size_foldl_fire n'.actions _).trans hsize
    · rw [hwf.ofArray_fire hn' hsize, hact', hexec, List.getD_eq_getElem?_getD, hbody]
      rfl
  · have hlen : s.arms.length ≤ s.bodies.length := by simp [bodies]
    have hjoin : lo + 1 + j = lo + s.size := by rw [size]; omega
    rw [route, if_neg hj]
    refine ⟨n.fire v, .cons hn (hjoin ▸ hnext) .nil, hsize, ?_⟩
    rw [hexec, List.getD_eq_getElem?_getD, List.getElem?_eq_none_iff.mpr (by omega)]
    rfl

/-- The actions of all the step's states. -/
def allActions (s : Step) : List Action := s.actions ++ s.bodies.flatten

theorem exec_of_not_target {s : Step} {v : Valuation} {x : SignalId} (h : ∀ a ∈ s.allActions, a.target ≠ x) :
    s.exec v x = v x := by
  simp only [allActions, List.mem_append] at h
  unfold exec
  rw [Valuation.after_of_not_target, Valuation.after_of_not_target fun a ha => h a (.inl ha)]
  intro a ha
  rw [List.getD_eq_getElem?_getD] at ha
  cases hbody : s.bodies[s.arms.findIdx (·.holds (v.after s.actions))]? with
  | none => simp [hbody] at ha
  | some actions =>
    rw [hbody, Option.getD_some] at ha
    exact h a (.inr (List.mem_flatten.mpr ⟨actions, List.mem_of_getElem? hbody, ha⟩))

theorem At.mem_table {s : Step} {lo : Nat} (h : s.At t lo) {a : Action} (ha : a ∈ s.allActions) :
    ∃ (i : Nat) (n : StateNode), t[i]? = some n ∧ a ∈ n.actions := by
  simp only [allActions, List.mem_append, List.mem_flatten] at ha
  rcases ha with ha | ⟨actions, hmem, ha⟩
  · obtain ⟨n, hn, hact, -⟩ := h.first
    exact ⟨lo, n, hn, hact ▸ ha⟩
  · obtain ⟨k, hk⟩ := List.getElem?_of_mem hmem
    obtain ⟨n, hn, rfl, -⟩ := h.rest k actions hk
    exact ⟨_, n, hn, ha⟩

end Step

/-! ## Steps in a row -/

/-- How many states some steps have. -/
def span (steps : List Step) : Nat := (steps.map Step.size).sum

@[simp] theorem span_nil : span [] = 0 := rfl

@[simp] theorem span_cons (s : Step) (rest : List Step) : span (s :: rest) = s.size + span rest := rfl

@[simp] theorem span_append (steps rest : List Step) : span (steps ++ rest) = span steps + span rest := by
  simp [span]

/-- What some steps do, one after the other. -/
def execSteps (steps : List Step) (v : Valuation) : Valuation := steps.foldl (fun v s => s.exec v) v

/-- The arms that are chosen in some steps, one after the other. -/
def choices : List Step → Valuation → List Nat
  | [], _ => []
  | s :: rest, v => s.choice v :: choices rest (s.exec v)

/-- The states that control enters if it chooses these arms in steps from the position `lo` on. -/
def route : Nat → List Step → List Nat → List StateId
  | lo, s :: rest, j :: js => s.route lo j ++ route (lo + s.size) rest js
  | _, _, _ => []

/-- A bound on how many states are entered in each step bounds how many are entered in all. -/
theorem length_route_le_sum {bound : Step → Nat} (hbound : ∀ s lo j, (Step.route s lo j).length ≤ bound s) :
    ∀ (steps : List Step) (lo : Nat) (js : List Nat), (route lo steps js).length ≤ (steps.map bound).sum
  | [], _, _ => Nat.zero_le _
  | _ :: _, _, [] => Nat.zero_le _
  | s :: rest, lo, j :: js => by
    have hfirst := hbound s lo j
    have hrest := length_route_le_sum hbound rest (lo + s.size) js
    rw [route, List.length_append, List.map_cons, List.sum_cons]
    omega

theorem length_route_le (steps : List Step) (lo : Nat) (js : List Nat) : (route lo steps js).length ≤ span steps :=
  length_route_le_sum Step.length_route_le steps lo js

theorem mem_route : ∀ {steps : List Step} {lo : Nat} {js : List Nat} {q : StateId}, q ∈ route lo steps js →
    lo ≤ q.index ∧ q.index < lo + span steps
  | [], _, _, _, h => by simp [route] at h
  | _ :: _, _, [], _, h => by simp [route] at h
  | s :: rest, lo, j :: js, q, h => by
    rw [route, List.mem_append] at h
    rw [span_cons]
    rcases h with h | h
    · have := Step.mem_route h
      omega
    · have := mem_route h
      omega

/-- The table holds the steps one after the other from the position `lo` on. -/
def StepsAt (t : Array StateNode) : Nat → List Step → Prop
  | _, [] => True
  | lo, s :: rest => s.At t lo ∧ StepsAt t (lo + s.size) rest

namespace StepsAt

variable {t : Array StateNode}

theorem append {rest : List Step} : ∀ {steps : List Step} {lo : Nat},
    StepsAt t lo (steps ++ rest) ↔ StepsAt t lo steps ∧ StepsAt t (lo + span steps) rest
  | [], lo => by simp [StepsAt]
  | s :: steps, lo => by
    rw [List.cons_append, StepsAt, StepsAt, append, span_cons, and_assoc, Nat.add_assoc]

theorem congr {t' : Array StateNode} : ∀ {steps : List Step} {lo : Nat}, StepsAt t lo steps →
    (∀ i, lo ≤ i → i < lo + span steps → t'[i]? = t[i]?) → StepsAt t' lo steps
  | [], _, _, _ => trivial
  | s :: rest, lo, ⟨hs, hrest⟩, heq => by
    rw [span_cons] at heq
    exact ⟨hs.congr fun i h h' => heq i h (by omega), congr hrest fun i h h' => heq i (by omega) (by omega)⟩

theorem mem_table : ∀ {steps : List Step} {lo : Nat}, StepsAt t lo steps → ∀ {s : Step}, s ∈ steps →
    ∃ k, s.At t k
  | s :: rest, lo, ⟨hs, hrest⟩, s', hmem => by
    simp only [List.mem_cons] at hmem
    rcases hmem with rfl | hmem
    · exact ⟨lo, hs⟩
    · exact mem_table hrest hmem

/-- Control goes through one step after the other. -/
theorem walk {signals : Array SignalInfo} (hwf : WellFormed signals t) :
    ∀ {steps : List Step} {lo : Nat}, StepsAt t lo steps → ∀ {v : Array Bool}, v.size = signals.size →
    ∃ w, Walk t ⟨lo⟩ v (route lo steps (choices steps (.ofArray v))) ⟨lo + span steps⟩ w ∧
      w.size = signals.size ∧ Valuation.ofArray w = execSteps steps (.ofArray v)
  | [], lo, _, v, hv => ⟨v, .nil, hv, rfl⟩
  | s :: rest, lo, ⟨hs, hrest⟩, v, hv => by
    obtain ⟨u, hwalk₁, hu, hexec₁⟩ := hs.walk hwf hv
    obtain ⟨w, hwalk₂, hw, hexec₂⟩ := walk hwf hrest hu
    rw [hexec₁] at hwalk₂ hexec₂
    rw [span_cons, ← Nat.add_assoc]
    exact ⟨w, hwalk₁.append hwalk₂, hw, hexec₂⟩

end StepsAt

/-! ## Code -/

/-- Steps, and the actions of the state that they lead to. -/
structure Code where
  steps : List Step
  last : List Action

namespace Code

/-- How many states the code has. -/
def size (c : Code) : Nat := span c.steps + 1

def exec (c : Code) (v : Valuation) : Valuation := (c.steps.foldl (fun v s => s.exec v) v).after c.last

/-- The code that is one state. -/
def single (actions : List Action) : Code := ⟨[], actions⟩

/-- The code with one more action at its end. -/
def act (c : Code) (a : Action) : Code := ⟨c.steps, c.last ++ [a]⟩

/-- One code, then another. -/
def andThen (c e : Code) : Code := ⟨c.steps ++ ⟨c.last, [], none⟩ :: e.steps, e.last⟩

/-- The code, then some actions if a guard holds. -/
def branch (c : Code) (guard : Guard) (actions : List Action) : Code :=
  ⟨c.steps ++ [⟨c.last, [⟨[guard], actions⟩], none⟩], []⟩

@[simp] theorem exec_single (actions : List Action) (v : Valuation) :
    (single actions).exec v = v.after actions := rfl

@[simp] theorem exec_act (c : Code) (a : Action) (v : Valuation) : (c.act a).exec v = a.apply (c.exec v) := by
  simp [act, exec]

@[simp] theorem exec_andThen (c e : Code) (v : Valuation) : (c.andThen e).exec v = e.exec (c.exec v) := by
  simp [andThen, exec, Step.exec, Step.bodies]

@[simp] theorem exec_branch (c : Code) (guard : Guard) (actions : List Action) (v : Valuation) :
    (c.branch guard actions).exec v =
      if guard.holds (c.exec v) then (c.exec v).after actions else c.exec v := by
  cases h : guard.holds (c.exec v) <;>
    simp_all [branch, exec, Step.exec, Step.bodies, List.findIdx_cons, Arm.holds]

@[simp] theorem size_single (actions : List Action) : (single actions).size = 1 := rfl

@[simp] theorem size_andThen (c e : Code) : (c.andThen e).size = c.size + e.size := by
  simp [andThen, size, Step.size, Step.bodies]
  omega

@[simp] theorem size_branch (c : Code) (guard : Guard) (actions : List Action) :
    (c.branch guard actions).size = c.size + 2 := by
  simp [branch, size, Step.size, Step.bodies]

/-- The actions of all the code's states. -/
def actions (c : Code) : List Action := c.steps.flatMap Step.allActions ++ c.last

theorem exec_of_not_target {c : Code} {v : Valuation} {x : SignalId} (h : ∀ a ∈ c.actions, a.target ≠ x) :
    c.exec v x = v x := by
  simp only [actions, List.mem_append, List.mem_flatMap] at h
  have hsteps : ∀ (steps : List Step) (v : Valuation),
      (∀ s ∈ steps, ∀ a ∈ s.allActions, a.target ≠ x) → steps.foldl (fun v s => s.exec v) v x = v x := by
    intro steps
    induction steps with
    | nil => exact fun _ _ => rfl
    | cons s rest ih =>
      intro v hs
      rw [List.foldl_cons, ih _ fun s' hs' => hs s' (by simp [hs']), Step.exec_of_not_target (hs s (by simp))]
  rw [exec, Valuation.after_of_not_target fun a ha => h a (.inr ha)]
  exact hsteps c.steps v fun s hs a ha => h a (.inl ⟨s, hs, ha⟩)

/-- The table holds the code from the position `lo` on, and nothing leads on from there. -/
structure At (c : Code) (t : Array StateNode) (lo : Nat) : Prop where
  steps : StepsAt t lo c.steps
  last : ∃ n, t[lo + span c.steps]? = some n ∧ n.actions = c.last ∧ n.transitions = [] ∧ n.defaultTarget = none

namespace At

variable {t : Array StateNode} {c : Code} {lo : Nat}

theorem lt_size (h : c.At t lo) : lo + span c.steps < t.size := by
  obtain ⟨n, hn, -⟩ := h.last
  exact (Array.getElem?_eq_some_iff.mp hn).1

theorem congr {t' : Array StateNode} (h : c.At t lo) (heq : ∀ i, lo ≤ i → i < lo + c.size → t'[i]? = t[i]?) :
    c.At t' lo := by
  rw [size] at heq
  refine ⟨h.steps.congr fun i h h' => heq i h (by omega), ?_⟩
  rw [heq _ (by omega) (by omega)]
  exact h.last

theorem mem_table (h : c.At t lo) {a : Action} (ha : a ∈ c.actions) :
    ∃ (i : Nat) (n : StateNode), t[i]? = some n ∧ a ∈ n.actions := by
  simp only [actions, List.mem_append, List.mem_flatMap] at ha
  rcases ha with ⟨s, hs, ha⟩ | ha
  · obtain ⟨k, hk⟩ := h.steps.mem_table hs
    exact hk.mem_table ha
  · obtain ⟨n, hn, hact, -⟩ := h.last
    exact ⟨_, n, hn, hact ▸ ha⟩

/-- Control goes through the code to its last state, and with the actions there has run it. -/
theorem walk {signals : Array SignalInfo} (hwf : WellFormed signals t) (h : c.At t lo) {v : Array Bool}
    (hv : v.size = signals.size) :
    ∃ path w n, Walk t ⟨lo⟩ v path ⟨lo + span c.steps⟩ w ∧ t[lo + span c.steps]? = some n ∧
      Valuation.ofArray (n.fire w) = c.exec (.ofArray v) ∧ path.length < c.size ∧
      ∀ q ∈ path, q.index < lo + span c.steps := by
  obtain ⟨w, hwalk, hw, hexec⟩ := h.steps.walk hwf hv
  obtain ⟨n, hn, hact, -⟩ := h.last
  refine ⟨_, w, n, hwalk, hn, ?_, Nat.lt_succ_of_le (length_route_le _ _ _), fun q hq => (mem_route hq).2⟩
  rw [hwf.ofArray_fire hn hw, hexec, hact]
  rfl

end At

end Code

end SignalGraph
