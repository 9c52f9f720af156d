/-
Runs do not depend on what earlier runs left behind.

A restarted machine keeps its values, also those that blocks made for themselves. Two machines
whose other values agree take the same way through the blocks, block by block, since each block
settles what was made for it (`inTurn_settles`). Where both take the same way they stop at the
same point, with the same result and the same history (`runFor_alike`).
-/
import SignalGraph.Proofs.Assembly
import SignalGraph.Proofs.Histories
import SignalGraph.Proofs.Intermediates
import SignalGraph.Proofs.Values

namespace SignalGraph

/-! ## Two machines on one way -/

namespace Machine

/-- Two runs ended alike: with the same result and the same history, and where they succeeded with
the same values. -/
inductive Alike : EStateM.Result RunError Machine Nat → EStateM.Result RunError Machine Nat → Prop
  | ok {k : Nat} {m₁ m₂ : Machine} : m₁.history = m₂.history → m₁.values = m₂.values → Alike (.ok k m₁) (.ok k m₂)
  | error {e : RunError} {m₁ m₂ : Machine} : m₁.history = m₂.history → Alike (.error e m₁) (.error e m₂)

/-- The machines have recorded the same transitions, and count on from the same number. -/
structure SameRecords (m₁ m₂ : Machine) : Prop where
  history : m₁.history = m₂.history
  steps : m₁.steps = m₂.steps

theorem SameRecords.moveTo {m₁ m₂ : Machine} (h : SameRecords m₁ m₂) (hcurrent : m₁.current = m₂.current)
    (q : StateId) : SameRecords (m₁.moveTo q) (m₂.moveTo q) := by
  refine ⟨?_, ?_⟩
  · simp only [Machine.moveTo, enter, hcurrent, h.history, h.steps]
  · show m₁.steps + 1 = m₂.steps + 1
    rw [h.steps]

/-- Two machines that are before the same way to the exit end alike, whatever the limit is. -/
theorem runFor_alike {p : Program} {limit : Nat} {path : List StateId} : ∀ {q : StateId} {v₁ v₂ u₁ u₂ : Array Bool},
    Walk p.states q v₁ path p.exit u₁ → Walk p.states q v₂ path p.exit u₂ → p.exit ∉ path →
    (p.actions p.exit).foldl Action.fire u₁ = (p.actions p.exit).foldl Action.fire u₂ →
    ∀ {m₁ m₂ : Machine}, Inside p q v₁ m₁ → Inside p q v₂ m₂ → SameRecords m₁ m₂ →
    ∀ allowed taken, Alike (runFor limit allowed taken m₁) (runFor limit allowed taken m₂) := by
  induction path with
  | nil =>
    intro q v₁ v₂ u₁ u₂ h₁ h₂ _ hend m₁ m₂ hm₁ hm₂ hrecords allowed taken
    generalize hx : p.exit = x at h₁ h₂
    cases h₁
    cases h₂
    subst hx
    have hs₁ := step_halted hm₁.started (hm₁.current.trans (by rw [hm₁.program]))
    have hs₂ := step_halted hm₂.started (hm₂.current.trans (by rw [hm₂.program]))
    have hvalues : m₁.values = m₂.values := by rw [hm₁.values, hm₂.values, hend]
    cases allowed with
    | zero =>
      simp only [runFor, hs₁, hs₂]
      exact .ok hrecords.history hvalues
    | succ allowed =>
      simp only [runFor, hs₁, hs₂]
      exact .ok hrecords.history hvalues
  | cons q' path ih =>
    intro q v₁ v₂ u₁ u₂ h₁ h₂ hx hend m₁ m₂ hm₁ hm₂ hrecords allowed taken
    rw [List.mem_cons, not_or] at hx
    cases h₁ with
    | cons hn₁ hnext₁ hrest₁ =>
    cases h₂ with
    | cons hn₂ hnext₂ hrest₂ =>
    have hs₁ := step_moved hm₁.started (by rw [hm₁.current, hm₁.program]; exact fun he => hx.1 he.symm)
      (hm₁.next hn₁ hnext₁)
    have hs₂ := step_moved hm₂.started (by rw [hm₂.current, hm₂.program]; exact fun he => hx.1 he.symm)
      (hm₂.next hn₂ hnext₂)
    -- The way goes on with the same state for both.
    obtain rfl := (List.cons.inj (hrest₁.eq_cons.symm.trans hrest₂.eq_cons)).1
    have hmoved := hrecords.moveTo (hm₁.current.trans hm₂.current.symm)
    cases allowed with
    | zero =>
      simp only [runFor, hs₁, hs₂]
      exact .error (hmoved _).history
    | succ allowed =>
      simp only [runFor, hs₁, hs₂]
      exact ih hrest₁ hrest₂ hx.2 hend (hm₁.moveTo hn₁) (hm₂.moveTo hn₂) (hmoved _) allowed (taken + 1)

theorem Reachable.ready {p : Program} {m : Machine} (h : Reachable p m) : m.started = false → Ready m := by
  refine h.invariant (I := fun m => m.started = false → Ready m) (fun settings _ => .new p settings) ?_
  intro m m' hmove hm hs
  cases hmove with
  | write => exact (hm hs).rewritten rfl
  | start => cases (start_started m).symm.trans hs
  | take hstarted => cases hstarted.symm.trans hs
  | restart => exact .restart m

theorem Ready.inside {m : Machine} (h : Ready m) : Inside m.program m.program.entry m.values m.start :=
  ⟨start_program m, start_started m, (start_current m).trans h.current, h.start_values⟩

theorem performAll_settings (calls : List Call) (m : Machine) : (performAll calls m).settings = m.settings := by
  refine (performAll_moves calls m).invariant (I := fun m' => m'.settings = m.settings) ?_ rfl
  intro m₁ m₂ hmove hm
  cases hmove with
  | start hs =>
    unfold start
    rw [if_neg (by simp [hs])]
    exact hm
  | write | take | restart => exact hm

/-- Two machines that were not started run alike, if the program takes the same way from their values. -/
theorem run_alike {p : Program} {m₁ m₂ : Machine} {k : Nat} {path : List StateId} {w : Array Bool}
    (hm₁ : Reachable p m₁) (hm₂ : Reachable p m₂) (hp₁ : m₁.program = p) (hp₂ : m₂.program = p)
    (hs₁ : m₁.started = false) (hs₂ : m₂.started = false) (hsettings : m₁.settings = m₂.settings)
    (h₁ : p.Completes m₁.values k path w) (h₂ : p.Completes m₂.values k path w) : Alike (run m₁) (run m₂) := by
  obtain ⟨route₁, u₁, hwalk₁, hx, -, rfl, rfl⟩ := completes_iff.mp h₁
  obtain ⟨route₂, u₂, hwalk₂, -, -, hroute, hend⟩ := completes_iff.mp h₂
  obtain rfl := List.append_cancel_right hroute
  have hr₁ := hm₁.ready hs₁
  have hr₂ := hm₂.ready hs₂
  have hin₁ := hr₁.inside
  have hin₂ := hr₂.inside
  rw [hp₁] at hin₁
  rw [hp₂] at hin₂
  have hrecords : SameRecords m₁.start m₂.start := by
    refine ⟨?_, ?_⟩
    · rw [start_history, start_history, hr₁.history, hr₂.history]
    · rw [start_steps, start_steps, hr₁.steps, hr₂.steps]
  unfold run
  rw [← runFor_start, ← runFor_start _ _ _ m₂, hsettings]
  exact runFor_alike hwalk₁ hwalk₂ hx hend hin₁ hin₂ hrecords _ _

end Machine

/-! ## Fragments in turn -/

open Design Block

theorem Valuation.eq_of_eqOn {v w : Array Bool} (hsize : v.size = w.size)
    (h : Set.EqOn (Valuation.ofArray v) (Valuation.ofArray w) {s | s.index < v.size}) : v = w := by
  refine Array.ext hsize fun i hi hi' => ?_
  have hget := h (show (⟨i⟩ : SignalId).index < v.size from hi)
  simpa [ofArray, hi, hi'] using hget

/-- The table holds the code as the fragment, whatever the exit leads to. -/
structure Fragment.Holds (f : Fragment) (c : Code) (t : Array StateNode) : Prop where
  fragment : f = c.fragment f.entry.index
  steps : StepsAt t f.entry.index c.steps
  last : ∃ n, t[f.exit.index]? = some n ∧ n.actions = c.last

namespace Fragment.Holds

variable {f : Fragment} {c : Code} {t t' : Array StateNode}

theorem exit_index (h : f.Holds c t) : f.exit.index = f.entry.index + span c.steps :=
  congrArg (fun g : Fragment => g.exit.index) h.fragment

theorem mem_states (h : f.Holds c t) {q : StateId} :
    q ∈ f.states ↔ f.entry.index ≤ q.index ∧ q.index ≤ f.exit.index := by
  rw [h.exit_index, h.fragment]
  simp only [Code.fragment, mem_stateRange, Code.size]
  omega

/-- Only the actions of the exit matter. -/
theorem congr (h : f.Holds c t) (heq : ∀ q ∈ f.states, q ≠ f.exit → t'[q.index]? = t[q.index]?)
    (hlast : ∀ n, t[f.exit.index]? = some n → ∃ n', t'[f.exit.index]? = some n' ∧ n'.actions = n.actions) :
    f.Holds c t' := by
  refine ⟨h.fragment, h.steps.congr fun i hlo hhi => ?_, ?_⟩
  · have hexit := h.exit_index
    refine heq ⟨i⟩ (h.mem_states.mpr ⟨hlo, by dsimp only; omega⟩) fun he => ?_
    rw [← he] at hexit
    dsimp only at hexit
    omega
  · obtain ⟨n, hn, hact⟩ := h.last
    obtain ⟨n', hn', hact'⟩ := hlast n hn
    exact ⟨n', hn', hact'.trans hact⟩

/-- A run through the fragment goes where the choices of the code lead, and does what the code does. -/
theorem completes {signals : Array SignalInfo} (hwf : WellFormed signals t) (h : f.Holds c t) {v : Array Bool}
    (hv : v.size = signals.size) :
    ∃ w, Program.Completes ⟨signals, t, f.entry, f.exit⟩ v
        (route f.entry.index c.steps (c.choices (.ofArray v))).length
        (route f.entry.index c.steps (c.choices (.ofArray v)) ++ [f.exit]) w ∧
      w.size = signals.size ∧ Valuation.ofArray w = c.exec (.ofArray v) := by
  obtain ⟨u, hwalk, hu, hexec⟩ := h.steps.walk hwf hv
  obtain ⟨n, hn, hact⟩ := h.last
  have hexit : (⟨f.entry.index + span c.steps⟩ : StateId) = f.exit := congrArg StateId.mk h.exit_index.symm
  rw [hexit] at hwalk
  have hx : f.exit ∉ route f.entry.index c.steps (c.choices (.ofArray v)) := fun hm => by
    have := mem_route hm
    rw [h.exit_index] at this
    omega
  refine ⟨n.fire u, completes_iff.mpr ⟨_, u, hwalk, hx, rfl, rfl, (Program.actions_eq hn u).symm⟩, ?_, ?_⟩
  · exact (size_foldl_fire n.actions u).trans hu
  · rw [hwf.ofArray_fire hn hu, hact, hexec]
    rfl

end Fragment.Holds

/-- From values that agree on what is settled, fragments in turn go the same way, and end with values
that agree on what they settle. -/
theorem inTurn_settles {signals : Array SignalInfo} {t : Array StateNode} (hwf : WellFormed signals t) :
    ∀ {l : List (Fragment × Code)} {A B : Set SignalId}, CodesSettle A (l.map Prod.snd) B →
    (∀ p ∈ l, p.1.Holds p.2 t) → ∀ {v₁ v₂ : Array Bool}, v₁.size = signals.size → v₂.size = signals.size →
    Set.EqOn (Valuation.ofArray v₁) (Valuation.ofArray v₂) A →
    ∃ ks paths w₁ w₂, InTurn ((l.map Prod.fst).map fun f => ⟨signals, t, f.entry, f.exit⟩) v₁ ks paths w₁ ∧
      InTurn ((l.map Prod.fst).map fun f => ⟨signals, t, f.entry, f.exit⟩) v₂ ks paths w₂ ∧
      w₁.size = signals.size ∧ w₂.size = signals.size ∧
      Set.EqOn (Valuation.ofArray w₁) (Valuation.ofArray w₂) B
  | [], A, B, hsettle, _, v₁, v₂, hv₁, hv₂, heq => by
    cases hsettle with
    | nil hB => exact ⟨[], [], v₁, v₂, .nil, .nil, hv₁, hv₂, heq.mono hB⟩
  | p :: l, A, B, hsettle, hholds, v₁, v₂, hv₁, hv₂, heq => by
    rw [List.forall_mem_cons] at hholds
    cases hsettle with
    | cons hc hrest =>
    obtain ⟨hchoices, hexec⟩ := hc.eqOn heq
    obtain ⟨u₁, hrun₁, hu₁, hval₁⟩ := hholds.1.completes hwf hv₁
    obtain ⟨u₂, hrun₂, hu₂, hval₂⟩ := hholds.1.completes hwf hv₂
    rw [← hval₁, ← hval₂] at hexec
    rw [← hchoices] at hrun₂
    obtain ⟨ks, paths, w₁, w₂, hturn₁, hturn₂, hw⟩ := inTurn_settles hwf hrest hholds.2 hu₁ hu₂ hexec
    exact ⟨_ :: ks, _ :: paths, w₁, w₂, .cons hrun₁ hturn₁, .cons hrun₂ hturn₂, hw⟩

/-- Fragments hold what they held after they are put in sequence. -/
theorem Fragment.Holds.sequence {rest : List Fragment} {f g top : Fragment} {c : Code} {d d' : Design}
    (h : rest.foldlM chain f d = .ok top d') (henc : ∀ g ∈ f :: rest, d.Encloses g)
    (hdisj : (f :: rest).Pairwise fun f g => f.states.Disjoint g.states) (hg : g ∈ f :: rest)
    (hc : g.Holds c d.states) : g.Holds c d'.states := by
  refine hc.congr (fun q hq hne => sequence_keeps h henc hdisj hg hq hne) fun n hn => ?_
  rcases foldlM_chain_defaultsAdded h g.exit.index with heq | ⟨n', target, hn', -, heq⟩
  · exact ⟨n, heq.trans hn, rfl⟩
  · cases hn.symm.trans hn'
    exact ⟨_, heq, rfl⟩

theorem completes_sequence {rest : List Fragment} {f top : Fragment} {d d' : Design}
    (h : rest.foldlM chain f d = .ok top d') (henc : ∀ g ∈ f :: rest, d.Encloses g)
    (hdisj : (f :: rest).Pairwise fun f g => f.states.Disjoint g.states) {v w : Array Bool} {ks : List Nat}
    {paths : List (List StateId)} (hturn : InTurn ((f :: rest).map d'.program) v ks paths w) :
    (d'.program top).Completes v (ks.sum + rest.length) paths.flatten w := by
  have hlink : Linked d'.states f rest := foldlM_chain_linked h fun g hg n hn => by
    have hdead := (henc g hg).leaves n hn
    simp only [StateNode.isDeadEnd, Bool.and_eq_true, List.isEmpty_iff] at hdead
    exact hdead.1
  obtain ⟨rfl, -⟩ := foldlM_chain_top h
  rw [program, Fragment.entry_foldl_join]
  exact completes_of_inTurn rest f (sequence_confined h henc hdisj) hdisj hlink hturn

/-! ## Blocks in a design -/

theorem Emitted.holds {t : Array StateNode} {n : Nat} {d : Design} {f : Fragment} {c : Code}
    (h : Emitted t n d [(f, c)]) : f.Holds c d.states := by
  have hcode := h.fragment
  have hentry : f.entry.index = t.size := by rw [hcode]; rfl
  refine ⟨hentry ▸ hcode, hentry ▸ h.code.steps, ?_⟩
  obtain ⟨n, hn, hact, -⟩ := h.code.last
  exact ⟨n, by rw [hcode]; exact hn, hact⟩

/-- Faithful values agree on the constants. -/
theorem Faithful.eqOn_fixed {d : Design} {v w : Array Bool} (hv : Faithful d.signals v) (hw : Faithful d.signals w) :
    Set.EqOn (Valuation.ofArray v) (Valuation.ofArray w) d.fixed := by
  intro s hs
  obtain ⟨info, hinfo, hconstant⟩ := hs
  rw [hv.constants s info hinfo hconstant, hw.constants s info hinfo hconstant]

/-- A block that was built, and the signals that were made for it. -/
structure Component where
  fragment : Fragment
  signals : List SignalId

/-- A design, and blocks that were built in it one after the other, on signals that there were. Whatever
else was done has left the states of these blocks as they were. -/
inductive Assembled (settings : DesignSettings) : Design → List Component → Prop
  | new : Assembled settings (.new settings) []
  | call {d : Design} {ks : List Component} (c : Design.Call) (h : Assembled settings d ks)
    (hkeep : ∀ k ∈ ks, ∀ q ∈ k.fragment.states, (after c.perform d).state? q = d.state? q) :
    Assembled settings (after c.perform d) ks
  | build {d d' : Design} {ks : List Component} {i : Instruction} {f : Fragment} (h : Assembled settings d ks)
    (hb : Builds d i f d') (hknown : d.Knows i.operands) :
    Assembled settings d' (ks ++ [⟨f, handles d.signals.size (d'.signals.size - d.signals.size)⟩])

/-- The blocks stand in the design, apart from each other, with the codes `l`. Where the signals that
were not made for them are settled, all signals are settled after them. -/
structure Standing (d : Design) (ks : List Component) (l : List (Fragment × Code)) : Prop where
  sound : Sound d
  fragments : l.map Prod.fst = ks.map Component.fragment
  holds : ∀ p ∈ l, p.1.Holds p.2 d.states
  stretch : ∀ p ∈ l, p.1.Stretch d.states
  isOpen : ∀ p ∈ l, p.1.Open d.states
  disjoint : (l.map Prod.fst).Pairwise fun f g => f.states.Disjoint g.states
  made : ∀ k ∈ ks, ∀ s ∈ k.signals, s ∈ d.known
  settle : ∀ A, (∀ s ∈ d.known, (∀ k ∈ ks, s ∉ k.signals) → s ∈ A) → d.fixed ⊆ A →
    CodesSettle A (l.map Prod.snd) (A ∪ d.known)

namespace Standing

variable {d d' : Design} {ks : List Component} {l : List (Fragment × Code)}

theorem mem_fragments (h : Standing d ks l) {p : Fragment × Code} (hp : p ∈ l) : ∃ k ∈ ks, k.fragment = p.1 := by
  have hmem : p.1 ∈ ks.map Component.fragment := h.fragments ▸ List.mem_map_of_mem hp
  exact List.mem_map.mp hmem

/-- What leaves the states of the blocks as they are leaves them standing. -/
theorem edit (h : Standing d ks l) (he : Edits d d')
    (hkeep : ∀ k ∈ ks, ∀ q ∈ k.fragment.states, d'.state? q = d.state? q) : Standing d' ks l := by
  have hsame : ∀ p ∈ l, ∀ q ∈ p.1.states, d'.states[q.index]? = d.states[q.index]? := by
    intro p hp
    obtain ⟨k, hk, he⟩ := h.mem_fragments hp
    exact he ▸ hkeep k hk
  refine ⟨he.sound h.sound, h.fragments, fun p hp => ?_, fun p hp => (h.stretch p hp).congr (hsame p hp),
    fun p hp => ?_, h.disjoint, fun k hk s hs => he.known_subset (h.made k hk s hs), fun A hA hfixed => ?_⟩
  · refine (h.holds p hp).congr (fun q hq _ => hsame p hp q hq) fun n hn => ⟨n, ?_, rfl⟩
    rw [hsame p hp _ (h.stretch p hp).exit_mem, hn]
  · obtain ⟨n, hn, hrest⟩ := h.isOpen p hp
    exact ⟨n, (hsame p hp _ (h.stretch p hp).exit_mem).trans hn, hrest⟩
  · have hsettle := h.settle A (fun s hs => hA s (he.known_subset hs)) (he.fixed_subset.trans hfixed)
    refine hsettle.mono (Set.union_subset Set.subset_union_left fun s hs => ?_)
    -- A signal that came later was not made for a block.
    by_cases hold : s ∈ d.known
    · exact .inr hold
    · exact .inl (hA s hs fun k hk hmem => hold (h.made k hk s hmem))

theorem build {i : Instruction} {f : Fragment} (h : Standing d ks l) (hb : Builds d i f d')
    (hknown : d.Knows i.operands) :
    ∃ c, Standing d' (ks ++ [⟨f, handles d.signals.size (d'.signals.size - d.signals.size)⟩]) (l ++ [(f, c)]) := by
  have he := hb.edits
  obtain ⟨-, hstretch, hopen, -, -⟩ := hb.lays.stretch
  obtain ⟨l', hl', hemitted, hsettle'⟩ := hb.settled h.sound hknown
  obtain ⟨⟨g, c⟩, rfl, hg⟩ := List.map_eq_singleton_iff.mp hl'
  obtain rfl : f = g := hg.symm
  have hbefore : ∀ p ∈ l, ∀ q ∈ p.1.states, q.index < d.states.size := fun p hp q hq =>
    Nat.lt_of_le_of_lt ((h.stretch p hp).mem_states.mp hq).2 (h.stretch p hp).lt_size
  have hkept : Standing d' ks l := h.edit he fun k hk q hq => by
    have hmem : k.fragment ∈ l.map Prod.fst := h.fragments ▸ List.mem_map_of_mem hk
    obtain ⟨p, hp, hpk⟩ := List.mem_map.mp hmem
    exact hemitted.old q.index (hbefore p hp q (hpk ▸ hq))
  have hnew : ∀ q ∈ f.states, d.states.size ≤ q.index := fun q hq => (hb.lays.mem_states.mp hq).1
  refine ⟨c, hkept.sound, by simp [h.fragments], ?_, ?_, ?_, ?_, ?_, fun A hA hfixed => ?_⟩
  · exact List.forall_mem_append.mpr ⟨hkept.holds, List.forall_mem_singleton.mpr hemitted.holds⟩
  · exact List.forall_mem_append.mpr ⟨hkept.stretch, List.forall_mem_singleton.mpr hstretch⟩
  · exact List.forall_mem_append.mpr ⟨hkept.isOpen, List.forall_mem_singleton.mpr hopen⟩
  · rw [List.map_append, List.map_singleton, List.pairwise_append]
    refine ⟨h.disjoint, List.pairwise_singleton _ _, fun g hg g' hg' q hq hq' => ?_⟩
    obtain ⟨p, hp, rfl⟩ := List.mem_map.mp hg
    obtain rfl := List.mem_singleton.mp hg'
    exact Nat.lt_irrefl _ (Nat.lt_of_lt_of_le (hbefore p hp q hq) (hnew q hq'))
  · refine List.forall_mem_append.mpr ⟨hkept.made, List.forall_mem_singleton.mpr fun s hs => ?_⟩
    have hs := mem_handles.mp hs
    show s.index < d'.signals.size
    omega
  · have hold := h.settle A (fun s hs hmade => hA s (he.known_subset hs) (List.forall_mem_append.mpr
      ⟨hmade, List.forall_mem_singleton.mpr fun hmem => Nat.not_lt_of_le (mem_handles.mp hmem).1 hs⟩))
      (he.fixed_subset.trans hfixed)
    have hlast := hsettle' (A ∪ d.known) Set.subset_union_right (hfixed.trans Set.subset_union_left)
    rw [List.map_append]
    exact hold.append (hlast.mono (Set.union_subset_union_left _ Set.subset_union_left))

end Standing

theorem Assembled.standing {settings : DesignSettings} {d : Design} {ks : List Component}
    (h : Assembled settings d ks) : ∃ l, Standing d ks l := by
  induction h with
  | new =>
    refine ⟨[], .new settings, rfl, by simp, by simp, by simp, .nil, by simp, fun A hA hfixed => .nil ?_⟩
    exact Set.union_subset subset_rfl fun s hs => hA s hs (by simp)
  | @call d _ c _ hkeep ih =>
    obtain ⟨l, hl⟩ := ih
    exact ⟨l, hl.edit (c.makes d) hkeep⟩
  | build _ hb hknown ih =>
    obtain ⟨l, hl⟩ := ih
    obtain ⟨c, hc⟩ := hl.build hb hknown
    exact ⟨_, hc⟩

/-! ## Reruns -/

/-- Blocks that are put in sequence go the same way from values that agree on all signals that were not
made for them, and end with the same values. -/
theorem Standing.completes {d d' : Design} {ks : List Component} {l : List (Fragment × Code)} {top : Fragment}
    (h : Standing d ks l) (hs : Design.sequence (ks.map Component.fragment) d = .ok top d') {v₁ v₂ : Array Bool}
    (hv₁ : Faithful d'.signals v₁) (hv₂ : Faithful d'.signals v₂)
    (hagree : ∀ s, (∀ k ∈ ks, s ∉ k.signals) → Valuation.ofArray v₁ s = Valuation.ofArray v₂ s) :
    ∃ k path w, (d'.program top).Completes v₁ k path w ∧ (d'.program top).Completes v₂ k path w := by
  have he := (sequence_makes _).edits hs
  have henc : ∀ g ∈ l.map Prod.fst, d.Encloses g := by
    intro g hg
    obtain ⟨p, hp, rfl⟩ := List.mem_map.mp hg
    exact (h.stretch p hp).encloses (h.isOpen p hp)
  -- What is settled at first are the signals on which the values agree, constants among them.
  have hsettle := h.settle {s | Valuation.ofArray v₁ s = Valuation.ofArray v₂ s} (fun s _ hmade => hagree s hmade)
    fun s hs => hv₁.eqOn_fixed hv₂ (he.fixed_subset hs)
  rw [← h.fragments] at hs
  have hdisj := h.disjoint
  have hholds := h.holds
  cases l with
  | nil => cases hs
  | cons p l =>
    have hsignals := (foldlM_chain_top hs).2
    obtain ⟨ns, paths, w₁, w₂, hturn₁, hturn₂, hw₁, hw₂, heq⟩ := inTurn_settles (he.sound h.sound).wellFormed hsettle
      (fun q hq => (hholds q hq).sequence hs henc hdisj (List.mem_map_of_mem hq)) hv₁.size hv₂.size fun _ hs => hs
    obtain rfl : w₁ = w₂ := by
      refine Valuation.eq_of_eqOn (hw₁.trans hw₂.symm) (heq.mono fun s hs => .inr ?_)
      rw [hw₁, hsignals] at hs
      exact hs
    exact ⟨_, _, w₁, completes_sequence hs henc hdisj hturn₁, completes_sequence hs henc hdisj hturn₂⟩

/-- The machines have the same values for the signals that were not made for the blocks. -/
def Machine.AgreeOutside (ks : List Component) (m₁ m₂ : Machine) : Prop :=
  ∀ s, (∀ k ∈ ks, s ∉ k.signals) → m₁.valuation s = m₂.valuation s

theorem Standing.run_alike {d d' : Design} {ks : List Component} {l : List (Fragment × Code)} {top : Fragment}
    (h : Standing d ks l) (hs : Design.sequence (ks.map Component.fragment) d = .ok top d') {m₁ m₂ : Machine}
    (hm₁ : Machine.Reachable (d'.program top) m₁) (hm₂ : Machine.Reachable (d'.program top) m₂)
    (hsettings : m₁.settings = m₂.settings) (hs₁ : m₁.started = false) (hs₂ : m₂.started = false)
    (hagree : Machine.AgreeOutside ks m₁ m₂) : Machine.Alike (Machine.run m₁) (Machine.run m₂) := by
  have hw := (((sequence_makes _).edits hs).sound h.sound).wellFormed
  have hi₁ : Machine.Intact (d'.program top) m₁ :=
    hm₁.invariant (fun _ => ⟨rfl, .initial _⟩) fun _ _ => Machine.Move.intact hw
  have hi₂ : Machine.Intact (d'.program top) m₂ :=
    hm₂.invariant (fun _ => ⟨rfl, .initial _⟩) fun _ _ => Machine.Move.intact hw
  obtain ⟨k, path, w, hc₁, hc₂⟩ := h.completes hs hi₁.values hi₂.values hagree
  exact Machine.run_alike hm₁ hm₂ hi₁.program hi₂.program hs₁ hs₂ hsettings hc₁ hc₂

/-- **Stale values do not matter.** Take the program of blocks that were put in sequence in the order in
which they were built, and two machines for it that were made or restarted and not run since. If
they agree on the signals that were not made for the blocks, runs of them end alike: with the same
result and history, and if the exit is reached with the same values for all signals. So whatever was
done before a restart, a run after it ends as one of a new machine that was given the same inputs. -/
theorem stale_values_ignored {settings : DesignSettings} {d d' : Design} {ks : List Component} {top : Fragment}
    {p : Program} (h : Assembled settings d ks) (hs : Design.sequence (ks.map Component.fragment) d = .ok top d')
    (hp : d'.finish top = .ok p) :
    (∀ m₁ m₂ : Machine, Machine.Reachable p m₁ → Machine.Reachable p m₂ → m₁.settings = m₂.settings →
      m₁.started = false → m₂.started = false → Machine.AgreeOutside ks m₁ m₂ →
      Machine.Alike (Machine.run m₁) (Machine.run m₂)) ∧
    ∀ (limits : RunSettings) (earlier inputs inputs' : List Machine.Call) (used fresh : Machine),
      Machine.performAll (earlier ++ .restart :: inputs) (.new p limits) = used →
      Machine.performAll inputs' (.new p limits) = fresh → (∀ c ∈ inputs, c.writes = true) →
      (∀ c ∈ inputs', c.writes = true) → Machine.AgreeOutside ks used fresh →
      Machine.Alike (Machine.run used) (Machine.run fresh) := by
  obtain ⟨l, hl⟩ := h.standing
  obtain ⟨rfl, -⟩ := finish_ok hp
  refine ⟨fun m₁ m₂ => hl.run_alike hs, ?_⟩
  intro limits earlier inputs inputs' used fresh hused hfresh hinputs hinputs' hagree
  have hready : Machine.Ready used := by
    rw [← hused, Machine.performAll_append]
    exact (Machine.Ready.restart _).performAll hinputs
  have hready' : Machine.Ready fresh := by
    rw [← hfresh]
    exact (Machine.Ready.new _ limits).performAll hinputs'
  have hsettings : used.settings = fresh.settings := by
    rw [← hused, ← hfresh, Machine.performAll_settings, Machine.performAll_settings]
  exact hl.run_alike hs ⟨limits, _, hused⟩ ⟨limits, _, hfresh⟩ hsettings hready.started hready'.started hagree

def cellInputs : Design := after (Call.createSignal "b").perform (after (Call.createSignal "a").perform (.new {}))

def oneCell : Design := after (Call.createSignal "c").perform (after (halfAdder ⟨0⟩ ⟨1⟩) cellInputs)

/-- Two half adders in a row, with a signal that was asked for in between. -/
def twoCells : Design := after (halfAdder ⟨2⟩ ⟨4⟩) oneCell

def cellComponents : List Component :=
  [⟨⟨⟨0⟩, ⟨3⟩, stateRange 0 4⟩, [⟨2⟩, ⟨3⟩]⟩, ⟨⟨⟨4⟩, ⟨7⟩, stateRange 4 4⟩, [⟨5⟩, ⟨6⟩]⟩]

theorem assembled_twoCells : Assembled {} twoCells cellComponents := by
  obtain ⟨first, hfirst, hfragment⟩ := eq_ok_of_result? (x := halfAdder ⟨0⟩ ⟨1⟩) (s := cellInputs)
    (f := AdderCell.fragment) (b := ⟨⟨0⟩, ⟨3⟩, stateRange 0 4⟩) (by decide +kernel)
  obtain ⟨second, hsecond, hfragment'⟩ := eq_ok_of_result? (x := halfAdder ⟨2⟩ ⟨4⟩) (s := oneCell)
    (f := AdderCell.fragment) (b := ⟨⟨4⟩, ⟨7⟩, stateRange 4 4⟩) (by decide +kernel)
  have hinputs : Assembled {} cellInputs [] := .call _ (.call _ .new (by simp)) (by simp)
  have hone : Assembled {} oneCell _ := .call (.createSignal "c") (hinputs.build (.halfAdder hfirst) (by
    show ∀ s ∈ [(⟨0⟩ : SignalId), ⟨1⟩], _
    decide +kernel)) fun k hk q hq => by
      rw [state?, Call.quiet rfl]
      rfl
  have htwo := hone.build (.halfAdder hsecond) (by
    show ∀ s ∈ [(⟨2⟩ : SignalId), ⟨4⟩], _
    decide +kernel)
  have hmade : handles cellInputs.signals.size
      ((after (halfAdder ⟨0⟩ ⟨1⟩) cellInputs).signals.size - cellInputs.signals.size) = [⟨2⟩, ⟨3⟩] := by decide +kernel
  have hmade' : handles oneCell.signals.size
      ((after (halfAdder ⟨2⟩ ⟨4⟩) oneCell).signals.size - oneCell.signals.size) = [⟨5⟩, ⟨6⟩] := by decide +kernel
  rw [hfragment, hfragment', hmade, hmade'] at htwo
  exact htwo

/-- The program of the two cells. -/
def cellsProgram : Program := (after (sequence (cellComponents.map Component.fragment)) twoCells).program
  ⟨⟨0⟩, ⟨7⟩, stateRange 0 8⟩

/-- A machine that has run with both inputs set, and then was restarted and given one of them only. -/
def usedCells : Machine :=
  Machine.performAll [.setSignal ⟨0⟩ true, .setSignal ⟨1⟩ true, .run, .restart, .setSignal ⟨0⟩ false] (.new cellsProgram)

/-- A new machine, given the same input. -/
def freshCells : Machine := Machine.performAll [.setSignal ⟨1⟩ true] (.new cellsProgram)

/-- The carry of the run before is still there, and it does not matter. -/
theorem usedCells_run_as_fresh :
    usedCells.valuation ⟨3⟩ = true ∧ freshCells.valuation ⟨3⟩ = false ∧
      Machine.Alike (Machine.run usedCells) (Machine.run freshCells) := by
  obtain ⟨top, hs, htop⟩ := eq_ok_of_result? (x := sequence (cellComponents.map Component.fragment)) (s := twoCells)
    (f := id) (b := ⟨⟨0⟩, ⟨7⟩, stateRange 0 8⟩) (by decide +kernel)
  have hp : (after (sequence (cellComponents.map Component.fragment)) twoCells).finish top = .ok cellsProgram := by
    rw [show top = _ from htop]
    decide +kernel
  have hlow : ∀ i < 7, (∀ k ∈ cellComponents, ⟨i⟩ ∉ k.signals) →
      usedCells.valuation ⟨i⟩ = freshCells.valuation ⟨i⟩ := by decide +kernel
  have hsize : usedCells.values.size = 7 ∧ freshCells.values.size = 7 := by decide +kernel
  have hagree : Machine.AgreeOutside cellComponents usedCells freshCells := by
    intro s hmade
    by_cases hlt : s.index < 7
    · exact hlow s.index hlt hmade
    · simp only [Machine.valuation, Valuation.ofArray, Array.getD_eq_getD_getElem?]
      rw [Array.getElem?_eq_none (by omega), Array.getElem?_eq_none (by omega)]
  refine ⟨by decide +kernel, by decide +kernel, ?_⟩
  exact (stale_values_ignored assembled_twoCells hs hp).2 {} [.setSignal ⟨0⟩ true, .setSignal ⟨1⟩ true, .run]
    [.setSignal ⟨0⟩ false] [.setSignal ⟨1⟩ true] usedCells freshCells rfl rfl (by decide) (by decide) hagree

end SignalGraph
