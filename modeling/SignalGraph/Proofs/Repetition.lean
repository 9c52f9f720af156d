/-
Fragments that are listed more than once.

Of a list that can be put in sequence no exit but the last occurs again, since an exit has one default
(`sequence_exits_nodup`). The last may: then its exit leads on to what is listed after its first
occurrence, but a run ends there. So the exits that a run enters are those that are listed up to the first
that is the program's exit (`Separate.filter_exits`), and these are all just when nothing is listed twice.
-/
import SignalGraph.Proofs.Assembly
import SignalGraph.Proofs.Faults
import SignalGraph.Proofs.Grouping
import SignalGraph.Proofs.Iteration

namespace SignalGraph

open Design

/-! ## Blocks in a design -/

/-- A design that was made by any calls, also such that failed, and the fragments of blocks that were built
on the way. -/
inductive Populated (settings : DesignSettings) : Design → List Fragment → Prop
  | new : Populated settings (.new settings) []
  | call {d : Design} {fs : List Fragment} (c : Design.Call) (h : Populated settings d fs) :
    Populated settings (after c.perform d) fs
  | build {d d' : Design} {fs : List Fragment} {i : Instruction} {f : Fragment} (h : Populated settings d fs)
    (hb : Builds d i f d') : Populated settings d' (fs ++ [f])

/-- The fragments have their ends, and no state of the design is in two of them. -/
structure Separate (d : Design) (fs : List Fragment) : Prop where
  known : ∀ f ∈ fs, ∀ q ∈ f.states, q.index < d.states.size
  entry : ∀ f ∈ fs, f.entry ∈ f.states
  exit : ∀ f ∈ fs, f.exit ∈ f.states
  disjoint : fs.Pairwise fun f g => f.states.Disjoint g.states

theorem Populated.separate {settings : DesignSettings} {d : Design} {fs : List Fragment}
    (h : Populated settings d fs) : Separate d fs := by
  induction h with
  | new => exact ⟨by simp, by simp, by simp, .nil⟩
  | @call d _ c _ ih =>
    have hle := Edits.states_size_le (c.makes d)
    exact { ih with known := fun f hf q hq => Nat.lt_of_lt_of_le (ih.known f hf q hq) hle }
  | @build d d' fs i f _ hb ih =>
    obtain ⟨-, hstretch, -, hlt, -⟩ := hb.lays.stretch
    have hnew : ∀ q ∈ f.states, d.states.size ≤ q.index ∧ q.index < d'.states.size := fun q => hb.lays.mem_states.mp
    refine ⟨List.forall_mem_append.mpr ⟨fun g hg q hq => ?_, List.forall_mem_singleton.mpr fun q hq => (hnew q hq).2⟩,
      List.forall_mem_append.mpr ⟨ih.entry, List.forall_mem_singleton.mpr hstretch.entry_mem⟩,
      List.forall_mem_append.mpr ⟨ih.exit, List.forall_mem_singleton.mpr hstretch.exit_mem⟩, ?_⟩
    · exact Nat.lt_trans (ih.known g hg q hq) hlt
    · refine List.pairwise_append.mpr ⟨ih.disjoint, List.pairwise_singleton _ _, fun g hg g' hg' q hq hq' => ?_⟩
      rw [List.mem_singleton.mp hg'] at hq'
      exact Nat.lt_irrefl _ (Nat.lt_of_lt_of_le (ih.known g hg q hq) (hnew q hq').1)

/-- No edge leads out of the fragment, but for a default that its exit may have. -/
structure Design.Seals (d : Design) (f : Fragment) : Prop where
  inside : ∀ q ∈ f.states, q ≠ f.exit → ∀ n, d.state? q = some n → ∀ target ∈ n.successors, target ∈ f.states
  exit : ∀ n, d.state? f.exit = some n → n.transitions = []

theorem Design.Seals.congr {d d' : Design} {f : Fragment} (h : d.Seals f) (hexit : f.exit ∈ f.states)
    (heq : ∀ q ∈ f.states, d'.state? q = d.state? q) : d'.Seals f := by
  refine ⟨fun q hq hne n hn => h.inside q hq hne n ?_, fun n hn => h.exit n ?_⟩
  · rwa [heq q hq] at hn
  · rwa [heq f.exit hexit] at hn

theorem Builds.seals {d d' : Design} {i : Instruction} {f : Fragment} (h : Builds d i f d') : d'.Seals f := by
  obtain ⟨-, hstretch, ⟨n, hn, htrans, -⟩, -⟩ := h.lays.stretch
  refine ⟨hstretch.confined.inside, fun n' hn' => ?_⟩
  cases hn.symm.trans hn'
  exact htrans

/-- If nothing but blocks was built, all of them are sealed. -/
theorem Composed.populated {settings : DesignSettings} {d : Design} {fs : List Fragment}
    (h : Composed settings d fs) : Populated settings d fs ∧ ∀ f ∈ fs, d.Seals f := by
  induction h with
  | new => exact ⟨.new, by simp⟩
  | @declare d _ c _ hc ih =>
    refine ⟨.call c ih.1, fun f hf => (ih.2 f hf).congr (ih.1.separate.exit f hf) fun q _ => ?_⟩
    rw [state?, state?, Call.quiet hc]
  | @build d d' _ _ _ _ hb ih =>
    refine ⟨.build ih.1 hb, List.forall_mem_append.mpr ⟨fun f hf => ?_, List.forall_mem_singleton.mpr hb.seals⟩⟩
    refine (ih.2 f hf).congr (ih.1.separate.exit f hf) fun q hq => ?_
    have hlt := ih.1.separate.known f hf q hq
    have hkept := List.prefix_iff_getElem?.mp hb.lays.stretch.1 q.index hlt
    rw [state?, state?, Array.getElem?_eq_getElem hlt, ← Array.getElem?_toList, hkept, Array.getElem_toList]

/-! ## Exits in a sequence -/

namespace Design

/-- Of edges that could be made no two leave the same state. -/
theorem connectAll_sources_nodup {l : List (StateId × StateId)} {d d' : Design} (h : connectAll l d = .ok ⟨⟩ d') :
    (l.map Prod.fst).Nodup := by
  induction l generalizing d with
  | nil => exact .nil
  | cons e l ih =>
    obtain ⟨d₁, he, hl⟩ := connectAll_cons.mp h
    refine List.nodup_cons.mpr ⟨fun hmem => ?_, ih hl⟩
    obtain ⟨e', he', hsource⟩ := List.mem_map.mp hmem
    -- Take the other edge first: its source must have no default, and it has got one.
    obtain ⟨_, hagain, -⟩ := connectAll_cons.mp (connectAll_perm (List.perm_cons_erase he') hl)
    obtain ⟨-, ⟨n, hn, hdefault⟩, -⟩ := connect_eq_ok.mp hagain
    obtain ⟨-, ⟨n', hn', -⟩, rfl⟩ := connect_eq_ok.mp he
    rw [hsource, state?, editState_getElem?_self hn'] at hn
    cases hn
    cases hdefault

theorem links_sources (f : Fragment) (rest : List Fragment) :
    (links f rest).map Prod.fst = ((f :: rest).map Fragment.exit).dropLast := by
  induction rest generalizing f with
  | nil => rfl
  | cons g rest ih => exact congrArg (f.exit :: ·) (ih g)

/-- No exit but the last is listed twice. -/
theorem sequence_exits_nodup {gs : List Fragment} {top : Fragment} {d d' : Design}
    (h : sequence gs d = .ok top d') : (gs.map Fragment.exit).dropLast.Nodup := by
  cases gs with
  | nil => exact .nil
  | cons f rest =>
    rw [← links_sources]
    exact connectAll_sources_nodup (sequence_cons_eq_ok.mp h).2

end Design

theorem Fragment.getLast?_exits (f : Fragment) (rest : List Fragment) :
    ((f :: rest).map Fragment.exit).getLast? = some (rest.foldl Fragment.join f).exit := by
  induction rest generalizing f with
  | nil => rfl
  | cons g rest ih =>
    rw [List.map_cons, List.map_cons, List.getLast?_cons_cons, ← List.map_cons, ih g]
    exact congrArg some (exit_foldl_join rest g (f.join g) rfl)

theorem Design.sequence_exit {gs : List Fragment} {top : Fragment} {d d' : Design}
    (h : sequence gs d = .ok top d') : (gs.map Fragment.exit).getLast? = some top.exit := by
  cases gs with
  | nil => cases h
  | cons f rest => rw [Fragment.getLast?_exits, (sequence_cons_eq_ok.mp h).1]

theorem Linked.left {t : Array StateNode} {f : Fragment} {rest rest' : List Fragment}
    (h : Linked t f (rest ++ rest')) : Linked t f rest := by
  induction rest generalizing f with
  | nil => trivial
  | cons g rest ih => exact ⟨h.1, ih h.2⟩

/-- The states that runs in turn enter, without those inside a fragment, are the exits one after the other. -/
theorem InTurn.filter_exits {signals : Array SignalInfo} {t : Array StateNode} {isExit : StateId → Bool} :
    ∀ {l : List Fragment} {v w : Array Bool} {ks : List Nat} {paths : List (List StateId)},
    InTurn (l.map fun g => ⟨signals, t, g.entry, g.exit⟩) v ks paths w → (∀ g ∈ l, g.Confined t) →
    (∀ g ∈ l, isExit g.exit = true) → (∀ g ∈ l, ∀ q ∈ g.states, q ≠ g.exit → isExit q = false) →
    paths.flatten.filter isExit = l.map Fragment.exit
  | [], _, _, _, _, h, _, _, _ => by
    cases h
    rfl
  | g :: l, _, _, _, _, h, hconf, hexit, hinside => by
    rw [List.forall_mem_cons] at hconf hexit hinside
    cases h with
    | cons hp hps =>
    obtain ⟨route, u, hwalk, hx, -, rfl, -⟩ := completes_iff.mp hp
    have hroute : route.filter isExit = [] := by
      refine List.filter_eq_nil_iff.mpr fun q hq hmem => ?_
      have hne : q ≠ g.exit := fun he => hx (show g.exit ∈ route from he ▸ hq)
      rw [hinside.1 q (hwalk.stays hconf.1 hconf.1.entry hx q hq) hne] at hmem
      cases hmem
    rw [List.flatten_cons, List.filter_append, List.filter_append, hroute,
      filter_exits hps hconf.2 hexit.2 hinside.2, List.nil_append, List.filter_cons_of_pos hexit.1]
    rfl

namespace Separate

variable {d d' : Design} {fs gs : List Fragment} {f g top : Fragment}

theorem eq_of_mem (h : Separate d fs) (hf : f ∈ fs) (hg : g ∈ fs) {q : StateId} (hqf : q ∈ f.states)
    (hqg : q ∈ g.states) : f = g := by
  by_contra hne
  exact h.disjoint.forall hf hg hne hqf hqg

theorem nodup_exits (h : Separate d fs) (hgs : ∀ g ∈ gs, g ∈ fs) : (gs.map Fragment.exit).Nodup ↔ gs.Nodup := by
  refine ⟨.of_map _, fun hn => hn.map_on fun f hf g hg he => ?_⟩
  exact h.eq_of_mem (hgs f hf) (hgs g hg) (h.exit f (hgs f hf)) (he ▸ h.exit g (hgs g hg))

/-- No exit of a fragment is inside one. -/
theorem exit_of_mem (h : Separate d fs) (hgs : ∀ g ∈ gs, g ∈ fs) (hg : g ∈ gs) {q : StateId} (hq : q ∈ g.states)
    (hexit : q ∈ gs.map Fragment.exit) : q = g.exit := by
  obtain ⟨g', hg', rfl⟩ := List.mem_map.mp hexit
  rw [h.eq_of_mem (hgs g hg) (hgs g' hg') hq (h.exit g' (hgs g' hg'))]

/-- Sequencing leaves the states inside the fragments as they are. -/
theorem confined (h : Separate d fs) (hgs : ∀ g ∈ gs, g ∈ fs) (hsealed : ∀ g ∈ gs, d.Seals g)
    (hs : sequence gs d = .ok top d') : ∀ g ∈ gs, g.Confined d'.states := by
  intro g hg
  refine ⟨h.entry g (hgs g hg), h.exit g (hgs g hg), fun q hq hne n hn => (hsealed g hg).inside q hq hne n ?_⟩
  cases gs with
  | nil => cases hg
  | cons f rest =>
    refine (foldlM_chain_keeps hs fun g' hg' he => hne ?_).symm.trans hn
    exact h.exit_of_mem hgs hg hq (List.mem_map.mpr ⟨g', hg', congrArg StateId.mk he⟩)

/-- A run through the sequence goes through the fragments up to one that ends where the sequence does. -/
theorem filter_exits {rest ys : List Fragment} (h : Separate d fs) (hgs : ∀ g ∈ f :: (rest ++ ys), g ∈ fs)
    (hsealed : ∀ g ∈ f :: (rest ++ ys), d.Seals g) (hs : sequence (f :: (rest ++ ys)) d = .ok top d')
    (hexit : (rest.foldl Fragment.join f).exit = top.exit) (hnodup : ((f :: rest).map Fragment.exit).Nodup)
    {v w : Array Bool} {k : Nat} {path : List StateId} (hc : (d'.program top).Completes v k path w) :
    path.filter (· ∈ (f :: (rest ++ ys)).map Fragment.exit) = (f :: rest).map Fragment.exit := by
  have hsub : ∀ g ∈ f :: rest, g ∈ f :: (rest ++ ys) := fun g hg =>
    show g ∈ (f :: rest) ++ ys from List.mem_append_left ys hg
  have hconf : ∀ g ∈ f :: rest, g.Confined d'.states := fun g hg => h.confined hgs hsealed hs g (hsub g hg)
  have hdisj : (f :: rest).Pairwise fun f g => f.states.Disjoint g.states :=
    (List.Nodup.of_map _ hnodup).pairwise_of_forall_ne fun g hg g' hg' hne q hq hq' =>
      hne (h.eq_of_mem (hgs g (hsub g hg)) (hgs g' (hsub g' hg')) hq hq')
  have hlink : Linked d'.states f rest := (foldlM_chain_linked hs fun g hg => (hsealed g hg).exit).left
  have hp : d'.program top = ⟨d'.signals, d'.states, f.entry, (rest.foldl Fragment.join f).exit⟩ := by
    rw [program, hexit, (sequence_cons_eq_ok.mp hs).1, Fragment.entry_foldl_join]
  rw [hp] at hc
  obtain ⟨ks, paths, hturn⟩ := inTurn_of_completes rest f hconf hdisj hlink hc
  obtain ⟨-, rfl, -⟩ := hc.det (completes_of_inTurn rest f hconf hdisj hlink hturn)
  refine hturn.filter_exits hconf (fun g hg => ?_) fun g hg q hq hne => ?_
  · exact decide_eq_true (List.mem_map_of_mem (hsub g hg))
  · exact decide_eq_false fun hmem => hne (h.exit_of_mem hgs (hsub g hg) hq hmem)

end Separate

/-- The fragments up to the first that ends where the last does. -/
theorem exists_upTo {gs : List Fragment} {x : StateId} (hlast : (gs.map Fragment.exit).getLast? = some x)
    (hnodup : (gs.map Fragment.exit).dropLast.Nodup) :
    ∃ f rest ys, gs = f :: (rest ++ ys) ∧ (rest.foldl Fragment.join f).exit = x ∧
      ((f :: rest).map Fragment.exit).Nodup ∧
      (f :: rest).map Fragment.exit = (gs.map Fragment.exit).takeWhile (· ≠ x) ++ [x] ∧
      (ys = [] ↔ (gs.map Fragment.exit).Nodup) := by
  obtain ⟨_, _, hexits, hfirst⟩ := List.eq_append_cons_of_mem (List.mem_of_getLast? hlast)
  obtain ⟨xs, _, rfl, rfl, hys⟩ := List.map_eq_append_iff.mp hexits
  obtain ⟨g, ys, rfl, hg, rfl⟩ := List.map_eq_cons_iff.mp hys
  rw [hexits] at hlast hnodup ⊢
  obtain ⟨f, rest, hshown⟩ := List.exists_cons_of_ne_nil (l := xs ++ [g]) (by simp)
  have hmap : (f :: rest).map Fragment.exit = xs.map Fragment.exit ++ [x] := by
    rw [← hshown, List.map_append, List.map_singleton, hg]
  have hend := Fragment.getLast?_exits f rest
  rw [hmap, List.getLast?_concat] at hend
  rw [List.dropLast_append_of_ne_nil (by simp)] at hnodup
  have hnodup' : (xs.map Fragment.exit ++ [x]).Nodup :=
    List.nodup_append'.mpr ⟨hnodup.of_append_left, List.nodup_singleton x, by simpa using hfirst⟩
  refine ⟨f, rest, ys, ?_, (Option.some.inj hend).symm, hmap ▸ hnodup', ?_, ?_⟩
  · rw [← List.cons_append, ← hshown, List.append_assoc]
    rfl
  · have hpos : ∀ q ∈ xs.map Fragment.exit, decide (q ≠ x) = true := fun q hq =>
      decide_eq_true fun he => hfirst (he ▸ hq)
    rw [hmap, List.takeWhile_append_of_pos hpos, List.takeWhile_cons_of_neg (by simp), List.append_nil]
  · constructor
    · rintro rfl
      exact hnodup'
    · intro hn
      cases ys with
      | nil => rfl
      | cons y ys =>
        rw [List.map_cons, List.getLast?_append_cons, List.getLast?_cons_cons, ← List.map_cons] at hlast
        exact absurd (List.mem_of_getLast? hlast) (List.nodup_cons.mp hn.of_append_right).1

/-! ## What a run enters -/

/-- A machine that has halted is at the end of a run of the program. -/
theorem Machine.completes_of_isHalted {p : Program} {limits : RunSettings} {v : Array Bool} {calls : List Advance}
    (h : (calls.foldl Advance.apply (load p limits v)).isHalted = true) :
    ∃ k w, p.Completes v k (calls.foldl Advance.apply (load p limits v)).entered w := by
  rcases reaches_foldl calls (load p limits v) with heq | ⟨k, hreaches⟩
  · rw [heq] at h
    cases h
  · exact ⟨k, _, k, _, (hreaches k).run h (Nat.le_refl k), rfl, rfl⟩

/-- **A run enters what is listed up to the first exit of the program.** Take blocks that were built in a
design, listed in any order and any number of times, with no edges that lead out of them. If they can be put
in sequence and finished, then from all values, and whatever steps and runs have brought it there, a machine
that has halted has entered, of the listed exits, those up to the first that is the program's exit. These are
all of them, in the order of the list and once for each time that they are listed, just when no block is
listed twice. If one is, they are not even a part of what was entered. -/
theorem sequence_enters_exits_iff_nodup {settings : DesignSettings} {d d' : Design} {fs gs : List Fragment}
    {top : Fragment} {p : Program} (h : Populated settings d fs) (hgs : ∀ g ∈ gs, g ∈ fs)
    (hsealed : ∀ g ∈ gs, d.Seals g) (hs : sequence gs d = .ok top d') (hp : d'.finish top = .ok p)
    (limits : RunSettings) (v : Array Bool) (calls : List Machine.Advance) (m : Machine)
    (hm : calls.foldl Machine.Advance.apply (.load p limits v) = m) (hhalted : m.isHalted = true) :
    m.entered.filter (· ∈ gs.map Fragment.exit) = (gs.map Fragment.exit).takeWhile (· ≠ p.exit) ++ [p.exit] ∧
    (m.entered.filter (· ∈ gs.map Fragment.exit) = gs.map Fragment.exit ↔ gs.Nodup) ∧
    ((gs.map Fragment.exit).Sublist m.entered ↔ gs.Nodup) := by
  subst hm
  obtain ⟨rfl, -⟩ := finish_ok hp
  obtain ⟨k, w, hc⟩ := Machine.completes_of_isHalted hhalted
  obtain ⟨f, rest, ys, rfl, hexit, hnodup, hshown, hall⟩ := exists_upTo (sequence_exit hs) (sequence_exits_nodup hs)
  have hfilter := h.separate.filter_exits hgs hsealed hs hexit hnodup hc
  rw [h.separate.nodup_exits hgs] at hall
  refine ⟨hfilter.trans hshown, ?_, ?_⟩
  · rw [hfilter, ← hall, ← List.cons_append, List.map_append, List.self_eq_append_right, List.map_eq_nil_iff]
  · rw [← hall]
    constructor
    · intro hsub
      have hle := (hsub.filter (· ∈ (f :: (rest ++ ys)).map Fragment.exit)).length_le
      rw [hfilter, List.filter_eq_self.mpr fun q hq => decide_eq_true hq] at hle
      simp only [List.length_map, List.length_cons, List.length_append] at hle
      exact List.eq_nil_of_length_eq_zero (by omega)
    · rintro rfl
      rw [List.append_nil] at hfilter ⊢
      rw [← hfilter]
      exact List.filter_sublist

def twoSignals : Design := Design.performAll [.createSignal "x", .createSignal "y"] (.new {})

def oneLoad : Design := after (Block.loadSignal ⟨0⟩ true) twoSignals

/-- Two signals, and a block for each that sets it. -/
def twoLoads : Design := after (Block.loadSignal ⟨1⟩ true) oneLoad

theorem composed_twoLoads : Composed {} twoLoads [.single ⟨0⟩, .single ⟨1⟩] := by
  have hfirst : Block.loadSignal ⟨0⟩ true twoSignals = .ok (.single ⟨0⟩) oneLoad := rfl
  have hsecond : Block.loadSignal ⟨1⟩ true oneLoad = .ok (.single ⟨1⟩) twoLoads := rfl
  have hsignals : Composed {} twoSignals [] :=
    .declare (c := .createSignal "y") (.declare (c := .createSignal "x") .new rfl) rfl
  exact (hsignals.build (.loadSignal hfirst)).build (.loadSignal hsecond)

/-- The two blocks, and an adder of the two signals. -/
def loadsAndCell : Design := after (Block.halfAdder ⟨0⟩ ⟨1⟩) twoLoads

/-- The second load, the adder, and the first load. -/
def shuffledBlocks : List Fragment := [.single ⟨1⟩, ⟨⟨2⟩, ⟨5⟩, stateRange 2 4⟩, .single ⟨0⟩]

def shuffledProgram : Program :=
  (after (sequence shuffledBlocks) loadsAndCell).program ⟨⟨1⟩, ⟨0⟩, ⟨1⟩ :: (stateRange 2 4 ++ [⟨0⟩])⟩

theorem shuffledBlocks_enter_exits :
    ∃ top d' m, sequence shuffledBlocks loadsAndCell = .ok top d' ∧ d'.finish top = .ok shuffledProgram ∧
      [.step, .run 0, .run 9].foldl Machine.Advance.apply (.load shuffledProgram {} #[true, false, false, false]) = m ∧
      m.isHalted = true ∧ m.entered.filter (· ∈ shuffledBlocks.map Fragment.exit) = [⟨1⟩, ⟨5⟩, ⟨0⟩] := by
  obtain ⟨cell, hcell, hfragment⟩ := eq_ok_of_result? (x := Block.halfAdder ⟨0⟩ ⟨1⟩) (s := twoLoads)
    (f := Block.AdderCell.fragment) (b := ⟨⟨2⟩, ⟨5⟩, stateRange 2 4⟩) (by decide +kernel)
  have hbuilt : Composed {} loadsAndCell _ := composed_twoLoads.build (.halfAdder hcell)
  rw [hfragment] at hbuilt
  obtain ⟨hpopulated, hseals⟩ := hbuilt.populated
  have hmem : ∀ f ∈ shuffledBlocks, f ∈ [.single ⟨0⟩, .single ⟨1⟩] ++ [⟨⟨2⟩, ⟨5⟩, stateRange 2 4⟩] := by decide
  obtain ⟨top, hs, htop⟩ := eq_ok_of_result? (x := sequence shuffledBlocks) (s := loadsAndCell) (f := id)
    (b := ⟨⟨1⟩, ⟨0⟩, ⟨1⟩ :: (stateRange 2 4 ++ [⟨0⟩])⟩) (by decide +kernel)
  have hp : (after (sequence shuffledBlocks) loadsAndCell).finish top = .ok shuffledProgram := by
    rw [show top = _ from htop]
    decide +kernel
  have hhalted : ([Machine.Advance.step, .run 0, .run 9].foldl Machine.Advance.apply
      (.load shuffledProgram {} #[true, false, false, false])).isHalted = true := by decide +kernel
  have hrun := sequence_enters_exits_iff_nodup hpopulated hmem (fun f hf => hseals f (hmem f hf)) hs hp {}
    #[true, false, false, false] _ _ rfl hhalted
  exact ⟨top, _, _, hs, hp, rfl, hhalted, hrun.2.1.mpr (by decide)⟩

/-- The first load, the second, and the first once more. -/
def repeatedBlocks : List Fragment := [.single ⟨0⟩, .single ⟨1⟩, .single ⟨0⟩]

def repeatedProgram : Program := (after (sequence repeatedBlocks) twoLoads).program ⟨⟨0⟩, ⟨0⟩, [⟨0⟩, ⟨1⟩, ⟨0⟩]⟩

/-- All is accepted, and the second load is skipped. -/
theorem repeatedBlocks_skip :
    Composed {} twoLoads [.single ⟨0⟩, .single ⟨1⟩] ∧
    ∃ top d' k m, sequence repeatedBlocks twoLoads = .ok top d' ∧ d'.settings.validateOnFinish = true ∧
      d'.finish top = .ok repeatedProgram ∧ Machine.run (.new repeatedProgram) = .ok k m ∧ m.isHalted = true ∧
      m.entered = [⟨0⟩] ∧ m.valuation ⟨1⟩ = false ∧ ¬ (repeatedBlocks.map Fragment.exit).Sublist m.entered := by
  have hs : sequence repeatedBlocks twoLoads =
      .ok ⟨⟨0⟩, ⟨0⟩, [⟨0⟩, ⟨1⟩, ⟨0⟩]⟩ (after (sequence repeatedBlocks) twoLoads) := rfl
  have hp : (after (sequence repeatedBlocks) twoLoads).finish ⟨⟨0⟩, ⟨0⟩, [⟨0⟩, ⟨1⟩, ⟨0⟩]⟩ = .ok repeatedProgram := by
    decide +kernel
  exact ⟨composed_twoLoads, _, _, 0, _, hs, rfl, hp, rfl, rfl, rfl, by decide +kernel, by decide +kernel⟩

end SignalGraph
