/-
What construction can fail for.

A step is `Orderly` if it keeps designs tidy, also where it fails, and fails only for reasons that
are allowed. Each check allows for what it reports, unless what it asks for is there; so a block
that is made in order shows what it can fail for. Names that are given and edges to and from states
that were just made are never among the reasons.
-/
import SignalGraph.Proofs.Naming
import SignalGraph.Proofs.Realizes
import SignalGraph.Proofs.TruthTable

namespace SignalGraph

theorem Word.fits_iff {value : Word} {width : Nat} : value.fits width = true ↔ value.toNat < 2 ^ width := by
  simp [fits, Nat.shiftRight_eq_div_pow, Nat.div_eq_zero_iff]

namespace Design

/-- From a tidy design the step leads to a tidy one, and it fails only for reasons that are allowed. -/
def Orderly {α : Type} (allowed : BuildError → Prop) (x : BuildM α) (d : Design) : Prop :=
  d.Tidy → (after x d).Tidy ∧ ∀ e d', x d = .error e d' → allowed e

/-- The signal exists, or that it does not is a reason that is allowed. -/
def Reads (allowed : BuildError → Prop) (d : Design) (s : SignalId) : Prop :=
  s.index < d.signals.size ∨ allowed (.unknownSignal s)

/-- The signal can be written, or that it cannot is a reason that is allowed. -/
def Writes (allowed : BuildError → Prop) (d : Design) (s : SignalId) : Prop :=
  d.Writable s ∨ allowed (.unknownSignal s) ∧ ∀ name, allowed (.constantWrite name)

/-- The state exists and has no default target yet. -/
def Loose (d : Design) (q : StateId) : Prop := ∃ n, d.state? q = some n ∧ n.defaultTarget = none

variable {allowed : BuildError → Prop} {α β : Type} {d d' : Design} {s : SignalId} {q : StateId}

theorem Reads.mono (h : Reads allowed d s) (he : Edits d d') : Reads allowed d' s :=
  h.imp_left fun hs => Nat.lt_of_lt_of_le hs he.signals_size_le

theorem Writes.mono (h : Writes allowed d s) (he : Edits d d') : Writes allowed d' s := h.imp_left he.writable

theorem Writes.reads (h : Writes allowed d s) : Reads allowed d s := h.imp Writable.lt And.left

@[simp] theorem reads_pushState {label : String} : Reads allowed (d.pushState label) s ↔ Reads allowed d s := Iff.rfl

@[simp] theorem reads_editState {change : StateNode → StateNode} :
    Reads allowed (d.editState q change) s ↔ Reads allowed d s := Iff.rfl

@[simp] theorem writes_pushState {label : String} : Writes allowed (d.pushState label) s ↔ Writes allowed d s :=
  Iff.rfl

@[simp] theorem writes_editState {change : StateNode → StateNode} :
    Writes allowed (d.editState q change) s ↔ Writes allowed d s := Iff.rfl

theorem Edits.states_size_le (h : Edits d d') : d.states.size ≤ d'.states.size := by
  refine h.invariant (I := fun d₁ => d.states.size ≤ d₁.states.size) (fun d₁ d₂ he hle => ?_) (Nat.le_refl _)
  cases he with
  | state label =>
    rw [pushState_size]
    omega
  | action | transition | default => rwa [editState_size]
  | signal | scope | zero | constant => exact hle

/-! ## States without a default -/

theorem Loose.lt (h : d.Loose q) : q.index < d.states.size := by
  obtain ⟨n, hn, -⟩ := h
  exact (Array.getElem?_eq_some_iff.mp hn).1

@[simp] theorem loose_pushState {label : String} :
    (d.pushState label).Loose q ↔ q.index = d.states.size ∨ d.Loose q := by
  simp only [Loose, state?, pushState_getElem?]
  split
  · next h => simp [h]
  · next h => simp [h]

theorem loose_editState {p : StateId} {change : StateNode → StateNode}
    (hchange : ∀ n, (change n).defaultTarget = n.defaultTarget) : (d.editState p change).Loose q ↔ d.Loose q := by
  simp only [Loose, state?, editState_getElem?]
  split
  · simp [hchange]
  · rfl

@[simp] theorem loose_addAction {p : StateId} {a : Action} : (d.editState p (·.addAction a)).Loose q ↔ d.Loose q :=
  loose_editState fun _ => rfl

@[simp] theorem loose_addTransition {p source target : StateId} {g : Guard} :
    (d.editState p (·.addTransition source target g)).Loose q ↔ d.Loose q :=
  loose_editState fun _ => rfl

@[simp] theorem loose_setDefault {p target : StateId} :
    (d.editState p (·.setDefault target)).Loose q ↔ p.index ≠ q.index ∧ d.Loose q := by
  simp only [Loose, state?, editState_getElem?]
  split
  · next h => simp [h, StateNode.setDefault]
  · next h => simp [h]

/-! ## Rules -/

namespace Orderly

theorem pure (a : α) : Orderly allowed (pure a) d := fun hd => ⟨hd, fun _ _ h => by cases h⟩

/-- A step that fails leaves the design as it was, for a reason that is allowed. -/
theorem of_error {x : BuildM α} {e : BuildError} (h : x d = .error e d) (he : allowed e) : Orderly allowed x d := by
  intro hd
  rw [after_of_error h]
  refine ⟨hd, fun e' d' h' => ?_⟩
  cases h.symm.trans h'
  exact he

theorem throw {e : BuildError} (he : allowed e) : Orderly allowed (throw e : BuildM α) d := of_error rfl he

theorem bind {x : BuildM α} {f : α → BuildM β} (hx : Orderly allowed x d)
    (hf : ∀ a d₁, x d = .ok a d₁ → Orderly allowed (f a) d₁) : Orderly allowed (x >>= f) d := by
  intro hd
  obtain ⟨htidy, herror⟩ := hx hd
  rw [after_bind]
  simp only [Bind.bind, EStateM.bind]
  cases hrun : x d with
  | ok a d₁ => exact hf a d₁ hrun (after_of_ok hrun ▸ htidy)
  | error e d₁ =>
    refine ⟨after_of_error hrun ▸ htidy, fun e' d' h => ?_⟩
    cases h
    exact herror e d₁ hrun

theorem ite {c : Prop} [Decidable c] {x y : BuildM α} (hx : c → Orderly allowed x d)
    (hy : ¬ c → Orderly allowed y d) : Orderly allowed (if c then x else y) d := by
  split
  · next h => exact hx h
  · next h => exact hy h

/-- A step that succeeds fails for no reason. -/
theorem of_ok {x : BuildM α} {a : α} (h : x d = .ok a d') (htidy : d.Tidy → d'.Tidy) : Orderly allowed x d := by
  refine fun hd => ⟨after_of_ok h ▸ htidy hd, fun e d'' he => ?_⟩
  cases h.symm.trans he

/-- What holds of a tidy design may be used. -/
theorem of_tidy {x : BuildM α} (h : d.Tidy → Orderly allowed x d) : Orderly allowed x d := fun hd => h hd hd

theorem discard {x : BuildM α} (h : Orderly allowed x d) : Orderly allowed (discard x) d := by
  intro hd
  obtain ⟨htidy, herror⟩ := h hd
  refine ⟨after_discard x d ▸ htidy, fun e d' he => ?_⟩
  simp only [Functor.discard, Functor.mapConst, EStateM.map, Function.comp] at he
  split at he
  · cases he
  · next hrun =>
    cases he
    exact herror e d' hrun

/-- A check, and what comes after it if it is passed. -/
theorem check_then {p : Prop} [Decidable p] {e : BuildError} {k : BuildM β} (h : p ∨ allowed e)
    (hk : p → Orderly allowed k d) :
    Orderly allowed ((if p then Pure.pure () else MonadExcept.throw e : BuildM Unit) >>= fun _ => k) d := by
  by_cases hp : p
  · rw [if_pos hp]
    exact hk hp
  · rw [if_neg hp]
    exact of_error rfl (h.resolve_left hp)

/-- A loop whose steps are orderly where an invariant holds. -/
theorem forM {f : α → BuildM PUnit} (I : Design → Prop) {l : List α}
    (hstep : ∀ a ∈ l, ∀ d, I d → Orderly allowed (f a) d)
    (hkeep : ∀ a ∈ l, ∀ d d', I d → f a d = .ok ⟨⟩ d' → I d') (hd : I d) : Orderly allowed (l.forM f) d := by
  induction l generalizing d with
  | nil => exact .pure _
  | cons a l ih =>
    refine .bind (hstep a (by simp) d hd) fun _ d₁ h => ?_
    exact ih (fun b hb => hstep b (by simp [hb])) (fun b hb => hkeep b (by simp [hb]))
      (hkeep a (by simp) d d₁ hd h)

theorem mapM {f : α → BuildM β} (I : Design → Prop) {l : List α}
    (hstep : ∀ a ∈ l, ∀ d, I d → Orderly allowed (f a) d)
    (hkeep : ∀ a ∈ l, ∀ b d d', I d → f a d = .ok b d' → I d') (hd : I d) : Orderly allowed (l.mapM f) d := by
  induction l generalizing d with
  | nil => exact .pure _
  | cons a l ih =>
    rw [List.mapM_cons]
    refine .bind (hstep a (by simp) d hd) fun b d₁ h => ?_
    refine .bind ?_ fun _ _ _ => .pure _
    exact ih (fun b hb => hstep b (by simp [hb])) (fun b hb => hkeep b (by simp [hb]))
      (hkeep a (by simp) b d d₁ hd h)

/-! ## Checks -/

theorem requireSignal (h : Reads allowed d s) : Orderly allowed (requireSignal s) d := by
  cases hs : d.signal? s with
  | some info => exact of_ok (requireSignal_eq_ok.mpr ⟨hs, rfl⟩) id
  | none =>
    refine of_error (by rw [Design.requireSignal, hs]) (h.resolve_left ?_)
    exact Nat.not_lt_of_le (Array.getElem?_eq_none_iff.mp hs)

theorem requireWritable (h : Writes allowed d s) : Orderly allowed (requireWritable s) d := by
  refine .bind (.requireSignal h.reads) fun info d₁ hinfo => .ite (fun hc => .throw ?_) fun _ => .pure _
  obtain ⟨hs, rfl⟩ := requireSignal_eq_ok.mp hinfo
  rcases h with hw | ⟨-, hconstant⟩
  · obtain ⟨info', hs', hc'⟩ := hw
    cases hs.symm.trans hs'
    rw [hc'] at hc
    cases hc
  · exact hconstant _

theorem requireState (h : q.index < d.states.size ∨ allowed (.unknownState q)) :
    Orderly allowed (requireState q) d := by
  cases hq : d.state? q with
  | some n => exact of_ok (requireState_eq_ok.mpr ⟨hq, rfl⟩) id
  | none =>
    refine of_error (by rw [Design.requireState, hq]) (h.resolve_left ?_)
    exact Nat.not_lt_of_le (Array.getElem?_eq_none_iff.mp hq)

theorem requireNoDefault
    (h : d.Loose q ∨ allowed (.unknownState q) ∧ ∀ label, allowed (.duplicateDefault label)) :
    Orderly allowed (requireNoDefault q) d := by
  refine .bind (.requireState (h.imp Loose.lt And.left)) fun n d₁ hn => .ite (fun hsome => .throw ?_) fun _ => .pure _
  obtain ⟨hq, rfl⟩ := requireState_eq_ok.mp hn
  rcases h with hloose | ⟨-, hduplicate⟩
  · obtain ⟨n', hq', hnone⟩ := hloose
    cases hq.symm.trans hq'
    rw [hnone] at hsome
    cases hsome
  · exact hduplicate _

/-! ## States, actions and edges -/

theorem createState (label : String) : Orderly allowed (createState label) d :=
  of_ok rfl fun hd => hd.of_names rfl rfl rfl rfl

theorem freshState (scope role : String) : Orderly allowed (freshState scope role) d := createState _

theorem updateState {change : StateNode → StateNode} (h : q.index < d.states.size ∨ allowed (.unknownState q)) :
    Orderly allowed (updateState q change) d := by
  refine .bind (.requireState h) fun n d₁ hn => ?_
  exact of_ok rfl fun hd => hd.of_names rfl rfl rfl rfl

theorem drive {b : Bool} (hs : Writes allowed d s) (hq : q.index < d.states.size ∨ allowed (.unknownState q)) :
    Orderly allowed (drive q s b) d := by
  refine .bind (.requireWritable hs) fun _ d₁ h => ?_
  obtain ⟨-, rfl⟩ := requireWritable_eq_ok.mp h
  exact .updateState hq

theorem copy {t : SignalId} (hs : Reads allowed d s) (ht : Writes allowed d t)
    (hq : q.index < d.states.size ∨ allowed (.unknownState q)) : Orderly allowed (copy q s t) d := by
  refine .bind (.requireSignal hs) fun _ d₁ h => ?_
  obtain ⟨-, rfl⟩ := requireSignal_eq_ok.mp h
  refine .bind (.requireWritable ht) fun _ d₁ h => ?_
  obtain ⟨-, rfl⟩ := requireWritable_eq_ok.mp h
  exact .updateState hq

theorem connect {target : StateId}
    (hq : d.Loose q ∨ allowed (.unknownState q) ∧ ∀ label, allowed (.duplicateDefault label))
    (ht : target.index < d.states.size ∨ allowed (.unknownState target)) : Orderly allowed (connect q target) d := by
  refine .bind (.requireState ht) fun _ d₁ h => ?_
  obtain ⟨-, rfl⟩ := requireState_eq_ok.mp h
  refine .bind (.requireNoDefault hq) fun _ d₁ h => ?_
  obtain ⟨-, rfl⟩ := requireNoDefault_eq_ok.mp h
  exact .updateState (hq.imp Loose.lt And.left)

theorem connectWhen {target : StateId} {guard : Guard}
    (hg : ∀ c ∈ guard.clauses, ∀ t ∈ c.tests, Reads allowed d t.signal)
    (hq : q.index < d.states.size ∨ allowed (.unknownState q))
    (ht : target.index < d.states.size ∨ allowed (.unknownState target)) :
    Orderly allowed (connectWhen q target guard) d := by
  refine .bind (.requireState ht) fun _ d₁ h => ?_
  obtain ⟨-, rfl⟩ := requireState_eq_ok.mp h
  refine .bind (.forM (· = d) ?_ ?_ rfl) fun _ d₁ h => ?_
  · rintro s hs _ rfl
    obtain ⟨c, hc, t, ht, rfl⟩ := Guard.mem_signals.mp hs
    exact .discard (.requireSignal (hg c hc t ht))
  · rintro s - _ d₂ rfl h
    obtain ⟨_, h⟩ := discard_eq_ok.mp h
    exact (requireSignal_eq_ok.mp h).2.symm
  · obtain ⟨-, rfl⟩ := requireSignals_eq_ok.mp h
    exact .updateState hq

/-! The same with what follows in the design that they lead to. -/

theorem freshState_then {scope role : String} {f : StateId → BuildM β}
    (hf : Orderly allowed (f ⟨d.states.size⟩) (d.pushState (scopedName scope role))) :
    Orderly allowed (Design.freshState scope role >>= f) d := by
  refine .bind (.freshState scope role) fun q d₁ h => ?_
  obtain ⟨rfl, rfl⟩ := freshState_eq_ok.mp h
  exact hf

theorem drive_then {b : Bool} {k : BuildM β} (hs : Writes allowed d s) (hq : q.index < d.states.size)
    (hk : Orderly allowed k (d.editState q (·.addAction (.drive s b)))) :
    Orderly allowed (Design.drive q s b >>= fun _ => k) d := by
  refine .bind (.drive hs (.inl hq)) fun _ d₁ h => ?_
  obtain ⟨-, -, rfl⟩ := drive_eq_ok.mp h
  exact hk

theorem connect_then {target : StateId} {k : BuildM β} (hq : d.Loose q) (ht : target.index < d.states.size)
    (hk : Orderly allowed k (d.editState q (·.setDefault target))) :
    Orderly allowed (Design.connect q target >>= fun _ => k) d := by
  refine .bind (.connect (.inl hq) (.inl ht)) fun _ d₁ h => ?_
  obtain ⟨-, -, rfl⟩ := connect_eq_ok.mp h
  exact hk

theorem connectWhen_then {target : StateId} {guard : Guard} {k : BuildM β}
    (hg : ∀ c ∈ guard.clauses, ∀ t ∈ c.tests, Reads allowed d t.signal) (hq : q.index < d.states.size)
    (ht : target.index < d.states.size)
    (hk : Orderly allowed k (d.editState q (·.addTransition q target guard))) :
    Orderly allowed (Design.connectWhen q target guard >>= fun _ => k) d := by
  refine .bind (.connectWhen hg (.inl hq) (.inl ht)) fun _ d₁ h => ?_
  obtain ⟨-, -, -, rfl⟩ := connectWhen_eq_ok.mp h
  exact hk

/-! ## Scopes, signals and constants -/

theorem reserveScope (kind : String) : Orderly allowed (reserveScope kind) d :=
  of_ok rfl fun hd => hd.mono (Nat.le_succ _) id (fun _ => id) fun _ => .inl

/-- A scope that is reserved has all its names free. -/
theorem inScope {kind : String} (hkind : IsKind kind) {f : String → BuildM β}
    (hf : ∀ scope d₁, Edits d d₁ → d₁.Opened scope → (∀ role, scopedName scope role ∉ d₁.names) →
      Orderly allowed (f scope) d₁) :
    Orderly allowed (Design.reserveScope kind >>= f) d := by
  refine .of_tidy fun hd => .bind (.reserveScope kind) fun scope d₁ h => ?_
  have he := (reserveScope_makes kind).edits h
  obtain ⟨rfl, rfl⟩ := reserveScope_eq_ok.mp h
  exact hf _ _ he ⟨kind, d.scopes, hkind, Nat.lt_succ_self _, rfl⟩ (hd.scopedName_notMem hkind)

theorem addSignal {name : String} {initial constant : Bool} (hname : d.Issued name)
    (hfree : name ∉ d.names ∨ allowed (.signalCollision name)) :
    Orderly allowed (addSignal name initial constant) d := by
  by_cases hmem : name ∈ d.names
  · refine of_error ?_ (hfree.resolve_left (absurd hmem))
    rw [Design.addSignal, if_pos (Std.TreeMap.mem_iff_contains.mp hmem)]
  · exact of_ok (addSignal_eq_ok.mpr ⟨hmem, rfl, rfl⟩) fun hd => hd.pushSignal hname

theorem freshSignal {scope role : String} (hopen : d.Opened scope) (hfree : scopedName scope role ∉ d.names) :
    Orderly allowed (freshSignal scope role) d := addSignal (.reserved role hopen) (.inl hfree)

theorem addBitsFrom {name : String} {initial : Nat → Bool} {constant : Bool}
    (hname : ∀ j : Nat, '.' ∉ (s!"{name}[{j}]").toList) (hcollision : ∀ name, allowed (.signalCollision name))
    {count : Nat} : ∀ {i : Nat} {d : Design}, Orderly allowed (addBitsFrom name initial constant i count) d := by
  induction count with
  | zero => exact .pure _
  | succ count ih =>
    exact .bind (.addSignal (.chosen (hname _)) (.inr (hcollision _))) fun _ _ _ => .bind ih fun _ _ _ => .pure _

/-- A register whose name a caller chose. -/
theorem createRegister {name : String} {width : Nat} (hname : '.' ∉ name.toList)
    (hzero : allowed (.zeroWidth name)) (hcollision : ∀ name, allowed (.signalCollision name)) :
    Orderly allowed (createRegister name width) d :=
  .ite (fun _ => .throw hzero) fun _ =>
    .bind (.addBitsFrom (dot_notMem_bitName hname) hcollision) fun _ _ _ => .pure _

/-- A register in a scope. -/
theorem freshRegister {scope role : String} {width : Nat} (hopen : d.Opened scope)
    (hfree : ∀ role, scopedName scope role ∉ d.names)
    (hwidth : 0 < width ∨ ∀ name, allowed (.zeroWidth name)) :
    Orderly allowed (freshRegister scope role width) d := by
  refine .ite (fun hw => .throw (hwidth.resolve_left (by omega) _)) fun _ => ?_
  have hbits : ∀ j : Nat, s!"{scopedName scope role}[{j}]" ∉ d.names :=
    fun j => bitName_scopedName scope role j ▸ hfree _
  obtain ⟨r, d', hr⟩ := addBits_of_notMem hbits width (fun _ => false) false
  refine .of_ok hr fun hd => ?_
  have hnames := addBits_names hr
  obtain ⟨-, hd'⟩ := addBits_ok hr
  rw [hd'] at hnames ⊢
  refine hd.mono (Nat.le_refl _) id (fun _ => id) fun x hx => (hnames x hx).imp_right ?_
  rintro ⟨j, rfl⟩
  exact bitName_scopedName scope role j ▸ .reserved _ hopen

theorem zeroSignal : Orderly allowed zeroSignal d := by
  cases hz : d.zero with
  | some s => exact of_ok (by rw [Design.zeroSignal, hz]) id
  | none =>
    refine .of_tidy fun hd => ?_
    have hrun : Design.zeroSignal d = .ok ⟨d.signals.size⟩
        { d.pushSignal ⟨"const.zero", false, true⟩ with zero := some ⟨d.signals.size⟩ } := by
      rw [Design.zeroSignal, hz]
      exact bind_eq_ok.mpr ⟨_, _, addSignal_eq_ok.mpr ⟨hd.zero_notMem hz, rfl, rfl⟩, rfl⟩
    refine of_ok hrun fun _ => hd.mono (Nat.le_refl _) (fun _ => rfl) (fun _ => id) fun x hx => ?_
    rcases mem_names_pushSignal.mp hx with rfl | hold
    · exact .inr (.zero rfl)
    · exact .inl hold

theorem addConstant {key : ConstantKey} (hkey : d.constants.lookup key = none) (width : Nat) (bit : Nat → Bool) :
    Orderly allowed (addConstant key width bit) d := by
  refine .of_tidy fun hd => ?_
  obtain ⟨r, d', hr⟩ := addBits_of_notMem (hd.constant_notMem hkey) width bit true
  have hrun : Design.addConstant key width bit d = .ok r { d' with constants := (key, r) :: d'.constants } :=
    bind_eq_ok.mpr ⟨r, d', hr, rfl⟩
  have hnames := addBits_names hr
  obtain ⟨-, hd'⟩ := addBits_ok hr
  refine of_ok hrun fun _ => ?_
  rw [hd'] at hnames ⊢
  refine hd.mono (Nat.le_refl _) id (fun key' hkey' => ?_) fun x hx => (hnames x hx).imp_right ?_
  · simp only [List.lookup_cons]
    split
    · rfl
    · exact hkey'
  · rintro ⟨j, rfl⟩
    exact .constant j (by simp)

theorem constantOr {key : ConstantKey} {make : BuildM Register}
    (h : d.constants.lookup key = none → Orderly allowed make d) : Orderly allowed (constantOr key make) d := by
  cases hk : d.constants.lookup key with
  | some r => exact of_ok (by rw [Design.constantOr, hk]) id
  | none =>
    have : Orderly allowed (Design.constantOr key make) d ↔ Orderly allowed make d := by
      simp only [Orderly, after, Design.constantOr, hk]
    exact this.mpr (h hk)

theorem constantRegister {value : Word} {width : Nat} (hwidth : 0 < width ∨ ∀ name, allowed (.zeroWidth name))
    (hfits : 0 < width → value.fits width = true ∨ allowed (.literalOverflow value width)) :
    Orderly allowed (constantRegister value width) d := by
  refine .constantOr fun hkey => .ite (fun hw => .throw (hwidth.resolve_left (by omega) _)) fun hw => ?_
  exact .ite (fun _ => .addConstant hkey _ _) fun hf => .throw ((hfits (by omega)).resolve_left hf)

theorem one {width : Nat} (hwidth : 0 < width ∨ ∀ name, allowed (.zeroWidth name)) :
    Orderly allowed (one width) d := by
  exact .constantRegister hwidth fun hpos => .inl (Word.fits_iff.mpr (Nat.one_lt_two_pow (by omega)))

theorem minusOne {width : Nat} (hwidth : 0 < width ∨ ∀ name, allowed (.zeroWidth name)) :
    Orderly allowed (minusOne width) d := by
  refine .ite (fun hle => .constantRegister hwidth fun hpos => .inl ?_) fun _ =>
    .constantOr fun hkey => .addConstant hkey _ _
  rw [Nat.max_eq_left hpos, Word.fits_iff, toNat_ones hle]
  exact Nat.sub_lt (Nat.two_pow_pos _) Nat.one_pos

/-! ## Fragments -/

/-- Chains of any fragments keep designs tidy. -/
theorem chain_tidy (first second : Fragment) : Orderly (fun _ => True) (chain first second) d :=
  .bind (.connect (.inr ⟨trivial, fun _ => trivial⟩) (.inr trivial)) fun _ _ _ => .pure _

theorem sequence_tidy : ∀ fragments : List Fragment, Orderly (fun _ => True) (sequence fragments) d
  | [] => .throw trivial
  | first :: rest => by
    show Orderly _ (rest.foldlM chain first) d
    induction rest generalizing first d with
    | nil => exact .pure _
    | cons second rest ih =>
      rw [List.foldlM_cons]
      exact .bind (.chain_tidy first second) fun top d₁ _ => ih top

end Orderly

end Design

end SignalGraph
